import Xv6Filter.Kernel.Syscall
import Xv6Filter.Lib.Run

namespace Xv6Filter

/-- Where a process stands in the kernel between two sections that other
processes can interleave with. Sections held together by a lock are one step. -/
inductive Kpc where
  /-- in user mode -/
  | user
  /-- `syscall()` has returned to `usertrap()` -/
  | sysret
  /-- `kfork`: `allocproc` is about to look at slot `j` -/
  | alloc (j : Nat)
  /-- `kfork`: the child is complete, `np->parent` is not set yet -/
  | adopt (child : Slot)
  /-- `kfork`: about to make the child RUNNABLE -/
  | launch (child : Slot)
  /-- in `kexit`, before the section under `wait_lock` -/
  | exit (status : I32)
  /-- `kexit` has given up the CPU for good -/
  | gone
  /-- `kwait`: about to scan the table -/
  | wait (addr : U64)
  /-- `kkill`: about to look at slot `j` -/
  | kill (pid : I32) (j : Nat)
  /-- a refused call is being written to the audit log -/
  | audit
  /-- in a handler that touches neither the filter nor the life cycle -/
  | busy (s : Sys)
  deriving DecidableEq, Repr

structure Machine where
  k : Kernel
  pc : Slot → Kpc

/-- The private fields of a process that the file, memory and exec calls change. -/
structure Private where
  sz : U64
  pagetable : PageTable
  trapframe : Trapframe
  ofile : Fin nofile → Option Fp
  cwd : Option Ip
  name : List Byte

def Proc.withPrivate (p : Proc) (v : Private) : Proc :=
  { p with
    sz := v.sz
    pagetable := v.pagetable
    trapframe := v.trapframe
    ofile := v.ofile
    cwd := v.cwd
    name := v.name }

/-- One step: which process moves, and what the rest of the kernel and the user
program contribute to it. -/
inductive Event where
  /-- the scheduler picks a RUNNABLE process; a timer interrupt takes the CPU away -/
  | sched (i : Slot)
  | yield (i : Slot)
  /-- user code runs and leaves any registers and any memory -/
  | user (i : Slot) (tf : Trapframe) (pt : PageTable)
  /-- a trap with an unexpected cause -/
  | fault (i : Slot)
  | ecall (i : Slot)
  | sysret (i : Slot)
  /-- the next section of `kfork`, `kexit`, `kwait` and `kkill` -/
  | alloc (i : Slot) (mem : Kernel.ForkMem)
  | adopt (i : Slot)
  | launch (i : Slot)
  | exit (i : Slot) (fs : Fs) (file : Fp → File) (pipe : Nat → Option Pipe)
  | wait (i : Slot) (copied : Bool) (pt : PageTable)
  | kill (i : Slot)
  /-- file-system effects of writing an audit record, and its end -/
  | auditWork (i : Slot) (fs : Fs)
  | auditDone (i : Slot)
  /-- effects of any other handler, its sleeping and waking, and its return -/
  | work (i : Slot) (v : Private) (fs : Fs) (file : Fp → File) (pipe : Nat → Option Pipe)
  | sleep (i : Slot) (chan : Chan)
  | done (i : Slot) (r : U64)
  /-- a wakeup by a handler or by an interrupt -/
  | wakeup (i : Slot) (chan : Chan)

def Event.caller : Event → Option Slot
  | .ecall i => some i
  | _ => none

namespace Machine

@[simps -fullyApplied]
def setPc (m : Machine) (i : Slot) (c : Kpc) : Machine :=
  { m with pc := Function.update m.pc i c }

def setK (m : Machine) (k : Kernel) : Machine := { m with k := k }

@[simp] theorem setK_k (m : Machine) (k : Kernel) : (m.setK k).k = k := rfl
@[simp] theorem setK_pc (m : Machine) (k : Kernel) : (m.setK k).pc = m.pc := rfl

/-- A handler that ends at once: its result goes to `a0` and `syscall()` returns. -/
def finish (m : Machine) (i : Slot) (r : U64 × Kernel) : Machine :=
  (m.setK (r.2.setA0 i r.1)).setPc i .sysret

def enter (m : Machine) (i : Slot) (s : Sys) : Machine :=
  let tf := (m.k.proc i).trapframe
  match s with
  | .fork => m.setPc i (.alloc 0)
  | .exit => m.setPc i (.exit (argint tf.a0))
  | .wait => m.setPc i (.wait tf.a0)
  | .kill => m.setPc i (.kill (argint tf.a0) 0)
  | .getpid => m.finish i (sysGetpid i m.k)
  | .setfilter => m.finish i (sysSetfilter i m.k)
  | .getfilter => m.finish i (sysGetfilter i m.k)
  | .setfilterChild => m.finish i (sysSetfilterChild i m.k)
  | .setaudit => m.finish i (sysSetaudit i m.k)
  | .setstrict => m.finish i (sysSetstrict i m.k)
  | s => m.setPc i (.busy s)

def refuse (m : Machine) (i : Slot) : Machine :=
  let p := m.k.proc i
  let k := if p.strictMode ≠ 0 then m.k.setkilled i else m.k
  (m.setK (k.setA0 i minusOne)).setPc i (if p.auditEnabled ≠ 0 then .audit else .sysret)

def dispatch (m : Machine) (i : Slot) : Machine :=
  let p := m.k.proc i
  let num := argint p.trapframe.a7
  let fail := (m.setK (m.k.setA0 i minusOne)).setPc i .sysret
  match Sys.ofNum num with
  | none => fail
  | some s =>
    if masked p num then
      match inspect p s with
      | .unfetched => fail
      | .run => m.enter i s
      | .deny => m.refuse i
    else m.enter i s

def ecall (m : Machine) (i : Slot) : Machine :=
  if (m.k.proc i).killed ≠ 0 then m.setPc i (.exit (-1))
  else (m.setK (m.k.pastEcall i)).dispatch i

def allocAt (m : Machine) (i : Slot) (j : Nat) (mem : Kernel.ForkMem) : Option Machine :=
  if h : j < nproc then
    let c : Slot := ⟨j, h⟩
    if (m.k.proc c).state = .unused then
      match m.k.kforkFound i c mem with
      | .error _ => none
      | .ok (true, k) => some ((m.setK k).setPc i (.adopt c))
      | .ok (false, k) => some (m.finish i (minusOne, k))
    else some (m.setPc i (.alloc (j + 1)))
  else some (m.finish i (minusOne, m.k))

/-- One scan of `kwait`, from taking `wait_lock` to sleeping or returning. -/
def waitAt (m : Machine) (i : Slot) (addr : U64) (copied : Bool) (pt : PageTable) : Machine :=
  let p := m.k.proc i
  match m.k.kwaitScan i with
  | .zombie j =>
    let pid := (m.k.proc j).pid
    let k := if addr ≠ 0 then m.k.setProc i { p with pagetable := pt } else m.k
    if addr ≠ 0 ∧ copied = false then m.finish i (minusOne, k)
    else m.finish i (pid.signExtend 64, k.freeproc j)
  | .alive =>
    if p.killed ≠ 0 then m.finish i (minusOne, m.k)
    else m.setK (m.k.sleep i (.proc i))
  | .none => m.finish i (minusOne, m.k)

def killAt (m : Machine) (i : Slot) (pid : I32) (j : Nat) : Machine :=
  if h : j < nproc then
    let c : Slot := ⟨j, h⟩
    if (m.k.proc c).pid = pid then m.finish i (0, m.k.killAt c)
    else m.setPc i (.kill pid (j + 1))
  else m.finish i (minusOne, m.k)

def running (m : Machine) (i : Slot) : Bool := (m.k.proc i).state = .running

/-- The transition function; `none` when the step is not possible (or the kernel panics). -/
def step (m : Machine) : Event → Option Machine
  | .sched i =>
    if (m.k.proc i).state = .runnable then
      some (m.setK (m.k.setProc i { m.k.proc i with state := .running, chan := none }))
    else none
  | .yield i =>
    if m.running i then some (m.setK (m.k.setProc i { m.k.proc i with state := .runnable }))
    else none
  | .user i tf pt =>
    if m.running i ∧ m.pc i = .user then
      some (m.setK (m.k.setProc i { m.k.proc i with trapframe := tf, pagetable := pt }))
    else none
  | .fault i =>
    if m.running i ∧ m.pc i = .user then some ((m.setK (m.k.setkilled i)).setPc i .sysret)
    else none
  | .ecall i => if m.running i ∧ m.pc i = .user then some (m.ecall i) else none
  | .sysret i =>
    if m.running i ∧ m.pc i = .sysret then
      some (m.setPc i (if (m.k.proc i).killed ≠ 0 then .exit (-1) else .user))
    else none
  | .alloc i mem =>
    match m.pc i with
    | .alloc j => if m.running i then m.allocAt i j mem else none
    | _ => none
  | .adopt i =>
    match m.pc i with
    | .adopt c =>
      if m.running i then
        some ((m.setK (m.k.setProc c { m.k.proc c with parent := some i })).setPc i (.launch c))
      else none
    | _ => none
  | .launch i =>
    match m.pc i with
    | .launch c =>
      if m.running i then
        let k := m.k.setProc c { m.k.proc c with state := .runnable }
        -- the child's first return to user mode goes through forkret
        some (((m.finish i ((m.k.proc c).pid.signExtend 64, k))).setPc c .user)
      else none
    | _ => none
  | .exit i fs file pipe =>
    match m.pc i with
    | .exit status =>
      if m.running i ∧ i ≠ m.k.initproc then
        let p := { m.k.proc i with ofile := fun _ => none, cwd := none }
        let k := ({ m.k with fs := fs, file := file, pipe := pipe }).setProc i p
        some ((m.setK (k.kexitLocked i status)).setPc i .gone)
      else none
    | _ => none
  | .wait i copied pt =>
    match m.pc i with
    | .wait addr => if m.running i then some (m.waitAt i addr copied pt) else none
    | _ => none
  | .kill i =>
    match m.pc i with
    | .kill pid j => if m.running i then some (m.killAt i pid j) else none
    | _ => none
  | .auditWork i fs =>
    if m.running i ∧ m.pc i = .audit then some (m.setK { m.k with fs := fs }) else none
  | .auditDone i => if m.running i ∧ m.pc i = .audit then some (m.setPc i .sysret) else none
  | .work i v fs file pipe =>
    match m.pc i with
    | .busy _ =>
      if m.running i then
        some (m.setK (({ m.k with fs := fs, file := file, pipe := pipe }).setProc i
          ((m.k.proc i).withPrivate v)))
      else none
    | _ => none
  | .sleep i chan =>
    match m.pc i with
    | .busy _ | .audit | .exit _ => if m.running i then some (m.setK (m.k.sleep i chan)) else none
    | _ => none
  | .done i r =>
    match m.pc i with
    | .busy _ => if m.running i then some (m.finish i (r, m.k)) else none
    | _ => none
  | .wakeup i chan => some (m.setK (m.k.wakeup i chan))

end Machine

/-- The process table and counters after `procinit` and `userinit`: init in slot 0
with pid 1, about to run `fsinit` and `kexec` from `forkret`. -/
def bootKernel (fs : Fs) (file : Fp → File) : Kernel :=
  let k : Kernel :=
    { proc := fun _ => .zero, nextpid := 1, initproc := 0, fs := fs, file := file,
      pipe := fun _ => none }
  let k := k.allocFound 0
  k.setProc 0 { k.proc 0 with cwd := some 0, state := .runnable }

def boot (fs : Fs) (file : Fp → File) : Machine where
  k := bootKernel fs file
  pc := fun i => if i = 0 then .busy .exec else .user

def bareFs : Fs where
  sb := ⟨0, 0, 0, 0, 0, 0⟩
  used := fun _ => false
  dinode := fun _ => .zero
  data := fun _ _ => 0
  inode := fun _ => ⟨0, 0, 0, false, false, .zero⟩
  logged := []

def bareFiles : Fp → File := fun _ => ⟨.none, 0, false, false, 0, 0, 0, 0⟩

def startInit : List Event := [.sched 0, .done 0 0, .sysret 0]

/-- The program in slot `i` loads a call number and one argument. -/
def load (i : Slot) (num a0 : U64) : Event :=
  .user i { Trapframe.zero with a7 := num, a0 := a0 } (fun _ => none)

def call (i : Slot) (num a0 : U64) : List Event := [load i num a0, .ecall i, .sysret i]

end Xv6Filter
