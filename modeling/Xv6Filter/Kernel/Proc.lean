import Xv6Filter.Kernel.File

namespace Xv6Filter

def Trapframe.zero : Trapframe := ⟨0, 0, 0, 0, 0, 0, 0, 0, 0⟩

def Proc.zero : Proc where
  state := .unused
  chan := none
  killed := 0
  xstate := 0
  pid := 0
  parent := none
  sz := 0
  pagetable := fun _ => none
  trapframe := .zero
  ofile := fun _ => none
  cwd := none
  syscallMask := 0
  name := []
  childSyscallMask := 0
  auditEnabled := 0
  strictMode := 0

namespace Kernel

/-- The start of `allocproc` once slot `j` was found UNUSED, `allocpid` included. -/
def allocFound (k : Kernel) (j : Slot) : Kernel :=
  { k with nextpid := k.nextpid + 1 }.setProc j
    { k.proc j with
      pid := k.nextpid
      state := .used
      syscallMask := 0
      childSyscallMask := 0
      auditEnabled := 0
      strictMode := 0 }

/-- `freeproc`. The pages of the trapframe and of user memory are given back. -/
def freeproc (k : Kernel) (j : Slot) : Kernel :=
  k.setProc j
    { k.proc j with
      trapframe := .zero
      pagetable := fun _ => none
      sz := 0
      pid := 0
      parent := none
      name := []
      chan := none
      killed := 0
      xstate := 0
      syscallMask := 0
      childSyscallMask := 0
      auditEnabled := 0
      strictMode := 0
      state := .unused }

/-- Which allocation of `kfork` failed, if any: the trapframe page, the page
table, or a page of `uvmcopy`. -/
inductive ForkMem where
  | noTrapframe
  | noPagetable
  | noCopy
  | enough
  deriving DecidableEq, Repr

def filedup (k : Kernel) (f : Fp) : Kern Kernel :=
  if (k.file f).ref < 1 then .error (.panic .filedup)
  else .ok (k.setFile f { k.file f with ref := (k.file f).ref + 1 })

def dupFiles (k : Kernel) (ofile : Fin nofile → Option Fp) : Kern Kernel :=
  (List.finRange nofile).foldlM (fun k fd =>
    match ofile fd with
    | none => .ok k
    | some f => k.filedup f) k

def childMask (p : Proc) : U64 :=
  if p.childSyscallMask ≠ 0 then p.childSyscallMask else p.syscallMask

/-- The filter fields that `kfork` writes before it copies memory. -/
def inheritFilter (k : Kernel) (i j : Slot) : Kernel :=
  let p := k.proc i
  let k := k.setProc j
    { k.proc j with
      syscallMask := childMask p
      auditEnabled := p.auditEnabled
      strictMode := p.strictMode }
  k.setProc i { k.proc i with childSyscallMask := 0 }

def inheritRest (k : Kernel) (i j : Slot) : Kernel :=
  let p := k.proc i
  k.setProc j
    { k.proc j with
      pagetable := p.pagetable
      sz := p.sz
      trapframe := { p.trapframe with a0 := 0 }
      ofile := fun fd => (p.ofile fd).or ((k.proc j).ofile fd)
      cwd := p.cwd
      name := p.name }

/-- `kfork` by slot `i` from the point where slot `j` was found UNUSED until the
child's lock is released; true when there is a child. -/
def kforkFound (k : Kernel) (i j : Slot) (mem : ForkMem) : Kern (Bool × Kernel) :=
  let k := k.allocFound j
  match mem with
  | .noTrapframe | .noPagetable => .ok (false, k.freeproc j)
  | .noCopy => .ok (false, (k.inheritFilter i j).freeproc j)
  | .enough =>
    match ((k.inheritFilter i j).inheritRest i j).dupFiles (k.proc i).ofile with
    | .error why => .error why
    | .ok k =>
      match (k.proc i).cwd with
      | none => .error (.panic .kerneltrap)
      | some cwd => .ok (true, { k with fs := k.fs.idup cwd })

/-- `reparent`: the children of `i` go to init, which is woken if there are any. -/
def reparent (k : Kernel) (i : Slot) : Kernel :=
  let adopted : Kernel := { k with
    proc := fun j =>
      if (k.proc j).parent = some i then { k.proc j with parent := some k.initproc }
      else k.proc j }
  if (List.finRange nproc).any (fun j => decide ((k.proc j).parent = some i)) then
    adopted.wakeup i (.proc k.initproc)
  else adopted

/-- The section of `kexit` under `wait_lock`, ending with the process a ZOMBIE. -/
def kexitLocked (k : Kernel) (i : Slot) (status : I32) : Kernel :=
  let k := k.reparent i
  let k := match (k.proc i).parent with
    | none => k
    | some q => k.wakeup i (.proc q)
  k.setProc i { k.proc i with xstate := status, state := .zombie }

/-- What one scan of `kwait` by slot `i` finds: an exited child (the first in the
table), children that still run, or none at all. -/
inductive Kids where
  | zombie (j : Slot)
  | alive
  | none

def kwaitScan (k : Kernel) (i : Slot) : Kids :=
  match (List.finRange nproc).find? (fun j =>
      decide ((k.proc j).parent = some i ∧ (k.proc j).state = .zombie)) with
  | some j => .zombie j
  | none =>
    if (List.finRange nproc).any (fun j => decide ((k.proc j).parent = some i)) then .alive
    else .none

def sleep (k : Kernel) (i : Slot) (chan : Chan) : Kernel :=
  k.setProc i { k.proc i with chan := some chan, state := .sleeping }

def killAt (k : Kernel) (j : Slot) : Kernel :=
  let p := k.proc j
  k.setProc j { p with
    killed := 1
    state := if p.state = .sleeping then .runnable else p.state }

def kkill (k : Kernel) (pid : I32) : I32 × Kernel :=
  match (List.finRange nproc).find? (fun j => decide ((k.proc j).pid = pid)) with
  | none => (-1, k)
  | some j => (0, k.killAt j)

def setkilled (k : Kernel) (i : Slot) : Kernel := k.setProc i { k.proc i with killed := 1 }

end Kernel

end Xv6Filter
