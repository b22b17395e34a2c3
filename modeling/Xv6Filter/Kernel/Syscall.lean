import Xv6Filter.Kernel.Sysfile
import Xv6Filter.Kernel.Audit
import Xv6Filter.Kernel.Proc

namespace Xv6Filter

inductive Sys where
  | fork | exit | wait | pipe | read | kill | exec | fstat | chdir | dup | getpid | sbrk | pause
  | uptime | open | write | mknod | unlink | link | mkdir | close | hello | setfilter | getfilter
  | setfilterChild | setaudit | setstrict
  deriving DecidableEq, Repr

def syscallTable : List (Option Sys) :=
  [none, some .fork, some .exit, some .wait, some .pipe, some .read, some .kill, some .exec,
    some .fstat, some .chdir, some .dup, some .getpid, some .sbrk, some .pause, some .uptime,
    some .open, some .write, some .mknod, some .unlink, some .link, some .mkdir, some .close,
    some .hello, some .setfilter, some .getfilter, some .setfilterChild, some .setaudit,
    some .setstrict]

/-- The call behind a number, if `num > 0 && num < NELEM(syscalls) && syscalls[num]`. -/
def Sys.ofNum (num : I32) : Option Sys :=
  if 0 < num.toInt ∧ num.toInt < syscallTable.length then
    (syscallTable[num.toInt.toNat]?).join
  else none

/-- How `syscall()` and `usertrap()` end: back to their caller, in `kexit`, or stopped. -/
inductive Flow where
  | back (k : Kernel)
  | exit (status : I32) (k : Kernel)
  | stop (why : Stop)

def Res.storeA0 (i : Slot) : Res → Flow
  | .ret v k => .back (k.setA0 i v)
  | .exit status k => .exit status k
  | .stop why => .stop why

def masked (p : Proc) (num : I32) : Bool :=
  p.syscallMask &&& (1#64 <<< num.toNat) ≠ 0

def secretName : List Byte := bytes ['s', 'e', 'c', 'r', 'e', 't']
def shName : List Byte := bytes ['s', 'h']
def rmName : List Byte := bytes ['r', 'm']
def binName : List Byte := bytes ['/', 'b', 'i', 'n', '/']
def readmeName : List Byte := bytes ['R', 'E', 'A', 'D', 'M', 'E']
def auditName : List Byte := bytes ['a', 'u', 'd', 'i', 't', '.', 'l', 'o', 'g']

inductive Verdict where
  | run | unfetched | deny
  deriving DecidableEq, Repr

/-- A path argument is fetched first; a call whose path is unreadable just fails. -/
def inspectPath (p : Proc) (safe : List Byte → Bool) : Verdict :=
  match fetchstr p p.trapframe.a0 maxpath with
  | none => .unfetched
  | some path => if safe path then .run else .deny

/-- The five inspections of `syscall()`; every other masked call is refused. -/
def inspect (p : Proc) : Sys → Verdict
  | .open => inspectPath p (fun path =>
      let omode := argint p.trapframe.a1
      omode &&& oWronly = 0 ∧ omode &&& oRdwr = 0 ∧ strncmp path secretName 6 ≠ 0)
  | .kill => if 2 < (argint p.trapframe.a0).toInt then .run else .deny
  | .exec => inspectPath p (fun path => strncmp path shName 3 ≠ 0 ∧ strncmp path rmName 3 ≠ 0)
  | .unlink => inspectPath p (fun path =>
      strncmp path binName 5 ≠ 0 ∧ strncmp path readmeName 6 ≠ 0 ∧ strncmp path auditName 9 ≠ 0)
  | .sbrk =>
    let n := argint p.trapframe.a0
    if n.toInt ≤ 1024 * 1024 ∧ (p.sz + n.signExtend 64).toNat ≤ 10 * 1024 * 1024 then .run
    else .deny
  | _ => .deny

def sysSetfilter (i : Slot) (k : Kernel) : U64 × Kernel :=
  let p := k.proc i
  let mask := p.trapframe.a0
  if mask &&& p.syscallMask ≠ p.syscallMask then (minusOne, k)
  else (0, k.setProc i { p with syscallMask := mask })

def sysSetfilterChild (i : Slot) (k : Kernel) : U64 × Kernel :=
  let p := k.proc i
  let mask := p.trapframe.a0
  if mask &&& p.syscallMask ≠ p.syscallMask then (minusOne, k)
  else (0, k.setProc i { p with childSyscallMask := mask })

def sysGetfilter (i : Slot) (k : Kernel) : U64 × Kernel := ((k.proc i).syscallMask, k)

def sysSetaudit (i : Slot) (k : Kernel) : U64 × Kernel :=
  let p := k.proc i
  (0, k.setProc i { p with auditEnabled := argint p.trapframe.a0 })

def sysSetstrict (i : Slot) (k : Kernel) : U64 × Kernel :=
  let p := k.proc i
  (0, k.setProc i { p with strictMode := argint p.trapframe.a0 })

def sysGetpid (i : Slot) (k : Kernel) : U64 × Kernel := ((k.proc i).pid.signExtend 64, k)

def sysKill (i : Slot) (k : Kernel) : U64 × Kernel :=
  let (r, k) := k.kkill (argint (k.proc i).trapframe.a0)
  (r.signExtend 64, k)

/-- `sys_exec`: nothing is touched when the path cannot be fetched. `load` is the
rest, from the argument vector to `kexec`. -/
def sysExec (load : List Byte → U64 → Slot → Kernel → Res) (i : Slot) (k : Kernel) : Res :=
  let p := k.proc i
  match fetchstr p p.trapframe.a0 maxpath with
  | none => .ret minusOne k
  | some path => load path p.trapframe.a1 i k

/-- The handlers that are not embedded, as any functions of the kernel's state. -/
structure Handlers where
  load : List Byte → U64 → Slot → Kernel → Res
  rest : Sys → Slot → Kernel → Res

def Handlers.call (h : Handlers) (i : Slot) (k : Kernel) : Sys → Res
  | .exit => .exit (argint (k.proc i).trapframe.a0) k
  | .kill => .ret (sysKill i k).1 (sysKill i k).2
  | .exec => sysExec h.load i k
  | .getpid => .ret (sysGetpid i k).1 (sysGetpid i k).2
  | .open => Kernel.sysOpen i k
  | .unlink => Kernel.sysUnlink i k
  | .setfilter => .ret (sysSetfilter i k).1 (sysSetfilter i k).2
  | .getfilter => .ret (sysGetfilter i k).1 (sysGetfilter i k).2
  | .setfilterChild => .ret (sysSetfilterChild i k).1 (sysSetfilterChild i k).2
  | .setaudit => .ret (sysSetaudit i k).1 (sysSetaudit i k).2
  | .setstrict => .ret (sysSetstrict i k).1 (sysSetstrict i k).2
  | s => h.rest s i k

def auditDenied (i : Slot) (num : I32) (k : Kernel) : Kern Kernel :=
  if (k.proc i).auditEnabled ≠ 0 then
    match k.fs.auditLogWrite (k.proc i).pid num with
    | .error why => .error why
    | .ok fs => .ok { k with fs := fs }
  else .ok k

def deny (i : Slot) (num : I32) (k : Kernel) : Flow :=
  if (k.proc i).strictMode ≠ 0 then
    match auditDenied i num (k.setkilled i) with
    | .error why => .stop why
    | .ok k => .back (k.setA0 i minusOne)
  else
    match auditDenied i num (k.setA0 i minusOne) with
    | .error why => .stop why
    | .ok k => .back k

def Handlers.syscall (h : Handlers) (i : Slot) (k : Kernel) : Flow :=
  let p := k.proc i
  let num := argint p.trapframe.a7
  match Sys.ofNum num with
  | none => .back (k.setA0 i minusOne)
  | some s =>
    if masked p num then
      match inspect p s with
      | .unfetched => .back (k.setA0 i minusOne)
      | .run => (h.call i k s).storeA0 i
      | .deny => deny i num k
    else (h.call i k s).storeA0 i

def Handlers.unfiltered (h : Handlers) (i : Slot) (k : Kernel) : Flow :=
  match Sys.ofNum (argint (k.proc i).trapframe.a7) with
  | none => .back (k.setA0 i minusOne)
  | some s => (h.call i k s).storeA0 i

/-- Why a process entered the kernel. A page fault that `vmfault` served leaves
the page table it built. -/
inductive TrapCause where
  | ecall
  | device
  | faultServed (pt : PageTable)
  | unexpected

/-- `p->trapframe->epc += 4`: the return is to the instruction after the `ecall`. -/
def Kernel.pastEcall (k : Kernel) (i : Slot) : Kernel :=
  let p := k.proc i
  k.setProc i { p with trapframe := { p.trapframe with epc := p.trapframe.epc + 4 } }

def Handlers.usertrap (h : Handlers) (i : Slot) (k : Kernel) (cause : TrapCause) : Flow :=
  let served : Flow := match cause with
    | .ecall =>
      if (k.proc i).killed ≠ 0 then .exit (-1) k
      else h.syscall i (k.pastEcall i)
    | .device => .back k
    | .faultServed pt => .back (k.setProc i { k.proc i with pagetable := pt })
    | .unexpected => .back (k.setkilled i)
  match served with
  | .back k => if (k.proc i).killed ≠ 0 then .exit (-1) k else .back k
  | other => other

end Xv6Filter
