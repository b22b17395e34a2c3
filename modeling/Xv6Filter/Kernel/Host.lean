import Xv6Filter.Kernel.Syscall
import Xv6Filter.Kernel.Memory

namespace Xv6Filter.Paging

/-- The process table with the filter of each process, and the memory of the processes. The size
of a process is the one that memory management keeps. -/
structure Host where
  kernel : Kernel
  memory : System

abbrev sbrkNum : I32 := 12

namespace Host

def proc (x : Host) (i : Slot) : Proc := { x.kernel.proc i with sz := BitVec.ofNat 64 (x.memory.proc i).sz }

/-- `kfork` by slot `i`; false for -1. -/
def kfork (x : Host) (i : Slot) (p : Space) : Option (Bool × Host) := do
  let (found, memory) ← (x.memory.kfork i p).toOption
  match found with
  | none => some (false, { x with memory := memory })
  | some (j, mem) => do
    let (done, kernel) ← (x.kernel.kforkFound i j mem).toOption
    some (done, ⟨kernel, memory⟩)

def sysSbrk (x : Host) (i : Slot) (p : Space) : Checked (Flow × System) := do
  let tf := (x.kernel.proc i).trapframe
  let (ret, m, p) ← x.memory.ram.sysSbrk p (argint tf.a0) (argint tf.a1)
  .ok (.back (x.kernel.setA0 i (ret.elim minusOne (BitVec.ofNat 64))), x.memory.setSpace i m p)

def sbrk (x : Host) (i : Slot) (p : Space) : Checked (Flow × System) :=
  if masked (x.proc i) sbrkNum then
    match inspect (x.proc i) .sbrk with
    | .run => x.sysSbrk i p
    | .unfetched => .ok (.back (x.kernel.setA0 i minusOne), x.memory)
    | .deny => .ok (deny i sbrkNum x.kernel, x.memory)
  else x.sysSbrk i p

end Host

/-- What happens while a process is under the quota: a call of `sbrk` with these arguments, an
event of memory management, or any other change of the process table. -/
inductive HostEvent where
  | sbrk (i : Slot) (a0 a1 : U64)
  | memory (e : MemEvent)
  | other (kernel : Kernel)

namespace Host

def withArgs (x : Host) (i : Slot) (a0 a1 : U64) : Host :=
  let p := x.kernel.proc i
  { x with kernel := x.kernel.setProc i { p with trapframe := { p.trapframe with a0 := a0, a1 := a1 } } }

def step (x : Host) : HostEvent → Option Host
  | .sbrk i a0 a1 =>
    match x.memory.space i with
    | none => some x
    | some p =>
      match (x.withArgs i a0 a1).sbrk i p with
      | .ok (.back kernel, memory) => some ⟨kernel, memory⟩
      | _ => none
  | .memory (.sbrk ..) => none
  | .memory e => (x.memory.step e).map fun memory => { x with memory := memory }
  | .other kernel => some { x with kernel := kernel }

end Host

end Xv6Filter.Paging
