import Xv6Filter.Kernel.Calls
import Xv6Filter.Kernel.Loader
import Xv6Filter.Kernel.Machine

namespace Xv6Filter
open Paging

/-- The system call whose handler the machine has as `busy`. `fork`, `exit`, `wait` and the audit
record are steps of the machine itself. -/
def Call.sys : Call → Option Sys
  | .opens .. => some .open
  | .dup _ => some .dup
  | .close _ => some .close
  | .pipe .. => some .pipe
  | .read .. => some .read
  | .write .. => some .write
  | .fstat .. => some .fstat
  | .link _ => some .link
  | .unlink _ => some .unlink
  | .mkdir _ => some .mkdir
  | .mknod .. => some .mknod
  | .chdir _ => some .chdir
  | .exec .. => some .exec
  | .fork _ | .exit _ | .wait .. | .audit _ => none

def Proc.inSpace (p : Proc) (ram : Ram) (space : Space) : Proc :=
  { p with
    sz := BitVec.ofNat 64 space.sz
    pagetable := fun v => (space.pagetable.leaf (v * pgsize)).map fun l =>
      ⟨ram.data l.frame, l.perm.r, l.perm.w, l.perm.x, l.perm.u⟩ }

/-- A step of the machine, or a handler run to its end from where the dispatcher entered it: on the
process table and the file system, or on these and the pages of memory. -/
inductive Move where
  | step (e : Event)
  | handler (i : Slot) (c : Call)
  | exec (i : Slot) (ram : Ram) (space : Space) (outstanding : Nat) (tf : Frame) (path : List Byte)
      (argv : List (List Byte))
  | sbrk (i : Slot) (ram : Ram) (space : Space)

namespace Kernel

/-- `kexec` on the pages of memory, with its result in `a0`. -/
def kexecPages (k : Kernel) (i : Slot) (ram : Ram) (space : Space) (outstanding : Nat) (tf : Frame) (path : List Byte)
    (argv : List (List Byte)) : Loads (U64 × Kernel) := do
  let (argc, x) ← Task.kexec ⟨k, ram, space, outstanding⟩ i tf path argv
  .ok (argc.elim minusOne (BitVec.ofNat 64), x.kernel.setProc i ((x.kernel.proc i).inSpace x.ram x.space))

def sbrkPages (k : Kernel) (i : Slot) (ram : Ram) (space : Space) : Checked (U64 × Kernel) := do
  let tf := (k.proc i).trapframe
  let (addr, ram, space) ← ram.sysSbrk space (argint tf.a0) (argint tf.a1)
  .ok (addr.elim minusOne (BitVec.ofNat 64), k.setProc i ((k.proc i).inSpace ram space))

end Kernel

namespace Machine

def handle (m : Machine) (i : Slot) (s : Sys) (r : Except ε (U64 × Kernel)) : Option Machine :=
  if m.running i ∧ m.pc i = .busy s then r.toOption.map (m.finish i) else none

def move (m : Machine) : Move → Option Machine
  | .step e => m.step e
  | .handler i c => c.sys.bind fun s => m.handle i s (m.k.perform i c)
  | .exec i ram space outstanding tf path argv =>
    m.handle i .exec (m.k.kexecPages i ram space outstanding tf path argv)
  | .sbrk i ram space => m.handle i .sbrk (m.k.sbrkPages i ram space)

end Machine

end Xv6Filter
