import Xv6Filter.Fs.Types

namespace Xv6Filter

open Function

inductive FdType where
  | none | pipe | inode | device
  deriving DecidableEq, Repr

structure File where
  type : FdType
  ref : Int
  readable : Bool
  writable : Bool
  pipe : Nat
  ip : Ip
  off : Nat
  major : Short

structure Pipe where
  readopen : Bool
  writeopen : Bool

/-- The kernel's shared state. A pipe whose page was freed is `none`. -/
structure Kernel where
  proc : Slot → Proc
  nextpid : I32
  initproc : Slot
  fs : Fs
  file : Fp → File
  pipe : Nat → Option Pipe

/-- How a system call handler ends: it returns a value, it calls `kexit` and never
returns, or the kernel stops. -/
inductive Res where
  | ret (v : U64) (k : Kernel)
  | exit (status : I32) (k : Kernel)
  | stop (why : Stop)

namespace Kernel

@[simps -fullyApplied proc nextpid initproc fs file]
def setProc (k : Kernel) (i : Slot) (p : Proc) : Kernel :=
  { k with proc := update k.proc i p }

@[simps -fullyApplied proc fs file]
def setFile (k : Kernel) (f : Fp) (ff : File) : Kernel :=
  { k with file := update k.file f ff }

def setA0 (k : Kernel) (i : Slot) (v : U64) : Kernel :=
  k.setProc i { k.proc i with trapframe := { (k.proc i).trapframe with a0 := v } }

def wakeup (k : Kernel) (me : Slot) (chan : Chan) : Kernel :=
  { k with
    proc := fun j =>
      if j ≠ me ∧ (k.proc j).state = .sleeping ∧ (k.proc j).chan = some chan then
        { k.proc j with state := .runnable }
      else k.proc j }

end Kernel

abbrev minusOne : U64 := -1

end Xv6Filter
