import Xv6Filter.Kernel.Types
import Xv6Filter.Lib.Fifo
import Xv6Filter.Lib.Run

namespace Xv6Filter
open Lib Function

abbrev pipesize : Nat := 512

structure PipeRing where
  data : Fin pipesize → Byte
  nread : U32
  nwrite : U32
  readopen : Bool
  writeopen : Bool

namespace PipeRing

def full (pi : PipeRing) : Bool := pi.nwrite = pi.nread + BitVec.ofNat 32 pipesize

def empty (pi : PipeRing) : Bool := pi.nread = pi.nwrite

def put (pi : PipeRing) (ch : Byte) : PipeRing :=
  { pi with data := update pi.data (ringPlace pipesize pi.nwrite) ch, nwrite := pi.nwrite + 1 }

def front (pi : PipeRing) : Byte := pi.data (ringPlace pipesize pi.nread)

def stored (pi : PipeRing) : List Byte := between pi.data pi.nread pi.nwrite

def gone (pi : PipeRing) : Bool := !pi.readopen && !pi.writeopen

end PipeRing

/-- The addresses `&pi->nread` and `&pi->nwrite` that processes sleep on. -/
inductive PipeChan where
  | nread | nwrite
  deriving DecidableEq, Repr

/-- Where a process is in `pipewrite(pi, addr, n)` or `piperead(pi, addr, n)`. -/
inductive PipePc where
  | out
  /-- at `while(i < n)` and the test that follows; in the rest of the body; in `sleep`; past the loop -/
  | wTest (n : I32) (i : Nat)
  | wBody (n : I32) (i : Nat)
  | wWait (n : I32) (i : Nat)
  | wEnd (i : Nat)
  /-- at the test of the first loop; at `killed(pr)`; about to sleep; in `sleep` -/
  | rTest (n : I32)
  | rKilled (n : I32)
  | rSleep (n : I32)
  | rWait (n : I32)
  /-- in the copying loop; past it with the result -/
  | rCopy (n : I32) (i : Nat)
  | rEnd (n : I32) (r : Int)
  deriving DecidableEq

def PipePc.inside : PipePc → Bool
  | .out | .wWait _ _ | .rWait _ => false
  | _ => true

def PipePc.waiting : PipePc → Bool
  | .wWait _ _ | .rWait _ => true
  | _ => false

structure PipeSys (ι : Type) where
  pi : PipeRing
  lock : Option ι
  pc : ι → PipePc
  /-- the channel of a process that is SLEEPING -/
  asleep : ι → Option PipeChan
  killed : ι → Bool

/-- One step. What the user memory of a process yields comes with it: the byte that
`copyin` fetches, or nothing where the address is bad. -/
inductive PipeEvent (ι : Type) where
  /-- `pipewrite` or `piperead` is called and gets `pi->lock` -/
  | write (p : ι) (n : I32)
  | read (p : ι) (n : I32)
  /-- the holder of `pi->lock` goes on -/
  | go (p : ι) (user : Option Byte)
  /-- `sleep` returns: a process that was woken gets `pi->lock` back -/
  | resume (p : ι)
  /-- a whole `pipeclose` -/
  | close (p : ι) (writable : Bool)
  /-- `kkill` finds the process -/
  | kill (p : ι)

namespace PipeSys

variable {ι : Type} [DecidableEq ι]

def alloc (data : Fin pipesize → Byte) (killed : ι → Bool) : PipeSys ι where
  pi := ⟨data, 0, 0, true, true⟩
  lock := none
  pc := fun _ => .out
  asleep := fun _ => none
  killed := killed

def goto (s : PipeSys ι) (p : ι) (c : PipePc) : PipeSys ι := { s with pc := update s.pc p c }

def setPi (s : PipeSys ι) (pi : PipeRing) : PipeSys ι := { s with pi := pi }

def wakeup (s : PipeSys ι) (me : ι) (chan : PipeChan) : PipeSys ι :=
  { s with asleep := fun q => if q ≠ me ∧ s.asleep q = some chan then none else s.asleep q }

def leave (s : PipeSys ι) (p : ι) : PipeSys ι := { s.goto p .out with lock := none }

def sleep (s : PipeSys ι) (p : ι) (chan : PipeChan) (c : PipePc) : PipeSys ι :=
  { s.goto p c with lock := none, asleep := update s.asleep p (some chan) }

def advance (s : PipeSys ι) (p : ι) (user : Option Byte) : Option (PipeSys ι) :=
  match s.pc p with
  | .wTest n i =>
    if i < n.toInt then
      if s.pi.readopen = false ∨ s.killed p = true then some (s.leave p)
      else some (s.goto p (.wBody n i))
    else some (s.goto p (.wEnd i))
  | .wBody n i =>
    if s.pi.full then some ((s.wakeup p .nread).sleep p .nwrite (.wWait n i))
    else
      match user with
      | none => some (s.goto p (.wEnd i))
      | some ch => some ((s.setPi (s.pi.put ch)).goto p (.wTest n (i + 1)))
  | .wEnd _ => some ((s.wakeup p .nread).leave p)
  | .rTest n =>
    if s.pi.empty ∧ s.pi.writeopen = true then some (s.goto p (.rKilled n))
    else some (s.goto p (.rCopy n 0))
  | .rKilled n => if s.killed p then some (s.leave p) else some (s.goto p (.rSleep n))
  | .rSleep n => some (s.sleep p .nread (.rWait n))
  | .rCopy n i =>
    if i < n.toInt then
      if s.pi.empty then some (s.goto p (.rEnd n i))
      else
        match user with
        | none => some (s.goto p (.rEnd n (if i = 0 then -1 else i)))
        | some _ => some ((s.setPi { s.pi with nread := s.pi.nread + 1 }).goto p (.rCopy n (i + 1)))
    else some (s.goto p (.rEnd n i))
  | .rEnd _ _ => some ((s.wakeup p .nwrite).leave p)
  | .out | .wWait _ _ | .rWait _ => none

def close (s : PipeSys ι) (p : ι) (writable : Bool) : PipeSys ι :=
  if writable then (s.setPi { s.pi with writeopen := false }).wakeup p .nread
  else (s.setPi { s.pi with readopen := false }).wakeup p .nwrite

/-- `kkill`, where it finds the process: a sleeping one is made RUNNABLE. -/
def kill (s : PipeSys ι) (p : ι) : PipeSys ι :=
  { s with killed := update s.killed p true, asleep := update s.asleep p none }

def free (s : PipeSys ι) : Bool := s.lock.isNone && !s.pi.gone

def step (s : PipeSys ι) : PipeEvent ι → Option (PipeSys ι)
  | .write p n =>
    if s.free ∧ s.pc p = .out then some { s.goto p (.wTest n 0) with lock := some p } else none
  | .read p n =>
    if s.free ∧ s.pc p = .out then some { s.goto p (.rTest n) with lock := some p } else none
  | .go p user => if s.lock = some p then s.advance p user else none
  | .resume p =>
    if s.free ∧ s.asleep p = none then
      match s.pc p with
      | .wWait n i => some { s.goto p (.wTest n i) with lock := some p }
      | .rWait n => some { s.goto p (.rTest n) with lock := some p }
      | _ => none
    else none
  | .close p writable => if s.free ∧ s.pc p = .out then some (s.close p writable) else none
  | .kill p => some (s.kill p)

def accepted (s : PipeSys ι) : PipeEvent ι → List Byte
  | .go p (some ch) =>
    match s.pc p with
    | .wBody _ _ => if s.lock = some p ∧ s.pi.full = false then [ch] else []
    | _ => []
  | _ => []

def delivered (s : PipeSys ι) : PipeEvent ι → List Byte
  | .go p (some _) =>
    match s.pc p with
    | .rCopy n i => if s.lock = some p ∧ i < n.toInt ∧ s.pi.empty = false then [s.pi.front] else []
    | _ => []
  | _ => []

end PipeSys

end Xv6Filter
