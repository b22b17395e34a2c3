import Xv6Filter.Lib.Ring
import Xv6Filter.Lib.Run
import Xv6Filter.Log.Bcache

namespace Xv6Filter
open Lib Function

/-- The buffer cache as bio.c lays it out: the buffers and their list pointers, with
`none` for `bcache.head`. -/
structure Bio where
  buf : Bp → Buf
  links : Links Bp

namespace Bio

def binit : Bio :=
  ⟨fun _ => ⟨0, 0, 0⟩, (List.finRange nbuf).foldl (fun s b => s.pushFront b) .empty⟩

@[simps -fullyApplied]
def set (c : Bio) (i : Bp) (b : Buf) : Bio := { c with buf := update c.buf i b }

def cached (c : Bio) (dev b : Nat) : Option Bp :=
  Links.scan c.links.next (fun i => decide ((c.buf i).dev = dev ∧ (c.buf i).blockno = b)) nbuf
    (c.links.next none)

def victim (c : Bio) : Option Bp :=
  Links.scan c.links.prev (fun i => decide ((c.buf i).refcnt = 0)) nbuf (c.links.prev none)

/-- `bget` up to the sleep lock; none stands for its panic. -/
def bget (c : Bio) (dev b : Nat) : Option (Bp × Bio) :=
  match c.cached dev b with
  | some i => some (i, c.set i { c.buf i with refcnt := (c.buf i).refcnt + 1 })
  | none => c.victim.map fun i => (i, c.set i ⟨dev, b, 1⟩)

def bpin (c : Bio) (i : Bp) : Bio := c.set i { c.buf i with refcnt := (c.buf i).refcnt + 1 }

def bunpin (c : Bio) (i : Bp) : Bio := c.set i { c.buf i with refcnt := (c.buf i).refcnt - 1 }

def brelse (c : Bio) (i : Bp) : Bio :=
  let c := c.bunpin i
  if (c.buf i).refcnt = 0 then { c with links := (c.links.unlink i).pushFront i } else c

end Bio

/-- How far a `bget` call is: it has its reference and waits for the sleep lock, it
has the lock, or its `brelse` has given the lock back and waits for the cache lock. -/
inductive Hold where
  | waiting
  | locked
  | leaving
  deriving DecidableEq

/-- The buffer cache with any processes `P` at work. `calls` lists the `bget` calls
that have no `brelse` yet and `pins` the `bpin` calls that have no `bunpin`.
`clock` counts the `brelse` calls that brought a `refcnt` to zero and `stamp` has the
number of the last one for each buffer, 0 if there was none. -/
structure Users (P : Type) where
  bio : Bio
  calls : List (P × Bp × Hold)
  pins : List (P × Bp)
  clock : Nat
  stamp : Bp → Nat

inductive BioEvent (P : Type) where
  | bget (p : P) (b : Nat)
  | acquiresleep (p : P) (i : Bp)
  | releasesleep (p : P) (i : Bp)
  | brelse (p : P) (i : Bp)
  | bpin (p : P) (i : Bp)
  | bunpin (p : P) (i : Bp)

namespace Users

variable {P : Type} [DecidableEq P]

def init : Users P := ⟨.binit, [], [], 0, fun _ => 0⟩

/-- A call of `p` on buffer `i` moves from one stage to the next. -/
def advance (s : Users P) (p : P) (i : Bp) (h h' : Hold) : Users P :=
  { s with calls := (p, i, h') :: s.calls.erase (p, i, h) }

def brelse (s : Users P) (p : P) (i : Bp) : Users P :=
  let bio := s.bio.brelse i
  let s := { s with bio := bio, calls := s.calls.erase (p, i, .leaving) }
  if (bio.buf i).refcnt = 0 then
    { s with clock := s.clock + 1, stamp := update s.stamp i (s.clock + 1) }
  else s

def step (s : Users P) : BioEvent P → Option (Users P)
  | .bget p b => (s.bio.bget rootdev b).map fun (i, bio) =>
      { s with bio := bio, calls := (p, i, .waiting) :: s.calls }
  | .acquiresleep p i =>
    if (p, i, .waiting) ∈ s.calls ∧ s.calls.all (fun x => decide ¬ (x.2 = (i, Hold.locked))) then
      some (s.advance p i .waiting .locked)
    else none
  | .releasesleep p i =>
    if (p, i, .locked) ∈ s.calls then some (s.advance p i .locked .leaving) else none
  | .brelse p i => if (p, i, .leaving) ∈ s.calls then some (s.brelse p i) else none
  | .bpin p i => some { s with bio := s.bio.bpin i, pins := (p, i) :: s.pins }
  | .bunpin p i =>
    if s.pins.contains (p, i) then
      some { s with bio := s.bio.bunpin i, pins := s.pins.erase (p, i) }
    else none

end Users

end Xv6Filter
