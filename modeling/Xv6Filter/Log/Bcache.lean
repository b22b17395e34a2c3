import Xv6Filter.Kernel.Types
import Mathlib.Tactic.Simps.Basic

namespace Xv6Filter

abbrev Bp := Fin nbuf

structure Buf where
  dev : Nat
  blockno : Nat
  refcnt : Nat

/-- The buffer cache. `order` is the linked list from `head.next`, most recently
used first. -/
structure Bcache where
  buf : Bp → Buf
  order : List Bp

namespace Bcache

/-- `binit`: all buffers are zero and each goes to the front of the list. -/
def init : Bcache := ⟨fun _ => ⟨0, 0, 0⟩, (List.finRange nbuf).reverse⟩

@[simps -fullyApplied]
def set (c : Bcache) (i : Bp) (b : Buf) : Bcache := { c with buf := Function.update c.buf i b }

def cached (c : Bcache) (dev b : Nat) : Option Bp :=
  c.order.find? fun i => decide ((c.buf i).dev = dev ∧ (c.buf i).blockno = b)

/-- The second loop of `bget`: the least recently used buffer without references. -/
def victim (c : Bcache) : Option Bp :=
  c.order.reverse.find? fun i => decide ((c.buf i).refcnt = 0)

/-- `bget` up to the sleep lock; none stands for its panic. -/
def bget (c : Bcache) (dev b : Nat) : Option (Bp × Bcache) :=
  match c.cached dev b with
  | some i => some (i, c.set i { c.buf i with refcnt := (c.buf i).refcnt + 1 })
  | none => c.victim.map fun i => (i, c.set i ⟨dev, b, 1⟩)

def bpin (c : Bcache) (i : Bp) : Bcache :=
  c.set i { c.buf i with refcnt := (c.buf i).refcnt + 1 }

def bunpin (c : Bcache) (i : Bp) : Bcache :=
  c.set i { c.buf i with refcnt := (c.buf i).refcnt - 1 }

/-- `brelse`: at the last reference the buffer goes to the front of the list. -/
def brelse (c : Bcache) (i : Bp) : Bcache :=
  let c := c.bunpin i
  if (c.buf i).refcnt = 0 then { c with order := i :: c.order.erase i } else c

end Bcache

end Xv6Filter
