import Xv6Filter.Kernel.Descriptor
import Xv6Filter.Lib.Run

namespace Xv6Filter
open Lib

/-- A `filewrite` in progress: its buffer and count, and how far it came. -/
structure Writing where
  src : UserBuf
  n : Nat
  i : Nat

namespace Writing

def chunk (w : Writing) : Nat := min (w.n - w.i) Kernel.maxWrite

def rest (w : Writing) : List Byte := slice w.src.byte w.i (w.n - w.i)

end Writing

structure Writers (ι : Type) where
  kernel : Kernel
  pc : ι → Option Writing

inductive WriteEvent (ι : Type) where
  /-- `filewrite` is called -/
  | call (p : ι) (src : UserBuf) (n : I32)
  /-- a turn of its loop, or its return -/
  | turn (p : ι)

namespace Writers

variable {ι : Type} [DecidableEq ι]

def goto (s : Writers ι) (p : ι) (w : Option Writing) : Writers ι := { s with pc := Function.update s.pc p w }

/-- A turn of the `filewrite` that process `p` is in, with the value it returns, if it returns. -/
def turn (s : Writers ι) (f : Fp) (p : ι) (w : Writing) : Kern (Writers ι × Option Int) :=
  if w.n ≤ w.i then .ok (s.goto p none, some w.n)
  else
    match s.kernel.writeChunk f w.src w.i w.chunk with
    | .error why => .error why
    | .ok (r, k) =>
      if r ≠ (w.chunk : Int) then .ok ({ s with kernel := k }.goto p none, some (-1))
      else .ok ({ s with kernel := k }.goto p (some { w with i := w.i + w.chunk }), none)

def step (f : Fp) (s : Writers ι) : WriteEvent ι → Option (Writers ι)
  | .call p src n => if (s.pc p).isNone then some (s.goto p (some ⟨src, n.toInt.toNat, 0⟩)) else none
  | .turn p => (s.pc p).bind fun w => (s.turn f p w).toOption.map Prod.fst

/-- What a `filewrite` that ends in this step returns, and the count it was called with. -/
def returned (f : Fp) (s : Writers ι) : WriteEvent ι → Option (Nat × Int)
  | .call .. => none
  | .turn p => (s.pc p).bind fun w => (s.turn f p w).toOption.bind fun r => r.2.map (w.n, ·)

/-- The bytes that this step gives to `writei`, and who writes them. -/
def chunks (s : Writers ι) : WriteEvent ι → List (ι × List Byte)
  | .call .. => []
  | .turn p =>
    match s.pc p with
    | none => []
    | some w => if w.n ≤ w.i then [] else [(p, slice w.src.byte w.i w.chunk)]

end Writers

/-- The writes that process `p` has begun, oldest first: buffer and count. -/
def WriteEvent.calls [DecidableEq ι] (p : ι) (es : List (WriteEvent ι)) : List (UserBuf × Nat) :=
  es.filterMap fun
    | .call q src n => if q = p then some (src, n.toInt.toNat) else none
    | .turn _ => none

/-- The number of bytes that all writes together were asked to write. -/
def WriteEvent.total (es : List (WriteEvent ι)) : Nat :=
  (es.map fun
    | .call _ _ n => n.toInt.toNat
    | .turn _ => 0).sum

end Xv6Filter
