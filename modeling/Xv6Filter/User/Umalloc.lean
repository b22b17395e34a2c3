import Xv6Filter.Lib.Bytes
import Xv6Filter.Lib.Run

namespace Xv6Filter.Umalloc
open Lib

abbrev hdrsize : Nat := 16

/-- The calls of `sbrk` so far with their answers, the latest first. -/
abbrev Asked := List (Int × Option Nat)

/-- What the allocator does not decide: where `base` is, and what `sbrk` answers to a request after
the calls before it. `none` is `SBRK_ERROR`. -/
structure Env where
  base : Nat
  sbrk : Asked → Int → Option Nat

/-- The memory of the process, the static `freep`, and what `sbrk` was asked. -/
structure Heap where
  mem : Nat → UInt8
  freep : Nat
  asked : Asked

def plus (a n : Nat) : Nat := (a + hdrsize * n) % 2 ^ 64

def headerOf (ap : Nat) : Nat := (ap + 2 ^ 64 - hdrsize) % 2 ^ 64

namespace Heap

def ptr (h : Heap) (a : Nat) : Nat := loadLe h.mem a 8

def size (h : Heap) (a : Nat) : Nat := loadLe h.mem (a + 8) 4

def setPtr (h : Heap) (a v : Nat) : Heap := { h with mem := storeLe h.mem a 8 v }

def setSize (h : Heap) (a v : Nat) : Heap := { h with mem := storeLe h.mem (a + 8) 4 v }

/-- The loop of `free`: its condition, and the `break` where the list wraps around. -/
def find (h : Heap) (bp : Nat) : Nat → Nat → Option Nat
  | 0, _ => none
  | fuel + 1, p =>
    if bp > p ∧ bp < h.ptr p then some p
    else if p ≥ h.ptr p ∧ (bp > p ∨ bp < h.ptr p) then some p
    else h.find bp fuel (h.ptr p)

def joinNext (h : Heap) (bp p : Nat) : Heap :=
  if plus bp (h.size bp) = h.ptr p then
    let h := h.setSize bp (h.size bp + h.size (h.ptr p))
    h.setPtr bp (h.ptr (h.ptr p))
  else h.setPtr bp (h.ptr p)

def joinPrev (h : Heap) (bp p : Nat) : Heap :=
  if plus p (h.size p) = bp then
    let h := h.setSize p (h.size p + h.size bp)
    h.setPtr p (h.ptr bp)
  else h.setPtr p bp

def link (h : Heap) (bp p : Nat) : Heap := { (h.joinNext bp p).joinPrev bp p with freep := p }

def free (h : Heap) (fuel ap : Nat) : Option Heap :=
  (h.find (headerOf ap) fuel h.freep).map (h.link (headerOf ap))

def coreUnits (nu : Nat) : Nat := if nu < 4096 then 4096 else nu

/-- What it passes to `sbrk`: a `size_t` turned into an `int`. -/
def coreBytes (nu : Nat) : Int := (BitVec.ofNat 32 (coreUnits nu * hdrsize)).toInt

def morecore (env : Env) (h : Heap) (fuel nu : Nat) : Option (Nat × Heap) :=
  let answer := env.sbrk h.asked (coreBytes nu)
  let h := { h with asked := (coreBytes nu, answer) :: h.asked }
  match answer with
  | none => some (0, h)
  | some hp => ((h.setSize hp (coreUnits nu)).free fuel (plus hp 1)).map fun h => (h.freep, h)

def take (h : Heap) (nunits prevp p : Nat) : Nat × Heap :=
  if h.size p = nunits then
    (plus p 1, { h.setPtr prevp (h.ptr p) with freep := prevp })
  else
    let h := h.setSize p (h.size p - nunits)
    let p := plus p (h.size p)
    (plus p 1, { h.setSize p nunits with freep := prevp })

def search (env : Env) (h : Heap) (nunits : Nat) : Nat → Nat → Nat → Option (Nat × Heap)
  | 0, _, _ => none
  | fuel + 1, prevp, p =>
    if h.size p ≥ nunits then some (h.take nunits prevp p)
    else if p = h.freep then
      match h.morecore env fuel nunits with
      | none => none
      | some (p, h) => if p = 0 then some (0, h) else h.search env nunits fuel p (h.ptr p)
    else h.search env nunits fuel p (h.ptr p)

/-- The units a request takes: 64-bit arithmetic, then a `uint`. -/
def unitsOf (nbytes : BitVec 32) : Nat := ((nbytes.toNat + hdrsize - 1) / hdrsize + 1) % 2 ^ 32

def malloc (env : Env) (h : Heap) (fuel : Nat) (nbytes : BitVec 32) : Option (Nat × Heap) :=
  let h := if h.freep = 0 then { (h.setPtr env.base env.base).setSize env.base 0 with freep := env.base } else h
  h.search env (unitsOf nbytes) fuel h.freep (h.ptr h.freep)

end Heap

/-- A program with the blocks it was given and has not freed: their addresses and units. -/
structure Client where
  heap : Heap
  live : List (Nat × Nat)

/-- What a program does: calls, watched for `fuel` turns of their loops, and stores to its blocks. -/
inductive Event where
  | malloc (nbytes : BitVec 32) (fuel : Nat)
  | free (ap fuel : Nat)
  | store (x : Nat) (v : UInt8)

def Client.MayUse (c : Client) (x : Nat) : Prop := ∃ b ∈ c.live, b.1 ≤ x ∧ x < b.1 + hdrsize * (b.2 - 1)

instance (c : Client) (x : Nat) : Decidable (c.MayUse x) := List.decidableBEx _ _

def Client.step (env : Env) (c : Client) : Event → Option Client
  | .malloc nbytes fuel => do
    let (ap, h) ← c.heap.malloc env fuel nbytes
    if ap = 0 then pure { c with heap := h }
    else pure ⟨h, (ap, Heap.unitsOf nbytes) :: c.live⟩
  | .free ap fuel =>
    if ap ∈ c.live.map Prod.fst then do
      let h ← c.heap.free fuel ap
      pure ⟨h, c.live.filter fun b => decide (b.1 ≠ ap)⟩
    else none
  | .store x v =>
    if c.MayUse x then some { c with heap := { c.heap with mem := Function.update c.heap.mem x v } } else none

def Client.start (mem : Nat → UInt8) : Client := ⟨⟨mem, 0, []⟩, []⟩

end Xv6Filter.Umalloc
