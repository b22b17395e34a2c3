import Xv6Filter.Kernel.Audit

namespace Xv6Filter.Printf

/-- `char buf[20]`: both `printint` fill it from its start and write it out from its end. -/
abbrev bufSize : Nat := 20

abbrev minus : Byte := 45

/-- Loading from a local array of `cap` bytes; `none` when the index leaves it. -/
def load (cap : Nat) (b : Nat → Byte) (i : Nat) : Option Byte := if i < cap then some (b i) else none

theorem lt_of_store (h : store cap b i c = some b') : i < cap := by
  unfold store at h
  split at h
  · assumption
  · cases h

/-- `do { buf[i++] = digits[x % base]; } while((x /= base) != 0)` -/
def putDigits (digits : List Byte) (base x : U64) (i : Nat) (buf : Nat → Byte) : Option (Nat × (Nat → Byte)) :=
  match digits[(x % base).toNat]? with
  | none => none
  | some c =>
    match _h : store bufSize buf i c with
    | none => none
    | some buf => if x / base ≠ 0 then putDigits digits base (x / base) (i + 1) buf else some (i + 1, buf)
termination_by bufSize - i
decreasing_by
  have := lt_of_store ‹_›
  omega

def putBack (buf : Nat → Byte) : Nat → Option (List Byte)
  | 0 => some []
  | i + 1 => do
    let c ← load bufSize buf i
    let cs ← putBack buf i
    some (c :: cs)

def put (digits : List Byte) (buf : Nat → Byte) (x : U64) (base neg : I32) : Option (List Byte) := do
  let (i, buf) ← putDigits digits (base.signExtend 64) x 0 buf
  if neg ≠ 0 then
    let buf ← store bufSize buf i minus
    putBack buf (i + 1)
  else putBack buf i

namespace Kernel

def digits : List Byte :=
  bytes ['0', '1', '2', '3', '4', '5', '6', '7', '8', '9', 'a', 'b', 'c', 'd', 'e', 'f']

/-- `printint(xx, base, sign)`, which keeps in `sign` whether to write a minus; `buf` starts with
whatever stood on the stack. -/
def printint (buf : Nat → Byte) (xx : U64) (base sign : I32) : Option (List Byte) :=
  let negative : I32 := if xx.toInt < 0 then 1 else 0
  if sign ≠ 0 then
    if negative ≠ 0 then put digits buf (-xx) base negative else put digits buf xx base negative
  else put digits buf xx base sign

end Kernel

namespace User

def digits : List Byte :=
  bytes ['0', '1', '2', '3', '4', '5', '6', '7', '8', '9', 'A', 'B', 'C', 'D', 'E', 'F']

def printint (buf : Nat → Byte) (xx : U64) (base sgn : I32) : Option (List Byte) :=
  if sgn ≠ 0 ∧ xx.toInt < 0 then put digits buf (-xx) base 1 else put digits buf xx base 0

end User

end Xv6Filter.Printf
