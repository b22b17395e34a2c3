import Xv6Filter.Kernel.Printf
import Xv6Filter.Lib.Numeral

namespace Xv6Filter.Printf
open Lib Function

def charOf (digits : List Byte) (d : Nat) : Byte := digits.getD d 0

theorem putDigits_turn (hc : digits[(x % base).toNat]? = some c) (hi : i < bufSize) (buf : Nat → Byte) :
    putDigits digits base x i buf =
      if x / base ≠ 0 then putDigits digits base (x / base) (i + 1) (update buf i c)
      else some (i + 1, update buf i c) := by
  have hstore : store bufSize buf i c = some (update buf i c) := if_pos hi
  rw [putDigits, hc]
  dsimp only
  split
  · rename_i h
    rw [hstore] at h
    cases h
  · rename_i h
    rw [hstore] at h
    cases h
    rfl

/-- The loop fills the buffer with the digits, the least significant one first. -/
theorem putDigits_eq {digits : List Byte} {base : U64} (hb : 1 < base.toNat)
    (hdig : base.toNat ≤ digits.length) (x : U64) (i : Nat) (buf : Nat → Byte)
    (hfit : i + (digitsOf base.toNat x.toNat).length ≤ bufSize) :
    putDigits digits base x i buf = some (i + (digitsOf base.toNat x.toNat).length,
      splice buf i ((digitsOf base.toNat x.toNat).map (charOf digits))) := by
  induction hx : x.toNat using Nat.strong_induction_on generalizing x i buf with
  | _ n ih =>
    subst hx
    have hd : (x % base).toNat = x.toNat % base.toNat := BitVec.toNat_umod
    have hq : (x / base).toNat = x.toNat / base.toNat := BitVec.toNat_udiv
    have hlt : x.toNat % base.toNat < base.toNat := Nat.mod_lt _ (by omega)
    have hchar : digits[(x % base).toNat]? = some (charOf digits (x.toNat % base.toNat)) := by
      rw [hd, charOf, List.getElem?_eq_getElem (by omega)]
      simp [show x.toNat % base.toNat < digits.length by omega]
    have hpos := List.length_pos_of_ne_nil (digitsOf_ne_nil base.toNat x.toNat)
    rw [putDigits_turn hchar (by omega)]
    by_cases h0 : x / base = 0
    · have hsmall : x.toNat < base.toNat := by
        have hzero : x.toNat / base.toNat = 0 := by
          rw [← hq, h0]
          rfl
        exact (Nat.div_eq_zero_iff_lt (by omega)).mp hzero
      rw [if_neg (by simpa using h0), digitsOf_of_lt hsmall, Nat.mod_eq_of_lt hsmall, List.map_singleton,
        ← splice_cons, splice_nil]
      rfl
    · have hne : x.toNat / base.toNat ≠ 0 := by
        rw [← hq]
        intro h
        exact h0 (BitVec.eq_of_toNat_eq h)
      have hx : 0 < x.toNat := Nat.pos_of_ne_zero fun h => hne (by rw [h, Nat.zero_div])
      have hless : x.toNat / base.toNat < x.toNat := Nat.div_lt_self hx hb
      rw [digitsOf_step hb hne, List.length_cons] at hfit
      have hrest := ih _ hless (x / base) (i + 1) (update buf i (charOf digits (x.toNat % base.toNat)))
        (by rw [hq]; omega) hq
      rw [if_pos h0, hrest, digitsOf_step hb hne, List.length_cons, List.map_cons, splice_cons]
      congr 2
      omega

theorem putBack_eq (buf : Nat → Byte) (h : n ≤ bufSize) : putBack buf n = some (slice buf 0 n).reverse := by
  induction n with
  | zero => rfl
  | succ n ih =>
    have hload : load bufSize buf n = some (buf n) := if_pos h
    rw [putBack, hload, ih (by omega), slice_add, List.reverse_append]
    simp [slice]

theorem put_eq {digits : List Byte} (buf : Nat → Byte) (x : U64) {base : I32} (neg : I32)
    (hb : base = 10 ∨ base = 16) (hdig : digits.length = 16)
    (hfit : (digitsOf base.toNat x.toNat).length + (if neg ≠ 0 then 1 else 0) ≤ bufSize) :
    put digits buf x base neg = some (numeral (charOf digits) base.toNat (decide (neg ≠ 0)) x.toNat) := by
  have hbase : (base.signExtend 64).toNat = base.toNat := by rcases hb with rfl | rfl <;> rfl
  have hb1 : 1 < (base.signExtend 64).toNat := by rcases hb with rfl | rfl <;> decide
  have hb16 : (base.signExtend 64).toNat ≤ digits.length := by
    rw [hdig]
    rcases hb with rfl | rfl <;> decide
  rw [put, putDigits_eq hb1 hb16 x 0 buf (by rw [hbase]; omega), hbase]
  dsimp only [Option.bind_eq_bind, Option.bind_some]
  rw [Nat.zero_add]
  by_cases hneg : neg = 0
  · rw [if_neg (not_not.mpr hneg)] at hfit ⊢
    rw [Nat.add_zero] at hfit
    have hread := slice_splice buf 0 ((digitsOf base.toNat x.toNat).map (charOf digits))
    rw [List.length_map] at hread
    rw [decide_eq_false (not_not.mpr hneg), putBack_eq _ hfit, hread]
    rfl
  · rw [if_pos hneg] at hfit ⊢
    have hread := slice_splice buf 0 ((digitsOf base.toNat x.toNat).map (charOf digits) ++ [minus])
    have hpush := splice_append buf 0 ((digitsOf base.toNat x.toNat).map (charOf digits)) [minus]
    rw [← splice_cons, splice_nil, Nat.zero_add] at hpush
    rw [List.length_append, ← hpush, List.length_map, List.length_singleton] at hread
    rw [store, if_pos (by omega), decide_eq_true hneg]
    show putBack _ _ = _
    rw [putBack_eq _ hfit, hread]
    simp [numeral, minusChar]

def upper (c : Byte) : Byte := if 97 ≤ c ∧ c ≤ 102 then c - 32 else c

theorem kernel_digits : ∀ d < 16, readDigit (charOf Kernel.digits d) = some d := by decide

theorem user_digits : ∀ d < 16, readDigit (charOf User.digits d) = some d := by decide

theorem upper_digits : ∀ d < 16, upper (charOf Kernel.digits d) = charOf User.digits d := by decide

def valueOf (xx : U64) (sign : I32) : Int := if sign ≠ 0 then xx.toInt else xx.toNat

def textOf (digits : List Byte) (base : I32) (v : Int) : List Byte :=
  numeral (charOf digits) base.toNat (decide (v < 0)) v.natAbs

section Values

variable {digits : List Byte} {base : I32} (hb : base = 10 ∨ base = 16) (hdig : digits.length = 16)

include hb

theorem one_lt_base : 1 < base.toNat := by rcases hb with rfl | rfl <;> decide

theorem base_le : base.toNat ≤ 16 := by rcases hb with rfl | rfl <;> decide

/-- Nineteen digits are enough for the most negative value, twenty for the largest unsigned one. -/
theorem length_signed (h : n ≤ 2 ^ 63) : (digitsOf base.toNat n).length ≤ 19 := by
  refine digitsOf_length_le (one_lt_base hb) (by decide) (Nat.lt_of_le_of_lt h ?_)
  rcases hb with rfl | rfl <;> decide

theorem length_unsigned (x : U64) : (digitsOf base.toNat x.toNat).length ≤ 20 := by
  refine digitsOf_length_le (one_lt_base hb) (by decide) (Nat.lt_of_lt_of_le x.isLt ?_)
  rcases hb with rfl | rfl <;> decide

include hdig

/-- A negative value, negated as the code does it: the most negative one stays what it is and is read
as unsigned. -/
theorem put_negative (buf : Nat → Byte) {xx : U64} (h : xx.toInt < 0) :
    put digits buf (-xx) base 1 = some (textOf digits base xx.toInt) := by
  have habs : (-xx).toNat = xx.toInt.natAbs ∧ xx.toInt.natAbs ≤ 2 ^ 63 := by
    have hint := BitVec.toInt_eq_toNat_cond xx
    have hlt := xx.isLt
    rw [BitVec.toNat_neg]
    split at hint <;> omega
  have hlen : (digitsOf base.toNat (-xx).toNat).length + (if (1 : I32) ≠ 0 then 1 else 0) ≤ bufSize := by
    rw [habs.1]
    exact Nat.succ_le_succ (length_signed hb habs.2)
  rw [put_eq buf (-xx) 1 hb hdig hlen, textOf, habs.1, decide_eq_true h]
  rfl

theorem put_plain (buf : Nat → Byte) (xx : U64) :
    put digits buf xx base 0 = some (textOf digits base xx.toNat) := by
  have hlen := length_unsigned hb xx
  rw [put_eq buf xx 0 hb hdig hlen, textOf, Int.natAbs_natCast, decide_eq_false (Int.not_lt.mpr (Int.natCast_nonneg _))]
  rfl

end Values

theorem toInt_of_nonneg {xx : U64} (h : ¬ xx.toInt < 0) : xx.toInt = xx.toNat := by
  have hint := BitVec.toInt_eq_toNat_cond xx
  have hlt := xx.isLt
  split at hint <;> omega

theorem kernel_printint (buf : Nat → Byte) (xx : U64) (sign : I32) (hb : base = 10 ∨ base = 16) :
    Kernel.printint buf xx base sign = some (textOf Kernel.digits base (valueOf xx sign)) := by
  unfold Kernel.printint valueOf
  by_cases hs : sign = 0
  · simp only [hs, ne_eq, not_true_eq_false, ↓reduceIte]
    exact put_plain hb rfl buf xx
  · by_cases hx : xx.toInt < 0
    · simp only [hs, hx, ne_eq, not_false_eq_true, ↓reduceIte]
      exact put_negative hb rfl buf hx
    · simp only [hs, hx, ne_eq, not_false_eq_true, ↓reduceIte]
      rw [toInt_of_nonneg hx]
      exact put_plain hb rfl buf xx

theorem user_printint (buf : Nat → Byte) (xx : U64) (sgn : I32) (hb : base = 10 ∨ base = 16) :
    User.printint buf xx base sgn = some (textOf User.digits base (valueOf xx sgn)) := by
  unfold User.printint valueOf
  by_cases hs : sgn = 0
  · simp only [hs, ne_eq, not_true_eq_false, false_and, ↓reduceIte]
    exact put_plain hb rfl buf xx
  · by_cases hx : xx.toInt < 0
    · simp only [hs, hx, ne_eq, not_false_eq_true, and_self, ↓reduceIte]
      exact put_negative hb rfl buf hx
    · simp only [hs, hx, ne_eq, not_false_eq_true, and_false, ↓reduceIte]
      rw [toInt_of_nonneg hx]
      exact put_plain hb rfl buf xx

structure Prints (base : I32) (v : Int) (s : List Byte) : Prop where
  canonical : Canonical s
  value : readInt base.toNat s = some v

theorem textOf_prints (hb : base = 10 ∨ base = 16) (hdig : ∀ d < 16, readDigit (charOf digits d) = some d) (v : Int) :
    Prints base v (textOf digits base v) := by
  have hread : ∀ d < base.toNat, readDigit (charOf digits d) = some d :=
    fun d hd => hdig d (Nat.lt_of_lt_of_le hd (base_le hb))
  constructor
  · refine canonical_numeral hread (one_lt_base hb) fun hneg => ?_
    have : v < 0 := of_decide_eq_true hneg
    omega
  · rw [textOf, readInt_numeral hread (one_lt_base hb)]
    congr 1
    by_cases hv : v < 0
    · simp only [hv, decide_true, ↓reduceIte]
      omega
    · simp only [hv, decide_false, Bool.false_eq_true, ↓reduceIte]
      omega

theorem textOf_upper (hb : base = 10 ∨ base = 16) (v : Int) :
    (textOf Kernel.digits base v).map upper = textOf User.digits base v := by
  have hmap : ((digitsOf base.toNat v.natAbs).map (charOf Kernel.digits)).map upper =
      (digitsOf base.toNat v.natAbs).map (charOf User.digits) := by
    rw [List.map_map]
    refine List.map_congr_left fun d hd => ?_
    exact upper_digits d (Nat.lt_of_lt_of_le (digitsOf_lt (one_lt_base hb) hd) (base_le hb))
  have hsign : ((if decide (v < 0) then [minusChar] else []).map upper) = if decide (v < 0) then [minusChar] else [] := by
    split <;> rfl
  rw [textOf, numeral, List.map_append, List.map_reverse, hmap, hsign]
  rfl

/-- In bases ten and sixteen, for every value and sign flag and whatever the buffers hold before, both
stay in their buffer and print the value in its shortest form, and they print the same but for the
case. -/
theorem printint_exact (buf buf' : Nat → Byte) (xx : U64) (base sign : I32) (hb : base = 10 ∨ base = 16) :
    ∃ s t, Kernel.printint buf xx base sign = some s ∧ User.printint buf' xx base sign = some t ∧
      Prints base (valueOf xx sign) s ∧ Prints base (valueOf xx sign) t ∧ s.map upper = t :=
  ⟨_, _, kernel_printint buf xx sign hb, user_printint buf' xx sign hb, textOf_prints hb kernel_digits _,
    textOf_prints hb user_digits _, textOf_upper hb _⟩

/-- The most negative value. -/
theorem printint_exact_minimum : ∃ s t, Kernel.printint (fun _ => 0) (BitVec.intMin 64) 10 1 = some s ∧
    User.printint (fun _ => 0) (BitVec.intMin 64) 10 1 = some t ∧ Prints 10 (-9223372036854775808) s ∧
      Prints 10 (-9223372036854775808) t ∧ s.map upper = t :=
  printint_exact (fun _ => 0) (fun _ => 0) (BitVec.intMin 64) 10 1 (.inl rfl)

end Xv6Filter.Printf
