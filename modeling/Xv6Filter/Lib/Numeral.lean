import Mathlib.Data.Nat.Digits.Lemmas

namespace Xv6Filter.Lib

def minusChar : UInt8 := 45
def zeroDigit : UInt8 := 48

def readDigit (c : UInt8) : Option Nat :=
  if 48 ≤ c ∧ c ≤ 57 then some (c.toNat - 48)
  else if 97 ≤ c ∧ c ≤ 102 then some (c.toNat - 87)
  else if 65 ≤ c ∧ c ≤ 70 then some (c.toNat - 55)
  else none

theorem readDigit_zero (h : readDigit c = some 0) : c = zeroDigit := by
  refine UInt8.toNat_inj.mp (?_ : c.toNat = 48)
  simp only [readDigit, UInt8.le_iff_toNat_le, UInt8.reduceToNat] at h
  split at h
  · have := Option.some.inj h
    omega
  split at h
  · have := Option.some.inj h
    omega
  split at h
  · have := Option.some.inj h
    omega
  · cases h

def readStep (base n : Nat) (c : UInt8) : Option Nat := do
  let d ← readDigit c
  if d < base then some (base * n + d) else none

def readNat (base : Nat) (s : List UInt8) : Option Nat :=
  if s = [] then none else s.foldlM (readStep base) 0

def readInt (base : Nat) (s : List UInt8) : Option Int :=
  if s.head? = some minusChar then (readNat base s.tail).map fun n => -(n : Int)
  else (readNat base s).map fun n => (n : Int)

def Canonical (s : List UInt8) : Prop :=
  s = [zeroDigit] ∨ (if s.head? = some minusChar then s.tail else s).head? ≠ some zeroDigit

def digitsOf (base n : Nat) : List Nat := if n = 0 then [0] else Nat.digits base n

theorem digitsOf_of_lt (h : n < base) : digitsOf base n = [n] := by
  unfold digitsOf
  split
  · rename_i h0
    rw [h0]
  · exact Nat.digits_of_lt base n ‹_› h

theorem digitsOf_step (hb : 1 < base) (h : n / base ≠ 0) : digitsOf base n = n % base :: digitsOf base (n / base) := by
  have hn : n ≠ 0 := by
    rintro rfl
    simp at h
  rw [digitsOf, digitsOf, if_neg hn, if_neg h, Nat.digits_def' hb (Nat.pos_of_ne_zero hn)]

theorem digitsOf_ne_nil (base n : Nat) : digitsOf base n ≠ [] := by
  unfold digitsOf
  split
  · exact List.cons_ne_nil _ _
  · exact Nat.digits_ne_nil_iff_ne_zero.mpr ‹_›

theorem digitsOf_lt (hb : 1 < base) (hd : d ∈ digitsOf base n) : d < base := by
  unfold digitsOf at hd
  split at hd
  · rw [List.mem_singleton.mp hd]
    omega
  · exact Nat.digits_lt_base hb hd

theorem digitsOf_value (base n : Nat) : Nat.ofDigits base (digitsOf base n) = n := by
  unfold digitsOf
  split
  · simp [*]
  · exact Nat.ofDigits_digits base n

theorem digitsOf_length_le (hb : 1 < base) (hk : 0 < k) (h : n < base ^ k) : (digitsOf base n).length ≤ k := by
  unfold digitsOf
  split
  · exact hk
  · exact (Nat.digits_length_le_iff hb n).mpr h

theorem digitsOf_last (hn : n ≠ 0) : ∀ d ∈ (digitsOf base n).getLast?, d ≠ 0 := by
  intro d hd
  rw [digitsOf, if_neg hn] at hd
  have hne : Nat.digits base n ≠ [] := Nat.digits_ne_nil_iff_ne_zero.mpr hn
  rw [List.getLast?_eq_some_getLast hne] at hd
  cases hd
  exact Nat.getLast_digit_ne_zero base hn

def numeral (digit : Nat → UInt8) (base : Nat) (neg : Bool) (n : Nat) : List UInt8 :=
  (if neg then [minusChar] else []) ++ ((digitsOf base n).map digit).reverse

theorem numeral_head (digit : Nat → UInt8) (hb : 1 < base) (n : Nat) :
    ∃ d < base, (d = 0 → n = 0) ∧ (numeral digit base false n).head? = some (digit d) := by
  obtain ⟨d, hd⟩ : ∃ d, (digitsOf base n).getLast? = some d := ⟨_, List.getLast?_eq_some_getLast (digitsOf_ne_nil base n)⟩
  refine ⟨d, digitsOf_lt hb (List.mem_of_getLast? hd), fun h0 => ?_, ?_⟩
  · by_contra hn
    exact digitsOf_last hn d hd h0
  · simp [numeral, List.head?_reverse, List.getLast?_map, hd]

section Text

variable {digit : Nat → UInt8} {base : Nat} (hdig : ∀ d < base, readDigit (digit d) = some d)

include hdig

theorem readNat_digits (hds : ∀ d ∈ ds, d < base) (hne : ds ≠ []) :
    readNat base (ds.map digit).reverse = some (Nat.ofDigits base ds) := by
  have hfold : (ds.map digit).reverse.foldlM (readStep base) 0 = some (Nat.ofDigits base ds) := by
    clear hne
    induction ds with
    | nil => rfl
    | cons d ds ih =>
      obtain ⟨hd, hds⟩ := List.forall_mem_cons.mp hds
      rw [List.map_cons, List.reverse_cons, List.foldlM_append, ih hds]
      simp [readStep, hdig d hd, hd, Nat.ofDigits_cons, Nat.add_comm]
  rw [readNat, if_neg (by simpa using hne), hfold]

theorem numeral_head_ne_minus (hb : 1 < base) (n : Nat) : (numeral digit base false n).head? ≠ some minusChar := by
  obtain ⟨d, hd, -, hh⟩ := numeral_head digit hb n
  rw [hh]
  intro hm
  have hr := hdig d hd
  rw [Option.some.inj hm] at hr
  cases hr

theorem readInt_numeral (hb : 1 < base) (neg : Bool) (n : Nat) :
    readInt base (numeral digit base neg n) = some (if neg then -(n : Int) else n) := by
  have hread : readNat base (numeral digit base false n) = some n := by
    have h := readNat_digits hdig (fun d hd => digitsOf_lt hb hd) (digitsOf_ne_nil base n)
    rwa [digitsOf_value] at h
  cases neg with
  | true =>
    have hhead : (numeral digit base true n).head? = some minusChar := rfl
    have htail : (numeral digit base true n).tail = numeral digit base false n := rfl
    rw [readInt, if_pos hhead, htail, hread]
    rfl
  | false =>
    rw [readInt, if_neg (numeral_head_ne_minus hdig hb n), hread]
    rfl

theorem canonical_numeral (hb : 1 < base) (hneg : neg = true → n ≠ 0) : Canonical (numeral digit base neg n) := by
  have hfirst : n ≠ 0 → (numeral digit base false n).head? ≠ some zeroDigit := by
    intro hn
    obtain ⟨d, hd, h0, hh⟩ := numeral_head digit hb n
    rw [hh]
    intro hz
    have hr := hdig d hd
    rw [Option.some.inj hz] at hr
    exact hn (h0 (Option.some.inj hr).symm)
  cases neg with
  | true =>
    have hhead : (numeral digit base true n).head? = some minusChar := rfl
    rw [Canonical, if_pos hhead]
    exact .inr (hfirst (hneg rfl))
  | false =>
    rw [Canonical, if_neg (numeral_head_ne_minus hdig hb n)]
    by_cases hn : n = 0
    · left
      rw [hn, numeral, ← readDigit_zero (hdig 0 (by omega))]
      rfl
    · exact .inr (hfirst hn)

end Text

end Xv6Filter.Lib
