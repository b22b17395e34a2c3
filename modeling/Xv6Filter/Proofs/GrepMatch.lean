import Xv6Filter.User.Grep
import Mathlib.Computability.Language

namespace Xv6Filter.Grep

inductive Item where
  | one (c : Byte)
  | many (c : Byte)
  | finish
  deriving DecidableEq, Repr

/-- The items of a pattern: a character with a star behind it is repeated, whatever it is, and only a
`$` that is the last character stands for the end of the text. -/
def items : List Byte → List Item
  | [] => []
  | [c] => if c = dollar then [.finish] else [.one c]
  | c :: d :: re => if d = star then .many c :: items re else .one c :: items (d :: re)

def Matches (c b : Byte) : Prop := c = dot ∨ c = b

def letters (c : Byte) : Language Byte := { w | ∃ b, Matches c b ∧ w = [b] }

open scoped Computability in
def Item.language : Item → Language Byte
  | .one c => letters c
  | .many c => (letters c)∗
  | .finish => 1

def language (re : List Byte) : Language Byte := ((items re).map Item.language).prod

/-- The text begins with a word of the pattern, which is all of it if the pattern asks for the end. -/
def Begins (re text : List Byte) : Prop :=
  ∃ w rest, text = w ++ rest ∧ w ∈ language re ∧ (Item.finish ∈ items re → rest = [])

open scoped Computability in
theorem mem_letters_kstar : w ∈ (letters c)∗ ↔ ∀ b ∈ w, Matches c b := by
  rw [Language.mem_kstar]
  constructor
  · rintro ⟨ws, rfl, hws⟩ b hb
    obtain ⟨v, hv, hbv⟩ := List.mem_flatten.mp hb
    obtain ⟨b', hc, rfl⟩ := hws v hv
    rw [List.mem_singleton.mp hbv]
    exact hc
  · intro h
    refine ⟨w.map fun b => [b], ?_, ?_⟩
    · induction w with
      | nil => rfl
      | cons b w ih => simpa using ih fun b' hb' => h b' (List.mem_cons_of_mem _ hb')
    · intro v hv
      obtain ⟨b, hb, rfl⟩ := List.mem_map.mp hv
      exact ⟨b, h b hb, rfl⟩

theorem begins_nil : Begins [] text := ⟨[], text, rfl, rfl, by simp [items]⟩

theorem begins_finish : Begins [dollar] text ↔ text = [] := by
  constructor
  · rintro ⟨w, rest, rfl, hw, hrest⟩
    have hw' : w = [] := by simpa [language, items, Item.language, Language.mem_one] using hw
    rw [hw', hrest (by simp [items])]
    rfl
  · rintro rfl
    exact ⟨[], [], rfl, by simp [language, items, Item.language, Language.mem_one], fun _ => rfl⟩

theorem begins_one (hi : items re = .one c :: items re') :
    Begins re text ↔ ∃ b rest, text = b :: rest ∧ Matches c b ∧ Begins re' rest := by
  have hl : language re = letters c * language re' := by
    simp only [language, hi, List.map_cons, List.prod_cons, Item.language]
  constructor
  · rintro ⟨w, rest, rfl, hw, hend⟩
    rw [hl, Language.mem_mul] at hw
    obtain ⟨_, ⟨b, hb, rfl⟩, v, hv, rfl⟩ := hw
    refine ⟨b, v ++ rest, rfl, hb, v, rest, rfl, hv, fun hf => hend ?_⟩
    rw [hi]
    exact List.mem_cons_of_mem _ hf
  · rintro ⟨b, _, rfl, hb, v, rest, rfl, hv, hend⟩
    refine ⟨b :: v, rest, rfl, ?_, fun hf => hend ?_⟩
    · rw [hl, Language.mem_mul]
      exact ⟨[b], ⟨b, hb, rfl⟩, v, hv, rfl⟩
    · rw [hi] at hf
      simpa using hf

theorem begins_many (hi : items re = .many c :: items re') :
    Begins re text ↔ ∃ w rest, text = w ++ rest ∧ (∀ b ∈ w, Matches c b) ∧ Begins re' rest := by
  have hl : language re = (Item.many c).language * language re' := by
    simp only [language, hi, List.map_cons, List.prod_cons]
  constructor
  · rintro ⟨w, rest, rfl, hw, hend⟩
    rw [hl, Language.mem_mul] at hw
    obtain ⟨u, hu, v, hv, rfl⟩ := hw
    refine ⟨u, v ++ rest, List.append_assoc .., mem_letters_kstar.mp hu, v, rest, rfl, hv, fun hf => hend ?_⟩
    rw [hi]
    exact List.mem_cons_of_mem _ hf
  · rintro ⟨u, _, rfl, hu, v, rest, rfl, hv, hend⟩
    refine ⟨u ++ v, rest, (List.append_assoc ..).symm, ?_, fun hf => hend ?_⟩
    · rw [hl, Language.mem_mul]
      exact ⟨u, mem_letters_kstar.mpr hu, v, hv, rfl⟩
    · rw [hi] at hf
      simpa using hf

theorem matchstar_iff : matchstar c here text = true ↔
    ∃ w rest, text = w ++ rest ∧ (∀ b ∈ w, Matches c b) ∧ here rest = true := by
  induction text with
  | nil =>
    simp only [matchstar]
    constructor
    · exact fun h => ⟨[], [], rfl, by simp, h⟩
    · rintro ⟨w, rest, hw, -, h⟩
      rw [(List.append_eq_nil_iff.mp hw.symm).2] at h
      exact h
  | cons b text ih =>
    simp only [matchstar, Bool.or_eq_true, Bool.and_eq_true, beq_iff_eq, ih]
    constructor
    · rintro (h | ⟨hb, w, rest, rfl, hw, h⟩)
      · exact ⟨[], b :: text, rfl, by simp, h⟩
      · have hb' : Matches c b := hb.symm.imp_right Eq.symm
        exact ⟨b :: w, rest, rfl, List.forall_mem_cons.mpr ⟨hb', hw⟩, h⟩
    · rintro ⟨w, rest, hw, hm, h⟩
      cases w with
      | nil =>
        left
        rw [show b :: text = rest from hw]
        exact h
      | cons b' w =>
        right
        obtain ⟨rfl, rfl⟩ := List.cons_eq_cons.mp hw
        obtain ⟨hb, hm⟩ := List.forall_mem_cons.mp hm
        exact ⟨hb.symm.imp_left Eq.symm, w, rest, rfl, hm, h⟩

theorem matchhere_iff : matchhere re text = true ↔ Begins re text := by
  induction re using items.induct generalizing text with
  | case1 => simpa [matchhere] using begins_nil
  | case2 => simp [matchhere, begins_finish]
  | case3 c hc =>
    have hi : items [c] = .one c :: items [] := by simp [items, hc]
    rw [begins_one hi]
    simp only [matchhere, if_neg hc]
    cases text with
    | nil => simp
    | cons b text => simp [Matches, begins_nil]
  | case4 c re ih =>
    have hi : items (c :: star :: re) = .many c :: items re := by simp [items]
    rw [begins_many hi]
    simp only [matchhere, if_true, matchstar_iff, ih]
  | case5 c d re hd ih =>
    have hi : items (c :: d :: re) = .one c :: items (d :: re) := by simp [items, hd]
    rw [begins_one hi]
    simp only [matchhere, if_neg hd]
    cases text with
    | nil => simp
    | cons b text => simp [Matches, ih]

theorem matchAny_iff : matchAny re text = true ↔ ∃ s, s <:+ text ∧ Begins re s := by
  induction text with
  | nil => simp [matchAny, matchhere_iff]
  | cons b text ih =>
    simp only [matchAny, Bool.or_eq_true, matchhere_iff, ih, List.suffix_cons_iff]
    constructor
    · rintro (h | ⟨s, hs, h⟩)
      · exact ⟨_, .inl rfl, h⟩
      · exact ⟨s, .inr hs, h⟩
    · rintro ⟨s, rfl | hs, h⟩
      · exact .inl h
      · exact .inr ⟨s, hs, h⟩

/-- `match` returns 1 exactly when a suffix of the text, or the whole text behind a `^`, begins with a
word of the pattern. -/
theorem matchText_exact (re text : List Byte) : matchText re text = true ↔
    if re.head? = some caret then Begins re.tail text else ∃ s, s <:+ text ∧ Begins re s := by
  cases re with
  | nil => simp [matchText, matchAny_iff]
  | cons c re =>
    by_cases hc : c = caret
    · simp [matchText, hc, matchhere_iff]
    · simp [matchText, hc, matchAny_iff]

end Xv6Filter.Grep
