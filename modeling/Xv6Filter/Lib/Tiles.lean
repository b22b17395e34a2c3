import Mathlib.Data.Finset.Basic

namespace Xv6Filter.Lib

open Function

/-- Blocks of memory that start at the addresses of `s` and are `len` long, none of them empty and no
two of them overlapping. -/
structure Tiles (s : Finset Nat) (len : Nat → Nat) : Prop where
  pos : ∀ a ∈ s, 0 < len a
  apart : ∀ a ∈ s, ∀ b ∈ s, a < b → a + len a ≤ b

def Covered (s : Finset Nat) (len : Nat → Nat) (x : Nat) : Prop := ∃ a ∈ s, a ≤ x ∧ x < a + len a

variable {s : Finset Nat} {len len' : Nat → Nat} {a b n x : Nat}

theorem covered_congr (hl : ∀ a ∈ s, len' a = len a) : Covered s len' x ↔ Covered s len x := by
  unfold Covered
  exact exists_congr fun a => and_congr_right fun ha => by rw [hl a ha]

namespace Tiles

theorem congr (h : Tiles s len) (hl : ∀ a ∈ s, len' a = len a) : Tiles s len' := by
  refine ⟨fun a ha => ?_, fun a ha b hb hab => ?_⟩
  · rw [hl a ha]
    exact h.pos a ha
  · rw [hl a ha]
    exact h.apart a ha b hb hab

theorem covered_start (h : Tiles s len) (ha : a ∈ s) : Covered s len a := by
  have := h.pos a ha
  exact ⟨a, ha, Nat.le_refl a, by omega⟩

theorem absorb (h : Tiles s len) (ha : a ∈ s) (hb : b ∈ s) (hab : a + len a = b) :
    Tiles (s.erase b) (update len a (len a + len b)) := by
  have hpos := h.pos
  have hapart := h.apart
  constructor
  · intro x hx
    grind [update_apply]
  · intro x hx y hy
    grind [update_apply]

theorem covered_absorb (h : Tiles s len) (ha : a ∈ s) (hb : b ∈ s) (hab : a + len a = b) :
    Covered (s.erase b) (update len a (len a + len b)) x ↔ Covered s len x := by
  have hpos := h.pos a ha
  constructor
  · rintro ⟨c, hc, hle, hlt⟩
    unfold Covered
    by_cases hca : c = a
    · subst hca
      rw [update_self] at hlt
      by_cases hx : x < c + len c
      · exact ⟨c, ha, hle, hx⟩
      · exact ⟨b, hb, by omega, by omega⟩
    · rw [update_of_ne hca] at hlt
      exact ⟨c, Finset.mem_of_mem_erase hc, hle, hlt⟩
  · rintro ⟨c, hc, hle, hlt⟩
    by_cases hcb : c = b
    · subst hcb
      exact ⟨a, Finset.mem_erase.mpr ⟨by omega, ha⟩, by omega, by rw [update_self]; omega⟩
    · refine ⟨c, Finset.mem_erase.mpr ⟨hcb, hc⟩, hle, ?_⟩
      by_cases hca : c = a
      · subst hca
        rw [update_self]
        omega
      · rwa [update_of_ne hca]

theorem shrink (h : Tiles s len) (ha : a ∈ s) (hn : 0 < n) (hle : n ≤ len a) :
    Tiles s (update len a n) := by
  have hpos := h.pos
  have hapart := h.apart
  constructor
  · intro x hx
    grind [update_apply]
  · intro x hx y hy
    grind [update_apply]

theorem covered_shrink (ha : a ∈ s) (hle : n ≤ len a) :
    Covered s len x ↔ Covered s (update len a n) x ∨ a + n ≤ x ∧ x < a + len a := by
  constructor
  · rintro ⟨c, hc, hlow, hlt⟩
    by_cases hca : c = a
    · subst hca
      by_cases hx : x < c + n
      · exact .inl ⟨c, hc, hlow, by rwa [update_self]⟩
      · exact .inr ⟨by omega, hlt⟩
    · exact .inl ⟨c, hc, hlow, by rwa [update_of_ne hca]⟩
  · rintro (⟨c, hc, hlow, hlt⟩ | ⟨hlow, hlt⟩)
    · refine ⟨c, hc, hlow, ?_⟩
      by_cases hca : c = a
      · subst hca
        rw [update_self] at hlt
        omega
      · rwa [update_of_ne hca] at hlt
    · exact ⟨a, ha, by omega, hlt⟩

theorem not_covered_end (h : Tiles s len) (ha : a ∈ s) (hlow : a + n ≤ x) (hlt : x < a + len a) :
    ¬ Covered s (update len a n) x := by
  rintro ⟨c, hc, hle, hx⟩
  have hapart := h.apart
  grind [update_apply]

theorem add (h : Tiles s len) (hn : 0 < n) (hfree : ∀ x, b ≤ x → x < b + n → ¬ Covered s len x) :
    Tiles (insert b s) (update len b n) := by
  have hout : ∀ a ∈ s, a + len a ≤ b ∨ b + n ≤ a := by
    intro a ha
    have hpos := h.pos a ha
    by_contra hno
    by_cases hab : a ≤ b
    · exact hfree b (Nat.le_refl b) (by omega) ⟨a, ha, hab, by omega⟩
    · exact hfree a (by omega) (by omega) (h.covered_start ha)
  have hpos := h.pos
  have hapart := h.apart
  constructor
  · intro x hx
    grind [update_apply]
  · intro x hx y hy
    grind [update_apply]

theorem covered_add (hfree : b ∉ s) :
    Covered (insert b s) (update len b n) x ↔ b ≤ x ∧ x < b + n ∨ Covered s len x := by
  constructor
  · rintro ⟨c, hc, hle, hlt⟩
    rcases Finset.mem_insert.mp hc with rfl | hc
    · rw [update_self] at hlt
      exact .inl ⟨hle, hlt⟩
    · have hne : c ≠ b := fun he => hfree (he ▸ hc)
      rw [update_of_ne hne] at hlt
      exact .inr ⟨c, hc, hle, hlt⟩
  · rintro (⟨hle, hlt⟩ | ⟨c, hc, hle, hlt⟩)
    · exact ⟨b, Finset.mem_insert_self _ _, hle, by rwa [update_self]⟩
    · have hne : c ≠ b := fun he => hfree (he ▸ hc)
      exact ⟨c, Finset.mem_insert_of_mem hc, hle, by rwa [update_of_ne hne]⟩

end Tiles

end Xv6Filter.Lib
