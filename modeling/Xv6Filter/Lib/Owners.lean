import Mathlib.Logic.Function.Basic

namespace Xv6Filter.Lib

open Function

/-- Places `ι` that each own one resource, or none (0). A resource of the area is in
use exactly when a place owns it, and no two places own the same. -/
structure Exact (used : Nat → Bool) (own : ι → Nat) (area : Nat → Prop) : Prop where
  marked : ∀ i, own i ≠ 0 → used (own i) = true
  inside : ∀ i, own i ≠ 0 → area (own i)
  inj : ∀ i j, own i ≠ 0 → own i = own j → i = j
  owned : ∀ b, area b → used b = true → ∃ i, own i = b
  proper : ¬ area 0

namespace Exact

variable {used used' : Nat → Bool} {own own' : ι → Nat} {area : Nat → Prop} {b : Nat} {i : ι}

theorem congr (h : Exact used own area) (ho : ∀ j, own' j = own j) : Exact used own' area := by
  obtain rfl : own' = own := funext ho
  exact h

theorem insert (h : Exact used own area) (hi : own i = 0) (hfree : used b = false) (ha : area b)
    (hu : used' = update used b true) (hb : own' i = b)
    (ho : ∀ j, j ≠ i → own' j = own j) : Exact used' own' area := by
  subst hu
  have hnew : ∀ j, own j ≠ 0 → own j ≠ b := by
    rintro j hj rfl
    rw [h.marked j hj] at hfree
    cases hfree
  refine ⟨?_, ?_, ?_, ?_, h.proper⟩
  · intro j hj
    by_cases hji : j = i
    · rw [hji, hb, update_self]
    · rw [ho j hji] at hj ⊢
      rw [update_of_ne (hnew j hj)]
      exact h.marked j hj
  · intro j hj
    by_cases hji : j = i
    · rw [hji, hb]
      exact ha
    · rw [ho j hji] at hj ⊢
      exact h.inside j hj
  · intro j k hj he
    by_cases hji : j = i <;> by_cases hki : k = i
    · rw [hji, hki]
    · exfalso
      rw [hji, hb, ho k hki] at he
      rw [hji, hb, he] at hj
      exact hnew k hj he.symm
    · exfalso
      rw [ho j hji] at hj he
      rw [hki, hb] at he
      exact hnew j hj he
    · rw [ho j hji] at hj he
      rw [ho k hki] at he
      exact h.inj j k hj he
  · intro c hc hu
    by_cases hcb : c = b
    · exact ⟨i, hb.trans hcb.symm⟩
    · rw [update_of_ne hcb] at hu
      obtain ⟨j, hj⟩ := h.owned c hc hu
      by_cases hji : j = i
      · rw [hji, hi] at hj
        exact absurd hc (hj ▸ h.proper)
      · exact ⟨j, (ho j hji).trans hj⟩

theorem remove (h : Exact used own area) (hi : own i ≠ 0)
    (hu : used' = update used (own i) false) (hb : own' i = 0)
    (ho : ∀ j, j ≠ i → own' j = own j) : Exact used' own' area := by
  subst hu
  have hother : ∀ j, j ≠ i → own j ≠ 0 → own j ≠ own i := fun j hji hj he => hji (h.inj j i hj he)
  have hne : ∀ j, own' j ≠ 0 → j ≠ i := by
    rintro j hj rfl
    exact hj hb
  refine ⟨?_, ?_, ?_, ?_, h.proper⟩
  · intro j hj
    have hji := hne j hj
    rw [ho j hji] at hj ⊢
    rw [update_of_ne (hother j hji hj)]
    exact h.marked j hj
  · intro j hj
    have hji := hne j hj
    rw [ho j hji] at hj ⊢
    exact h.inside j hj
  · intro j k hj he
    have hji := hne j hj
    have hki := hne k (he ▸ hj)
    rw [ho j hji] at hj he
    rw [ho k hki] at he
    exact h.inj j k hj he
  · intro c hc hu
    have hci : c ≠ own i := by
      rintro rfl
      simp at hu
    rw [update_of_ne hci] at hu
    obtain ⟨j, rfl⟩ := h.owned c hc hu
    exact ⟨j, ho j fun hji => hci (hji ▸ rfl)⟩

end Exact

end Xv6Filter.Lib
