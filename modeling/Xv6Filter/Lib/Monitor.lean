import Mathlib.Logic.Function.Basic

namespace Xv6Filter.Lib

open Function

variable {ι κ : Type} {inside : κ → Bool} {knows knows' : κ → Prop} {lock : Option ι} {pc : ι → κ}

/-- The discipline of one lock over processes that stand at places `pc`: the holder is the one
that is inside, and what a process may rely on at its place inside does hold. -/
structure Exclusive (inside : κ → Bool) (knows : κ → Prop) (lock : Option ι) (pc : ι → κ) : Prop where
  holder : ∀ p, inside (pc p) = true ↔ lock = some p
  fact : ∀ p, inside (pc p) = true → knows (pc p)

namespace Exclusive

theorem outside (h : Exclusive inside knows lock pc) (hl : lock ≠ some p) : inside (pc p) = false := by
  rw [← Bool.not_eq_true, h.holder]
  exact hl

theorem fact_at (h : Exclusive inside knows lock pc) (hl : lock = some p) {c : κ} (hc : pc p = c) : knows c := by
  subst hc
  exact h.fact p ((h.holder p).mpr hl)

theorem free (h : Exclusive inside knows none pc) : Exclusive inside knows' none pc := by
  refine ⟨h.holder, ?_⟩
  intro p hp
  cases (h.holder p).mp hp

variable [DecidableEq ι] {p : ι} {c : κ}

/-- The holder of the lock moves on inside its section. -/
theorem goto (h : Exclusive inside knows lock pc) (hl : lock = some p) (hc : inside c = true) (hk : knows' c) :
    Exclusive inside knows' lock (update pc p c) := by
  have hne : ∀ q, q ≠ p → inside (pc q) = false := by
    intro q hq
    apply h.outside
    rw [hl]
    exact fun he => hq (Option.some.inj he).symm
  refine ⟨?_, ?_⟩
  · intro q
    by_cases hq : q = p
    · subst hq
      rw [update_self]
      exact iff_of_true hc hl
    · rw [update_of_ne hq]
      exact h.holder q
  · intro q hin
    by_cases hq : q = p
    · subst hq
      rwa [update_self]
    · rw [update_of_ne hq, hne q hq] at hin
      cases hin

theorem release (h : Exclusive inside knows lock pc) (hl : lock = some p) (hc : inside c = false) :
    Exclusive inside knows' none (update pc p c) := by
  have hout : ∀ q, inside (update pc p c q) = false := by
    intro q
    by_cases hq : q = p
    · subst hq
      rwa [update_self]
    · rw [update_of_ne hq]
      apply h.outside
      rw [hl]
      exact fun he => hq (Option.some.inj he).symm
  refine ⟨?_, ?_⟩
  · intro q
    rw [hout q]
    simp
  · intro q hin
    rw [hout q] at hin
    cases hin

theorem acquire (h : Exclusive inside knows none pc) (hc : inside c = true) (hk : knows' c) :
    Exclusive inside knows' (some p) (update pc p c) := by
  have hout : ∀ q, inside (pc q) = false := fun q => h.outside nofun
  refine ⟨?_, ?_⟩
  · intro q
    by_cases hq : q = p
    · subst hq
      rw [update_self]
      exact iff_of_true hc rfl
    · rw [update_of_ne hq, hout]
      simp [Ne.symm hq]
  · intro q hin
    by_cases hq : q = p
    · subst hq
      rwa [update_self]
    · rw [update_of_ne hq, hout] at hin
      cases hin

end Exclusive

end Xv6Filter.Lib
