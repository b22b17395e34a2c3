import Mathlib.Logic.Function.Basic

namespace Xv6Filter.Lib

open Function

variable {α β : Type} [DecidableEq α]

def applyWrites : List (α × β) → (α → β) → α → β
  | [], d => d
  | (a, v) :: ws, d => applyWrites ws (update d a v)

theorem applyWrites_append (ws vs : List (α × β)) (d : α → β) :
    applyWrites (ws ++ vs) d = applyWrites vs (applyWrites ws d) := by
  induction ws generalizing d with
  | nil => rfl
  | cons w ws ih => exact ih _

theorem applyWrites_snoc (ws : List (α × β)) (a : α) (v : β) (d : α → β) :
    applyWrites (ws ++ [(a, v)]) d = update (applyWrites ws d) a v :=
  applyWrites_append ws [(a, v)] d

theorem applyWrites_other {ws : List (α × β)} {a : α} (d : α → β) (h : a ∉ ws.map Prod.fst) :
    applyWrites ws d a = d a := by
  induction ws generalizing d with
  | nil => rfl
  | cons w ws ih =>
    simp only [List.map_cons, List.mem_cons, not_or] at h
    have hs := ih (update d w.1 w.2) h.2
    rw [update_of_ne h.1] at hs
    exact hs

/-- Writing `f a` at each listed `a`, in any order and any number of times. -/
theorem applyWrites_map (as : List α) (f : α → β) (d : α → β) (a : α) :
    applyWrites (as.map fun a => (a, f a)) d a = if a ∈ as then f a else d a := by
  induction as generalizing d with
  | nil => rfl
  | cons b as ih =>
    have hs := ih (update d b (f b))
    refine hs.trans ?_
    by_cases hm : a ∈ as
    · simp [hm]
    · by_cases hb : a = b
      · subst hb
        simp
      · simp [hm, hb]

def Throughout (P : (α → β) → Prop) (ws : List (α × β)) (d : α → β) : Prop :=
  ∀ k, P (applyWrites (ws.take k) d)

theorem Throughout.of_step {P : (α → β) → Prop} {ws : List (α × β)} {d : α → β} (h : P d)
    (hs : ∀ w ∈ ws, ∀ d, P d → P (update d w.1 w.2)) : Throughout P ws d := by
  intro k
  induction ws generalizing d k with
  | nil => simpa [applyWrites] using h
  | cons w ws ih =>
    cases k with
    | zero => exact h
    | succ k =>
      exact ih (hs w (by simp) d h) (fun v hv => hs v (by simp [hv])) k

theorem Throughout.append {P : (α → β) → Prop} {ws vs : List (α × β)} {d : α → β}
    (h : Throughout P ws d) (h' : Throughout P vs (applyWrites ws d)) :
    Throughout P (ws ++ vs) d := by
  intro k
  by_cases hk : k ≤ ws.length
  · rw [List.take_append_of_le_length hk]
    exact h k
  · have he : (ws ++ vs).take k = ws ++ vs.take (k - ws.length) := by
      rw [List.take_append, List.take_of_length_le (by omega)]
    rw [he, applyWrites_append]
    exact h' _

theorem Throughout.single {P : (α → β) → Prop} {w : α × β} {d : α → β} (h : P d)
    (h' : P (update d w.1 w.2)) : Throughout P [w] d := by
  intro k
  cases k with
  | zero => exact h
  | succ k => simpa [applyWrites] using h'

theorem Throughout.last {P : (α → β) → Prop} {ws : List (α × β)} {d : α → β}
    (h : Throughout P ws d) : P (applyWrites ws d) := by
  have := h ws.length
  rwa [List.take_length] at this

theorem Throughout.mono {P Q : (α → β) → Prop} {ws : List (α × β)} {d : α → β}
    (h : Throughout P ws d) (hpq : ∀ d, P d → Q d) : Throughout Q ws d :=
  fun k => hpq _ (h k)

end Xv6Filter.Lib
