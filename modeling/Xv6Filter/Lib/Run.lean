import Mathlib.Logic.Function.Basic

namespace Xv6Filter.Lib

/-- The events lead from `s` to the last state, each enabled where it is taken
and each meeting `ok` in the state before it. -/
inductive Run (step : σ → ε → Option σ) (ok : σ → ε → Prop) (s : σ) : List ε → σ → Prop where
  | nil : Run step ok s [] s
  | snoc (run : Run step ok s es t) (meets : ok t e) (next : step t e = some u) :
      Run step ok s (es ++ [e]) u

def anyEvent : σ → ε → Prop := fun _ _ => True

inductive LiveRun (step : σ → ε → Option σ) (ok : σ → ε → Prop) (live : σ → Prop) (s : σ) :
    List ε → σ → Prop where
  | nil (here : live s) : LiveRun step ok live s [] s
  | snoc (run : LiveRun step ok live s es t) (meets : ok t e) (next : step t e = some u)
      (here : live u) : LiveRun step ok live s (es ++ [e]) u

section Rules

variable {step : σ → ε → Option σ} {ok ok' : σ → ε → Prop} {live : σ → Prop}

/-- What holds at the start and survives each admitted step holds at the end. -/
theorem Run.invariant (inv : σ → Prop) (hi : inv s)
    (hs : ∀ t e u, inv t → ok t e → step t e = some u → inv u)
    (hr : Run step ok s es t) : inv t := by
  induction hr with
  | nil => exact hi
  | snoc _ hm hn ih => exact hs _ _ _ ih hm hn

theorem Run.append (hr : Run step ok s es t) (hr' : Run step ok t es' u) :
    Run step ok s (es ++ es') u := by
  induction hr' with
  | nil => simpa using hr
  | snoc _ hm hn ih =>
    rw [← List.append_assoc]
    exact .snoc ih hm hn

/-- Along a live run an invariant of single steps relates the two ends. -/
theorem LiveRun.relate (rel : σ → σ → Prop) (hrefl : live s → rel s s)
    (hstep : ∀ t e u, rel s t → live t → ok t e → step t e = some u → live u → rel s u)
    (hr : LiveRun step ok live s es t) : rel s t ∧ live t := by
  induction hr with
  | nil hl => exact ⟨hrefl hl, hl⟩
  | snoc _ hm hn hl ih => exact ⟨hstep _ _ _ ih.1 ih.2 hm hn hl, hl⟩

theorem LiveRun.of_run [DecidablePred live] (hl : live s)
    (hr : Run (fun t e => (step t e).filter fun u => decide (live u)) ok s es t) :
    LiveRun step ok live s es t := by
  induction hr with
  | nil => exact .nil hl
  | snoc _ hm hn ih =>
    obtain ⟨hn, hu⟩ := Option.filter_eq_some_iff.mp hn
    exact .snoc ih hm hn (by simpa using hu)

end Rules

section Observe

variable {step : σ → ε → Option σ} {ok : σ → ε → Prop}

def observe (step : σ → ε → Option σ) (obs : σ → ε → List α) : List ε → σ → List α
  | [], _ => []
  | e :: es, s =>
    obs s e ++
      match step s e with
      | some t => observe step obs es t
      | none => []

theorem Run.observe_append (obs : σ → ε → List α) (hr : Run step ok s es t) (es' : List ε) :
    observe step obs (es ++ es') s = observe step obs es s ++ observe step obs es' t := by
  induction hr generalizing es' with
  | nil => rfl
  | @snoc es t e u _ _ hn ih =>
    have hstep : ∀ l, observe step obs (e :: l) t = obs t e ++ observe step obs l u := by
      intro l
      simp only [observe, hn]
    rw [List.append_assoc, List.singleton_append, ih, ih, hstep, hstep, List.append_assoc]
    simp only [observe, List.append_nil]

theorem Run.observe_snoc (obs : σ → ε → List α) (hr : Run step ok s es t) (e : ε) :
    observe step obs (es ++ [e]) s = observe step obs es s ++ obs t e := by
  rw [hr.observe_append]
  congr 1
  simp only [observe]
  split <;> exact List.append_nil _

end Observe

section Replay

variable (step : σ → ε → Option σ) (ok : σ → ε → Prop) [∀ s e, Decidable (ok s e)]

instance (s : σ) (e : ε) : Decidable (anyEvent s e) := .isTrue trivial

def replay : List ε → σ → Option σ
  | [], s => some s
  | e :: es, s => if ok s e then (step s e).bind (replay es) else none

variable {step ok}

theorem replay_run (hr : replay step ok es s = some t) : Run step ok s es t := by
  induction es generalizing s with
  | nil => cases hr; exact .nil
  | cons e es ih =>
    unfold replay at hr
    split at hr
    · rename_i hm
      obtain ⟨u, hu, ht⟩ := Option.bind_eq_some_iff.mp hr
      exact Run.append (Run.snoc .nil hm hu) (ih ht)
    · cases hr

/-- A replay whose last state passes a test is a run to such a state. -/
theorem replay_reaches {p : σ → Prop} [DecidablePred p]
    (hr : (replay step ok es s).any (fun t => decide (p t)) = true) :
    ∃ t, Run step ok s es t ∧ p t := by
  cases ht : replay step ok es s with
  | none => simp [ht] at hr
  | some t => exact ⟨t, replay_run ht, by simpa [ht] using hr⟩

end Replay

end Xv6Filter.Lib
