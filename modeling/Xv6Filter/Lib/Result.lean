namespace Xv6Filter.Lib

theorem bind_eq_ok {x : Except ε α} {f : α → Except ε β} {b : β} :
    (x >>= f) = .ok b ↔ ∃ a, x = .ok a ∧ f a = .ok b := by
  cases x with
  | error e => simp [bind, Except.bind]
  | ok a => simp [bind, Except.bind]

theorem ok_bind (a : α) (f : α → Except ε β) : (Except.ok a >>= f) = f a := rfl

theorem toOption_eq_some {x : Except ε α} (h : x.toOption = some a) : x = .ok a := by
  cases x with
  | error e => cases h
  | ok b =>
    cases h
    rfl

def Runs (x : Except ε α) (P : α → Prop) : Prop :=
  match x with
  | .ok a => P a
  | .error _ => False

instance (x : Except ε α) (P : α → Prop) [DecidablePred P] : Decidable (Runs x P) :=
  match x with
  | .ok a => inferInstanceAs (Decidable (P a))
  | .error _ => inferInstanceAs (Decidable False)

theorem Runs.result {x : Except ε α} {P : α → Prop} (h : Runs x P) : ∃ a, x = .ok a ∧ P a := by
  cases x with
  | error e => exact h.elim
  | ok a => exact ⟨a, rfl, h⟩

theorem Runs.bind {x : Except ε α} {f : α → Except ε β} {P : α → Prop} {Q : β → Prop} (h : Runs x P)
    (hf : ∀ a, P a → Runs (f a) Q) : Runs (x >>= f) Q := by
  cases x with
  | error e => exact h.elim
  | ok a => exact hf a h

theorem Runs.imp {x : Except ε α} {P Q : α → Prop} (h : Runs x P) (hi : ∀ a, P a → Q a) : Runs x Q := by
  cases x with
  | error e => exact h.elim
  | ok a => exact hi a h

def Fails (x : Except ε α) (P : ε → Prop) : Prop :=
  match x with
  | .ok _ => False
  | .error e => P e

instance (x : Except ε α) (P : ε → Prop) [DecidablePred P] : Decidable (Fails x P) :=
  match x with
  | .ok _ => inferInstanceAs (Decidable False)
  | .error e => inferInstanceAs (Decidable (P e))

theorem Fails.reason {x : Except ε α} (h : Fails x (· = e)) : x = .error e := by
  cases x with
  | error e' => exact congrArg _ h
  | ok a => exact h.elim

/-- The computation returns only results that satisfy `Q` and fails only for reasons
that satisfy `E`. -/
def Post (x : Except ε α) (E : ε → Prop) (Q : α → Prop) : Prop :=
  match x with
  | .ok a => Q a
  | .error e => E e

theorem Runs.post {x : Except ε α} {E : ε → Prop} {Q : α → Prop} (h : Runs x Q) : Post x E Q := by
  cases x with
  | error e => exact h.elim
  | ok a => exact h

namespace Post

variable {x : Except ε α} {E E' : ε → Prop} {Q Q' : α → Prop}

theorem bind {f : α → Except ε β} {R : β → Prop} (h : Post x E Q) (hf : ∀ a, Q a → Post (f a) E R) :
    Post (x >>= f) E R := by
  cases x with
  | error e => exact h
  | ok a => exact hf a h

theorem imp (h : Post x E Q) (he : ∀ e, E e → E' e) (hq : ∀ a, Q a → Q' a) : Post x E' Q' := by
  cases x with
  | error e => exact he e h
  | ok a => exact hq a h

theorem mono (h : Post x E Q) (he : ∀ e, E e → E' e) : Post x E' Q := h.imp he fun _ hq => hq

theorem and (h : Post x E Q) (h' : Post x E' Q') : Post x (fun e => E e ∧ E' e) fun a => Q a ∧ Q' a := by
  cases x with
  | error e => exact ⟨h, h'⟩
  | ok a => exact ⟨h, h'⟩

theorem of_ok (h : Post x E Q) (hx : x = .ok a) : Q a := by
  rw [hx] at h
  exact h

theorem of_error (h : Post x E Q) (hx : x = .error e) : E e := by
  rw [hx] at h
  exact h

theorem map {f : α → β} {Q : β → Prop} (h : Post x E fun a => Q (f a)) : Post (x.map f) E Q := by
  cases x <;> exact h

theorem map_ok {f : α → β} (h : Post x E Q) (hx : x.map f = .ok b) : ∃ a, Q a ∧ f a = b := by
  cases x with
  | error e => cases hx
  | ok a =>
    cases hx
    exact ⟨a, h, rfl⟩

end Post

end Xv6Filter.Lib
