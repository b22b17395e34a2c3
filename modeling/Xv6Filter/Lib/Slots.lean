import Mathlib.Data.List.Induction

namespace Xv6Filter.Lib.Slots

variable {ε κ ν : Type} [DecidableEq κ]

def Apart (key : ε → Option κ) (es : List ε) : Prop :=
  es.Pairwise fun x y => ∀ k, key x = some k → key y ≠ some k

def find (key : ε → Option κ) (es : List ε) (k : κ) : Option ε :=
  es.find? fun e => decide (key e = some k)

inductive Change (κ ν : Type)
  | put (k : κ) (v : ν)
  | drop (k : κ)

def latest : List (Change κ ν) → κ → Option ν
  | [], _ => none
  | .put k v :: past, k' => if k' = k then some v else latest past k'
  | .drop k :: past, k' => if k' = k then none else latest past k'

structure Reflects (key : ε → Option κ) (val : ε → ν) (es : List ε) (past : List (Change κ ν)) : Prop where
  apart : Apart key es
  found : ∀ k, (find key es k).map val = latest past k

section Find

variable {key : ε → Option κ} {es l r : List ε} {x y : ε} {k : κ}

theorem find_append : find key (l ++ r) k = (find key l k).or (find key r k) := List.find?_append

theorem find_cons : find key (x :: r) k = if key x = some k then some x else find key r k := by
  unfold find
  rw [List.find?_cons]
  by_cases hx : key x = some k <;> simp [hx]

theorem find_eq_none : find key es k = none ↔ ∀ e ∈ es, key e ≠ some k := by
  simp [find, List.find?_eq_none]

end Find

namespace Reflects

variable {key : ε → Option κ} {val : ε → ν} {es l m r : List ε} {x y : ε} {k : κ}
  {past : List (Change κ ν)}

theorem nil : Reflects key val [] [] := ⟨List.Pairwise.nil, fun _ => rfl⟩

theorem put (h : Reflects key val (l ++ m ++ r) past) (hm : ∀ e ∈ m, key e = none) (hy : key y = some k)
    (hk : ∀ e ∈ l ++ r, key e ≠ some k) : Reflects key val (l ++ y :: r) (.put k (val y) :: past) := by
  have hunused : ∀ k', find key m k' = none := by
    intro k'
    rw [find_eq_none]
    intro e he
    simp [hm e he]
  constructor
  · have hrest : Apart key (l ++ r) :=
      h.apart.sublist ((List.sublist_append_left l m).append (List.Sublist.refl r))
    obtain ⟨hl, hr, hcross⟩ := List.pairwise_append.mp hrest
    refine List.pairwise_append.mpr ⟨hl, List.pairwise_cons.mpr ⟨?_, hr⟩, ?_⟩
    · intro e he k' hyk
      rw [hy] at hyk
      cases hyk
      exact hk e (List.mem_append_right _ he)
    · intro e he e' he' k' hek
      rcases List.mem_cons.mp he' with rfl | he'
      · rw [hy]
        rintro ⟨⟩
        exact hk e (List.mem_append_left _ he) hek
      · exact hcross e he e' he' k' hek
  · intro k'
    have hold := h.found k'
    rw [find_append, find_append, hunused, Option.or_none] at hold
    rw [find_append, find_cons, hy, latest]
    by_cases hk' : k' = k
    · subst hk'
      have hleft : find key l k' = none :=
        find_eq_none.mpr fun e he => hk e (List.mem_append_left _ he)
      simp [hleft]
    · rw [if_neg fun he => hk' (Option.some.inj he).symm, if_neg hk', hold]

theorem unused (h : Reflects key val es past) (hm : ∀ e ∈ m, key e = none) : Reflects key val (es ++ m) past := by
  constructor
  · refine List.pairwise_append.mpr ⟨h.apart, ?_, ?_⟩
    · refine List.pairwise_of_forall_mem_list fun e he _ _ k hk => ?_
      rw [hm e he] at hk
      cases hk
    · intro e _ e' he' k _
      simp [hm e' he']
  · intro k
    have hnone : find key m k = none := find_eq_none.mpr fun e he => by simp [hm e he]
    rw [find_append, hnone, Option.or_none, h.found]

theorem of_nodup {f : ε → κ} (hf : ∀ e ∈ es, key e = some (f e)) (hn : (es.map f).Nodup) :
    Reflects key val es (es.map fun e => .put (f e) (val e)).reverse := by
  induction es using List.reverseRecOn with
  | nil => exact .nil
  | append_singleton es e ih =>
    rw [List.map_append, List.nodup_append] at hn
    have hold := ih (fun x hx => hf x (by simp [hx])) hn.1
    rw [List.map_append, List.reverse_append]
    refine put (m := []) (by simpa using hold) (by simp) (hf e (by simp)) ?_
    intro x hx
    have hx : x ∈ es := by simpa using hx
    rw [hf x (by simp [hx])]
    intro hsame
    exact hn.2.2 (f x) (List.mem_map_of_mem hx) (f e) (by simp) (Option.some.inj hsame)

theorem drop (h : Reflects key val (l ++ x :: r) past) (hx : key x = some k) (hy : key y = none) :
    Reflects key val (l ++ y :: r) (.drop k :: past) := by
  obtain ⟨hl, hxr, hcross⟩ := List.pairwise_append.mp h.apart
  obtain ⟨hx', hr⟩ := List.pairwise_cons.mp hxr
  constructor
  · refine List.pairwise_append.mpr ⟨hl, List.pairwise_cons.mpr ⟨?_, hr⟩, ?_⟩
    · intro e _ k' hyk
      rw [hy] at hyk
      cases hyk
    · intro e he e' he' k' hek
      rcases List.mem_cons.mp he' with rfl | he'
      · simp [hy]
      · exact hcross e he e' (List.mem_cons_of_mem _ he') k' hek
  · intro k'
    have hold := h.found k'
    rw [find_append, find_cons, hx] at hold
    rw [find_append, find_cons, hy, if_neg (by simp), latest]
    by_cases hk' : k' = k
    · subst hk'
      have hleft : find key l k' = none := find_eq_none.mpr fun e he hek => hcross e he x (by simp) k' hek hx
      have hright : find key r k' = none := find_eq_none.mpr fun e he => hx' e he k' hx
      simp [hleft, hright]
    · rw [if_neg fun he => hk' (Option.some.inj he).symm] at hold
      rw [if_neg hk', hold]

end Reflects

end Xv6Filter.Lib.Slots
