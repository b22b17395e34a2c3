import Mathlib.Data.List.Induction

namespace Xv6Filter.Lib.Radix

variable {α ι : Type*}

/-- The cell at the end of a path from `root`: `child a i` is the cell that entry `i` of cell `a`
points to. -/
def node (child : α → ι → Option α) (root : α) : List ι → Option α
  | [] => some root
  | i :: q => (child root i).bind fun a => node child a q

variable {child child' : α → ι → Option α} {root : α}

theorem node_append (q q' : List ι) : node child root (q ++ q') = (node child root q).bind fun a => node child a q' := by
  induction q generalizing root with
  | nil => rfl
  | cons i q ih =>
    simp only [List.cons_append, node]
    cases child root i with
    | none => rfl
    | some a => exact ih

theorem node_snoc (q : List ι) (i : ι) : node child root (q ++ [i]) = (node child root q).bind fun a => child a i := by
  rw [node_append]
  congr 1
  funext a
  simp [node]

def Distinct (child : α → ι → Option α) (root : α) (depth : Nat) : Prop :=
  ∀ q q', q.length ≤ depth → q'.length ≤ depth → ∀ a, node child root q = some a → node child root q' = some a → q = q'

theorem node_congr (h : ∀ q a, q.length < depth → node child root q = some a → ∀ i, child' a i = child a i)
    (q : List ι) (hq : q.length ≤ depth) : node child' root q = node child root q := by
  induction q using List.reverseRecOn with
  | nil => rfl
  | append_singleton q i ih =>
    rw [List.length_append, List.length_singleton] at hq
    rw [node_snoc, node_snoc, ih (by omega)]
    cases hn : node child root q with
    | none => rfl
    | some a => exact h q a hq hn i

/-- A new cell without entries, put at the free entry `i` of the cell at the end of `p`. -/
structure Link (child child' : α → ι → Option α) (root : α) (depth : Nat) (p : List ι) (i : ι) (new : α) : Prop where
  free : node child root (p ++ [i]) = none
  fresh : ∀ q, q.length ≤ depth → node child root q ≠ some new
  parent : ∃ a, node child root p = some a ∧ child' a i = some new
  others : ∀ q a j, q.length < depth → node child root q = some a → q ++ [j] ≠ p ++ [i] → child' a j = child a j
  empty : ∀ j, child' new j = none

theorem node_link [DecidableEq ι] (h : Link child child' root depth p i new) (q : List ι)
    (hq : q.length ≤ depth) : node child' root q = if q = p ++ [i] then some new else node child root q := by
  induction q using List.reverseRecOn with
  | nil => simp [node]
  | append_singleton q j ih =>
    rw [List.length_append, List.length_singleton] at hq
    rw [node_snoc, ih (by omega)]
    by_cases hlow : q = p ++ [i]
    · have hne : q ++ [j] ≠ p ++ [i] := by
        rw [← hlow]
        simp
      rw [if_pos hlow, if_neg hne, node_snoc, hlow, h.free]
      exact h.empty j
    · rw [if_neg hlow]
      by_cases hnew : q ++ [j] = p ++ [i]
      · obtain ⟨rfl, hj⟩ := List.append_inj' hnew rfl
        obtain ⟨a, ha, hnew'⟩ := h.parent
        rw [if_pos hnew, ha, ← hnew']
        simp only [List.cons.injEq, and_true] at hj
        rw [hj]
        rfl
      · rw [if_neg hnew, node_snoc]
        cases hn : node child root q with
        | none => rfl
        | some a => exact h.others q a j hq hn hnew

theorem Distinct.link (hd : Distinct child root depth) [DecidableEq ι] (h : Link child child' root depth p i new) :
    Distinct child' root depth := by
  intro q q' hq hq' a ha ha'
  rw [node_link h q hq] at ha
  rw [node_link h q' hq'] at ha'
  by_cases hnew : q = p ++ [i]
  · rw [if_pos hnew] at ha
    cases ha
    by_cases hnew' : q' = p ++ [i]
    · rw [hnew, hnew']
    · rw [if_neg hnew'] at ha'
      exact absurd ha' (h.fresh q' hq')
  · rw [if_neg hnew] at ha
    by_cases hnew' : q' = p ++ [i]
    · rw [if_pos hnew'] at ha'
      cases ha'
      exact absurd ha (h.fresh q hq)
    · rw [if_neg hnew'] at ha'
      exact hd q q' hq hq' a ha ha'

theorem Distinct.congr (hd : Distinct child root depth)
    (h : ∀ q, q.length ≤ depth → node child' root q = node child root q) : Distinct child' root depth := by
  intro q q' hq hq' a ha ha'
  rw [h q hq] at ha
  rw [h q' hq'] at ha'
  exact hd q q' hq hq' a ha ha'

end Xv6Filter.Lib.Radix
