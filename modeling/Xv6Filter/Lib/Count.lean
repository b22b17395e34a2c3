import Mathlib.Algebra.Order.BigOperators.Group.Finset
import Mathlib.Data.Fintype.BigOperators

namespace Xv6Filter.Lib

open Function

theorem countP_range_drop {p q : Nat → Bool} (hs : s < n) (hp : p s = true) (hq : q s = false)
    (ho : ∀ i, i < n → i ≠ s → q i = p i) :
    (List.range n).countP q + 1 = (List.range n).countP p := by
  induction n with
  | zero => omega
  | succ n ih =>
    rw [List.range_succ, List.countP_append, List.countP_append]
    by_cases hn : s = n
    · subst hn
      have hcongr : (List.range s).countP q = (List.range s).countP p := by
        apply List.countP_congr
        intro i hi
        have hi := List.mem_range.mp hi
        rw [ho i (by omega) (by omega)]
      simp [hcongr, hp, hq]
    · have := ih (by omega) fun i hi => ho i (by omega)
      have hlast : [n].countP q = [n].countP p := by simp [ho n (by omega) (Ne.symm hn)]
      omega

theorem exists_of_countP_range {p : Nat → Bool} (h : 0 < (List.range n).countP p) :
    ∃ i, i < n ∧ p i = true := by
  obtain ⟨i, hi, hp⟩ := List.countP_pos_iff.mp h
  exact ⟨i, List.mem_range.mp hi, hp⟩

/-- Erasing an element takes one off the counts of its properties, and only those. -/
theorem countP_erase_pos [BEq α] [LawfulBEq α] {l : List α} {p : α → Bool} (h : a ∈ l)
    (hp : p a = true) : (l.erase a).countP p + 1 = l.countP p := by
  have hpos : 0 < l.countP p := List.countP_pos_iff.mpr ⟨a, h, hp⟩
  rw [List.countP_erase, if_pos ⟨h, hp⟩]
  omega

theorem countP_erase_neg [BEq α] [LawfulBEq α] {l : List α} {p : α → Bool} (hp : ¬ p a = true) :
    (l.erase a).countP p = l.countP p := by
  rw [List.countP_erase, if_neg fun h => hp h.2]
  rfl

theorem countP_le_add {l : List α} {p q r : α → Bool} (h : ∀ a ∈ l, p a = true → q a = true ∨ r a = true) :
    l.countP p ≤ l.countP q + l.countP r := by
  induction l with
  | nil => exact Nat.le_refl 0
  | cons a l ih =>
    have hrest := ih fun b hb => h b (List.mem_cons_of_mem a hb)
    have hfirst := h a List.mem_cons_self
    simp only [List.countP_cons]
    cases hp : p a with
    | false => grind
    | true =>
      rcases hfirst hp with hq | hr
      · grind
      · grind

/-- The groups of a set that have a member with `p`: adding `a` adds its group, when the group of
`a` is left out of the rest. -/
theorem card_groups_insert [DecidableEq α] [DecidableEq β] {s : Finset α} {g : α → β} {p q : α → Prop}
    [DecidablePred p] [DecidablePred q] (hp : ∀ b ∈ s, g b = g a → (p b ↔ p a))
    (hq : ∀ b ∈ s, q b ↔ p b ∧ g b ≠ g a) :
    (((insert a s).filter p).image g).card = (if p a then 1 else 0) + ((s.filter q).image g).card := by
  by_cases ha : p a
  · have hinsert : ((insert a s).filter p).image g = insert (g a) ((s.filter q).image g) := by
      ext x
      simp only [Finset.mem_image, Finset.mem_filter, Finset.mem_insert]
      grind
    have hout : g a ∉ (s.filter q).image g := by
      simp only [Finset.mem_image, Finset.mem_filter]
      grind
    rw [hinsert, Finset.card_insert_of_notMem hout, if_pos ha]
    omega
  · have hsame : (insert a s).filter p = s.filter q := by
      ext x
      simp only [Finset.mem_filter, Finset.mem_insert]
      grind
    rw [hsame, if_neg ha, Nat.zero_add]

theorem countP_mem_le [DecidableEq α] {l m : List α} (h : l.Nodup) :
    l.countP (fun a => decide (a ∈ m)) ≤ m.length := by
  rw [List.countP_eq_length_filter]
  refine (List.subperm_of_subset (h.filter _) ?_).length_le
  intro a ha
  simpa using (List.mem_filter.mp ha).2

theorem exists_not_mem {m : List (Fin n)} (h : m.length < n) : ∃ i, i ∉ m := by
  by_contra hall
  push Not at hall
  have hle := (List.subperm_of_subset (List.nodup_finRange n) fun i _ => hall i).length_le
  rw [List.length_finRange] at hle
  omega

theorem sum_update_mem [DecidableEq ι] (s : Finset ι) (f : ι → α → Nat) (g : ι → α) (hi : i ∈ s) (a : α) :
    (∑ j ∈ s, f j (update g i a j)) + f i (g i) = (∑ j ∈ s, f j (g j)) + f i a := by
  rw [← Finset.add_sum_erase s (fun j => f j (update g i a j)) hi,
    ← Finset.add_sum_erase s (fun j => f j (g j)) hi, update_self]
  have hrest : ∑ j ∈ s.erase i, f j (update g i a j) = ∑ j ∈ s.erase i, f j (g j) := by
    apply Finset.sum_congr rfl
    intro j hj
    rw [update_of_ne (Finset.ne_of_mem_erase hj)]
  omega

theorem sum_update [Fintype ι] [DecidableEq ι] (f : ι → α → Nat) (g : ι → α) (i : ι) (a : α) :
    (∑ j, f j (update g i a j)) + f i (g i) = (∑ j, f j (g j)) + f i a :=
  sum_update_mem Finset.univ f g (Finset.mem_univ i) a

end Xv6Filter.Lib
