import Mathlib.Data.Finset.Max
import Mathlib.Data.Finset.Card

namespace Xv6Filter.Lib

open Function

variable {α : Type} [LinearOrder α]

/-- In the circle of `s`, `b` comes after `a`: it is the next one above, or the least after the
greatest. -/
def After (s : Finset α) (a b : α) : Prop :=
  b ∈ s ∧ (a < b ∧ (∀ x ∈ s, x ≤ a ∨ b ≤ x) ∨ b ≤ a ∧ ∀ x ∈ s, b ≤ x ∧ x ≤ a)

def InGap (a b x : α) : Prop := a < x ∧ x < b ∨ b ≤ a ∧ (a < x ∨ x < b)

instance (a b x : α) : Decidable (InGap a b x) := inferInstanceAs (Decidable (_ ∨ _))

/-- The pointers `next` lead around `s` in increasing order, with one step back from the greatest
to the least. -/
def Circle (s : Finset α) (next : α → α) : Prop := ∀ a ∈ s, After s a (next a)

def arc (s : Finset α) (a t : α) : Finset α :=
  s.filter fun x => if a < t then a < x ∧ x ≤ t else a < x ∨ x ≤ t

variable {s : Finset α} {next : α → α} {a b p q t x : α}

namespace After

theorem insert_gap (h : After s a b) (hx : InGap a b x) :
    After (insert x s) a x ∧ After (insert x s) x b := by
  obtain ⟨hb, h⟩ := h
  simp only [After, Finset.mem_insert, forall_eq_or_imp]
  unfold InGap at hx
  grind

theorem insert_other (h : After s a b) (ha : a ∈ s) (h' : After s p q) (hp : p ∈ s) (hne : a ≠ p)
    (hx : InGap p q x) : After (insert x s) a b := by
  obtain ⟨hb, h⟩ := h
  obtain ⟨hq, h'⟩ := h'
  simp only [After, Finset.mem_insert, forall_eq_or_imp]
  unfold InGap at hx
  grind

theorem erase_next (h : After s a b) (ha : a ∈ s) (h' : After s b t) (hne : a ≠ b) : After (s.erase b) a t := by
  obtain ⟨hb, h⟩ := h
  obtain ⟨ht, h'⟩ := h'
  simp only [After, Finset.mem_erase]
  grind

theorem erase_other (h : After s a b) (ha : a ∈ s) (h' : After s p q) (hp : p ∈ s) (hne : a ≠ p) :
    After (s.erase q) a b := by
  obtain ⟨hb, h⟩ := h
  obtain ⟨hq, h'⟩ := h'
  simp only [After, Finset.mem_erase]
  grind

theorem arc_step (h : After s a b) (ht : t ∈ s) (hne : b ≠ t) : b ∈ arc s a t ∧ arc s b t = (arc s a t).erase b := by
  obtain ⟨hb, h⟩ := h
  constructor
  · simp only [arc, Finset.mem_filter]
    grind
  · ext x
    simp only [arc, Finset.mem_filter, Finset.mem_erase]
    grind

theorem arc_last (h : After s a t) : arc s a t = {t} := by
  obtain ⟨ht, h⟩ := h
  ext x
  simp only [arc, Finset.mem_filter, Finset.mem_singleton]
  grind

theorem arc_card_pos (h : After s a b) (ht : t ∈ s) : 0 < (arc s a t).card := by
  by_cases hlast : b = t
  · subst hlast
    rw [h.arc_last, Finset.card_singleton]
    exact Nat.one_pos
  · exact Finset.card_pos.mpr ⟨b, (h.arc_step ht hlast).1⟩

end After

theorem arc_subset (s : Finset α) (a t : α) : arc s a t ⊆ s := Finset.filter_subset _ _

namespace Circle

theorem link (h : Circle s next) (hp : p ∈ s) (hs : x ∉ s) (hx : InGap p (next p) x) :
    Circle (insert x s) (update (update next x (next p)) p x) := by
  have hgap := (h p hp).insert_gap hx
  have hne : x ≠ p := fun he => hs (he ▸ hp)
  intro a ha
  by_cases hap : a = p
  · subst hap
    rw [update_self]
    exact hgap.1
  · rw [update_of_ne hap]
    by_cases hax : a = x
    · subst hax
      rw [update_self]
      exact hgap.2
    · rw [update_of_ne hax]
      have has : a ∈ s := (Finset.mem_insert.mp ha).resolve_left hax
      exact (h a has).insert_other has (h p hp) hp hap hx

theorem unlink (h : Circle s next) (hp : p ∈ s) (hq : next p = q) (hne : p ≠ q) :
    Circle (s.erase q) (update next p (next q)) := by
  have hpq : After s p q := hq ▸ h p hp
  intro a ha
  have has := Finset.mem_of_mem_erase ha
  by_cases hap : a = p
  · subst hap
    rw [update_self]
    exact hpq.erase_next hp (h q hpq.1) hne
  · rw [update_of_ne hap]
    exact (h a has).erase_other has hpq hp hap

theorem congr (h : Circle s next) (hn : ∀ a ∈ s, next' a = next a) : Circle s next' := by
  intro a ha
  rw [hn a ha]
  exact h a ha

theorem exists_gap (h : Circle s next) (hs : s.Nonempty) (hx : x ∉ s) : ∃ t ∈ s, InGap t (next t) x := by
  by_cases hlow : (s.filter (· < x)).Nonempty
  · obtain ⟨t, ht, hmax⟩ := Finset.exists_max_image _ id hlow
    obtain ⟨hts, htx⟩ := Finset.mem_filter.mp ht
    refine ⟨t, hts, ?_⟩
    obtain ⟨hn, hafter⟩ := h t hts
    have hnx : next t ≠ x := fun he => hx (he ▸ hn)
    have hle : next t < x → next t ≤ t := fun hlt => hmax _ (Finset.mem_filter.mpr ⟨hn, hlt⟩)
    unfold InGap
    grind
  · obtain ⟨t, hts, hmax⟩ := Finset.exists_max_image s id hs
    refine ⟨t, hts, ?_⟩
    obtain ⟨hn, hafter⟩ := h t hts
    have hall : ∀ y ∈ s, x < y := by
      intro y hy
      have hyx : ¬ y < x := fun hlt => hlow ⟨y, Finset.mem_filter.mpr ⟨hy, hlt⟩⟩
      have hne : y ≠ x := fun he => hx (he ▸ hy)
      exact lt_of_le_of_ne (not_lt.mp hyx) hne.symm
    have hnext := hall _ hn
    have htop : next t ≤ t := hmax _ hn
    exact .inr ⟨htop, .inr hnext⟩

end Circle

end Xv6Filter.Lib
