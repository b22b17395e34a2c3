import Xv6Filter.Log.Redo
import Xv6Filter.Lib.Writes

namespace Xv6Filter.Proofs
open Lib Dev Function

def view (d : Dev) (b : Nat) : Block := (d.cache b).getD (d.disk b)

structure Sound (d : Dev) : Prop where
  held : ∀ b, d.cache b = none → d.refcnt b = 0
  clean : ∀ b, d.refcnt b = 0 → view d b = d.disk b

structure Reads (d : Dev) (b : Nat) (d' : Dev) : Prop where
  sound : Sound d'
  view : view d' = view d
  disk : d'.disk = d.disk
  issued : d'.issued = d.issued
  refcnt : d'.refcnt = update d.refcnt b (d.refcnt b + 1)

section Recycle

variable (d : Dev) (v : Nat)

theorem recycle_disk : (d.recycle v).disk = d.disk := by
  unfold Dev.recycle
  split <;> rfl

theorem recycle_issued : (d.recycle v).issued = d.issued := by
  unfold Dev.recycle
  split <;> rfl

theorem recycle_refcnt : (d.recycle v).refcnt = d.refcnt := by
  unfold Dev.recycle
  split <;> rfl

variable {d}

/-- A buffer without references has the contents of the disk, so losing it loses nothing. -/
theorem recycle_view (h : Sound d) : view (d.recycle v) = view d := by
  unfold Dev.recycle
  split
  · rename_i hr
    funext b
    by_cases hb : b = v
    · subst hb
      rw [h.clean b hr]
      simp [view]
    · simp [view, hb]
  · rfl

theorem Sound.recycle (h : Sound d) : Sound (d.recycle v) := by
  constructor
  · intro b hb
    rw [recycle_refcnt]
    unfold Dev.recycle at hb
    split at hb
    · rename_i hr
      by_cases hbv : b = v
      · rw [hbv, hr]
      · exact h.held b (by simpa [hbv] using hb)
    · exact h.held b hb
  · intro b hb
    rw [recycle_refcnt] at hb
    rw [recycle_view v h, recycle_disk]
    exact h.clean b hb

end Recycle

/-- Taking a reference to `b` whose buffer now has what `bread` returns for it. -/
theorem Sound.reads {d : Dev} (h : Sound d) (b : Nat) :
    Reads d b { d with
      cache := update d.cache b (some (view d b))
      refcnt := update d.refcnt b (d.refcnt b + 1) } := by
  have hview : ∀ a, ((update d.cache b (some (view d b))) a).getD (d.disk a) = view d a := by
    intro a
    by_cases hab : a = b
    · subst hab
      simp
    · simp [hab, view]
  refine ⟨⟨?_, ?_⟩, funext hview, rfl, rfl, rfl⟩
  · intro a ha
    by_cases hab : a = b
    · subst hab
      simp at ha
    · have hc : d.cache a = none := by simpa [hab] using ha
      simpa [hab] using h.held a hc
  · intro a ha
    by_cases hab : a = b
    · subst hab
      simp at ha
    · exact (hview a).trans (h.clean a (by simpa [hab] using ha))

/-- `bread` gives the block as its last writer left it. -/
theorem bread_spec (lru : Lru) {d : Dev} (h : Sound d) (b : Nat) :
    (d.bread lru b).1 = view d b ∧ Reads d b (d.bread lru b).2 := by
  unfold Dev.bread
  cases hc : d.cache b with
  | some blk =>
    have hv : view d b = blk := by simp [view, hc]
    have hr := h.reads b
    rw [hv, ← hc, update_eq_self] at hr
    exact ⟨hv.symm, hr⟩
  | none =>
    have hr := (h.recycle (lru d b)).reads b
    have hv : view d b = d.disk b := by simp [view, hc]
    rw [recycle_view _ h, hv, recycle_refcnt, recycle_disk, h.held b hc] at hr
    simp only [recycle_disk, recycle_refcnt]
    refine ⟨hv.symm, hr.sound, hr.view.trans (recycle_view _ h), rfl, ?_, ?_⟩
    · exact recycle_issued d _
    · simp [h.held b hc]

theorem write_through {d : Dev} (h : Sound d) {b : Nat} (hb : 1 ≤ d.refcnt b) (blk : Block) :
    let d' := (d.fill b blk).bwrite b
    Sound d' ∧ view d' = update (view d) b blk ∧
      d'.disk = update d.disk b blk ∧ d'.issued = d.issued ++ [(b, blk)] ∧
      d'.refcnt = d.refcnt := by
  have hview : ∀ a, ((update d.cache b (some blk)) a).getD
      (update d.disk b blk a) = update (view d) b blk a := by
    intro a
    by_cases hab : a = b
    · subst hab
      simp
    · simp [hab, view]
  have hw : (d.fill b blk).bwrite b =
      ⟨update d.disk b blk, update d.cache b (some blk), d.refcnt,
        d.issued ++ [(b, blk)]⟩ := by
    simp [Dev.bwrite, Dev.fill]
  rw [hw]
  refine ⟨⟨?_, ?_⟩, funext hview, rfl, rfl, rfl⟩
  · intro a ha
    by_cases hab : a = b
    · subst hab
      simp at ha
    · exact h.held a (by simpa [hab] using ha)
  · intro a ha
    have hab : a ≠ b := by
      rintro rfl
      simp only at ha
      omega
    refine (hview a).trans ?_
    simpa [hab] using h.clean a ha

/-- Giving a reference back is safe if it is not the last one to a changed buffer. -/
theorem Sound.unref {d : Dev} (h : Sound d) {b : Nat}
    (hb : 2 ≤ d.refcnt b ∨ view d b = d.disk b) : Sound (d.unref b) := by
  constructor
  · intro a ha
    have hz := h.held a ha
    by_cases hab : a = b
    · subst hab
      simp [Dev.unref, hz]
    · simpa [Dev.unref, hab] using hz
  · intro a ha
    by_cases hab : a = b
    · subst hab
      rcases hb with hb | hb
      · simp only [Dev.unref, update_self] at ha
        omega
      · exact hb
    · exact h.clean a (by simpa [Dev.unref, hab] using ha)

end Xv6Filter.Proofs
