import Mathlib.Data.List.Count
import Xv6Filter.Lib.Count
import Xv6Filter.Log.Bcache

namespace Xv6Filter.Proofs
open Lib

def Caches (c : Bcache) (i : Bp) (b : Nat) : Prop :=
  (c.buf i).dev = rootdev ∧ (c.buf i).blockno = b

def pinCount (c : Bcache) (pins : Nat → Bool) (i : Bp) : Nat :=
  if (c.buf i).dev = rootdev ∧ pins (c.buf i).blockno = true then 1 else 0

/-- Every buffer is on the list, no block is cached twice, each reference count is
that of the references given out and the pin, and pinned blocks are cached. -/
structure Counted {P : Type} (c : Bcache) (holds : List (P × Bp)) (pins : Nat → Bool) : Prop where
  listed : ∀ i, i ∈ c.order
  once : ∀ i j b, Caches c i b → Caches c j b → i = j
  count : ∀ i, (c.buf i).refcnt = holds.countP (fun x => x.2 = i) + pinCount c pins i
  root : ∀ x ∈ holds, (c.buf x.2).dev = rootdev
  present : ∀ b, pins b = true → ∃ i, Caches c i b

theorem Caches.pinCount (hc : Caches c i b) : pinCount c pins i = if pins b then 1 else 0 := by
  unfold Proofs.pinCount
  rw [hc.1, hc.2]
  simp

theorem pinCount_congr (hd : (c'.buf i).dev = (c.buf i).dev)
    (hb : (c'.buf i).blockno = (c.buf i).blockno) : pinCount c' pins i = pinCount c pins i := by
  unfold pinCount
  rw [hd, hb]

/-- `bget` returns a buffer of the block with one reference more. On a hit the
buffer had the block before; on a miss nobody had a reference to it. -/
structure Got (c : Bcache) (b : Nat) (i : Bp) (c' : Bcache) : Prop where
  order : c'.order = c.order
  caches : Caches c' i b
  refcnt : (c'.buf i).refcnt = (c.buf i).refcnt + 1
  other : ∀ j, j ≠ i → c'.buf j = c.buf j
  before : Caches c i b ∨ (c.buf i).refcnt = 0 ∧ ∀ j ∈ c.order, ¬ Caches c j b

/-- `bget` gives a buffer for the block, with one more reference. -/
theorem bget_got (hg : c.bget rootdev b = some (i, c')) : Got c b i c' := by
  unfold Bcache.bget at hg
  split at hg
  · rename_i j hj
    have hc := of_decide_eq_true (List.find?_some (p := fun i => decide (_ ∧ _)) hj)
    cases hg
    refine ⟨rfl, by simpa [Caches] using hc, by simp, ?_, .inl hc⟩
    intro k hk
    simp [hk]
  · rename_i hn
    obtain ⟨j, hj, he⟩ := Option.map_eq_some_iff.mp hg
    have hz : (c.buf j).refcnt = 0 := by simpa using List.find?_some hj
    have hmiss : ∀ k ∈ c.order, ¬ Caches c k b := by
      intro k hk hc
      exact List.find?_eq_none.mp hn k hk (decide_eq_true hc)
    cases he
    refine ⟨rfl, by simp [Caches], by simp [hz], ?_, .inr ⟨hz, hmiss⟩⟩
    intro k hk
    simp [hk]

namespace Counted

variable {P : Type} {c : Bcache} {holds : List (P × Bp)} {pins : Nat → Bool}

theorem init : Counted (P := P) Bcache.init [] fun _ => false where
  listed i := by simp [Bcache.init]
  once i _ _ hi _ := by simp [Caches, Bcache.init, rootdev] at hi
  count i := by simp [Bcache.init, pinCount]
  root := by simp
  present := by simp

theorem refcnt_pos_of_held (hc : Counted c holds pins) (hh : (p, i) ∈ holds) :
    0 < (c.buf i).refcnt := by
  have h := hc.count i
  have : 0 < holds.countP (fun x => decide (x.2 = i)) :=
    List.countP_pos_iff.mpr ⟨_, hh, by simp⟩
  omega

theorem refcnt_pos_of_pin (hc : Counted c holds pins) (hi : Caches c i b) (hp : pins b = true) :
    0 < (c.buf i).refcnt := by
  have h := hc.count i
  rw [hi.pinCount, if_pos hp] at h
  omega

theorem got_keeps (hg : Got c b i c') (hi : Caches c j b') (hr : 0 < (c.buf j).refcnt) :
    Caches c' j b' := by
  by_cases hj : j = i
  · subst hj
    rcases hg.before with h | h
    · rw [← hi.2, h.2]
      exact hg.caches
    · omega
  · unfold Caches
    rw [hg.other j hj]
    exact hi

/-- Who has which block after `bget`: the buffer returned, and the others as before. -/
theorem got_caches (hg : Got c b i c') (hj : Caches c' j b') : j = i ∧ b' = b ∨ j ≠ i ∧ Caches c j b' := by
  by_cases h : j = i
  · subst h
    exact .inl ⟨rfl, hj.2.symm.trans hg.caches.2⟩
  · unfold Caches at hj
    rw [hg.other j h] at hj
    exact .inr ⟨h, hj⟩

/-- A block already cached elsewhere is not the one `bget` brought in. -/
theorem got_once (hg : Got c b i c') (hl : ∀ i, i ∈ c.order)
    (ho : ∀ i j b, Caches c i b → Caches c j b → i = j) (hj : Caches c' j b') (hk : Caches c' k b') :
    j = k := by
  have hsole : ∀ j, j ≠ i → ¬ Caches c j b := by
    intro j hj hjb
    rcases hg.before with h | ⟨_, hm⟩
    · exact hj (ho j i b hjb h)
    · exact hm j (hl j) hjb
  rcases got_caches hg hj with ⟨rfl, rfl⟩ | ⟨hj', hj⟩ <;>
    rcases got_caches hg hk with ⟨rfl, hb⟩ | ⟨hk', hk⟩
  · rfl
  · exact absurd hk (hsole k hk')
  · subst hb
    exact absurd hj (hsole j hj')
  · exact ho j k b' hj hk

theorem get (hc : Counted c holds pins) (hg : Got c b i c') : Counted c' ((p, i) :: holds) pins := by
  have hfree : (c.buf i).refcnt = 0 → (∀ j ∈ c.order, ¬ Caches c j b) → pins b = false := by
    intro _ hm
    by_contra hp
    obtain ⟨j, hj⟩ := hc.present b (by simpa using hp)
    exact hm j (hc.listed j) hj
  refine ⟨?_, ?_, ?_, ?_, ?_⟩
  · rw [hg.order]
    exact hc.listed
  · exact fun j k b' hj hk => got_once hg hc.listed hc.once hj hk
  · intro j
    rw [List.countP_cons]
    by_cases hj : j = i
    · subst hj
      have h := hc.count j
      rw [hg.refcnt, hg.caches.pinCount, h]
      rcases hg.before with hb | ⟨hz, hm⟩
      · rw [hb.pinCount]
        simp
        omega
      · rw [hfree hz hm]
        simp
        omega
    · have hpc : pinCount c' pins j = pinCount c pins j := by
        apply pinCount_congr <;> rw [hg.other j hj]
      rw [hg.other j hj, hc.count j, hpc]
      simp [Ne.symm hj]
  · intro x hx
    rcases List.mem_cons.mp hx with rfl | hx
    · exact hg.caches.1
    · exact (got_keeps hg ⟨hc.root x hx, rfl⟩ (hc.refcnt_pos_of_held hx)).1
  · intro b' hp
    obtain ⟨j, hj⟩ := hc.present b' hp
    exact ⟨j, got_keeps hg hj (hc.refcnt_pos_of_pin hj hp)⟩

structure Recounted (c : Bcache) (i : Bp) (n : Nat) (c' : Bcache) : Prop where
  listed : ∀ j, j ∈ c.order → j ∈ c'.order
  tags : ∀ j b, Caches c' j b ↔ Caches c j b
  dev : ∀ j, (c'.buf j).dev = (c.buf j).dev
  blockno : ∀ j, (c'.buf j).blockno = (c.buf j).blockno
  refcnt : ∀ j, (c'.buf j).refcnt = if j = i then n else (c.buf j).refcnt

theorem recounted_set (c : Bcache) (i : Bp) (n : Nat) :
    Recounted c i n (c.set i { c.buf i with refcnt := n }) := by
  have hb : ∀ j, (c.set i { c.buf i with refcnt := n }).buf j =
      if j = i then { c.buf i with refcnt := n } else c.buf j := by
    intro j
    simp [Function.update_apply]
  refine ⟨fun _ h => h, ?_, ?_, ?_, ?_⟩ <;> intro j <;> by_cases hj : j = i <;>
    simp [Caches, hj]

theorem recounted_brelse (c : Bcache) (i : Bp) :
    Recounted c i ((c.buf i).refcnt - 1) (c.brelse i) := by
  have h := recounted_set c i ((c.buf i).refcnt - 1)
  unfold Bcache.brelse
  dsimp only
  split
  · refine ⟨?_, h.tags, h.dev, h.blockno, h.refcnt⟩
    intro j hj
    by_cases hji : j = i
    · simp [hji]
    · exact List.mem_cons_of_mem _ ((List.mem_erase_of_ne hji).mpr hj)
  · exact h

theorem Recounted.pinCount (hr : Recounted c i n c') (pins : Nat → Bool) (j : Bp) :
    Proofs.pinCount c' pins j = Proofs.pinCount c pins j :=
  pinCount_congr (hr.dev j) (hr.blockno j)

/-- A new count on one buffer is right once it is the sum for that buffer and the
other sums stay. -/
theorem recount (hc : Counted c holds pins) (hr : Recounted c i n c')
    (hn : n = holds'.countP (fun x => x.2 = i) + Proofs.pinCount c pins' i)
    (ho : ∀ j, j ≠ i → holds'.countP (fun x => x.2 = j) = holds.countP (fun x => x.2 = j) ∧
      Proofs.pinCount c pins' j = Proofs.pinCount c pins j)
    (hroot : ∀ x ∈ holds', (c.buf x.2).dev = rootdev)
    (hp : ∀ b, pins' b = true → ∃ j, Caches c j b) : Counted (P := P) c' holds' pins' := by
  refine ⟨fun j => hr.listed j (hc.listed j), ?_, ?_, ?_, ?_⟩
  · intro j k b hj hk
    exact hc.once j k b ((hr.tags j b).mp hj) ((hr.tags k b).mp hk)
  · intro j
    rw [hr.refcnt, hr.pinCount]
    by_cases hj : j = i
    · rw [if_pos hj, hj]
      exact hn
    · rw [if_neg hj, hc.count j, (ho j hj).1, (ho j hj).2]
  · intro x hx
    rw [hr.dev]
    exact hroot x hx
  · intro b hb
    obtain ⟨j, hj⟩ := hp b hb
    exact ⟨j, (hr.tags j b).mpr hj⟩

theorem put [DecidableEq P] (hc : Counted c holds pins) (hh : (p, i) ∈ holds) :
    Counted (c.brelse i) (holds.erase (p, i)) pins := by
  have hone := countP_erase_pos (p := fun x => decide (x.2 = i)) hh (by simp)
  apply hc.recount (recounted_brelse c i)
  · have h := hc.count i
    omega
  · exact fun j hj => ⟨countP_erase_neg (by simp [Ne.symm hj]), rfl⟩
  · exact fun x hx => hc.root x (List.mem_of_mem_erase hx)
  · exact hc.present

/-- A change to the pin of one block is a change at its buffer only. -/
theorem pinCount_other (hc : Counted c holds pins) (hi : Caches c i b)
    (hp : ∀ k, k ≠ b → pins' k = pins k) (hj : j ≠ i) :
    Proofs.pinCount c pins' j = Proofs.pinCount c pins j := by
  unfold Proofs.pinCount
  by_cases hd : (c.buf j).dev = rootdev
  · have hne : (c.buf j).blockno ≠ b := fun hb => hj (hc.once j i b ⟨hd, hb⟩ hi)
    rw [hp _ hne]
  · simp [hd]

theorem pin (hc : Counted c holds pins) (hi : Caches c i b) (hn : pins b = false)
    (hb : pins' b = true) (hp : ∀ k, k ≠ b → pins' k = pins k) :
    Counted (c.bpin i) holds pins' := by
  apply hc.recount (recounted_set c i ((c.buf i).refcnt + 1))
  · rw [hc.count i, hi.pinCount, hi.pinCount, hn, hb]
    simp
  · exact fun j hj => ⟨rfl, hc.pinCount_other hi hp hj⟩
  · exact hc.root
  · intro k hk
    by_cases hkb : k = b
    · exact ⟨i, hkb ▸ hi⟩
    · exact hc.present k (hp k hkb ▸ hk)

theorem unpin (hc : Counted c holds pins) (hi : Caches c i b) (hn : pins b = true)
    (hb : pins' b = false) (hp : ∀ k, k ≠ b → pins' k = pins k) :
    Counted (c.bunpin i) holds pins' := by
  apply hc.recount (recounted_set c i ((c.buf i).refcnt - 1))
  · rw [hc.count i, hi.pinCount, hi.pinCount, hn, hb]
    simp
  · exact fun j hj => ⟨rfl, hc.pinCount_other hi hp hj⟩
  · exact hc.root
  · intro k hk
    have hkb : k ≠ b := fun h => by simp [h, hb] at hk
    exact hc.present k (hp k hkb ▸ hk)

end Counted

end Xv6Filter.Proofs
