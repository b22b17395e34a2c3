import Xv6Filter.Proofs.Naming

namespace Xv6Filter.Proofs
open Lib Function

namespace Tree

def alloc (t : Tree) (n : Nat) (ty : Short) : Tree where
  kind := update t.kind n ty
  nlink := update t.nlink n 1
  ents := update t.ents n []

def free (t : Tree) (n : Nat) : Tree where
  kind := update t.kind n tFree
  nlink := update t.nlink n 0
  ents := update t.ents n []

def setNlink (t : Tree) (n : Nat) (x : Short) : Tree := { t with nlink := update t.nlink n x }

def addEntry (t : Tree) (d : Nat) (de : Fs.Dirent) : Tree :=
  t.setEnts d (putAt (t.ents d) (firstFree (t.ents d)) de)

end Tree

inductive Reaped : Tree → Tree → Prop
  | refl (t : Tree) : Reaped t t
  | free {n : Nat} : Reaped t t' → t'.kind n ≠ tFree → t'.nlink n = 0 → Reaped t (t'.free n)

theorem tree_nlink {fs : Fs} (h : (fs.dinode n).type ≠ tFree) : (tree fs).nlink n = (fs.dinode n).nlink :=
  if_neg h

/-- Whether the inodes without links are those that others have, seen from the tree. -/
theorem firm_iff_tree {fs0 fs : Fs} : Firm fs0 fs ↔
    ∀ n, (tree fs).kind n ≠ tFree → (tree fs).nlink n = 0 →
      ∃ e, 0 < (fs0.inode e).ref ∧ (fs0.inode e).inum = n := by
  constructor
  · intro h n ht hz
    exact h n ht (by rwa [tree_nlink ht] at hz)
  · intro h n ht hz
    exact h n ht (by rwa [tree_nlink ht])

theorem Firm.of_tree {fs0 fs fs' : Fs} (h : Firm fs0 fs) (ht : tree fs' = tree fs) : Firm fs0 fs' := by
  rw [firm_iff_tree, ht]
  exact firm_iff_tree.mp h

theorem Renewed.tree_setNlink {fs fs' : Fs} {d : Dinode} (h : Renewed n d fs fs')
    (ht : d.type = (fs.dinode n).type) (hs : d.size = (fs.dinode n).size)
    (ha : d.addrs = (fs.dinode n).addrs) (hty : (fs.dinode n).type ≠ tFree) :
    tree fs' = (tree fs).setNlink n d.nlink := by
  unfold tree Tree.setNlink
  rw [h.dinode, h.data]
  congr 1
  · funext m
    by_cases hm : m = n
    · subst hm
      rw [update_self, ht]
    · rw [update_of_ne hm]
  · funext m
    by_cases hm : m = n
    · subst hm
      rw [update_self, update_self, ht, if_neg hty]
    · rw [update_of_ne hm, update_of_ne hm]
  · funext m
    by_cases hm : m = n
    · subst hm
      rw [update_self, ht]
      dsimp only
      split
      · apply entries_congr hs
        intro i _
        unfold byteAt slotAddr
        rw [ha]
      · rfl
    · rw [update_of_ne hm]

theorem Renewed.tree_alloc {fs fs' : Fs} (h : Renewed n ⟨ty, major, minor, 1, 0, fun _ => 0⟩ fs fs')
    (hty : ty ≠ tFree) : tree fs' = (tree fs).alloc n ty := by
  unfold tree Tree.alloc
  rw [h.dinode, h.data]
  congr 1 <;> funext m <;> by_cases hm : m = n
  · subst hm
    simp
  · simp [hm]
  · subst hm
    simpa using hty
  · simp [hm]
  · subst hm
    simp [entries]
  · simp [hm]

theorem Freed.tree_free {fs fs' : Fs} (h : Freed n fs fs') : tree fs' = (tree fs).free n := by
  unfold tree Tree.free
  rw [h.data]
  congr 1 <;> funext m <;> by_cases hm : m = n
  · subst hm
    simpa using h.free
  · simp [hm, h.other]
  · subst hm
    simp [h.free]
  · simp [hm, h.other]
  · subst hm
    simp [h.free]
  · simp [hm, h.other]

theorem Reaped.kind {t t' : Tree} (h : Reaped t t') (n : Nat) :
    t'.kind n = t.kind n ∨ t'.kind n = tFree := by
  induction h with
  | refl => exact .inl rfl
  | @free t' m _ _ _ ih =>
    by_cases hm : n = m
    · right
      simp [Tree.free, hm]
    · simpa [Tree.free, hm] using ih

theorem Reaped.nlink {t t' : Tree} (h : Reaped t t') (hn : t'.kind n ≠ tFree) : t'.nlink n = t.nlink n := by
  induction h with
  | refl => rfl
  | @free t' m _ _ _ ih =>
    have hm : n ≠ m := by
      rintro rfl
      exact hn (by simp [Tree.free])
    simp only [Tree.free, update_of_ne hm] at hn ⊢
    exact ih hn

theorem Reaped.ents {t t' : Tree} (h : Reaped t t') (hn : t'.kind n ≠ tFree) : t'.ents n = t.ents n := by
  induction h with
  | refl => rfl
  | @free t' m _ _ _ ih =>
    have hm : n ≠ m := by
      rintro rfl
      exact hn (by simp [Tree.free])
    simp only [Tree.free, update_of_ne hm] at hn ⊢
    exact ih hn

theorem Reaped.trans {t t1 t' : Tree} (h : Reaped t t1) (h' : Reaped t1 t') : Reaped t t' := by
  induction h' with
  | refl => exact h
  | free _ ht hz ih => exact ih.free ht hz

/-- Giving back a reference frees at most one inode, and that had no name. -/
theorem Reaped.drop {fs fs' : Fs} (h : Reaped t (tree fs))
    (hd : SameDisk fs fs' ∨ ∃ fs1, SameDisk fs fs1 ∧ Freed n fs1 fs' ∧ P) : Reaped t (tree fs') := by
  rcases hd with hd | ⟨fs1, hd, hfr, -⟩
  · rw [tree_sameDisk hd]
    exact h
  · rw [hfr.tree_free]
    rw [← tree_sameDisk hd] at h
    exact h.free hfr.typed (by rw [tree_nlink hfr.typed]; exact hfr.unlinked)

theorem Truncated.tree_eq {fs fs' : Fs} {ip : Ip} (h : Truncated n ip fs fs')
    (hn : (fs.dinode n).type ≠ tDir) : tree fs' = tree fs := by
  refine tree_congr ?_ ?_ ?_
  · intro m
    by_cases hm : m = n
    · rw [hm, h.shape]
      rfl
    · rw [h.dinode m hm]
  · intro m
    by_cases hm : m = n
    · rw [hm, h.shape]
      rfl
    · rw [h.dinode m hm]
  · intro m ht
    by_cases hm : m = n
    · exact absurd (hm ▸ ht) hn
    · rw [h.dinode m hm, h.data]

end Xv6Filter.Proofs
