import Xv6Filter.Proofs.Itable

namespace Xv6Filter.Proofs
open Lib

/-- An image that passes for a file system, before any of its inodes is in memory. Inodes
without links may have been left behind on it. -/
structure WellFormed (fs : Fs) : Prop where
  acct : Acct fs.sb fs.used fs.data fs.dinode
  aligned : ∀ n, (fs.dinode n).type = tDir → (fs.dinode n).size % direntSize = 0
  numbered : ∀ n, (fs.dinode n).type ≠ tFree → 0 < n ∧ n < fs.sb.ninodes
  few : fs.sb.ninodes ≤ 2 ^ 16
  root : (fs.dinode rootino).type ≠ tFree
  unread : ∀ e, (fs.inode e).ref = 0

theorem WellFormed.orderly (h : WellFormed fs) : Orderly fs := by
  have hno : ∀ e, ¬ 0 < (fs.inode e).ref := by simp [h.unread]
  exact ⟨h.acct, by simp [h.unread], fun e _ hr => absurd hr (hno e), fun e hr => absurd hr (hno e),
    fun e hr => absurd hr (hno e), fun e hr => absurd hr (hno e), h.aligned, h.numbered, h.few⟩

/-- If no inode was left behind, the kernel can begin with the image at once. -/
theorem WellFormed.settled (h : WellFormed fs)
    (hlinked : ∀ n, n < fs.sb.ninodes → (fs.dinode n).type ≠ tFree → (fs.dinode n).nlink ≠ 0) : Settled fs := by
  refine ⟨⟨h.orderly, fun n ht hz => absurd hz (hlinked n (h.numbered n ht).2 ht)⟩, fun e hr => ?_⟩
  rw [h.unread e] at hr
  exact absurd hr (Int.lt_irrefl 0)

def SmallInode (fs : Fs) (n : Nat) : Prop :=
  let d := fs.dinode n
  0 < n ∧ d.size ≤ bsize ∧ (∀ s, s < ndirect → d.addrs (s + 1) = 0) ∧ (d.addrs 0 = 0 → d.size = 0) ∧
    (d.type = tDir → d.size % direntSize = 0) ∧
    (d.addrs 0 ≠ 0 → InData fs.sb (d.addrs 0) ∧ fs.used (d.addrs 0) = true ∧
      ∀ m, m < fs.sb.ninodes → (fs.dinode m).type ≠ tFree → (fs.dinode m).addrs 0 = d.addrs 0 → m = n)

instance (sb : Superblock) (b : Nat) : Decidable (InData sb b) := inferInstanceAs (Decidable (_ ∧ _))

instance (fs : Fs) (n : Nat) : Decidable (SmallInode fs n) := by
  unfold SmallInode
  infer_instance

def SmallImage (fs : Fs) : Prop :=
  (∀ n, n < fs.sb.ninodes → (fs.dinode n).type ≠ tFree → SmallInode fs n) ∧
    (∀ b, b < fs.sb.size → (b < dataStart fs.sb → fs.used b = true) ∧ (dataStart fs.sb ≤ b → fs.used b = true →
      ∃ n, n < fs.sb.ninodes ∧ (fs.dinode n).type ≠ tFree ∧ (fs.dinode n).addrs 0 = b)) ∧
    dataStart fs.sb ≤ fs.sb.size ∧ fs.sb.size ≤ 2 ^ 32 ∧ fs.sb.ninodes ≤ 2 ^ 16 ∧ (fs.dinode rootino).type ≠ tFree

instance (fs : Fs) : Decidable (SmallImage fs) := by
  unfold SmallImage
  infer_instance

section Small

variable {fs : Fs} {n s : Nat} {x : Nat × Nat}

theorem SmallInode.slotAddr (h : SmallInode fs n) (hs : s ≠ 0) : slotAddr fs.data (fs.dinode n) s = 0 := by
  obtain ⟨-, -, hdirect, -⟩ := h
  unfold Proofs.slotAddr
  split
  · obtain ⟨s, rfl⟩ : ∃ k, s = k + 1 := ⟨s - 1, by omega⟩
    exact hdirect s (by omega)
  · exact if_pos (hdirect (ndirect - 1) (by decide))

theorem SmallImage.placed (h : SmallImage fs) (hout : ∀ n, fs.sb.ninodes ≤ n → (fs.dinode n).type = tFree)
    (hx : placed fs.data fs.dinode x ≠ 0) :
    x.2 = 0 ∧ (fs.dinode x.1).type ≠ tFree ∧ x.1 < fs.sb.ninodes ∧ placed fs.data fs.dinode x = (fs.dinode x.1).addrs 0 := by
  obtain ⟨n, s⟩ := x
  have ht : (fs.dinode n).type ≠ tFree := by
    intro hfree
    simp [Proofs.placed, hfree] at hx
  have hn : n < fs.sb.ninodes := Nat.lt_of_not_le fun hge => ht (hout n hge)
  have hs : s = 0 := by
    by_contra hs
    simp [Proofs.placed, (h.1 n hn ht).slotAddr hs] at hx
  subst hs
  exact ⟨rfl, ht, hn, placed_pos (by decide) ht⟩

/-- Beyond the last inode nothing is allocated; the rest is a matter of looking at each inode and block. -/
theorem SmallImage.wellFormed (h : SmallImage fs) (hout : ∀ n, fs.sb.ninodes ≤ n → (fs.dinode n).type = tFree)
    (hunread : ∀ e, (fs.inode e).ref = 0) : WellFormed fs := by
  obtain ⟨hinode, hblock, hstart, hsize, hfew, hroot⟩ := id h
  have hin : ∀ n, (fs.dinode n).type ≠ tFree → n < fs.sb.ninodes := fun n ht =>
    Nat.lt_of_not_le fun hge => ht (hout n hge)
  have hplace : ∀ x, Proofs.placed fs.data fs.dinode x ≠ 0 → _ := fun x hx => h.placed hout hx
  refine ⟨⟨⟨⟨?_, ?_, ?_, ?_, by simp [InData, dataStart]⟩, ?_, hsize⟩, ?_⟩, ?_, ?_, hfew, hroot, hunread⟩
  · intro x hx
    obtain ⟨-, ht, hn, he⟩ := hplace x hx
    obtain ⟨-, -, -, -, -, hown⟩ := hinode x.1 hn ht
    rw [he] at hx ⊢
    exact (hown hx).2.1
  · intro x hx
    obtain ⟨-, ht, hn, he⟩ := hplace x hx
    obtain ⟨-, -, -, -, -, hown⟩ := hinode x.1 hn ht
    rw [he] at hx ⊢
    exact (hown hx).1
  · intro x y hx hxy
    obtain ⟨hs, ht, hn, he⟩ := hplace x hx
    obtain ⟨hs', ht', hn', he'⟩ := hplace y (hxy ▸ hx)
    obtain ⟨-, -, -, -, -, hown⟩ := hinode x.1 hn ht
    refine Prod.ext ((hown (he ▸ hx)).2.2 y.1 hn' ht' ?_).symm (hs.trans hs'.symm)
    rw [← he, ← he', hxy]
  · intro b hb hu
    obtain ⟨n, -, ht, he⟩ := (hblock b hb.2).2 hb.1 hu
    exact ⟨(n, 0), (placed_pos (by decide) ht).trans he⟩
  · exact fun b hb => (hblock b (Nat.lt_of_lt_of_le hb hstart)).1 hb
  · intro n ht bn hbn
    obtain ⟨-, hlen, -, hempty, -⟩ := hinode n (hin n ht) ht
    obtain rfl : bn = 0 := by
      simp only [bsize] at hbn hlen
      omega
    refine ⟨by decide, fun hz => ?_⟩
    rw [hempty hz] at hbn
    exact absurd hbn (Nat.not_lt_zero _)
  · intro n hd
    have ht : (fs.dinode n).type ≠ tFree := by
      rw [hd]
      decide
    obtain ⟨-, -, -, -, hdir, -⟩ := hinode n (hin n ht) ht
    exact hdir hd
  · exact fun n ht => ⟨(hinode n (hin n ht) ht).1, hin n ht⟩

end Small

end Xv6Filter.Proofs
