import Xv6Filter.Proofs.HolderCalls

namespace Xv6Filter.Proofs
open Lib

theorem copies_user (src : UserBuf) (i len : Nat) : Copies (src.copyin i) (fun j => src.byte (i + j)) len := by
  intro _ t m _
  refine ⟨min m (src.reach (i + t) m), Nat.min_le_left _ _, ?_, ?_⟩
  · simp [UserBuf.copyin, slice, Nat.add_assoc]
  · simp only [UserBuf.copyin, decide_eq_true_eq]
    omega

namespace Consistent

variable {k k' : Kernel} {i : Slot} {f : Fp}

section

variable (h : Consistent k)

include h

theorem setOff {ff : File} (hff : ff = { k.file f with off := ff.off }) : Consistent (k.setFile f ff) := by
  have ht : ff.type = (k.file f).type := by rw [hff]
  have hr : ff.ref = (k.file f).ref := by rw [hff]
  have hi : ff.ip = (k.file f).ip := by rw [hff]
  have hw : ff.writable = (k.file f).writable := by rw [hff]
  have hq : ff.pipe = (k.file f).pipe := by rw [hff]
  refine ⟨?_, ?_, h.procs, ?_⟩
  · refine h.files.setFile (fun g => by simp [hr]) ?_ ?_ <;> rw [hr, ht]
    · exact h.files.closed f
    · exact h.files.opened f
  · exact h.pipes.setFile fun pi w => by rw [ht, hw, hq]; rfl
  · refine h.inodes.setFile ?_ ?_
    · intro e
      simp only [fileUse, ht, hi]
    · rw [ht, hw, hi]
      exact h.inodes.plain f

theorem lockFile (hf : (k.file f).type = .inode ∨ (k.file f).type = .device) :
    Post (k.fs.ilock (k.file f).ip) Plain fun fs1 =>
      Busy (lent k.fs (k.file f).ip) [⟨(k.file f).ip, (k.fs.inode (k.file f).ip).inum, true⟩] fs1 ∧
      SameDisk k.fs fs1 := by
  have hpos := h.inodes.file_pos hf
  refine ((Busy.begin h.inodes.settled).lend hpos).ilock.imp ?_ fun _ hq => hq
  rintro e (he | ⟨-, -, ht⟩)
  · exact he
  · exact absurd ht (h.inodes.settled.typed _ hpos)

/-- After an operation on a locked file: the reference is the file's again. -/
theorem unlockFile (hb : Busy (lent k.fs (k.file f).ip) [⟨(k.file f).ip, n, true⟩] fs')
    (hn : n = (k.fs.inode (k.file f).ip).inum) (ht : tree fs' = tree k.fs) :
    Consistent { k with fs := fs' } := by
  refine ⟨h.files, h.pipes, h.procs, h.inodes.borrow hb ?_⟩
  intro g hty hw he hk
  have hk' : (tree k.fs).kind n = tDir := ht ▸ hk
  refine h.inodes.plain g hty hw ?_
  rw [he, ← hn]
  exact hk'

/-- One transaction of `filewrite` keeps the counts and the names. -/
theorem writeChunk (hf : (k.file f).type = .inode) (hw : (k.file f).writable = true)
    (src : UserBuf) (i : Nat) (hlen : len < 2 ^ 32) :
    Post (k.writeChunk f src i len) Plain fun r => Consistent r.2 ∧ tree r.2.fs = tree k.fs ∧
      Logs {k.fs.iblock (k.fs.inode (k.file f).ip).inum} (2 * spanned (k.file f).off len) k.fs r.2.fs ∧
      (r.2.file f).type = .inode ∧ (r.2.file f).writable = true := by
  unfold Kernel.writeChunk
  refine (h.lockFile (.inl hf)).bind ?_
  rintro fs1 ⟨h1, hd1⟩
  have hnd : (fs1.dinode (k.fs.inode (k.file f).ip).inum).type ≠ tDir := by
    rw [hd1.dinode]
    exact h.inodes.plain f hf hw
  obtain ⟨r, _, fs2, hrun, h2, hl2, ht2⟩ := h1.writei hnd (copies_user src i len) hlen () (k.file f).off
  rw [hrun]
  refine (h2.iunlock _).bind ?_
  rintro fs3 ⟨h3, hd3⟩
  have ht3 : tree fs3 = tree k.fs := (tree_sameDisk hd3).trans (ht2.trans (tree_sameDisk hd1))
  have hl1 := hd1.logs (T := {k.fs.iblock (k.fs.inode (k.file f).ip).inum}) (k := 0)
  rw [hl1.iblock_sb] at hl2
  have hk := h.unlockFile h3 rfl ht3
  refine ⟨hk.setOff ?_, ht3, ?_, ?_⟩
  · dsimp only
    split <;> rfl
  · exact ((hl1.trans hl2).mono (Finset.Subset.refl _) (by omega)).tail hd3.logs
  · simp only [Kernel.setFile_file, Function.update_self]
    split <;> exact ⟨hf, hw⟩

theorem filewriteLoop (hf : (k.file f).type = .inode) (hw : (k.file f).writable = true)
    (src : UserBuf) (rounds i n : Nat) :
    Post (Kernel.filewriteLoop f src rounds k i n) Plain fun r => Consistent r.2 ∧
      tree r.2.fs = tree k.fs ∧ r.2.fs.sb = k.fs.sb := by
  induction rounds generalizing k i with
  | zero => exact ⟨h, rfl, rfl⟩
  | succ rounds ih =>
    unfold Kernel.filewriteLoop
    split
    · exact ⟨h, rfl, rfl⟩
    · dsimp only
      have hlen : min (n - i) Kernel.maxWrite < 2 ^ 32 :=
        Nat.lt_of_le_of_lt (Nat.min_le_right _ _) (by decide)
      have hchunk := h.writeChunk hf hw src i hlen
      split
      · rename_i why hrun
        exact hchunk.of_error hrun
      · rename_i r k1 hrun
        obtain ⟨h1, ht1, hl1, hf1, hw1⟩ := hchunk.of_ok hrun
        dsimp only at h1 ht1 hl1 hf1 hw1
        split
        · exact ⟨h1, ht1, hl1.sb⟩
        · refine (ih h1 hf1 hw1 _).imp (fun _ he => he) ?_
          rintro r ⟨h2, ht2, hsb2⟩
          exact ⟨h2, ht2.trans ht1, hsb2.trans hl1.sb⟩

theorem filewrite (f : Fp) (src : UserBuf) (n other : Int) :
    Post (k.filewrite f src n other) Plain fun r => Consistent r.2 ∧ tree r.2.fs = tree k.fs ∧
      r.2.fs.sb = k.fs.sb := by
  unfold Kernel.filewrite
  split
  · exact ⟨h, rfl, rfl⟩
  rename_i hw
  split
  · simp [Post, Plain]
  · exact ⟨h, rfl, rfl⟩
  · exact ⟨h, rfl, rfl⟩
  · rename_i hf
    have hloop := h.filewriteLoop hf (by simpa using hw) src n.toNat 0 n.toNat
    split
    · rename_i why hrun
      exact hloop.of_error hrun
    · rename_i i k1 hrun
      exact hloop.of_ok hrun

theorem fileread (f : Fp) (dst : UserBuf) (n : I32) (other : Int) :
    Post (k.fileread f dst n other) Plain fun r => Consistent r.2 ∧ tree r.2.fs = tree k.fs ∧
      r.2.fs.sb = k.fs.sb := by
  unfold Kernel.fileread
  split
  · exact ⟨h, rfl, rfl⟩
  split
  · simp [Post, Plain]
  · exact ⟨h, rfl, rfl⟩
  · exact ⟨h, rfl, rfl⟩
  · rename_i hf
    refine (h.lockFile (.inl hf)).bind ?_
    rintro fs1 ⟨h1, hd1⟩
    obtain ⟨r, _, hrun⟩ := h1.readi dst.copyout () (k.file f).off n.toNat
    rw [hrun]
    refine (h1.iunlock _).bind ?_
    rintro fs2 ⟨h2, hd2⟩
    have hd := hd1.trans hd2
    have hk := h.unlockFile h2 rfl (tree_sameDisk hd)
    refine ⟨hk.setOff ?_, tree_sameDisk hd, hd.sb⟩
    dsimp only
    split <;> rfl

theorem filestat (f : Fp) (copied : Bool) :
    Post (k.filestat f copied) Plain fun r => Consistent r.2 ∧ tree r.2.fs = tree k.fs ∧
      r.2.fs.sb = k.fs.sb := by
  have hlocked : (k.file f).type = .inode ∨ (k.file f).type = .device →
      Post (do
        let fs ← k.fs.ilock (k.file f).ip
        let fs ← fs.iunlock (k.file f).ip
        pure ((if copied then 0 else -1 : Int), ({ k with fs := fs } : Kernel))) Plain fun r =>
      Consistent r.2 ∧ tree r.2.fs = tree k.fs ∧ r.2.fs.sb = k.fs.sb := by
    intro hf
    refine (h.lockFile hf).bind ?_
    rintro fs1 ⟨h1, hd1⟩
    refine (h1.iunlock _).bind ?_
    rintro fs2 ⟨h2, hd2⟩
    have hd := hd1.trans hd2
    exact ⟨h.unlockFile h2 rfl (tree_sameDisk hd), tree_sameDisk hd, hd.sb⟩
  unfold Kernel.filestat
  split
  · exact ⟨h, rfl, rfl⟩
  · exact ⟨h, rfl, rfl⟩
  · rename_i hf
    exact hlocked (.inl hf)
  · rename_i hf
    exact hlocked (.inr hf)

theorem onFile (fd : I32) (op : Kernel → Fp → Kern (Int × Kernel))
    (hop : ∀ f, Post (op k f) Plain fun r => Consistent r.2 ∧ tree r.2.fs = tree k.fs ∧
      r.2.fs.sb = k.fs.sb) :
    Post (k.onFile i fd op) Plain fun r => Consistent r.2 ∧ tree r.2.fs = tree k.fs ∧
      r.2.fs.sb = k.fs.sb := by
  unfold Kernel.onFile
  split
  · exact ⟨h, rfl, rfl⟩
  · rename_i f _
    split
    · rename_i why hrun
      exact (hop _).of_error hrun
    · rename_i r k1 hrun
      exact (hop _).of_ok hrun

end

end Consistent

end Xv6Filter.Proofs
