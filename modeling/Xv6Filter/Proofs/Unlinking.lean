import Xv6Filter.Proofs.Linking

namespace Xv6Filter.Proofs
open Lib

def blankEntry : Fs.Dirent := ⟨0, List.replicate dirsiz 0⟩

namespace Tree

/-- Directory `d` without the entry at place `i`, and without the link of a subdirectory `n`. -/
def detached (t : Tree) (d n i : Nat) : Tree :=
  let x := t.setEnts d ((t.ents d).set i blankEntry)
  if t.kind n = tDir then x.setNlink d (t.nlink d - 1) else x

def removed (t : Tree) (d n i : Nat) : Tree :=
  (t.detached d n i).setNlink n ((t.detached d n i).nlink n - 1)

def Proper (name : List Byte) : Prop := namecmp name dot ≠ 0 ∧ namecmp name dotdot ≠ 0

def Starved (t : Tree) : Prop := ∃ d name i de, Proper name ∧ t.kind d = tDir ∧
  FirstAt name (t.ents d) i de ∧ t.kind de.inum ≠ tFree ∧ (t.nlink de.inum).toInt < 1

/-- Freeing one inode and changing the links of another, in either order. -/
theorem free_setNlink (t : Tree) (h : n ≠ d) (x : Short) :
    (t.free d).setNlink n x = (t.setNlink n x).free d := by
  unfold free setNlink
  dsimp only
  rw [Function.update_comm h]

end Tree

structure Parted (d n i : Nat) (name : List Byte) (t t' : Tree) : Prop where
  proper : Tree.Proper name
  dir : t.kind d = tDir
  entry : ∃ de, FirstAt name (t.ents d) i de ∧ de.inum = n
  typed : t.kind n ≠ tFree
  linked : 1 ≤ (t.nlink n).toInt
  empty : t.kind n = tDir → ∀ de ∈ (t.ents n).drop 2, de.inum = 0
  result : Reaped (t.removed d n i) t'

def Failing (fs0 : Fs) (t : Tree) (e : Stop) : Prop :=
  Astray fs0 2 t e ∨ e = .panic .unlinkNlink ∧ t.Starved

namespace Failing

variable {fs0 : Fs} {t : Tree}

theorem not_freeing : ¬ Failing fs0 t (.panic .freeingFreeBlock) := by
  rintro (((hp | ⟨he, -⟩) | ⟨he, -⟩) | ⟨he, -⟩)
  · exact hp.1 rfl
  all_goals cases he

theorem dangling (h : Failing fs0 t (.panic .ilockNoType)) : t.Dangling := by
  rcases h with ((hp | ⟨he, -⟩) | ⟨-, hd⟩) | ⟨he, -⟩
  · exact absurd rfl hp.2.1
  · cases he
  · exact hd
  · cases he

theorem starved (h : Failing fs0 t (.panic .unlinkNlink)) : t.Starved := by
  rcases h with ((hp | ⟨he, -⟩) | ⟨he, -⟩) | ⟨-, hs⟩
  · exact absurd rfl hp.2.2.1
  · cases he
  · cases he
  · exact hs

theorem full (h : Failing fs0 t (.panic .igetNoInodes)) : ninode ≤ inUse fs0 + 2 := by
  rcases h with ((hp | ⟨-, hn⟩) | ⟨he, -⟩) | ⟨he, -⟩
  · exact absurd rfl hp.2.2.2
  · exact hn
  · cases he
  · cases he

end Failing

theorem decode_zeros : Fs.Dirent.decode (List.replicate direntSize 0) = blankEntry := by decide

namespace Busy

variable {fs0 fs fs' : Fs} {ip dp : Ip} {n d : Nat}

theorem detach (h : Busy fs0 (⟨dp, d, true⟩ :: [⟨ip, n, true⟩]) fs) (hdir : (fs.dinode d).type = tDir)
    (hi : i < ((tree fs).ents d).length) (hty : ty = (tree fs).kind n) :
    ∃ r g, fs.writeiKernel dp (List.replicate direntSize 0) (direntSize * i) = .ok (r, g) ∧
      (r = (direntSize : Int) → ∀ g', g' = (if ty = tDir then (g.setDin dp { (g.inode dp).din with
          nlink := (g.inode dp).din.nlink - 1 }).iupdate dp else g) →
        Busy fs0 (⟨dp, d, true⟩ :: [⟨ip, n, true⟩]) g' ∧ Logs {fs.iblock d} 2 fs g' ∧
          tree g' = (tree fs).detached d n i) := by
  obtain ⟨r, g, hrun, h1, hl1, -, hres⟩ := h.writeEntry hdir (i := i)
    (List.length_replicate (n := direntSize) (a := (0 : Byte))) (Nat.le_of_lt hi)
  rw [decode_zeros, putAt, if_pos hi] at hres
  refine ⟨r, g, hrun, ?_⟩
  rintro rfl g' rfl
  rcases hres with ⟨-, ht⟩ | ⟨hr, -⟩
  · unfold Tree.detached
    rw [hty]
    by_cases hn : (tree fs).kind n = tDir
    · rw [if_pos hn, if_pos hn]
      obtain ⟨h2, hl2, ht2⟩ := h1.setNlink ((g.inode dp).din.nlink - 1) rfl
      rw [hl1.iblock_sb] at hl2
      refine ⟨h2, hl1.tail hl2, ?_⟩
      rw [ht2, h1.tree_nlink_eq, ht]
      rfl
    · rw [if_neg hn, if_neg hn]
      exact ⟨h1, hl1, ht⟩
  · exact absurd rfl hr

/-- Letting go of both inodes, with one link less for the one unlinked. -/
theorem part (h : Busy fs0 (⟨dp, d, true⟩ :: [⟨ip, n, true⟩]) fs) :
    Post (do
        let fs ← fs.iunlockput dp
        let d := (fs.inode ip).din
        let fs ← ((fs.setDin ip { d with nlink := d.nlink - 1 }).iupdate ip).iunlockput ip
        pure (true, fs)) Plain fun r =>
      r.1 = true ∧ Busy fs0 [] r.2 ∧ Logs {fs.iblock d, fs.iblock n} 0 fs r.2 ∧
        Reaped ((tree fs).setNlink n ((tree fs).nlink n - 1)) (tree r.2) := by
  refine h.iunlockput.bind ?_
  rintro fs1 ⟨h1, hd1⟩
  have hl1 : Logs {fs.iblock d, fs.iblock n} 0 fs fs1 := (Logs.refl _ 0 fs).drop hd1
  have hlink := h1.tree_nlink_eq
  dsimp only
  generalize hfs2 : (fs1.setDin ip { (fs1.inode ip).din with
    nlink := (fs1.inode ip).din.nlink - 1 }).iupdate ip = fs2
  obtain ⟨h2, hl2, ht2⟩ := h1.setNlink _ hfs2.symm
  rw [hlink] at ht2
  rw [hl1.iblock_sb] at hl2
  have hreap : Reaped ((tree fs).setNlink n ((tree fs).nlink n - 1)) (tree fs2) := by
    rcases hd1 with hd1 | ⟨g, hg, hfr, hsole⟩
    · rw [ht2, tree_sameDisk hd1]
      exact .refl _
    · have hne : n ≠ d := hsole.2 ⟨ip, n, true⟩ (by simp)
      have hz : (tree fs).kind d ≠ tFree ∧ (tree fs).nlink d = 0 := by
        rw [← tree_sameDisk hg]
        exact ⟨hfr.typed, by rw [tree_nlink hfr.typed]; exact hfr.unlinked⟩
      have hnl : ((tree fs).free d).nlink n = (tree fs).nlink n := by simp [Tree.free, hne]
      rw [ht2, hfr.tree_free, tree_sameDisk hg, hnl, Tree.free_setNlink _ hne]
      refine (Reaped.refl _).free hz.1 ?_
      simpa [Tree.setNlink, Ne.symm hne] using hz.2
  refine h2.iunlockput.bind ?_
  rintro fs3 ⟨h3, hd3⟩
  exact ⟨rfl, h3, (hl1.tail (hl2.mono (by simp) (Nat.le_refl 0))).drop hd3, hreap.drop hd3⟩

theorem unlinkEntry (h : Busy fs0 (⟨ip, n, true⟩ :: [⟨dp, d, true⟩]) fs) (hdir : (fs.dinode d).type = tDir)
    (hi : i < ((tree fs).ents d).length) (hty : ty = (tree fs).kind n) :
    Post (do
        let (r, fs) ← fs.writeiKernel dp (List.replicate direntSize 0) (direntSize * i)
        if r ≠ (direntSize : Int) then throw (.panic .unlinkWritei)
        let dd := (fs.inode dp).din
        let fs := if ty = tDir then (fs.setDin dp { dd with nlink := dd.nlink - 1 }).iupdate dp else fs
        let fs ← fs.iunlockput dp
        let d := (fs.inode ip).din
        let fs := (fs.setDin ip { d with nlink := d.nlink - 1 }).iupdate ip
        let fs ← fs.iunlockput ip
        pure (true, fs)) Plain fun r =>
      r.1 = true ∧ Busy fs0 [] r.2 ∧ Logs {fs.iblock d, fs.iblock n} 2 fs r.2 ∧
        Reaped ((tree fs).removed d n i) (tree r.2) := by
  obtain ⟨r, g, hrun, hdet⟩ := h.swap.detach hdir hi hty
  rw [hrun]
  by_cases hr : r = (direntSize : Int)
  · obtain ⟨h1, hl1, ht1⟩ := hdet hr _ rfl
    simp only [bind, Except.bind, hr, ne_eq, not_true_eq_false, ↓reduceIte]
    refine h1.part.imp (fun _ he => he) ?_
    rintro r ⟨hdone, h2, hl2, hreap⟩
    rw [hl1.iblock_sb, hl1.iblock_sb] at hl2
    rw [ht1] at hreap
    exact ⟨hdone, h2, (hl1.mono (by simp) (Nat.le_refl 2)).tail hl2, hreap⟩
  · simp only [bind, Except.bind, ne_eq, hr, not_false_eq_true, ↓reduceIte]
    simp [Post, Plain, throw, throwThe, MonadExceptOf.throw]

/-- `unlink` parts the path from its inode if it returns 0, and leaves the tree alone if not. -/
theorem unlinkPath_result (h : Busy fs0 [] fs) {cwd : Option Ip} (hcwd : ∀ e ∈ cwd, 0 < (fs0.inode e).ref)
    (path : List Byte) :
    Post (Kernel.unlinkPath fs cwd path) (Failing fs0 (tree fs)) fun r =>
      Finished fs0 fs 2 (fun d n t' => ∃ name i,
        (tree fs).resolve true (cwd.elim 0 fun e => (fs0.inode e).inum) path = some (d, name) ∧
        Parted d n i name (tree fs) t') r.2 ∧
      (r.1 = false → tree r.2 = tree fs) ∧
      (r.1 = true → ∃ d n name i,
        (tree fs).resolve true (cwd.elim 0 fun e => (fs0.inode e).inum) path = some (d, name) ∧
        Parted d n i name (tree fs) (tree r.2)) := by
  have hsoft : ∀ e, Plain e → Failing fs0 (tree fs) e := fun _ he => .inl (.plain he)
  generalize hP : (fun d n t' => ∃ name i,
    (tree fs).resolve true (cwd.elim 0 fun e => (fs0.inode e).inum) path = some (d, name) ∧
    Parted d n i name (tree fs) t') = P
  unfold Kernel.unlinkPath
  refine h.nameiparent_ilock hcwd path (fun _ he => .inl (he.mono (by decide))) (fun _ _ _ => rfl) ?_ ?_
  · exact fun fs1 _ h1 hd1 => ⟨Finished.same h1 hd1, fun _ => tree_sameDisk hd1, nofun⟩
  · intro dp d name fs2 hres h2 hd2'
    have hleave : ∀ g, Busy fs0 [⟨dp, d, true⟩] g → SameDisk fs g →
        Post (do
          let fs ← g.iunlockput dp
          pure (false, fs)) (Failing fs0 (tree fs)) fun r => Finished fs0 fs 2 P r.2 ∧
            (r.1 = false → tree r.2 = tree fs) ∧ (r.1 = true → ∃ d n name i,
              (tree fs).resolve true (cwd.elim 0 fun e => (fs0.inode e).inum) path = some (d, name) ∧
              Parted d n i name (tree fs) (tree r.2)) := by
      intro g hg hdg
      refine ((hg.iunlockput_kept ((h.lasting d).of_sameDisk hdg)).mono hsoft).bind ?_
      rintro fs' ⟨h', hd'⟩
      exact ⟨.same h' (hdg.trans hd'), fun _ => tree_sameDisk (hdg.trans hd'), nofun⟩
    dsimp only
    by_cases hprop : namecmp name dot = 0 ∨ namecmp name dotdot = 0
    · rw [if_pos hprop]
      exact hleave fs2 h2 hd2'
    rw [if_neg hprop]
    rw [not_or] at hprop
    refine ((h2.dirlookup name).imp (fun _ he => .inl (.inl (he.mono (by decide)))) fun _ hq => hq).bind ?_
    rintro ⟨found, fs3⟩ ⟨hdir, ⟨hr, hno⟩ | ⟨ip, i, de, rfl, hf, h3, hd3⟩⟩
    · cases hr
      exact hleave fs2 h2 hd2'
    · have hd3' : SameDisk fs fs3 := hd2'.trans hd3
      rw [tree_sameDisk hd2'] at hf
      have hfree : (fs3.dinode de.inum).type = tFree → (tree fs3).Dangling := by
        intro hfr
        rw [tree_sameDisk hd3']
        rw [hd3'.dinode] at hfr
        exact Tree.dangling_of_first hf hfr
      have hlock := h3.ilock_astray 2 fun _ => hfree
      rw [tree_sameDisk hd3'] at hlock
      refine (hlock.mono fun _ => .inl).bind ?_
      rintro fs4 ⟨h4, hd4⟩
      have hd4' : SameDisk fs fs4 := hd3'.trans hd4
      have ht4 := tree_sameDisk hd4'
      have hdirt : (tree fs).kind d = tDir := by
        rw [← tree_sameDisk hd2']
        exact hdir
      have htyped : (tree fs).kind de.inum ≠ tFree := by
        rw [← ht4]
        exact h4.copy.typed
      by_cases hlow : (fs4.inode ip).din.nlink.toInt < 1
      · simp only [hlow, ↓reduceIte, throw, throwThe, MonadExceptOf.throw, bind, Except.bind]
        rw [h4.tree_nlink_eq, ht4] at hlow
        exact .inr ⟨rfl, d, name, i, de, hprop, hdirt, hf, htyped, hlow⟩
      rw [if_neg hlow]
      rw [h4.tree_nlink_eq, ht4] at hlow
      have hi : i < ((tree fs4).ents d).length := by
        rw [ht4]
        exact (List.getElem?_eq_some_iff.mp hf.here).1
      have hdir4 : (fs4.dinode d).type = tDir := by
        rw [hd4'.dinode]
        exact hdirt
      have hparted := h4.unlinkEntry hdir4 hi h4.tree_kind_eq
      have hfin : ((tree fs).kind de.inum = tDir → ∀ x ∈ ((tree fs).ents de.inum).drop 2, x.inum = 0) →
          ∀ r : Bool × Fs, (r.1 = true ∧ Busy fs0 [] r.2 ∧
            Logs {fs4.iblock d, fs4.iblock de.inum} 2 fs4 r.2 ∧
            Reaped ((tree fs4).removed d de.inum i) (tree r.2)) → Finished fs0 fs 2 P r.2 ∧
            (r.1 = false → tree r.2 = tree fs) ∧ (r.1 = true → ∃ d n name i,
              (tree fs).resolve true (cwd.elim 0 fun e => (fs0.inode e).inum) path = some (d, name) ∧
              Parted d n i name (tree fs) (tree r.2)) := by
        rintro hempty r ⟨hdone, h', hl', hreap⟩
        have hl := hd4'.logs (T := {fs.iblock d, fs.iblock de.inum}) (k := 0)
        rw [hl.iblock_sb, hl.iblock_sb] at hl'
        rw [ht4] at hreap
        have hparted : Parted d de.inum i name (tree fs) (tree r.2) :=
          ⟨hprop, hdirt, ⟨de, hf, rfl⟩, htyped, by omega, hempty, hreap⟩
        refine ⟨⟨h', d, de.inum, (hl.trans hl').mono (Finset.Subset.refl _) (by decide), .inr ?_⟩,
          fun hno => ?_, fun _ => ⟨d, de.inum, name, i, hres, hparted⟩⟩
        · rw [← hP]
          exact ⟨name, i, hres, hparted⟩
        · rw [hdone] at hno
          cases hno
      by_cases hisdir : (fs4.inode ip).din.type = tDir
      · have hn : (fs4.dinode de.inum).type = tDir := by rw [← h4.copy.same]; exact hisdir
        rw [if_pos hisdir, h4.isdirempty hn, ht4]
        simp only [bind, Except.bind]
        by_cases hempty : (((tree fs).ents de.inum).drop 2).all (fun x => decide (x.inum = 0)) = true
        · rw [if_pos hempty]
          exact hparted.imp hsoft (hfin fun _ x hx => by simpa using List.all_eq_true.mp hempty x hx)
        · rw [if_neg hempty]
          refine ((h4.iunlockput_kept ((h2.lasting _).of_sameDisk (hd3.trans hd4))).mono hsoft).bind ?_
          rintro fs5 ⟨h5, hd5⟩
          exact hleave fs5 h5 (hd4'.trans hd5)
      · rw [if_neg hisdir]
        refine hparted.imp hsoft (hfin fun hk => ?_)
        rw [h4.tree_kind_eq, ht4] at hisdir
        exact absurd hk hisdir

theorem unlinkPath (h : Busy fs0 [] fs) {cwd : Option Ip} (hcwd : ∀ e ∈ cwd, 0 < (fs0.inode e).ref)
    (path : List Byte) :
    Post (Kernel.unlinkPath fs cwd path) (Failing fs0 (tree fs)) fun r =>
      Finished fs0 fs 2 (fun d n t' => ∃ name i,
        (tree fs).resolve true (cwd.elim 0 fun e => (fs0.inode e).inum) path = some (d, name) ∧
        Parted d n i name (tree fs) t') r.2 :=
  (h.unlinkPath_result hcwd path).imp (fun _ he => he) fun _ hq => hq.1

end Busy

end Xv6Filter.Proofs
