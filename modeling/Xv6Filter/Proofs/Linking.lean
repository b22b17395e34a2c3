import Xv6Filter.Kernel.Links
import Xv6Filter.Proofs.Creating

namespace Xv6Filter.Proofs
open Lib Function

namespace Tree

def linked (t : Tree) (d n : Nat) (name : List Byte) : Tree :=
  (t.setNlink n (t.nlink n + 1)).addEntry d ⟨n, strncpy name dirsiz⟩

theorem setNlink_setNlink (t : Tree) (n : Nat) (x y : Short) :
    (t.setNlink n x).setNlink n y = t.setNlink n y := by
  unfold setNlink
  simp

theorem walk_setNlink (t : Tree) (n : Nat) (x : Short) (parent : Bool) (rounds m : Nat) (path : List Byte) :
    (t.setNlink n x).walk parent rounds m path = t.walk parent rounds m path := by
  induction rounds generalizing m path with
  | zero => rfl
  | succ rounds ih =>
    unfold walk
    simp only [ih]
    rfl

theorem resolve_setNlink (t : Tree) (n : Nat) (x : Short) (parent : Bool) (cwd : Nat) (path : List Byte) :
    (t.setNlink n x).resolve parent cwd path = t.resolve parent cwd path :=
  t.walk_setNlink n x parent _ _ path

end Tree

structure Joined (d n : Nat) (name : List Byte) (t t' : Tree) : Prop where
  file : t.kind n ≠ tDir
  typed : t.kind n ≠ tFree
  dir : t.kind d = tDir
  absent : ∀ de ∈ t.ents d, ¬ Matches name de
  result : Reaped (t.linked d n name) t'

/-- An operation that began in `fs` came to its end: it has no reference any more, it logged
two inode blocks and `k` others at most, and it left the tree or changed it as `P` says. -/
structure Finished (fs0 fs : Fs) (k : Nat) (P : Nat → Nat → Tree → Prop) (fs' : Fs) : Prop where
  busy : Busy fs0 [] fs'
  effect : ∃ d n, Logs {fs.iblock d, fs.iblock n} k fs fs' ∧ (tree fs' = tree fs ∨ P d n (tree fs'))

theorem Finished.same {fs0 fs fs' : Fs} {P : Nat → Nat → Tree → Prop} (h : Busy fs0 [] fs')
    (hd : SameDisk fs fs') : Finished fs0 fs k P fs' :=
  ⟨h, 0, 0, hd.logs, .inl (tree_sameDisk hd)⟩

theorem lasting_iff_tree {fs0 fs : Fs} : Lasting fs0 hs n fs ↔
    ((tree fs).kind n ≠ tFree → (tree fs).nlink n = 0 → ¬ Sole fs0 hs n) := by
  constructor
  · intro h ht hz
    exact h ht (by rwa [tree_nlink ht] at hz)
  · intro h ht hz
    exact h ht (by rwa [tree_nlink ht])

theorem Lasting.of_tree {fs0 fs fs' : Fs} (h : Lasting fs0 hs n fs)
    (hk : (tree fs').kind n = (tree fs).kind n) (hl : (tree fs').nlink n = (tree fs).nlink n) :
    Lasting fs0 hs n fs' := by
  rw [lasting_iff_tree, hk, hl]
  exact lasting_iff_tree.mp h

namespace Busy

variable {fs0 fs fs' : Fs} {hs : List Taken} {ip dp : Ip} {n d : Nat}

section

variable (h : Busy fs0 (⟨ip, n, true⟩ :: hs) fs)

include h

/-- The second half of `link` writes the entry, or leaves the tree. -/
theorem linkInto {cwd : Option Ip} (hcwd : ∀ e ∈ cwd, 0 < (fs0.inode e).ref) (new : List Byte) :
    Post (fs.linkInto cwd ip new) (Astray fs0 (hs.length + 2) (tree fs)) fun r =>
      Busy fs0 (⟨ip, n, true⟩ :: hs) r.2 ∧ ∃ d, Logs {fs.iblock d} 2 fs r.2 ∧
      (r.1 = false ∧ tree r.2 = tree fs ∨ r.1 = true ∧ ∃ name,
        (tree fs).resolve true (cwd.elim 0 fun e => (fs0.inode e).inum) new = some (d, name) ∧
        (tree fs).kind d = tDir ∧ (∀ de ∈ (tree fs).ents d, ¬ Matches name de) ∧
        tree r.2 = (tree fs).addEntry d ⟨n, strncpy name dirsiz⟩) := by
  unfold Fs.linkInto
  refine h.nameiparent_ilock hcwd new (fun _ he => he) (fun _ _ _ => rfl) ?_ ?_
  · exact fun fs1 _ h1 hd1 => ⟨h1, 0, hd1.logs, .inl ⟨rfl, tree_sameDisk hd1⟩⟩
  · intro dp d name fs2 hres h2 hd2'
    have ht2 := tree_sameDisk hd2'
    have hdev : (fs2.inode dp).dev = (fs2.inode ip).dev := by
      rw [h2.sane.dev dp h2.ref_pos, h2.sane.dev ip h2.swap.ref_pos]
    have hn : n < 2 ^ 16 := h.inum_eq ▸ h.sane.inum ip h.ref_pos
    dsimp only
    rw [if_neg fun hne => hne hdev, h2.swap.inum_eq]
    refine ((h2.dirlink hn name).mono fun _ => .inl).bind ?_
    rintro ⟨ok, fs3⟩ ⟨h3, hl3, ⟨hdir, -⟩, hres3⟩
    have hl : Logs {fs.iblock d} 2 fs fs3 := by
      have hsb := hd2'.logs (T := {fs.iblock d}) (k := 0)
      rw [hsb.iblock_sb] at hl3
      exact (hsb.trans hl3).mono (Finset.Subset.refl _) (by decide)
    have hlast : Lasting fs0 (⟨ip, n, true⟩ :: hs) d fs3 := by
      refine (h.lasting d).of_tree ?_ ?_ <;> rw [← ht2] <;>
        rcases hres3 with ⟨-, ht⟩ | ⟨-, -, ht⟩ <;> rw [ht] <;> rfl
    refine ((h3.iunlockput_kept hlast).mono fun _ => .plain).bind ?_
    rintro fs4 ⟨h4, hd4⟩
    refine ⟨h4, d, hl.tail hd4.logs, ?_⟩
    dsimp only
    rw [tree_sameDisk hd4]
    rcases hres3 with ⟨rfl, ht⟩ | ⟨rfl, habs, ht⟩
    · exact .inl ⟨rfl, ht.trans ht2⟩
    · rw [ht2] at habs ht
      exact .inr ⟨rfl, name, hres, by rw [← ht2]; exact hdir, habs, ht⟩

theorem setNlink (x : Short) {g : Fs}
    (hg : g = (fs.setDin ip { (fs.inode ip).din with nlink := x }).iupdate ip) :
    Busy fs0 (⟨ip, n, true⟩ :: hs) g ∧ Logs {fs.iblock n} 0 fs g ∧
      tree g = (tree fs).setNlink n x := by
  subst hg
  have hcopy := h.copy
  obtain ⟨h1, hren⟩ := h.update (d := { (fs.inode ip).din with nlink := x }) (by rw [hcopy.same])
    (by rw [hcopy.same]) (by rw [hcopy.same])
  exact ⟨h1, hren.logs, hren.tree_setNlink (by rw [hcopy.same]) (by rw [hcopy.same]) (by rw [hcopy.same])
    hcopy.typed⟩

theorem tree_nlink_eq : (fs.inode ip).din.nlink = (tree fs).nlink n := by
  rw [tree_nlink h.copy.typed, h.copy.same]

theorem tree_kind_eq : (fs.inode ip).din.type = (tree fs).kind n := by
  rw [h.copy.same]
  rfl

end

/-- `link` joins the second path to the inode of the first one, or leaves the tree alone. -/
theorem linkPath (h : Busy fs0 [] fs) {cwd : Option Ip} (hcwd : ∀ e ∈ cwd, 0 < (fs0.inode e).ref)
    (old new : List Byte) :
    Post (fs.linkPath cwd old new) (Astray fs0 2 (tree fs)) fun r =>
      Finished fs0 fs 2 (fun d n t' => ∃ nm name,
        (tree fs).resolve false (cwd.elim 0 fun e => (fs0.inode e).inum) old = some (n, nm) ∧
        (tree fs).resolve true (cwd.elim 0 fun e => (fs0.inode e).inum) new = some (d, name) ∧
        Joined d n name (tree fs) t') r.2 := by
  unfold Fs.linkPath
  refine h.namei_ilock hcwd old (fun _ he => he.mono (by decide)) (fun _ _ => rfl) ?_ ?_
  · exact fun fs1 _ h1 hd1 => Finished.same h1 hd1
  · intro ip n nm fs2 hres h2 hd2'
    have ht2 := tree_sameDisk hd2'
    dsimp only
    by_cases hdir : (fs2.inode ip).din.type = tDir
    · rw [if_pos hdir]
      refine ((h2.iunlockput_kept ((h.lasting n).of_sameDisk hd2')).mono fun _ => .plain).bind ?_
      rintro fs3 ⟨h3, hd3⟩
      exact .same h3 (hd2'.trans hd3)
    · rw [if_neg hdir]
      have htyped : (tree fs).kind n ≠ tFree := by
        rw [← ht2]
        exact h2.copy.typed
      have hfile : (tree fs).kind n ≠ tDir := by
        rw [← ht2, ← h2.tree_kind_eq]
        exact hdir
      have hlink := h2.tree_nlink_eq
      generalize hfs3 : (fs2.setDin ip { (fs2.inode ip).din with
        nlink := (fs2.inode ip).din.nlink + 1 }).iupdate ip = fs3
      obtain ⟨h3, hl3, ht3⟩ := h2.setNlink _ hfs3.symm
      rw [hlink, ht2] at ht3
      refine ((h3.iunlock ip).mono fun _ => .plain).bind ?_
      rintro fs4 ⟨h4, hd4⟩
      have ht4 := (tree_sameDisk hd4).trans ht3
      have hl4 : Logs {fs.iblock n} 0 fs fs4 := by
        have hsb := hd2'.logs (T := {fs.iblock n}) (k := 0)
        rw [hsb.iblock_sb] at hl3
        exact (hsb.tail hl3).tail hd4.logs
      have hinto := h4.linkInto hcwd new
      rw [ht4] at hinto
      refine hinto.bind ?_
      rintro ⟨ok, fs5⟩ ⟨h5, d, hl5, hres5⟩
      have hl : Logs {fs.iblock d, fs.iblock n} 2 fs fs5 := by
        rw [hl4.iblock_sb] at hl5
        refine ((hl4.mono ?_ (Nat.le_refl 0)).trans (hl5.mono ?_ (Nat.le_refl 2))).mono
          (Finset.Subset.refl _) (by decide) <;> simp
      rcases hres5 with ⟨rfl, ht5⟩ | ⟨rfl, name, hnew, hdir5, habs, ht5⟩
      · simp only [Bool.false_eq_true, ↓reduceIte]
        have hlock := h5.ilock
        refine (hlock.imp ?_ fun _ hq => hq).bind ?_
        · rintro e (he | ⟨-, hv, -⟩)
          · exact .plain he
          · cases hv
        rintro fs6 ⟨h6, hd6⟩
        have ht6 := (tree_sameDisk hd6).trans ht5
        have hlink6 := h6.tree_nlink_eq
        generalize hfs7 : (fs6.setDin ip { (fs6.inode ip).din with
          nlink := (fs6.inode ip).din.nlink - 1 }).iupdate ip = fs7
        obtain ⟨h7, hl7, ht7⟩ := h6.setNlink _ hfs7.symm
        have hback : tree fs7 = tree fs := by
          rw [ht7, hlink6, ht6, Tree.setNlink_setNlink]
          simp only [Tree.setNlink, update_self, BitVec.add_sub_cancel, update_eq_self]
        have hlast : Lasting fs0 [] n fs7 :=
          (h.lasting n).of_tree (by rw [hback]) (by rw [hback])
        refine ((h7.iunlockput_kept hlast).mono fun _ => .plain).bind ?_
        rintro fs8 ⟨h8, hd8⟩
        have hl6 : Logs {fs.iblock d, fs.iblock n} 2 fs fs6 := hl.tail hd6.logs
        rw [hl6.iblock_sb] at hl7
        exact ⟨h8, d, n, (hl6.tail (hl7.mono (by simp) (Nat.le_refl 0))).tail hd8.logs,
          .inl ((tree_sameDisk hd8).trans hback)⟩
      · simp only [↓reduceIte]
        refine (h5.iput.mono fun _ => .plain).bind ?_
        rintro fs6 ⟨h6, hd6⟩
        have hd6 : SameDisk fs5 fs6 ∨ ∃ g, SameDisk fs5 g ∧ Freed n g fs6 ∧ Sole fs0 [] n :=
          hd6.imp id fun hf => ⟨fs5, .refl _, hf⟩
        refine ⟨h6, d, n, hl.drop hd6, .inr ⟨nm, name, hres, ?_, hfile, htyped, hdir5, habs, ?_⟩⟩
        · rw [← hnew, Tree.resolve_setNlink]
        · have := (Reaped.refl (tree fs5)).drop hd6
          rw [ht5] at this
          exact this

/-- `mkdir` and `mknod` make one node under the path, or leave the tree alone. -/
theorem makeNode (h : Busy fs0 [] fs) (hfirm : Firm fs0 fs) {cwd : Option Ip}
    (hcwd : ∀ e ∈ cwd, 0 < (fs0.inode e).ref) (path : List Byte) (hty : ty ≠ tFree)
    (hfile : ty ≠ tFile) (major minor : Short) :
    Post (fs.makeNode cwd path ty major minor) (Astray fs0 2 (tree fs)) fun r =>
      Finished fs0 fs 6 (fun d n t' => ∃ name,
        (tree fs).resolve true (cwd.elim 0 fun e => (fs0.inode e).inum) path = some (d, name) ∧
        Made d n ty name (tree fs) t') r.2 := by
  unfold Fs.makeNode
  refine (h.create hfirm hcwd path hty major minor).bind ?_
  rintro ⟨new, fs1⟩ ⟨d, n, hl, -, ⟨rfl, h1, ht⟩ | ⟨ip, rfl, h1, ⟨-, ht, -⟩ | ⟨name, hres, hmade⟩⟩⟩
  · exact ⟨h1, d, n, hl, .inl ht⟩
  · exact absurd ht hfile
  · refine (h1.iunlockput.mono fun _ => .plain).bind ?_
    rintro fs2 ⟨h2, hd2⟩
    exact ⟨h2, d, n, hl.drop hd2, .inr ⟨name, hres, { hmade with result := hmade.result.drop hd2 }⟩⟩

end Busy

end Xv6Filter.Proofs
