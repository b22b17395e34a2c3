import Xv6Filter.Kernel.Sysfile
import Xv6Filter.Proofs.TreeChanges

namespace Xv6Filter.Proofs
open Lib Function

namespace Tree

def created (t : Tree) (d n : Nat) (ty : Short) (name : List Byte) : Tree :=
  if ty = tDir then
    ((((t.alloc n ty).addEntry n ⟨n, strncpy dot dirsiz⟩).addEntry n ⟨d, strncpy dotdot dirsiz⟩).addEntry d
      ⟨n, strncpy name dirsiz⟩).setNlink d (t.nlink d + 1)
  else (t.alloc n ty).addEntry d ⟨n, strncpy name dirsiz⟩

end Tree

/-- `create` made inode `n`. A link count that wraps around to 0 would free the directory. -/
structure Made (d n : Nat) (ty : Short) (name : List Byte) (t t' : Tree) : Prop where
  nonzero : n ≠ 0
  small : n < 2 ^ 16
  free : t.kind n = tFree
  dir : t.kind d = tDir
  absent : ∀ de ∈ t.ents d, ¬ Matches name de
  result : Reaped (t.created d n ty name) t'

theorem Tree.setEnts_self (t : Tree) (n : Nat) : t.setEnts n (t.ents n) = t := by
  unfold Tree.setEnts
  rw [update_eq_self]

theorem Tree.setEnts_setEnts (t : Tree) (n : Nat) (es es' : List Fs.Dirent) :
    (t.setEnts n es).setEnts n es' = t.setEnts n es' := by
  unfold Tree.setEnts
  simp

structure FilesKept (fs fs' : Fs) : Prop where
  names : tree fs' = tree fs
  inodes : ∀ n, fs'.dinode n = fs.dinode n ∨ (fs.dinode n).type = tFree ∧ (fs'.dinode n).type = tFree
  texts : ∀ n, (fs.dinode n).type ≠ tFree → fileText fs' n = fileText fs n

theorem SameDisk.fileText_eq {fs fs' : Fs} (h : SameDisk fs fs') (n : Nat) : fileText fs' n = fileText fs n := by
  unfold fileText
  rw [h.dinode, h.data]

theorem SameDisk.filesKept {fs fs' : Fs} (h : SameDisk fs fs') : FilesKept fs fs' :=
  ⟨tree_sameDisk h, fun n => .inl (by rw [h.dinode]), fun n _ => h.fileText_eq n⟩

/-- Directory `d` can get no new file: no inode is free, or its entry cannot be written. -/
def CannotAdd (d : Nat) (fs : Fs) : Prop :=
  NoFreeInode fs ∨ NoRoom d (direntSize * firstFree ((tree fs).ents d)) fs

def CannotMake (cwd : Nat) (path : List Byte) (fs : Fs) : Prop :=
  ∀ d name, (tree fs).resolve true cwd path = some (d, name) →
    (∀ de ∈ (tree fs).ents d, ¬ Matches name de) → CannotAdd d fs

/-- What became of the files when `create` gave back `found`; `P` says that it can make none. -/
structure Tried (P : Prop) (found : Option Ip) (fs fs' : Fs) : Prop where
  none : found = none → (FilesKept fs fs' ↔ P)
  some : ∀ ip, found = some ip → SameDisk fs fs' ∧ P ∨
    ¬ P ∧ (fs.dinode (fs'.inode ip).inum).type = tFree ∧ (fs'.dinode (fs'.inode ip).inum).nlink ≠ 0

structure Undone (n : Nat) (fs fs' : Fs) : Prop where
  free : (fs'.dinode n).type = tFree
  other : ∀ m, m ≠ n → fs'.dinode m = fs.dinode m
  data : fs'.data = fs.data

theorem cannotAdd_congr {fs fs' : Fs} (h : SameDisk fs fs') : CannotAdd d fs' ↔ CannotAdd d fs := by
  simp only [CannotAdd, NoFreeInode, NoRoom, OutOfBlocks, freeBlocks, tree_sameDisk h, h.sb, h.dinode, h.data,
    h.used]

theorem Tried.of_sameDisk {fs fs1 fs' : Fs} (h : Tried (CannotAdd d fs1) found fs1 fs') (hd : SameDisk fs fs1)
    (hp : CannotAdd d fs ↔ P) : Tried P found fs fs' := by
  have hkept : FilesKept fs1 fs' ↔ FilesKept fs fs' := by
    constructor
    · rintro ⟨h1, h2, h3⟩
      refine ⟨h1.trans (tree_sameDisk hd), fun n => ?_, fun n ht => ?_⟩
      · rw [← hd.dinode]
        exact h2 n
      · rw [h3 n (by rwa [hd.dinode]), hd.fileText_eq]
    · rintro ⟨h1, h2, h3⟩
      refine ⟨h1.trans (tree_sameDisk hd).symm, fun n => ?_, fun n ht => ?_⟩
      · rw [hd.dinode]
        exact h2 n
      · rw [h3 n (by rwa [hd.dinode] at ht), hd.fileText_eq]
  obtain ⟨hnone, hsome⟩ := h
  rw [hkept, cannotAdd_congr hd, hp] at hnone
  rw [cannotAdd_congr hd, hp, hd.dinode] at hsome
  exact ⟨hnone, fun ip hip => (hsome ip hip).imp (fun ⟨hs, hq⟩ => ⟨hd.trans hs, hq⟩) id⟩

section Undo

variable {fs fs1 fs2 fs' : Fs} {n d off : Nat} {e : Dinode}

theorem noRoom_congr (hd : fs'.dinode d = fs.dinode d) (hdata : fs'.data = fs.data) (hu : fs'.used = fs.used)
    (hsb : fs'.sb = fs.sb) : NoRoom d off fs' ↔ NoRoom d off fs := by
  simp only [NoRoom, OutOfBlocks, freeBlocks, hd, hdata, hu, hsb]

/-- A new inode `n`, no entry for it, and the inode free again: the files are as they were
unless the directory got a block. -/
theorem Entered.undone (hren : Renewed n e fs fs1) (hent : Entered d off false fs1 fs2)
    (hund : Undone n fs2 fs') (hnd : n ≠ d) (hfree : (fs.dinode n).type = tFree)
    (hdir : (fs.dinode d).type ≠ tFree) (ht : tree fs' = tree fs) :
    FilesKept fs fs' ↔ NoRoom d off fs := by
  have hold : ∀ m, m ≠ n → fs1.dinode m = fs.dinode m := by
    intro m hm
    rw [hren.dinode, update_of_ne hm]
  have hroom : NoRoom d off fs1 ↔ NoRoom d off fs :=
    noRoom_congr (hold d (Ne.symm hnd)) hren.data hren.used hren.logs.sb
  have hkept := hent.kept rfl
  rw [hroom, hold d (Ne.symm hnd)] at hkept
  constructor
  · intro hk
    rw [← hkept, ← hund.other d (Ne.symm hnd)]
    exact (hk.inodes d).resolve_right fun h => hdir h.1
  · intro hno
    refine ⟨ht, ?_, ?_⟩
    · intro m
      by_cases hm : m = n
      · subst hm
        exact .inr ⟨hfree, hund.free⟩
      · rw [hund.other m hm]
        by_cases hmd : m = d
        · subst hmd
          exact .inl (hkept.mpr hno)
        · exact .inl ((hent.other rfl m hmd).trans (hold m hm))
    · intro m hm
      have hmn : m ≠ n := by
        rintro rfl
        exact hm hfree
      have htext := hent.text rfl m (by rwa [hold m hmn])
      simp only [fileText, hund.other m hmn, hund.data, hold m hmn, hren.data] at htext ⊢
      exact htext

end Undo

theorem Logs.iblock_sb {fs fs' : Fs} (h : Logs T k fs fs') (n : Nat) : fs'.iblock n = fs.iblock n := by
  unfold Fs.iblock
  rw [h.sb]

theorem Logs.drop {fs fs1 fs' : Fs} (h : Logs T k fs fs1) (hd : SameDisk fs1 fs' ∨
    ∃ fs2, SameDisk fs1 fs2 ∧ Freed n fs2 fs' ∧ P) (hT : fs.iblock n ∈ T := by simp) :
    Logs T k fs fs' := by
  rcases hd with hd | ⟨fs2, hd, hfr, -⟩
  · exact h.tail hd.logs
  · have h2 : Logs T k fs fs2 := h.tail hd.logs
    refine h2.tail (hfr.logs.mono ?_ (Nat.le_refl 0))
    rw [h2.iblock_sb]
    simpa using hT

namespace Busy

variable {fs0 fs fs' : Fs} {hs : List Taken} {ip dp : Ip} {n d : Nat}

/-- The last part of `create`: the entries of a new directory, and the one that names it. -/
theorem createLinks (h : Busy fs0 (⟨ip, n, true⟩ :: ⟨dp, d, true⟩ :: hs) fs) (name : List Byte)
    (ty : Short) :
    Post (fs.createLinks dp ip name ty) (Tight fs0 (hs.length + 2)) fun r =>
      Busy fs0 (⟨ip, n, true⟩ :: ⟨dp, d, true⟩ :: hs) r.2 ∧ Logs {fs.iblock d, fs.iblock n} 6 fs r.2 ∧
      (ty ≠ tDir → (∀ de ∈ (tree fs).ents d, ¬ Matches name de) →
        Entered d (direntSize * firstFree ((tree fs).ents d)) r.1 fs r.2) ∧
      (r.1 = false ∧ (∃ es, tree r.2 = (tree fs).setEnts n es) ∨
        r.1 = true ∧ tree r.2 = (if ty = tDir then
          ((tree fs).addEntry n ⟨n, strncpy dot dirsiz⟩).addEntry n ⟨d, strncpy dotdot dirsiz⟩
          else tree fs).addEntry d ⟨n, strncpy name dirsiz⟩) := by
  have hn : n < 2 ^ 16 := h.inum_eq ▸ h.sane.inum ip h.ref_pos
  have hd : d < 2 ^ 16 := h.swap.inum_eq ▸ h.sane.inum dp h.swap.ref_pos
  have hT : ∀ x, x = d ∨ x = n → ({fs.iblock x} : Finset Nat) ⊆ {fs.iblock d, fs.iblock n} := by
    rintro x (rfl | rfl) <;> simp
  have hlast : ∀ fs1 es, Busy fs0 (⟨ip, n, true⟩ :: ⟨dp, d, true⟩ :: hs) fs1 →
      Logs {fs.iblock d, fs.iblock n} 4 fs fs1 → tree fs1 = (tree fs).setEnts n es →
      Post (fs1.dirlink dp name (fs1.inode ip).inum) (Tight fs0 (hs.length + 2)) fun r =>
        Busy fs0 (⟨ip, n, true⟩ :: ⟨dp, d, true⟩ :: hs) r.2 ∧
        Logs {fs.iblock d, fs.iblock n} 6 fs r.2 ∧
        ((∀ de ∈ (tree fs1).ents d, ¬ Matches name de) →
          Entered d (direntSize * firstFree ((tree fs1).ents d)) r.1 fs1 r.2) ∧
        (r.1 = false ∧ (∃ es, tree r.2 = (tree fs).setEnts n es) ∨
          r.1 = true ∧ tree r.2 = ((tree fs).setEnts n es).addEntry d ⟨n, strncpy name dirsiz⟩) := by
    intro fs1 es h1 hl1 ht
    rw [h1.inum_eq]
    refine (h1.swap.dirlink hn name).imp (fun _ he => he) ?_
    rintro ⟨ok, fs2⟩ ⟨h2, hl2, ⟨-, hent⟩, hres⟩
    rw [hl1.iblock_sb] at hl2
    refine ⟨h2.swap, hl1.trans (hl2.mono (hT d (.inl rfl)) (Nat.le_refl 2)), hent, ?_⟩
    rcases hres with ⟨rfl, ht'⟩ | ⟨rfl, -, ht'⟩
    · exact .inl ⟨rfl, es, ht'.trans ht⟩
    · refine .inr ⟨rfl, ?_⟩
      rw [ht', ht]
      rfl
  unfold Fs.createLinks
  dsimp only
  by_cases hty : ty = tDir
  · simp only [hty, ↓reduceIte]
    rw [h.inum_eq]
    refine (h.dirlink hn dot).bind ?_
    rintro ⟨ok, fs1⟩ ⟨h1, hl1, -, ⟨rfl, ht⟩ | ⟨rfl, -, ht⟩⟩
    · refine ⟨h1, hl1.mono (hT n (.inr rfl)) (by decide), fun hne => absurd rfl hne,
        .inl ⟨rfl, (tree fs).ents n, ?_⟩⟩
      rw [Tree.setEnts_self]
      exact ht
    · simp only [↓reduceIte]
      rw [h1.swap.inum_eq]
      refine (h1.dirlink hd dotdot).bind ?_
      rintro ⟨ok, fs2⟩ ⟨h2, hl2, -, hres⟩
      rw [hl1.iblock_sb] at hl2
      have hl := (hl1.trans hl2).mono (hT n (.inr rfl)) (Nat.le_refl 4)
      rcases hres with ⟨rfl, ht'⟩ | ⟨rfl, -, ht'⟩
      · exact ⟨h2, hl.mono (Finset.Subset.refl _) (by decide), fun hne => absurd rfl hne,
          .inl ⟨rfl, _, ht'.trans ht⟩⟩
      · rw [ht, Tree.setEnts_setEnts] at ht'
        simp only [↓reduceIte]
        refine (hlast fs2 _ h2 hl ht').imp (fun _ he => he) ?_
        rintro r ⟨hb, hlr, -, hres⟩
        rw [← Tree.setEnts_setEnts (tree fs) n
          (putAt ((tree fs).ents n) (firstFree ((tree fs).ents n)) ⟨n, strncpy dot dirsiz⟩)] at hres
        exact ⟨hb, hlr, fun hne => absurd rfl hne, hres⟩
  · simp only [hty, ↓reduceIte]
    refine (hlast fs ((tree fs).ents n) h (.refl _ _ _) (Tree.setEnts_self _ _).symm).imp (fun _ he => he) ?_
    rintro r ⟨hb, hlr, hent, hres⟩
    rw [Tree.setEnts_self] at hres
    exact ⟨hb, hlr, fun _ => hent, hres⟩

theorem sole_of_free (h : Busy fs0 [⟨dp, d, true⟩] fs) (hf : (fs.dinode n).type = tFree) :
    Sole fs0 [⟨dp, d, true⟩] n := by
  constructor
  · intro e hr he
    have := h.type e hr
    rw [he, hf, ← he] at this
    exact h.typed e hr this.symm
  · intro t ht he
    rw [List.mem_singleton.mp ht] at he
    exact h.copy.typed (by simp only at he; rw [he]; exact hf)

/-- The end of a `create` that failed: the new inode goes away again. -/
theorem create_undo (h : Busy fs0 (⟨ip, n, true⟩ :: [⟨dp, d, true⟩]) fs) (hfirm : Firm fs0 fs1)
    (htree : tree fs = (((tree fs1).alloc n ty).setEnts n es)) (hfree : (fs1.dinode n).type = tFree)
    (hsole : Sole fs0 [⟨dp, d, true⟩] n) :
    Post (do
        let fs ← ((fs.setDin ip { (fs.inode ip).din with nlink := 0 }).iupdate ip).iunlockput ip
        let fs ← fs.iunlockput dp
        pure ((none : Option Ip), fs)) Plain fun r =>
      r.1 = none ∧ Busy fs0 [] r.2 ∧ tree r.2 = tree fs1 ∧ Logs {fs.iblock n} 0 fs r.2 ∧
        Undone n fs r.2 := by
  have hcopy := h.copy
  obtain ⟨h1, hren⟩ := h.update (d := { (fs.inode ip).din with nlink := 0 }) (by rw [hcopy.same])
    (by rw [hcopy.same]) (by rw [hcopy.same])
  have ht1 := hren.tree_setNlink (by rw [hcopy.same]) (by rw [hcopy.same]) (by rw [hcopy.same]) hcopy.typed
  generalize (fs.setDin ip { (fs.inode ip).din with nlink := 0 }).iupdate ip = fs2 at h1 hren ht1 ⊢
  have hz : (fs2.dinode n).type ≠ tFree ∧ (fs2.dinode n).nlink = 0 := by
    rw [hren.dinode, update_self, hcopy.same]
    exact ⟨hcopy.typed, rfl⟩
  refine h1.iunlockput.bind ?_
  rintro fs3 ⟨h3, hd3 | ⟨fs4, hd4, hfr, -⟩⟩
  · exfalso
    rw [← hd3.dinode] at hz
    exact h3.lasting n hz.1 hz.2 hsole
  · have htree3 : tree fs3 = tree fs1 := by
      rw [hfr.tree_free, tree_sameDisk hd4, ht1, htree]
      unfold Tree.free Tree.setNlink Tree.setEnts Tree.alloc tree
      simp [hfree]
    have hfirm3 := hfirm.of_tree htree3
    refine (h3.iunlockput_kept (hfirm3.lasting _ _)).bind ?_
    rintro fs5 ⟨h5, hd5⟩
    have hl := (hren.logs.tail hd4.logs).tail
      (by have := hfr.logs; rwa [hd4.logs (T := ∅) (k := 0) |>.iblock_sb, hren.logs.iblock_sb] at this)
    refine ⟨rfl, h5, (tree_sameDisk hd5).trans htree3, hl.tail hd5.logs, ?_, ?_, ?_⟩
    · rw [hd5.dinode]
      exact hfr.free
    · intro m hm
      rw [hd5.dinode, hfr.other m hm, hd4.dinode, hren.dinode, update_of_ne hm]
    · rw [hd5.data, hfr.data, hd4.data, hren.data]

/-- The end of a `create` that made the inode: the directory is let go. -/
theorem create_done (h : Busy fs0 (⟨ip, n, true⟩ :: [⟨dp, d, true⟩]) fs) {t : Tree} (hnd : n ≠ d)
    (htree : tree fs = (if ty = tDir then
          ((t.alloc n ty).addEntry n ⟨n, strncpy dot dirsiz⟩).addEntry n ⟨d, strncpy dotdot dirsiz⟩
          else t.alloc n ty).addEntry d ⟨n, strncpy name dirsiz⟩) :
    Post (do
        let fs ← (if ty = tDir then (fs.setDin dp { (fs.inode dp).din with
          nlink := (fs.inode dp).din.nlink + 1 }).iupdate dp else fs).iunlockput dp
        pure (some ip, fs)) Plain fun r =>
      r.1 = some ip ∧ Busy fs0 [⟨ip, n, true⟩] r.2 ∧ Logs {fs.iblock d} 0 fs r.2 ∧
      Reaped (t.created d n ty name) (tree r.2) := by
  have hcopy := h.swap.copy
  have hend : ∀ fs2, Busy fs0 (⟨dp, d, true⟩ :: [⟨ip, n, true⟩]) fs2 → Logs {fs.iblock d} 0 fs fs2 →
      tree fs2 = t.created d n ty name →
      Post (do
        let fs ← fs2.iunlockput dp
        pure (some ip, fs)) Plain fun r =>
      r.1 = some ip ∧ Busy fs0 [⟨ip, n, true⟩] r.2 ∧ Logs {fs.iblock d} 0 fs r.2 ∧
      Reaped (t.created d n ty name) (tree r.2) := by
    intro fs2 h2 hl2 ht2
    refine h2.iunlockput.bind ?_
    rintro fs3 ⟨h3, hd3⟩
    rw [← ht2]
    exact ⟨rfl, h3, hl2.drop hd3, (Reaped.refl _).drop hd3⟩
  by_cases hty : ty = tDir
  · rw [if_pos hty]
    have hlink : (fs.dinode d).nlink = t.nlink d := by
      rw [← tree_nlink hcopy.typed, htree]
      split <;> simp [Tree.addEntry, Tree.setEnts, Tree.alloc, Ne.symm hnd]
    obtain ⟨h2, hren⟩ := h.swap.update (d := { (fs.inode dp).din with nlink := (fs.inode dp).din.nlink + 1 })
      (by rw [hcopy.same]) (by rw [hcopy.same]) (by rw [hcopy.same])
    have ht2 := hren.tree_setNlink (by rw [hcopy.same]) (by rw [hcopy.same]) (by rw [hcopy.same]) hcopy.typed
    refine hend _ h2 hren.logs ?_
    rw [ht2, htree, hcopy.same, hlink, Tree.created, if_pos hty, if_pos hty]
  · rw [if_neg hty]
    refine hend fs h.swap (.refl _ _ _) ?_
    rw [htree, Tree.created, if_neg hty, if_neg hty]

/-- `create` of a name that is not there makes an inode or leaves the tree. -/
theorem createNew (h : Busy fs0 [⟨dp, d, true⟩] fs) (hfirm : Firm fs0 fs)
    (hdir : (fs.dinode d).type = tDir) (habs : ∀ de ∈ (tree fs).ents d, ¬ Matches name de)
    (hty : ty ≠ tFree) (major minor : Short) :
    Post (fs.createNew dp name ty major minor) (Tight fs0 2) fun r =>
      ∃ n, Logs {fs.iblock d, fs.iblock n} 6 fs r.2 ∧ (ty ≠ tDir → Tried (CannotAdd d fs) r.1 fs r.2) ∧
      (r.1 = none ∧ Busy fs0 [] r.2 ∧ tree r.2 = tree fs ∨
        ∃ ip, r.1 = some ip ∧ Busy fs0 [⟨ip, n, true⟩] r.2 ∧ Made d n ty name (tree fs) (tree r.2)) := by
  unfold Fs.createNew
  rw [h.sane.dev dp h.ref_pos]
  refine ((h.ialloc ty).imp (fun _ he => he.mono (Nat.le_succ 1)) fun _ hq => hq).bind ?_
  rintro ⟨new, fs1⟩ (⟨hr, hnone⟩ | ⟨ip, n, hr, hborn⟩)
  · cases hr
    refine ((h.iunlockput_kept (hfirm.lasting _ _)).mono fun _ => .inl).bind ?_
    rintro fs2 ⟨h2, hd2⟩
    exact ⟨d, hd2.logs, fun _ => ⟨fun _ => ⟨fun _ => .inl hnone, fun _ => hd2.filesKept⟩, nofun⟩,
      .inl ⟨rfl, h2, tree_sameDisk hd2⟩⟩
  · dsimp only at hr hborn
    subst hr
    have hnd : n ≠ d := by
      rintro rfl
      rw [hborn.free] at hdir
      exact absurd hdir (by decide)
    refine ((ilock_born hborn hty major minor).mono fun _ => .inl).bind ?_
    rintro fs2 ⟨h3, hren⟩
    dsimp only
    generalize (fs2.setDin ip { (fs2.inode ip).din with major := major, minor := minor, nlink := 1 }).iupdate
      ip = fs3 at h3 hren ⊢
    have ht3 := hren.tree_alloc hty
    have hl3 : Logs {fs.iblock d, fs.iblock n} 0 fs fs3 := hren.logs.mono (by simp) (Nat.le_refl _)
    refine (h3.createLinks name ty).bind ?_
    rintro ⟨ok, fs4⟩ ⟨h4, hl4, hent, hres⟩
    rw [hl3.iblock_sb, hl3.iblock_sb] at hl4
    have hl := hl3.trans hl4
    have hents : (tree fs3).ents d = (tree fs).ents d := by
      rw [ht3]
      simp [Tree.alloc, Ne.symm hnd]
    have hdty : (fs.dinode d).type ≠ tFree := by
      rw [hdir]
      decide
    have hroom : NoRoom d (direntSize * firstFree ((tree fs).ents d)) fs ↔ CannotAdd d fs :=
      ⟨.inr, fun hc => hc.resolve_left fun hno => hno n hborn.inside.1 hborn.inside.2 hborn.free⟩
    rw [hents] at hent
    rcases hres with ⟨rfl, es, ht4⟩ | ⟨rfl, ht4⟩
    · rw [ht3] at ht4
      refine (h4.create_undo hfirm ht4 hborn.free (h.sole_of_free hborn.free)).imp (fun _ he => .inl he) ?_
      rintro ⟨r, fs5⟩ ⟨rfl, h5, ht5, hl5, hund⟩
      rw [hl.iblock_sb] at hl5
      refine ⟨n, hl.trans (hl5.mono (by simp) (Nat.le_refl 0)), fun hne => ⟨fun _ => ?_, nofun⟩,
        .inl ⟨rfl, h5, ht5⟩⟩
      rw [← hroom]
      exact (hent hne habs).undone hren hund hnd hborn.free hdty ht5
    · rw [ht3] at ht4
      refine (h4.create_done hnd ht4).imp (fun _ he => .inl he) ?_
      rintro ⟨r, fs5⟩ ⟨rfl, h5, hl5, ht5⟩
      rw [hl.iblock_sb] at hl5
      have hn0 : n ≠ 0 := Nat.ne_of_gt hborn.inside.1
      have hsmall : n < 2 ^ 16 := Nat.lt_of_lt_of_le hborn.inside.2 h.sane.few
      refine ⟨n, hl.trans (hl5.mono (by simp) (Nat.le_refl 0)), fun hne => ⟨nofun, ?_⟩,
        .inr ⟨ip, rfl, h5, hn0, hsmall, hborn.free, hdir, habs, ht5⟩⟩
      rintro _ ⟨⟩
      refine .inr ⟨?_, ?_, ?_⟩
      · have hsame : fs3.dinode d = fs.dinode d := by
          rw [hren.dinode, update_of_ne (Ne.symm hnd)]
        rw [← hroom, ← noRoom_congr hsame hren.data hren.used hren.logs.sb]
        exact (hent hne habs).room rfl
      · rw [h5.inum_eq]
        exact hborn.free
      · rw [h5.inum_eq]
        have hlink := ht5.nlink (n := n) h5.copy.typed
        rw [tree_nlink h5.copy.typed] at hlink
        rw [hlink, Tree.created, if_neg hne]
        simp [Tree.addEntry, Tree.setEnts, Tree.alloc]

/-- `create` gives back no inode, one that was there, or a new one in the directory that the
path leads to. -/
theorem create (h : Busy fs0 [] fs) (hfirm : Firm fs0 fs) {cwd : Option Ip}
    (hcwd : ∀ e ∈ cwd, 0 < (fs0.inode e).ref) (path : List Byte) (hty : ty ≠ tFree)
    (major minor : Short) :
    Post (fs.create cwd path ty major minor) (Astray fs0 2 (tree fs)) fun r =>
      ∃ d n, Logs {fs.iblock d, fs.iblock n} 6 fs r.2 ∧
      (ty ≠ tDir → Tried (CannotMake (cwd.elim 0 fun e => (fs0.inode e).inum) path fs) r.1 fs r.2) ∧
      (r.1 = none ∧ Busy fs0 [] r.2 ∧ tree r.2 = tree fs ∨
        ∃ ip, r.1 = some ip ∧ Busy fs0 [⟨ip, n, true⟩] r.2 ∧
          (tree r.2 = tree fs ∧ ty = tFile ∧ ((tree fs).kind n = tFile ∨ (tree fs).kind n = tDevice) ∨
            ∃ name, (tree fs).resolve true (cwd.elim 0 fun e => (fs0.inode e).inum) path =
                some (d, name) ∧ Made d n ty name (tree fs) (tree r.2))) := by
  unfold Fs.create
  refine h.nameiparent_ilock hcwd path (fun _ he => he.mono (by decide)) (fun _ _ _ => rfl) ?_ ?_
  · intro fs1 hres h1 hd1
    refine ⟨0, 0, hd1.logs, fun _ => ⟨fun _ => ⟨fun _ => ?_, fun _ => hd1.filesKept⟩, nofun⟩,
      .inl ⟨rfl, h1, tree_sameDisk hd1⟩⟩
    intro d name hsome
    rw [hres] at hsome
    cases hsome
  · intro dp d name fs2 hres h2 hd2
    have ht2 := tree_sameDisk hd2
    refine ((h2.dirlookup name).imp (fun _ he => .inl (he.mono (by decide))) fun _ hq => hq).bind ?_
    rintro ⟨found, fs3⟩ ⟨hdir, ⟨hr, hno⟩ | ⟨ip, i, de, rfl, hf, h3, hd3⟩⟩
    · cases hr
      refine (h2.createNew (hfirm.of_sameDisk hd2) hdir hno hty major minor).imp (fun _ he => .inl he) ?_
      rintro ⟨r, fs4⟩ ⟨n, hl, htried, hcase⟩
      have hl' : Logs {fs.iblock d, fs.iblock n} 6 fs fs4 := by
        have hsb := hd2.logs (T := {fs.iblock d, fs.iblock n}) (k := 0)
        rw [hsb.iblock_sb, hsb.iblock_sb] at hl
        exact (hsb.trans hl).mono (Finset.Subset.refl _) (by decide)
      rw [ht2] at hcase hno
      refine ⟨d, n, hl', fun hne => (htried hne).of_sameDisk hd2 ?_, ?_⟩
      · simp only [CannotMake, hres, Option.some.injEq, Prod.mk.injEq]
        constructor
        · rintro hadd d' name' ⟨rfl, rfl⟩ -
          exact hadd
        · exact fun hadd => hadd d name ⟨rfl, rfl⟩ hno
      rcases hcase with hnone | ⟨ip, hr, h4, hmade⟩
      · exact .inl hnone
      · exact .inr ⟨ip, hr, h4, .inr ⟨name, hres, hmade⟩⟩
    · have hfirm3 := hfirm.of_sameDisk (hd2.trans hd3)
      have hthere : CannotMake (cwd.elim 0 fun e => (fs0.inode e).inum) path fs := by
        intro d' name' hsome habs
        obtain ⟨rfl, rfl⟩ : d = d' ∧ name = name' := by
          have := hres.symm.trans hsome
          simpa using this
        rw [ht2] at hf
        exact absurd hf.found (habs de hf.mem)
      refine ((h3.swap.iunlockput_kept (hfirm3.lasting _ _)).mono fun _ => .plain).bind ?_
      rintro fs4 ⟨h4, hd4⟩
      have hd4' := (hd2.trans hd3).trans hd4
      have ht4 := tree_sameDisk hd4'
      have hfree : (fs4.dinode de.inum).type = tFree → (tree fs4).Dangling := by
        intro hfr
        rw [ht2] at hf
        rw [ht4]
        rw [hd4'.dinode] at hfr
        exact Tree.dangling_of_first hf hfr
      have hlock := h4.ilock_astray 2 fun _ => hfree
      rw [ht4] at hlock
      refine hlock.bind ?_
      rintro fs5 ⟨h5, hd5⟩
      have hd5' := hd4'.trans hd5
      have hkind : (fs5.inode ip).din.type = (tree fs).kind de.inum := by
        rw [h5.copy.same, hd5'.dinode]
        rfl
      dsimp only
      split
      · rename_i ht
        rw [hkind] at ht
        refine ⟨d, de.inum, hd5'.logs, fun _ => ⟨nofun, fun _ _ => .inl ⟨hd5', hthere⟩⟩,
          .inr ⟨ip, rfl, h5, .inl ⟨tree_sameDisk hd5', ht⟩⟩⟩
      · refine ((h5.iunlockput_kept ((hfirm.of_sameDisk hd5').lasting _ _)).imp
          (fun _ he => .plain he) fun _ hq => hq).bind ?_
        rintro fs6 ⟨h6, hd6⟩
        have hd6' := hd5'.trans hd6
        exact ⟨d, de.inum, hd6'.logs, fun _ => ⟨fun _ => ⟨fun _ => hthere, fun _ => hd6'.filesKept⟩, nofun⟩,
          .inl ⟨rfl, h6, tree_sameDisk hd6'⟩⟩

end Busy

end Xv6Filter.Proofs
