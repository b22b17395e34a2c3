import Xv6Filter.Proofs.ForestSteps
import Xv6Filter.Proofs.Runs

namespace Xv6Filter.Proofs
open Lib

def Upheld (t : Tree) : Prop := ∀ c, t.kind c = tDir → t.kind (t.up c) = tDir ∧ t.nlink (t.up c) ≠ 0

namespace Upheld

open Forest

variable {t t' : Tree} {d j : Nat} {e : Fs.Dirent}

theorem toNat_ne_zero (h : Upheld t) (hc : t.kind c = tDir) : (t.nlink (t.up c)).toNat ≠ 0 :=
  fun h0 => (h c hc).2 (BitVec.eq_of_toNat_eq h0)

theorem gained (h : Upheld t) (hg : Gained d e t t') : Upheld t' := by
  have hlink : ∀ m, (t.nlink m).toNat ≠ 0 → t'.nlink m ≠ 0 := by
    intro m hm h0
    have := hg.nlink m
    rw [h0, show (0 : Short).toNat = 0 from rfl] at this
    omega
  intro c hc
  by_cases hce : c = e.inum
  · subst hce
    have hde : d ≠ e.inum := fun hd => hg.file (hd ▸ hg.dir)
    rw [hg.parent hc, hg.kind d hde]
    refine ⟨hg.dir, ?_⟩
    intro h0
    have := hg.nlink d
    rw [h0, show (0 : Short).toNat = 0 from rfl] at this
    simp only [hc, and_self, ↓reduceIte] at this
    omega
  · rw [hg.kind c hce] at hc
    have hup : t.up c ≠ e.inum := fun hu => hg.file (hu ▸ (h c hc).1)
    rw [hg.up c hce, hg.kind _ hup]
    exact ⟨(h c hc).1, hlink _ (h.toNat_ne_zero hc)⟩

/-- Losing an entry, where a directory that is lost is the parent of none that is left and
was not the last link of its own parent. -/
theorem lost (h : Upheld t) (hs : Lost d j e t t') (hf : Forest t)
    (hkeep : t.kind e.inum = tDir → t.nlink d ≠ 1 ∧ ∀ c, c ≠ e.inum → t.kind c = tDir → t.up c ≠ e.inum) :
    Upheld t' := by
  intro c hc
  rw [hs.kind] at hc ⊢
  rw [hs.up hf]
  refine ⟨(h c hc).1, ?_⟩
  intro h0
  have hl := hs.nlink (t.up c)
  rw [h0, show (0 : Short).toNat = 0 from rfl] at hl
  have hpos := h.toNat_ne_zero hc
  by_cases hup : t.up c = e.inum
  · have hk : t.kind e.inum = tDir := hup ▸ (h c hc).1
    have hce : c = e.inum := by
      by_contra hne
      exact (hkeep hk).2 c hne hc hup
    have hd := hf.parent d e hs.mem hk
    rw [← hce, hup] at hd
    exact (hs.dir_entry hf hk).1 hd
  · simp only [hup, ↓reduceIte, Nat.zero_add] at hl
    split at hl
    · rename_i hd
      refine (hkeep hd.2).1 ?_
      rw [← hd.1]
      exact BitVec.eq_of_toNat_eq hl.symm
    · exact hpos hl.symm

theorem pruned (h : Upheld t) (hp : Pruned x t t') : Upheld t' := by
  intro c hc
  have hcx := hp.ne_of_dir hc
  rw [hp.kind_ne hcx] at hc
  have hup : t.up c ≠ x := by
    intro hu
    exact (h c hc).2 (hu ▸ hp.unlinked)
  rw [hp.up hcx, hp.kind_ne hup, hp.nlink_ne hup]
  exact h c hc

theorem not_dangling (h : Upheld t) (hf : Forest t) : ¬ t.Dangling := by
  rintro (hroot | ⟨d, de, hde, h0, hfree⟩)
  · rw [hf.root] at hroot
    exact absurd hroot (by decide)
  · have hd : t.kind d = tDir := by
      by_contra hd
      rw [hf.plain d hd] at hde
      cases hde
    obtain ⟨a, b, rest, hes, ha, hb, -, -⟩ := (hf.dots d hd).2
    have hup : t.up d = b.inum := by
      unfold Tree.up
      rw [hes]
      rfl
    have hrest : t.rest d = rest := by
      unfold Tree.rest
      rw [hes]
      rfl
    rw [hes, List.mem_cons, List.mem_cons] at hde
    rcases hde with rfl | rfl | hde
    · rw [ha, hd] at hfree
      exact absurd hfree (by decide)
    · have := (h d hd).1
      rw [hup, hfree] at this
      exact absurd this (by decide)
    · exact hf.typed d de (hrest ▸ hde) h0 hfree

end Upheld

theorem Consistent.ents_length (h : Consistent k) (d : Nat) : ((tree k.fs).ents d).length ≤ maxEntries := by
  unfold tree
  dsimp only
  split
  · rename_i hd
    have hdense := h.inodes.settled.acct.dense d (by rw [hd]; decide)
    have hsize : (k.fs.dinode d).size ≤ maxfile * bsize := by
      by_contra hlt
      exact Nat.lt_irrefl _ (hdense maxfile (Nat.not_le.mp hlt)).1
    rw [length_entries]
    exact Nat.div_le_div_right hsize
  · simp

/-- The calls after which all parents are there: an `unlink` of a directory that no other
directory has for its "..", and that is not the last link of its own parent, and a `link`
that the count of links has room for. -/
def KeepsParents (k : Kernel) (e : Slot × Call) : Prop :=
  LinkRoom 0xFFFF (tree k.fs) (cwdInum k e.1) e.2 ∧
  match e.2 with
  | .unlink (some path) => ∀ r ∈ (tree k.fs).resolve true (cwdInum k e.1) path,
      ∀ n ∈ (tree k.fs).lookup r.1 r.2, (tree k.fs).kind n = tDir →
        (tree k.fs).nlink r.1 ≠ 1 ∧ ∀ c, c < k.fs.sb.ninodes → c ≠ n → (tree k.fs).kind c = tDir →
          (tree k.fs).up c ≠ n
  | _ => True

instance (k : Kernel) (e : Slot × Call) : Decidable (KeepsParents k e) :=
  match e with
  | (i, .unlink (some path)) => inferInstanceAs (Decidable (_ ∧ ∀ r ∈ (tree k.fs).resolve true (cwdInum k i) path,
      ∀ n ∈ (tree k.fs).lookup r.1 r.2, (tree k.fs).kind n = tDir →
        (tree k.fs).nlink r.1 ≠ 1 ∧ ∀ c, c < k.fs.sb.ninodes → c ≠ n → (tree k.fs).kind c = tDir →
          (tree k.fs).up c ≠ n))
  | (_, .unlink none) | (_, .link _) | (_, .opens ..) | (_, .dup _) | (_, .close _) | (_, .pipe ..)
  | (_, .read ..) | (_, .write ..) | (_, .fstat ..) | (_, .mkdir _) | (_, .mknod ..) | (_, .chdir _)
  | (_, .exec ..) | (_, .fork _) | (_, .exit _) | (_, .wait ..) | (_, .audit _) =>
    inferInstanceAs (Decidable (_ ∧ True))

structure Sturdy (k : Kernel) : Prop where
  consistent : Consistent k
  forest : Forest (tree k.fs)
  upheld : Upheld (tree k.fs)

theorem Sturdy.callStep (h : Sturdy k) (hok : KeepsParents k c) (hs : k.callStep c = some k') : Sturdy k' := by
  obtain ⟨i, c⟩ := c
  have hc := h.consistent.callStep hs
  have := h.forest.effect hc.effect h.consistent.ents_length hok.1 h.upheld
    (fun _ _ _ _ _ _ _ _ hg => h.upheld.gained hg) ?_ (fun _ _ _ _ hu hp => hu.pruned hp)
  · exact ⟨hc.coherent, this.1, this.2⟩
  · rintro path d name j e u rfl hres hlook hsh
    refine h.upheld.lost hsh h.forest ?_
    intro hk
    obtain ⟨hone, hother⟩ := hok.2 (d, name) hres e.inum hlook hk
    refine ⟨hone, fun c hce hcd => hother c ?_ hce hcd⟩
    exact (h.consistent.inodes.settled.numbered c (by rw [show (k.fs.dinode c).type = tDir from hcd]; decide)).2

theorem Started.sturdy (h : Started fs k) (hf : Forest (Proofs.tree fs)) (hu : Upheld (Proofs.tree fs)) :
    Sturdy k := by
  obtain ⟨hf', hu'⟩ := hf.reaped hu h.tree fun _ _ _ _ hu hp => hu.pruned hp
  exact ⟨h.consistent, hf', hu'⟩

/-- If every call keeps the parents, no entry of a directory is for a free inode, and no
call stops the kernel because it finds one. -/
theorem no_dangling_entries (hw : WellFormed fs) (hf : Forest (tree fs)) (hu : Upheld (tree fs))
    (hb : bootDisk fs = .ok k) (hr : Run Kernel.callStep KeepsParents k cs k') :
    (∀ d, ∀ de ∈ (tree k'.fs).ents d, de.inum ≠ 0 → (k'.fs.dinode de.inum).type ≠ tFree) ∧
    ∀ i c, k'.alive i = true → k'.Possible c → k'.perform i c ≠ .error (.panic .ilockNoType) := by
  have hk : Sturdy k' := hr.invariant Sturdy ((hw.started hb).sturdy hf hu)
    fun _ _ _ ht hok hs => ht.callStep hok hs
  have hno := hk.upheld.not_dangling hk.forest
  constructor
  · intro d de hde h0 hfree
    exact hno (.inr ⟨d, de, hde, h0, hfree⟩)
  · intro i c hi hc hrun
    exact hno (Failing.dangling ((hk.consistent.perform (present_of_alive hi) hc).of_error hrun))

theorem freshDisk_ents : (tree freshDisk).ents rootino =
    ⟨rootino, strncpy dot dirsiz⟩ :: ⟨rootino, strncpy dotdot dirsiz⟩ :: List.replicate 62 blankEntry := by
  decide +kernel

theorem freshDisk_kind (h : n ≠ rootino) : (tree freshDisk).kind n = tFree :=
  freshDisk_free h

theorem freshDisk_rest (d : Nat) : ∀ de ∈ (tree freshDisk).rest d, de.inum = 0 := by
  intro de hde
  by_cases hd : d = rootino
  · subst hd
    rw [Tree.rest, freshDisk_ents] at hde
    rw [List.eq_of_mem_replicate hde]
    rfl
  · simp [Tree.rest, tree, freshDisk, hd, Dinode.zero] at hde

theorem freshDisk_forest : Forest (tree freshDisk) := by
  have hnone : ∀ n, n ≠ 0 → (tree freshDisk).named n = 0 := by
    intro n hn
    by_contra h0
    obtain ⟨d, e, he, rfl⟩ := Tree.exists_of_named (Nat.pos_of_ne_zero h0)
    exact hn (freshDisk_rest d e he)
  have honly : ∀ {n}, (tree freshDisk).kind n ≠ tFree → n = rootino := by
    intro n hn
    by_contra hne
    exact hn (freshDisk_kind hne)
  have hdir : ∀ {n}, (tree freshDisk).kind n = tDir → n = rootino :=
    fun hn => honly (by rw [hn]; decide)
  have hzero : (tree freshDisk).kind 0 = tFree := freshDisk_kind (by decide)
  refine ⟨?_, ?_, ?_, ?_, ?_, ?_, ?_, ?_, ?_, ?_, by decide, hnone _ (by decide), ?_⟩
  · intro d hd
    rw [hdir hd, freshDisk_ents]
    exact ⟨by decide, _, _, _, rfl, rfl, by decide, by decide, by decide⟩
  · intro d hd
    have hne : d ≠ rootino := by
      rintro rfl
      exact hd (by decide)
    simp [tree, freshDisk, hne, Dinode.zero]
  · intro n hn
    rw [honly hn]
    decide
  · exact fun d de hde h0 => absurd (freshDisk_rest d de hde) h0
  · exact fun d de hde h0 => absurd (freshDisk_rest d de hde) h0
  · intro d de hde hk
    rw [freshDisk_rest d de hde, hzero] at hk
    exact absurd hk (by decide)
  · intro c hc
    rw [hdir hc, hnone _ (by decide)]
    omega
  · intro c hc
    have hsub : (tree freshDisk).subdirs rootino = 0 := by
      unfold Tree.subdirs
      rw [List.countP_eq_zero]
      intro de hde
      rw [freshDisk_rest _ de hde, hzero]
      decide
    rw [hdir hc, hnone _ (by decide), hsub]
    decide
  · intro n hn hnd
    rw [honly hn] at hnd
    exact absurd (by decide) hnd
  · intro n hn
    simp only [tree] at hn ⊢
    rw [if_pos hn]
  · unfold Tree.up
    rw [freshDisk_ents]
    rfl

theorem freshDisk_upheld : Upheld (tree freshDisk) := by
  intro c hc
  have hroot : c = rootino := by
    by_contra hne
    rw [freshDisk_kind hne] at hc
    exact absurd hc (by decide)
  rw [hroot, freshDisk_forest.top.2]
  decide

def removeCwd : List (Slot × Call) :=
  [(0, .mkdir (some (bytes ['a']))), (0, .chdir (some (bytes ['a']))), (0, .unlink (some (bytes ['/', 'a'])))]

/-- A process removes its current directory, which stays while it is there. -/
theorem no_dangling_entries_removeCwd :
    ∃ k k', bootDisk freshDisk = .ok k ∧ Run Kernel.callStep KeepsParents k removeCwd k' ∧
      ((k'.fs.dinode 2).type = tDir ∧ (k'.fs.dinode 2).nlink = 0 ∧ cwdInum k' 0 = 2) ∧
      ∀ d, ∀ de ∈ (tree k'.fs).ents d, de.inum ≠ 0 → (k'.fs.dinode de.inum).type ≠ tFree := by
  obtain ⟨k, k', hb, hr, hp⟩ : ∃ k k', bootDisk freshDisk = .ok k ∧
      Run Kernel.callStep KeepsParents k removeCwd k' ∧
      ((k'.fs.dinode 2).type = tDir ∧ (k'.fs.dinode 2).nlink = 0 ∧ cwdInum k' 0 = 2) :=
    boot_replay (by decide +kernel)
  exact ⟨k, k', hb, hr, hp,
    (no_dangling_entries freshDisk_wellFormed freshDisk_forest freshDisk_upheld hb hr).1⟩

def removeBoth : List (Slot × Call) :=
  [(0, .mkdir (some (bytes ['a']))), (0, .mkdir (some (bytes ['a', '/', 'b']))),
    (0, .chdir (some (bytes ['a', '/', 'b']))), (0, .unlink (some (bytes ['/', 'a', '/', 'b']))),
    (0, .unlink (some (bytes ['/', 'a'])))]

/-- The ".." of the inner directory is for a free inode, and looking it up stops the kernel. -/
theorem removeBoth_dangles :
    ∃ k k', bootDisk freshDisk = .ok k ∧ Run Kernel.callStep anyEvent k removeBoth k' ∧
      (k'.fs.dinode 3).type = tDir ∧ cwdInum k' 0 = 3 ∧
      (⟨2, strncpy dotdot dirsiz⟩ : Fs.Dirent) ∈ (tree k'.fs).ents 3 ∧ (k'.fs.dinode 2).type = tFree ∧
      k'.alive 0 = true ∧
      k'.perform 0 (.opens (some (bytes ['.', '.'])) 0) = .error (.panic .ilockNoType) := by
  obtain ⟨k, k', hb, hr, h1, h2, h3, h4, h5, h6⟩ : ∃ k k', bootDisk freshDisk = .ok k ∧
      Run Kernel.callStep anyEvent k removeBoth k' ∧
      ((k'.fs.dinode 3).type = tDir ∧ cwdInum k' 0 = 3 ∧
      (⟨2, strncpy dotdot dirsiz⟩ : Fs.Dirent) ∈ (tree k'.fs).ents 3 ∧ (k'.fs.dinode 2).type = tFree ∧
      k'.alive 0 = true ∧
      Fails (k'.perform 0 (.opens (some (bytes ['.', '.'])) 0)) (· = .panic .ilockNoType)) :=
    boot_replay (by decide +kernel)
  exact ⟨k, k', hb, hr, h1, h2, h3, h4, h5, h6.reason⟩

end Xv6Filter.Proofs
