import Xv6Filter.Proofs.Orphans

namespace Xv6Filter.Proofs
open Lib

def Tree.entryCount (t : Tree) (n : Nat) : Nat :=
  ∑ d ∈ Finset.range (2 ^ 16), (t.ents d).countP fun de => decide (de.inum = n)

def Modest (t : Tree) : Prop := ∀ n, t.kind n ≠ tFree → t.kind n ≠ tDir → t.named n < 2 ^ 15

def AllLinked (t : Tree) : Prop := ∀ d, t.kind d = tDir → t.nlink d ≠ 0

section Counts

open Forest

variable {t t' : Tree} {d j x : Nat} {e : Fs.Dirent}

theorem Modest.gained (h : Modest t) (hf : Forest t) (hg : Gained d e t t')
    (hroom : t.kind e.inum ≠ tFree → t.named e.inum + 1 < 2 ^ 15) : Modest t' := by
  intro n hn hnd
  have h0 := Nat.ne_of_gt ((hg.forest hf).small n hn).1
  rw [hg.named hf h0]
  by_cases hne : n = e.inum
  · subst hne
    by_cases hfree : t.kind e.inum = tFree
    · rw [hf.named_free hfree h0]
      simp
    · simpa using hroom hfree
  · rw [hg.kind n hne] at hn hnd
    simpa [Ne.symm hne] using h n hn hnd

theorem Modest.lost (h : Modest t) (hf : Forest t) (hl : Lost d j e t t') : Modest t' := by
  intro n hn hnd
  rw [hl.kind] at hn hnd
  have h1 := hl.named hf (Nat.ne_of_gt (hf.small n hn).1)
  have h2 := h n hn hnd
  omega

theorem Modest.pruned (h : Modest t) (hf : Forest t) (hp : Pruned x t t') : Modest t' := by
  intro n hn hnd
  have hnx := hp.ne_of_typed hn
  rw [hp.kind_ne hnx] at hn hnd
  have h1 := hp.named hf n
  have h2 := h n hn hnd
  omega

/-- With no removed directory left, every parent is a linked directory. -/
theorem AllLinked.upheld (h : AllLinked t) (hf : Forest t) (ht : Trim t) : Upheld t := by
  intro c hc
  have hup : t.kind (t.up c) = tDir := by
    rcases ht.named hf hc (h c hc) with rfl | hn
    · rw [hf.top.2]
      exact hc
    · obtain ⟨d, y, hy, rfl⟩ := Tree.exists_of_named hn
      rw [hf.parent d y hy hc]
      exact hf.dir_of_mem hy
  exact ⟨hup, h _ hup⟩

theorem entryCount_file (hf : Forest t) (hu : Upheld t) (hn : t.kind n ≠ tDir) :
    t.entryCount n = t.named n := by
  refine Finset.sum_congr rfl fun d _ => ?_
  by_cases hd : t.kind d = tDir
  · obtain ⟨a, b, rest, hes, ha, -, -, -⟩ := (hf.dots d hd).2
    have hrest : t.rest d = rest := by
      unfold Tree.rest
      rw [hes]
      rfl
    have hup : t.up d = b.inum := by
      unfold Tree.up
      rw [hes]
      rfl
    have hdn : ¬ d = n := fun he => hn (he ▸ hd)
    have hun : ¬ b.inum = n := fun he => hn (he ▸ hup ▸ (hu d hd).1)
    rw [hrest, hes]
    simp [ha, hdn, hun]
  · rw [Tree.rest, hf.plain d hd]
    rfl

theorem toInt_nlink (hf : Forest t) (ht : Trim t) (hm : Modest t) (hs : ∀ d, (t.ents d).length ≤ maxEntries)
    (hn : t.kind n ≠ tFree) : (t.nlink n).toInt = (t.nlink n).toNat := by
  have hlt : (t.nlink n).toNat < 2 ^ 15 := by
    by_cases hd : t.kind n = tDir
    · have := hf.nlink_dir_lt (hs n) hd
      omega
    · rw [← ht.exact n hn hd]
      exact hm n hn hd
  rw [BitVec.toInt_eq_toNat_cond, if_pos (by omega)]

theorem not_starved (hf : Forest t) (ht : Trim t) (hm : Modest t)
    (hs : ∀ d, (t.ents d).length ≤ maxEntries) : ¬ t.Starved := by
  rintro ⟨d, name, i, de, hp, hd, hfirst, hk, hlow⟩
  obtain ⟨j, -, hj⟩ := (hf.dots d hd).2.first_proper hp hfirst
  have hpos := Tree.named_pos (hf.lt_of_dir hd) (List.mem_of_getElem? hj)
  rw [toInt_nlink hf ht hm hs hk] at hlow
  have hle : t.named de.inum ≤ (t.nlink de.inum).toNat := by
    by_cases hdir : t.kind de.inum = tDir
    · have := hf.dirs _ hdir
      omega
    · exact hf.files _ hk hdir
  omega

end Counts

def RootOnly (fs : Fs) : Prop :=
  ∀ e, 0 < (fs.inode e).ref → (fs.dinode (fs.inode e).inum).type = tDir → (fs.inode e).inum = rootino

theorem RootOnly.remaining (h : RootOnly fs) (hr : Remaining fs fs') : RootOnly fs' := by
  intro e hpos hd
  obtain ⟨hpos0, hn, ht⟩ := hr e hpos
  rw [hn] at hd ⊢
  exact h e hpos0 (ht ▸ hd)

theorem RootOnly.busy (h : RootOnly fs) (hb : Busy fs hs fs')
    (hd : ∀ t ∈ hs, (fs'.dinode t.inum).type ≠ tDir) : RootOnly fs' := by
  intro e hpos hk
  by_cases h0 : 0 < (fs.inode e).ref
  · rw [hb.inum e h0] at hk ⊢
    exact h e h0 (hb.type e h0 ▸ hk)
  · have hrefs := hb.refs e
    have hcount : 0 < hs.countP fun t => decide (t.ip = e) := by omega
    obtain ⟨t, ht, he⟩ := List.countP_pos_iff.mp hcount
    simp only [decide_eq_true_eq] at he
    subst he
    rw [(hb.holds t ht).1] at hk
    exact absurd hk (hd t ht)

/-- The calls that make and remove names, and those that work on descriptors and processes
only. -/
def Call.names : Call → Bool
  | .opens _ omode => decide (omode &&& oCreate ≠ 0)
  | .mkdir _ | .mknod .. | .link _ | .unlink _ | .dup _ | .close _ | .fork _ | .exit _ | .wait .. => true
  | _ => false

theorem Consistent.rootOnly (h : Consistent k) (hp : Present k i) (hroot : RootOnly k.fs)
    (hc : Call.names c = true) : Post (k.perform i c) (fun _ => True) fun r => RootOnly r.2.fs := by
  have hb := Busy.begin h.inodes.settled
  have honFs : ∀ {x E P} {r : Kern (Bool × Fs)}, (Post r E fun r => Finished k.fs k.fs x P r.2) →
      Post (k.onFs r) (fun _ => True) fun r => RootOnly r.2.fs := by
    intro x E P r hr
    unfold Kernel.onFs
    split
    · trivial
    · exact hroot.remaining (Finished.busy hr).remaining
  cases c with
  | opens path omode =>
    have hmode : omode ≠ oRdonly := by
      rintro rfl
      cases hc
    cases path with
    | none => exact hroot
    | some path =>
      refine (h.openPath hp path omode).imp (fun _ _ => trivial) ?_
      rintro r ⟨-, -, ⟨hs, hbusy, hd⟩, -⟩
      exact hroot.busy hbusy fun t ht hk => hmode (hd t ht hk)
  | close fd =>
    refine (h.sysClose hp fd).imp (fun _ _ => trivial) ?_
    rintro r ⟨-, -, hrem, -⟩
    exact hroot.remaining hrem
  | link paths =>
    cases paths with
    | none => exact hroot
    | some paths => exact honFs (hb.linkPath (h.cwd_ref i) paths.1 paths.2)
  | unlink path =>
    cases path with
    | none => exact hroot
    | some path => exact honFs (hb.unlinkPath (h.cwd_ref i) path)
  | mkdir path =>
    cases path with
    | none => exact hroot
    | some path =>
      exact honFs (hb.makeNode h.firm (h.cwd_ref i) path (by decide) (by decide) 0 0)
  | mknod path major minor =>
    cases path with
    | none => exact hroot
    | some path =>
      exact honFs (hb.makeNode h.firm (h.cwd_ref i) path (by decide) (by decide) (major.setWidth 16)
        (minor.setWidth 16))
  | dup fd =>
    refine (h.sysDup hp fd).imp (fun _ _ => trivial) ?_
    rintro r ⟨-, hfs⟩
    exact hfs ▸ hroot
  | fork mem =>
    refine (h.kfork hp mem).imp (fun _ _ => trivial) ?_
    rintro r ⟨-, -, hrem⟩
    exact hroot.remaining hrem
  | exit status =>
    refine Post.map ((h.kexit hp status).imp (fun _ _ => trivial) ?_)
    rintro k' ⟨-, -, hrem, -⟩
    exact hroot.remaining hrem
  | wait addr copied =>
    refine (h.kwait addr copied).imp (fun _ _ => trivial) ?_
    rintro r ⟨-, hfs⟩
    exact hfs ▸ hroot
  | pipe _ _ | read _ _ _ _ | write _ _ _ _ | fstat _ _ | chdir _ | exec _ _ _ | audit _ => cases hc

structure Numbered (k : Kernel) : Prop where
  tracked : Tracked k
  modest : Modest (tree k.fs)
  rootOnly : RootOnly k.fs

theorem Numbered.allLinked (h : Numbered k) : AllLinked (tree k.fs) := by
  intro d hd hz
  have htype : (k.fs.dinode d).type = tDir := hd
  have hfree : (k.fs.dinode d).type ≠ tFree := by
    rw [htype]
    decide
  rw [tree_nlink hfree] at hz
  obtain ⟨e, hr, rfl, -⟩ := h.tracked.consistent.inodes.settled.held d hfree hz
  have hroot := h.rootOnly e hr htype
  refine (h.tracked.forest.unlinked (x := (k.fs.inode e).inum) hfree ?_).2.1 hroot
  rw [tree_nlink hfree]
  exact hz

/-- A call of a process in the root directory that makes or removes names, and finds room
for its link in a signed short. -/
def NamesFromRoot (k : Kernel) (e : Slot × Call) : Prop :=
  (cwdInum k e.1 = rootino ∧ Call.names e.2 = true) ∧ LinkRoom 0x7FFF (tree k.fs) (cwdInum k e.1) e.2

instance (k : Kernel) (e : Slot × Call) : Decidable (NamesFromRoot k e) :=
  inferInstanceAs (Decidable (_ ∧ _))

/-- Below the largest signed short there is room in an unsigned one. -/
theorem Numbered.linkRoom (h : Numbered k) (cwd : Nat) (c : Call) : LinkRoom 0xFFFF (tree k.fs) cwd c := by
  have hsmall : ∀ n, (tree k.fs).nlink n ≠ 0xFFFF := by
    intro n hn
    by_cases hfree : (tree k.fs).kind n = tFree
    · rw [h.tracked.forest.unused n hfree] at hn
      exact absurd hn (by decide)
    · have := toInt_nlink h.tracked.forest h.tracked.trim h.modest h.tracked.consistent.ents_length hfree
      rw [hn] at this
      exact absurd this (by decide)
  unfold LinkRoom
  split
  · exact fun r _ => hsmall r.1
  · trivial

theorem Numbered.callStep (h : Numbered k) (hok : NamesFromRoot k c) (hs : k.callStep c = some k') :
    Numbered k' := by
  obtain ⟨i, c⟩ := c
  have hk := h.tracked
  have hc := hk.consistent.callStep hs
  obtain ⟨hf', ht', hm'⟩ := hk.forest.effect (P := fun t => Trim t ∧ Modest t) hc.effect
    hk.consistent.ents_length (h.linkRoom _ _) ⟨hk.trim, h.modest⟩
    (by
      intro path d name e u henter hres hold hg
      refine ⟨hk.trim.gained hk.forest hg (h.allLinked d hg.dir), h.modest.gained hk.forest hg ?_⟩
      intro hne
      rcases hold with hfree | ⟨old, new, nm, rfl, hold⟩
      · exact absurd hfree hne
      · have hroom : (tree k.fs).nlink e.inum ≠ 0x7FFF := hok.2 _ hold
        have hlt := h.modest _ hne hg.file
        have hex := hk.trim.exact _ hne hg.file
        have : (tree k.fs).named e.inum ≠ 2 ^ 15 - 1 := by
          intro heq
          refine hroom (BitVec.eq_of_toNat_eq ?_)
          rw [← hex, heq]
          rfl
        omega)
    (fun _ _ _ _ _ _ _ _ _ hl => ⟨hk.trim.lost hk.forest hl, h.modest.lost hk.forest hl⟩)
    (fun _ _ _ hf hu hp => ⟨hu.1.pruned hf hp, hu.2.pruned hf hp⟩)
  refine ⟨⟨hc.coherent, hf', ht'⟩, hm', ?_⟩
  unfold Kernel.callStep at hs
  split at hs
  · rename_i hposs
    have hroot := hk.consistent.rootOnly (present_of_alive hposs.1) h.rootOnly hok.1.2
    dsimp only at hs hroot
    cases hrun : k.perform i c with
    | error why =>
      rw [hrun] at hs
      cases hs
    | ok r =>
      rw [hrun] at hs
      cases hs
      exact hroot.of_ok hrun
  · cases hs

/-- If no link is made to an inode that has as many as a signed short can tell, the count
of links of every file is the number of entries that name it, no entry is for a free
inode, and `unlink` never finds too few links. -/
theorem link_counts_exact (hw : WellFormed fs) (hf : Forest (tree fs)) (ht : Trim (tree fs))
    (hm : Modest (tree fs)) (hb : bootDisk fs = .ok k) (hr : Run Kernel.callStep NamesFromRoot k cs k') :
    (∀ n, (k'.fs.dinode n).type ≠ tFree → (k'.fs.dinode n).type ≠ tDir →
      (k'.fs.dinode n).nlink.toInt = (tree k'.fs).entryCount n) ∧
    (∀ d, ∀ de ∈ (tree k'.fs).ents d, de.inum ≠ 0 → (k'.fs.dinode de.inum).type ≠ tFree) ∧
    ∀ i c, k'.alive i = true → k'.Possible c → k'.perform i c ≠ .error (.panic .unlinkNlink) := by
  have hst := hw.started hb
  obtain ⟨hf0, ht0, hm0⟩ := hf.reaped (P := fun t => Trim t ∧ Modest t) ⟨ht, hm⟩ hst.tree
    fun _ _ _ hf hu hp => ⟨hu.1.pruned hf hp, hu.2.pruned hf hp⟩
  have hk : Numbered k' := hr.invariant Numbered
    ⟨⟨hst.consistent, hf0, ht0⟩, hm0, fun e he _ => hst.held e he⟩
    fun _ _ _ ht hok hs => ht.callStep hok hs
  have hup := hk.allLinked.upheld hk.tracked.forest hk.tracked.trim
  have hshort := hk.tracked.consistent.ents_length
  refine ⟨?_, ?_, ?_⟩
  · intro n hn hnd
    rw [entryCount_file hk.tracked.forest hup hnd, hk.tracked.trim.exact n hn hnd,
      ← toInt_nlink hk.tracked.forest hk.tracked.trim hk.modest hshort hn, tree_nlink hn]
  · intro d de hde h0 hfree
    exact hup.not_dangling hk.tracked.forest (.inr ⟨d, de, hde, h0, hfree⟩)
  · intro i c hi hc hrun
    have hstarved := Failing.starved ((hk.tracked.consistent.perform (present_of_alive hi) hc).of_error hrun)
    exact not_starved hk.tracked.forest hk.tracked.trim hk.modest hshort hstarved

def linkAndRename : List (Slot × Call) :=
  [(0, .opens (some (bytes ['a'])) 0x202), (0, .fork .enough), (1, .link (some (bytes ['a'], bytes ['b']))),
    (1, .mkdir (some (bytes ['d']))), (0, .link (some (bytes ['b'], bytes ['d', '/', 'c']))),
    (1, .unlink (some (bytes ['a'])))]

/-- A file that has two of its three names left, and a directory. -/
theorem link_counts_exact_linkAndRename :
    ∃ k k', bootDisk freshDisk = .ok k ∧ Run Kernel.callStep NamesFromRoot k linkAndRename k' ∧
      ((k'.fs.dinode 2).type = tFile ∧ (k'.fs.dinode 2).nlink = 2 ∧ (k'.fs.dinode 3).type = tDir) ∧
      ∀ n, (k'.fs.dinode n).type ≠ tFree → (k'.fs.dinode n).type ≠ tDir →
        (k'.fs.dinode n).nlink.toInt = (tree k'.fs).entryCount n := by
  obtain ⟨k, k', hb, hr, hp⟩ : ∃ k k', bootDisk freshDisk = .ok k ∧
      Run Kernel.callStep NamesFromRoot k linkAndRename k' ∧
      ((k'.fs.dinode 2).type = tFile ∧ (k'.fs.dinode 2).nlink = 2 ∧ (k'.fs.dinode 3).type = tDir) :=
    boot_replay (by decide +kernel)
  refine ⟨k, k', hb, hr, hp,
    (link_counts_exact freshDisk_wellFormed freshDisk_forest freshDisk_trim ?_ hb hr).1⟩
  intro n hn hnd
  have hroot : n = rootino := by
    by_contra hne
    exact hn (freshDisk_kind hne)
  subst hroot
  exact absurd freshDisk_forest.root hnd

def packedEntry (m d i : Nat) : Fs.Dirent :=
  if i = 0 then ⟨d, strncpy dot dirsiz⟩
  else if i = 1 then ⟨rootino, strncpy dotdot dirsiz⟩
  else if i < m + 2 then
    ⟨2, strncpy [110, UInt8.ofNat (97 + i / 1024 % 32), UInt8.ofNat (97 + i / 32 % 32),
      UInt8.ofNat (97 + i % 32)] dirsiz⟩
  else blankEntry

def packedBase (d : Nat) : Nat := 10 + (d - 3) * nslots

def packedBlock (m d s : Nat) : Block :=
  if s = ndirect then fun o => UInt8.ofNat ((packedBase d + (o / 4 + (ndirect + 1))) / 256 ^ (o % 4))
  else fun o => (packedEntry m d ((if s < ndirect then s else s - 1) * (bsize / direntSize) +
    o / direntSize)).encode.getD (o % direntSize) 0

def crowdedRoot : List Fs.Dirent :=
  [⟨rootino, strncpy dot dirsiz⟩, ⟨rootino, strncpy dotdot dirsiz⟩, ⟨2, strncpy (bytes ['f']) dirsiz⟩,
    ⟨3, strncpy (bytes ['a']) dirsiz⟩, ⟨4, strncpy (bytes ['b']) dirsiz⟩]

/-- An image with a file, inode 2, that has one name in the root and `m` in each of two
directories of the largest size. -/
def crowdedDisk (m : Nat) : Fs where
  sb := ⟨1000, 16, 4, 2, 6, 8⟩
  used := fun b => decide (b < 10 + 2 * nslots)
  dinode := fun n =>
    if n = rootino then ⟨tDir, 0, 0, 3, 5 * direntSize, fun i => if i = 0 then 9 else 0⟩
    else if n = 2 then ⟨tFile, 0, 0, BitVec.ofNat 16 (2 * m + 1), 0, fun _ => 0⟩
    else if n = 3 ∨ n = 4 then ⟨tDir, 0, 0, 1, maxfile * bsize, fun i => packedBase n + i⟩
    else .zero
  data := fun b =>
    if b = 9 then fun o => (crowdedRoot.flatMap Fs.Dirent.encode).getD o 0
    else packedBlock m (3 + (b - 10) / nslots) ((b - 10) % nslots)
  inode := fun _ => ⟨0, 0, 0, false, false, .zero⟩
  logged := []

theorem word_table (f : Nat → Nat) (i : Nat) (hf : f i < 2 ^ 32) :
    word (fun o => UInt8.ofNat (f (o / 4) / 256 ^ (o % 4))) i = f i := by
  have heq : (fun o => UInt8.ofNat (f (o / 4) / 256 ^ (o % 4))) =
      setWord (fun o => UInt8.ofNat (f (o / 4) / 256 ^ (o % 4))) i (f i) := by
    funext o
    unfold setWord
    split
    · rename_i ho
      rw [ho]
    · rfl
  rw [heq, word_setWord, Nat.mod_eq_of_lt hf]

section Packed

variable {m d s : Nat}

theorem crowdedDisk_data (hd : d = 3 ∨ d = 4) (hs : s < nslots) :
    (crowdedDisk m).data (packedBase d + s) = packedBlock m d s := by
  have h9 : packedBase d + s ≠ 9 := by
    unfold packedBase
    omega
  have hdiv : 3 + (packedBase d + s - 10) / nslots = d ∧ (packedBase d + s - 10) % nslots = s := by
    simp only [packedBase, nslots, ndirect, nindirect, bsize] at *
    omega
  simp only [crowdedDisk, if_neg h9, hdiv.1, hdiv.2]

theorem crowdedDisk_dinode (hd : d = 3 ∨ d = 4) : (crowdedDisk m).dinode d =
    ⟨tDir, 0, 0, 1, maxfile * bsize, fun i => packedBase d + i⟩ := by
  have h1 : d ≠ rootino ∧ d ≠ 2 := by
    rcases hd with rfl | rfl <;> decide
  simp only [crowdedDisk, if_neg h1.1, if_neg h1.2, if_pos hd]

theorem crowdedDisk_slotAddr (hd : d = 3 ∨ d = 4) (hs : s < nslots) :
    slotAddr (crowdedDisk m).data ((crowdedDisk m).dinode d) s = packedBase d + s := by
  rw [crowdedDisk_dinode hd]
  unfold slotAddr
  split
  · rfl
  rename_i hlt
  have hind : packedBase d + ndirect ≠ 0 := by
    unfold packedBase
    omega
  dsimp only
  rw [if_neg hind, crowdedDisk_data hd (by decide)]
  unfold packedBlock
  have hbase : packedBase d < 2 ^ 31 := by
    simp only [packedBase, nslots, ndirect, nindirect, bsize] at *
    omega
  have hsmall : s < 2 ^ 30 := by
    simp only [nslots, ndirect, nindirect, bsize] at *
    omega
  rw [if_pos rfl, word_table (fun j => packedBase d + (j + (ndirect + 1))) _ (by omega)]
  omega

theorem crowdedDisk_direntAt (hd : d = 3 ∨ d = 4) (hi : i < maxEntries) :
    direntAt (crowdedDisk m).data ((crowdedDisk m).dinode d) i = packedEntry m d i := by
  have hlen : (packedEntry m d i).encode.length = direntSize := by
    unfold packedEntry blankEntry Fs.Dirent.encode
    split
    · simp [length_strncpy, direntSize, dirsiz]
    · split
      · simp [length_strncpy, direntSize, dirsiz]
      · split <;> simp [length_strncpy, direntSize, dirsiz]
  have hnum : (packedEntry m d i).inum < 2 ^ 16 := by
    unfold packedEntry blankEntry
    split
    · dsimp only
      omega
    · split
      · simp [rootino]
      · split <;> simp
  unfold direntAt
  have hbytes : (List.range direntSize).map
      (fun j => byteAt (crowdedDisk m).data ((crowdedDisk m).dinode d) (direntSize * i + j)) =
      (packedEntry m d i).encode := by
    apply List.ext_getElem
    · simp [hlen]
    intro j hj _
    have hj : j < direntSize := by simpa using hj
    have hq : (direntSize * i + j) / bsize = i / (bsize / direntSize) ∧
        (direntSize * i + j) % bsize = direntSize * (i % (bsize / direntSize)) + j := by
      simp only [direntSize, bsize] at *
      omega
    have hslot : slotOf (i / (bsize / direntSize)) < nslots := by
      simp only [slotOf, nslots, maxEntries, maxfile, ndirect, nindirect, bsize, direntSize] at *
      split <;> omega
    have hne : slotOf (i / (bsize / direntSize)) ≠ ndirect := by
      unfold slotOf
      split <;> omega
    have hback : (if slotOf (i / (bsize / direntSize)) < ndirect then slotOf (i / (bsize / direntSize))
        else slotOf (i / (bsize / direntSize)) - 1) = i / (bsize / direntSize) := by
      by_cases hlt : i / (bsize / direntSize) < ndirect
      · simp [slotOf, hlt]
      · rw [slotOf, if_neg hlt, if_neg (by omega)]
        omega
    have hent : i / (bsize / direntSize) * (bsize / direntSize) +
        (direntSize * (i % (bsize / direntSize)) + j) / direntSize = i ∧
        (direntSize * (i % (bsize / direntSize)) + j) % direntSize = j := by
      simp only [direntSize, bsize] at *
      omega
    rw [List.getElem_map, List.getElem_range, byteAt, hq.1, hq.2, crowdedDisk_slotAddr hd hslot,
      crowdedDisk_data hd hslot, packedBlock, if_neg hne, hback, hent.1, hent.2]
    simp [List.getD_eq_getElem?_getD, hlen, hj]
  rw [hbytes]
  exact decode_encode hnum _

theorem placed_crowdedDisk (m n s : Nat) : placed (crowdedDisk m).data (crowdedDisk m).dinode (n, s) =
    if n = rootino ∧ s = 0 then 9 else if (n = 3 ∨ n = 4) ∧ s < nslots then packedBase n + s else 0 := by
  by_cases hd : n = 3 ∨ n = 4
  · have hr : n ≠ rootino := by
      rcases hd with rfl | rfl <;> decide
    have ht : ((crowdedDisk m).dinode n).type ≠ tFree := by
      rw [crowdedDisk_dinode hd]
      simp
    by_cases hs : s < nslots
    · rw [placed_pos hs ht, crowdedDisk_slotAddr hd hs]
      simp [hr, hd, hs]
    · simp [placed, hr, hs]
  · by_cases hr : n = rootino
    · subst hr
      by_cases hs : s = 0
      · subst hs
        rfl
      · have : ndirect ≠ 0 := by decide
        simp [placed, slotAddr, crowdedDisk, hs, this]
    · by_cases h2 : n = 2
      · subst h2
        simp [placed, slotAddr, crowdedDisk, rootino]
      · simp [placed, crowdedDisk, hd, hr, h2, Dinode.zero]

theorem crowdedDisk_place (h : placed (crowdedDisk m).data (crowdedDisk m).dinode x = b) (hb : b ≠ 0) :
    x = (rootino, 0) ∧ b = 9 ∨ (x.1 = 3 ∨ x.1 = 4) ∧ x.2 < nslots ∧ b = packedBase x.1 + x.2 := by
  obtain ⟨n, s⟩ := x
  rw [placed_crowdedDisk] at h
  split at h
  · rename_i h1
    exact .inl ⟨by rw [h1.1, h1.2], h.symm⟩
  · split at h
    · rename_i h₂
      exact .inr ⟨h₂.1, h₂.2, h.symm⟩
    · exact absurd h.symm hb

theorem crowdedDisk_kind (m n : Nat) : ((crowdedDisk m).dinode n).type =
    if n = rootino ∨ n = 3 ∨ n = 4 then tDir else if n = 2 then tFile else tFree := by
  simp only [crowdedDisk]
  by_cases hr : n = rootino
  · simp [hr]
  · by_cases h2 : n = 2
    · subst h2
      simp [rootino]
    · by_cases hd : n = 3 ∨ n = 4
      · simp [hr, h2, hd]
      · simp [hr, h2, hd, Dinode.zero]

/-- A file with `m` names in each of two directories makes a well-formed image. -/
theorem crowdedDisk_wellFormed (m : Nat) : WellFormed (crowdedDisk m) where
  acct := by
    have hplace := placed_crowdedDisk m
    refine ⟨⟨⟨?_, ?_, ?_, ?_, by simp [InData, dataStart]⟩, ?_, by simp [crowdedDisk]⟩, ?_⟩
    · intro x hx
      simp only [crowdedDisk, decide_eq_true_eq] at hx ⊢
      rcases crowdedDisk_place rfl hx with ⟨rfl, h1⟩ | ⟨h1, h₂, h₃⟩
      all_goals
        simp only [crowdedDisk, packedBase, nslots, ndirect, nindirect, bsize] at *
        omega
    · intro x hx
      rcases crowdedDisk_place rfl hx with ⟨rfl, h1⟩ | ⟨h1, h₂, h₃⟩
      all_goals
        simp only [InData, dataStart, bpb, crowdedDisk, packedBase, nslots, ndirect, nindirect, bsize] at *
        omega
    · intro x y hx hxy
      rcases crowdedDisk_place rfl hx with ⟨rfl, h1⟩ | ⟨h1, h₂, h₃⟩ <;>
        rcases crowdedDisk_place hxy.symm hx with ⟨rfl, h1'⟩ | ⟨h1', h2', h3'⟩
      · rfl
      · simp only [packedBase] at *
        omega
      · simp only [packedBase] at *
        omega
      · simp only [packedBase, nslots, ndirect, nindirect, bsize] at *
        exact Prod.ext (by omega) (by omega)
    · intro b hb hu
      simp only [InData, dataStart, crowdedDisk, bpb, bsize, decide_eq_true_eq, nslots, ndirect,
        nindirect] at hb hu
      by_cases h9 : b = 9
      · exact ⟨(rootino, 0), by rw [hplace, if_pos ⟨rfl, rfl⟩, h9]⟩
      · refine ⟨(3 + (b - 10) / nslots, (b - 10) % nslots), ?_⟩
        rw [hplace]
        simp only [packedBase, nslots, ndirect, nindirect, bsize, rootino]
        rw [if_neg (by omega), if_pos (by omega)]
        omega
    · intro b hb
      simp only [dataStart, crowdedDisk, bpb, bsize, decide_eq_true_eq] at hb ⊢
      omega
    · intro n ht bn hbn
      by_cases hd : n = 3 ∨ n = 4
      · have hlt : bn < maxfile := by
          rw [crowdedDisk_dinode hd] at hbn
          exact Nat.lt_of_mul_lt_mul_right hbn
        refine ⟨hlt, ?_⟩
        rw [crowdedDisk_slotAddr hd]
        · unfold packedBase
          omega
        · simp only [slotOf, nslots, maxfile, ndirect, nindirect, bsize] at *
          split <;> omega
      · by_cases hr : n = rootino
        · subst hr
          have h0 : bn = 0 := by
            simp only [crowdedDisk, ↓reduceIte, bsize, direntSize] at hbn
            omega
          subst h0
          exact ⟨by decide, by simp [crowdedDisk, slotAddr, slotOf]⟩
        · by_cases h2 : n = 2
          · subst h2
            simp [crowdedDisk, rootino] at hbn
          · rw [crowdedDisk_kind] at ht
            simp [hr, h2, hd] at ht
  aligned := by
    intro n _
    by_cases hd : n = 3 ∨ n = 4
    · rw [crowdedDisk_dinode hd]
      have hsize : maxfile * bsize % direntSize = 0 := by decide
      exact hsize
    · by_cases hr : n = rootino
      · subst hr
        simp [crowdedDisk, direntSize]
      · by_cases h2 : n = 2
        · subst h2
          rfl
        · simp [crowdedDisk, hr, h2, hd, Dinode.zero]
  numbered := by
    intro n ht
    rw [crowdedDisk_kind] at ht
    simp only [crowdedDisk, rootino] at ht ⊢
    split at ht
    · omega
    · split at ht
      · omega
      · exact absurd rfl ht
  few := by simp [crowdedDisk]
  root := by
    rw [crowdedDisk_kind]
    simp
  unread := fun _ => rfl

end Packed

section Tree

variable {m : Nat}

theorem crowdedDisk_root (m : Nat) : (tree (crowdedDisk m)).ents rootino = crowdedRoot := by
  have ht : ((crowdedDisk m).dinode rootino).type = tDir := by
    rw [crowdedDisk_kind]
    rfl
  have hblock : ∀ o, o < bsize → byteAt (crowdedDisk m).data ((crowdedDisk m).dinode rootino) o =
      (crowdedRoot.flatMap Fs.Dirent.encode).getD o 0 := by
    intro o ho
    simp [byteAt, slotOf, slotAddr, crowdedDisk, Nat.div_eq_of_lt ho, Nat.mod_eq_of_lt ho]
  have hent : ∀ i, i < 5 → direntAt (crowdedDisk m).data ((crowdedDisk m).dinode rootino) i =
      Fs.Dirent.decode ((List.range direntSize).map fun j =>
        (crowdedRoot.flatMap Fs.Dirent.encode).getD (direntSize * i + j) 0) := by
    intro i hi
    unfold direntAt
    refine congrArg _ (List.map_congr_left fun j hj => hblock _ ?_)
    have := List.mem_range.mp hj
    simp only [direntSize, bsize] at *
    omega
  have hsize : ((crowdedDisk m).dinode rootino).size / direntSize = 5 := by
    simp [crowdedDisk, direntSize]
  rw [tree_ents ht, entries, hsize, List.map_congr_left fun i hi => hent i (List.mem_range.mp hi)]
  decide +kernel

theorem crowdedDisk_ents (hd : d = 3 ∨ d = 4) : (tree (crowdedDisk m)).ents d =
    ⟨d, strncpy dot dirsiz⟩ :: ⟨rootino, strncpy dotdot dirsiz⟩ ::
      (List.range (maxEntries - 2)).map fun i => packedEntry m d (i + 2) := by
  have ht : ((crowdedDisk m).dinode d).type = tDir := by rw [crowdedDisk_dinode hd]
  rw [tree_ents ht, entries]
  have hlen : ((crowdedDisk m).dinode d).size / direntSize = maxEntries := by rw [crowdedDisk_dinode hd]
  rw [hlen, List.map_congr_left fun i hi => crowdedDisk_direntAt hd (List.mem_range.mp hi)]
  have hsucc : maxEntries = maxEntries - 2 + 1 + 1 := by decide
  rw [hsucc, List.range_succ_eq_map, List.range_succ_eq_map]
  simp [packedEntry, Function.comp_def]

theorem crowdedDisk_plain (hd : ¬ (d = rootino ∨ d = 3 ∨ d = 4)) : (tree (crowdedDisk m)).ents d = [] := by
  simp only [tree]
  rw [if_neg]
  rw [crowdedDisk_kind, if_neg hd]
  split <;> decide

theorem crowdedDisk_rest (hd : d = 3 ∨ d = 4) (he : e ∈ (tree (crowdedDisk m)).rest d) :
    e.inum = 0 ∨ e.inum = 2 ∧ Tree.Proper e.name := by
  rw [Tree.rest, crowdedDisk_ents hd] at he
  obtain ⟨i, -, rfl⟩ := List.mem_map.mp he
  unfold packedEntry
  rw [if_neg (by omega), if_neg (by omega)]
  split
  · refine .inr ⟨rfl, Tree.Proper.strncpy ?_⟩
    have hdot : nameKey dot = [46] := by decide
    have hdots : nameKey dotdot = [46, 46] := by decide
    constructor <;> rw [ne_eq, namecmp_eq_zero_iff]
    · rw [hdot]
      simp [nameKey, dirsiz]
    · rw [hdots]
      simp [nameKey, dirsiz]
  · exact .inl rfl

theorem crowdedDisk_mem (he : e ∈ (tree (crowdedDisk m)).rest d) (h0 : e.inum ≠ 0) :
    Tree.Proper e.name ∧ (e.inum = 2 ∨ d = rootino ∧ (e.inum = 3 ∨ e.inum = 4)) := by
  by_cases hd : d = 3 ∨ d = 4
  · obtain ⟨hn, hp⟩ := (crowdedDisk_rest hd he).resolve_left h0
    exact ⟨hp, .inl hn⟩
  · by_cases hr : d = rootino
    · subst hr
      rw [Tree.rest, crowdedDisk_root] at he
      simp only [crowdedRoot, List.drop_succ_cons, List.drop_zero, List.mem_cons, List.not_mem_nil,
        or_false] at he
      rcases he with rfl | rfl | rfl
      · exact ⟨by decide, .inl rfl⟩
      · exact ⟨by decide, .inr ⟨rfl, .inl rfl⟩⟩
      · exact ⟨by decide, .inr ⟨rfl, .inr rfl⟩⟩
    · rw [Tree.rest, crowdedDisk_plain (by tauto)] at he
      cases he

theorem countP_range_lt (m k : Nat) : (List.range k).countP (fun i => decide (i < m)) = min m k := by
  induction k with
  | zero => simp
  | succ k ih =>
    rw [List.range_succ, List.countP_append, ih, List.countP_singleton]
    simp only [decide_eq_true_eq]
    split <;> omega

theorem crowdedDisk_countP (hd : d = 3 ∨ d = 4) (hm : m ≤ maxEntries - 2) (hn : n ≠ 0) :
    ((tree (crowdedDisk m)).rest d).countP (fun de => decide (de.inum = n)) = if n = 2 then m else 0 := by
  by_cases h2 : n = 2
  · subst h2
    rw [Tree.rest, crowdedDisk_ents hd, List.drop_succ_cons, List.drop_succ_cons, List.drop_zero,
      List.countP_map]
    have hcount : ∀ i, ((fun de : Fs.Dirent => decide (de.inum = 2)) ∘ fun i => packedEntry m d (i + 2)) i =
        decide (i < m) := by
      intro i
      simp only [Function.comp_apply, packedEntry]
      rw [if_neg (by omega), if_neg (by omega)]
      by_cases hi : i < m
      · simp [hi]
      · simp [hi, blankEntry]
    rw [funext hcount, countP_range_lt, if_pos rfl, Nat.min_eq_left hm]
  · rw [if_neg h2, List.countP_eq_zero]
    intro e he
    have := crowdedDisk_rest hd he
    simp only [decide_eq_true_eq]
    omega

theorem crowdedDisk_named (hm : m ≤ maxEntries - 2) (hn : n ≠ 0) : (tree (crowdedDisk m)).named n =
    if n = 2 then 2 * m + 1 else if n = 3 ∨ n = 4 then 1 else 0 := by
  unfold Tree.named
  have hthree : ({rootino, 3, 4} : Finset Nat) ⊆ Finset.range (2 ^ 16) := by decide +kernel
  rw [← Finset.sum_subset hthree]
  · rw [Finset.sum_insert (by decide), Finset.sum_insert (by decide), Finset.sum_singleton,
      crowdedDisk_countP (.inl rfl) hm hn, crowdedDisk_countP (.inr rfl) hm hn, Tree.rest, crowdedDisk_root]
    simp only [crowdedRoot, List.drop_succ_cons, List.drop_zero, List.countP_cons, List.countP_nil,
      decide_eq_true_eq]
    by_cases h2 : n = 2
    · subst h2
      simp
      omega
    · by_cases h3 : n = 3
      · simp [h3]
      · by_cases h4 : n = 4
        · simp [h4]
        · simp [h2, h3, h4, Ne.symm h2, Ne.symm h3, Ne.symm h4]
  · intro d _ hd
    have hno : ¬ (d = rootino ∨ d = 3 ∨ d = 4) := by simpa using hd
    rw [Tree.rest, crowdedDisk_plain hno]
    rfl

theorem crowdedDisk_nlink (m n : Nat) : (tree (crowdedDisk m)).nlink n =
    if n = rootino then 3 else if n = 2 then BitVec.ofNat 16 (2 * m + 1) else if n = 3 ∨ n = 4 then 1 else 0 := by
  simp only [tree, crowdedDisk]
  by_cases hr : n = rootino
  · simp [hr]
  · by_cases h2 : n = 2
    · subst h2
      simp [rootino]
    · by_cases hd : n = 3 ∨ n = 4
      · simp [hr, h2, hd]
      · simp [hr, h2, hd, Dinode.zero]

theorem crowdedDisk_dir (m n : Nat) :
    (tree (crowdedDisk m)).kind n = tDir ↔ n = rootino ∨ n = 3 ∨ n = 4 := by
  simp only [tree]
  rw [crowdedDisk_kind]
  split
  · simp_all
  · rename_i hno
    split <;> simp [hno]

theorem crowdedDisk_typed (m n : Nat) : (tree (crowdedDisk m)).kind n ≠ tFree ↔ 1 ≤ n ∧ n ≤ 4 := by
  simp only [tree]
  rw [crowdedDisk_kind]
  simp only [rootino]
  split
  · simp
    omega
  · split
    · simp
      omega
    · simp
      omega

theorem crowdedDisk_up (hd : d = rootino ∨ d = 3 ∨ d = 4) : (tree (crowdedDisk m)).up d = rootino := by
  unfold Tree.up
  rcases hd with rfl | hd
  · rw [crowdedDisk_root]
    rfl
  · rw [crowdedDisk_ents hd]
    rfl

theorem crowdedDisk_subdirs (m d : Nat) :
    (tree (crowdedDisk m)).subdirs d = if d = rootino then 2 else 0 := by
  unfold Tree.subdirs
  by_cases hd : d = rootino
  · subst hd
    have h2 : ¬ (tree (crowdedDisk m)).kind 2 = tDir := by
      rw [crowdedDisk_dir]
      decide
    have h3 : (tree (crowdedDisk m)).kind 3 = tDir := (crowdedDisk_dir m 3).mpr (by decide)
    have h4 : (tree (crowdedDisk m)).kind 4 = tDir := (crowdedDisk_dir m 4).mpr (by decide)
    rw [Tree.rest, crowdedDisk_root]
    simp only [crowdedRoot, List.drop_succ_cons, List.drop_zero, List.countP_cons, List.countP_nil, h2, h3, h4,
      decide_true, decide_false, if_true, Bool.false_eq_true, if_false]
  · rw [if_neg hd, List.countP_eq_zero]
    intro e he
    simp only [decide_eq_true_eq, crowdedDisk_dir]
    intro hk
    have h0 : e.inum ≠ 0 := by
      simp only [rootino] at hk
      omega
    have := (crowdedDisk_mem he h0).2
    simp only [rootino] at *
    omega

theorem crowdedDisk_exact (hm : m ≤ maxEntries - 2) (hn : (tree (crowdedDisk m)).kind n ≠ tFree)
    (hnd : (tree (crowdedDisk m)).kind n ≠ tDir) :
    (tree (crowdedDisk m)).named n = ((tree (crowdedDisk m)).nlink n).toNat := by
  have h2 : n = 2 := by
    rw [crowdedDisk_typed] at hn
    rw [ne_eq, crowdedDisk_dir] at hnd
    simp only [rootino] at hnd
    omega
  subst h2
  rw [crowdedDisk_named hm (by decide), crowdedDisk_nlink]
  simp only [if_true, show (2 : Nat) ≠ rootino by decide, if_false, BitVec.toNat_ofNat]
  have : maxEntries - 2 = 17150 := by decide
  omega

theorem crowdedDisk_forest (hm : m ≤ maxEntries - 2) : Forest (tree (crowdedDisk m)) := by
  have hne : ∀ {n}, (tree (crowdedDisk m)).kind n ≠ tFree → n ≠ 0 := by
    intro n hn
    rw [crowdedDisk_typed] at hn
    omega
  have hdir : ∀ {n}, (tree (crowdedDisk m)).kind n = tDir → n ≠ 0 :=
    fun hn => hne (by rw [hn]; decide)
  refine ⟨?_, ?_, ?_, ?_, ?_, ?_, ?_, ?_, ?_, ?_, ?_, ?_, crowdedDisk_up (.inl rfl)⟩
  · intro d hd
    rcases (crowdedDisk_dir m d).mp hd with rfl | h
    · rw [crowdedDisk_root]
      exact ⟨by decide, _, _, _, rfl, rfl, by decide, by decide, by decide⟩
    · have hdot : namecmp dot (strncpy dot dirsiz) = 0 := by decide
      rw [crowdedDisk_ents h]
      exact ⟨hdir hd, _, _, _, rfl, rfl, by decide, hdot, by decide⟩
  · exact fun d hd => crowdedDisk_plain fun hno => hd ((crowdedDisk_dir m d).mpr hno)
  · intro n hn
    rw [crowdedDisk_typed] at hn
    omega
  · exact fun d de hde h0 => (crowdedDisk_mem hde h0).1
  · intro d de hde h0
    rw [crowdedDisk_typed]
    have := (crowdedDisk_mem hde h0).2
    omega
  · intro d de hde hk
    rw [crowdedDisk_up ((crowdedDisk_dir m _).mp hk)]
    have hmem := (crowdedDisk_mem hde (hdir hk)).2
    have := (crowdedDisk_dir m _).mp hk
    simp only [rootino] at *
    omega
  · intro c hc
    have hc' := (crowdedDisk_dir m c).mp hc
    rw [crowdedDisk_named hm (hdir hc)]
    simp only [rootino] at hc'
    split
    · omega
    · split <;> omega
  · intro c hc
    have hc' := (crowdedDisk_dir m c).mp hc
    rw [crowdedDisk_named hm (hdir hc), crowdedDisk_nlink, crowdedDisk_subdirs]
    rcases hc' with rfl | rfl | rfl <;> rfl
  · exact fun n hn hnd => (crowdedDisk_exact hm hn hnd).le
  · intro n hn
    have hno : ¬ (1 ≤ n ∧ n ≤ 4) := fun h => (crowdedDisk_typed m n).mpr h hn
    rw [crowdedDisk_nlink]
    simp only [rootino]
    rw [if_neg (by omega), if_neg (by omega), if_neg (by omega)]
  · exact (crowdedDisk_dir m _).mpr (.inl rfl)
  · rw [crowdedDisk_named hm (by decide)]
    rfl

theorem crowdedDisk_trim (hm : m ≤ maxEntries - 2) : Trim (tree (crowdedDisk m)) := by
  have hroot : ∀ e ∈ crowdedRoot, e.inum ≠ 0 → Tree.Proper e.name → Reachable (tree (crowdedDisk m)) e.inum :=
    fun e he h0 hp => .step .root (by rw [crowdedDisk_root]; exact he) h0 hp
  refine ⟨?_, ?_, ?_⟩
  · exact fun n hn hnd => crowdedDisk_exact hm hn hnd
  · intro d hd hz
    rw [crowdedDisk_nlink] at hz
    rcases (crowdedDisk_dir m d).mp hd with rfl | rfl | rfl <;> simp [rootino] at hz
  · intro d hd _
    rcases (crowdedDisk_dir m d).mp hd with rfl | rfl | rfl
    · exact .root
    · exact hroot ⟨3, strncpy (bytes ['a']) dirsiz⟩ (by decide) (by decide) (by decide)
    · exact hroot ⟨4, strncpy (bytes ['b']) dirsiz⟩ (by decide) (by decide) (by decide)

end Tree

/-- On an image where a file has 32767 names one more link makes its count negative, and
taking a name away then stops the kernel. -/
theorem crowdedLink_negative :
    (WellFormed (crowdedDisk 16383) ∧ Forest (tree (crowdedDisk 16383)) ∧ Trim (tree (crowdedDisk 16383)) ∧
      Modest (tree (crowdedDisk 16383))) ∧
    ∃ k k', bootDisk (crowdedDisk 16383) = .ok k ∧
      Run Kernel.callStep (fun k e => cwdInum k e.1 = rootino ∧ Call.names e.2 = true) k
        [(0, .link (some (bytes ['f'], bytes ['g'])))] k' ∧
      (k'.fs.dinode 2).type = tFile ∧ (k'.fs.dinode 2).nlink.toInt = -32768 ∧
      (k'.fs.dinode 2).nlink.toInt ≠ (tree k'.fs).entryCount 2 ∧
      k'.perform 0 (.unlink (some (bytes ['f']))) = .error (.panic .unlinkNlink) := by
  have hm : 16383 ≤ maxEntries - 2 := by decide
  refine ⟨⟨crowdedDisk_wellFormed _, crowdedDisk_forest hm, crowdedDisk_trim hm, ?_⟩, ?_⟩
  · intro n hn _
    rw [crowdedDisk_named hm (Nat.ne_of_gt ((crowdedDisk_forest hm).small n hn).1)]
    split
    · decide
    · split <;> decide
  obtain ⟨k, k', hb, hr, h1, h2, h3⟩ : ∃ k k', bootDisk (crowdedDisk 16383) = .ok k ∧
      Run Kernel.callStep (fun k e => cwdInum k e.1 = rootino ∧ Call.names e.2 = true) k
        [(0, .link (some (bytes ['f'], bytes ['g'])))] k' ∧
      ((k'.fs.dinode 2).type = tFile ∧ (k'.fs.dinode 2).nlink.toInt = -32768 ∧
      Fails (k'.perform 0 (.unlink (some (bytes ['f'])))) (· = .panic .unlinkNlink)) :=
    boot_replay (by decide +kernel)
  refine ⟨k, k', hb, hr, h1, h2, ?_, h3.reason⟩
  rw [h2]
  omega

end Xv6Filter.Proofs
