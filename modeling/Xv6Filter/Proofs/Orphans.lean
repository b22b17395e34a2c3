import Xv6Filter.Proofs.Dangling

namespace Xv6Filter.Proofs
open Lib Function

inductive Reachable (t : Tree) : Nat → Prop
  | root : Reachable t rootino
  | step : Reachable t d → de ∈ t.ents d → de.inum ≠ 0 → Tree.Proper de.name → Reachable t de.inum

/-- A file has as many links as names, a directory without links has no entries, and one
with links is reachable. -/
structure Trim (t : Tree) : Prop where
  exact : ∀ n, t.kind n ≠ tFree → t.kind n ≠ tDir → t.named n = (t.nlink n).toNat
  empty : ∀ d, t.kind d = tDir → t.nlink d = 0 → ∀ e ∈ t.rest d, e.inum = 0
  reach : ∀ d, t.kind d = tDir → t.nlink d ≠ 0 → Reachable t d

section Paths

variable {t t' : Tree}

theorem Forest.mem_rest_of_proper (h : Forest t) (he : e ∈ t.ents d) (hp : Tree.Proper e.name) :
    e ∈ t.rest d := by
  have hd : t.kind d = tDir := by
    by_contra hd
    rw [h.plain d hd] at he
    cases he
  obtain ⟨a, b, rest, hes, -, -, hda, hdb⟩ := (h.dots d hd).2
  have hswap : ∀ p q, namecmp p q = 0 → namecmp q p = 0 := by
    intro p q hpq
    rw [namecmp_eq_zero_iff] at hpq ⊢
    exact hpq.symm
  unfold Tree.rest
  rw [hes, List.mem_cons, List.mem_cons] at he
  rw [hes]
  rcases he with rfl | rfl | he
  · exact absurd (hswap _ _ hda) hp.1
  · exact absurd (hswap _ _ hdb) hp.2
  · exact he

theorem Reachable.entry (h : Reachable t d) (hf : Forest t) (he : e ∈ t.rest d) (h0 : e.inum ≠ 0) :
    Reachable t e.inum :=
  h.step (List.mem_of_mem_drop he) h0 (hf.proper d e he h0)

/-- Paths stay where entries stay. `n` is an inode that leads nowhere. -/
theorem Reachable.keep (h : Reachable t x) (hf : Forest t) (hf' : Forest t')
    (hkeep : ∀ d e, e ∈ t.rest d → e.inum ≠ 0 → d ≠ n → e ∈ t'.rest d ∨ e.inum = n)
    (hend : ∀ e ∈ t.rest n, e.inum = 0) : Reachable t' x ∨ x = n := by
  induction h with
  | root => exact .inl .root
  | @step d e _ he h0 hp ih =>
    have hrest := hf.mem_rest_of_proper he hp
    have hd : d ≠ n := by
      rintro rfl
      exact h0 (hend e hrest)
    rcases ih with ih | ih
    · rcases hkeep d e hrest h0 hd with he' | he'
      · exact .inl (ih.entry hf' he' h0)
      · exact .inr he'
    · exact absurd ih hd

theorem Reachable.ne_zero (h : Reachable t n) : n ≠ 0 := by
  cases h with
  | root => decide
  | step _ _ h0 _ => exact h0

theorem Reachable.named (h : Reachable t n) (hf : Forest t) : n = rootino ∨ 0 < t.named n := by
  cases h with
  | root => exact .inl rfl
  | step _ he h0 hp =>
    have hrest := hf.mem_rest_of_proper he hp
    exact .inr (Tree.named_pos (hf.lt_of_dir (hf.dir_of_mem hrest)) hrest)

end Paths

namespace Trim

open Forest

variable {t t' : Tree} {d j x : Nat} {e : Fs.Dirent}

theorem linked_of_entry (h : Trim t) (hf : Forest t) (he : e ∈ t.rest d) (h0 : e.inum ≠ 0) :
    t.nlink d ≠ 0 := fun hz => h0 (h.empty d (hf.dir_of_mem he) hz e he)

theorem toNat_ne_zero {x : Short} (h : x ≠ 0) : x.toNat ≠ 0 := fun h0 => h (BitVec.eq_of_toNat_eq h0)

theorem named (h : Trim t) (hf : Forest t) (hd : t.kind d = tDir) (hl : t.nlink d ≠ 0) :
    d = rootino ∨ 0 < t.named d := (h.reach d hd hl).named hf

/-- A directory with links gets an entry, and what has links is reachable as before. -/
theorem gained (h : Trim t) (hf : Forest t) (hg : Gained d e t t') (hd : t.nlink d ≠ 0) : Trim t' := by
  have hf' := hg.forest hf
  have hde : d ≠ e.inum := fun hd => hg.file (hd ▸ hg.dir)
  have hmono : ∀ {x}, Reachable t x → Reachable t' x := by
    intro x hx
    refine (hx.keep (n := 0) hf hf' ?_ ?_).resolve_right hx.ne_zero
    · intro c y hy h0 _
      left
      rw [hg.rest]
      by_cases hc : c = d
      · subst hc
        rw [update_self]
        exact mem_putFirst_of_mem hy h0
      · rwa [update_of_ne hc]
    · intro y hy
      have := hf.dir_of_mem hy
      rw [hf.kind_zero] at this
      exact absurd this (by decide)
  have hsame : ∀ {c}, c ≠ e.inum → c ≠ d → t'.nlink c = t.nlink c := by
    intro c hce hcd
    have := hg.nlink c
    simp only [hce, hcd, false_and, ↓reduceIte, Nat.add_zero] at this
    exact BitVec.eq_of_toNat_eq this
  refine ⟨?_, ?_, ?_⟩
  · intro n hn hnd
    have h0 := Nat.ne_of_gt (hf'.small n hn).1
    have hned : n ≠ d := by
      rintro rfl
      exact hnd ((hg.kind n hde).trans hg.dir)
    have hl := hg.nlink n
    have hname := hg.named hf h0
    simp only [hned, false_and, ↓reduceIte, Nat.add_zero] at hl
    by_cases hne : n = e.inum
    · subst hne
      by_cases hfree : t.kind e.inum = tFree
      · rw [hf.named_free hfree h0] at hname
        rw [hf.unused _ hfree, show (0 : Short).toNat = 0 from rfl] at hl
        omega
      · have := h.exact _ hfree hg.file
        simp only [↓reduceIte] at hl hname
        omega
    · rw [hg.kind n hne] at hn hnd
      have := h.exact n hn hnd
      simp only [hne, Ne.symm hne, ↓reduceIte] at hl hname
      omega
  · intro c hc hz y hy
    have hl := hg.nlink c
    rw [hz, show (0 : Short).toNat = 0 from rfl] at hl
    have hce : c ≠ e.inum := by
      rintro rfl
      simp only [↓reduceIte] at hl
      omega
    have hcd : c ≠ d := by
      rintro rfl
      have := toNat_ne_zero hd
      omega
    rw [hg.kind c hce] at hc
    rw [hg.rest, update_of_ne hcd] at hy
    exact h.empty c hc (hsame hce hcd ▸ hz) y hy
  · intro c hc hl
    by_cases hce : c = e.inum
    · subst hce
      refine (hmono (h.reach d hg.dir hd)).entry hf' ?_ hg.small.1
      rw [hg.rest, update_self]
      exact mem_putFirst_self _ _
    · rw [hg.kind c hce] at hc
      by_cases hcd : c = d
      · exact hmono (h.reach c hc (hcd ▸ hd))
      · exact hmono (h.reach c hc (hsame hce hcd ▸ hl))

theorem lost (h : Trim t) (hf : Forest t) (hs : Lost d j e t t') : Trim t' := by
  have hf' := hs.forest hf
  have hdir := hs.dir hf
  have hend : ∀ y ∈ t.rest e.inum, y.inum = 0 := by
    intro y hy
    exact hs.empty (hf.dir_of_mem hy) y hy
  have hkeep : ∀ {x}, Reachable t x → Reachable t' x ∨ x = e.inum := by
    intro x hx
    refine hx.keep hf hf' ?_ hend
    intro c y hy h0 _
    rw [hs.rest hf]
    by_cases hc : c = d
    · subst hc
      rw [update_self]
      exact (mem_take_of_mem hs.entry hy).symm.imp id fun hye => by rw [hye]
    · rw [update_of_ne hc]
      exact .inl hy
  have hone : t.kind e.inum = tDir → t'.nlink e.inum = 0 := by
    intro hk
    obtain ⟨hned, hnr, hn1, hsub⟩ := hs.dir_entry hf hk
    have h1 := hf.dirs _ hk
    have h2 := hs.nlink e.inum
    simp only [hned, hnr, false_and, ↓reduceIte] at h1 h2
    refine BitVec.eq_of_toNat_eq ?_
    rw [show (0 : Short).toNat = 0 from rfl]
    omega
  refine ⟨?_, ?_, ?_⟩
  · intro n hn hnd
    rw [hs.kind] at hn hnd
    have hned : n ≠ d := by
      rintro rfl
      exact hnd hdir
    have h1 := hs.named hf (Nat.ne_of_gt (hf.small n hn).1)
    have h2 := hs.nlink n
    have h3 := h.exact n hn hnd
    have hsame : (if e.inum = n then 1 else 0) = if n = e.inum then 1 else 0 := by simp only [eq_comm]
    simp only [hned, false_and, ↓reduceIte, Nat.add_zero] at h2
    omega
  · intro c hc hz y hy
    rw [hs.kind] at hc
    by_contra h0
    have hy' := hs.mem_rest hf hy h0
    have hl := hs.nlink c
    rw [hz, show (0 : Short).toNat = 0 from rfl] at hl
    have hpos := toNat_ne_zero (h.linked_of_entry hf hy' h0)
    by_cases hce : c = e.inum
    · subst hce
      exact h0 (hend y hy')
    · simp only [hce, ↓reduceIte, Nat.zero_add] at hl
      split at hl
      · rename_i hd
        have hsub : 0 < t.subdirs c := List.countP_pos_iff.mpr ⟨e, hd.1 ▸ hs.mem, by simpa using hd.2⟩
        have hdirs := hf.dirs c hc
        have hc0 : t.nlink c ≠ 0 := fun hz => hpos (by rw [hz]; rfl)
        rcases h.named hf hc hc0 with hr | hn
        · simp only [hr, ↓reduceIte] at hdirs hsub hl
          omega
        · omega
      · omega
  · intro c hc hl
    rw [hs.kind] at hc
    have hcne : t.nlink c ≠ 0 := by
      intro hz
      have := hs.nlink c
      rw [hz, show (0 : Short).toNat = 0 from rfl] at this
      exact hl (BitVec.eq_of_toNat_eq (by rw [show (0 : Short).toNat = 0 from rfl]; omega))
    rcases hkeep (h.reach c hc hcne) with hr | hr
    · exact hr
    · exact absurd (hr ▸ hone (hr ▸ hc)) hl

theorem pruned (h : Trim t) (hf : Forest t) (hp : Pruned x t t') : Trim t' := by
  have hf' := hp.forest hf
  have hend : ∀ y ∈ t.rest x, y.inum = 0 := fun y hy => h.empty x (hf.dir_of_mem hy) hp.unlinked y hy
  refine ⟨?_, ?_, ?_⟩
  · intro n hn hnd
    have hnx := hp.ne_of_typed hn
    have h0 := Nat.ne_of_gt (hf'.small n hn).1
    rw [hp.kind_ne hnx] at hn hnd
    have hzero : (t.rest x).countP (fun de => decide (de.inum = n)) = 0 := by
      rw [List.countP_eq_zero]
      intro y hy
      simp [hend y hy, h0.symm]
    have := hp.named hf n
    rw [hzero, Nat.add_zero] at this
    rw [this, hp.nlink_ne hnx]
    exact h.exact n hn hnd
  · intro c hc hz y hy
    have hcx := hp.ne_of_dir hc
    rw [hp.kind_ne hcx] at hc
    rw [hp.nlink_ne hcx] at hz
    exact h.empty c hc hz y (hp.mem_rest hy).2
  · intro c hc hl
    have hcx := hp.ne_of_dir hc
    rw [hp.kind_ne hcx] at hc
    rw [hp.nlink_ne hcx] at hl
    refine ((h.reach c hc hl).keep hf hf' ?_ hend).resolve_right hcx
    intro d y hy _ hdx
    left
    rwa [hp.rest, update_of_ne hdx]

theorem reachable (h : Trim t) (hf : Forest t) (hn : t.kind n ≠ tFree) (hl : t.nlink n ≠ 0) :
    Reachable t n := by
  by_cases hd : t.kind n = tDir
  · exact h.reach n hd hl
  · have hpos : 0 < t.named n := by
      rw [h.exact n hn hd]
      exact Nat.pos_of_ne_zero (toNat_ne_zero hl)
    obtain ⟨d, y, hy, rfl⟩ := Tree.exists_of_named hpos
    have h0 := Nat.ne_of_gt (hf.small _ hn).1
    exact (h.reach d (hf.dir_of_mem hy) (h.linked_of_entry hf hy h0)).entry hf hy h0

end Trim

def HeldBy (k : Kernel) (n : Nat) : Prop :=
  (∃ f, ((k.file f).type = .inode ∨ (k.file f).type = .device) ∧ (k.fs.inode (k.file f).ip).inum = n) ∨
  ∃ i e, (k.proc i).cwd = some e ∧ (k.fs.inode e).inum = n

theorem Consistent.heldBy (h : Consistent k) (hr : 0 < (k.fs.inode e).ref) :
    HeldBy k (k.fs.inode e).inum := by
  have hsum := h.inodes.exact e
  unfold inodeRefs at hsum
  by_cases hfile : 0 < ∑ f, fileUse (k.file f) e
  · obtain ⟨f, -, hf⟩ := Finset.sum_pos_iff.mp hfile
    left
    unfold fileUse at hf
    split at hf
    · rename_i huse
      exact ⟨f, huse.1, by rw [huse.2]⟩
    · omega
  · have hcwd : 0 < ∑ i, cwdUse (k.proc i) e := by omega
    obtain ⟨i, -, hi⟩ := Finset.sum_pos_iff.mp hcwd
    right
    unfold cwdUse at hi
    split at hi
    · rename_i huse
      exact ⟨i, e, huse, rfl⟩
    · omega

/-- The calls that make entries only in directories that have links, where the count of
links has room. -/
def IntoLinked (k : Kernel) (e : Slot × Call) : Prop :=
  LinkRoom 0xFFFF (tree k.fs) (cwdInum k e.1) e.2 ∧
  ∀ path ∈ Call.enters e.2, ∀ r ∈ (tree k.fs).resolve true (cwdInum k e.1) path, (tree k.fs).nlink r.1 ≠ 0

instance (k : Kernel) (e : Slot × Call) : Decidable (IntoLinked k e) := inferInstanceAs (Decidable (_ ∧ _))

structure Tracked (k : Kernel) : Prop where
  consistent : Consistent k
  forest : Forest (tree k.fs)
  trim : Trim (tree k.fs)

theorem Tracked.callStep (h : Tracked k) (hok : IntoLinked k c) (hs : k.callStep c = some k') :
    Tracked k' := by
  obtain ⟨i, c⟩ := c
  have hc := h.consistent.callStep hs
  have := h.forest.effect hc.effect h.consistent.ents_length hok.1 h.trim ?_
    (fun _ _ _ _ _ _ _ _ _ hl => h.trim.lost h.forest hl) (fun _ _ _ hf hu hp => hu.pruned hf hp)
  · exact ⟨hc.coherent, this.1, this.2⟩
  · intro path d name e u henter hres _ hg
    exact h.trim.gained h.forest hg (hok.2 path henter (d, name) hres)

theorem Started.tracked (h : Started fs k) (hf : Forest (Proofs.tree fs)) (ht : Trim (Proofs.tree fs)) :
    Tracked k := by
  obtain ⟨hf', ht'⟩ := hf.reaped ht h.tree fun _ _ _ hf hu hp => hu.pruned hf hp
  exact ⟨h.consistent, hf', ht'⟩

theorem Tracked.reachable_or_held (h : Tracked k) (hn : (k.fs.dinode n).type ≠ tFree) :
    Reachable (tree k.fs) n ∨ (k.fs.dinode n).nlink = 0 ∧ HeldBy k n := by
  by_cases hl : (k.fs.dinode n).nlink = 0
  · obtain ⟨e, hr, rfl, -⟩ := h.consistent.inodes.settled.held n hn hl
    exact .inr ⟨hl, h.consistent.heldBy hr⟩
  · exact .inl (h.trim.reachable h.forest hn (by rw [tree_nlink hn]; exact hl))

def powerOff (fs : Fs) : Fs := { fs with inode := fun _ => ⟨0, 0, 0, false, false, .zero⟩ }

theorem Tracked.wellFormed (h : Tracked k) : WellFormed (powerOff k.fs) := by
  have hs := h.consistent.inodes.settled
  refine ⟨hs.acct, hs.aligned, hs.numbered, hs.few, ?_, fun _ => rfl⟩
  have : (k.fs.dinode rootino).type = tDir := h.forest.root
  exact fun hz => absurd (this.symm.trans hz) (by decide)

theorem Started.reachable (h : Started fs k) (hk : Tracked k) (hn : (k.fs.dinode n).type ≠ tFree) :
    Reachable (Proofs.tree k.fs) n := by
  refine hk.trim.reachable hk.forest hn ?_
  rw [tree_nlink hn]
  intro hl
  obtain ⟨e, hr, hen, -⟩ := h.consistent.inodes.settled.held n hn hl
  have hroot := (h.held e hr).symm.trans hen
  subst hroot
  refine (hk.forest.unlinked (x := rootino) hn ?_).2.1 rfl
  rw [tree_nlink hn]
  exact hl

/-- If entries are made only in directories that have links, every inode that is there is
reachable by names or is held without links, and after a crash `ireclaim` leaves only
inodes that are reachable. -/
theorem no_unreachable_inodes (hw : WellFormed fs) (hf : Forest (tree fs)) (ht : Trim (tree fs))
    (hb : bootDisk fs = .ok k) (hr : Run Kernel.callStep IntoLinked k cs k') :
    (∀ n, (k'.fs.dinode n).type ≠ tFree →
      Reachable (tree k'.fs) n ∨ (k'.fs.dinode n).nlink = 0 ∧ HeldBy k' n) ∧
    ∀ k'', bootDisk (powerOff k'.fs) = .ok k'' → ∀ n, (k''.fs.dinode n).type ≠ tFree →
      Reachable (tree k''.fs) n := by
  have hk : Tracked k' := hr.invariant Tracked ((hw.started hb).tracked hf ht)
    fun _ _ _ ht hok hs => ht.callStep hok hs
  refine ⟨fun n hn => hk.reachable_or_held hn, ?_⟩
  intro k'' hb'' n hn
  have hst := hk.wellFormed.started hb''
  exact hst.reachable (hst.tracked hk.forest hk.trim) hn

theorem freshDisk_trim : Trim (tree freshDisk) := by
  have honly : ∀ {n}, (tree freshDisk).kind n ≠ tFree → n = rootino := by
    intro n hn
    by_contra hne
    exact hn (freshDisk_kind hne)
  refine ⟨?_, fun d _ _ => freshDisk_rest d, ?_⟩
  · intro n hn hnd
    rw [honly hn] at hnd
    exact absurd (by decide) hnd
  · intro d hd _
    have hroot : d = rootino := honly (by rw [hd]; decide)
    subst hroot
    exact .root

def removeOpen : List (Slot × Call) :=
  [(0, .mkdir (some (bytes ['a']))), (0, .opens (some (bytes ['a', '/', 'x'])) 0x200),
    (0, .unlink (some (bytes ['a', '/', 'x'])))]

/-- A removed file that a process still has open. -/
theorem no_unreachable_inodes_removeOpen :
    ∃ k k', bootDisk freshDisk = .ok k ∧ Run Kernel.callStep IntoLinked k removeOpen k' ∧
      ((k'.fs.dinode 2).type = tDir ∧ (k'.fs.dinode 3).type = tFile ∧ (k'.fs.dinode 3).nlink = 0) ∧
      ∀ n, (k'.fs.dinode n).type ≠ tFree →
        Reachable (tree k'.fs) n ∨ (k'.fs.dinode n).nlink = 0 ∧ HeldBy k' n := by
  obtain ⟨k, k', hb, hr, hp⟩ : ∃ k k', bootDisk freshDisk = .ok k ∧
      Run Kernel.callStep IntoLinked k removeOpen k' ∧
      ((k'.fs.dinode 2).type = tDir ∧ (k'.fs.dinode 3).type = tFile ∧ (k'.fs.dinode 3).nlink = 0) :=
    boot_replay (by decide +kernel)
  exact ⟨k, k', hb, hr, hp,
    (no_unreachable_inodes freshDisk_wellFormed freshDisk_forest freshDisk_trim hb hr).1⟩

instance (name : List Byte) : Decidable (Tree.Proper name) := inferInstanceAs (Decidable (_ ∧ _))

theorem Reachable.eq_root (h : Reachable t n)
    (hroot : ∀ de ∈ t.ents rootino, de.inum ≠ 0 → ¬ Tree.Proper de.name) : n = rootino := by
  induction h with
  | root => rfl
  | step _ hde h0 hp ih =>
    subst ih
    exact absurd hp (hroot _ hde h0)

def createInRemoved : List (Slot × Call) :=
  [(0, .mkdir (some (bytes ['a']))), (0, .chdir (some (bytes ['a']))), (0, .unlink (some (bytes ['/', 'a']))),
    (0, .opens (some (bytes ['x'])) 0x200), (0, .close 0), (0, .chdir (some (bytes ['/'])))]

/-- The file keeps its link, but no name leads to it and nobody holds it. -/
theorem createInRemoved_unreachable :
    ∃ k k', bootDisk freshDisk = .ok k ∧ Run Kernel.callStep anyEvent k createInRemoved k' ∧
      (k'.fs.dinode 3).type = tFile ∧ (k'.fs.dinode 3).nlink = 1 ∧ ¬ Reachable (tree k'.fs) 3 := by
  obtain ⟨k, k', hb, hr, h1, h2, h3⟩ : ∃ k k', bootDisk freshDisk = .ok k ∧
      Run Kernel.callStep anyEvent k createInRemoved k' ∧
      ((k'.fs.dinode 3).type = tFile ∧ (k'.fs.dinode 3).nlink = 1 ∧
        ∀ de ∈ (tree k'.fs).ents rootino, de.inum ≠ 0 → ¬ Tree.Proper de.name) :=
    boot_replay (by decide +kernel)
  exact ⟨k, k', hb, hr, h1, h2, fun hreach => absurd (hreach.eq_root h3) (by decide)⟩

end Xv6Filter.Proofs
