import Xv6Filter.Proofs.Booting

namespace Xv6Filter.Proofs
open Lib

namespace Consistent

variable {k k' : Kernel} {cs : List (Slot × Call)}

/-- Every call keeps the counts and changes the tree as its kind may. -/
theorem callStep (h : Consistent k) (hs : k.callStep (i, c) = some k') : Called k i c k' := by
  unfold Kernel.callStep at hs
  split at hs
  · rename_i hc
    have hp := h.perform (present_of_alive hc.1) hc.2
    dsimp only at hs
    cases hrun : k.perform i c with
    | error why =>
      rw [hrun] at hs
      cases hs
    | ok r =>
      rw [hrun] at hs
      cases hs
      exact hp.of_ok hrun
  · cases hs

theorem run (h : Consistent k) (hr : Run Kernel.callStep ok k cs k') : Consistent k' :=
  hr.invariant Consistent h fun _ _ _ ht _ hs => (ht.callStep hs).coherent

theorem seekRun (h : Consistent k) (hr : Run Kernel.seekStep ok k es k') : Consistent k' := by
  refine hr.invariant Consistent h ?_
  rintro t (c | ⟨f, off⟩) u ht _ hs
  · exact (ht.callStep hs).coherent
  · cases hs
    exact ht.setOff rfl

end Consistent

structure ExactRefs (k : Kernel) : Prop where
  file : ∀ f, (k.file f).ref = slotRefs k.proc f
  inode : ∀ e, (k.fs.inode e).ref = inodeRefs k.proc k.file e
  unique : ∀ e e', 0 < (k.fs.inode e).ref → 0 < (k.fs.inode e').ref →
    (k.fs.inode e).dev = (k.fs.inode e').dev → (k.fs.inode e).inum = (k.fs.inode e').inum → e = e'
  /-- a pipe is there exactly while one of its ends is open -/
  pipe : ∀ pi, k.pipe pi = none ↔ ∀ w f, ¬ IsEnd k.file pi w f

theorem Consistent.exactRefs (h : Consistent k) : ExactRefs k := by
  refine ⟨?_, h.inodes.exact, fun e e' hr hr' _ hn => h.inodes.settled.unique e e' hr hr' hn, ?_⟩
  · intro f
    rw [h.files.exact f, add_zero]
  · intro pi
    constructor
    · intro hnone w f hf
      obtain ⟨q, hq, -⟩ := (h.pipes.ends pi w).mpr ⟨f, hf⟩
      rw [hnone] at hq
      cases hq
    · intro hno
      cases hq : k.pipe pi with
      | none => rfl
      | some q =>
        rcases h.pipes.live pi q hq with ho | ho
        · obtain ⟨f, hf⟩ := (h.pipes.ends pi false).mp ⟨q, hq, ho⟩
          exact absurd hf (hno false f)
        · obtain ⟨f, hf⟩ := (h.pipes.ends pi true).mp ⟨q, hq, ho⟩
          exact absurd hf (hno true f)

/-- Reference counts are exact after any calls, of any processes and with any failures. -/
theorem reference_counts_exact (hw : WellFormed fs) (hb : bootDisk fs = .ok k)
    (hr : Run Kernel.callStep anyEvent k cs k') : ExactRefs k' :=
  ((hw.started hb).consistent.run hr).exactRefs

def freshDisk : Fs where
  sb := ⟨40, 16, 4, 2, 6, 8⟩
  used := fun b => decide (b ≤ 9)
  dinode := fun n =>
    if n = rootino then ⟨tDir, 0, 0, 1, bsize, fun i => if i = 0 then 9 else 0⟩ else .zero
  data := fun b =>
    if b = 9 then
      splice (splice (fun _ => 0) 0 (Fs.Dirent.encode ⟨rootino, bytes ['.']⟩)) direntSize
        (Fs.Dirent.encode ⟨rootino, bytes ['.', '.']⟩)
    else fun _ => 0
  inode := fun _ => ⟨0, 0, 0, false, false, .zero⟩
  logged := []

theorem freshDisk_free (hn : n ≠ rootino) : (freshDisk.dinode n).type = tFree := by
  simp [freshDisk, hn, Dinode.zero]

theorem freshDisk_wellFormed : WellFormed freshDisk :=
  (by decide +kernel : SmallImage freshDisk).wellFormed
    (fun n hn => freshDisk_free fun he => absurd hn (by rw [he]; decide)) fun _ => rfl

/-- A run that is replayed from the booted disk is a run. -/
theorem boot_replay {step : Kernel → ε → Option Kernel} {ok : Kernel → ε → Prop}
    [∀ s e, Decidable (ok s e)] {p : Kernel → Prop} [DecidablePred p]
    (h : Runs (bootDisk fs) fun k => (replay step ok es k).any (fun k' => decide (p k')) = true) :
    ∃ k k', bootDisk fs = .ok k ∧ Run step ok k es k' ∧ p k' := by
  obtain ⟨k, hb, hany⟩ := h.result
  obtain ⟨k', hr, hp⟩ := replay_reaches hany
  exact ⟨k, k', hb, hr, hp⟩

def pipeAndFork : List (Slot × Call) := [(0, .pipe (some 7) true), (0, .fork .enough), (0, .close 0)]

/-- A pipe whose read end was closed by the parent, and a child that has both ends. -/
theorem reference_counts_exact_pipeAndFork :
    ∃ k k', bootDisk freshDisk = .ok k ∧ Run Kernel.callStep anyEvent k pipeAndFork k' ∧
      ((k'.file 0).ref = 1 ∧ (k'.file 1).ref = 2 ∧ (k'.pipe 7).isSome = true) ∧ ExactRefs k' := by
  obtain ⟨k, k', hb, hr, hp⟩ : ∃ k k', bootDisk freshDisk = .ok k ∧
      Run Kernel.callStep anyEvent k pipeAndFork k' ∧
      ((k'.file 0).ref = 1 ∧ (k'.file 1).ref = 2 ∧ (k'.pipe 7).isSome = true) :=
    boot_replay (by decide +kernel)
  exact ⟨k, k', hb, hr, hp, reference_counts_exact freshDisk_wellFormed hb hr⟩

/-- What the bitmap and the addresses in the inodes say about each other. A place is a
direct address, the pointer to the indirect block, or an entry of that block, of an
allocated inode. -/
structure BlockAccounts (fs : Fs) : Prop where
  owned : ∀ b, InData fs.sb b → fs.used b = true → ∃! x, placed fs.data fs.dinode x = b
  marked : ∀ x, placed fs.data fs.dinode x ≠ 0 →
    fs.used (placed fs.data fs.dinode x) = true ∧ InData fs.sb (placed fs.data fs.dinode x)
  dense : ∀ n, (fs.dinode n).type ≠ tFree → ∀ bn, bn * bsize < (fs.dinode n).size →
    bn < maxfile ∧ slotAddr fs.data (fs.dinode n) (slotOf bn) ≠ 0

theorem Acct.blockAccounts (h : Acct fs.sb fs.used fs.data fs.dinode) : BlockAccounts fs := by
  have hex := h.cover.exact
  refine ⟨?_, fun x hx => ⟨hex.marked x hx, hex.inside x hx⟩, h.dense⟩
  intro b hb hu
  obtain ⟨x, hx⟩ := hex.owned b hb hu
  refine ⟨x, hx, ?_⟩
  intro y hy
  have h0 : placed fs.data fs.dinode y ≠ 0 := by
    rw [hy]
    rintro rfl
    exact hex.proper hb
  exact hex.inj y x h0 (hy.trans hx.symm)

/-- The accounts of blocks are right after any calls, with files at any offsets, and no
call frees a free block. -/
theorem blocks_accounted (hw : WellFormed fs) (hb : bootDisk fs = .ok k)
    (hr : Run Kernel.seekStep anyEvent k es k') :
    BlockAccounts k'.fs ∧ ∀ i c, k'.alive i = true → k'.Possible c →
      k'.perform i c ≠ .error (.panic .freeingFreeBlock) := by
  have hk' := (hw.started hb).consistent.seekRun hr
  refine ⟨hk'.inodes.settled.acct.blockAccounts, ?_⟩
  intro i c hi hc hrun
  exact Failing.not_freeing ((hk'.perform (present_of_alive hi) hc).of_error hrun)

/-- Two blocks written, one byte of them again from the middle, and the name removed while
the file is open. -/
def writeTwice : List ((Slot × Call) ⊕ (Fp × Nat)) :=
  [.inl (0, .opens (some (bytes ['f'])) 0x202),
    .inl (0, .write 0 ⟨fun _ => 7, fun _ m => m⟩ 1500 0),
    .inr (0, 1023),
    .inl (0, .write 0 ⟨fun _ => 8, fun _ m => m⟩ 1 0),
    .inl (0, .unlink (some (bytes ['f'])))]

/-- A file without a name that was written twice keeps its blocks. -/
theorem blocks_accounted_writeTwice :
    ∃ k k', bootDisk freshDisk = .ok k ∧ Run Kernel.seekStep anyEvent k writeTwice k' ∧
      ((k'.fs.dinode 2).nlink = 0 ∧ (k'.fs.dinode 2).size = 1500 ∧ k'.fs.used 11 = true ∧
        k'.fs.used 12 = false) ∧ BlockAccounts k'.fs := by
  obtain ⟨k, k', hb, hr, hp⟩ : ∃ k k', bootDisk freshDisk = .ok k ∧
      Run Kernel.seekStep anyEvent k writeTwice k' ∧
      ((k'.fs.dinode 2).nlink = 0 ∧ (k'.fs.dinode 2).size = 1500 ∧ k'.fs.used 11 = true ∧
        k'.fs.used 12 = false) :=
    boot_replay (by decide +kernel)
  exact ⟨k, k', hb, hr, hp, (blocks_accounted freshDisk_wellFormed hb hr).1⟩

end Xv6Filter.Proofs
