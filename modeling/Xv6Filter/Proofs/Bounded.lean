import Xv6Filter.Proofs.Runs

namespace Xv6Filter.Proofs
open Lib

/-- The operation that led from `fs` to `fs'` logged few enough blocks, whatever it began with. -/
def WithinLimit (fs fs' : Fs) : Prop :=
  fs.logged = [] → fs.sb.size ≤ bpb → fs'.logged.toFinset.card ≤ maxopblocks

theorem Logs.fits_two (h : Logs {b, b'} k fs fs') (hk : k ≤ 7) : WithinLimit fs fs' := by
  intro h0 hone
  have h1 := h.card_le h0 hone
  have h2 : ({b, b'} : Finset Nat).card ≤ 2 := Finset.card_le_two
  simp only [maxopblocks]
  omega

theorem Logs.fits_one (h : Logs {b} k fs fs') (hk : k ≤ 8) : WithinLimit fs fs' := by
  intro h0 hone
  have h1 := h.card_le h0 hone
  rw [Finset.card_singleton] at h1
  simp only [maxopblocks]
  omega

theorem SameDisk.fits (h : SameDisk fs fs') : WithinLimit fs fs' := (h.logs (T := {0}) (k := 0)).fits_one (by omega)

theorem Finished.fits (h : Finished fs0 fs k P fs') (hk : k ≤ 7) : WithinLimit fs fs' := by
  obtain ⟨d, n, hl, -⟩ := h.effect
  exact hl.fits_two hk

theorem spanned_maxWrite (h : len ≤ Kernel.maxWrite) (off : Nat) : spanned off len ≤ 4 := by
  unfold spanned
  split
  · omega
  · simp only [Kernel.maxWrite, bsize, maxopblocks] at *
    omega

theorem Busy.iput_fits (h : Busy fs0 (⟨ip, n, v⟩ :: hs) fs) (hx : fs.iput ip = .ok fs') : WithinLimit fs fs' := by
  obtain ⟨-, hd | ⟨hf, -⟩⟩ := h.iput.of_ok hx
  · exact hd.fits
  · exact hf.logs.fits_one (by omega)

theorem Consistent.transact_fits (h : Consistent k) (hi : Present k i) (op : Kernel.Op)
    (hrun : k.transact i op = .ok fs') : WithinLimit k.fs fs' := by
  have hb := Busy.begin h.inodes.settled
  cases op with
  | opens path omode =>
    obtain ⟨r, ⟨-, ⟨d, n, hl⟩, -⟩, rfl⟩ := (h.openPath hi path omode).map_ok hrun
    exact hl.fits_two (by omega)
  | mkdir path =>
    obtain ⟨r, hf, rfl⟩ := (hb.makeNode h.firm (h.cwd_ref i) path (by decide) (by decide) 0 0).map_ok hrun
    exact hf.fits (by omega)
  | mknod path major minor =>
    obtain ⟨r, hf, rfl⟩ := (hb.makeNode h.firm (h.cwd_ref i) path (by decide) (by decide)
      (major.setWidth 16) (minor.setWidth 16)).map_ok hrun
    exact hf.fits (by omega)
  | link old new =>
    obtain ⟨r, hf, rfl⟩ := (hb.linkPath (h.cwd_ref i) old new).map_ok hrun
    exact hf.fits (by omega)
  | unlink path =>
    obtain ⟨r, hf, rfl⟩ := (hb.unlinkPath (h.cwd_ref i) path).map_ok hrun
    exact hf.fits (by omega)
  | chdir path =>
    obtain ⟨r, ⟨-, ⟨n, hl⟩, -⟩, rfl⟩ := (h.sysChdir hi path).map_ok hrun
    exact hl.fits_one (by omega)
  | exec path mem =>
    obtain ⟨r, ⟨-, hd⟩, rfl⟩ := (hb.execPath (h.cwd_ref i) path mem).map_ok hrun
    exact hd.fits
  | write f src j n =>
    simp only [Kernel.transact] at hrun
    split at hrun
    · rename_i hf
      have hlen : min (n - j) Kernel.maxWrite ≤ Kernel.maxWrite := Nat.min_le_right _ _
      have hsmall : min (n - j) Kernel.maxWrite < 2 ^ 32 := Nat.lt_of_le_of_lt hlen (by decide)
      obtain ⟨r, ⟨-, -, hl, -⟩, rfl⟩ := (h.writeChunk hf.2 hf.1 src j hsmall).map_ok hrun
      have := spanned_maxWrite hlen (k.file f).off
      exact hl.fits_one (by omega)
    · cases hrun
      exact (SameDisk.refl _).fits
  | close f =>
    simp only [Kernel.transact] at hrun
    split at hrun
    · rename_i hf
      exact (hb.lend (h.inodes.file_pos hf)).iput_fits hrun
    · cases hrun
      exact (SameDisk.refl _).fits
  | leave =>
    simp only [Kernel.transact] at hrun
    split at hrun
    · cases hrun
      exact (SameDisk.refl _).fits
    · rename_i e hcwd
      exact (hb.lend (h.inodes.cwd_pos hcwd)).iput_fits hrun
  | audit num =>
    obtain ⟨-, -, n, hl⟩ := (hb.auditLogWrite (k.proc i).pid num).of_ok hrun
    exact hl.fits_one (by omega)

theorem Reclaimed.fits (h : Reclaimed n fs fs') : WithinLimit fs fs' := by
  rcases h.disk with hd | ⟨hf, -⟩
  · exact hd.fits
  · exact hf.logs.fits_one (by omega)

/-- No operation logs more than `MAXOPBLOCKS` blocks on a disk whose bitmap is one block:
neither those of system calls, between which the tables agree, nor a turn of `ireclaim`,
which finds inodes that nobody has. -/
theorem operations_fit :
    (∀ (k : Kernel) (i : Slot) (op : Kernel.Op) (fs' : Fs), Consistent k → k.alive i = true →
      k.fs.logged = [] → k.fs.sb.size ≤ bpb → k.transact i op = .ok fs' →
      fs'.logged.toFinset.card ≤ maxopblocks) ∧
    ∀ (fs fs' : Fs) (n : Nat), Orderly fs → n < fs.sb.ninodes → fs.logged = [] → fs.sb.size ≤ bpb →
      fs.ireclaimStep n = .ok fs' → fs'.logged.toFinset.card ≤ maxopblocks := by
  constructor
  · intro k i op fs' hk hi h0 hone hrun
    exact hk.transact_fits (present_of_alive hi) op hrun h0 hone
  · intro fs fs' n ho hn h0 hone hrun
    exact ((ho.ireclaimStep (Nat.lt_of_lt_of_le hn ho.few)).of_ok hrun).fits h0 hone

/-- Creating a directory in the root of a fresh disk: the bitmap, the block of the two
inodes, and the blocks of the two directories. -/
theorem operations_fit_mkdir :
    ∃ k fs', bootDisk freshDisk = .ok k ∧ k.transact 0 (.mkdir (bytes ['a'])) = .ok fs' ∧
      fs'.logged.toFinset.card = 4 ∧ fs'.logged.toFinset.card ≤ maxopblocks := by
  obtain ⟨k, hb, hrun⟩ := (by decide +kernel : Runs (bootDisk freshDisk) fun k => k.fs.logged = [] ∧
    k.fs.sb.size ≤ bpb ∧ k.alive 0 = true ∧ Runs (k.transact 0 (.mkdir (bytes ['a']))) fun fs' =>
      fs'.logged.toFinset.card = 4).result
  obtain ⟨h0, hone, hi, hmk⟩ := hrun
  obtain ⟨fs', hfs', hfour⟩ := hmk.result
  have hk := (freshDisk_wellFormed.started hb).consistent
  exact ⟨k, fs', hb, hfs', hfour, operations_fit.1 k 0 _ fs' hk hi h0 hone hfs'⟩

end Xv6Filter.Proofs
