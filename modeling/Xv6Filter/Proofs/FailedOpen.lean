import Xv6Filter.Proofs.Runs

namespace Xv6Filter.Proofs
open Lib

/-- From `k` to `k'` nothing changed that a process can see: not the tree of directories, no
inode and no contents, no descriptor, no open file and no reference count. -/
structure Untouched (k k' : Kernel) : Prop where
  files : FilesKept k.fs k'.fs
  proc : k'.proc = k.proc
  file : k'.file = k.file
  refs : ∀ e, (k'.fs.inode e).ref = (k.fs.inode e).ref

theorem Busy.refs_same (h : Busy fs0 [] fs) (e : Ip) : (fs.inode e).ref = (fs0.inode e).ref := by
  simpa using h.refs e

theorem descriptor_ne_minusOne (fd : Fin nofile) : BitVec.ofNat 64 fd ≠ minusOne := by
  have hone : minusOne.toNat = 2 ^ 64 - 1 := by decide
  intro he
  have hval := congrArg BitVec.toNat he
  have hlt := fd.isLt
  simp only [hone, nofile, BitVec.toNat_ofNat] at hval hlt
  omega

/-- An `open` that found its inode and still fails lets it go, and no more. -/
theorem openInstall_failed (h : Consistent k)
    (hrun : Kernel.openInstall { k with fs := fs1 } i ip omode = .ok (minusOne, k')) :
    ∃ fs2, fs1.iunlockput ip = .ok fs2 ∧ k' = { k with fs := fs2 } := by
  have hleave : (do
        let fs ← fs1.iunlockput ip
        pure (minusOne, ({ k with fs := fs } : Kernel))) = .ok (minusOne, k') →
      ∃ fs2, fs1.iunlockput ip = .ok fs2 ∧ k' = { k with fs := fs2 } := by
    intro hrun
    obtain ⟨fs2, hput, hrun⟩ := bind_eq_ok.mp hrun
    cases hrun
    exact ⟨fs2, hput, rfl⟩
  unfold Kernel.openInstall at hrun
  dsimp only at hrun
  split at hrun
  · exact hleave hrun
  split at hrun
  · exact hleave hrun
  rename_i f k1 hf
  obtain ⟨hr, rfl⟩ := Coherent.filealloc_some hf
  dsimp only at hr
  split at hrun
  · have hback := Coherent.fileclose_fresh (k := { k with fs := fs1 }) (h.files.closed f) hr i
    rw [hback] at hrun
    exact hleave hrun
  · split at hrun <;> obtain ⟨_, -, hrun⟩ := bind_eq_ok.mp hrun <;>
      obtain ⟨_, -, hrun⟩ := bind_eq_ok.mp hrun <;>
      exact absurd (congrArg Prod.fst (Except.ok.inj hrun)) (descriptor_ne_minusOne _)

theorem openPath_failed (h : Consistent k) (hrun : k.openPath i path omode = .ok (minusOne, k')) :
    Untouched k k' ↔ (omode &&& oCreate ≠ 0 → CannotMake (cwdInum k i) path k.fs) := by
  have hbegin := Busy.begin h.inodes.settled
  have hopen := hbegin.openInode h.firm (h.cwd_ref i) path omode
  unfold Kernel.openPath at hrun
  split at hrun
  · cases hrun
  · rename_i fs1 hw
    cases hrun
    obtain ⟨d, n, -, htried, ⟨-, hb, -⟩ | ⟨ip, hip, -⟩⟩ := hopen.of_ok hw
    · refine Iff.trans ?_ (htried.none rfl)
      exact ⟨fun hk => hk.files, fun hk => ⟨hk, rfl, rfl, hb.refs_same⟩⟩
    · cases hip
  · rename_i ip fs1 hw
    obtain ⟨d, n, -, htried, ⟨hip, -⟩ | ⟨_, hip, hb, -⟩⟩ := hopen.of_ok hw
    · cases hip
    cases hip
    obtain ⟨fs2, hput, rfl⟩ := openInstall_failed h hrun
    rcases htried.some ip rfl with ⟨hd, hmay⟩ | ⟨hmay, hfree, hlink⟩
    · obtain ⟨hb2, hd2⟩ := (hb.iunlockput_kept ((hbegin.lasting n).of_sameDisk hd)).of_ok hput
      exact ⟨fun _ => hmay, fun _ => ⟨(hd.trans hd2).filesKept, rfl, rfl, hb2.refs_same⟩⟩
    · rw [hb.inum_eq] at hfree hlink
      obtain ⟨-, hd2⟩ := (hb.iunlockput_kept fun _ hz => absurd hz hlink).of_ok hput
      refine ⟨fun hk => ?_, fun hyes => absurd hyes hmay⟩
      have htype : (fs2.dinode n).type ≠ tFree := by
        rw [hd2.dinode]
        exact hb.copy.typed
      rcases hk.files.inodes n with hsame | ⟨-, hnone⟩
      · rw [hsame] at htype
        exact absurd hfree htype
      · exact absurd hnone htype

/-- A failed `open` changes nothing exactly when it is not one that makes a file, or no file
can be made at its path. -/
theorem failed_open_iff (h : Consistent k) (hrun : k.perform i (.opens path omode) = .ok (minusOne, k')) :
    Untouched k k' ↔ ∀ p, path = some p → omode &&& oCreate ≠ 0 → CannotMake (cwdInum k i) p k.fs := by
  cases path with
  | none =>
    cases hrun
    exact ⟨fun _ => nofun, fun _ => ⟨(SameDisk.refl _).filesKept, rfl, rfl, fun _ => rfl⟩⟩
  | some p =>
    rw [openPath_failed h hrun]
    exact ⟨fun hc _ hp => Option.some.inj hp ▸ hc, fun hc => hc p rfl⟩

/-- An `open` of a name that does not exist. -/
theorem failed_open_iff_missing : ∃ k k', bootDisk freshDisk = .ok k ∧
    k.perform 0 (.opens (some (bytes ['x'])) oRdwr) = .ok (minusOne, k') ∧ Untouched k k' := by
  obtain ⟨k, hb, hfail⟩ := (show Runs (bootDisk freshDisk) fun k =>
    Runs (k.perform 0 (.opens (some (bytes ['x'])) oRdwr)) fun r => r.1 = minusOne by decide +kernel).result
  obtain ⟨⟨_, k'⟩, hrun, rfl⟩ := hfail.result
  have hk := (freshDisk_wellFormed.started hb).consistent
  exact ⟨k, k', hb, hrun, (failed_open_iff hk hrun).mpr fun _ _ hc => absurd hc (by decide)⟩

def openSixteen : List (Slot × Call) := List.replicate nofile (0, .opens (some rootPath) oRdonly)

/-- With no descriptor left, an `open` that is to make a file fails and makes it. -/
theorem failed_open_makes_file : ∃ k k1 k2, bootDisk freshDisk = .ok k ∧
    Run Kernel.callStep anyEvent k openSixteen k1 ∧
    k1.perform 0 (.opens (some (bytes ['x'])) (oCreate ||| oRdwr)) = .ok (minusOne, k2) ∧
    ¬ Untouched k1 k2 := by
  obtain ⟨k, k1, hb, hr, hfail⟩ : ∃ k k1, bootDisk freshDisk = .ok k ∧
      Run Kernel.callStep anyEvent k openSixteen k1 ∧
      (Runs (k1.perform 0 (.opens (some (bytes ['x'])) (oCreate ||| oRdwr))) fun r => r.1 = minusOne ∧
        (k1.fs.dinode 2).type = tFree ∧ (r.2.fs.dinode 2).type = tFile) :=
    boot_replay (by decide +kernel)
  obtain ⟨⟨_, k2⟩, hrun, rfl, hfree, hfile⟩ := hfail.result
  refine ⟨k, k1, k2, hb, hr, hrun, fun hk => ?_⟩
  have hkind := congrFun (congrArg Tree.kind hk.files.names) 2
  have hmade : (tree k2.fs).kind 2 = tFile := hfile
  have hnone : (tree k1.fs).kind 2 = tFree := hfree
  rw [hmade, hnone] at hkind
  exact absurd hkind (by decide)

end Xv6Filter.Proofs
