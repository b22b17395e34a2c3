import Xv6Filter.Proofs.HolderSteps

namespace Xv6Filter.Proofs
open Lib Function

namespace Consistent

variable {k k' : Kernel} {i : Slot}

theorem firm (h : Consistent k) : Firm k.fs k.fs := h.inodes.settled.toSane.firm

theorem cwd_ref (h : Consistent k) (i : Slot) : ∀ e ∈ (k.proc i).cwd, 0 < (k.fs.inode e).ref :=
  fun _ he => h.inodes.cwd_pos he

structure Opened (ip : Ip) (omode : I32) (ff : File) : Prop where
  type : ff.type = .inode ∨ ff.type = .device
  ip : ff.ip = ip
  ref : ff.ref = 1
  writable : omode = oRdonly → ff.writable = false

theorem opened_openedFile {ff : File} (hr : ff.ref = 1) (ip : Ip) (d : Dinode) (omode : I32) :
    Opened ip omode (Kernel.openedFile ff ip d omode) := by
  unfold Kernel.openedFile
  dsimp only
  refine ⟨?_, rfl, ?_, ?_⟩
  · split
    · exact .inr rfl
    · exact .inl rfl
  · split <;> exact hr
  · rintro rfl
    simp

theorem installed (h : Consistent k) (hp : Present k i) (hr : (k.file f).ref = 0)
    (hfree : (k.proc i).ofile fd = none) (hff : Opened ip omode ff) (hb : Busy k.fs [⟨ip, n, true⟩] k'.fs)
    (hdir : (k'.fs.dinode n).type = tDir → omode = oRdonly)
    (hproc : k'.proc = update k.proc i
      { k.proc i with ofile := update (k.proc i).ofile fd (some f) })
    (hfile : k'.file = update k.file f ff) (hpipe : k'.pipe = k.pipe) : Consistent k' := by
  have htype := h.files.closed f hr
  have hopen : ff.type ≠ .none := by
    rcases hff.type with hty | hty <;> simp [hty]
  have hfiles : FileRefs (oneMore (fun _ => 0) f) k.proc (update k.file f ff) := by
    refine h.files.setFile ?_ (fun hz => ?_) fun _ => hopen
    · intro g
      simp [oneMore, hff.ref, hr]
    · rw [hff.ref] at hz
      cases hz
  refine ⟨?_, ?_, ?_, ?_⟩
  · rw [hproc, hfile]
    refine hfiles.setOfile ?_
    intro g
    rw [hfree]
    simp [oneMore, eq_comm (a := f)]
  · rw [hfile, hpipe]
    refine h.pipes.setFile fun pi w => ?_
    rcases hff.type with hty | hty <;> simp [IsEnd, htype, hty]
  · rw [hproc]
    exact h.procs.setOfile hp fd (some f)
  · rw [hproc, hfile]
    have hinodes : InodeRefs k.proc (update k.file f ff) k'.fs := by
      refine h.inodes.opens htype hff.type hff.ip hb ?_
      intro _ hw hk
      rw [hff.writable (hdir hk)] at hw
      cases hw
    refine hinodes.congr ?_ (fun _ => rfl) (fun _ => rfl) fun _ => rfl
    intro j
    by_cases hj : j = i <;> simp [hj]

/-- What an operation that began in `fs` may have at its end: nothing, or something that is
a directory only in read-only mode. -/
def Keeps (omode : I32) (fs fs' : Fs) : Prop :=
  ∃ hs, Busy fs hs fs' ∧ ∀ t ∈ hs, (fs'.dinode t.inum).type = tDir → omode = oRdonly

section

variable (h : Consistent k)

include h

theorem openInstall (hp : Present k i) (hb : Busy k.fs [⟨ip, n, true⟩] fs1)
    (hdir : (fs1.dinode n).type = tDir → omode = oRdonly) :
    Post (Kernel.openInstall { k with fs := fs1 } i ip omode) Plain fun r =>
      Consistent r.2 ∧ Reaped (tree fs1) (tree r.2.fs) ∧ Keeps omode k.fs r.2.fs ∧
        Logs {fs1.iblock n} 0 fs1 r.2.fs := by
  have hleave : Post (do
        let fs ← fs1.iunlockput ip
        pure (minusOne, ({ k with fs := fs } : Kernel))) Plain fun r =>
      Consistent r.2 ∧ Reaped (tree fs1) (tree r.2.fs) ∧ Keeps omode k.fs r.2.fs ∧
        Logs {fs1.iblock n} 0 fs1 r.2.fs := by
    refine hb.iunlockput.bind ?_
    rintro fs2 ⟨h2, hd2⟩
    exact ⟨Coherent.setFs h h2, (Reaped.refl _).drop hd2, ⟨[], h2, by simp⟩, (Logs.refl _ 0 _).drop hd2⟩
  unfold Kernel.openInstall
  dsimp only
  split
  · exact hleave
  split
  · exact hleave
  rename_i f k1 hf
  obtain ⟨hr, rfl⟩ := Coherent.filealloc_some hf
  dsimp only at hr
  split
  · have hback := Coherent.fileclose_fresh (k := { k with fs := fs1 }) (h.files.closed f) hr i
    rw [hback]
    exact hleave
  rename_i fd k2 hfd
  unfold Kernel.fdalloc at hfd
  split at hfd
  · cases hfd
  rename_i hfind
  cases hfd
  have hfree := List.find?_some hfind
  rw [Option.isNone_iff_eq_none] at hfree
  have hff : Opened ip omode (Kernel.openedFile { k.file f with ref := 1 } ip (fs1.inode ip).din omode) :=
    opened_openedFile rfl ip _ omode
  simp only [Kernel.setProc_file, Kernel.setFile_file, update_self, Kernel.setFile_fs,
    Kernel.setProc_fs, Kernel.setFile_proc] at hfree ⊢
  generalize Kernel.openedFile { k.file f with ref := 1 } ip (fs1.inode ip).din omode = ff at hff
  have hend : ∀ fs2, Busy k.fs [⟨ip, n, true⟩] fs2 → Logs {fs1.iblock n} 0 fs1 fs2 → tree fs2 = tree fs1 →
      ∀ K : Kernel, K.proc = update k.proc i
        { k.proc i with ofile := update (k.proc i).ofile fd (some f) } →
      K.file = update k.file f ff → K.pipe = k.pipe →
      Post (do
        let fs ← fs2.iunlock ip
        pure (BitVec.ofNat 64 fd, ({ K with fs := fs } : Kernel))) Plain fun r =>
      Consistent r.2 ∧ Reaped (tree fs1) (tree r.2.fs) ∧ Keeps omode k.fs r.2.fs ∧
        Logs {fs1.iblock n} 0 fs1 r.2.fs := by
    intro fs2 hb2 hl2 ht2 K hproc hfile hpipe
    refine (hb2.iunlock ip).bind ?_
    rintro fs3 ⟨hb3, hd3⟩
    have ht3 : tree fs3 = tree fs1 := (tree_sameDisk hd3).trans ht2
    have hdir3 : (fs3.dinode n).type = tDir → omode = oRdonly := by
      intro hk
      have hk1 : (tree fs1).kind n = tDir := ht3 ▸ hk
      exact hdir hk1
    refine ⟨h.installed hp hr hfree hff hb3 hdir3 hproc hfile hpipe, by rw [ht3]; exact .refl _,
      ⟨[⟨ip, n, true⟩], hb3, ?_⟩, hl2.tail hd3.logs⟩
    intro t ht
    cases List.mem_singleton.mp ht
    exact hdir3
  split
  · rename_i hc
    have hn : (fs1.dinode n).type ≠ tDir := by
      rw [← hb.copy.same, hc.2]
      decide
    obtain ⟨fs2, hrun, htr⟩ := hb.copy.itrunc hb.sane.acct
    rw [hrun]
    refine hend fs2 (hb.truncated htr) htr.logs (htr.tree_eq hn)
      (((k.setFile f { k.file f with ref := 1 }).setOfile i fd (some f)).setFile f ff) rfl ?_ rfl
    exact update_idem ..
  · refine hend fs1 hb (.refl _ _ _) rfl
      (((k.setFile f { k.file f with ref := 1 }).setOfile i fd (some f)).setFile f ff) rfl ?_ rfl
    exact update_idem ..

/-- `open` keeps the counts, and its tree is the old one or has one file more. -/
theorem openPath (hp : Present k i) (path : List Byte) (omode : I32) :
    Post (k.openPath i path omode) (Astray k.fs 2 (tree k.fs)) fun r => Consistent r.2 ∧
      (∃ d n, Logs {k.fs.iblock d, k.fs.iblock n} 6 k.fs r.2.fs) ∧ Keeps omode k.fs r.2.fs ∧
      (Reaped (tree k.fs) (tree r.2.fs) ∨ omode &&& oCreate ≠ 0 ∧ ∃ d n name,
        (tree k.fs).resolve true (cwdInum k i) path = some (d, name) ∧
        Made d n tFile name (tree k.fs) (tree r.2.fs)) := by
  unfold Kernel.openPath
  have hopen := (Busy.begin h.inodes.settled).openInode h.firm (h.cwd_ref i) path omode
  split
  · rename_i why hw
    exact hopen.of_error hw
  · rename_i fs1 hw
    obtain ⟨d, n, hl, -, hres⟩ := hopen.of_ok hw
    rcases hres with ⟨-, hb, ht⟩ | ⟨ip, hip, -⟩
    · refine ⟨Coherent.setFs h hb, ⟨d, n, hl⟩, ⟨[], hb, by simp⟩, .inl ?_⟩
      dsimp only at ht ⊢
      rw [ht]
      exact .refl _
    · cases hip
  · rename_i ip fs1 hw
    obtain ⟨d, n, hl, -, hres⟩ := hopen.of_ok hw
    rcases hres with ⟨hip, -⟩ | ⟨_, hip, hb, hdir, htree⟩
    · cases hip
    · cases hip
      refine (h.openInstall hp hb hdir).imp (fun _ he => .plain he) ?_
      rintro r ⟨hk, hreap, hkeep, hl'⟩
      dsimp only at hl htree hreap hl'
      rw [hl.iblock_sb] at hl'
      refine ⟨hk, ⟨d, n, hl.tail (hl'.mono (by simp) (Nat.le_refl 0))⟩, hkeep, ?_⟩
      rcases htree with ht | ⟨hc, name, hpath, hmade⟩
      · rw [ht] at hreap
        exact .inl hreap
      · exact .inr ⟨hc, d, n, name, hpath, { hmade with result := hmade.result.trans hreap }⟩

theorem sysChdir (hp : Present k i) (path : List Byte) :
    Post (k.sysChdir i path) (Astray k.fs 2 (tree k.fs)) fun r => Consistent r.2 ∧
      (∃ n, Logs {k.fs.iblock n} 0 k.fs r.2.fs) ∧ Reaped (tree k.fs) (tree r.2.fs) := by
  obtain ⟨e, hcwd⟩ := h.procs.home i hp.1 hp.2
  unfold Kernel.sysChdir
  rw [hcwd]
  have hdir := (Busy.begin h.inodes.settled).chdirPath (h.inodes.cwd_pos hcwd) path
  split
  · rename_i why hw
    exact hdir.of_error hw
  · rename_i fs1 hw
    obtain ⟨hl, ⟨-, hb, ht⟩ | ⟨_, _, hip, -⟩⟩ := hdir.of_ok hw
    · refine ⟨Coherent.setFs h hb, hl, ?_⟩
      dsimp only at ht ⊢
      rw [ht]
      exact .refl _
    · cases hip
  · rename_i ip fs1 hw
    obtain ⟨hl, ⟨hip, -⟩ | ⟨_, n, hip, hb, -, hreap⟩⟩ := hdir.of_ok hw
    · cases hip
    · cases hip
      refine ⟨⟨?_, h.pipes, ⟨?_, ?_⟩, ?_⟩, hl, hreap⟩
      · refine h.files.congr ?_
        intro j
        by_cases hj : j = i <;> simp [hj]
      · intro j
        by_cases hj : j = i
        · subst hj
          simp [hp.1, hp.2]
        · simpa [hj] using h.procs.gone j
      · intro j
        by_cases hj : j = i
        · subst hj
          simp
        · simpa [hj] using h.procs.home j
      · refine h.inodes.moves hcwd hb ?_ (by simp)
        intro x
        simp [cwdUse, List.countP_singleton]

theorem onFs {r : Kern (Bool × Fs)} {E : Stop → Prop} {P : Nat → Nat → Tree → Prop}
    (hr : Post r E fun r => Finished k.fs k.fs x P r.2) :
    Post (k.onFs r) E fun r => Consistent r.2 ∧ r.2.fs.sb = k.fs.sb ∧
      (tree r.2.fs = tree k.fs ∨ ∃ d n, P d n (tree r.2.fs)) := by
  unfold Kernel.onFs
  split
  · exact hr
  · rename_i done fs' 
    have hfin : Finished k.fs k.fs x P fs' := hr
    obtain ⟨hb, d, n, hl, ht⟩ := hfin
    exact ⟨Coherent.setFs h hb, hl.sb, ht.imp id fun hP => ⟨d, n, hP⟩⟩

theorem kexec (path : List Byte) (mem : ExecMem) (image : Image) :
    Post (k.kexec i path mem image) (Astray k.fs 2 (tree k.fs)) fun r =>
      Consistent r.2 ∧ SameDisk k.fs r.2.fs := by
  unfold Kernel.kexec
  dsimp only
  have hexec := (Busy.begin h.inodes.settled).execPath (h.cwd_ref i) path mem
  split
  · rename_i why hw
    exact hexec.of_error hw
  · rename_i fs1 hw
    obtain ⟨hb, hd⟩ := hexec.of_ok hw
    exact ⟨Coherent.setFs h hb, hd⟩
  · rename_i entry fs1 hw
    obtain ⟨hb, hd⟩ := hexec.of_ok hw
    have hk := Coherent.setFs h hb
    split
    · exact ⟨hk, hd⟩
    · exact ⟨Coherent.setProc hk rfl rfl rfl, hd⟩

theorem kwait (addr : U64) (copied : Bool) :
    Post (k.kwait i addr copied) Plain fun r => Consistent r.2 ∧ r.2.fs = k.fs := by
  unfold Kernel.kwait
  split
  · rename_i j hscan
    split
    · exact ⟨h, rfl⟩
    · have hz : (k.proc j).state = .zombie := by
        unfold Kernel.kwaitScan at hscan
        split at hscan
        · rename_i x hfind
          cases hscan
          have := List.find?_some hfind
          simp only [decide_eq_true_eq] at this
          exact this.2
        · split at hscan <;> cases hscan
      obtain ⟨hof, hcwd⟩ := h.procs.gone j (.inr hz)
      have hsame : ∀ x, ((k.freeproc j).proc x).ofile = (k.proc x).ofile ∧
          ((k.freeproc j).proc x).cwd = (k.proc x).cwd := by
        intro x
        by_cases hx : x = j <;> simp [Kernel.freeproc, hx]
      refine ⟨⟨h.files.congr fun x => (hsame x).1, h.pipes, ⟨?_, ?_⟩,
        h.inodes.congr (fun x => (hsame x).2) (fun _ => rfl) (fun _ => rfl) fun _ => rfl⟩, rfl⟩
      · intro x
        rw [(hsame x).1, (hsame x).2]
        by_cases hx : x = j
        · subst hx
          exact fun _ => ⟨hof, hcwd⟩
        · simpa [Kernel.freeproc, hx] using h.procs.gone x
      · intro x
        rw [(hsame x).2]
        by_cases hx : x = j
        · subst hx
          simp [Kernel.freeproc]
        · simpa [Kernel.freeproc, hx] using h.procs.home x
  · split
    · exact ⟨h, rfl⟩
    · simp [Post, Plain]
  · exact ⟨h, rfl⟩

end

end Consistent

end Xv6Filter.Proofs
