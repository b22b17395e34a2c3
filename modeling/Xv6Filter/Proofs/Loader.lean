import Xv6Filter.Proofs.Execs
import Xv6Filter.Proofs.Locks
import Xv6Filter.Proofs.PageRuns
import Xv6Filter.Proofs.Runs

namespace Xv6Filter.Paging
open Lib Proofs

theorem runs_onRam {x : Checked α} {Q : α → Prop} (h : Runs x Q) : Runs (onRam x) Q := by
  cases x with
  | error e => exact h.elim
  | ok a => exact h

theorem Returned.perm (h : Returned m m') : List.Perm m'.free m.free := by
  rw [List.perm_iff_count]
  intro f
  rw [← at_sum, ← at_sum]
  exact h.weight (at_ f)

structure FsReturned (fs fs' : Fs) : Prop where
  busy : Busy fs [] fs'
  disk : SameDisk fs fs'
  locks : Locked [] fs'

/-- What `kexec` has done by `end_op`: no trace in the file system or the log, and the program in
pages that were free. -/
structure FileLoaded (x : Task) (tf : Frame) (image : Option (Nat × Nat × Table)) (x' : Task) : Prop where
  kernel : x'.kernel = { x.kernel with fs := x'.fs }
  space : x'.space = x.space
  outstanding : x'.outstanding = x.outstanding
  fs : FsReturned x.fs x'.fs
  ram : ImageLoaded x.ram tf image x'.ram

section Image

variable {x : Task} {i : Slot} {tf : Frame}

def FileAt (x : Task) (i : Slot) (path : List Byte) : Prop :=
  Runs (x.fs.namei (x.kernel.proc i).cwd path) fun r =>
    ∀ ip ∈ r.1, (r.2.dinode (r.2.inode ip).inum).type ≠ tFree

theorem ReadsAs.of_dense {fs : Fs} {ip : Ip} (hd : Dense fs.data (fs.inode ip).din (fs.inode ip).din.size) :
    ReadsAs fs ip (contents fs.data (fs.inode ip).din (fs.inode ip).din.size) := by
  intro off n
  have hlen : (contents fs.data (fs.inode ip).din (fs.inode ip).din.size).length = (fs.inode ip).din.size := by
    simp [contents]
  unfold Fs.readiKernel Fs.readi readFile
  rw [hlen]
  dsimp only
  by_cases hno : (fs.inode ip).din.size < off ∨ (off + n) % 2 ^ 32 < off
  · simp only [if_pos hno]
    rfl
  simp only [if_neg hno]
  rw [not_or] at hno
  generalize hk : (if (fs.inode ip).din.size < off + n then (fs.inode ip).din.size - off else n) = k
  have hfit : off + (k - 0) ≤ (fs.inode ip).din.size := by
    split at hk <;> omega
  have htext : ((contents fs.data (fs.inode ip).din (fs.inode ip).din.size).drop off).take n =
      slice (byteAt fs.data (fs.inode ip).din) off k := by
    apply List.ext_getElem
    · simp only [List.length_take, List.length_drop, hlen, length_slice]
      split at hk <;> omega
    · intro j h1 h2
      simp [slice, contents]
  rw [readiLoop_kernel hd (Nat.zero_le k) hfit k (by omega), htext, Nat.sub_zero, length_slice]
  rfl

theorem FileAt.text (h : FileAt x i path) (hk : Consistent x.kernel) (hcwd : (x.kernel.proc i).cwd.isSome)
    (hl : Locked [] x.fs) : ∃ file, FileText x i path file := by
  obtain ⟨⟨found, fs1⟩, hnamei, hfile⟩ := h.result
  obtain ⟨hl1, name, hw⟩ := ((Busy.begin hk.inodes.settled).namei_sure (hk.cwd_ref i) hcwd hl path).of_ok hnamei
  cases found with
  | none =>
    refine ⟨none, fun found' fs1' h' => ?_⟩
    cases hnamei.symm.trans h'
    rfl
  | some ip =>
    obtain ⟨n, -, hb1, -⟩ := hw.some ip name rfl
    have hn : (fs1.dinode n).type ≠ tFree := by
      rw [← hb1.inum_eq]
      exact hfile ip rfl
    obtain ⟨fs2, hlock, -, hb2, -⟩ := (hb1.ilock_file hl1 hn).result
    refine ⟨some (contents fs2.data (fs2.inode ip).din (fs2.inode ip).din.size), fun found' fs1' h' => ?_⟩
    cases hnamei.symm.trans h'
    refine ⟨_, rfl, fun fs2' h'' => ?_⟩
    cases hlock.symm.trans h''
    exact .of_dense hb2.dense_copy

/-- `exec` seen twice: the process table and the file system are left as `Kernel.kexec` leaves them,
and the pages as `Ram.kexec` does for the contents of the file. -/
theorem kexec_agrees (hk : Consistent x.kernel) (hcwd : (x.kernel.proc i).cwd.isSome) (hl : Locked [] x.fs)
    (hpath : FileAt x i path) (h : x.kexec i tf path argv = .ok (argc, x')) :
    ∃ file mem image, x.ram.kexec x.space tf file argv = .ok (argc, x'.ram, x'.space) ∧
      x.kernel.kexec i path mem image = .ok (argc.elim minusOne (BitVec.ofNat 64), x'.kernel) := by
  obtain ⟨file, hf⟩ := hpath.text hk hcwd hl
  obtain ⟨mem, image, hkernel⟩ := kexec_kernel h
  exact ⟨file, mem, image, kexec_ram h hf, hkernel⟩

/-- The transaction of `kexec` returns, with the inode unlocked and put. -/
theorem fileLoaded_runs (tf : Frame) (hk : Consistent x.kernel) (hcwd : (x.kernel.proc i).cwd.isSome) (hl : Locked [] x.fs)
    (hc : Clean x.ram) (hfew : x.ram.free.length ≤ physFrames) (hpath : FileAt x i path) :
    Runs (x.loadImage i tf path) fun r => FileLoaded x tf r.1 r.2 := by
  have hs : Settled x.fs := hk.inodes.settled
  obtain ⟨⟨found, fs1⟩, hnamei, hfile⟩ := hpath.result
  obtain ⟨hl1, name, hw⟩ := ((Busy.begin hs).namei_sure (hk.cwd_ref i) hcwd hl path).of_ok hnamei
  cases found with
  | none =>
    have hnamei : onFs (x.beginOp.fs.namei (x.beginOp.kernel.proc i).cwd path) = .ok (none, fs1) := congrArg onFs hnamei
    unfold Task.loadImage
    dsimp only
    rw [hnamei]
    exact ⟨rfl, rfl, rfl, ⟨(hw.none rfl).2, hw.disk, hl1⟩, Returned.refl _⟩
  | some ip =>
    obtain ⟨n, -, hb1, -⟩ := hw.some ip name rfl
    have hn : (fs1.dinode n).type ≠ tFree := by
      rw [← hb1.inum_eq]
      exact hfile ip rfl
    obtain ⟨fs2, hlock, hl2, hb2, hd2⟩ := (hb1.ilock_file hl1 hn).result
    have hdisk : SameDisk x.fs fs2 := hw.disk.trans hd2
    rw [loadImage_eq hnamei hlock (.of_dense hb2.dense_copy)]
    refine (runs_onRam (loadImage_runs hc hfew tf _)).bind ?_
    rintro ⟨image, m⟩ hloaded
    obtain ⟨fs', hput, hlocks⟩ := (hl2.iunlockput List.not_mem_nil hb2).result
    obtain ⟨hb', hd'⟩ := (hb2.iunlockput_kept (((Busy.begin hs).lasting n).of_sameDisk hdisk)).of_ok hput
    rw [hput]
    exact ⟨rfl, rfl, rfl, ⟨hb', hdisk.trans hd', hlocks⟩, hloaded⟩

end Image

/-- What a failed `kexec` leaves of the process, the log, the inodes and the pages: everything. -/
structure Untouched (x x' : Task) : Prop where
  kernel : x'.kernel = { x.kernel with fs := x'.fs }
  space : x'.space = x.space
  outstanding : x'.outstanding = x.outstanding
  data : ∀ f, f ∉ x.ram.free → x'.ram.data f = x.ram.data f
  free : List.Perm x'.ram.free x.ram.free
  disk : SameDisk x.fs x'.fs
  refs : ∀ e, (x'.fs.inode e).ref = (x.fs.inode e).ref
  unlocked : ∀ e, (x'.fs.inode e).locked = false

section Exec

variable {x : Task} {i : Slot} {tf : Frame} {path : List Byte}

theorem FsReturned.refs (h : FsReturned fs fs') (e : Ip) : (fs'.inode e).ref = (fs.inode e).ref := by
  rw [h.busy.refs e]
  exact Int.add_zero _

theorem FsReturned.unlocked (h : FsReturned fs fs') (e : Ip) : (fs'.inode e).locked = false :=
  h.locks.unlocked List.not_mem_nil

/-- `kexec` of any file with any arguments returns, and when it fails nothing has changed. -/
theorem exec_all_or_nothing (hk : Consistent x.kernel) (hcwd : (x.kernel.proc i).cwd.isSome) (hl : Locked [] x.fs)
    (hf : Fit x.ram x.space tf) (hfew : x.ram.free.length ≤ physFrames) (hpath : FileAt x i path)
    (argv : List (List Byte)) (hargs : ∀ arg ∈ argv, arg.length < pgsize) (hmany : argv.length < maxarg) :
    Runs (x.kexec i tf path argv) fun r => r.1 = none → Untouched x r.2 := by
  unfold Task.kexec
  refine (fileLoaded_runs tf hk hcwd hl hf.sound.clean hfew hpath).bind ?_
  rintro ⟨image, x1⟩ h1
  cases image with
  | none =>
    intro _
    have hram : Returned x.ram x1.ram := h1.ram
    exact ⟨h1.kernel, h1.space, h1.outstanding, hram.data, hram.perm, h1.fs.disk, h1.fs.refs, h1.fs.unlocked⟩
  | some image =>
    have hf1 : Fit x.ram x1.space tf := by
      rw [h1.space]
      exact hf
    refine (runs_onRam (startImage_runs h1.ram hf1 hfew argv hargs hmany)).bind ?_
    rintro ⟨started, m, space⟩ h2
    cases started with
    | some r => exact nofun
    | none =>
      intro _
      obtain ⟨hspace, hram, -⟩ := h2
      exact ⟨h1.kernel, hspace.trans h1.space, h1.outstanding, hram.data, hram.perm, h1.fs.disk, h1.fs.refs, h1.fs.unlocked⟩

/-- A program that `kexec` starts finds its arguments; it is not started exactly if they do not fit
the stack, given that it could be loaded and there is memory for the stack. The arguments are
written to the stack page only. -/
theorem exec_passes_arguments (hk : Consistent x.kernel) (hcwd : (x.kernel.proc i).cwd.isSome) (hl : Locked [] x.fs)
    (hf : Fit x.ram x.space tf) (hfew : x.ram.free.length ≤ physFrames) (hpath : FileAt x i path)
    (argv : List (List Byte)) (hargs : ∀ arg ∈ argv, arg.length < pgsize) (hmany : argv.length < maxarg) :
    Runs (x.kexec i tf path argv) fun r =>
      (∀ argc, r.1 = some argc → argc = argv.length ∧
        (r.2.kernel.proc i).trapframe.sp = (r.2.kernel.proc i).trapframe.a1 ∧
        ∃ as, ArgumentsAt (r.2.ram.seen r.2.space) r.2.space.sz argv as (r.2.kernel.proc i).trapframe.a1.toNat) ∧
      ∀ entry sz pt x1, x.loadImage i tf path = .ok (some (entry, sz, pt), x1) →
        (3 * (userstack + 1) ≤ x1.ram.free.length → (r.1 = none ↔ userstack * pgsize < argSpace argv)) ∧
        Runs (x1.ram.buildStack x1.space pt sz argv) fun s => StackOnly x1.ram pt sz s.2.2.1 := by
  have hone : userstack * pgsize = pgsize := by decide
  obtain ⟨⟨image, x1⟩, hload, h1⟩ := (fileLoaded_runs tf hk hcwd hl hf.sound.clean hfew hpath).result
  unfold Task.kexec
  rw [hload, ok_bind]
  cases image with
  | none =>
    refine ⟨nofun, ?_⟩
    intro entry sz pt x' heq
    cases heq
  | some image =>
    obtain ⟨entry, sz, pt⟩ := image
    have hf1 : Fit x.ram x1.space tf := by
      rw [h1.space]
      exact hf
    refine (runs_onRam (startImage_runs h1.ram hf1 hfew argv hargs hmany)).bind ?_
    rintro ⟨started, m, space⟩ h2
    have hstack : Runs (x1.ram.buildStack x1.space pt sz argv) fun s => StackOnly x1.ram pt sz s.2.2.1 :=
      (buildStack_runs h1.ram hf.sound.clean hfew x1.space argv hargs hmany).imp fun _ hs => hs.2.2.2
    cases started with
    | none =>
      obtain ⟨-, -, hwhy⟩ := h2
      refine ⟨nofun, ?_⟩
      intro entry' sz' pt' x' heq
      cases heq
      refine ⟨fun henough => ⟨fun _ => ?_, fun _ => rfl⟩, hstack⟩
      rw [hone]
      exact hwhy.resolve_right (Nat.not_lt.mpr henough)
    | some r =>
      obtain ⟨argc, sp⟩ := r
      obtain ⟨hres, hargc, hfits, as, hfound⟩ := h2
      have hsp : (BitVec.ofNat 64 sp).toNat = sp := by
        have hinside : sp + (argv.length + 1) * 8 ≤ space.sz := hfound.inside
        have hsize := hres.fit.size
        rw [BitVec.toNat_ofNat]
        apply Nat.mod_eq_of_lt
        simp only [trapframeVa, trampolineVa, maxva, pgsize] at hsize
        omega
      refine ⟨?_, ?_⟩
      · rintro argc' heq
        cases heq
        simp only [Kernel.setProc, Function.update_self, hsp]
        exact ⟨hargc, trivial, as, hfound⟩
      · intro entry' sz' pt' x' heq
        cases heq
        refine ⟨fun _ => ⟨nofun, fun hlt => ?_⟩, hstack⟩
        rw [hone] at hlt
        exact absurd hlt (Nat.not_lt.mpr hfits)

end Exec

instance (x : Task) (i : Slot) (path : List Byte) : Decidable (FileAt x i path) := inferInstanceAs (Decidable (Runs _ _))

/-- The first process after the calls `cs` on a fresh disk, on a machine with 200 free frames. -/
def firstTask (cs : List (Slot × Call)) : Option (Task × Frame) := do
  let k ← (bootDisk freshDisk).toOption
  let k ← replay Kernel.callStep anyEvent cs k
  let s ← System.boot 32568 0x80000 1
  let p ← s.space 0
  let tf ← (s.proc 0).trapframe
  some (⟨k, s.ram, p, 0⟩, tf)

theorem firstTask_fit {x : Task} {tf : Frame} (h : firstTask cs = some (x, tf)) :
    Consistent x.kernel ∧ Fit x.ram x.space tf ∧ x.ram.free.length ≤ physFrames := by
  unfold firstTask at h
  generalize hboot : bootDisk freshDisk = booted at h
  obtain ⟨k, hk, h⟩ := Option.bind_eq_some_iff.mp h
  obtain ⟨k', hr, h⟩ := Option.bind_eq_some_iff.mp h
  obtain ⟨s, hs, h⟩ := Option.bind_eq_some_iff.mp h
  obtain ⟨p, hp, h⟩ := Option.bind_eq_some_iff.mp h
  obtain ⟨tf', htf, h⟩ := Option.bind_eq_some_iff.mp h
  cases h
  have howned := run_owned hs .nil
  obtain ⟨tf'', -, htf', -, hf⟩ := howned.fit hp
  cases htf.symm.trans htf'
  have hfew := howned.few hp
  have hlength := Ram.weight_one s.ram
  simp only [held] at hfew
  rw [toOption_eq_some hk] at hboot
  refine ⟨(freshDisk_wellFormed.started hboot).consistent.run (replay_run hr), hf, ?_⟩
  dsimp only
  omega

def elfFile : List (Slot × Call) :=
  [(0, .opens (some (bytes ['/', 'p'])) 0x202),
    (0, .write 0 ⟨fun j => [0x7f, 0x45, 0x4c, 0x46].getD j 0, fun _ n => n⟩ 64 0)]

/-- What the theorems ask for, of the process that has made the file. -/
theorem elfFile_ready (argv : List (List Byte)) (argc : Option Nat)
    (h : (firstTask elfFile).any (fun y => decide ((y.1.kernel.proc 0).cwd.isSome ∧
      (∀ e, (y.1.fs.inode e).locked = false) ∧ FileAt y.1 0 (bytes ['/', 'p']) ∧
      Runs (y.1.kexec 0 y.2 (bytes ['/', 'p']) argv) fun r => r.1 = argc)) = true) :
    ∃ x tf r, firstTask elfFile = some (x, tf) ∧ (x.kernel.proc 0).cwd.isSome ∧ Locked [] x.fs ∧
      FileAt x 0 (bytes ['/', 'p']) ∧ x.kexec 0 tf (bytes ['/', 'p']) argv = .ok r ∧ r.1 = argc := by
  obtain ⟨⟨x, tf⟩, hx, hp⟩ := (Option.any_eq_true ..).mp h
  obtain ⟨hcwd, hl, hpath, hruns⟩ := of_decide_eq_true hp
  obtain ⟨r, hr, hargc⟩ := hruns.result
  refine ⟨x, tf, r, hx, hcwd, ?_, hpath, hr, hargc⟩
  intro e
  rw [hl e]
  simp

/-- An argument that leaves no room for the array. -/
theorem exec_all_or_nothing_long : ∃ x tf r, firstTask elfFile = some (x, tf) ∧
    x.kexec 0 tf (bytes ['/', 'p']) [List.replicate 4090 97] = .ok r ∧ r.1 = none ∧ Untouched x r.2 := by
  obtain ⟨x, tf, r, hx, hcwd, hl, hpath, hr, hfail⟩ := elfFile_ready [List.replicate 4090 97] none (by decide +kernel)
  obtain ⟨hk, hf, hfew⟩ := firstTask_fit hx
  have hshort : ∀ arg ∈ [List.replicate 4090 (97 : Byte)], arg.length < pgsize := by
    intro arg harg
    rw [List.mem_singleton.mp harg, List.length_replicate]
    decide
  obtain ⟨r', hr', hall⟩ := (exec_all_or_nothing hk hcwd hl hf hfew hpath _ hshort (by decide)).result
  cases hr.symm.trans hr'
  exact ⟨x, tf, r, hx, hr, hfail, hall hfail⟩

/-- Two arguments. -/
theorem exec_passes_arguments_two : ∃ x tf r, firstTask elfFile = some (x, tf) ∧
    x.kexec 0 tf (bytes ['/', 'p']) [bytes ['p'], bytes ['-', 'l']] = .ok r ∧ r.1 = some 2 ∧
      ∃ as, ArgumentsAt (r.2.ram.seen r.2.space) r.2.space.sz [bytes ['p'], bytes ['-', 'l']] as
        (r.2.kernel.proc 0).trapframe.a1.toNat := by
  obtain ⟨x, tf, r, hx, hcwd, hl, hpath, hr, hargc⟩ :=
    elfFile_ready [bytes ['p'], bytes ['-', 'l']] (some 2) (by decide +kernel)
  obtain ⟨hk, hf, hfew⟩ := firstTask_fit hx
  obtain ⟨r', hr', hall, -⟩ :=
    (exec_passes_arguments hk hcwd hl hf hfew hpath [bytes ['p'], bytes ['-', 'l']] (by decide) (by decide)).result
  cases hr.symm.trans hr'
  exact ⟨x, tf, r, hx, hr, hargc, (hall 2 hargc).2.2⟩

end Xv6Filter.Paging
