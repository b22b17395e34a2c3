import Xv6Filter.Proofs.Walk
import Xv6Filter.Proofs.Effects

namespace Xv6Filter.Proofs
open Lib Function

/-- What the kernel keeps true between operations, as far as an open of slot `i`
relies on it: sound inodes, a current directory that is held, and closed files
without a type. -/
structure KernelOk (k : Kernel) (i : Slot) : Prop where
  fs : FsOk k.fs
  cwd : ∀ e ∈ (k.proc i).cwd, 1 ≤ (k.fs.inode e).ref
  files : ∀ f, (k.file f).ref = 0 → (k.file f).type = .none

/-- Looking up without O_CREATE changes nothing on disk; a found inode comes locked. -/
theorem openInode_kept {fs0 fs : Fs} (hok : FsOk fs0) {cwd : Option Ip} {path : List Byte}
    {omode : I32} {found : Option Ip} (hcwd : ∀ e ∈ cwd, 1 ≤ (fs0.inode e).ref)
    (hc : omode &&& oCreate = 0) (h : fs0.openInode cwd path omode = .ok (found, fs)) :
    Kept fs0 (only found) fs ∧ ∀ ip ∈ found, Kept.Mine fs0 ip := by
  unfold Fs.openInode at h
  rw [if_neg (not_not.mpr hc)] at h
  obtain ⟨⟨r, fs1⟩, hn, h⟩ := bind_eq_ok.mp h
  obtain ⟨⟨w, fs2⟩, hx, hn⟩ := bind_eq_ok.mp hn
  cases hn
  have hk := Kept.namex hok hcwd hx
  cases hw : w with
  | none =>
    rw [hw] at h hk
    cases h
    exact ⟨hk, by simp⟩
  | some w =>
    rw [hw] at h hk
    simp only [Option.map_some] at h hk
    obtain ⟨fs2, hl, h⟩ := bind_eq_ok.mp h
    obtain ⟨hk2, hm, _, _⟩ := Kept.ilock hok hk hl
    split at h
    · obtain ⟨fs3, hp, h⟩ := bind_eq_ok.mp h
      cases h
      have := Kept.iunlockput hok hk2 hm (Nat.le_of_eq (only_self w.1).symm) hp
      rw [only_drop] at this
      exact ⟨this, by simp⟩
    · cases h
      refine ⟨hk2, ?_⟩
      intro ip hip
      cases hip
      exact hm

theorem filealloc_some {k k' : Kernel} {f : Fp} (h : k.filealloc = some (f, k')) :
    (k.file f).ref = 0 ∧ k'.fs = k.fs ∧ k'.proc = k.proc ∧
      k'.file f = { k.file f with ref := 1 } := by
  unfold Kernel.filealloc at h
  split at h
  · cases h
  · rename_i hf
    cases h
    exact ⟨by simpa using List.find?_some hf, rfl, rfl, by simp⟩

theorem fdalloc_some {k k' : Kernel} {i : Slot} {f : Fp} {fd : Fin nofile}
    (h : k.fdalloc i f = some (fd, k')) :
    k'.fs = k.fs ∧ (k'.proc i).ofile = update (k.proc i).ofile fd (some f) := by
  unfold Kernel.fdalloc at h
  split at h <;> cases h
  exact ⟨rfl, by simp⟩

theorem fileclose_unused {k k' : Kernel} {i : Slot} {f : Fp} (hr : (k.file f).ref = 1)
    (ht : (k.file f).type = .none) (h : k.fileclose i f = .ok k') :
    k'.fs = k.fs ∧ k'.proc = k.proc := by
  simp only [Kernel.fileclose, hr, ht, Int.lt_irrefl, ↓reduceIte, Int.reduceSub,
    Except.ok.injEq] at h
  subst h
  exact ⟨rfl, rfl⟩

def ReadOnlyEffect (k : Kernel) (i : Slot) (k' : Kernel) : Prop :=
  k'.fs.persistent = k.fs.persistent ∧
    ∀ fd f, (k'.proc i).ofile fd = some f → (k.proc i).ofile fd = none →
      (k'.file f).writable = false

theorem openInstall_readOnly {k k' : Kernel} {i : Slot} {fs : Fs} {ip : Ip} {omode : I32} {v : U64}
    (hok : KernelOk k i) (hk : Kept k.fs (only (some ip)) fs) (hm : Kept.Mine k.fs ip)
    (hw : omode &&& oWronly = 0) (hrw : omode &&& oRdwr = 0) (ht : omode &&& oTrunc = 0)
    (h : Kernel.openInstall { k with fs := fs } i ip omode = .ok (v, k')) :
    ReadOnlyEffect k i k' := by
  have put : ∀ {fs'}, fs.iunlockput ip = .ok fs' → fs'.persistent = k.fs.persistent :=
    fun hp => (Kept.iunlockput hok.fs hk hm (Nat.le_of_eq (only_self ip).symm) hp).disk
  unfold Kernel.openInstall at h
  dsimp only at h
  split at h
  · obtain ⟨fs', hp, h⟩ := bind_eq_ok.mp h
    cases h
    exact ⟨put hp, fun fd f h₁ h₂ => by simp_all⟩
  · split at h
    · obtain ⟨fs', hp, h⟩ := bind_eq_ok.mp h
      cases h
      exact ⟨put hp, fun fd f h₁ h₂ => by simp_all⟩
    · rename_i f k1 hf
      obtain ⟨hfree, hfs1, hp1, hfile1⟩ := filealloc_some hf
      split at h
      · obtain ⟨k2, hc, h⟩ := bind_eq_ok.mp h
        obtain ⟨fs', hp, h⟩ := bind_eq_ok.mp h
        cases h
        have htype : (k1.file f).type = .none := by
          rw [hfile1]
          exact hok.files f hfree
        obtain ⟨hfs2, hp2⟩ := fileclose_unused (by rw [hfile1]) htype hc
        rw [hfs2, hfs1] at hp
        refine ⟨put hp, fun fd f h₁ h₂ => ?_⟩
        simp only [hp2, hp1, h₂] at h₁
        cases h₁
      · rename_i fd0 k2 hfd
        obtain ⟨hfs2, hof⟩ := fdalloc_some hfd
        rw [if_neg fun hc => hc.1 ht] at h
        obtain ⟨fs1, hsame, h⟩ := bind_eq_ok.mp h
        cases hsame
        obtain ⟨fs', hu, h⟩ := bind_eq_ok.mp h
        cases h
        simp only [Kernel.setFile_fs, hfs2, hfs1] at hu
        refine ⟨(Kept.iunlock hk hm hu).disk, fun fd f' h₁ h₂ => ?_⟩
        simp only [Kernel.setFile_proc, hof, hp1, update_apply, h₂] at h₁
        split at h₁
        · cases h₁
          simp only [Kernel.setFile_file, update_self, Kernel.openedFile]
          simp only [hw, hrw, ne_eq, not_true_eq_false, or_self, decide_false]
        · cases h₁

/-- Without O_CREATE and O_TRUNC an open for reading has no effect on the disk. -/
theorem sysOpen_readOnly {k k' : Kernel} {i : Slot} {v : U64} (hok : KernelOk k i)
    (hw : argint (k.proc i).trapframe.a1 &&& oWronly = 0)
    (hrw : argint (k.proc i).trapframe.a1 &&& oRdwr = 0)
    (hc : argint (k.proc i).trapframe.a1 &&& oCreate = 0)
    (ht : argint (k.proc i).trapframe.a1 &&& oTrunc = 0)
    (h : Kernel.sysOpen i k = .ret v k') : ReadOnlyEffect k i k' := by
  unfold Kernel.sysOpen at h
  dsimp only at h
  split at h
  · cases h
    exact ⟨rfl, fun fd f h₁ h₂ => by rw [h₂] at h₁; cases h₁⟩
  · rename_i path _
    generalize ho : Kernel.openPath k i path (argint (k.proc i).trapframe.a1) = out at h
    cases out with
    | error why => cases h
    | ok r =>
      cases h
      unfold Kernel.openPath at ho
      split at ho
      · cases ho
      · rename_i fs hi
        cases ho
        have hk := (openInode_kept hok.fs hok.cwd hc hi).1
        exact ⟨hk.disk, fun fd f h₁ h₂ => by rw [h₂] at h₁; cases h₁⟩
      · rename_i ip fs hi
        obtain ⟨hk, hm⟩ := openInode_kept hok.fs hok.cwd hc hi
        exact openInstall_readOnly hok hk (hm ip rfl) hw hrw ht ho

def smallFs : Fs where
  sb := ⟨20, 4, 4, 2, 6, 7⟩
  used := fun b => decide (b ≤ 11)
  dinode := fun n =>
    if n = 1 then ⟨tDir, 0, 0, 1, 16, fun i => if i = 0 then 10 else 0⟩
    else if n = 2 then ⟨tFile, 0, 0, 1, 5, fun i => if i = 0 then 11 else 0⟩
    else .zero
  data := fun b =>
    if b = 10 then splice (fun _ => 0) 0 (Fs.Dirent.encode ⟨2, bytes ['f']⟩) else fun _ => 0
  inode := fun e =>
    if e = 0 then ⟨rootdev, rootino, 1, false, true,
      ⟨tDir, 0, 0, 1, 16, fun i => if i = 0 then 10 else 0⟩⟩
    else ⟨0, 0, 0, false, false, .zero⟩
  logged := []

def namesPage : Nat → Byte := fun n => (bytes ['f', '\x00', 'g']).getD n 0

def opener (addr : U64) (omode : I32) : Kernel :=
  { bootKernel smallFs bareFiles with
    proc := fun _ =>
      { Proc.zero with
        state := .running
        pagetable := fun n => if n = 0 then some ⟨namesPage, true, false, false, true⟩ else none
        trapframe := { Trapframe.zero with a7 := 15, a0 := addr, a1 := omode.setWidth 64 }
        cwd := some 0
        syscallMask := 0x8000 } }

theorem smallFs_ok : FsOk smallFs where
  counted := by
    intro e
    by_cases he : e = 0 <;> simp [smallFs, he]
  dev := by
    intro e he
    by_cases h0 : e = 0
    · simp [smallFs, h0]
    · simp [smallFs, h0] at he
  agrees := by
    intro e he _ _
    by_cases h0 : e = 0
    · simp [smallFs, h0]
    · simp [smallFs, h0] at he
  linked := by
    intro n _ hn
    by_cases h1 : n = 1
    · simp [smallFs, h1] at hn
    · by_cases h2 : n = 2
      · simp [smallFs, h2] at hn
      · simp_all [smallFs, Dinode.zero]
  dense := by
    intro n hn bn hb
    by_cases h1 : n = 1
    · subst h1
      simp only [smallFs, ↓reduceIte, bsize] at hb ⊢
      have h0 : bn = 0 := by omega
      simp [h0]
    · by_cases h2 : n = 2 <;> simp [smallFs, h1, h2, Dinode.zero] at hn

theorem opener_ok (addr : U64) (omode : I32) : KernelOk (opener addr omode) 0 where
  fs := smallFs_ok
  cwd := by
    intro e he
    cases he
    exact (by decide : 1 ≤ (smallFs.inode 0).ref)
  files := fun _ _ => rfl

theorem opener_argint {addr : U64} {omode : I32} :
    argint ((opener addr omode).proc 0).trapframe.a1 = omode := by
  simp [argint, opener]

theorem opener_masked {addr : U64} {omode : I32} :
    masked ((opener addr omode).proc 0) (argint ((opener addr omode).proc 0).trapframe.a7) = true :=
  (by decide : masked ((opener 0 0).proc 0) 15 = true)

theorem openInstall_fs {k k1 k2 : Kernel} {i : Slot} {ip : Ip} {omode : I32} {f : Fp}
    {fd : Fin nofile} {fs1 fs2 : Fs} (htype : (k.fs.inode ip).din.type = tFile)
    (hf : k.filealloc = some (f, k1)) (hfd : k1.fdalloc i f = some (fd, k2)) (hfs : k2.fs = k.fs)
    (htr : (if omode &&& oTrunc ≠ 0 then k.fs.itrunc ip else .ok k.fs) = .ok fs1)
    (hu : fs1.iunlock ip = .ok fs2) :
    ∃ k', k.openInstall i ip omode = .ok (BitVec.ofNat 64 fd, k') ∧ k'.fs = fs2 := by
  unfold Kernel.openInstall
  simp only [htype, hf, hfd, and_true, Kernel.setFile_fs, hfs]
  split at htr
  · rename_i ht
    rw [if_pos ht]
    exact ⟨_, bind_eq_ok.mpr ⟨fs1, htr, bind_eq_ok.mpr ⟨fs2, hu, rfl⟩⟩, rfl⟩
  · rename_i ht
    rw [if_neg ht]
    exact ⟨_, bind_eq_ok.mpr ⟨fs1, htr, bind_eq_ok.mpr ⟨fs2, hu, rfl⟩⟩, rfl⟩

/-- An open on the small disk that finds its inode gets a file for it. -/
theorem opener_opens {addr : U64} {omode : I32} {path : List Byte} {fs : Fs} {ip : Ip}
    {P : Fs → Prop} (hpath : fetchstr ((opener addr 0).proc 0) addr maxpath = some path)
    (hopen : smallFs.openInode (some 0) path omode = .ok (some ip, fs))
    (htype : (fs.inode ip).din.type = tFile)
    (hkeep : omode &&& oTrunc = 0 → Runs (fs.iunlock ip) P)
    (htrunc : omode &&& oTrunc ≠ 0 → Runs (fs.itrunc ip) fun fs => Runs (fs.iunlock ip) P) :
    ∃ v k', Kernel.sysOpen 0 (opener addr omode) = .ret v k' ∧ P k'.fs := by
  have hrun : ∃ fs1 fs2, (if omode &&& oTrunc ≠ 0 then fs.itrunc ip else .ok fs) = .ok fs1 ∧
      fs1.iunlock ip = .ok fs2 ∧ P fs2 := by
    by_cases ht : omode &&& oTrunc = 0
    · obtain ⟨fs2, hu, hp⟩ := (hkeep ht).result
      exact ⟨fs, fs2, by rw [if_neg (not_not.mpr ht)], hu, hp⟩
    · obtain ⟨fs1, h₁, hr⟩ := (htrunc ht).result
      obtain ⟨fs2, hu, hp⟩ := hr.result
      exact ⟨fs1, fs2, by rw [if_pos ht, h₁], hu, hp⟩
  obtain ⟨fs1, fs2, h₁, h₂, hp⟩ := hrun
  obtain ⟨k', hk', hfs⟩ := openInstall_fs (k := { opener addr omode with fs := fs }) (i := 0)
    htype rfl rfl rfl h₁ h₂
  have hopen' : (opener addr omode).openPath 0 path omode = .ok (BitVec.ofNat 64 0, k') := by
    unfold Kernel.openPath
    have hi : (opener addr omode).fs.openInode ((opener addr omode).proc 0).cwd path omode =
        .ok (some ip, fs) := hopen
    rw [hi]
    exact hk'
  refine ⟨0, k', ?_, hfs ▸ hp⟩
  have hfetch : fetchstr ((opener addr omode).proc 0)
      ((opener addr omode).proc 0).trapframe.a0 maxpath = some path := hpath
  simp only [Kernel.sysOpen, hfetch, opener_argint, hopen']
  rfl

theorem opener_creates {omode : I32} (hc : omode &&& oCreate ≠ 0) :
    ∃ v k', Kernel.sysOpen 0 (opener 2 omode) = .ret v k' ∧ (k'.fs.dinode 3).type = tFile := by
  have hrun : Runs (smallFs.create (some 0) (bytes ['g']) tFile 0 0) (fun r => r.1 = some 1 ∧
      (r.2.inode 1).din.type = tFile ∧
      Runs (r.2.iunlock 1) (fun fs => (fs.dinode 3).type = tFile) ∧
      Runs (r.2.itrunc 1) (fun fs => Runs (fs.iunlock 1) fun fs => (fs.dinode 3).type = tFile)) := by
    decide +kernel
  obtain ⟨⟨found, fs⟩, hcreate, hfound, htype, hkeep, htrunc⟩ := hrun.result
  have hopen : smallFs.openInode (some 0) (bytes ['g']) omode = .ok (some 1, fs) := by
    rw [Fs.openInode, if_pos hc, hcreate]
    exact congrArg (fun r => Except.ok (r, fs)) hfound
  exact opener_opens (by decide) hopen htype (fun _ => hkeep) (fun _ => htrunc)

theorem opener_truncates {omode : I32} (hc : omode &&& oCreate = 0) (ht : omode &&& oTrunc ≠ 0) :
    ∃ v k', Kernel.sysOpen 0 (opener 0 omode) = .ret v k' ∧ (k'.fs.dinode 2).size = 0 := by
  have hrun : Runs (smallFs.namei (some 0) (bytes ['f'])) (fun r => r.1 = some 1 ∧
      Runs (r.2.ilock 1) (fun fs => (fs.inode 1).din.type = tFile ∧
        Runs (fs.itrunc 1) (fun fs => Runs (fs.iunlock 1) fun fs => (fs.dinode 2).size = 0))) := by
    decide +kernel
  obtain ⟨⟨found, fs⟩, hname, hfound, hlock⟩ := hrun.result
  obtain ⟨fs1, hl, htype, htrunc⟩ := hlock.result
  have hopen : smallFs.openInode (some 0) (bytes ['f']) omode = .ok (some 1, fs1) := by
    rw [Fs.openInode, if_neg (not_not.mpr hc)]
    refine bind_eq_ok.mpr ⟨(found, fs), hname, ?_⟩
    dsimp only at hfound hl htype
    simp only [hfound]
    refine bind_eq_ok.mpr ⟨fs1, hl, ?_⟩
    rw [if_neg (by rw [htype]; simp)]
    rfl
  exact opener_opens (by decide) hopen htype (fun h => absurd h ht) (fun _ => htrunc)

theorem inspect_open_run {p : Proc} (h : inspect p .open = .run) :
    argint p.trapframe.a1 &&& oWronly = 0 ∧ argint p.trapframe.a1 &&& oRdwr = 0 := by
  simp only [inspect, inspectPath] at h
  split at h
  · cases h
  · split at h
    · rename_i hs
      simp only [decide_eq_true_eq] at hs
      exact ⟨hs.1, hs.2.1⟩
    · cases h

theorem opener_admits {addr : U64} {omode : I32} (path : List Byte)
    (hpath : fetchstr ((opener addr 0).proc 0) addr maxpath = some path)
    (hs : strncmp path secretName 6 ≠ 0) (hw : omode &&& oWronly = 0)
    (hrw : omode &&& oRdwr = 0) : Admits ((opener addr omode).proc 0) .open := by
  refine ⟨rfl, by rfl, fun _ => ?_⟩
  have hfetch : fetchstr ((opener addr omode).proc 0)
      ((opener addr omode).proc 0).trapframe.a0 maxpath = some path := hpath
  simp only [inspect, inspectPath, hfetch, opener_argint, hw, hrw]
  rw [if_pos]
  simpa using hs

/-- Whatever the process, the path and the state of the file system: an open with
this mode that the filter lets through has a read-only effect. -/
def SandboxedReadOnly (omode : I32) : Prop :=
  ∀ (k : Kernel) (i : Slot), KernelOk k i → Admits (k.proc i) .open →
    masked (k.proc i) (argint (k.proc i).trapframe.a7) = true →
    argint (k.proc i).trapframe.a1 = omode →
    ∀ v k', Kernel.sysOpen i k = .ret v k' → ReadOnlyEffect k i k'

/-- A sandboxed open is read-only exactly for the modes that the filter refuses and
those without O_CREATE and O_TRUNC. -/
theorem sandboxed_open_readOnly_iff (omode : I32) :
    SandboxedReadOnly omode ↔
      omode &&& oWronly ≠ 0 ∨ omode &&& oRdwr ≠ 0 ∨
        (omode &&& oCreate = 0 ∧ omode &&& oTrunc = 0) := by
  constructor
  · intro h
    by_contra hnot
    simp only [not_or, not_not, not_and] at hnot
    obtain ⟨hw, hrw, hct⟩ := hnot
    have unchanged : ∀ addr path, fetchstr ((opener addr 0).proc 0) addr maxpath = some path →
        strncmp path secretName 6 ≠ 0 → ∀ v k', Kernel.sysOpen 0 (opener addr omode) = .ret v k' →
        k'.fs.dinode = smallFs.dinode := by
      intro addr path hf hs v k' hr
      have hro := h (opener addr omode) 0 (opener_ok addr omode) (opener_admits path hf hs hw hrw)
        opener_masked opener_argint v k' hr
      exact congrArg (fun d => d.2.1) hro.1
    by_cases hc : omode &&& oCreate = 0
    · obtain ⟨v, k', hr, hsize⟩ := opener_truncates hc (hct hc)
      rw [unchanged 0 (bytes ['f']) (by decide) (by decide) v k' hr] at hsize
      exact absurd hsize (by decide)
    · obtain ⟨v, k', hr, htype⟩ := opener_creates hc
      rw [unchanged 2 (bytes ['g']) (by decide) (by decide) v k' hr] at htype
      exact absurd htype (by decide)
  · rintro h k i hok ⟨_, _, hi⟩ hm rfl v k' hr
    obtain ⟨hw, hrw⟩ := inspect_open_run (hi hm)
    rcases h with hn | hn | ⟨hc, ht⟩
    · exact absurd hw hn
    · exact absurd hrw hn
    · exact sysOpen_readOnly hok hw hrw hc ht hr

/-- The mode O_TRUNC alone: the filter lets it through and the file is emptied. -/
theorem truncating_open_admitted :
    Admits ((opener 0 oTrunc).proc 0) .open ∧
      masked ((opener 0 oTrunc).proc 0) (argint ((opener 0 oTrunc).proc 0).trapframe.a7) = true ∧
      KernelOk (opener 0 oTrunc) 0 ∧
      ∃ v k', Kernel.sysOpen 0 (opener 0 oTrunc) = .ret v k' ∧
        k'.fs.persistent ≠ (opener 0 oTrunc).fs.persistent := by
  have hopen : ∃ v k', Kernel.sysOpen 0 (opener 0 oTrunc) = .ret v k' ∧
      (k'.fs.dinode 2).size = 0 := opener_truncates (by decide) (by decide)
  obtain ⟨v, k', hr, hsize⟩ := hopen
  refine ⟨opener_admits (bytes ['f']) (by decide) (by decide) (by decide) (by decide),
    opener_masked, opener_ok 0 oTrunc, v, k', hr, fun he => ?_⟩
  have hd : k'.fs.dinode = smallFs.dinode := congrArg (fun d => d.2.1) he
  rw [hd] at hsize
  exact absurd hsize (by decide)

end Xv6Filter.Proofs
