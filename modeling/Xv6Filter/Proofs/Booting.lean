import Xv6Filter.Proofs.HolderLife
import Xv6Filter.Proofs.Images
import Xv6Filter.Proofs.Reclaim

namespace Xv6Filter.Proofs
open Lib

theorem namei_rootPath (h : Fs.namei fs cwd rootPath = .ok (r, fs')) :
    ∃ ip, r = some ip ∧ fs.iget rootdev rootino = .ok (ip, fs') := by
  unfold Fs.namei Fs.namex rootPath at h
  rw [if_pos (by rfl)] at h
  cases hget : fs.iget rootdev rootino with
  | error why =>
    rw [hget] at h
    cases h
  | ok found =>
    rw [hget] at h
    cases h
    exact ⟨found.1, rfl, rfl⟩

theorem WellFormed.iget_root (h : WellFormed fs) (hi : fs.iget rootdev rootino = .ok (ip, fs')) :
    fs' = fs.setInode ip { fs.inode ip with dev := rootdev, inum := rootino, ref := 1, valid := false } := by
  unfold Fs.iget at hi
  split at hi
  · rename_i e hfind
    have := List.find?_some hfind
    simp [h.unread] at this
  · split at hi
    · cases hi
      rfl
    · cases hi

theorem namei_rootPath_runs {fs : Fs} (h : ∀ e, (fs.inode e).ref = 0) :
    Runs (fs.namei none rootPath) fun r => fs.namei none rootPath = .ok r := by
  have hget : Runs (fs.iget rootdev rootino) fun _ => True := by
    unfold Fs.iget
    split
    · exact trivial
    · split
      · exact trivial
      · rename_i hz
        have := List.find?_eq_none.mp hz 0 (List.mem_finRange 0)
        simp [h] at this
  obtain ⟨found, hfound, -⟩ := hget.result
  have hname : fs.namei none rootPath = .ok (some found.1, found.2) := by
    unfold Fs.namei Fs.namex rootPath
    rw [if_pos (by rfl), hfound]
    rfl
  rw [hname]
  rfl

structure Rooted (fs : Fs) (root : Ip) (fs' : Fs) : Prop where
  orderly : Orderly fs'
  disk : SameDisk fs fs'
  inum : (fs'.inode root).inum = rootino
  refs : ∀ e, (fs'.inode e).ref = if e = root then 1 else 0
  locked : ∀ e, (fs'.inode e).locked = (fs.inode e).locked

theorem WellFormed.rooted (h : WellFormed fs) (hname : fs.namei none rootPath = .ok (r, fs')) :
    ∃ root, r = some root ∧ Rooted fs root fs' := by
  obtain ⟨root, rfl, hget⟩ := namei_rootPath hname
  rw [h.iget_root hget]
  refine ⟨root, rfl, h.orderly.claim (by decide) (by simp [h.unread]), .setInode _ _ _, by simp, ?_, ?_⟩
  · intro e
    by_cases he : e = root <;> simp [he, h.unread]
  · intro e
    by_cases he : e = root <;> simp [he]

structure Started (fs : Fs) (k : Kernel) : Prop where
  consistent : Consistent k
  tree : Reaped (tree fs) (tree k.fs)
  sb : k.fs.sb = fs.sb
  home : ∀ i, Present k i → cwdInum k i = rootino
  held : ∀ e, 0 < (k.fs.inode e).ref → (k.fs.inode e).inum = rootino
  kept : ∀ n, (k.fs.dinode n).type ≠ tFree → k.fs.dinode n = fs.dinode n

def firstProc (root : Ip) (i : Slot) : Proc :=
  if i = 0 then { Proc.zero with pid := 1, state := .runnable, cwd := some root } else .zero

theorem inodeRefs_firstProc (root e : Ip) :
    inodeRefs (firstProc root) bareFiles e = if e = root then 1 else 0 := by
  have hfile : ∀ f, fileUse (bareFiles f) e = 0 := fun f => by simp [fileUse, bareFiles]
  have hcwd : ∀ i, cwdUse (firstProc root i) e = if i = 0 then (if e = root then 1 else 0) else 0 := by
    intro i
    by_cases hi : i = 0 <;> simp [cwdUse, firstProc, hi, eq_comm, Proc.zero]
  simp [inodeRefs, hfile, hcwd]

theorem Settled.coherent (h : Settled fs) (hr : ∀ e, (fs.inode e).ref = if e = root then 1 else 0)
    {k : Kernel} (hp : k.proc = firstProc root) (hf : k.file = bareFiles) (hpi : k.pipe = fun _ => none)
    (hfs : k.fs = fs) : Consistent k := by
  have hnone : ∀ i fd, (firstProc root i).ofile fd = none := by
    intro i fd
    unfold firstProc
    split <;> rfl
  refine ⟨⟨?_, ?_, ?_⟩, ⟨?_, ?_, ?_⟩, ⟨?_, ?_⟩, ⟨?_, ?_, ?_⟩⟩
  · intro f
    simp [hp, hf, slotRefs, procSlots, hnone, bareFiles]
  · simp [hf, bareFiles]
  · simp [hf, bareFiles]
  · simp [hf, hpi, IsEnd, bareFiles]
  · simp [hpi]
  · simp [hf, IsEnd, bareFiles]
  · intro i hi
    rw [hp] at hi ⊢
    refine ⟨hnone i, ?_⟩
    by_cases h0 : i = 0
    · simp [firstProc, h0] at hi
    · simp [firstProc, h0, Proc.zero]
  · intro i hu _
    rw [hp] at hu ⊢
    by_cases h0 : i = 0
    · exact ⟨root, by simp [firstProc, h0]⟩
    · simp [firstProc, h0, Proc.zero] at hu
  · rw [hfs]
    exact h
  · intro e
    rw [hfs, hp, hf, hr, inodeRefs_firstProc]
    split <;> rfl
  · simp [hf, bareFiles]

/-- Booting from a well-formed image gives a consistent kernel, and its tree without the orphans. -/
theorem WellFormed.started (h : WellFormed fs) (hb : bootDisk fs = .ok k) : Started fs k := by
  unfold bootDisk at hb
  obtain ⟨⟨root, fs1⟩, hname, hb⟩ := bind_eq_ok.mp hb
  obtain ⟨ip, rfl, ho, hd, hinum, href, -⟩ := h.rooted hname
  obtain ⟨fs2, hrec, hb⟩ := bind_eq_ok.mp hb
  cases hb
  obtain ⟨hsane, hs⟩ := ho.ireclaim.of_ok hrec
  have hheld : ∀ e, 0 < (fs2.inode e).ref → (fs2.inode e).inum = rootino ∧
      fs2.dinode rootino = fs.dinode rootino := by
    intro e hr
    rw [hs.refs] at hr
    obtain ⟨hi, -, hdin⟩ := hs.keeps e hr
    have he : e = ip := by
      by_contra hne
      simp [href, hne] at hr
    rw [he, hinum] at hi hdin
    rw [he, hi, hdin, hd.dinode]
    exact ⟨rfl, rfl⟩
  have hset : Settled fs2 := by
    refine ⟨hsane, ?_⟩
    intro e hr
    obtain ⟨hi, hdin⟩ := hheld e hr
    rw [hi, hdin]
    exact h.root
  have hproc : ∀ i, (((bootKernel fs2 bareFiles).setProc 0
      { (bootKernel fs2 bareFiles).proc 0 with cwd := some ip }).proc i) = firstProc ip i := by
    intro i
    by_cases hi : i = 0
    · simp [hi, firstProc, bootKernel, Kernel.allocFound, Proc.zero]
    · simp [hi, firstProc, bootKernel, Kernel.allocFound]
  refine ⟨hset.coherent (fun e => (hs.refs e).trans (href e)) (funext hproc) rfl rfl rfl, ?_,
    hs.sb.trans hd.sb, ?_, ?_, ?_⟩
  · have := hs.tree
    rwa [tree_sameDisk hd] at this
  · intro i hi
    have h0 : i = 0 := by
      by_contra hne
      exact hi.1 (by rw [hproc]; simp [firstProc, hne, Proc.zero])
    unfold cwdInum
    rw [hproc, h0]
    exact (hs.keeps ip (by simp [href])).1.trans hinum
  · exact fun e hr => (hheld e hr).1
  · intro n ht
    rw [← hd.dinode]
    exact hs.left n ht

end Xv6Filter.Proofs
