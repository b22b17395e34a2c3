import Xv6Filter.Proofs.FileBytes
import Xv6Filter.Proofs.Images

namespace Xv6Filter.Proofs
open Lib

def WholeOrNone (n : Nat) (record : List Byte) (fs fs' : Fs) : Prop :=
  fileText fs' n = fileText fs n ++ record ∨ fileText fs' n = fileText fs n

def logInum (fs : Fs) : Option Nat := ((tree fs).resolve false 0 auditPath).map Prod.fst

/-- The appended bytes start a block, do not fit the file at all, or find all the blocks they need. -/
def AppendFits (n len : Nat) (fs : Fs) : Prop :=
  (fs.dinode n).size % bsize = 0 ∨ maxfile * bsize < (fs.dinode n).size + len ∨
    need fs.data (fs.dinode n) (placesFor ((fs.dinode n).size + len)) ≤ freeBlocks fs

/-- Appending a short list of bytes is all or nothing in just these states. -/
theorem Copy.append_iff {fs : Fs} {ip : Ip} (hc : Copy n ip fs)
    (ha : Acct fs.sb fs.used fs.data fs.dinode) (xs : List Byte) (hlen : xs.length ≤ bsize) :
    ∃ r fs', fs.writeiKernel ip xs (fs.dinode n).size = .ok (r, fs') ∧
      (WholeOrNone n xs fs fs' ↔ AppendFits n xs.length fs) := by
  unfold Fs.writeiKernel
  have hshort : xs.length < 2 ^ 32 := Nat.lt_of_le_of_lt hlen (by decide)
  rcases hc.writei ha (copies_kernel xs) hshort () (fs.dinode n).size with
    ⟨hrun, hwhy⟩ | ⟨d, stop, _, fs', hrun, hd, hend, -, hmax, hst, hclean, -, hcount, hfull⟩
  · rw [hrun]
    have hbig : maxfile * bsize < (fs.dinode n).size + xs.length := by omega
    exact ⟨-1, fs, rfl, fun _ => .inr (.inl hbig), fun _ => .inr rfl⟩
  obtain rfl := hclean (.inr fun _ _ _ _ => rfl)
  have hout := fun hlt => (hfull (fun _ _ _ _ => rfl) hlt).1
  have hsize : (fs'.dinode n).size = (fs.dinode n).size + d := by
    rw [hst.shape]
    exact Nat.max_eq_right (Nat.le_add_right _ _)
  have hdense : Dense fs'.data (fs'.dinode n) ((fs.dinode n).size + d) := by
    rw [← hsize]
    exact hst.acct.dense n (by rw [hst.shape]; exact hc.typed)
  have htext : fileText fs' n = fileText fs n ++ xs.take d := by
    rw [hst.fileText_append, slice_getD hd]
  have hfree := hcount (placesFor ((fs.dinode n).size + xs.length)) (Nat.le_refl _) (placesFor_le hmax)
  rw [hrun]
  refine ⟨d, fs', rfl, ?_⟩
  constructor
  · intro hwhole
    by_contra hfits
    simp only [AppendFits, not_or, Nat.not_le] at hfits
    obtain ⟨halign, -, hroom⟩ := hfits
    have hne : d ≠ xs.length := by
      rintro rfl
      rw [need_of_dense hdense] at hfree
      omega
    have hpos : d ≠ 0 := by
      rintro rfl
      refine (hdense ((fs.dinode n).size / bsize) ?_).2 (hout (by omega)).1
      simp only [bsize] at halign ⊢
      omega
    rcases hwhole with hall | hnone
    · have := congrArg List.length (htext.symm.trans hall)
      simp only [List.length_append, List.length_take] at this
      omega
    · have := congrArg List.length (htext.symm.trans hnone)
      simp only [List.length_append, List.length_take] at this
      omega
  · intro hfits
    by_cases hall : d = xs.length
    · rw [hall, List.take_length] at htext
      exact .inl htext
    by_cases hnone : d = 0
    · rw [hnone, List.take_zero, List.append_nil] at htext
      exact .inr htext
    obtain ⟨hmiss, hzero⟩ := hout (by omega)
    have hplace := need_pos (k := placesFor ((fs.dinode n).size + xs.length))
      (slotOf_lt_placesFor (by have := Nat.div_mul_le_self ((fs.dinode n).size + d) bsize; omega)) hmiss
    rcases hfits with halign | hbig | hroom
    · simp only [bsize] at halign hend hlen
      omega
    · omega
    · omega

theorem wholeOrNone_congr {fs1 fs2 : Fs} (h1 : SameDisk fs fs1) (h₂ : SameDisk fs2 fs') :
    WholeOrNone n xs fs fs' ↔ WholeOrNone n xs fs1 fs2 := by
  simp only [WholeOrNone, fileText, h1.data, h1.dinode, h₂.data, h₂.dinode]

theorem appendFits_congr (h : SameDisk fs fs') : AppendFits n len fs ↔ AppendFits n len fs' := by
  simp only [AppendFits, freeBlocks, h.data, h.dinode, h.used, h.sb]

theorem Busy.auditAppend_iff (h : Busy fs0 (⟨ip, n, true⟩ :: hs) fs) (record : List Byte)
    (hlen : record.length ≤ bsize) :
    ∃ fs', fs.auditAppend ip record = .ok fs' ∧ Busy fs0 (⟨ip, n, true⟩ :: hs) fs' ∧ tree fs' = tree fs ∧
      (WholeOrNone n record fs fs' ↔ (fs.dinode n).type ≠ tFile ∨ AppendFits n record.length fs) := by
  unfold Fs.auditAppend
  rw [h.copy.same]
  by_cases hfile : (fs.dinode n).type = tFile
  · rw [if_pos hfile]
    have hn : (fs.dinode n).type ≠ tDir := by
      rw [hfile]
      decide
    obtain ⟨r, fs', hrun, hiff⟩ := h.copy.append_iff h.sane.acct record hlen
    obtain ⟨_, _, fs1, hrun1, h1, -, ht1⟩ := h.writei hn (copies_kernel record)
      (Nat.lt_of_le_of_lt hlen (by decide)) () (fs.dinode n).size
    obtain rfl : fs' = fs1 := by
      rw [Fs.writeiKernel, hrun1] at hrun
      cases hrun
      rfl
    rw [hrun]
    exact ⟨fs', rfl, h1, ht1, by simp [hiff, hfile]⟩
  · rw [if_neg hfile]
    exact ⟨fs, rfl, h, rfl, fun _ => .inl hfile, fun _ => .inr rfl⟩

def logEntry (i : Nat) : Fs.Dirent :=
  if i = 0 then ⟨rootino, strncpy dot dirsiz⟩
  else if i = 1 then ⟨rootino, strncpy dotdot dirsiz⟩
  else if i = 2 then ⟨2, strncpy (bytes ['a', 'u', 'd', 'i', 't', '.', 'l', 'o', 'g']) dirsiz⟩
  else ⟨0, strncpy [] dirsiz⟩

def logDisk (size : Nat) : Fs where
  sb := ⟨size, 16, 4, 2, 6, 8⟩
  used := fun b => decide (b ≤ 10)
  dinode := fun n =>
    if n = rootino then ⟨tDir, 0, 0, 1, 3 * direntSize, fun i => if i = 0 then 9 else 0⟩
    else if n = 2 then ⟨tFile, 0, 0, 1, 1000, fun i => if i = 0 then 10 else 0⟩
    else .zero
  data := fun b =>
    if b = 9 then fun o => (logEntry (o / direntSize)).encode.getD (o % direntSize) 0 else fun _ => 0
  inode := fun _ => ⟨0, 0, 0, false, false, .zero⟩
  logged := []

theorem logDisk_settled (h : SmallImage (logDisk size)) : Settled (logDisk size) := by
  have hout : ∀ n, 16 ≤ n → ((logDisk size).dinode n).type = tFree := by
    intro n hn
    have h1 : n ≠ rootino ∧ n ≠ 2 := by
      simp only [rootino]
      omega
    simp [logDisk, h1, Dinode.zero]
  refine (h.wellFormed hout fun _ => rfl).settled fun n _ ht => ?_
  by_cases h1 : n = rootino
  · simp [logDisk, h1]
  · by_cases h2 : n = 2
    · simp [logDisk, h2]
    · simp [logDisk, h1, h2, Dinode.zero] at ht

/-- `audit_log_write` stores its record whole or not at all, in just these states. -/
theorem record_whole_iff (h : Settled fs) (hn : logInum fs = some n)
    (hrun : fs.auditLogWrite pid num = .ok fs') :
    ∃ len msg, auditMsg pid.toInt num.toInt = some (len, msg) ∧
      (WholeOrNone n (slice msg 0 len) fs fs' ↔ (fs.dinode n).type ≠ tFile ∨ AppendFits n len fs) := by
  unfold Fs.auditLogWrite at hrun
  split at hrun
  · cases hrun
  rename_i len msg hmsg
  have hlen := Busy.auditMsg_length hmsg
  refine ⟨len, msg, hmsg, ?_⟩
  have hb : Busy fs [] fs := .begin h
  have hcwd : ∀ e ∈ (none : Option Ip), 0 < (fs.inode e).ref := by simp
  refine Post.of_ok (E := fun _ => True) (Q := fun t => WholeOrNone n (slice msg 0 len) fs t ↔
    (fs.dinode n).type ≠ tFile ∨ AppendFits n len fs) (hb.namei_ilock hcwd auditPath (fun _ _ => trivial)
    (fun _ _ => rfl) ?_ ?_) hrun
  · intro fs1 hnone
    rw [Option.elim_none] at hnone
    rw [logInum, hnone] at hn
    cases hn
  · intro ip m name fs2 hres h₂ hd2
    rw [Option.elim_none] at hres
    rw [logInum, hres] at hn
    obtain rfl : n = m := by simpa using hn.symm
    obtain ⟨fs3, happ, h3, ht3, hiff⟩ := h₂.auditAppend_iff (slice msg 0 len)
      (by rw [length_slice]; simp only [bsize]; omega)
    rw [happ]
    have hlast : Lasting fs [] n fs3 := by
      have ht := ht3.trans (tree_sameDisk hd2)
      exact (hb.lasting n).of_tree (by rw [ht]) (by rw [ht])
    refine (h3.iunlockput_kept hlast).imp (fun _ _ => trivial) ?_
    intro fs4 ⟨_, hd4⟩
    rw [wholeOrNone_congr hd2 hd4, hiff, length_slice, hd2.dinode, ← appendFits_congr hd2]

/-- A log that gets a new block for the end of the record. -/
theorem record_whole_iff_room :
    ∃ fs' len msg, (logDisk 12).auditLogWrite 3 5 = .ok fs' ∧ auditMsg 3 5 = some (len, msg) ∧
      WholeOrNone 2 (slice msg 0 len) (logDisk 12) fs' := by
  obtain ⟨fs', hrun, -⟩ := (show Runs ((logDisk 12).auditLogWrite 3 5) fun _ => True by decide +kernel).result
  have hpath : logInum (logDisk 12) = some 2 := by decide +kernel
  obtain ⟨len, msg, hmsg, hiff⟩ := record_whole_iff (logDisk_settled (by decide +kernel)) hpath hrun
  have hlen : (auditMsg 3 5).map Prod.fst = some 31 := by decide +kernel
  rw [show auditMsg 3 5 = some (len, msg) from hmsg] at hlen
  obtain rfl : len = 31 := by simpa using hlen
  exact ⟨fs', 31, msg, hrun, hmsg, hiff.mpr (.inr (.inr (.inr (by decide +kernel))))⟩

/-- With no free block left the record is cut at the end of the last block of the file. -/
theorem record_torn :
    Settled (logDisk 11) ∧ logInum (logDisk 11) = some 2 ∧
    ∃ fs' len msg, (logDisk 11).auditLogWrite 3 5 = .ok fs' ∧ auditMsg 3 5 = some (len, msg) ∧
      ¬ WholeOrNone 2 (slice msg 0 len) (logDisk 11) fs' := by
  refine ⟨logDisk_settled (by decide +kernel), by decide +kernel, ?_⟩
  obtain ⟨fs', hrun, hsize⟩ := (show Runs ((logDisk 11).auditLogWrite 3 5) fun fs' =>
    (fs'.dinode 2).size = 1024 by decide +kernel).result
  obtain ⟨⟨len, msg⟩, hmsg, hlen⟩ := Option.map_eq_some_iff.mp
    (show (auditMsg 3 5).map Prod.fst = some 31 by decide +kernel)
  obtain rfl : len = 31 := hlen
  refine ⟨fs', 31, msg, hrun, hmsg, ?_⟩
  rintro (hall | hnone)
  · have := congrArg List.length hall
    simp only [List.length_append, length_fileText, length_slice, hsize] at this
    exact absurd this (by decide)
  · have := congrArg List.length hnone
    rw [length_fileText, length_fileText, hsize] at this
    exact absurd this (by decide)

end Xv6Filter.Proofs
