import Xv6Filter.Proofs.Append

namespace Xv6Filter.Proofs
open Lib

theorem bmap_present {fs : Fs} {ip : Ip} (hbn : bn < maxfile)
    (h0 : slotAddr fs.data (fs.inode ip).din (slotOf bn) ≠ 0) :
    fs.bmap ip bn = .ok (slotAddr fs.data (fs.inode ip).din (slotOf bn), fs) := by
  by_cases hd : bn < ndirect
  · have hs : slotAddr fs.data (fs.inode ip).din (slotOf bn) = (fs.inode ip).din.addrs bn := by
      rw [slotOf, if_pos hd, slotAddr, if_pos (Nat.le_of_lt hd)]
    rw [hs] at h0 ⊢
    simp [Fs.bmap, Fs.bmapDirect, hd, h0]
  · have hj : bn - ndirect < nindirect := by
      have : maxfile = ndirect + nindirect := rfl
      omega
    have hlt : ¬ bn + 1 ≤ ndirect := by omega
    have hidx : bn + 1 - (ndirect + 1) = bn - ndirect := by omega
    rw [slotOf, if_neg hd, slotAddr, if_neg hlt, hidx] at h0 ⊢
    split at h0
    · exact absurd rfl h0
    · rename_i hi
      rw [if_neg hi]
      simp [Fs.bmap, Fs.bmapDirect, Fs.bmapIndirect, hd, hj, hi, h0]

def direntAt (data : Nat → Block) (d : Dinode) (i : Nat) : Fs.Dirent :=
  Fs.Dirent.decode ((List.range direntSize).map fun j => byteAt data d (direntSize * i + j))

structure Names (data : Nat → Block) (d : Dinode) (name : List Byte) (n i : Nat) : Prop where
  inside : direntSize * (i + 1) ≤ d.size
  inum : (direntAt data d i).inum = n
  used : n ≠ 0
  same : namecmp name (direntAt data d i).name = 0
  first : ∀ j, j < i → (direntAt data d j).inum = 0 ∨ namecmp name (direntAt data d j).name ≠ 0

theorem slice_block {data : Nat → Block} {d : Dinode} (off : Nat) (hm : off % bsize + m ≤ bsize) :
    slice (data (slotAddr data d (slotOf (off / bsize)))) (off % bsize) m =
      slice (byteAt data d) off m := by
  apply slice_congr
  intro k hk
  have hdiv : (off + k) / bsize = off / bsize := by
    simp only [bsize] at hm ⊢
    omega
  have hmod : (off + k) % bsize = off % bsize + k := by
    simp only [bsize] at hm ⊢
    omega
  rw [byteAt, hdiv, hmod]

/-- The loop of `readi` into a kernel buffer delivers all the bytes asked for when the file has them. -/
theorem readiLoop_kernel {fs : Fs} {ip : Ip} (hd : Dense fs.data (fs.inode ip).din size) (ht : tot ≤ len)
    (hfit : off + (len - tot) ≤ size) (rounds : Nat) (hr : len ≤ tot + rounds) (mem : List Byte) :
    Fs.readiLoop (fun mem _ bs => (mem ++ bs, true)) ip rounds fs mem off tot len =
      .ok ((len : Int), mem ++ slice (byteAt fs.data (fs.inode ip).din) off (len - tot), fs) := by
  induction rounds generalizing mem off tot with
  | zero =>
    obtain rfl : len = tot := by omega
    simp [Fs.readiLoop, slice]
  | succ rounds ih =>
    unfold Fs.readiLoop
    by_cases hmore : len ≤ tot
    · obtain rfl : len = tot := by omega
      simp [slice]
    have hblk : off / bsize * bsize < size := by
      have := Nat.div_mul_le_self off bsize
      omega
    obtain ⟨hlt, h0⟩ := hd _ hblk
    have hpos : 0 < bsize - off % bsize := Nat.sub_pos_of_lt (Nat.mod_lt _ (by decide))
    rw [if_neg hmore, bmap_present hlt h0]
    dsimp only
    generalize hm : min (len - tot) (bsize - off % bsize) = m
    have hfit' : off + m + (len - (tot + m)) ≤ size := by omega
    have hcount : len - tot = m + (len - (tot + m)) := by omega
    rw [if_neg h0, slice_block off (by omega), ih (by omega) hfit' (by omega), hcount, slice_add, List.append_assoc]

theorem readDirent_eq {fs : Fs} {dp : Ip}
    (hd : Dense fs.data (fs.inode dp).din (direntSize * (i + 1)))
    (hi : direntSize * (i + 1) ≤ (fs.inode dp).din.size) (msg : Panic) :
    Fs.readDirent msg fs dp (direntSize * i) = .ok (direntAt fs.data (fs.inode dp).din i, fs) := by
  have hbn : direntSize * i / bsize * bsize < direntSize * (i + 1) := by
    have := Nat.div_mul_le_self (direntSize * i) bsize
    simp only [direntSize] at *
    omega
  have hlt := (hd _ hbn).1
  have hno : ¬ ((fs.inode dp).din.size < direntSize * i ∨
      (direntSize * i + direntSize) % 2 ^ 32 < direntSize * i) := by
    simp only [maxfile, bsize, direntSize, ndirect, nindirect] at *
    omega
  have hfull : ¬ (fs.inode dp).din.size < direntSize * i + direntSize := by
    simp only [direntSize] at *
    omega
  unfold Fs.readDirent
  simp only [Fs.readiKernel, Fs.readi, if_neg hno, if_neg hfull]
  rw [readiLoop_kernel hd (Nat.zero_le _) (by simp only [direntSize]; omega) _ (by omega)]
  simp [direntAt, slice]

/-- `dirlookup` goes to the table with the inode that the name stands for. -/
theorem dirlookupLoop_names {fs : Fs} {dp : Ip}
    (hd : Dense fs.data (fs.inode dp).din (direntSize * (i + 1)))
    (hn : Names fs.data (fs.inode dp).din name n i) (hj : j ≤ i) (hl : i < j + left) :
    Fs.dirlookupLoop dp name left (direntSize * j) fs =
      (fs.iget (fs.inode dp).dev n).map fun r => (some (r.1, direntSize * i), r.2) := by
  induction left generalizing j with
  | zero => omega
  | succ left ih =>
    have hin : direntSize * (j + 1) ≤ (fs.inode dp).din.size :=
      Nat.le_trans (Nat.mul_le_mul_left _ (by omega)) hn.inside
    rw [Fs.dirlookupLoop, readDirent_eq (hd.mono (Nat.mul_le_mul_left _ (by omega))) hin]
    dsimp only
    rcases Nat.lt_or_eq_of_le hj with hlt | rfl
    · rw [if_neg (by rcases hn.first j hlt with h | h <;> simp [h]), ← Nat.mul_succ]
      exact ih (by omega) (by omega)
    · rw [if_pos ⟨by rw [hn.inum]; exact hn.used, hn.same⟩, hn.inum]
      cases fs.iget (fs.inode dp).dev n <;> rfl

theorem dirlookup_names {fs : Fs} {dp : Ip} (ht : (fs.inode dp).din.type = tDir)
    (hd : Dense fs.data (fs.inode dp).din (direntSize * (i + 1)))
    (hn : Names fs.data (fs.inode dp).din name n i) :
    fs.dirlookup dp name =
      (fs.iget (fs.inode dp).dev n).map fun r => (some (r.1, direntSize * i), r.2) := by
  have hcount : i < 0 + Fs.entryCount (fs.inode dp).din.size := by
    have := hn.inside
    simp only [Fs.entryCount, direntSize] at *
    omega
  rw [Fs.dirlookup, if_neg (by simp [ht])]
  exact dirlookupLoop_names hd hn (Nat.zero_le i) hcount

end Xv6Filter.Proofs
