import Xv6Filter.Proofs.Runs

namespace Xv6Filter.Proofs
open Lib

/-- A destination of `len` bytes that can be written: no copy to it fails, and each puts its
bytes where `view` shows them. -/
def Writable (copyout : M → Nat → List Byte → M × Bool) (view : M → Nat → Byte) (len : Nat) : Prop :=
  ∀ mem t bs, t + bs.length ≤ len →
    (copyout mem t bs).2 = true ∧ view (copyout mem t bs).1 = splice (view mem) t bs

/-- The loop of `readi` delivers all the bytes asked for when the file has them. -/
theorem readiLoop_delivers {copyout : M → Nat → List Byte → M × Bool} {view : M → Nat → Byte} {fs : Fs}
    {ip : Ip} (hw : Writable copyout view len) (hd : Dense fs.data (fs.inode ip).din size)
    (ht : tot ≤ len) (hfit : off + (len - tot) ≤ size) (rounds : Nat) (hr : len ≤ tot + rounds) (mem : M) :
    ∃ mem', Fs.readiLoop copyout ip rounds fs mem off tot len = .ok ((len : Int), mem', fs) ∧
      view mem' = splice (view mem) tot (slice (byteAt fs.data (fs.inode ip).din) off (len - tot)) := by
  induction rounds generalizing mem off tot with
  | zero =>
    obtain rfl : len = tot := by omega
    exact ⟨mem, rfl, by simp [slice]⟩
  | succ rounds ih =>
    unfold Fs.readiLoop
    by_cases hmore : len ≤ tot
    · obtain rfl : len = tot := by omega
      rw [if_pos hmore]
      exact ⟨mem, rfl, by simp [slice]⟩
    have hblk : off / bsize * bsize < size := by
      have := Nat.div_mul_le_self off bsize
      omega
    obtain ⟨hlt, h0⟩ := hd _ hblk
    rw [if_neg hmore, bmap_present hlt h0]
    dsimp only
    rw [if_neg h0]
    have hpos : 0 < bsize - off % bsize := Nat.sub_pos_of_lt (Nat.mod_lt _ (by decide))
    generalize hm : min (len - tot) (bsize - off % bsize) = m
    rw [slice_block off (by omega)]
    obtain ⟨hok, hview⟩ := hw mem tot (slice (byteAt fs.data (fs.inode ip).din) off m)
      (by rw [length_slice]; omega)
    generalize copyout mem tot (slice (byteAt fs.data (fs.inode ip).din) off m) = res at hok hview ⊢
    obtain ⟨mem1, ok⟩ := res
    dsimp only at hok hview
    subst hok
    have hfit' : off + m + (len - (tot + m)) ≤ size := by omega
    obtain ⟨mem', hrun, hmem'⟩ := ih (by omega) hfit' (by omega) mem1
    refine ⟨mem', hrun, ?_⟩
    have happ := splice_append (view mem) tot (slice (byteAt fs.data (fs.inode ip).din) off m)
      (slice (byteAt fs.data (fs.inode ip).din) (off + m) (len - (tot + m)))
    rw [length_slice] at happ
    rw [hmem', hview, happ, ← slice_add]
    congr 2
    omega

theorem slice_byteAt {fs : Fs} (h : off + d ≤ (fs.dinode n).size) :
    slice (byteAt fs.data (fs.dinode n)) off d = ((fileText fs n).drop off).take d := by
  apply List.ext_getElem
  · simp
    omega
  · intro i h1 h2
    simp [slice, fileText, contents]

theorem slice_getD {xs : List Byte} (h : d ≤ xs.length) :
    slice (fun i => xs.getD (i - off) 0) off d = xs.take d := by
  apply List.ext_getElem
  · simp [h]
  · intro i h1 h2
    have hi : i < xs.length := by
      simp at h2
      omega
    simp [slice, hi]

/-- What `writei` of `len` bytes at `off` does to the files, from a source that holds `src`:
nothing, or a first part of the bytes is in its place. -/
def WriteDone (n off len : Nat) (src : Nat → Byte) (r : Int) (fs fs' : Fs) : Prop :=
  r = -1 ∧ fs' = fs ∧ ((fs.dinode n).size < off ∨ maxfile * bsize < off + len) ∨
  ∃ d : Nat, r = d ∧ d ≤ len ∧ off ≤ (fs.dinode n).size ∧
    fileText fs' n = (fileText fs n).take off ++ slice src 0 d ++ (fileText fs n).drop (off + d) ∧
    (fs'.dinode n).size = max (fs.dinode n).size (off + d) ∧
    (d < len → OutOfBlocks (fs'.dinode n) (off + d) fs') ∧
    ∀ m, m ≠ n → fs'.dinode m = fs.dinode m ∧
      ((fs.dinode m).type ≠ tFree → fileText fs' m = fileText fs m)

/-- What `readi` of `len` bytes at `off` delivers: the bytes of the file that are there, or
none where the offset is beyond the end or the sum wraps. -/
def ReadDone (n off len : Nat) (fs : Fs) (r : Int) (before after : Nat → Byte) : Prop :=
  if (fs.dinode n).size < off ∨ 2 ^ 32 ≤ off + len then r = 0 ∧ after = before
  else r = (min (off + len) (fs.dinode n).size - off : Nat) ∧
    after = splice before 0 (((fileText fs n).drop off).take (min (off + len) (fs.dinode n).size - off))

namespace Copy

variable {M : Type} {fs : Fs} {ip : Ip} {n off len : Nat}

theorem writei_done {copyin : M → Nat → Nat → M × List Byte × Bool} {src : Nat → Byte} (hc : Copy n ip fs)
    (ha : Acct fs.sb fs.used fs.data fs.dinode) (hlen : len < 2 ^ 32) (hcopies : Copies copyin src len)
    (hread : Readable copyin len) (mem : M) : ∃ r mem' fs',
      fs.writei copyin mem ip off len = .ok (r, mem', fs') ∧ WriteDone n off len src r fs fs' := by
  rcases hc.writei ha hcopies hlen mem off with
    ⟨hrun, hwhy⟩ | ⟨d, stop, mem', fs', hrun, hd, -, hin, -, hst, hclean, -, -, hfull⟩
  · exact ⟨-1, mem, fs, hrun, .inl ⟨rfl, rfl, hwhy⟩⟩
  · obtain rfl := hclean (.inr hread)
    refine ⟨d, mem', fs', hrun, .inr ⟨d, rfl, hd, hin, ?_, ?_, fun hlt => (hfull hread hlt).1, ?_⟩⟩
    · rw [hst.fileText_eq hin]
      congr 2
      apply slice_congr
      intro k _
      congr 1
      omega
    · rw [hst.shape]
    · exact fun m hm => ⟨hst.dinode m hm, hst.fileText_other hm⟩

theorem readi_done {copyout : M → Nat → List Byte → M × Bool} {view : M → Nat → Byte} (hc : Copy n ip fs)
    (hd : Dense fs.data (fs.dinode n) (fs.dinode n).size) (hoff : off < 2 ^ 32) (hlen : len < 2 ^ 32)
    (hw : Writable copyout view len) (mem : M) : ∃ r mem',
      fs.readi copyout mem ip off len = .ok (r, mem', fs) ∧ ReadDone n off len fs r (view mem) (view mem') := by
  unfold Fs.readi
  rw [hc.same]
  by_cases hno : (fs.dinode n).size < off ∨ 2 ^ 32 ≤ off + len
  · rw [if_pos (by omega)]
    refine ⟨0, mem, rfl, ?_⟩
    rw [ReadDone, if_pos hno]
    exact ⟨rfl, rfl⟩
  rw [if_neg (by omega)]
  have hcount : (if (fs.dinode n).size < off + len then (fs.dinode n).size - off else len) =
      min (off + len) (fs.dinode n).size - off := by
    split <;> omega
  have hd' : Dense fs.data (fs.inode ip).din (fs.dinode n).size := by
    rw [hc.same]
    exact hd
  rw [hcount]
  dsimp only
  generalize hk : min (off + len) (fs.dinode n).size - off = k
  have hw' : Writable copyout view k := fun mem t bs ht => hw mem t bs (by omega)
  have hfit : off + (k - 0) ≤ (fs.dinode n).size := by omega
  obtain ⟨mem', hrun, hmem'⟩ := readiLoop_delivers hw' hd' (Nat.zero_le k) hfit k (by omega) mem
  refine ⟨k, mem', hrun, ?_⟩
  rw [ReadDone, if_neg hno, hk, hmem', hc.same, Nat.sub_zero, slice_byteAt (by omega)]
  exact ⟨rfl, rfl⟩

end Copy

/-- A file is an array of bytes to `writei` and `readi`. -/
theorem file_is_byte_array {fs : Fs} {ip : Ip} (hc : Copy n ip fs)
    (ha : Acct fs.sb fs.used fs.data fs.dinode) (hoff : off < 2 ^ 32) (hlen : len < 2 ^ 32) :
    (∀ (M : Type) (copyin : M → Nat → Nat → M × List Byte × Bool) (src : Nat → Byte) (mem : M),
      Copies copyin src len → Readable copyin len → ∃ r mem' fs',
        fs.writei copyin mem ip off len = .ok (r, mem', fs') ∧ WriteDone n off len src r fs fs') ∧
    ∀ (M : Type) (copyout : M → Nat → List Byte → M × Bool) (view : M → Nat → Byte) (mem : M),
      Writable copyout view len → ∃ r mem',
        fs.readi copyout mem ip off len = .ok (r, mem', fs) ∧
        ReadDone n off len fs r (view mem) (view mem') :=
  ⟨fun _ _ _ mem hcopies hread => hc.writei_done ha hlen hcopies hread mem,
    fun _ _ _ mem hw => hc.readi_done (ha.dense n hc.typed) hoff hlen hw mem⟩

def rootInTable : Fs :=
  freshDisk.setInode 0 ⟨rootdev, rootino, 1, true, true, freshDisk.dinode rootino⟩

/-- Three bytes into the second block of a directory, and a read across both. -/
theorem file_is_byte_array_root :
    Copy rootino 0 rootInTable ∧
    (∃ r fs', rootInTable.writeiKernel 0 [1, 2, 3] bsize = .ok (r, fs') ∧
      WriteDone rootino bsize 3 ([1, 2, 3].getD · 0) r rootInTable fs') ∧
    ∃ r buf, rootInTable.readi (fun mem t bs => (splice mem t bs, true)) (fun _ => 0) 0 16 5000 =
        .ok (r, buf, rootInTable) ∧ ReadDone rootino 16 5000 rootInTable r (fun _ => 0) buf := by
  have hc : Copy rootino 0 rootInTable := ⟨rfl, rfl, by decide⟩
  have ha : Acct rootInTable.sb rootInTable.used rootInTable.data rootInTable.dinode :=
    freshDisk_wellFormed.acct
  have hwrite := file_is_byte_array hc ha (show bsize < 2 ^ 32 by decide) (show 3 < 2 ^ 32 by decide)
  have hread := file_is_byte_array hc ha (show 16 < 2 ^ 32 by decide) (show 5000 < 2 ^ 32 by decide)
  refine ⟨hc, ?_, hread.2 (Nat → Byte) _ id _ fun _ _ _ _ => ⟨rfl, rfl⟩⟩
  obtain ⟨r, _, fs', hrun, hdone⟩ := hwrite.1 Unit _ _ () (copies_kernel [1, 2, 3]) fun _ _ _ _ => rfl
  exact ⟨r, fs', by simp only [Fs.writeiKernel, List.length_cons, List.length_nil, hrun], hdone⟩

end Xv6Filter.Proofs
