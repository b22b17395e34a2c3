import Xv6Filter.Kernel.Audit
import Xv6Filter.Proofs.Blocks

namespace Xv6Filter.Proofs
open Lib Function

def byteAt (data : Nat → Block) (d : Dinode) (i : Nat) : Byte :=
  data (slotAddr data d (slotOf (i / bsize))) (i % bsize)

def contents (data : Nat → Block) (d : Dinode) (n : Nat) : List Byte :=
  (List.range n).map (byteAt data d)

def fileText (fs : Fs) (n : Nat) : List Byte := contents fs.data (fs.dinode n) (fs.dinode n).size

def Dense (data : Nat → Block) (d : Dinode) (n : Nat) : Prop :=
  ∀ bn, bn * bsize < n → bn < maxfile ∧ slotAddr data d (slotOf bn) ≠ 0

theorem Dense.mono {data : Nat → Block} {d : Dinode} (h : Dense data d n) (hm : m ≤ n) :
    Dense data d m := fun bn hbn => h bn (Nat.lt_of_lt_of_le hbn hm)

def placesFor (n : Nat) : Nat :=
  let blocks := (n + (bsize - 1)) / bsize
  if blocks ≤ ndirect then blocks else blocks + 1

theorem slotOf_lt_placesFor (h : bn * bsize < n) : slotOf bn < placesFor n := by
  simp only [slotOf, placesFor, bsize, ndirect] at *
  split <;> split <;> omega

theorem placesFor_mono (h : n ≤ m) : placesFor n ≤ placesFor m := by
  simp only [placesFor, bsize, ndirect] at *
  split <;> split <;> omega

theorem placesFor_le (h : n ≤ maxfile * bsize) : placesFor n ≤ nslots := by
  simp only [placesFor, maxfile, bsize, ndirect, nindirect, nslots] at *
  split <;> omega

theorem slotOf_lt_nslots (h : bn < maxfile) : slotOf bn < nslots := by
  simp only [slotOf, maxfile, ndirect, nindirect, nslots] at *
  split <;> omega

theorem slotOf_ne_ndirect (bn : Nat) : slotOf bn ≠ ndirect := by
  simp only [slotOf, ndirect]
  split <;> omega

theorem slotOf_injective (h : slotOf a = slotOf b) : a = b := by
  simp only [slotOf, ndirect] at h
  split at h <;> split at h <;> omega

theorem need_of_dense {data : Nat → Block} {d : Dinode} (h : Dense data d size) :
    need data d (placesFor size) = 0 := by
  apply List.countP_eq_zero.mpr
  intro s hs
  rw [List.mem_range] at hs
  rw [decide_eq_true_eq]
  rcases Nat.lt_trichotomy s ndirect with hlt | rfl | hgt
  · have hslot : slotOf s = s := if_pos hlt
    rw [← hslot]
    refine (h s ?_).2
    simp only [placesFor, bsize, ndirect] at hs hlt ⊢
    split at hs <;> omega
  · have hfirst := (h ndirect (by simp only [placesFor, bsize, ndirect] at hs ⊢; split at hs <;> omega)).2
    intro hzero
    rw [slotAddr_ndirect] at hzero
    apply hfirst
    rw [slotAddr, if_neg (by decide), if_pos hzero]
  · obtain ⟨j, rfl⟩ : ∃ j, s = ndirect + 1 + j := ⟨s - ndirect - 1, by omega⟩
    have hslot : slotOf (ndirect + j) = ndirect + 1 + j := by
      simp only [slotOf, ndirect]
      split <;> omega
    rw [← hslot]
    refine (h (ndirect + j) ?_).2
    simp only [placesFor, bsize, ndirect] at hs ⊢
    split at hs <;> omega

theorem need_pos {data : Nat → Block} {d : Dinode} (hs : s < k) (h0 : slotAddr data d s = 0) :
    0 < need data d k := by
  apply List.countP_pos_iff.mpr
  exact ⟨s, List.mem_range.mpr hs, by simpa using h0⟩

theorem length_contents (data : Nat → Block) (d : Dinode) (n : Nat) :
    (contents data d n).length = n := by simp [contents]

@[simp] theorem length_fileText (fs : Fs) (n : Nat) : (fileText fs n).length = (fs.dinode n).size :=
  length_contents ..

theorem contents_congr (h : ∀ i, i < n → byteAt data' d' i = byteAt data d i) :
    contents data' d' n = contents data d n := by
  apply List.map_congr_left
  intro i hi
  exact h i (List.mem_range.mp hi)

structure Extended (ip : Ip) (fs fs' : Fs) : Prop where
  entry : fs'.inode = update fs.inode ip { fs.inode ip with din := (fs'.inode ip).din }
  shape : (fs'.inode ip).din = { (fs.inode ip).din with addrs := (fs'.inode ip).din.addrs }
  data : ∀ b, b ≠ 0 → fs.used b = true →
    (∀ s, s < nslots → slotAddr fs.data (fs.inode ip).din s ≠ b) → fs'.data b = fs.data b
  used : ∀ b, fs.used b = true → fs'.used b = true
  dinode : fs'.dinode = fs.dinode
  sb : fs'.sb = fs.sb

namespace Extended

variable {fs fs' : Fs} {ip : Ip} {k n m : Nat} (hx : Extended ip fs fs') (hm : Mappable k n ip fs)
  (hmn : m ≠ n) (hty : (fs.dinode m).type ≠ tFree)
include hx hm hmn hty

theorem data_other (ht : t < nslots) (h0 : slotAddr fs.data (fs.dinode m) t ≠ 0) :
    fs'.data (slotAddr fs.data (fs.dinode m) t) = fs.data (slotAddr fs.data (fs.dinode m) t) := by
  have hmm : update fs.dinode n (fs.inode ip).din m = fs.dinode m :=
    update_of_ne hmn _ _
  have hu := hm.owned.used m t ht
  rw [hmm] at hu
  apply hx.data _ h0 (hu hty h0)
  intro t' ht' he
  have hi := hm.owned.inj m t n t' ht ht'
  rw [hmm, update_self] at hi
  exact hmn (hi hty hm.typed h0 he.symm).1

theorem slotAddr_other (s : Nat) : slotAddr fs'.data (fs.dinode m) s = slotAddr fs.data (fs.dinode m) s := by
  apply slotAddr_congr
  intro hz
  have := hx.data_other hm hmn hty (t := ndirect) (by decide)
  rw [slotAddr_ndirect] at this
  exact this hz

theorem byteAt_other (hi : i / bsize < maxfile) (h0 : slotAddr fs.data (fs.dinode m) (slotOf (i / bsize)) ≠ 0) :
    byteAt fs'.data (fs.dinode m) i = byteAt fs.data (fs.dinode m) i := by
  unfold byteAt
  rw [hx.slotAddr_other hm hmn hty, hx.data_other hm hmn hty (slotOf_lt_nslots hi) h0]

end Extended

theorem Owned.slotAddr_update {used : Nat → Bool} {data : Nat → Block} {inodes : Nat → Dinode}
    (ho : Owned used data inodes) (ht : (inodes n).type ≠ tFree) (hbn : bn < maxfile)
    (ha : slotAddr data (inodes n) (slotOf bn) = a) (blk : Block) (hm : (inodes m).type ≠ tFree)
    (s : Nat) :
    slotAddr (update data a blk) (inodes m) s = slotAddr data (inodes m) s := by
  apply slotAddr_congr
  intro hz
  rw [update_of_ne]
  intro he
  have hi := ho.inj m ndirect n (slotOf bn) (by decide) (slotOf_lt_nslots hbn) hm ht
  rw [slotAddr_ndirect, ha] at hi
  exact slotOf_ne_ndirect bn (hi hz he).2.symm

theorem Mappable.setData {fs : Fs} {ip : Ip} (hm : Mappable k n ip fs) (hbn : bn < maxfile)
    (ha : slotAddr fs.data (fs.inode ip).din (slotOf bn) = a) (blk : Block) :
    Mappable k n ip ((fs.setData a blk).logWrite a) ∧
      ∀ s, slotAddr (update fs.data a blk) (fs.inode ip).din s =
        slotAddr fs.data (fs.inode ip).din s := by
  have hself : update fs.dinode n (fs.inode ip).din n = (fs.inode ip).din :=
    update_self ..
  have hat : slotAddr fs.data (update fs.dinode n (fs.inode ip).din n) (slotOf bn) = a := by
    rw [hself]
    exact ha
  have hkeep := fun m => hm.owned.slotAddr_update (m := m) (by rw [hself]; exact hm.typed) hbn hat blk
  refine ⟨⟨?_, ?_, ?_, ?_, ?_⟩, ?_⟩
  · simp only [Fs.logWrite_used, Fs.setData_used, Fs.logWrite_data, Fs.setData_data,
      Fs.logWrite_dinode, Fs.setData_dinode, Fs.logWrite_inode, Fs.setData_inode]
    exact hm.owned.congr (fun _ => rfl) (fun m s _ hty => hkeep m hty s)
  · simpa using hm.typed
  · simpa using hm.boot
  · simpa using hm.small
  · have h := hkeep n
    rw [hself] at h
    have hneed : need (update fs.data a blk) (fs.inode ip).din k =
        need fs.data (fs.inode ip).din k := by
      unfold need
      simp only [h hm.typed]
    simpa [freeBlocks, hneed] using hm.room
  · have h := hkeep n
    rw [hself] at h
    exact h hm.typed

theorem Grown.data_slot {fs fs' : Fs} {ip : Ip} (hg : Grown ip fs fs') (hm : Mappable k n ip fs)
    (hbn : bn < maxfile) (h0 : slotAddr fs.data (fs.inode ip).din (slotOf bn) ≠ 0) :
    fs'.data (slotAddr fs.data (fs.inode ip).din (slotOf bn)) =
      fs.data (slotAddr fs.data (fs.inode ip).din (slotOf bn)) := by
  have hs := slotOf_lt_nslots hbn
  apply hg.data _ h0 (hm.slot_used hs h0)
  intro he
  have hi := hm.owned.inj n (slotOf bn) n ndirect hs (by decide)
  simp only [update_self, slotAddr_ndirect] at hi
  exact slotOf_ne_ndirect bn (hi hm.typed hm.typed h0 he).2

namespace Mapped

variable {fs fs1 : Fs} {ip : Ip} {k n bn a : Nat}

section

variable (h : Mapped k n ip (slotOf bn) a fs fs1)

include h

theorem slot_ne (hbn : bn < maxfile) (hlt : bn' < maxfile)
    (hne : bn' ≠ bn) (h0 : slotAddr fs1.data (fs1.inode ip).din (slotOf bn') ≠ 0) :
    slotAddr fs1.data (fs1.inode ip).din (slotOf bn') ≠ a := by
  intro he
  have hinj := h.mappable.owned.inj n (slotOf bn') n (slotOf bn) (slotOf_lt_nslots hlt)
    (slotOf_lt_nslots hbn)
  simp only [update_self, h.addr] at hinj
  exact hne (slotOf_injective (hinj h.mappable.typed h.mappable.typed h0 he).2)

theorem of_used (hbn : bn < maxfile)
    (hu : fs.used a = true) : slotAddr fs.data (fs.inode ip).din (slotOf bn) = a := by
  have hs := slotOf_lt_nslots hbn
  by_cases hz : slotAddr fs.data (fs.inode ip).din (slotOf bn) = 0
  · have hnew := h.grown.fresh _ hs hz (by rw [h.addr]; exact h.nonzero)
    rw [h.addr, hu] at hnew
    cases hnew
  · rw [← h.grown.slots _ hs hz, h.addr]

theorem extended (hbn : bn < maxfile) (blk : Block) : Extended ip fs ((fs1.setData a blk).logWrite a) where
  entry := by simpa using h.grown.entry
  shape := by simpa using h.grown.shape
  data := by
    intro b hb0 hu hns
    have hba : b ≠ a := by
      rintro rfl
      exact hns _ (slotOf_lt_nslots hbn) (h.of_used hbn hu)
    have hind := hns ndirect (by decide)
    rw [slotAddr_ndirect] at hind
    simpa [hba] using h.grown.data b hb0 hu (Ne.symm hind)
  used := by simpa using h.grown.used
  dinode := by simpa using h.grown.dinode
  sb := by simpa using h.grown.sb

/-- The file has its blocks up to `stop`, if the block mapped is the only one it lacked. -/
theorem dense (hbn : bn < maxfile) (blk : Block) (hd : Dense fs.data (fs.inode ip).din off)
    (hstop : ∀ bn', bn' * bsize < stop → bn' * bsize < off ∨ bn' = bn) :
    Dense (update fs1.data a blk) (fs1.inode ip).din stop := by
  intro bn' hbn'
  rw [(h.mappable.setData hbn h.addr blk).2]
  rcases hstop bn' hbn' with hold | rfl
  · obtain ⟨hlt, h0⟩ := hd bn' hold
    refine ⟨hlt, ?_⟩
    rwa [h.grown.slots _ (slotOf_lt_nslots hlt) h0]
  · refine ⟨hbn, ?_⟩
    rw [h.addr]
    exact h.nonzero

theorem byteAt_update (hm : Mappable k n ip fs) (hbn : bn < maxfile) (hlt : i / bsize < maxfile)
    (h0 : slotAddr fs.data (fs.inode ip).din (slotOf (i / bsize)) ≠ 0) (blk : Block) :
    byteAt (update fs1.data a blk) (fs1.inode ip).din i =
      if i / bsize = bn then blk (i % bsize) else byteAt fs.data (fs.inode ip).din i := by
  have hkeep := h.grown.slots _ (slotOf_lt_nslots hlt) h0
  unfold byteAt
  rw [(h.mappable.setData hbn h.addr _).2]
  by_cases hsame : i / bsize = bn
  · rw [if_pos hsame, hsame, h.addr, update_self]
  · have hne := h.slot_ne hbn hlt hsame (by rwa [hkeep])
    rw [if_neg hsame, update_of_ne hne, hkeep, h.grown.data_slot hm hlt h0]

theorem data_eq (hm : Mappable k n ip fs)
    (hbn : bn < maxfile) (h0 : slotAddr fs.data (fs.inode ip).din (slotOf bn) ≠ 0) (r : Nat) :
    fs1.data a r = fs.data (slotAddr fs.data (fs.inode ip).din (slotOf bn)) r := by
  have hkeep := h.grown.slots _ (slotOf_lt_nslots hbn) h0
  rw [← h.grown.data_slot hm hbn h0, ← hkeep, h.addr]

theorem byteAt_written (hbn : bn < maxfile) (hr : r + xs.length ≤ bsize) (hi : i < xs.length) :
    byteAt (update fs1.data a (splice (fs1.data a) r xs)) (fs1.inode ip).din
      (bn * bsize + r + i) = xs.getD i 0 := by
  have hdiv : (bn * bsize + r + i) / bsize = bn ∧ (bn * bsize + r + i) % bsize = r + i := by
    simp only [bsize] at hr ⊢
    omega
  unfold byteAt
  rw [hdiv.1, hdiv.2, (h.mappable.setData hbn h.addr _).2, h.addr, update_self,
    splice_inside _ _ hi]

end

end Mapped

end Xv6Filter.Proofs
