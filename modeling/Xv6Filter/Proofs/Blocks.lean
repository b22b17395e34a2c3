import Xv6Filter.Fs.Inode
import Xv6Filter.Lib.Count

namespace Xv6Filter.Proofs
open Lib Function

/-- The number of places for block addresses in an inode: the direct ones, the
indirect block and its entries. -/
abbrev nslots : Nat := ndirect + 1 + nindirect

def slotAddr (data : Nat → Block) (d : Dinode) (s : Nat) : Nat :=
  if s ≤ ndirect then d.addrs s
  else if d.addrs ndirect = 0 then 0
  else word (data (d.addrs ndirect)) (s - (ndirect + 1))

def slotOf (bn : Nat) : Nat := if bn < ndirect then bn else bn + 1

structure Owned (used : Nat → Bool) (data : Nat → Block) (inodes : Nat → Dinode) : Prop where
  used : ∀ n s, s < nslots → (inodes n).type ≠ tFree → slotAddr data (inodes n) s ≠ 0 →
    used (slotAddr data (inodes n) s) = true
  inj : ∀ n s n' s', s < nslots → s' < nslots → (inodes n).type ≠ tFree →
    (inodes n').type ≠ tFree → slotAddr data (inodes n) s ≠ 0 →
    slotAddr data (inodes n) s = slotAddr data (inodes n') s' → n = n' ∧ s = s'

theorem slotAddr_ndirect (data : Nat → Block) (d : Dinode) :
    slotAddr data d ndirect = d.addrs ndirect := if_pos (Nat.le_refl _)

theorem slotAddr_entry (hind : d.addrs ndirect = addr) (haddr : addr ≠ 0) (data : Nat → Block)
    (j : Nat) : slotAddr data d (ndirect + 1 + j) = word (data addr) j := by
  rw [slotAddr, if_neg (by omega), hind, if_neg haddr, Nat.add_sub_cancel_left]

/-- The places of an inode depend on the disk through the indirect block only. -/
theorem slotAddr_congr (h : d.addrs ndirect ≠ 0 → data' (d.addrs ndirect) = data (d.addrs ndirect))
    (s : Nat) : slotAddr data' d s = slotAddr data d s := by
  unfold slotAddr
  split
  · rfl
  split
  · rfl
  · rename_i hn
    rw [h hn]

namespace Owned

variable {used used' : Nat → Bool} {data data' : Nat → Block} {inodes inodes' : Nat → Dinode}

theorem congr (ho : Owned used data inodes) (ht : ∀ k, (inodes' k).type = (inodes k).type)
    (hs : ∀ k t, t < nslots → (inodes k).type ≠ tFree →
      slotAddr data' (inodes' k) t = slotAddr data (inodes k) t) : Owned used data' inodes' := by
  refine ⟨?_, ?_⟩
  · intro k t hlt hty
    rw [ht] at hty
    rw [hs k t hlt hty]
    exact ho.used k t hlt hty
  · intro k t k' t' hlt hlt' hty hty'
    rw [ht] at hty hty'
    rw [hs k t hlt hty, hs k' t' hlt' hty']
    exact ho.inj k t k' t' hlt hlt' hty hty'

end Owned

def need (data : Nat → Block) (d : Dinode) (k : Nat) : Nat :=
  (List.range k).countP fun s => decide (slotAddr data d s = 0)

def freeBlocks (fs : Fs) : Nat := (List.range fs.sb.size).countP fun b => !fs.used b

/-- From `fs` to `fs'` every block that is no longer free fills one of the first `k` places. -/
def Balanced (ip : Ip) (k : Nat) (fs fs' : Fs) : Prop :=
  freeBlocks fs' + need fs.data (fs.inode ip).din k = freeBlocks fs + need fs'.data (fs'.inode ip).din k

theorem Balanced.trans {fs fs1 fs' : Fs} (h : Balanced ip k fs fs1) (h' : Balanced ip k fs1 fs') :
    Balanced ip k fs fs' := by
  simp only [Balanced] at *
  omega

theorem Balanced.of_slots {fs fs' : Fs} (hsb : fs'.sb = fs.sb) (hused : fs'.used = fs.used)
    (hslots : ∀ s, slotAddr fs'.data (fs'.inode ip).din s = slotAddr fs.data (fs.inode ip).din s) :
    Balanced ip k fs fs' := by
  simp only [Balanced, freeBlocks, need, hsb, hused, hslots]

/-- Entry `ip` stands for inode `n` and blocks can be added to it: the blocks have one
owner each, counting the addresses in memory, and enough are free for its first
`k` places. -/
structure Mappable (k n : Nat) (ip : Ip) (fs : Fs) : Prop where
  owned : Owned fs.used fs.data (update fs.dinode n (fs.inode ip).din)
  typed : (fs.inode ip).din.type ≠ tFree
  boot : fs.used 0 = true
  small : fs.sb.size ≤ 2 ^ 32
  room : need fs.data (fs.inode ip).din k ≤ freeBlocks fs

structure Grown (ip : Ip) (fs fs' : Fs) : Prop where
  entry : fs'.inode = update fs.inode ip { fs.inode ip with din := (fs'.inode ip).din }
  shape : (fs'.inode ip).din = { (fs.inode ip).din with addrs := (fs'.inode ip).din.addrs }
  slots : ∀ s, s < nslots → slotAddr fs.data (fs.inode ip).din s ≠ 0 →
    slotAddr fs'.data (fs'.inode ip).din s = slotAddr fs.data (fs.inode ip).din s
  fresh : ∀ s, s < nslots → slotAddr fs.data (fs.inode ip).din s = 0 →
    slotAddr fs'.data (fs'.inode ip).din s ≠ 0 →
    fs.used (slotAddr fs'.data (fs'.inode ip).din s) = false
  data : ∀ b, b ≠ 0 → fs.used b = true → b ≠ (fs.inode ip).din.addrs ndirect →
    fs'.data b = fs.data b
  used : ∀ b, fs.used b = true → fs'.used b = true
  dinode : fs'.dinode = fs.dinode
  sb : fs'.sb = fs.sb

structure Allocated (fs : Fs) (b : Nat) (fs' : Fs) : Prop where
  nonzero : b ≠ 0
  inside : b < fs.sb.size
  free : fs.used b = false
  used : fs'.used = update fs.used b true
  data : fs'.data = update fs.data b (fun _ => 0)
  inode : fs'.inode = fs.inode
  dinode : fs'.dinode = fs.dinode
  sb : fs'.sb = fs.sb

theorem balloc_allocated (hf : 0 < freeBlocks fs) (h0 : fs.used 0 = true) :
    ∃ b fs', fs.balloc = (b, fs') ∧ Allocated fs b fs' := by
  obtain ⟨j, hj, hfree⟩ := exists_of_countP_range hf
  unfold Fs.balloc
  split
  · rename_i hn
    exact absurd hfree (List.find?_eq_none.mp hn j (List.mem_range.mpr hj))
  · rename_i b hb
    have hub : fs.used b = false := by simpa using List.find?_some hb
    refine ⟨b, _, rfl, ?_, List.mem_range.mp (List.mem_of_find?_eq_some hb), hub, ?_, ?_, ?_, ?_, ?_⟩
    · rintro rfl
      simp [h0] at hub
    all_goals simp

theorem Allocated.freeBlocks (ha : Allocated fs b fs') : freeBlocks fs' + 1 = Proofs.freeBlocks fs := by
  unfold Proofs.freeBlocks
  rw [ha.sb, ha.used]
  apply countP_range_drop ha.inside
  · simp [ha.free]
  · simp
  · intro i _ hi
    simp [hi]

theorem Allocated.freeBlocks_pos (ha : Allocated fs b fs') : 0 < Proofs.freeBlocks fs :=
  ha.freeBlocks ▸ Nat.succ_pos _

theorem Allocated.ne_of_used (ha : Allocated fs b fs') (hc : fs.used c = true) : c ≠ b := by
  rintro rfl
  rw [ha.free] at hc
  cases hc

namespace Grown

theorem refl (ip : Ip) (fs : Fs) : Grown ip fs fs :=
  ⟨by simp, rfl, fun _ _ _ => rfl, fun _ _ h h' => absurd h h', fun _ _ _ _ => rfl, fun _ h => h,
    rfl, rfl⟩

theorem trans (h : Grown ip fs fs1) (h' : Grown ip fs1 fs') : Grown ip fs fs' := by
  have hind : (fs.inode ip).din.addrs ndirect ≠ 0 →
      (fs1.inode ip).din.addrs ndirect = (fs.inode ip).din.addrs ndirect := by
    intro hz
    have := h.slots ndirect (by decide) (by rwa [slotAddr_ndirect])
    rwa [slotAddr_ndirect, slotAddr_ndirect] at this
  refine ⟨?_, ?_, ?_, ?_, ?_, fun b hb => h'.used b (h.used b hb), h'.dinode.trans h.dinode,
    h'.sb.trans h.sb⟩
  · rw [h'.entry, h.entry]
    simp
  · rw [h'.shape, h.shape]
  · intro s hs hz
    have hs1 := h.slots s hs hz
    rw [h'.slots s hs (by rwa [hs1]), hs1]
  · intro s hs hz hz'
    by_cases h1 : slotAddr fs1.data (fs1.inode ip).din s = 0
    · have := h'.fresh s hs h1 hz'
      by_contra hu
      rw [h.used _ (by simpa using hu)] at this
      cases this
    · rw [h'.slots s hs h1]
      exact h.fresh s hs hz h1
  · intro b hb hu hi
    rw [h'.data b hb (h.used b hu), h.data b hb hu hi]
    intro he
    by_cases hz : (fs.inode ip).din.addrs ndirect = 0
    · have hnew := h.fresh ndirect (by decide) (by rwa [slotAddr_ndirect])
      rw [slotAddr_ndirect, ← he, hu] at hnew
      cases hnew hb
    · exact hi (he.trans (hind hz))

end Grown

namespace Mappable

variable {fs fs1 fs' : Fs} {ip : Ip} {k n : Nat}

theorem slot_used (hm : Mappable k n ip fs) (hs : s < nslots) (h0 : slotAddr fs.data (fs.inode ip).din s ≠ 0) :
    fs.used (slotAddr fs.data (fs.inode ip).din s) = true := by
  have h := hm.owned.used n s hs
  rw [update_self] at h
  exact h hm.typed h0

theorem indirect_used (hm : Mappable k n ip fs) (h0 : (fs.inode ip).din.addrs ndirect ≠ 0) :
    fs.used ((fs.inode ip).din.addrs ndirect) = true := by
  have h := hm.slot_used (s := ndirect) (by decide)
  rw [slotAddr_ndirect] at h
  exact h h0

end Mappable

structure Hooked (ip : Ip) (s b : Nat) (fs fs' : Fs) : Prop where
  entry : fs'.inode = update fs.inode ip { fs.inode ip with din := (fs'.inode ip).din }
  shape : (fs'.inode ip).din = { (fs.inode ip).din with addrs := (fs'.inode ip).din.addrs }
  used : fs'.used = update fs.used b true
  dinode : fs'.dinode = fs.dinode
  sb : fs'.sb = fs.sb
  empty : slotAddr fs.data (fs.inode ip).din s = 0
  filled : slotAddr fs'.data (fs'.inode ip).din s = b
  rest : ∀ t, t < nslots → t ≠ s →
    slotAddr fs'.data (fs'.inode ip).din t = slotAddr fs.data (fs.inode ip).din t
  data : ∀ c, c ≠ b → c ≠ (fs.inode ip).din.addrs ndirect → fs'.data c = fs.data c

structure Mapped (k n : Nat) (ip : Ip) (s a : Nat) (fs fs' : Fs) : Prop where
  nonzero : a ≠ 0
  addr : slotAddr fs'.data (fs'.inode ip).din s = a
  grown : Grown ip fs fs'
  mappable : Mappable k n ip fs'

namespace Hooked

variable {fs fs1 fs' : Fs} {ip : Ip} {s b k n : Nat}

section

variable (h : Hooked ip s b fs fs')

include h

theorem used_mono (hc : fs.used c = true) : fs'.used c = true := by
  rw [h.used]
  by_cases hcb : c = b <;> simp [hcb, hc]

theorem grown (ha : Allocated fs b fs1) : Grown ip fs fs' := by
  refine ⟨h.entry, h.shape, ?_, ?_, ?_, fun c => h.used_mono, h.dinode, h.sb⟩
  · intro t ht hz
    apply h.rest t ht
    rintro rfl
    exact hz h.empty
  · intro t ht hz hz'
    by_cases hts : t = s
    · rw [hts, h.filled]
      exact ha.free
    · exact absurd ((h.rest t ht hts).trans hz) hz'
  · exact fun c _ hc hi => h.data c (ha.ne_of_used hc) hi

/-- The indirect block of another inode is neither the new block nor this one's. -/
theorem other (ha : Allocated fs b fs1) (hm : Mappable k n ip fs)
    (hmn : m ≠ n) (hty : (fs.dinode m).type ≠ tFree) (t : Nat) :
    slotAddr fs'.data (fs.dinode m) t = slotAddr fs.data (fs.dinode m) t := by
  apply slotAddr_congr
  intro hz
  have hmm : update fs.dinode n (fs.inode ip).din m = fs.dinode m :=
    update_of_ne hmn _ _
  have hu := hm.owned.used m ndirect (by decide)
  have hi := hm.owned.inj m ndirect n ndirect (by decide) (by decide)
  rw [hmm, slotAddr_ndirect] at hu hi
  rw [update_self, slotAddr_ndirect] at hi
  apply h.data _ (ha.ne_of_used (hu hty hz))
  intro he
  exact hmn (hi hty hm.typed hz he).1

theorem balanced (ha : Allocated fs b fs1) (hs : s < k) (hk : k ≤ nslots) : Balanced ip k fs fs' := by
  have hfree : freeBlocks fs' + 1 = freeBlocks fs := by
    rw [← ha.freeBlocks]
    unfold freeBlocks
    rw [h.sb, h.used, ha.sb, ha.used]
  have hneed : need fs'.data (fs'.inode ip).din k + 1 = need fs.data (fs.inode ip).din k := by
    apply countP_range_drop hs
    · simpa using h.empty
    · simpa [h.filled] using ha.nonzero
    · intro t ht hts
      rw [h.rest t (by omega) hts]
  simp only [Balanced]
  omega

end

end Hooked

namespace Mappable

variable {fs fs1 fs' : Fs} {ip : Ip} {k n : Nat}

/-- A new block in a place of the inode itself; as the indirect block it is zero. -/
theorem hook_direct (hm : Mappable k n ip fs) (ha : Allocated fs b fs1) (hi : i ≤ ndirect)
    (h0 : (fs.inode ip).din.addrs i = 0) :
    Hooked ip i b fs (fs1.setDin ip { (fs.inode ip).din with
      addrs := update (fs.inode ip).din.addrs i b }) where
  entry := by simp [ha.inode]
  shape := by simp
  used := by simp [ha.used]
  dinode := by simp [ha.dinode]
  sb := by simp [ha.sb]
  empty := (if_pos hi).trans h0
  filled := by simp [slotAddr, hi]
  rest := by
    intro t ht hti
    simp only [Fs.setDin_inode, update_self, Fs.setDin_data]
    by_cases hin : i = ndirect
    · subst hin
      simp [slotAddr, hti, h0, ha.data, ha.nonzero]
    · have hni : ndirect ≠ i := Ne.symm hin
      have hdata : slotAddr fs1.data (fs.inode ip).din t = slotAddr fs.data (fs.inode ip).din t := by
        apply slotAddr_congr
        intro hz
        rw [ha.data, update_of_ne (ha.ne_of_used (hm.indirect_used hz))]
      rw [← hdata]
      simp [slotAddr, hti, hni]
  data := by
    intro c hc _
    simp [ha.data, hc]

theorem hook_indirect (hm : Mappable k n ip fs) (ha : Allocated fs b fs1)
    (hind : (fs.inode ip).din.addrs ndirect = addr) (haddr : addr ≠ 0)
    (h0 : word (fs.data addr) j = 0) :
    Hooked ip (ndirect + 1 + j) b fs
      ((fs1.setData addr (setWord (fs1.data addr) j b)).logWrite addr) where
  entry := by simp [ha.inode]
  shape := by simp [ha.inode]
  used := by simp [ha.used]
  dinode := by simp [ha.dinode]
  sb := by simp [ha.sb]
  empty := by rw [slotAddr_entry hind haddr, h0]
  filled := by
    have hb32 : b % 2 ^ 32 = b := Nat.mod_eq_of_lt (Nat.lt_of_lt_of_le ha.inside hm.small)
    simp only [Fs.logWrite_data, Fs.setData_data, Fs.logWrite_inode, Fs.setData_inode, ha.inode]
    rw [slotAddr_entry hind haddr, update_self, word_setWord, hb32]
  rest := by
    intro t ht hti
    simp only [Fs.logWrite_data, Fs.setData_data, Fs.logWrite_inode, Fs.setData_inode, ha.inode]
    by_cases hle : t ≤ ndirect
    · rw [slotAddr, slotAddr, if_pos hle, if_pos hle]
    · obtain ⟨i, rfl⟩ : ∃ i, t = ndirect + 1 + i := ⟨t - (ndirect + 1), by omega⟩
      have hu := hm.indirect_used (by rwa [hind])
      rw [hind] at hu
      have hsame : fs1.data addr = fs.data addr := by
        rw [ha.data, update_of_ne (ha.ne_of_used hu)]
      rw [slotAddr_entry hind haddr, slotAddr_entry hind haddr, update_self,
        word_setWord_ne _ _ (by omega), hsame]
  data := by
    intro c hc hca
    rw [hind] at hca
    simp [ha.data, hc, hca]

end Mappable

end Xv6Filter.Proofs
