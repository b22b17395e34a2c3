import Xv6Filter.Lib.Owners
import Xv6Filter.Proofs.Append
import Xv6Filter.Proofs.Logged

namespace Xv6Filter.Proofs
open Lib Function

def dataStart (sb : Superblock) : Nat := sb.bmapstart + sb.size / bpb + 1

def InData (sb : Superblock) (b : Nat) : Prop := dataStart sb ≤ b ∧ b < sb.size

def placed (data : Nat → Block) (inodes : Nat → Dinode) (x : Nat × Nat) : Nat :=
  if x.2 < nslots ∧ (inodes x.1).type ≠ tFree then slotAddr data (inodes x.1) x.2 else 0

/-- The bitmap marks exactly the blocks before the data area and those that one place
of one inode has. -/
structure Cover (sb : Superblock) (used : Nat → Bool) (own : Nat × Nat → Nat) : Prop where
  exact : Exact used own (InData sb)
  reserved : ∀ b, b < dataStart sb → used b = true
  small : sb.size ≤ 2 ^ 32

/-- Block accounting: the bitmap is right and no inode lacks a block below its size. -/
structure Acct (sb : Superblock) (used : Nat → Bool) (data : Nat → Block) (inodes : Nat → Dinode) :
    Prop where
  cover : Cover sb used (placed data inodes)
  dense : ∀ n, (inodes n).type ≠ tFree → Dense data (inodes n) (inodes n).size

theorem placed_pos {data : Nat → Block} (hs : s < nslots) (ht : (inodes n).type ≠ tFree) :
    placed data inodes (n, s) = slotAddr data (inodes n) s := if_pos ⟨hs, ht⟩

theorem placed_congr {data data' : Nat → Block} {inodes inodes' : Nat → Dinode}
    (ht : (inodes' n).type = (inodes n).type)
    (hs : s < nslots → (inodes n).type ≠ tFree →
      slotAddr data' (inodes' n) s = slotAddr data (inodes n) s) :
    placed data' inodes' (n, s) = placed data inodes (n, s) := by
  unfold placed
  dsimp only
  rw [ht]
  split
  · rename_i h
    exact hs h.1 h.2
  · rfl

theorem not_inData_zero (sb : Superblock) : ¬ InData sb 0 := by
  rintro ⟨h, _⟩
  exact Nat.not_succ_le_zero _ h

theorem Cover.owned {data : Nat → Block} (h : Cover sb used (placed data inodes)) :
    Owned used data inodes where
  used := by
    intro n s hs ht h0
    have := h.exact.marked (n, s)
    rw [placed_pos hs ht] at this
    exact this h0
  inj := by
    intro n s n' s' hs hs' ht ht' h0 he
    have := h.exact.inj (n, s) (n', s')
    rw [placed_pos hs ht, placed_pos hs' ht'] at this
    exact Prod.mk.inj (this h0 he)

/-- Entry `ip` is at work on inode `n`: the accounts are right if its copy counts. -/
structure Working (n : Nat) (ip : Ip) (fs : Fs) : Prop where
  acct : Acct fs.sb fs.used fs.data (update fs.dinode n (fs.inode ip).din)
  typed : (fs.inode ip).din.type ≠ tFree

namespace Working

variable {fs fs1 fs' : Fs} {ip : Ip} {n : Nat}

theorem boot (h : Working n ip fs) : fs.used 0 = true :=
  h.acct.cover.reserved 0 (Nat.succ_pos _)

theorem mappable (h : Working n ip fs) : Mappable 0 n ip fs :=
  ⟨h.acct.cover.owned, h.typed, h.boot, h.acct.cover.small, Nat.zero_le _⟩

theorem dense (h : Working n ip fs) : Dense fs.data (fs.inode ip).din (fs.inode ip).din.size := by
  have := h.acct.dense n
  rw [update_self] at this
  exact this h.typed

theorem placed_self (h : Working n ip fs) (hs : s < nslots) :
    placed fs.data (update fs.dinode n (fs.inode ip).din) (n, s) =
      slotAddr fs.data (fs.inode ip).din s := by
  rw [placed_pos hs (by rw [update_self]; exact h.typed), update_self]

end Working

theorem balloc_cases {fs : Fs} (h0 : fs.used 0 = true) :
    (∃ b fs', fs.balloc = (b, fs') ∧ Allocated fs b fs') ∨ fs.balloc = (0, fs) ∧ freeBlocks fs = 0 := by
  by_cases hf : 0 < freeBlocks fs
  · exact .inl (balloc_allocated hf h0)
  · right
    have hz : freeBlocks fs = 0 := by omega
    refine ⟨?_, hz⟩
    have hnone : (List.range fs.sb.size).find? (fun b => !fs.used b) = none := by
      rw [List.find?_eq_none]
      intro b hb hu
      exact absurd hz (Nat.ne_of_gt (List.countP_pos_iff.mpr ⟨b, hb, hu⟩))
    simp [Fs.balloc, hnone]

theorem Allocated.inData {fs fs1 : Fs} {ip : Ip} (ha : Allocated fs b fs1) (h : Working n ip fs) :
    InData fs.sb b := by
  refine ⟨?_, ha.inside⟩
  by_contra hlt
  have := h.acct.cover.reserved b (by omega)
  rw [ha.free] at this
  cases this

theorem Dense.grow {data data' : Nat → Block} {d d' : Dinode} (h : Dense data d n)
    (hs : ∀ s, s < nslots → slotAddr data d s ≠ 0 → slotAddr data' d' s ≠ 0) : Dense data' d' n := by
  intro bn hbn
  obtain ⟨hlt, h0⟩ := h bn hbn
  exact ⟨hlt, hs _ (slotOf_lt_nslots hlt) h0⟩

namespace Hooked

variable {fs fs1 fs' : Fs} {ip : Ip} {s b n : Nat}

theorem working (h : Hooked ip s b fs fs') (ha : Allocated fs b fs1) (hw : Working n ip fs)
    (hs : s < nslots) : Working n ip fs' := by
  have hm := hw.mappable
  have htype : (fs'.inode ip).din.type = (fs.inode ip).din.type := by rw [h.shape]
  have hw' : (fs'.inode ip).din.type ≠ tFree := htype ▸ hw.typed
  refine ⟨⟨⟨?_, ?_, ?_⟩, ?_⟩, hw'⟩
  · rw [h.sb, h.dinode]
    apply hw.acct.cover.exact.insert (i := (n, s)) _ ha.free (ha.inData hw) h.used
    · rw [placed_pos hs (by simpa using hw'), update_self]
      exact h.filled
    · rintro ⟨m, t⟩ hne
      by_cases hmn : m = n
      · subst hmn
        apply placed_congr <;> simp only [update_self]
        · exact htype
        · exact fun ht _ => h.rest t ht fun he => hne (he ▸ rfl)
      · apply placed_congr <;> simp only [update_of_ne hmn]
        exact fun _ hty => h.other ha hm hmn hty t
    · rw [hw.placed_self hs]
      exact h.empty
  · intro c hc
    rw [h.sb] at hc
    exact h.used_mono (hw.acct.cover.reserved c hc)
  · rw [h.sb]
    exact hw.acct.cover.small
  · intro m hty
    rw [h.dinode] at hty ⊢
    have hdense := hw.acct.dense m
    by_cases hmn : m = n
    · subst hmn
      simp only [update_self] at hdense ⊢
      have hsize : (fs'.inode ip).din.size = (fs.inode ip).din.size := by rw [h.shape]
      rw [hsize]
      refine (hdense hw.typed).grow fun t ht h0 => ?_
      rw [(h.grown ha).slots t ht h0]
      exact h0
    · simp only [update_of_ne hmn] at hdense hty ⊢
      refine (hdense hty).grow fun t _ h0 => ?_
      rw [h.other ha hm hmn hty t]
      exact h0

end Hooked

structure Reached (n : Nat) (ip : Ip) (s a : Nat) (fs fs' : Fs) : Prop where
  working : Working n ip fs'
  grown : Grown ip fs fs'
  addr : a ≠ 0 → slotAddr fs'.data (fs'.inode ip).din s = a
  logs : ∀ b ∈ fs'.logged, b ∈ fs.logged ∨ InBitmap fs.sb b ∨
    b = (fs'.inode ip).din.addrs ndirect ∨ b = a
  full : a = 0 → slotAddr fs'.data (fs'.inode ip).din s = 0 ∧ freeBlocks fs' = 0
  count : ∀ k, s < k → k ≤ nslots → Balanced ip k fs fs'
  /-- without the block asked for, the indirect block may still have been added -/
  change : fs' = fs ∨ 0 < freeBlocks fs ∧ slotAddr fs.data (fs.inode ip).din s = 0 ∧
    (a = 0 → (fs.inode ip).din.addrs ndirect = 0 ∧ (fs'.inode ip).din.addrs ndirect ≠ 0)

namespace Reached

variable {fs fs' : Fs} {ip : Ip} {n s a : Nat}

theorem same (hw : Working n ip fs) (ha : slotAddr fs.data (fs.inode ip).din s = a)
    (hfull : a = 0 → freeBlocks fs = 0) : Reached n ip s a fs fs :=
  ⟨hw, .refl ip fs, fun _ => ha, fun _ hb => .inl hb, fun h0 => ⟨ha.trans h0, hfull h0⟩, fun _ _ _ => rfl,
    .inl rfl⟩

theorem mapped (h : Reached n ip s a fs fs') (h0 : a ≠ 0) : Mapped 0 n ip s a fs fs' :=
  ⟨h0, h.addr h0, h.grown, h.working.mappable⟩

end Reached

namespace Working

variable {fs fs1 fs' : Fs} {ip : Ip} {n : Nat}

theorem bmapDirect (hw : Working n ip fs) (hi : i ≤ ndirect) :
    Reached n ip i (fs.bmapDirect ip i).1 fs (fs.bmapDirect ip i).2 := by
  unfold Fs.bmapDirect
  dsimp only
  split
  · rename_i h0
    rcases balloc_cases hw.boot with ⟨b, fs1, hb, ha⟩ | ⟨hb, hfull⟩
    · rw [hb]
      dsimp only
      rw [if_neg ha.nonzero]
      have hh := hw.mappable.hook_direct ha hi h0
      refine ⟨hh.working ha hw (by simp only [nslots]; omega), hh.grown ha, fun _ => hh.filled, ?_,
        fun hz => absurd hz ha.nonzero, fun k hk hks => hh.balanced ha hk hks,
        .inr ⟨ha.freeBlocks_pos, hh.empty, fun hz => absurd hz ha.nonzero⟩⟩
      intro x hx
      rcases balloc_logged hb hx with hx | hx | hx
      · exact .inl hx
      · exact .inr (.inl hx)
      · exact .inr (.inr (.inr hx))
    · rw [hb]
      dsimp only
      rw [if_pos rfl]
      exact .same hw ((if_pos hi).trans h0) fun _ => hfull
  · rename_i h0
    exact .same hw (if_pos hi) fun hz => absurd hz h0

theorem bmapIndirect (hw : Working n ip fs) (hind : (fs.inode ip).din.addrs ndirect = addr)
    (haddr : addr ≠ 0) (hj : j < nindirect) :
    Reached n ip (ndirect + 1 + j) (fs.bmapIndirect addr j).1 fs (fs.bmapIndirect addr j).2 := by
  have hslot := slotAddr_entry hind haddr fs.data j
  unfold Fs.bmapIndirect
  dsimp only
  split
  · rename_i h0
    rcases balloc_cases hw.boot with ⟨b, fs1, hb, ha⟩ | ⟨hb, hfull⟩
    · rw [hb]
      dsimp only
      rw [if_neg ha.nonzero]
      have hh := hw.mappable.hook_indirect ha hind haddr h0
      refine ⟨hh.working ha hw (by simp only [nslots]; omega), hh.grown ha, fun _ => hh.filled, ?_,
        fun hz => absurd hz ha.nonzero, fun k hk hks => hh.balanced ha hk hks,
        .inr ⟨ha.freeBlocks_pos, hh.empty, fun hz => absurd hz ha.nonzero⟩⟩
      intro x hx
      rcases mem_logWrite.mp hx with hx | rfl
      · rcases balloc_logged hb hx with hx | hx | hx
        · exact .inl hx
        · exact .inr (.inl hx)
        · exact .inr (.inr (.inr hx))
      · refine .inr (.inr (.inl ?_))
        simp [ha.inode, hind]
    · rw [hb]
      dsimp only
      rw [if_pos rfl]
      exact .same hw (hslot.trans h0) fun _ => hfull
  · rename_i h0
    exact .same hw hslot fun hz => absurd hz h0

/-- `bmap` keeps the accounts, whether it finds the block, adds it or finds no room. -/
theorem bmap (hw : Working n ip fs) (hbn : bn < maxfile) :
    ∃ a fs', fs.bmap ip bn = .ok (a, fs') ∧ Reached n ip (slotOf bn) a fs fs' := by
  unfold Fs.bmap
  by_cases hd : bn < ndirect
  · rw [if_pos hd, slotOf, if_pos hd]
    exact ⟨_, _, rfl, hw.bmapDirect (Nat.le_of_lt hd)⟩
  · have hslot : slotOf bn = ndirect + 1 + (bn - ndirect) := by
      rw [slotOf, if_neg hd]
      omega
    have hj : bn - ndirect < nindirect := by
      have : maxfile = ndirect + nindirect := rfl
      omega
    rw [if_neg hd, if_pos hj, hslot]
    have hentry : ∀ fs : Fs, (fs.inode ip).din.addrs ndirect = 0 →
        slotAddr fs.data (fs.inode ip).din (ndirect + 1 + (bn - ndirect)) = 0 := by
      intro fs hz
      rw [slotAddr, if_neg (by omega), if_pos hz]
    have h1 := hw.bmapDirect (Nat.le_refl ndirect)
    have hch := h1.change
    rw [slotAddr_ndirect] at hch
    generalize fs.bmapDirect ip ndirect = r at h1 hch ⊢
    obtain ⟨addr, fs1⟩ := r
    dsimp only at h1 hch ⊢
    split
    · rename_i h0
      subst h0
      obtain ⟨hmiss, hfull⟩ := h1.full rfl
      rw [slotAddr_ndirect] at hmiss
      refine ⟨0, fs1, rfl, h1.working, h1.grown, fun h => absurd rfl h, h1.logs,
        fun _ => ⟨hentry fs1 hmiss, hfull⟩, fun k hk hks => h1.count k (by omega) hks, ?_⟩
      exact hch.imp id fun h => ⟨h.1, hentry fs h.2.1, h.2.2⟩
    · rename_i h0
      have hat := h1.addr h0
      rw [slotAddr_ndirect] at hat
      have h2 := h1.working.bmapIndirect hat h0 hj
      generalize fs1.bmapIndirect addr (bn - ndirect) = r at h2 ⊢
      obtain ⟨a, fs'⟩ := r
      have hkeep := h2.grown.slots ndirect (by decide) (by rw [slotAddr_ndirect, hat]; exact h0)
      rw [slotAddr_ndirect, slotAddr_ndirect, hat] at hkeep
      refine ⟨a, fs', rfl, h2.working, h1.grown.trans h2.grown, h2.addr, ?_, h2.full,
        fun k hk hks => (h1.count k (by omega) hks).trans (h2.count k hk hks), ?_⟩
      rotate_left
      · rcases hch with rfl | ⟨hpos, hz, -⟩
        · exact h2.change
        · exact .inr ⟨hpos, hentry fs hz, fun _ => ⟨hz, by rwa [hkeep]⟩⟩
      intro b hb
      rcases h2.logs b hb with hb | hb | hb
      · rcases h1.logs b hb with hb | hb | hb
        · exact .inl hb
        · exact .inr (.inl hb)
        · exact .inr (.inr (.inl (by rw [hkeep]; rcases hb with hb | hb <;> simp [hb, hat])))
      · exact .inr (.inl (h1.grown.sb ▸ hb))
      · exact .inr (.inr hb)

end Working

end Xv6Filter.Proofs
