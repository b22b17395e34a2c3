import Xv6Filter.Proofs.Layout

namespace Xv6Filter.Mkfs
open Lib Proofs Function

@[simps size ninodes inodestart bmapstart]
def layout : Superblock := ⟨fssize, ninodes, nlog, 2, inodestart, bmapstart⟩

theorem dataStart_layout : dataStart layout = nmeta := rfl

/-- `mkfs` at work on an inode `din` in memory, and the kernel at work on its entry `ip`: the
kernel's bitmap has the blocks below `freeblock`. -/
structure Mirrors (h : Host) (din : Dinode) (ip : Ip) (fs : Fs) : Prop where
  sb : fs.sb = layout
  used : fs.used = fun b => decide (b < h.freeblock)
  data : fs.data = h.sect
  copy : (fs.inode ip).din = din
  len : h.len = fssize
  high : h.freeblock ≤ fssize
  clear : ∀ b, h.freeblock ≤ b → h.sect b = fun _ => 0
  ends : ∀ j, ndirect < j → din.addrs j = 0

namespace Mirrors

variable {h : Host} {din : Dinode} {ip : Ip} {fs fs' : Fs} {n a i j : Nat}

section

variable (hm : Mirrors h din ip fs)

include hm

theorem logWrite (b : Nat) : Mirrors h din ip (fs.logWrite b) := by
  obtain ⟨h1, h2, h3, h4, h5, h6, h7, h8⟩ := hm
  exact ⟨by simpa using h1, by simpa using h2, by simpa using h3, by simpa using h4, h5, h6, h7, h8⟩

theorem store (ha : a < h.freeblock) (blk : Block) :
    Mirrors (h.wsect a blk) din ip ((fs.setData a blk).logWrite a) := by
  have hhigh := hm.high
  apply logWrite
  refine ⟨hm.sb, hm.used, by simp [Host.wsect, hm.data], hm.copy, ?_, hm.high, ?_, hm.ends⟩
  · simp only [Host.wsect, hm.len]
    omega
  · intro b hb
    simp only [Host.wsect] at hb ⊢
    rw [update_of_ne (by omega)]
    exact hm.clear b hb

/-- The kernel's `balloc` gives what `freeblock++` gives, while there are blocks. -/
theorem balloc (hf : h.freeblock < fssize) : ∃ fs', fs.balloc = (h.freeblock, fs') ∧
      Mirrors { h with freeblock := h.freeblock + 1 } din ip fs' ∧ fs'.inode = fs.inode := by
  have hfind : (List.range fs.sb.size).find? (fun b => !fs.used b) = some h.freeblock := by
    rw [List.find?_range_eq_some]
    refine ⟨by simp [hm.used], by simpa [hm.sb] using hf, ?_⟩
    intro j hj
    simpa [hm.used] using hj
  refine ⟨_, by rw [Fs.balloc, hfind], ?_, by simp⟩
  apply logWrite
  refine ⟨by simp [hm.sb], ?_, ?_, by simp [hm.copy], hm.len, hf, ?_, hm.ends⟩
  · funext b
    by_cases hb : b = h.freeblock
    · simp [hb]
    · simp only [Fs.setData_used, Fs.logWrite_used, Fs.setUsed_used, update_of_ne hb, hm.used]
      congr 1
      apply propext
      omega
  · simp only [Fs.setData_data, Fs.logWrite_data, Fs.setUsed_data, hm.data]
    rw [← hm.clear h.freeblock (Nat.le_refl _), update_eq_self]
  · intro b hb
    exact hm.clear b (Nat.le_of_succ_le hb)

theorem balloc_full (hf : ¬ h.freeblock < fssize) : fs.balloc = (0, fs) := by
  have hnone : (List.range fs.sb.size).find? (fun b => !fs.used b) = none := by
    rw [List.find?_eq_none]
    intro b hb
    have hb : b < fssize := by simpa [hm.sb] using hb
    simp only [hm.used, Bool.not_eq_true', decide_eq_false_iff_not, not_not]
    omega
  simp [Fs.balloc, hnone]

/-- The addresses in the inode itself. A block beyond the end of the image stands for none. -/
theorem allocAddr (hw : Working n ip fs) (hi : i ≤ ndirect) (hr : fs.bmapDirect ip i = (a, fs')) :
    a ≠ 0 ∧ (h.allocAddr din i).1.addrs i = a ∧
        Mirrors (h.allocAddr din i).2 (h.allocAddr din i).1 ip fs' ∨
      a = 0 ∧ (h.allocAddr din i).1.addrs i = fssize ∧ (h.allocAddr din i).2.len = fssize := by
  unfold Fs.bmapDirect at hr
  rw [hm.copy] at hr
  unfold Host.allocAddr
  by_cases h0 : din.addrs i = 0
  · simp only [if_pos h0] at hr ⊢
    by_cases hf : h.freeblock < fssize
    · have hpos : h.freeblock ≠ 0 := by
        have := hw.boot
        rw [hm.used] at this
        simpa [Nat.pos_iff_ne_zero] using this
      obtain ⟨fs1, hb, hm1, hino⟩ := hm.balloc hf
      rw [hb] at hr
      simp only [if_neg hpos, Prod.mk.injEq] at hr
      obtain ⟨rfl, rfl⟩ := hr
      refine .inl ⟨hpos, by simp, by simp [hm1.sb], hm1.used, hm1.data, by simp, hm.len, hf, hm1.clear, ?_⟩
      intro j hj
      simpa [show j ≠ i by omega] using hm.ends j hj
    · rw [hm.balloc_full hf] at hr
      simp only [↓reduceIte, Prod.mk.injEq] at hr
      have := hm.high
      exact .inr ⟨hr.1.symm, by simp; omega, hm.len⟩
  · simp only [if_neg h0, Prod.mk.injEq] at hr ⊢
    obtain ⟨rfl, rfl⟩ := hr
    exact .inl ⟨h0, rfl, hm⟩

theorem allocEntry (haddr : addr < h.freeblock) (hr : fs.bmapIndirect addr j = (a, fs')) :
    (a ≠ 0 ∧ ∃ h', h.allocEntry addr j = some (a, h') ∧ Mirrors h' din ip fs') ∨
      a = 0 ∧ ∃ h', h.allocEntry addr j = some (fssize, h') ∧ h'.len = fssize := by
  have hhigh := hm.high
  have hin : addr < h.len := by
    rw [hm.len]
    omega
  unfold Fs.bmapIndirect at hr
  rw [hm.data] at hr
  simp only [Host.allocEntry, Host.rsect, if_pos hin, Option.bind_eq_bind, Option.bind_some]
  by_cases h0 : word (h.sect addr) j = 0
  · simp only [if_pos h0] at hr ⊢
    by_cases hf : h.freeblock < fssize
    · obtain ⟨fs1, hb, hm1, hino⟩ := hm.balloc hf
      rw [hb] at hr
      simp only [if_neg (Nat.ne_of_gt (Nat.lt_of_le_of_lt (Nat.zero_le _) haddr)), Prod.mk.injEq] at hr
      obtain ⟨rfl, rfl⟩ := hr
      refine .inl ⟨by omega, _, rfl, ?_⟩
      rw [hm1.data]
      exact hm1.store (Nat.lt_succ_of_lt haddr) _
    · rw [hm.balloc_full hf] at hr
      simp only [↓reduceIte, Prod.mk.injEq] at hr
      have hend : h.freeblock = fssize := by omega
      refine .inr ⟨hr.1.symm, _, by rw [← hend]; rfl, ?_⟩
      simp only [Host.wsect, hm.len] at hin ⊢
      omega
  · simp only [if_neg h0, Prod.mk.injEq] at hr ⊢
    obtain ⟨rfl, rfl⟩ := hr
    exact .inl ⟨h0, h, rfl, hm⟩

theorem addr_lt (hw : Working n ip fs) (hs : s < nslots)
    (ha : slotAddr fs.data (fs.inode ip).din s = a) (h0 : a ≠ 0) : a < h.freeblock := by
  subst ha
  have := hw.mappable.slot_used hs h0
  rw [hm.used] at this
  simpa using this

/-- The first half of a turn of `iappend` is `bmap`; without a block, what it has is not in the
image. -/
theorem blockFor (hw : Working n ip fs) (hbn : bn < maxfile) (hr : fs.bmap ip bn = .ok (a, fs')) :
    (a ≠ 0 ∧ ∃ din' h', h.blockFor din bn = some (a, din', h') ∧ Mirrors h' din' ip fs') ∨
      a = 0 ∧ ∀ x din' h', h.blockFor din bn = some (x, din', h') → h'.rsect x = none := by
  unfold Fs.bmap at hr
  unfold Host.blockFor
  by_cases hd : bn < ndirect
  · rw [if_pos hd] at hr ⊢
    rcases hm.allocAddr hw (Nat.le_of_lt hd) (Except.ok.inj hr) with ⟨h0, rfl, hm'⟩ | ⟨h0, haddr, hlen⟩
    · exact .inl ⟨h0, _, _, rfl, hm'⟩
    · refine .inr ⟨h0, ?_⟩
      rintro x din' h' hx
      simp only [Option.some.injEq, Prod.mk.injEq] at hx
      obtain ⟨rfl, rfl, rfl⟩ := hx
      rw [haddr, Host.rsect, hlen, if_neg (Nat.lt_irrefl _)]
  · have hj : bn - ndirect < nindirect := by
      have : maxfile = ndirect + nindirect := rfl
      omega
    rw [if_neg hd, if_pos hj] at hr
    rw [if_neg hd]
    have h1 := hw.bmapDirect (Nat.le_refl ndirect)
    generalize hr1 : fs.bmapDirect ip ndirect = r at h1 hr
    obtain ⟨addr, fs1⟩ := r
    dsimp only at h1 hr ⊢
    rcases hm.allocAddr hw (Nat.le_refl _) hr1 with ⟨h0, haddr, hm1⟩ | ⟨rfl, haddr, hlen⟩
    · rw [if_neg h0] at hr
      rw [haddr]
      have hlt := hm1.addr_lt h1.working (s := ndirect) (by decide) (h1.addr h0) h0
      rcases hm1.allocEntry hlt (Except.ok.inj hr) with ⟨ha, h', he, hm'⟩ | ⟨ha, h', he, hlen⟩
      · exact .inl ⟨ha, _, h', by rw [he]; rfl, hm'⟩
      · refine .inr ⟨ha, ?_⟩
        rw [he]
        rintro x din' h'' hx
        cases hx
        rw [Host.rsect, hlen, if_neg (Nat.lt_irrefl _)]
    · rw [if_pos rfl] at hr
      refine .inr ⟨(Prod.mk.inj (Except.ok.inj hr)).1.symm, ?_⟩
      rintro x din' h' hx
      simp [haddr, Host.allocEntry, Host.rsect, hlen] at hx

end

/-- The loop of `iappend` does what the loop of `writei` does, and dies where that stops. -/
theorem iappendLoop {msg : List Byte} (hm : Mirrors h din ip fs) (hw : Working n ip fs)
    (hfit : off + (msg.length - tot) ≤ maxfile * bsize) (hrounds : msg.length ≤ tot + rounds)
    (hrun : Fs.writeiLoop (fromKernel msg) ip rounds fs () off tot msg.length =
      .ok (tot', off', (), fs')) :
    (msg.length ≤ tot' ∧ ∃ h' din',
        Host.iappendLoop rounds h din off (msg.drop tot) = some (h', din', off') ∧ Mirrors h' din' ip fs') ∨
      tot' < msg.length ∧ Host.iappendLoop rounds h din off (msg.drop tot) = none := by
  induction rounds generalizing h din fs off tot with
  | zero =>
    cases hrun
    exact .inl ⟨hrounds, h, din, rfl, hm⟩
  | succ rounds ih =>
    by_cases hmore : msg.length ≤ tot
    · rw [Fs.writeiLoop, if_pos hmore] at hrun
      cases hrun
      refine .inl ⟨hmore, h, din, ?_, hm⟩
      rw [Host.iappendLoop, if_pos (by simp; omega)]
    obtain ⟨bn, r, hr, hbn, hmod, hoff⟩ : ∃ bn r, r < bsize ∧ off / bsize = bn ∧ off % bsize = r ∧
        off = bn * bsize + r :=
      ⟨_, _, Nat.mod_lt _ (by decide), rfl, rfl, (Nat.div_add_mod' off bsize).symm⟩
    have hlt : bn < maxfile := by
      simp only [maxfile, bsize] at hfit hr hoff ⊢
      omega
    obtain ⟨a, fs1, hb, hreach⟩ := hw.bmap hlt
    have hwant : min (msg.drop tot).length ((bn + 1) * bsize - off) =
        min (msg.length - tot) (bsize - r) := by
      rw [List.length_drop]
      congr 1
      rw [hoff, Nat.add_mul, Nat.one_mul]
      omega
    simp only [Fs.writeiLoop, if_neg hmore, hbn, hb, hmod] at hrun
    simp only [Host.iappendLoop, hbn, if_pos hlt, if_neg (show ¬ (msg.drop tot).length = 0 by simp; omega),
      hwant]
    rw [show off - bn * bsize = r by omega]
    generalize hm1 : min (msg.length - tot) (bsize - r) = m at hrun ⊢
    rcases hm.blockFor hw hlt hb with ⟨h0, din1, h1, hblock, hmir⟩ | ⟨h0, hnone⟩
    · have hin := hmir.addr_lt hreach.working (slotOf_lt_nslots hlt) (hreach.addr h0) h0
      have hread : h1.rsect a = some (h1.sect a) := by
        have := hmir.high
        rw [Host.rsect, if_pos (by rw [hmir.len]; omega)]
      rw [if_neg h0] at hrun
      simp only [↓reduceIte] at hrun
      have hworks := hreach.working.setData hlt (hreach.addr h0)
        (splice (fs1.data a) r ((msg.drop tot).take m))
      have := ih (hmir.store hin (splice (fs1.data a) r ((msg.drop tot).take m))) (hworks.logWrite a)
        (by omega) (by simp only [bsize] at hm1 hr; omega) hrun
      simpa only [hblock, Option.bind_eq_bind, Option.bind_some, hread, hmir.data, List.drop_drop] using this
    · rw [if_pos h0] at hrun
      cases hrun
      refine .inr ⟨by omega, ?_⟩
      cases hblock : h.blockFor din bn with
      | none => rfl
      | some found =>
        obtain ⟨x, din', h'⟩ := found
        simp [hnone x din' h' hblock]

end Mirrors

end Xv6Filter.Mkfs
