import Xv6Filter.Proofs.HostAppend

open Function

namespace Xv6Filter.Proofs
open Lib

section Agree

variable {sb : Superblock} {used used' : Nat → Bool} {data data' : Nat → Block} {inodes : Nat → Dinode}

section

variable (ha : Acct sb used data inodes)

include ha

theorem Acct.inData (ht : (inodes n).type ≠ tFree) (hs : s < nslots)
    (h0 : slotAddr data (inodes n) s ≠ 0) : InData sb (slotAddr data (inodes n) s) := by
  have := ha.cover.exact.inside (n, s)
  rw [placed_pos hs ht] at this
  exact this h0

theorem Acct.slotAddr_agree (hd : ∀ b, InData sb b → data' b = data b)
    (ht : (inodes n).type ≠ tFree) (s : Nat) :
    slotAddr data' (inodes n) s = slotAddr data (inodes n) s := by
  apply slotAddr_congr
  intro hz
  have := ha.inData (s := ndirect) ht (by decide)
  rw [slotAddr_ndirect] at this
  exact hd _ (this hz)

/-- The accounts depend on the bitmap up to the end of the disk and on the data area. -/
theorem Acct.agree (hstart : dataStart sb ≤ sb.size)
    (hu : ∀ b, b < sb.size → used' b = used b) (hd : ∀ b, InData sb b → data' b = data b) :
    Acct sb used' data' inodes := by
  obtain ⟨hmarked, hinside, hinj, howned, hproper⟩ := ha.cover.exact
  have hexact : Exact used' (placed data inodes) (InData sb) := by
    refine ⟨?_, hinside, hinj, ?_, hproper⟩
    · intro i hi
      rw [hu _ (hinside i hi).2]
      exact hmarked i hi
    · intro b hb hub
      rw [hu b hb.2] at hub
      exact howned b hb hub
  refine ⟨⟨hexact.congr ?_, ?_, ha.cover.small⟩, ?_⟩
  · rintro ⟨n, s⟩
    exact placed_congr rfl fun _ ht => ha.slotAddr_agree hd ht s
  · intro b hb
    rw [hu b (by omega)]
    exact ha.cover.reserved b hb
  · intro n ht
    refine (ha.dense n ht).grow fun s _ h0 => ?_
    rwa [ha.slotAddr_agree hd ht]

theorem Acct.contents_agree (hd : ∀ b, InData sb b → data' b = data b) (ht : (inodes n).type ≠ tFree) :
    contents data' (inodes n) (inodes n).size = contents data (inodes n) (inodes n).size := by
  apply contents_congr
  intro i hi
  obtain ⟨hlt, h0⟩ := ha.dense n ht (i / bsize) (Nat.lt_of_le_of_lt (Nat.div_mul_le_self i bsize) hi)
  unfold byteAt
  rw [ha.slotAddr_agree hd ht, hd _ (ha.inData ht (slotOf_lt_nslots hlt) h0)]

end

end Agree

theorem need_add (data : Nat → Block) (d : Dinode) (k e : Nat) : need data d (k + e) =
      need data d k + (List.range e).countP fun s => decide (slotAddr data d (k + s) = 0) := by
  simp only [need, List.range_add, List.countP_append, List.countP_map]
  rfl

theorem need_of_tight {data : Nat → Block} {d : Dinode} (hd : Dense data d size)
    (ht : ∀ s, placesFor size ≤ s → s < nslots → slotAddr data d s = 0) (hk : placesFor size ≤ k)
    (hks : k ≤ nslots) : need data d k + placesFor size = k := by
  obtain ⟨e, rfl⟩ := Nat.exists_eq_add_of_le hk
  have hall : (List.range e).countP (fun s => decide (slotAddr data d (placesFor size + s) = 0)) =
      (List.range e).length := by
    rw [List.countP_eq_length]
    intro s hs
    have := List.mem_range.mp hs
    simpa using ht (placesFor size + s) (by omega) (by omega)
  rw [need_add, need_of_dense hd, hall, List.length_range]
  omega

/-- Counting the empty places tells that all places from `k` on are empty. -/
theorem tight_of_need {data : Nat → Block} {d : Dinode} (h0 : need data d k = 0)
    (hn : need data d nslots + k = nslots) : ∀ s, k ≤ s → s < nslots → slotAddr data d s = 0 := by
  intro s hk hs
  obtain ⟨e, he⟩ := Nat.exists_eq_add_of_le (show k ≤ nslots by omega)
  obtain ⟨t, rfl⟩ := Nat.exists_eq_add_of_le hk
  rw [he, need_add, h0, Nat.zero_add] at hn
  have hall := List.countP_eq_length.mp (show
    (List.range e).countP (fun s => decide (slotAddr data d (k + s) = 0)) = (List.range e).length by
      rw [List.length_range]; omega)
  simpa using hall t (List.mem_range.mpr (by omega))

theorem freeBlocks_of_first {fs : Fs} (hu : fs.used = fun b => decide (b < first)) (hf : first ≤ fs.sb.size) :
    freeBlocks fs + first = fs.sb.size := by
  obtain ⟨e, he⟩ := Nat.exists_eq_add_of_le hf
  have hnone : (List.range first).countP (fun b => !fs.used b) = 0 := by
    rw [List.countP_eq_zero]
    intro b hb
    simpa [hu] using hb
  have hall : (List.range e).countP ((fun b => !fs.used b) ∘ fun x => first + x) = (List.range e).length := by
    rw [List.countP_eq_length]
    intro b _
    simp [hu]
  rw [freeBlocks, he, List.range_add, List.countP_append, List.countP_map, hnone, hall, List.length_range]
  omega

end Xv6Filter.Proofs

namespace Xv6Filter.Mkfs
open Lib Proofs

abbrev ninodeslots : Nat := ninodeblocks * ipb

namespace Host

variable {h h' : Host} {n m : Nat} {d : Dinode}

theorem iblock_lt_iff : iblock n < bmapstart ↔ n < ninodeslots := by
  change n / 16 + 33 < 46 ↔ n < 208
  omega

def inode (h : Host) : Nat → Dinode := Fs.diskInode h.sect layout

def text (h : Host) (n : Nat) : List Byte := contents h.sect (h.inode n) (h.inode n).size

@[simp] theorem length_text (h : Host) (n : Nat) : (h.text n).length = (h.inode n).size :=
  length_contents ..

theorem inode_eq (hn : n < ninodeslots) (h : Host) : h.inode n = Dinode.get (h.sect (iblock n)) (n % ipb) := by
  unfold inode Fs.diskInode
  exact if_pos (iblock_lt_iff.mpr hn)

theorem inode_far (hn : ninodeslots ≤ n) (h : Host) : h.inode n = .zero := by
  unfold inode Fs.diskInode
  exact if_neg fun hlt => Nat.not_lt.mpr hn (iblock_lt_iff.mp hlt)

theorem inode_fits (h : Host) (n : Nat) : (h.inode n).Fits := by
  by_cases hn : n < ninodeslots
  · rw [inode_eq hn]
    exact Dinode.get_fits _ _
  · rw [inode_far (by omega)]
    exact ⟨by decide, fun _ => (by decide : 0 < 2 ^ 32), fun _ _ => rfl⟩

theorem inode_congr (hs : ∀ b, inodestart ≤ b → b < bmapstart → h'.sect b = h.sect b) : h'.inode = h.inode := by
  funext n
  by_cases hn : n < ninodeslots
  · rw [inode_eq hn, inode_eq hn, hs (iblock n) (Nat.le_add_left _ _) (iblock_lt_iff.mpr hn)]
  · rw [inode_far (by omega), inode_far (by omega)]

structure Wrote (n : Nat) (d : Dinode) (h h' : Host) : Prop where
  inode : h'.inode = update h.inode n d
  rest : ∀ b, b < inodestart ∨ bmapstart ≤ b → h'.sect b = h.sect b
  len : h'.len = h.len
  freeinode : h'.freeinode = h.freeinode
  freeblock : h'.freeblock = h.freeblock

theorem rinode_eq (hlen : h.len = fssize) (hn : n < ninodeslots) : h.rinode n = some (h.inode n) := by
  have hin : iblock n < h.len := by
    rw [hlen]
    exact Nat.lt_trans (iblock_lt_iff.mpr hn) (by decide)
  simp [rinode, rsect, hin, inode_eq hn]

/-- `winode` changes one inode and nothing else on the image. -/
theorem winode_wrote (hlen : h.len = fssize) (hn : n < ninodeslots) (hd : d.Fits) :
    ∃ h', h.winode n d = some h' ∧ Wrote n d h h' := by
  have hblock := iblock_lt_iff.mpr hn
  have hin : iblock n < h.len := by
    rw [hlen]
    exact Nat.lt_trans hblock (by decide)
  refine ⟨h.wsect (iblock n) (Dinode.put (h.sect (iblock n)) (n % ipb) d),
    by simp only [winode, rsect, if_pos hin]; rfl, ?_, ?_, ?_, rfl, rfl⟩
  · funext m
    by_cases hm : m < ninodeslots
    · rw [inode_eq hm]
      by_cases hsame : iblock m = iblock n
      · simp only [wsect, hsame, update_self]
        by_cases hmn : m = n
        · rw [hmn, update_self]
          exact Dinode.get_put hd
        · have hslot : m % ipb ≠ n % ipb := by
            change m / 16 + 33 = n / 16 + 33 at hsame
            change m % 16 ≠ n % 16
            omega
          rw [update_of_ne hmn, Dinode.get_put_ne hslot, inode_eq hm, hsame]
      · rw [update_of_ne (by rintro rfl; exact hsame rfl), inode_eq hm]
        simp [wsect, hsame]
    · rw [inode_far (by omega), update_of_ne (by omega), inode_far (by omega)]
  · intro b hb
    simp only [wsect]
    rw [update_of_ne]
    rintro rfl
    have : inodestart ≤ iblock n := Nat.le_add_left _ _
    omega
  · simp only [wsect]
    omega

end Host

/-- The image while mkfs builds it: a file system with the blocks below `freeblock` in use. -/
structure Laid (h : Host) : Prop where
  len : h.len = fssize
  sb : h.sect 1 = Host.blank.sect 1
  high : h.freeblock ≤ fssize
  clear : ∀ b, h.freeblock ≤ b → h.sect b = fun _ => 0
  acct : Acct layout (fun b => decide (b < h.freeblock)) h.sect h.inode
  /-- no file has a block beyond its end -/
  tight : ∀ n, (h.inode n).type ≠ tFree → ∀ s, placesFor (h.inode n).size ≤ s → s < nslots →
    slotAddr h.sect (h.inode n) s = 0
  born : ∀ n, (h.inode n).type ≠ tFree ↔ 0 < n ∧ n < h.freeinode
  fewer : h.freeinode ≤ ninodeslots

structure Appended (n : Nat) (p : List Byte) (h h' : Host) : Prop where
  freeinode : h'.freeinode = h.freeinode
  freeblock : h'.freeblock + placesFor (h.inode n).size =
    h.freeblock + placesFor ((h.inode n).size + p.length)
  fits : (h.inode n).size + p.length ≤ maxfile * bsize
  other : ∀ m, m ≠ n → h'.inode m = h.inode m
  shape : h'.inode n = { h.inode n with size := (h.inode n).size + p.length, addrs := (h'.inode n).addrs }
  text : h'.text n = h.text n ++ p
  texts : ∀ m, m ≠ n → (h.inode m).type ≠ tFree → h'.text m = h.text m
  blocks : ∀ m s, m ≠ n → (h.inode m).type ≠ tFree → s < nslots → slotAddr h.sect (h.inode m) s ≠ 0 →
    h'.sect (slotAddr h.sect (h.inode m) s) = h.sect (slotAddr h.sect (h.inode m) s)

namespace Laid

variable {h h' : Host} {n : Nat} {p : List Byte}

theorem low (hl : Laid h) : nmeta ≤ h.freeblock := by
  have := hl.acct.cover.reserved (nmeta - 1) (by rw [dataStart_layout]; decide)
  simp only [decide_eq_true_eq] at this
  omega

theorem placed (hl : Laid h) (ht : (h.inode n).type ≠ tFree) (hs : s < nslots)
    (h0 : slotAddr h.sect (h.inode n) s ≠ 0) : nmeta ≤ slotAddr h.sect (h.inode n) s :=
  (hl.acct.inData ht hs h0).1

theorem apart (hl : Laid h) (ht : (h.inode m).type ≠ tFree) (hs : s < nslots)
    (h0 : slotAddr h.sect (h.inode m) s ≠ 0) :
    slotAddr h.sect (h.inode m) s < h.freeblock ∧ ∀ n s', n ≠ m → (h.inode n).type ≠ tFree → s' < nslots →
      slotAddr h.sect (h.inode n) s' ≠ slotAddr h.sect (h.inode m) s := by
  have hm : Proofs.placed h.sect h.inode (m, s) = slotAddr h.sect (h.inode m) s := placed_pos hs ht
  constructor
  · have := hl.acct.cover.exact.marked (m, s)
    rw [hm] at this
    simpa using this h0
  · intro n s' hne htn hs' heq
    have hn : Proofs.placed h.sect h.inode (n, s') = slotAddr h.sect (h.inode n) s' := placed_pos hs' htn
    have := hl.acct.cover.exact.inj (n, s') (m, s) (by rw [hn, heq]; exact h0) (by rw [hn, hm, heq])
    exact hne (congrArg Prod.fst this)

end Laid

theorem iappendLoop_fits {h : Host} {p : List Byte} (hp : p ≠ []) (hr : p.length ≤ rounds)
    (hrun : h.iappendLoop rounds din off p = some r) : off + p.length ≤ maxfile * bsize := by
  induction rounds generalizing h din off p with
  | zero =>
    have := List.length_pos_iff.mpr hp
    omega
  | succ rounds ih =>
    have hpos := List.length_pos_iff.mpr hp
    rw [Host.iappendLoop, if_neg (by omega)] at hrun
    split at hrun
    · rename_i hlt
      obtain ⟨⟨x, din1, h1⟩, -, hrun⟩ := Option.bind_eq_some_iff.mp hrun
      obtain ⟨buf, -, hrun⟩ := Option.bind_eq_some_iff.mp hrun
      have hdiv := Nat.div_add_mod' off bsize
      have hmod := Nat.mod_lt off (show 0 < bsize by decide)
      have hmul : (off / bsize + 1) * bsize ≤ maxfile * bsize := Nat.mul_le_mul_right _ hlt
      rw [Nat.add_mul, Nat.one_mul] at hmul
      by_cases hlast : p.drop (min p.length ((off / bsize + 1) * bsize - off)) = []
      · have := List.drop_eq_nil_iff.mp hlast
        rw [Nat.add_mul, Nat.one_mul] at this
        omega
      · have := ih hlast (by rw [List.length_drop, Nat.add_mul, Nat.one_mul]; omega) hrun
        rw [List.length_drop] at this
        omega
    · cases hrun

section FreeInode

variable {h h' : Host} {din din' : Dinode}

theorem allocAddr_freeinode (h : Host) (din : Dinode) (i : Nat) :
    (h.allocAddr din i).2.freeinode = h.freeinode := by
  unfold Host.allocAddr
  split <;> rfl

theorem allocEntry_freeinode (hr : h.allocEntry addr j = some (x, h')) : h'.freeinode = h.freeinode := by
  obtain ⟨buf, -, hr⟩ := Option.bind_eq_some_iff.mp hr
  split at hr <;> cases hr <;> rfl

theorem blockFor_freeinode (hr : h.blockFor din bn = some (x, din', h')) : h'.freeinode = h.freeinode := by
  unfold Host.blockFor at hr
  split at hr
  · cases hr
    exact allocAddr_freeinode h din bn
  · obtain ⟨⟨y, h1⟩, he, hr⟩ := Option.bind_eq_some_iff.mp hr
    cases hr
    exact (allocEntry_freeinode he).trans (allocAddr_freeinode h din ndirect)

theorem iappendLoop_freeinode (hrun : h.iappendLoop rounds din off p = some (h', din', off')) :
    h'.freeinode = h.freeinode := by
  induction rounds generalizing h din off p with
  | zero =>
    cases hrun
    rfl
  | succ rounds ih =>
    rw [Host.iappendLoop] at hrun
    split at hrun
    · cases hrun
      rfl
    split at hrun
    · obtain ⟨⟨x, din1, h1⟩, hblock, hrun⟩ := Option.bind_eq_some_iff.mp hrun
      obtain ⟨buf, -, hrun⟩ := Option.bind_eq_some_iff.mp hrun
      have hfirst : h1.freeinode = h.freeinode := blockFor_freeinode hblock
      exact (ih hrun).trans hfirst
    · cases hrun

theorem winode_freeinode (hr : h.winode n d = some h') : h'.freeinode = h.freeinode := by
  obtain ⟨buf, -, hr⟩ := Option.bind_eq_some_iff.mp hr
  cases hr
  rfl

theorem iappend_freeinode (hr : h.iappend n p = some h') : h'.freeinode = h.freeinode := by
  obtain ⟨din, -, hr⟩ := Option.bind_eq_some_iff.mp hr
  obtain ⟨⟨h1, din1, off⟩, hloop, hr⟩ := Option.bind_eq_some_iff.mp hr
  exact (winode_freeinode hr).trans (iappendLoop_freeinode hloop)

end FreeInode

def Host.opened (h : Host) (n : Nat) : Fs where
  sb := layout
  used := fun b => decide (b < h.freeblock)
  dinode := h.inode
  data := h.sect
  inode := fun _ => ⟨rootdev, n, 1, true, true, h.inode n⟩
  logged := []

theorem Host.copy_opened {h : Host} (ht : (h.inode n).type ≠ tFree) (ip : Ip) : Copy n ip (h.opened n) :=
  ⟨rfl, rfl, ht⟩

structure Depicts (h : Host) (fs : Fs) : Prop where
  sb : fs.sb = layout
  used : fs.used = fun b => decide (b < h.freeblock)
  dinode : fs.dinode = h.inode
  data : ∀ b, nmeta ≤ b → h.sect b = fs.data b

namespace Depicts

variable {h : Host} {fs : Fs} {n : Nat}

section

variable (hm : Depicts h fs)

include hm

theorem agree : ∀ b, InData layout b → h.sect b = fs.data b :=
  fun b hb => hm.data b hb.1

theorem acct_layout (ha : Acct fs.sb fs.used fs.data fs.dinode) :
    Acct layout (fun b => decide (b < h.freeblock)) fs.data h.inode := by
  rw [← hm.sb, ← hm.used, ← hm.dinode]
  exact ha

theorem acct (ha : Acct fs.sb fs.used fs.data fs.dinode) :
    Acct layout (fun b => decide (b < h.freeblock)) h.sect h.inode :=
  (hm.acct_layout ha).agree (by decide) (fun _ _ => rfl) hm.agree

theorem slotAddr_eq (ha : Acct fs.sb fs.used fs.data fs.dinode) (ht : (h.inode n).type ≠ tFree) (s : Nat) :
    slotAddr h.sect (h.inode n) s = slotAddr fs.data (fs.dinode n) s := by
  rw [(hm.acct_layout ha).slotAddr_agree hm.agree ht, hm.dinode]

theorem text_eq (ha : Acct fs.sb fs.used fs.data fs.dinode)
    (ht : (h.inode n).type ≠ tFree) : h.text n = fileText fs n := by
  rw [Host.text, (hm.acct_layout ha).contents_agree hm.agree ht, fileText, hm.dinode]

end

end Depicts

namespace Laid

variable {h h1 h' : Host} {din1 : Dinode} {fs1 fs2 : Fs} {ip : Ip} {n : Nat} {p : List Byte} {f : Nat → Byte}

theorem mirrors (hl : Laid h) (n : Nat) (ip : Ip) : Mirrors h (h.inode n) ip (h.opened n) :=
  ⟨rfl, rfl, rfl, rfl, hl.len, hl.high, hl.clear, (h.inode_fits n).ends⟩

/-- What is before the data stays while blocks are added to a file. -/
theorem kept (hl : Laid h) (ht : (h.inode n).type ≠ tFree) (hx : Extended ip (h.opened n) fs1)
    (hb : b < nmeta) (h0 : b ≠ 0) : fs1.data b = h.sect b := by
  apply hx.data b h0
  · exact decide_eq_true (Nat.lt_of_lt_of_le hb hl.low)
  · intro s hs he
    have := hl.placed ht hs (he ▸ h0)
    exact absurd (Nat.lt_of_lt_of_le hb (he ▸ this)) (Nat.lt_irrefl _)

end Laid

theorem Mirrors.fits {h : Host} {din : Dinode} (hm : Mirrors h din ip fs) (hw : Working n ip fs)
    (hsize : size < 2 ^ 32) : Dinode.Fits { din with size := size } := by
  refine ⟨hsize, ?_, hm.ends⟩
  intro j
  dsimp only
  by_cases hj : j ≤ ndirect
  · by_cases h0 : din.addrs j = 0
    · rw [h0]
      decide
    · have hslot : slotAddr fs.data (fs.inode ip).din j = din.addrs j := by
        rw [hm.copy]
        exact if_pos hj
      have hlt := hm.addr_lt hw (by simp only [nslots]; omega) hslot h0
      exact Nat.lt_of_lt_of_le hlt (Nat.le_trans hm.high (by decide))
  · rw [hm.ends j (by omega)]
    decide

namespace Laid

variable {h h1 h' : Host} {din1 : Dinode} {fs1 fs2 : Fs} {ip : Ip} {n : Nat} {p : List Byte} {f : Nat → Byte}

/-- The inode goes to the image at the end of `iappend`, as it goes to disk at the end of `writei`. -/
theorem winode (hl : Laid h) (ht : (h.inode n).type ≠ tFree)
    (hfill : Filled n ip f (h.inode n).size d stop (h.opened n) fs1) (hm : Mirrors h1 din1 ip fs1)
    (hfit : (h.inode n).size + d < 2 ^ 32) :
    ∃ h', h1.winode n { din1 with size := (h.inode n).size + d } = some h' ∧
      Host.Wrote n { din1 with size := (h.inode n).size + d } h1 h' ∧
      Depicts h' ((fs1.setDin ip { (fs1.inode ip).din with
        size := max (fs1.inode ip).din.size ((h.inode n).size + d) }).iupdate ip) := by
  have hslot : n < ninodeslots := Nat.lt_of_lt_of_le ((hl.born n).mp ht).2 hl.fewer
  obtain ⟨h', hwr, hwrote⟩ := Host.winode_wrote hm.len hslot (hm.fits hfill.working hfit)
  refine ⟨h', hwr, hwrote, by simp [Fs.iupdate, hm.sb], by simp [Fs.iupdate, hm.used, hwrote.freeblock],
    ?_, ?_⟩
  · have hinum : (fs1.inode ip).inum = n := by
      rw [hfill.entry]
      simp [Host.opened]
    have hsize : (fs1.inode ip).din.size = (h.inode n).size := by
      rw [hfill.shape]
      rfl
    have hkeep : h1.inode = h.inode := by
      apply Host.inode_congr
      intro b hlo hhi
      rw [← hm.data]
      refine hl.kept ht hfill.toExtended (Nat.lt_trans hhi (by decide)) ?_
      exact Nat.ne_of_gt (Nat.lt_of_lt_of_le (by decide) hlo)
    rw [hwrote.inode, hkeep]
    simp only [Fs.iupdate, Fs.logWrite_dinode, Fs.setDinode_dinode, Fs.setDin_inode, update_self,
      Fs.setDin_dinode, hinum, hfill.dinode]
    rw [hsize, Nat.max_eq_right (Nat.le_add_right _ _), hm.copy]
    rfl
  · intro b hb
    rw [hwrote.rest b (.inr (Nat.le_trans (by decide) hb)), ← hm.data]
    simp [Fs.iupdate]

/-- No block is beyond the end of the file after `iappend`: what is no longer free is just what the
new size asks for. -/
theorem tight_after (hl : Laid h) (ht : (h.inode n).type ≠ tFree) (hfit : size ≤ maxfile * bsize)
    (hle : (h.inode n).size ≤ size) (hd : Dense fs1.data (fs1.inode ip).din size) (hm : Mirrors h1 din1 ip fs1)
    (hbal : ∀ k, placesFor size ≤ k → k ≤ nslots → Balanced ip k (h.opened n) fs1) :
    h1.freeblock + placesFor (h.inode n).size = h.freeblock + placesFor size ∧
      ∀ s, placesFor size ≤ s → s < nslots → slotAddr fs1.data (fs1.inode ip).din s = 0 := by
  have hmono := placesFor_mono hle
  have hslots := placesFor_le hfit
  have hneed := fun k hk => need_of_tight (k := k) (hl.acct.dense n ht) (hl.tight n ht) hk
  have hfree : freeBlocks (h.opened n) + h.freeblock = fssize := freeBlocks_of_first rfl hl.high
  have hfree1 : freeBlocks fs1 + h1.freeblock = fssize := by
    rw [freeBlocks_of_first hm.used (by rw [hm.sb]; exact hm.high), hm.sb]
    rfl
  have hzero := need_of_dense hd
  have hcount := hbal _ (Nat.le_refl _) hslots
  have hcount' := hbal nslots hslots (Nat.le_refl _)
  have hold := hneed _ hmono hslots
  have hold' := hneed nslots (by omega) (Nat.le_refl _)
  change need (h.opened n).data ((h.opened n).inode ip).din _ + _ = _ at hold hold'
  simp only [Proofs.Balanced] at hcount hcount'
  exact ⟨by omega, tight_of_need hzero (by omega)⟩

/-- What `iappend` leaves is what the kernel's `writei` would have left. -/
theorem appended (hl : Laid h) (ht : (h.inode n).type ≠ tFree)
    (hf : ∀ i, i < p.length → f ((h.inode n).size + i) = p.getD i 0)
    (hfit : (h.inode n).size + p.length ≤ maxfile * bsize)
    (hfill : Filled n ip f (h.inode n).size p.length ((h.inode n).size + p.length) (h.opened n) fs1)
    (hm : Mirrors h1 din1 ip fs1) (hfree : h1.freeinode = h.freeinode)
    (hbal : ∀ k, placesFor ((h.inode n).size + p.length) ≤ k → k ≤ nslots → Balanced ip k (h.opened n) fs1)
    (hwrote : Host.Wrote n { din1 with size := (h.inode n).size + p.length } h1 h')
    (hdep : Depicts h' ((fs1.setDin ip { (fs1.inode ip).din with
        size := max (fs1.inode ip).din.size ((h.inode n).size + p.length) }).iupdate ip)) :
    Laid h' ∧ Appended n p h h' := by
  have hst := hfill.stored (Host.copy_opened ht ip) hl.acct
  obtain ⟨hblocks, htight⟩ := hl.tight_after ht hfit (Nat.le_add_right _ _) hfill.dense hm hbal
  have hslots : ∀ s, slotAddr ((fs1.setDin ip { (fs1.inode ip).din with
      size := max (fs1.inode ip).din.size ((h.inode n).size + p.length) }).iupdate ip).data (h'.inode n) s =
      slotAddr fs1.data (fs1.inode ip).din s := by
    intro s
    rw [hwrote.inode, update_self, hm.copy]
    simp only [Fs.iupdate, Fs.logWrite_data, Fs.setDinode_data, Fs.setDin_data]
    rfl
  have hdata : ((fs1.setDin ip { (fs1.inode ip).din with
      size := max (fs1.inode ip).din.size ((h.inode n).size + p.length) }).iupdate ip).data = fs1.data := by
    simp [Fs.iupdate]
  generalize (fs1.setDin ip { (fs1.inode ip).din with
    size := max (fs1.inode ip).din.size ((h.inode n).size + p.length) }).iupdate ip = fs2 at *
  have hshape : h'.inode n = { h.inode n with
      size := (h.inode n).size + p.length, addrs := (h'.inode n).addrs } := by
    have := hst.shape
    rw [hdep.dinode] at this
    rw [this]
    simp [Host.opened]
  have hother : ∀ m, m ≠ n → h'.inode m = h.inode m := by
    intro m hmn
    rw [← hdep.dinode, hst.dinode m hmn]
    rfl
  have htype : ∀ m, (h'.inode m).type = (h.inode m).type := by
    intro m
    by_cases hmn : m = n
    · rw [hmn, hshape]
    · rw [hother m hmn]
  refine ⟨⟨hwrote.len.trans hm.len, ?_, ?_, ?_, hdep.acct hst.acct, ?_, ?_, ?_⟩,
    ⟨hwrote.freeinode.trans hfree, hwrote.freeblock.symm ▸ hblocks, hfit, hother, hshape, ?_, ?_, ?_⟩⟩
  · rw [hwrote.rest 1 (.inl (by decide)), ← hm.data, hl.kept ht hfill.toExtended (by decide) (by decide),
      hl.sb]
  · rw [hwrote.freeblock]
    exact hm.high
  · intro b hb
    rw [hwrote.freeblock] at hb
    have hlow := hl.low
    have hmono := placesFor_mono (Nat.le_add_right (h.inode n).size p.length)
    rw [hdep.data b (by omega), hdata, hm.data, hm.clear b hb]
  · intro m htm s hs hlt
    rw [hdep.slotAddr_eq hst.acct htm, hdep.dinode]
    by_cases hmn : m = n
    · subst hmn
      rw [hslots]
      rw [hshape] at hs
      exact htight s hs hlt
    · have htm' : (h.inode m).type ≠ tFree := by rwa [← htype]
      rw [hother m hmn] at hs ⊢
      rw [hdata]
      have := hfill.slotAddr_other (Host.copy_opened ht ip |>.working hl.acct).mappable hmn htm' s
      exact this.trans (hl.tight m htm' s hs hlt)
  · intro m
    rw [htype, hwrote.freeinode, hfree]
    exact hl.born m
  · rw [hwrote.freeinode, hfree]
    exact hl.fewer
  · have happ : fileText fs2 n = fileText (h.opened n) n ++ slice f (h.inode n).size p.length :=
      Stored.fileText_append hst
    rw [hdep.text_eq hst.acct (by rwa [htype]), happ]
    congr 1
    apply List.ext_getElem
    · simp
    · intro i h1 h2
      have := hf i h2
      simp only [slice, List.getElem_map, List.getElem_range]
      exact this.trans (by simp [h2])
  · intro m hmn htm
    rw [hdep.text_eq hst.acct (by rwa [htype]), hst.fileText_other hmn htm]
    rfl
  · intro m s hmn htm hs h0
    obtain ⟨hused, hapart⟩ := hl.apart htm hs h0
    rw [hdep.data _ (hl.placed htm hs h0), hdata]
    exact hfill.data _ h0 (decide_eq_true hused) fun s' hs' => hapart n s' (Ne.symm hmn) ht hs'

/-- `iappend` succeeds exactly while there are blocks for the new size. -/
theorem iappend (hl : Laid h) (ht : (h.inode n).type ≠ tFree)
    (hfit : (h.inode n).size + p.length ≤ maxfile * bsize) :
    (∃ h', h.iappend n p = some h' ∧ Laid h' ∧ Appended n p h h') ∨
      h.iappend n p = none ∧
        fssize + placesFor (h.inode n).size < h.freeblock + placesFor ((h.inode n).size + p.length) := by
  have hslot : n < ninodeslots := Nat.lt_of_lt_of_le ((hl.born n).mp ht).2 hl.fewer
  have hw := (Host.copy_opened ht 0).working hl.acct
  have hbytes : ∀ j, (fun i => p.getD (i - (h.inode n).size) 0) ((h.inode n).size + j) = p.getD (0 + j) 0 := by
    simp
  obtain ⟨d, stop, ⟨⟩, fs1, hrun, hle, -, hfill, hstop, -, hbal, hfull⟩ :=
    hw.writeiLoop (f := fun i => p.getD (i - (h.inode n).size) 0) (copies_kernel p) hbytes (Nat.zero_le _) (by simpa using hfit) (hl.acct.dense n ht) p.length ()
  have hread : Readable (fromKernel p) p.length := fun _ _ _ _ => rfl
  simp only [Nat.zero_add, Nat.sub_zero] at hrun hle hbal hfull
  rw [Host.iappend, Host.rinode_eq hl.len hslot]
  rcases (hl.mirrors n 0).iappendLoop hw (by simpa using hfit) (by simp) hrun with
    ⟨hall, h1, din1, hloop, hm⟩ | ⟨hshort, hloop⟩
  · obtain rfl : d = p.length := by omega
    rw [hstop (.inr hread)] at hfill
    obtain ⟨h', hwr, hwrote, hdep⟩ := hl.winode ht hfill hm (Nat.lt_of_le_of_lt hfit (by decide))
    refine .inl ⟨h', ?_, hl.appended ht (fun i _ => by simp) hfit hfill hm (iappendLoop_freeinode hloop) hbal
      hwrote hdep⟩
    rw [List.drop_zero] at hloop
    simp [hloop, hwr]
  · rw [List.drop_zero] at hloop
    refine .inr ⟨by simp [hloop], ?_⟩
    obtain ⟨⟨hempty, hnone⟩, -⟩ := hfull hread (by omega) hshort
    have hplaces := placesFor_le hfit
    have hcount := hbal _ (Nat.le_refl _) hplaces
    have hlack := need_pos (slotOf_lt_placesFor (n := (h.inode n).size + p.length)
      (by have := Nat.div_mul_le_self ((h.inode n).size + d) bsize; omega)) hempty
    have hold := need_of_tight (hl.acct.dense n ht) (hl.tight n ht)
      (placesFor_mono (Nat.le_add_right _ p.length)) hplaces
    have hfree : freeBlocks (h.opened n) + h.freeblock = fssize := freeBlocks_of_first rfl hl.high
    change need (h.opened n).data ((h.opened n).inode 0).din _ + _ = _ at hold
    simp only [Proofs.Balanced] at hcount
    omega

end Laid

end Xv6Filter.Mkfs
