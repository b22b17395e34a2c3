import Xv6Filter.Proofs.Accounting

namespace Xv6Filter.Proofs
open Lib Function

/-- What a copy from a buffer of `len` bytes can do: it moves a first part of the bytes
asked for, and all of them when it succeeds. -/
def Copies (copyin : M → Nat → Nat → M × List Byte × Bool) (src : Nat → Byte) (len : Nat) : Prop :=
  ∀ mem t m, t + m ≤ len →
    ∃ k, k ≤ m ∧ (copyin mem t m).2.1 = slice src t k ∧ ((copyin mem t m).2.2 = true → k = m)

theorem copies_kernel (src : List Byte) :
    Copies (fun (_ : Unit) tot m => ((), (src.drop tot).take m, true)) (src.getD · 0) src.length := by
  intro _ t m hm
  refine ⟨m, Nat.le_refl _, ?_, fun _ => rfl⟩
  apply List.ext_getElem
  · simp
    omega
  · intro i h1 h2
    have : t + i < src.length := by
      simp at h2
      omega
    simp [slice, this]

/-- The copies that `writei` makes at `off`, from byte `tot` to byte `len` of the source, one to a block:
one that fails moves nothing. -/
def WholeTurns (copyin : M → Nat → Nat → M × List Byte × Bool) (off tot len : Nat) : Prop :=
  ∀ mem t m, tot ≤ t → t < len → (t = tot ∨ (off + (t - tot)) % bsize = 0) →
    m = min (len - t) (bsize - (off + (t - tot)) % bsize) →
    (copyin mem t m).2.2 = false → (copyin mem t m).2.1 = []

theorem WholeTurns.next {copyin : M → Nat → Nat → M × List Byte × Bool} (h : WholeTurns copyin off tot len)
    (hm : min (len - tot) (bsize - off % bsize) = m) : WholeTurns copyin (off + m) (tot + m) len := by
  intro mem t m' ht hlt hstart hm'
  have hoff : off + m + (t - (tot + m)) = off + (t - tot) := by omega
  rw [hoff] at hstart hm'
  refine h mem t m' (by omega) hlt (.inr ?_) hm'
  rcases hstart with rfl | hstart
  · simp only [bsize] at hm hlt ⊢
    omega
  · exact hstart

def Readable (copyin : M → Nat → Nat → M × List Byte × Bool) (len : Nat) : Prop :=
  ∀ mem t m, t + m ≤ len → (copyin mem t m).2.2 = true

def OutOfBlocks (d : Dinode) (i : Nat) (fs : Fs) : Prop :=
  slotAddr fs.data d (slotOf (i / bsize)) = 0 ∧ freeBlocks fs = 0

/-- From `fs` to `fs'` entry `ip` got an indirect block with nothing in it, or nothing changed. -/
def IndirectOnly (ip : Ip) (fs fs' : Fs) : Prop :=
  fs' = fs ∨ 0 < freeBlocks fs ∧ (fs.inode ip).din.addrs ndirect = 0 ∧ (fs'.inode ip).din.addrs ndirect ≠ 0

def spanned (off len : Nat) : Nat := if len = 0 then 0 else (off % bsize + len + (bsize - 1)) / bsize

/-- From `fs` to `fs'` the loop of `writei` stored `d` bytes at `off`, those of `f`; other
bytes of the file changed only before `stop`. -/
structure Filled (n : Nat) (ip : Ip) (f : Nat → Byte) (off d stop : Nat) (fs fs' : Fs) : Prop
    extends Extended ip fs fs' where
  working : Working n ip fs'
  slots : ∀ s, s < nslots → slotAddr fs.data (fs.inode ip).din s ≠ 0 →
    slotAddr fs'.data (fs'.inode ip).din s = slotAddr fs.data (fs.inode ip).din s
  fresh : ∀ s, s < nslots → slotAddr fs.data (fs.inode ip).din s = 0 →
    slotAddr fs'.data (fs'.inode ip).din s ≠ 0 →
    fs.used (slotAddr fs'.data (fs'.inode ip).din s) = false
  reach : off + d ≤ stop
  dense : Dense fs'.data (fs'.inode ip).din (off + d)
  old : ∀ i, i / bsize < maxfile → slotAddr fs.data (fs.inode ip).din (slotOf (i / bsize)) ≠ 0 →
    byteAt fs'.data (fs'.inode ip).din i =
      if off ≤ i ∧ i < stop then f i else byteAt fs.data (fs.inode ip).din i
  new : ∀ i, off ≤ i → i < stop → byteAt fs'.data (fs'.inode ip).din i = f i

namespace Filled

variable {fs fs1 fs' : Fs} {ip : Ip} {n off d m stop : Nat} {f : Nat → Byte}

theorem of_grown (hg : Grown ip fs fs') (hw : Working n ip fs) (hw' : Working n ip fs')
    (hd : Dense fs.data (fs.inode ip).din off) : Filled n ip f off 0 off fs fs' where
  entry := hg.entry
  shape := hg.shape
  data := by
    intro b hb hu hs
    have := hs ndirect (by decide)
    rw [slotAddr_ndirect] at this
    exact hg.data b hb hu (Ne.symm this)
  used := hg.used
  dinode := hg.dinode
  sb := hg.sb
  working := hw'
  slots := hg.slots
  fresh := hg.fresh
  reach := Nat.le_refl _
  dense := hd.grow fun s hs h0 => by rwa [hg.slots s hs h0]
  old := by
    intro i hi h0
    rw [if_neg (by omega), byteAt, hg.slots _ (slotOf_lt_nslots hi) h0,
      hg.data_slot hw.mappable hi h0]
    rfl
  new := by
    intro i h1 h2
    omega

theorem trans (h : Filled n ip f off m (off + m) fs fs1)
    (h' : Filled n ip f (off + m) d stop fs1 fs') : Filled n ip f off (m + d) stop fs fs' where
  entry := by
    rw [h'.entry, h.entry]
    simp
  shape := by rw [h'.shape, h.shape]
  data := by
    intro b hb hu hs
    rw [h'.data b hb (h.used b hu), h.data b hb hu hs]
    intro s hlt he
    by_cases h0 : slotAddr fs.data (fs.inode ip).din s = 0
    · have := h.fresh s hlt h0 (he ▸ hb)
      rw [he, hu] at this
      cases this
    · exact hs s hlt ((h.slots s hlt h0).symm.trans he)
  used := fun b hb => h'.used b (h.used b hb)
  dinode := h'.dinode.trans h.dinode
  sb := h'.sb.trans h.sb
  working := h'.working
  slots := by
    intro s hs h0
    have h1 := h.slots s hs h0
    rw [h'.slots s hs (by rwa [h1]), h1]
  fresh := by
    intro s hs h0 h0'
    by_cases h1 : slotAddr fs1.data (fs1.inode ip).din s = 0
    · by_contra hu
      have := h'.fresh s hs h1 h0'
      rw [h.used _ (by simpa using hu)] at this
      cases this
    · rw [h'.slots s hs h1]
      exact h.fresh s hs h0 h1
  reach := by
    have := h'.reach
    omega
  dense := by
    rw [← Nat.add_assoc]
    exact h'.dense
  old := by
    intro i hi h0
    have h1 := h.slots _ (slotOf_lt_nslots hi) h0
    have := h'.reach
    rw [h'.old i hi (by rwa [h1]), h.old i hi h0]
    by_cases hin : off ≤ i ∧ i < stop
    · rw [if_pos hin]
      split
      · rfl
      · rw [if_pos (by omega)]
    · rw [if_neg hin, if_neg (by omega), if_neg (by omega)]
  new := by
    intro i h1 h2
    by_cases hi : off + m ≤ i
    · exact h'.new i hi h2
    · have hd := h.dense (i / bsize) (by have := Nat.div_mul_le_self i bsize; omega)
      rw [h'.old i hd.1 hd.2, if_neg (by omega)]
      exact h.new i h1 (by omega)

theorem logWrite (h : Filled n ip f off d stop fs fs') (b : Nat) :
    Filled n ip f off d stop fs (fs'.logWrite b) := by
  unfold Fs.logWrite
  split
  · exact h
  · obtain ⟨⟨h1, h2, h3, h4, h5, h6⟩, ⟨h7, h8⟩, h9, h10, h11, h12, h13, h14⟩ := h
    exact ⟨⟨h1, h2, h3, h4, h5, h6⟩, ⟨h7, h8⟩, h9, h10, h11, h12, h13, h14⟩

end Filled

/-- Other bytes in a data block of the file leave the accounts alone. -/
theorem Working.setData {fs : Fs} {ip : Ip} (hw : Working n ip fs) (hbn : bn < maxfile)
    (ha : slotAddr fs.data (fs.inode ip).din (slotOf bn) = a) (blk : Block) :
    Working n ip (fs.setData a blk) := by
  have hself : update fs.dinode n (fs.inode ip).din n = (fs.inode ip).din :=
    update_self ..
  have hat : slotAddr fs.data (update fs.dinode n (fs.inode ip).din n) (slotOf bn) = a := by
    rw [hself]
    exact ha
  have hkeep := fun m => hw.acct.cover.owned.slotAddr_update (m := m)
    (by rw [hself]; exact hw.typed) hbn hat blk
  refine ⟨⟨⟨hw.acct.cover.exact.congr ?_, hw.acct.cover.reserved, hw.acct.cover.small⟩, ?_⟩, hw.typed⟩
  · rintro ⟨m, s⟩
    exact placed_congr rfl fun _ ht => hkeep m ht s
  · intro m ht
    refine (hw.acct.dense m ht).grow fun s _ h0 => ?_
    rw [← hkeep m ht s] at h0
    exact h0

theorem Working.logWrite {fs : Fs} {ip : Ip} (hw : Working n ip fs) (b : Nat) :
    Working n ip (fs.logWrite b) :=
  ⟨by simpa using hw.acct, by simpa using hw.typed⟩

namespace Mapped

variable {fs fs1 : Fs} {ip : Ip} {n bn a r : Nat} {f : Nat → Byte} {xs : List Byte}

/-- One turn of `writei` stored a first part of its bytes, or all of them. -/
theorem filled (h : Mapped 0 n ip (slotOf bn) a fs fs1) (hw : Working n ip fs)
    (hw1 : Working n ip fs1) (hbn : bn < maxfile) (hr : r < bsize) (hoff : off = bn * bsize + r)
    (hd : Dense fs.data (fs.inode ip).din off) (xs : List Byte) (hfit : r + xs.length ≤ bsize)
    (hf : ∀ j, j < xs.length → xs.getD j 0 = f (off + j)) (hdx : d ≤ xs.length) :
    Filled n ip f off d (off + xs.length) fs (fs1.setData a (splice (fs1.data a) r xs)) := by
  subst hoff
  have hslots := (h.mappable.setData hbn h.addr (splice (fs1.data a) r xs)).2
  obtain ⟨hentry, hshape, hdata, hused, hdinode, hsb⟩ := h.extended hbn (splice (fs1.data a) r xs)
  simp only [Fs.logWrite_data, Fs.logWrite_inode, Fs.logWrite_used, Fs.logWrite_dinode,
    Fs.logWrite_sb] at hentry hshape hdata hused hdinode hsb
  refine ⟨⟨hentry, hshape, hdata, hused, hdinode, hsb⟩, hw1.setData hbn h.addr _, ?_, ?_, by omega,
    ?_, ?_, ?_⟩
  · intro s hs h0
    exact (hslots s).trans (h.grown.slots s hs h0)
  · intro s hs h0
    simp only [Fs.setData_data, Fs.setData_inode, hslots]
    exact h.grown.fresh s hs h0
  · apply h.dense hbn _ hd
    intro bn' hbn'
    simp only [bsize] at hbn' hr hfit ⊢
    omega
  · intro i hi h0
    have hii := Nat.div_add_mod' i bsize
    have hlt := Nat.mod_lt i (show 0 < bsize by decide)
    simp only [Fs.setData_data, Fs.setData_inode]
    rw [h.byteAt_update hw.mappable hbn hi h0]
    by_cases hsame : i / bsize = bn
    · rw [if_pos hsame]
      rw [hsame] at hii h0
      by_cases hin : bn * bsize + r ≤ i ∧ i < bn * bsize + r + xs.length
      · obtain ⟨j, hj⟩ : ∃ j, i % bsize = r + j := ⟨i % bsize - r, by omega⟩
        have hij : bn * bsize + r + j = i := by rw [Nat.add_assoc, ← hj, hii]
        rw [if_pos hin, hj, splice_inside _ _ (by omega), hf j (by omega), hij]
      · rw [if_neg hin, byteAt, hsame, ← h.data_eq hw.mappable hbn h0]
        by_cases hb : i % bsize < r
        · exact splice_before _ _ hb
        · exact splice_after _ _ (by omega)
    · rw [if_neg hsame, if_neg]
      intro hin
      apply hsame
      rw [Nat.div_eq_of_lt_le] <;> simp only [bsize] at hin hfit hr ⊢ <;> omega
  · intro i h1 h2
    obtain ⟨j, rfl⟩ : ∃ j, i = bn * bsize + r + j := ⟨i - (bn * bsize + r), by omega⟩
    simp only [Fs.setData_data, Fs.setData_inode]
    rw [h.byteAt_written hbn hfit (by omega), hf j (by omega)]

end Mapped

theorem spanned_pos {l : Nat} (h : 0 < l) (off : Nat) : 1 ≤ spanned off l := by
  simp only [spanned, bsize]
  split <;> omega

theorem spanned_turn {l : Nat} (h : 0 < l) (hm : min l (bsize - off % bsize) = m) :
    1 + spanned (off + m) (l - m) ≤ spanned off l := by
  simp only [spanned, bsize] at hm ⊢
  split <;> split <;> omega

/-- What one turn of `writei` takes from the free blocks fills places of the file. -/
theorem Reached.balanced_turn {fs fs1 : Fs} {ip : Ip} (h : Reached n ip (slotOf bn) a fs fs1) (h0 : a ≠ 0)
    (hbn : bn < maxfile) (hk : slotOf bn < k) (hks : k ≤ nslots) (blk : Block) :
    Balanced ip k fs ((fs1.setData a blk).logWrite a) := by
  refine (h.count k hk hks).trans (.of_slots (by simp) (by simp) ?_)
  intro s
  simpa using ((h.mapped h0).mappable.setData hbn (h.mapped h0).addr blk).2 s

theorem Reached.logs_two {fs fs' : Fs} {ip : Ip} (h : Reached n ip s a fs fs') : Logs ∅ 2 fs fs' := by
  refine ⟨h.grown.sb, {(fs'.inode ip).din.addrs ndirect, a}, Finset.card_le_two, ?_⟩
  intro b hb
  rcases h.logs b hb with hb | hb | hb
  · exact .inl hb
  · exact .inr (.inl hb)
  · exact .inr (.inr (.inr (by simpa using hb)))

theorem Reached.logs_turn {fs fs1 fs' : Fs} {ip : Ip} (h : Reached n ip s a fs fs1)
    (hs : fs'.sb = fs1.sb) (hl : ∀ b ∈ fs'.logged, b ∈ fs1.logged ∨ b = a) : Logs ∅ 2 fs fs' := by
  refine ⟨hs.trans h.grown.sb, {(fs1.inode ip).din.addrs ndirect, a}, Finset.card_le_two, ?_⟩
  intro b hb
  rcases hl b hb with hb | rfl
  · rcases h.logs b hb with hb | hb | hb
    · exact .inl hb
    · exact .inr (.inl hb)
    · exact .inr (.inr (.inr (by simpa using hb)))
  · exact .inr (.inr (.inr (by simp)))

section Write

variable {M : Type} {copyin : M → Nat → Nat → M × List Byte × Bool} {src f : Nat → Byte}
variable {fs : Fs} {ip : Ip} {n : Nat}

/-- The loop of `writei` stores a first part of the bytes, whatever stops it. -/
theorem Working.writeiLoop (hc : Copies copyin src len) (hw : Working n ip fs)
    (hf : ∀ j, f (off + j) = src (tot + j)) (ht : tot ≤ len)
    (hfit : off + (len - tot) ≤ maxfile * bsize) (hd : Dense fs.data (fs.inode ip).din off)
    (rounds : Nat) (mem : M) :
    ∃ d stop mem' fs',
      Fs.writeiLoop copyin ip rounds fs mem off tot len = .ok (tot + d, off + d, mem', fs') ∧
      tot + d ≤ len ∧ (d = 0 ∨ tot + d = len ∨ (off + d) % bsize = 0) ∧
      Filled n ip f off d stop fs fs' ∧ (WholeTurns copyin off tot len ∨ Readable copyin len → stop = off + d) ∧
      Logs ∅ (2 * spanned off (len - tot)) fs fs' ∧
      (∀ k, placesFor (off + (len - tot)) ≤ k → k ≤ nslots → Balanced ip k fs fs') ∧
      (Readable copyin len → len ≤ tot + rounds → tot + d < len →
        OutOfBlocks (fs'.inode ip).din (off + d) fs' ∧ (d = 0 → IndirectOnly ip fs fs')) := by
  have hstay : Filled n ip f off 0 off fs fs := .of_grown (.refl ip fs) hw hw hd
  induction rounds generalizing fs mem off tot with
  | zero =>
    exact ⟨0, off, mem, fs, rfl, by omega, .inl rfl, hstay, fun _ => rfl, .refl _ _ _, fun _ _ _ => rfl,
      fun _ _ _ => by omega⟩
  | succ rounds ih =>
    by_cases hmore : len ≤ tot
    · refine ⟨0, off, mem, fs, ?_, by omega, .inl rfl, hstay, fun _ => rfl, .refl _ _ _, fun _ _ _ => rfl,
        fun _ _ _ => by omega⟩
      rw [Fs.writeiLoop, if_pos hmore]
      rfl
    obtain ⟨bn, r, hr, hbn, hmod, hoff⟩ : ∃ bn r, r < bsize ∧ off / bsize = bn ∧ off % bsize = r ∧
        off = bn * bsize + r :=
      ⟨_, _, Nat.mod_lt _ (by decide), rfl, rfl, (Nat.div_add_mod' off bsize).symm⟩
    have hlt : bn < maxfile := by
      simp only [maxfile, bsize] at hfit hr hoff ⊢
      omega
    have hone := spanned_pos (l := len - tot) (by omega) off
    have hplace : slotOf bn < placesFor (off + (len - tot)) := slotOf_lt_placesFor (by omega)
    obtain ⟨a, fs1, hb, hreach⟩ := hw.bmap hlt
    simp only [Fs.writeiLoop, if_neg hmore, hbn, hb, hmod]
    by_cases h0 : a = 0
    · rw [if_pos h0]
      refine ⟨0, _, mem, fs1, rfl, by omega, .inl rfl, .of_grown hreach.grown hw hreach.working hd,
        fun _ => rfl, hreach.logs_two.mono (Finset.Subset.refl _) (by omega),
        fun k hk hks => hreach.count k (by omega) hks, fun _ _ _ => ?_⟩
      rw [OutOfBlocks, Nat.add_zero, hbn]
      exact ⟨hreach.full h0, fun _ => hreach.change.imp id fun h => ⟨h.1, h.2.2 h0⟩⟩
    rw [if_neg h0]
    generalize hm : min (len - tot) (bsize - r) = m
    obtain ⟨k, hk, hxs, hall⟩ := hc mem tot m (by omega)
    have hclean := fun hcl : WholeTurns copyin off tot len =>
      hcl mem tot m (Nat.le_refl _) (by omega) (.inl rfl) (by rw [Nat.sub_self, Nat.add_zero, hmod, hm])
    have hread := fun hrd : Readable copyin len => hrd mem tot m (by omega)
    generalize copyin mem tot m = res at hxs hall hclean hread ⊢
    obtain ⟨mem', xs, ok⟩ := res
    dsimp only at hxs hall hclean hread ⊢
    subst hxs
    have hfilled : ∀ d, d ≤ k → Filled n ip f (off) d (off + k) fs
        (fs1.setData a (splice (fs1.data a) r (slice src tot k))) := by
      intro d hdk
      have := (hreach.mapped h0).filled (d := d) (f := f) hw hreach.working hlt hr
        hoff hd (slice src tot k) (by simp; omega) ?_ (by simpa using hdk)
      · simpa using this
      · intro j hj
        have hj : j < k := by simpa using hj
        rw [hf]
        simp [slice, hj]
    cases ok with
    | false =>
      refine ⟨0, _, mem', _, rfl, by omega, .inl rfl, hfilled 0 (Nat.zero_le _), ?_, ?_, ?_, ?_⟩
      · rintro (hcl | hrd)
        · have := congrArg List.length (hclean hcl rfl)
          simpa using this
        · cases hread hrd
      · refine Logs.mono (hreach.logs_turn rfl fun _ hb => .inl hb) (Finset.Subset.refl _) ?_
        omega
      · intro k' hk' hks
        have hb := hreach.balanced_turn h0 hlt (by omega) hks (splice (fs1.data a) r (slice src tot k))
        simpa [Balanced, freeBlocks] using hb
      · intro hrd
        cases hread hrd
    | true =>
      obtain rfl := hall rfl
      have hturn := (hfilled k (Nat.le_refl _)).logWrite a
      have hf' : ∀ j, f (off + k + j) = src (tot + k + j) := by
        intro j
        rw [Nat.add_assoc, hf, Nat.add_assoc]
      obtain ⟨d, stop, mem'', fs', hrun, hle, hend, hfill, hcl, hlogs, hcount, hfull⟩ := ih hturn.working hf'
        (by omega) (by omega) hturn.dense mem' (.of_grown (.refl ip _) hturn.working hturn.working hturn.dense)
      refine ⟨k + d, stop, mem'', fs', ?_, by omega, ?_, hturn.trans hfill, ?_, ?_, ?_, ?_⟩
      · simp only [↓reduceIte, hrun, ← Nat.add_assoc]
      · simp only [bsize] at hend hm hmod ⊢
        omega
      · intro h
        rw [hcl (h.imp_left fun hw => hw.next (hmod ▸ hm)), Nat.add_assoc]
      · have h1 : Logs ∅ 2 fs ((fs1.setData a (splice (fs1.data a) r (slice src tot k))).logWrite a) :=
          hreach.logs_turn (by simp) fun _ => mem_logWrite.mp
        have hstep := spanned_turn (l := len - tot) (by omega) (hmod ▸ hm)
        rw [← Nat.sub_sub] at hlogs
        exact (h1.trans hlogs).mono (Finset.Subset.refl _) (by omega)
      · intro k' hk' hks
        have hrest : off + k + (len - (tot + k)) = off + (len - tot) := by omega
        rw [hrest] at hcount
        exact (hreach.balanced_turn h0 hlt (by omega) hks _).trans (hcount k' hk' hks)
      · intro hrd hrounds hshort
        have hk0 : 0 < k := by
          simp only [bsize] at hm hr
          omega
        rw [← Nat.add_assoc]
        exact ⟨(hfull hrd (by omega) (by omega)).1, fun _ => by omega⟩

end Write

/-- From `fs` to `fs'` a `writei` on entry `ip` stored `d` bytes at `off` of inode `n`, those
of `f`; other bytes of the file changed only before `stop`. -/
structure Stored (n : Nat) (ip : Ip) (f : Nat → Byte) (off d stop : Nat) (fs fs' : Fs) : Prop where
  acct : Acct fs'.sb fs'.used fs'.data fs'.dinode
  entry : fs'.inode = update fs.inode ip { fs.inode ip with din := fs'.dinode n }
  dinode : ∀ m, m ≠ n → fs'.dinode m = fs.dinode m
  shape : fs'.dinode n = { fs.dinode n with
    size := max (fs.dinode n).size (off + d), addrs := (fs'.dinode n).addrs }
  reach : off + d ≤ stop
  other : ∀ m i, m ≠ n → (fs.dinode m).type ≠ tFree → i < (fs.dinode m).size →
    byteAt fs'.data (fs'.dinode m) i = byteAt fs.data (fs.dinode m) i
  old : ∀ i, i < (fs.dinode n).size → byteAt fs'.data (fs'.dinode n) i =
    if off ≤ i ∧ i < stop then f i else byteAt fs.data (fs.dinode n) i
  new : ∀ i, off ≤ i → i < stop → byteAt fs'.data (fs'.dinode n) i = f i

namespace Stored

variable {fs fs' : Fs} {ip : Ip} {n m off d : Nat} {f : Nat → Byte}

/-- The bytes of a file after a write that went through. -/
theorem fileText_eq (h : Stored n ip f off d (off + d) fs fs') (hoff : off ≤ (fs.dinode n).size) :
    fileText fs' n = (fileText fs n).take off ++ slice f off d ++ (fileText fs n).drop (off + d) := by
  have hsize : (fs'.dinode n).size = max (fs.dinode n).size (off + d) := by rw [h.shape]
  apply List.ext_getElem
  · simp [hsize]
    omega
  · intro i h1 h2
    have hi : i < max (fs.dinode n).size (off + d) := by
      rw [← hsize]
      simpa using h1
    simp only [fileText, contents, List.getElem_map, List.getElem_range, List.getElem_append,
      List.getElem_take, List.getElem_drop, List.length_append, List.length_take, List.length_map,
      List.length_range, slice]
    by_cases hlow : i < off
    · rw [dif_pos (by omega), dif_pos (by omega), h.old i (by omega), if_neg (by omega)]
    · by_cases hin : i < off + d
      · rw [dif_pos (by omega), dif_neg (by omega), h.new i (by omega) hin]
        congr 1
        omega
      · rw [dif_neg (by omega), h.old i (by omega), if_neg (by omega)]
        congr 1
        omega

theorem fileText_append (h : Stored n ip f (fs.dinode n).size d ((fs.dinode n).size + d) fs fs') :
    fileText fs' n = fileText fs n ++ slice f (fs.dinode n).size d := by
  have htake : (fileText fs n).take (fs.dinode n).size = fileText fs n :=
    List.take_of_length_le (by simp)
  have hdrop : (fileText fs n).drop ((fs.dinode n).size + d) = [] := List.drop_eq_nil_of_le (by simp)
  rw [h.fileText_eq (Nat.le_refl _), htake, hdrop, List.append_nil]

theorem fileText_other (h : Stored n ip f off d stop fs fs') (hm : m ≠ n)
    (ht : (fs.dinode m).type ≠ tFree) : fileText fs' m = fileText fs m := by
  unfold fileText
  rw [h.dinode m hm]
  apply contents_congr
  intro i hi
  have := h.other m i hm ht hi
  rwa [h.dinode m hm] at this

end Stored

structure Copy (n : Nat) (ip : Ip) (fs : Fs) : Prop where
  inum : (fs.inode ip).inum = n
  same : (fs.inode ip).din = fs.dinode n
  typed : (fs.dinode n).type ≠ tFree

theorem Copy.update {fs : Fs} {ip : Ip} (h : Copy n ip fs) :
    update fs.dinode n (fs.inode ip).din = fs.dinode := by
  rw [h.same, update_eq_self]

theorem Copy.working {fs : Fs} {ip : Ip} (h : Copy n ip fs)
    (ha : Acct fs.sb fs.used fs.data fs.dinode) : Working n ip fs :=
  ⟨by rw [h.update]; exact ha, by rw [h.same]; exact h.typed⟩

theorem Acct.resize {used : Nat → Bool} {data : Nat → Block} {inodes : Nat → Dinode}
    (ha : Acct sb used data inodes) (hd : Dense data (inodes n) size) :
    Acct sb used data (update inodes n { inodes n with size := size }) := by
  refine ⟨⟨ha.cover.exact.congr ?_, ha.cover.reserved, ha.cover.small⟩, ?_⟩
  · rintro ⟨m, s⟩
    by_cases hmn : m = n
    · subst hmn
      apply placed_congr <;> simp only [update_self]
      exact fun _ _ => rfl
    · apply placed_congr <;> simp [update_of_ne hmn]
  · intro m hm
    by_cases hmn : m = n
    · subst hmn
      rw [update_self]
      exact hd
    · rw [update_of_ne hmn] at hm ⊢
      exact ha.dense m hm

theorem Working.resize {fs : Fs} {ip : Ip} (hw : Working n ip fs)
    (hd : Dense fs.data (fs.inode ip).din size) :
    Acct fs.sb fs.used fs.data (update fs.dinode n { (fs.inode ip).din with size := size }) := by
  have hself : update fs.dinode n (fs.inode ip).din n = (fs.inode ip).din := update_self ..
  rw [← hself] at hd
  have hacct := hw.acct.resize hd
  rwa [hself, update_idem] at hacct

/-- The end of `writei`: the size grows with what was stored, and the inode goes to disk. -/
theorem Filled.stored {fs fs1 : Fs} {ip : Ip} (h : Filled n ip f off d stop fs fs1)
    (hc : Copy n ip fs) (ha : Acct fs.sb fs.used fs.data fs.dinode) :
    Stored n ip f off d stop fs
      ((fs1.setDin ip { (fs1.inode ip).din with
        size := max (fs1.inode ip).din.size (off + d) }).iupdate ip) := by
  have hw := hc.working ha
  have hinum : (fs1.inode ip).inum = n := by
    rw [h.entry]
    simpa using hc.inum
  have hdense : ∀ bn, bn * bsize < max (fs1.inode ip).din.size (off + d) →
      bn < maxfile ∧ slotAddr fs1.data (fs1.inode ip).din (slotOf bn) ≠ 0 := by
    intro bn hbn
    have hor : bn * bsize < (fs1.inode ip).din.size ∨ bn * bsize < off + d := by omega
    rcases hor with hlt | hlt
    · exact h.working.dense bn hlt
    · exact h.dense bn hlt
  have hold : ∀ {m i}, (fs.dinode m).type ≠ tFree → i < (fs.dinode m).size →
      i / bsize < maxfile ∧ slotAddr fs.data (fs.dinode m) (slotOf (i / bsize)) ≠ 0 := by
    intro m i ht hi
    exact ha.dense m ht (i / bsize) (Nat.lt_of_le_of_lt (Nat.div_mul_le_self i bsize) hi)
  refine ⟨?_, ?_, ?_, ?_, h.reach, ?_, ?_, ?_⟩
  · simpa [Fs.iupdate, hinum] using h.working.resize hdense
  · simp only [Fs.iupdate, Fs.logWrite_inode, Fs.setDinode_inode, Fs.setDin_inode,
      update_self, Fs.logWrite_dinode, Fs.setDinode_dinode, hinum]
    rw [h.entry]
    simp [hc.inum]
  · intro m hm
    simp [Fs.iupdate, hinum, hm, h.dinode]
  · simp only [Fs.iupdate, Fs.logWrite_dinode, Fs.setDinode_dinode, Fs.setDin_inode,
      update_self, hinum]
    rw [h.shape, hc.same]
  · intro m i hm ht hi
    obtain ⟨h1, h2⟩ := hold ht hi
    simpa [Fs.iupdate, hinum, hm, h.dinode] using h.byteAt_other hw.mappable hm ht h1 h2
  · intro i hi
    obtain ⟨h1, h2⟩ := hold hc.typed hi
    rw [← hc.same] at h2 ⊢
    simpa [Fs.iupdate, hinum, byteAt, slotAddr] using h.old i h1 h2
  · intro i h1 h2
    simpa [Fs.iupdate, hinum, byteAt, slotAddr] using h.new i h1 h2

theorem Dense.size_le {data : Nat → Block} {d : Dinode} (h : Dense data d n) :
    n ≤ maxfile * bsize := by
  by_contra hlt
  exact absurd (h maxfile (by omega)).1 (Nat.lt_irrefl _)

/-- `writei` refuses an offset beyond the end and a size beyond the limit; else it stores a
first part of the bytes, whatever stops it. -/
theorem Copy.writei {M : Type} {copyin : M → Nat → Nat → M × List Byte × Bool} {src : Nat → Byte}
    {fs : Fs} {ip : Ip} (hc : Copy n ip fs) (ha : Acct fs.sb fs.used fs.data fs.dinode)
    (hsrc : Copies copyin src len) (hlen : len < 2 ^ 32) (mem : M) (off : Nat) :
    (fs.writei copyin mem ip off len = .ok (-1, mem, fs) ∧
      ((fs.dinode n).size < off ∨ maxfile * bsize < off + len)) ∨
    ∃ (d stop : Nat) (mem' : M) (fs' : Fs),
      fs.writei copyin mem ip off len = .ok ((d : Int), mem', fs') ∧ d ≤ len ∧
      (d = 0 ∨ d = len ∨ (off + d) % bsize = 0) ∧ off ≤ (fs.dinode n).size ∧ off + len ≤ maxfile * bsize ∧
      Stored n ip (fun i => src (i - off)) off d stop fs fs' ∧
      (WholeTurns copyin off 0 len ∨ Readable copyin len → stop = off + d) ∧
      Logs {fs.iblock n} (2 * spanned off len) fs fs' ∧
      (∀ k, placesFor (off + len) ≤ k → k ≤ nslots → freeBlocks fs' + need fs.data (fs.dinode n) k =
        freeBlocks fs + need fs'.data (fs'.dinode n) k) ∧
      (Readable copyin len → d < len → OutOfBlocks (fs'.dinode n) (off + d) fs' ∧
        (d = 0 → fs'.dinode n = fs.dinode n ∧ fs'.data = fs.data ∧ freeBlocks fs = 0 ∨
          0 < freeBlocks fs ∧ (fs.dinode n).addrs ndirect = 0 ∧ (fs'.dinode n).addrs ndirect ≠ 0)) := by
  have hw := hc.working ha
  have hsize := (ha.dense n hc.typed).size_le
  have hmax : maxfile * bsize < 2 ^ 31 := by decide
  unfold Fs.writei
  rw [hc.same]
  by_cases hoff : (fs.dinode n).size < off
  · rw [if_pos (.inl hoff)]
    exact .inl ⟨rfl, .inl hoff⟩
  have hmod : (off + len) % 2 ^ 32 = off + len ∨ (off + len) % 2 ^ 32 < off := by omega
  rcases hmod with hmod | hmod
  · rw [if_neg (by omega), hmod]
    by_cases hbig : maxfile * bsize < off + len
    · rw [if_pos hbig]
      exact .inl ⟨rfl, .inr hbig⟩
    rw [if_neg hbig]
    have hd : Dense fs.data (fs.inode ip).din off := hw.dense.mono (by rw [hc.same]; omega)
    obtain ⟨d, stop, mem', fs1, hrun, hle, hend, hfill, hclean, hlogs, hcount, hfull⟩ :=
      hw.writeiLoop (f := fun i => src (i - off)) hsrc
        (fun j => by simp) (Nat.zero_le len) (by omega) hd len mem
    have hst := hfill.stored hc ha
    have hinum : (fs1.inode ip).inum = n := by
      rw [hfill.entry]
      simpa using hc.inum
    refine .inr ⟨d, stop, mem', _, ?_, by omega, by omega, by omega, by omega, hst, hclean, ?_, ?_, ?_⟩
    · rw [hrun]
      dsimp only
      congr 3
      · simp
      · split
        · rename_i hlt
          rw [Nat.max_eq_right (Nat.le_of_lt hlt)]
        · rename_i hlt
          rw [Nat.max_eq_left (by omega)]
          simp [Fs.setDin, Fs.setInode]
    · apply (hlogs.mono (Finset.empty_subset _) (Nat.le_refl _)).tail
      apply Logs.update
      simp [hinum, Fs.iblock, hlogs.sb]
    · intro k hk hks
      have hb := hcount k (by simpa using hk) hks
      have hplaces : ∀ size, need ((fs1.setDin ip { (fs1.inode ip).din with size := size }).iupdate ip).data
          (((fs1.setDin ip { (fs1.inode ip).din with size := size }).iupdate ip).dinode n) k =
          need fs1.data (fs1.inode ip).din k := by
        intro size
        simp only [Fs.iupdate, Fs.logWrite_data, Fs.setDinode_data, Fs.setDin_data, Fs.logWrite_dinode,
          Fs.setDinode_dinode, Fs.setDin_inode, update_self, hinum]
        rfl
      rw [Balanced, hc.same] at hb
      rw [hplaces, ← hb]
      simp [freeBlocks, Fs.iupdate]
    · intro hrd hshort
      obtain ⟨hout, hind⟩ := hfull hrd (by omega) (by omega)
      refine ⟨by simpa [OutOfBlocks, Fs.iupdate, hinum, freeBlocks, slotAddr] using hout, ?_⟩
      intro hd0
      have hdin : ∀ size, ((fs1.setDin ip { (fs1.inode ip).din with size := size }).iupdate ip).dinode n =
          { (fs1.inode ip).din with size := size } := by
        intro size
        simp [Fs.iupdate, hinum]
      rw [hdin]
      rcases hind hd0 with rfl | ⟨hpos, hz, hnz⟩
      · refine .inl ⟨?_, by simp [Fs.iupdate], hout.2⟩
        rw [hc.same, Nat.max_eq_left (by omega)]
      · rw [hc.same] at hz
        exact .inr ⟨hpos, hz, hnz⟩
  · rw [if_pos (.inr hmod)]
    exact .inl ⟨rfl, .inr (by omega)⟩

end Xv6Filter.Proofs
