import Xv6Filter.Proofs.Directory
import Xv6Filter.Proofs.Laid

namespace Xv6Filter.Mkfs
open Lib Proofs Function

def Host.newInode (type : Short) : Dinode := { Dinode.zero with type := type, nlink := 1 }

structure Made (type : Short) (h h' : Host) : Prop where
  freeinode : h'.freeinode = h.freeinode + 1
  freeblock : h'.freeblock = h.freeblock
  inode : h'.inode = update h.inode h.freeinode (Host.newInode type)
  texts : ∀ m, (h.inode m).type ≠ tFree → h'.text m = h.text m
  sect : ∀ b, nmeta ≤ b → h'.sect b = h.sect b

namespace Laid

variable {h h' : Host} {n : Nat}

theorem ialloc (hl : Laid h) (hroom : h.freeinode < ninodeslots) (hpos : 0 < h.freeinode) (ht : t ≠ tFree) :
    ∃ h', h.ialloc t = some (h.freeinode, h') ∧ Laid h' ∧ Made t h h' := by
  have hfits : (Host.newInode t).Fits := ⟨(by decide : 0 < 2 ^ 32), fun _ => (by decide : 0 < 2 ^ 32), fun _ _ => rfl⟩
  have hfree : (h.inode h.freeinode).type = tFree := by
    by_contra hty
    exact absurd ((hl.born _).mp hty).2 (Nat.lt_irrefl _)
  obtain ⟨h', hwr, hinode, hrest, hlen, hino, hblk⟩ :=
    Host.winode_wrote (h := { h with freeinode := h.freeinode + 1 }) hl.len hroom hfits
  have hdata : ∀ b, InData layout b → h'.sect b = h.sect b :=
    fun b hb => hrest b (.inr (Nat.le_trans (by decide) hb.1))
  have hinode : h'.inode = update h.inode h.freeinode (Host.newInode t) := hinode
  have hkeep : ∀ m, (h.inode m).type ≠ tFree → h'.inode m = h.inode m := by
    intro m hm
    rw [hinode, update_of_ne]
    rintro rfl
    exact hm hfree
  have hacct : Acct layout (fun b => decide (b < h'.freeblock)) h.sect h'.inode := by
    rw [hinode, hblk]
    exact hl.acct.create hfree rfl rfl
  refine ⟨h', ?_, ⟨hlen.trans hl.len, (hrest 1 (.inl (by decide))).trans hl.sb, hblk ▸ hl.high, ?_,
    hacct.agree (by decide) (fun _ _ => rfl) hdata, ?_, ?_, ?_⟩, hino, hblk, hinode, ?_, ?_⟩
  · rw [Host.ialloc]
    exact Option.bind_eq_some_iff.mpr ⟨h', hwr, rfl⟩
  · intro b hb
    have hb' : h.freeblock ≤ b := hblk ▸ hb
    rw [hrest b (.inr (Nat.le_trans (by decide) (Nat.le_trans hl.low hb')))]
    exact hl.clear b hb'
  · intro m hm s hs hlt
    rw [hacct.slotAddr_agree hdata hm]
    by_cases hmn : m = h.freeinode
    · subst hmn
      rw [hinode, update_self]
      simp [slotAddr, Host.newInode, Dinode.zero]
    · rw [hinode, update_of_ne hmn] at hm hs ⊢
      exact hl.tight m hm s hs hlt
  · intro m
    rw [hinode, hino]
    by_cases hmn : m = h.freeinode
    · subst hmn
      simpa [Host.newInode, hpos] using ht
    · rw [update_of_ne hmn, hl.born]
      have : { h with freeinode := h.freeinode + 1 }.freeinode = h.freeinode + 1 := rfl
      omega
  · rw [hino]
    exact hroom
  · intro m hm
    have ht' : (h'.inode m).type ≠ tFree := by rwa [hkeep m hm]
    rw [Host.text, hacct.contents_agree hdata ht', hkeep m hm]
    rfl
  · exact fun b hb => hrest b (.inr (Nat.le_trans (by decide) hb))

end Laid

theorem Host.blockFor_direct {h h' : Host} {din din' : Dinode} (hbn : bn < ndirect)
    (hr : h.blockFor din bn = some (x, din', h')) :
    (x = din.addrs bn ∧ x ≠ 0 ∨ din.addrs bn = 0 ∧ x = h.freeblock) ∧
      din' = { din with addrs := update din.addrs bn x } ∧ h'.sect = h.sect ∧ h'.len = h.len := by
  rw [Host.blockFor, if_pos hbn, Host.allocAddr] at hr
  by_cases h0 : din.addrs bn = 0
  · simp only [h0, ↓reduceIte, update_self, Option.some.injEq, Prod.mk.injEq] at hr
    obtain ⟨rfl, rfl, rfl⟩ := hr
    exact ⟨.inr ⟨h0, rfl⟩, rfl, rfl, rfl⟩
  · simp only [h0, ↓reduceIte, Option.some.injEq, Prod.mk.injEq] at hr
    obtain ⟨rfl, rfl, rfl⟩ := hr
    exact ⟨.inl ⟨rfl, h0⟩, by rw [update_eq_self], rfl, rfl⟩

namespace Appended

variable {h h1 h' : Host} {n : Nat} {p q : List Byte}

theorem refl (n : Nat) (hfit : (h.inode n).size ≤ maxfile * bsize) : Appended n [] h h :=
  ⟨rfl, rfl, hfit, fun _ _ => rfl, rfl, by simp, fun _ _ _ => rfl, fun _ _ _ _ _ _ => rfl⟩

theorem size (ha : Appended n p h h') : (h'.inode n).size = (h.inode n).size + p.length := by
  rw [ha.shape]

theorem type (ha : Appended n p h h') (m : Nat) : (h'.inode m).type = (h.inode m).type := by
  by_cases hm : m = n
  · rw [hm, ha.shape]
  · rw [ha.other m hm]

theorem slotAddr_other (ha : Appended n p h h') (hm : m ≠ n) (ht : (h.inode m).type ≠ tFree) (s : Nat) :
    slotAddr h'.sect (h'.inode m) s = slotAddr h.sect (h.inode m) s := by
  rw [ha.other m hm]
  apply slotAddr_congr
  intro h0
  have := ha.blocks m ndirect hm ht (by decide)
  rw [slotAddr_ndirect] at this
  exact this h0

theorem trans (ha : Appended n p h h1) (ha' : Appended n q h1 h') : Appended n (p ++ q) h h' := by
  have hsize : (h1.inode n).size + q.length = (h.inode n).size + (p ++ q).length := by
    rw [ha.size, List.length_append]
    omega
  have hblocks := ha.freeblock
  have hblocks' := ha'.freeblock
  rw [hsize, ha.size] at hblocks'
  refine ⟨ha'.freeinode.trans ha.freeinode, by omega, hsize ▸ ha'.fits, ?_, ?_, ?_, ?_, ?_⟩
  · intro m hm
    rw [ha'.other m hm, ha.other m hm]
  · rw [ha'.shape, hsize, ha.shape]
  · rw [ha'.text, ha.text, List.append_assoc]
  · intro m hm ht
    rw [ha'.texts m hm (by rwa [ha.type]), ha.texts m hm ht]
  · intro m s hm ht hs h0
    have hkeep := ha'.blocks m s hm (by rwa [ha.type]) hs
    rw [ha.slotAddr_other hm ht] at hkeep
    rw [hkeep h0, ha.blocks m s hm ht hs h0]

end Appended

namespace Laid

variable {h h' : Host} {n : Nat} {p : List Byte} {parts : List (List Byte)}

theorem size_le (hl : Laid h) (ht : (h.inode n).type ≠ tFree) : (h.inode n).size ≤ maxfile * bsize :=
  (hl.acct.dense n ht).size_le

theorem of_iappend (hl : Laid h) (ht : (h.inode n).type ≠ tFree) (hr : h.iappend n p = some h') :
    Laid h' ∧ Appended n p h h' := by
  have hfit : (h.inode n).size + p.length ≤ maxfile * bsize := by
    by_cases hp : p = []
    · simpa [hp] using hl.size_le ht
    · have hslot : n < ninodeslots := Nat.lt_of_lt_of_le ((hl.born n).mp ht).2 hl.fewer
      rw [Host.iappend, Host.rinode_eq hl.len hslot] at hr
      obtain ⟨din, hdin, hr⟩ := Option.bind_eq_some_iff.mp hr
      cases hdin
      obtain ⟨r, hloop, -⟩ := Option.bind_eq_some_iff.mp hr
      exact iappendLoop_fits hp (Nat.le_refl _) hloop
  rcases hl.iappend ht hfit with ⟨h1, hr1, hres⟩ | ⟨hnone, -⟩
  · cases hr1.symm.trans hr
    exact hres
  · rw [hnone] at hr
    cases hr

def Trim (h : Host) (n : Nat) : Prop :=
  (h.inode n).size % bsize ≠ 0 → ∀ j, (h.inode n).size % bsize ≤ j →
    h.sect ((h.inode n).addrs ((h.inode n).size / bsize)) j = 0

theorem iappend_block (hl : Laid h) (ht : (h.inode n).type ≠ tFree) (hr : h.iappend n p = some h')
    (hp : p ≠ []) (hdirect : (h.inode n).size / bsize < ndirect) (hin : (h.inode n).size % bsize + p.length ≤ bsize) :
    ∃ x, (x = (h.inode n).addrs ((h.inode n).size / bsize) ∧ x ≠ 0 ∨
        (h.inode n).addrs ((h.inode n).size / bsize) = 0 ∧ x = h.freeblock) ∧
      (h'.inode n).addrs ((h.inode n).size / bsize) = x ∧
      h'.sect x = splice (h.sect x) ((h.inode n).size % bsize) p := by
  have hslot : n < ninodeslots := Nat.lt_of_lt_of_le ((hl.born n).mp ht).2 hl.fewer
  have hfits := h.inode_fits n
  have hpos := List.length_pos_iff.mpr hp
  have hdiv := Nat.div_add_mod' (h.inode n).size bsize
  rw [Host.iappend, Host.rinode_eq hl.len hslot] at hr
  obtain ⟨din, hdin, hr⟩ := Option.bind_eq_some_iff.mp hr
  cases hdin
  obtain ⟨⟨h1, din1, off⟩, hloop, hr⟩ := Option.bind_eq_some_iff.mp hr
  obtain ⟨turns, hturns⟩ := Nat.exists_eq_add_of_lt hpos
  rw [hturns, Nat.zero_add, Host.iappendLoop, if_neg (by omega),
    if_pos (Nat.lt_of_lt_of_le hdirect (by decide))] at hloop
  obtain ⟨⟨x, din2, h2⟩, hblock, hloop⟩ := Option.bind_eq_some_iff.mp hloop
  obtain ⟨buf, hbuf, hloop⟩ := Option.bind_eq_some_iff.mp hloop
  have hall : min p.length (((h.inode n).size / bsize + 1) * bsize - (h.inode n).size) = p.length := by
    rw [Nat.add_mul]
    omega
  have hlast : ∀ g d o, Host.iappendLoop turns g d o [] = some (g, d, o) := by
    intro g d o
    cases turns <;> rfl
  have hstart : (h.inode n).size - (h.inode n).size / bsize * bsize = (h.inode n).size % bsize := by omega
  simp only [hall, hstart, List.take_length, List.drop_length, hlast, Option.some.injEq, Prod.mk.injEq] at hloop
  obtain ⟨rfl, rfl, rfl⟩ := hloop
  obtain ⟨hx, rfl⟩ : x < h2.len ∧ buf = h2.sect x := by
    unfold Host.rsect at hbuf
    split at hbuf
    · exact ⟨‹_›, (Option.some.inj hbuf).symm⟩
    · cases hbuf
  obtain ⟨hcase, rfl, hsect, hlen⟩ := Host.blockFor_direct hdirect hblock
  rw [hlen, hl.len] at hx
  have hfits' : Dinode.Fits { h.inode n with
      size := (h.inode n).size + p.length
      addrs := update (h.inode n).addrs ((h.inode n).size / bsize) x } := by
    refine ⟨?_, ?_, ?_⟩
    · have := hl.size_le ht
      simp only [maxfile, bsize, ndirect, nindirect] at this hin ⊢
      omega
    · intro j
      dsimp only
      by_cases hj : j = (h.inode n).size / bsize
      · rw [hj, update_self]
        exact Nat.lt_trans hx (by decide)
      · rw [update_of_ne hj]
        exact hfits.addr j
    · intro j hj
      dsimp only
      rw [update_of_ne (by simp only [ndirect] at *; omega)]
      exact hfits.ends j hj
  have hdata : nmeta ≤ x := by
    rcases hcase with ⟨rfl, h0⟩ | ⟨-, rfl⟩
    · have := hl.placed (s := (h.inode n).size / bsize) ht (by simp only [nslots, ndirect] at *; omega)
      rw [slotAddr, if_pos (by simp only [ndirect] at *; omega)] at this
      exact this h0
    · exact hl.low
  have hgrown : (h2.wsect x (splice (h2.sect x) ((h.inode n).size % bsize) p)).len = fssize := by
    simp only [Host.wsect, hlen, hl.len]
    omega
  obtain ⟨h3, hr3, hwrote⟩ := Host.winode_wrote hgrown hslot hfits'
  cases hr3.symm.trans hr
  refine ⟨x, hcase, ?_, ?_⟩
  · rw [hwrote.inode, update_self]
    exact update_self ..
  · rw [hwrote.rest x (.inr (Nat.le_trans (by decide) hdata)), ← hsect]
    exact update_self ..

theorem last_block (hl : Laid h) (ht : (h.inode n).type ≠ tFree) (hdirect : (h.inode n).size / bsize < ndirect) :
    (h.inode n).size % bsize ≠ 0 ↔ (h.inode n).addrs ((h.inode n).size / bsize) ≠ 0 := by
  have hslot : ∀ bn, bn < ndirect → slotAddr h.sect (h.inode n) bn = (h.inode n).addrs bn := by
    intro bn hbn
    exact if_pos (Nat.le_of_lt hbn)
  have hdiv := Nat.div_add_mod' (h.inode n).size bsize
  rw [← hslot _ hdirect]
  constructor
  · intro hpart
    obtain ⟨-, h0⟩ := hl.acct.dense n ht ((h.inode n).size / bsize) (by omega)
    rwa [slotOf, if_pos hdirect] at h0
  · intro h0 hfull
    refine h0 (hl.tight n ht _ ?_ (Nat.lt_trans hdirect (by decide)))
    simp only [placesFor, bsize, ndirect] at *
    split <;> omega

namespace Trim

theorem append (htrim : Trim h n) (hl : Laid h) (ht : (h.inode n).type ≠ tFree) (hr : h.iappend n p = some h')
    (hp : p ≠ []) (hdirect : (h.inode n).size / bsize < ndirect)
    (hin : (h.inode n).size % bsize + p.length ≤ bsize) : Trim h' n := by
  obtain ⟨-, ha⟩ := hl.of_iappend ht hr
  obtain ⟨x, hcase, haddr, hsect⟩ := hl.iappend_block ht hr hp hdirect hin
  intro hpart j hj
  have hsize : (h'.inode n).size = (h.inode n).size + p.length := by rw [ha.shape]
  rw [hsize] at hpart hj ⊢
  have hlast : ((h.inode n).size + p.length) / bsize = (h.inode n).size / bsize ∧
      ((h.inode n).size + p.length) % bsize = (h.inode n).size % bsize + p.length := by
    simp only [bsize] at *
    omega
  rw [hlast.1, haddr, hsect, splice_after _ _ (by omega)]
  rcases hcase with ⟨rfl, h0⟩ | ⟨-, rfl⟩
  · exact htrim ((hl.last_block ht hdirect).mpr h0) j (by omega)
  · rw [hl.clear _ (Nat.le_refl _)]

theorem kept (htrim : Trim h n) (hl : Laid h) (ht : (h.inode n).type ≠ tFree)
    (hdirect : (h.inode n).size / bsize < ndirect) (hn : h'.inode n = h.inode n)
    (hs : ∀ s, s < nslots → slotAddr h.sect (h.inode n) s ≠ 0 →
      h'.sect (slotAddr h.sect (h.inode n) s) = h.sect (slotAddr h.sect (h.inode n) s)) : Trim h' n := by
  intro hpart j hj
  rw [hn] at hpart hj ⊢
  have hslot : slotAddr h.sect (h.inode n) ((h.inode n).size / bsize) =
      (h.inode n).addrs ((h.inode n).size / bsize) := if_pos (Nat.le_of_lt hdirect)
  have hkeep := hs ((h.inode n).size / bsize) (Nat.lt_trans hdirect (by decide))
  rw [hslot] at hkeep
  rw [hkeep ((hl.last_block ht hdirect).mp hpart)]
  exact htrim hpart j hj

end Trim

def Room (h : Host) (n len : Nat) : Prop :=
  (h.inode n).size + len ≤ maxfile * bsize ∧
    h.freeblock + placesFor ((h.inode n).size + len) ≤ fssize + placesFor (h.inode n).size

theorem iappend_room (hl : Laid h) (ht : (h.inode n).type ≠ tFree) (hroom : Room h n p.length) :
    ∃ h', h.iappend n p = some h' := by
  rcases hl.iappend ht hroom.1 with ⟨h', hr, -⟩ | ⟨-, hfull⟩
  · exact ⟨h', hr⟩
  · exact absurd hroom.2 (Nat.not_le.mpr hfull)

theorem Room.rest (hroom : Room h n (p.length + k)) (ha : Appended n p h h') : Room h' n k := by
  obtain ⟨hfit, hfree⟩ := hroom
  have hblocks := ha.freeblock
  rw [← Nat.add_assoc] at hfit hfree
  rw [Room, ha.size]
  exact ⟨hfit, by omega⟩

theorem Room.first (hroom : Room h n (p.length + k)) : Room h n p.length := by
  have hmono := placesFor_mono (show (h.inode n).size + p.length ≤ (h.inode n).size + (p.length + k) by omega)
  exact ⟨by have := hroom.1; omega, by have := hroom.2; omega⟩

/-- The loop over the parts of an input file, in whatever parts `read` gives it. -/
theorem of_iappends (hl : Laid h) (ht : (h.inode n).type ≠ tFree)
    (hr : parts.foldlM (fun h c => Host.iappend h n c) h = some h') : Laid h' ∧ Appended n parts.flatten h h' := by
  induction parts generalizing h with
  | nil =>
    cases hr
    exact ⟨hl, .refl n (hl.size_le ht)⟩
  | cons c parts ih =>
    rw [List.foldlM_cons] at hr
    obtain ⟨h1, hr1, hr⟩ := Option.bind_eq_some_iff.mp hr
    obtain ⟨hl1, ha1⟩ := hl.of_iappend ht hr1
    obtain ⟨hl', ha'⟩ := ih hl1 (by rwa [ha1.type]) hr
    exact ⟨hl', ha1.trans ha'⟩

theorem iappends_room (hl : Laid h) (ht : (h.inode n).type ≠ tFree) (hroom : Room h n parts.flatten.length) :
    ∃ h', parts.foldlM (fun h c => Host.iappend h n c) h = some h' := by
  induction parts generalizing h with
  | nil => exact ⟨h, rfl⟩
  | cons c parts ih =>
    rw [List.flatten_cons, List.length_append] at hroom
    obtain ⟨h1, hr1⟩ := hl.iappend_room ht hroom.first
    obtain ⟨hl1, ha1⟩ := hl.of_iappend ht hr1
    obtain ⟨h', hr'⟩ := ih hl1 (by rwa [ha1.type]) (hroom.rest ha1)
    refine ⟨h', ?_⟩
    rw [List.foldlM_cons]
    exact Option.bind_eq_some_iff.mpr ⟨h1, hr1, hr'⟩

end Laid

theorem Dinode.get_zero (i : Nat) : Dinode.get (fun _ => 0) i = .zero := by
  simp [Dinode.get, Dinode.zero]

theorem inode_blank (n : Nat) : Host.blank.inode n = .zero := by
  by_cases hn : n < ninodeslots
  · have hne : Host.iblock n ≠ 1 := by
      have : inodestart ≤ Host.iblock n := Nat.le_add_left _ _
      exact Nat.ne_of_gt (Nat.lt_of_lt_of_le (by decide) this)
    rw [Host.inode_eq hn, Host.blank, Host.wsect]
    dsimp only
    rw [update_of_ne hne, Dinode.get_zero]
  · exact Host.inode_far (by omega) _

theorem laid_blank : Laid Host.blank := by
  have hfree : ∀ n, (Host.blank.inode n).type = tFree := fun n => by rw [inode_blank]; rfl
  have hplaced : ∀ x, placed Host.blank.sect Host.blank.inode x = 0 := by
    intro x
    exact if_neg fun h => h.2 (hfree x.1)
  refine ⟨rfl, rfl, by decide, ?_, ⟨⟨⟨?_, ?_, ?_, ?_, ?_⟩, ?_, by decide⟩, ?_⟩, ?_, ?_, by decide⟩
  · intro b hb
    have hne : b ≠ 1 := Nat.ne_of_gt (Nat.lt_of_lt_of_le (by decide) hb)
    rw [Host.blank, Host.wsect]
    dsimp only
    rw [update_of_ne hne]
  · exact fun x hx => absurd (hplaced x) hx
  · exact fun x hx => absurd (hplaced x) hx
  · exact fun x y hx => absurd (hplaced x) hx
  · intro b hb hu
    exact absurd (Nat.lt_of_lt_of_le (of_decide_eq_true hu) hb.1) (Nat.lt_irrefl _)
  · exact not_inData_zero layout
  · exact fun b hb => decide_eq_true hb
  · exact fun n hn => absurd (hfree n) hn
  · exact fun n hn => absurd (hfree n) hn
  · intro n
    have : Host.blank.freeinode = 1 := rfl
    simp only [hfree, ne_eq, not_true_eq_false, false_iff]
    omega

@[simp] theorem length_dirent (n : Nat) (name : List Byte) : (dirent n name).length = direntSize := by
  simp [dirent, length_strncpy]

def rootText (inputs : List Input) : List Byte :=
  dirent rootino (bytes ['.']) ++ dirent rootino (bytes ['.', '.']) ++
    (inputs.zipIdx 2).flatMap fun x => dirent x.2 (shortname x.1.path)

theorem length_rootText (inputs : List Input) : (rootText inputs).length = direntSize * (inputs.length + 2) := by
  simp only [rootText, List.length_append, length_dirent, List.length_flatMap, List.map_const',
    List.length_zipIdx, List.sum_replicate_nat, direntSize]
  omega

def NameOk (i : Input) : Prop := Fs.slash ∉ stripUser i.path ∧ (shortname i.path).length ≤ dirsiz

structure Holds (done : List Input) (h : Host) : Prop extends Laid h where
  count : h.freeinode = done.length + 2
  root : (h.inode rootino).type = tDir
  names : h.text rootino = rootText done
  files : ∀ k i, done[k]? = some i → (h.inode (k + 2)).type = tFile ∧ h.text (k + 2) = i.bytes
  blocks : h.freeblock = nmeta + placesFor (direntSize * (done.length + 2)) +
    (done.map fun i => placesFor i.bytes.length).sum
  trim : Laid.Trim h rootino
  named : ∀ i ∈ done, NameOk i

namespace Holds

variable {done : List Input} {h h' : Host} {i : Input}

theorem rootTyped (hh : Holds done h) : (h.inode rootino).type ≠ tFree := by
  rw [hh.root]
  decide

theorem rootSize (hh : Holds done h) : (h.inode rootino).size = direntSize * (done.length + 2) := by
  rw [← Host.length_text, hh.names, length_rootText]

/-- The root directory has no indirect block, and an entry does not cross the end of a block. -/
theorem rootDirect (hh : Holds done h) (hlt : done.length + 2 ≤ ninodeslots) :
    (h.inode rootino).size / bsize < ndirect ∧ (h.inode rootino).size % bsize + direntSize ≤ bsize := by
  have hslots : ninodeslots = 208 := rfl
  rw [hh.rootSize]
  simp only [direntSize, bsize, ndirect]
  omega

end Holds

/-- `main` begins with a root directory that has its two entries. -/
theorem root_holds : ∃ h, Host.root = some h ∧ Holds [] h := by
  obtain ⟨h1, hr1, hl1, hm1⟩ := laid_blank.ialloc (t := tDir) (by decide) (by decide) (by decide)
  have hroot : h1.inode rootino = Host.newInode tDir := by
    rw [hm1.inode]
    exact update_self ..
  have htext : h1.text rootino = [] := by
    rw [← List.length_eq_zero_iff, Host.length_text, hroot]
    rfl
  have ht1 : (h1.inode rootino).type ≠ tFree := by
    rw [hroot]
    decide
  have hroom : Laid.Room h1 rootino
      ((dirent rootino (bytes ['.'])).length + (dirent rootino (bytes ['.', '.'])).length) := by
    rw [Laid.Room, hroot, hm1.freeblock, length_dirent, length_dirent]
    decide
  obtain ⟨h2, hr2⟩ := hl1.iappend_room ht1 hroom.first
  obtain ⟨hl2, ha2⟩ := hl1.of_iappend ht1 hr2
  have ht2 : (h2.inode rootino).type ≠ tFree := by rwa [ha2.type]
  obtain ⟨h3, hr3⟩ := hl2.iappend_room ht2 (hroom.rest ha2)
  obtain ⟨hl3, ha3⟩ := hl2.of_iappend ht2 hr3
  have htrim : Laid.Trim h1 rootino := by
    intro hpart
    rw [hroot] at hpart
    exact absurd rfl hpart
  refine ⟨h3, ?_, hl3, ?_, ?_, ?_, by simp, ?_, ?_, by simp⟩
  · rw [Host.root]
    refine Option.bind_eq_some_iff.mpr ⟨_, hr1, ?_⟩
    exact Option.bind_eq_some_iff.mpr ⟨_, hr2, hr3⟩
  · rw [ha3.freeinode, ha2.freeinode, hm1.freeinode]
    rfl
  · rw [ha3.type, ha2.type, hroot]
    rfl
  · rw [ha3.text, ha2.text, htext]
    simp [rootText]
  · have hblocks := (ha2.trans ha3).freeblock
    rw [hroot, hm1.freeblock, List.length_append, length_dirent, length_dirent] at hblocks
    exact hblocks
  · have hsize : (h2.inode rootino).size = direntSize := by
      rw [ha2.size, hroot, length_dirent]
      rfl
    refine (htrim.append hl1 ht1 hr2 (by simp [dirent]) ?_ ?_).append hl2 ht2 hr3 (by simp [dirent]) ?_ ?_
    · rw [hroot]
      decide
    · rw [hroot, length_dirent]
      decide
    · rw [hsize]
      decide
    · rw [hsize, length_dirent]
      decide

def blocksFor (inputs : List Input) : Nat :=
  nmeta + placesFor (direntSize * (inputs.length + 2)) + (inputs.map fun i => placesFor i.bytes.length).sum

theorem blocksFor_le_append (some more : List Input) : blocksFor some ≤ blocksFor (some ++ more) := by
  have hmono := placesFor_mono (show direntSize * (some.length + 2) ≤ direntSize * ((some ++ more).length + 2) from
    Nat.mul_le_mul_left _ (by simp))
  simp only [blocksFor, List.map_append, List.sum_append]
  omega

namespace Holds

variable {done rest : List Input} {h h' : Host} {i : Input}

section

variable (hh : Holds done h)

include hh

theorem addFile_eq_some (hlt : done.length + 2 < ninodeslots) :
    ∃ h1, Laid h1 ∧ Made tFile h h1 ∧ ∀ h', h.addFile i = some h' ↔ NameOk i ∧
      ∃ h2, h1.iappend rootino (dirent (done.length + 2) (shortname i.path)) = some h2 ∧
        i.reads.foldlM (fun h c => Host.iappend h (done.length + 2) c) h2 = some h' := by
  obtain ⟨h1, hr1, hl1, hm1⟩ := hh.toLaid.ialloc (t := tFile) (by rw [hh.count]; exact hlt)
    (by rw [hh.count]; omega) (by decide)
  refine ⟨h1, hl1, hm1, ?_⟩
  intro h'
  rw [Host.addFile, NameOk]
  by_cases hslash : Fs.slash ∈ stripUser i.path
  · simp [hslash]
  by_cases hlong : dirsiz < (shortname i.path).length
  · simp [hslash, hlong]
  rw [if_neg hslash, if_neg hlong, hr1, hh.count]
  simp [hslash, Nat.not_lt.mp hlong, Option.bind_eq_some_iff]

theorem made (hm : Made tFile h h1) :
    h1.inode rootino = h.inode rootino ∧ (h1.inode (done.length + 2)) = Host.newInode tFile ∧
      h1.freeblock = h.freeblock := by
  rw [hm.inode, hh.count]
  refine ⟨update_of_ne ?_ _ _, update_self .., hm.freeblock⟩
  simp only [rootino]
  omega

/-- The turn of `main` for one argument adds the file and its entry, and nothing else. -/
theorem of_addFile (hlt : done.length + 2 < ninodeslots) (hr : h.addFile i = some h') :
    Holds (done ++ [i]) h' := by
  obtain ⟨h1, hl1, hm1, hiff⟩ := hh.addFile_eq_some (i := i) hlt
  obtain ⟨hname, h2, hr2, hr3⟩ := (hiff h').mp hr
  obtain ⟨hroot, hnew, hblk⟩ := hh.made hm1
  have hne : done.length + 2 ≠ rootino := by simp only [rootino]; omega
  obtain ⟨hl2, ha2⟩ := hl1.of_iappend (by rw [hroot]; exact hh.rootTyped) hr2
  have hnew2 : h2.inode (done.length + 2) = Host.newInode tFile := by rw [ha2.other _ hne, hnew]
  obtain ⟨hl3, ha3⟩ := hl2.of_iappends (by rw [hnew2]; decide) hr3
  have htext2 : h2.text (done.length + 2) = [] := by
    rw [← List.length_eq_zero_iff, Host.length_text, hnew2]
    rfl
  have hroot2 : (h2.inode rootino).type ≠ tFree := by
    rw [ha2.type, hroot]
    exact hh.rootTyped
  refine ⟨hl3, ?_, ?_, ?_, ?_, ?_, ?_, ?_⟩
  · rw [ha3.freeinode, ha2.freeinode, hm1.freeinode, hh.count, List.length_append]
    rfl
  · rw [ha3.type, ha2.type, hroot, hh.root]
  · rw [ha3.texts _ hne.symm hroot2, ha2.text, hm1.texts _ hh.rootTyped, hh.names, rootText, rootText,
      List.zipIdx_append, List.flatMap_append, ← List.append_assoc]
    simp [Nat.add_comm]
  · intro k j hk
    rcases Nat.lt_trichotomy k done.length with hk' | rfl | hk'
    · rw [List.getElem?_append_left hk'] at hk
      obtain ⟨hty, htx⟩ := hh.files k j hk
      have htyped : (h.inode (k + 2)).type ≠ tFree := by
        rw [hty]
        decide
      have hkeep : h1.inode (k + 2) = h.inode (k + 2) := by
        rw [hm1.inode, update_of_ne]
        rw [hh.count]
        omega
      have hk2 : (h2.inode (k + 2)).type ≠ tFree := by rwa [ha2.type, hkeep]
      refine ⟨by rw [ha3.type, ha2.type, hkeep, hty], ?_⟩
      rw [ha3.texts _ (by omega) hk2, ha2.texts _ (by simp only [rootino]; omega) (by rwa [hkeep]),
        hm1.texts _ htyped, htx]
    · rw [List.getElem?_append_right (Nat.le_refl _), Nat.sub_self] at hk
      cases hk
      refine ⟨by rw [ha3.type, hnew2]; rfl, ?_⟩
      rw [ha3.text, htext2, List.nil_append, Input.bytes]
    · rw [List.getElem?_append_right (by omega)] at hk
      have : k - done.length ≠ 0 := by omega
      simp [this] at hk
  · have hb2 := ha2.freeblock
    have hb3 := ha3.freeblock
    have hzero : placesFor 0 = 0 := by decide
    have hlen : direntSize * (done.length + 2) + direntSize = direntSize * (done.length + 1 + 2) := by
      simp only [direntSize]
      omega
    rw [hnew2] at hb3
    simp only [Host.newInode, Dinode.zero, hzero, Nat.zero_add, Nat.add_zero] at hb3
    rw [hroot, hblk, hh.blocks, length_dirent, hh.rootSize, hlen] at hb2
    rw [hb3, List.length_append, List.map_append, List.sum_append]
    simp only [List.length_singleton, List.map_singleton, List.sum_singleton, Input.bytes] at hb2 ⊢
    omega
  · have hroot1 : (h1.inode rootino).type ≠ tFree := by
      rw [hroot]
      exact hh.rootTyped
    obtain ⟨hdirect, hin⟩ := hh.rootDirect (Nat.le_of_lt hlt)
    have htrim1 : Laid.Trim h1 rootino := hh.trim.kept hh.toLaid hh.rootTyped hdirect hroot
      fun s hs h0 => hm1.sect _ (hh.toLaid.placed hh.rootTyped hs h0)
    have htrim2 : Laid.Trim h2 rootino := htrim1.append hl1 hroot1 hr2 (by simp [dirent]) (by rwa [hroot])
      (by rwa [hroot, length_dirent])
    refine htrim2.kept hl2 hroot2 ?_ (ha3.other _ hne.symm) fun s => ha3.blocks _ s hne.symm hroot2
    have hslots : ninodeslots = 208 := rfl
    rw [ha2.size, hroot, hh.rootSize, length_dirent]
    simp only [direntSize, bsize, ndirect]
    omega
  · intro j hj
    rcases List.mem_append.mp hj with hj | hj
    · exact hh.named j hj
    · rw [List.mem_singleton.mp hj]
      exact hname

theorem addFile_room (hlt : done.length + 2 < ninodeslots) (hname : NameOk i)
    (hsize : i.bytes.length ≤ maxfile * bsize) (hfit : blocksFor (done ++ [i]) ≤ fssize) :
    ∃ h', h.addFile i = some h' := by
  obtain ⟨h1, hl1, hm1, hiff⟩ := hh.addFile_eq_some (i := i) hlt
  obtain ⟨hroot, hnew, hblk⟩ := hh.made hm1
  have hne : done.length + 2 ≠ rootino := by simp only [rootino]; omega
  have hzero : placesFor 0 = 0 := by decide
  have hlen : direntSize * (done.length + 2) + direntSize = direntSize * (done.length + 1 + 2) := by
    simp only [direntSize]
    omega
  have htotal : nmeta + placesFor (direntSize * (done.length + 1 + 2)) +
      ((done.map fun i => placesFor i.bytes.length).sum + placesFor i.bytes.length) ≤ fssize := by
    simpa [blocksFor] using hfit
  have ht1 : (h1.inode rootino).type ≠ tFree := by
    rw [hroot]
    exact hh.rootTyped
  have hblocks := hh.blocks
  obtain ⟨h2, hr2⟩ := hl1.iappend_room (p := dirent (done.length + 2) (shortname i.path)) ht1 (by
    rw [Laid.Room, hroot, hblk, length_dirent, hh.rootSize, hlen]
    refine ⟨?_, by omega⟩
    simp only [direntSize, maxfile, bsize, ndirect, nindirect, ninodeslots, ipb] at hlt ⊢
    have : ninodeblocks = 13 := rfl
    omega)
  obtain ⟨hl2, ha2⟩ := hl1.of_iappend ht1 hr2
  have hnew2 : h2.inode (done.length + 2) = Host.newInode tFile := by rw [ha2.other _ hne, hnew]
  have hb2 := ha2.freeblock
  rw [hroot, hblk, hh.blocks, length_dirent, hh.rootSize, hlen] at hb2
  have hroom : Laid.Room h2 (done.length + 2) i.reads.flatten.length := by
    rw [Laid.Room, hnew2]
    simp only [Host.newInode, Dinode.zero, hzero, Nat.zero_add, Nat.add_zero]
    change i.bytes.length ≤ _ ∧ _ + placesFor i.bytes.length ≤ _
    exact ⟨hsize, by omega⟩
  obtain ⟨h3, hr3⟩ := hl2.iappends_room (by rw [hnew2]; decide) hroom
  exact ⟨h3, (hiff h3).mpr ⟨hname, h2, hr2, hr3⟩⟩

theorem of_addFiles (hlt : done.length + rest.length + 2 ≤ ninodeslots)
    (hr : rest.foldlM Host.addFile h = some h') : Holds (done ++ rest) h' := by
  induction rest generalizing done h with
  | nil =>
    cases hr
    rwa [List.append_nil]
  | cons i rest ih =>
    rw [List.foldlM_cons] at hr
    obtain ⟨h1, hr1, hr⟩ := Option.bind_eq_some_iff.mp hr
    rw [List.length_cons] at hlt
    have := ih (hh.of_addFile (by omega) hr1) (by simp; omega) hr
    rwa [List.append_assoc] at this

theorem addFiles_room (hlt : done.length + rest.length + 2 ≤ ninodeslots)
    (hname : ∀ i ∈ rest, NameOk i) (hsize : ∀ i ∈ rest, i.bytes.length ≤ maxfile * bsize)
    (hfit : blocksFor (done ++ rest) ≤ fssize) : ∃ h', rest.foldlM Host.addFile h = some h' := by
  induction rest generalizing done h with
  | nil => exact ⟨h, rfl⟩
  | cons i rest ih =>
    rw [List.length_cons] at hlt
    have hsplit : done ++ i :: rest = done ++ [i] ++ rest := by simp
    have hfirst : blocksFor (done ++ [i]) ≤ fssize := by
      rw [hsplit] at hfit
      exact Nat.le_trans (blocksFor_le_append _ _) hfit
    obtain ⟨h1, hr1⟩ := hh.addFile_room (by omega) (hname i (by simp)) (hsize i (by simp)) hfirst
    obtain ⟨h', hr'⟩ := ih (hh.of_addFile (by omega) hr1) (by simp; omega)
      (fun j hj => hname j (List.mem_cons_of_mem _ hj)) (fun j hj => hsize j (List.mem_cons_of_mem _ hj))
      (by rwa [← hsplit])
    refine ⟨h', ?_⟩
    rw [List.foldlM_cons]
    exact Option.bind_eq_some_iff.mpr ⟨h1, hr1, hr'⟩

end

end Holds

end Xv6Filter.Mkfs
