import Xv6Filter.Proofs.Booting
import Xv6Filter.Proofs.Image

namespace Xv6Filter.Mkfs
open Lib Proofs Function

def rounded (size : Nat) : Nat := (size / bsize + 1) * bsize

structure Finished (h₀ h : Host) : Prop where
  inode : h.inode = update h₀.inode rootino
    { h₀.inode rootino with size := rounded (h₀.inode rootino).size }
  bitmap : h.sect bmapstart = Host.bitmap h₀.freeblock
  rest : ∀ b, b < inodestart ∨ nmeta ≤ b → h.sect b = h₀.sect b

theorem Holds.finish (hh : Holds inputs h₀) :
    ∃ h, (h₀.fixRoot.bind fun h => h.balloc h.freeblock) = some h ∧ Finished h₀ h := by
  have hfits := h₀.inode_fits rootino
  have hsize := hh.size_le hh.rootTyped
  obtain ⟨h1, hw, hinode, hrest, -, -, hblk⟩ := Host.winode_wrote (n := rootino)
    (d := { h₀.inode rootino with size := rounded (h₀.inode rootino).size }) hh.len (by decide)
    ⟨by
      have := Nat.div_mul_le_self (h₀.inode rootino).size bsize
      simp only [rounded, Nat.add_mul, maxfile, bsize, ndirect, nindirect] at *
      omega, hfits.addr, hfits.ends⟩
  have hfix : h₀.fixRoot = some h1 := by
    rw [Host.fixRoot, Host.rinode_eq hh.len (by decide)]
    exact hw
  have hfew : h1.freeblock < bpb := by
    rw [hblk]
    exact Nat.lt_of_le_of_lt hh.high (by decide)
  refine ⟨h1.wsect bmapstart (Host.bitmap h1.freeblock), ?_, ?_, ?_, ?_⟩
  · rw [hfix]
    exact if_pos hfew
  · rw [← hinode]
    apply Host.inode_congr
    intro b _ hb
    exact update_of_ne (Nat.ne_of_lt hb) _ _
  · rw [← hblk]
    simp [Host.wsect]
  · intro b hb
    have hne : b ≠ bmapstart := by
      rcases hb with hb | hb
      · exact Nat.ne_of_lt (Nat.lt_trans hb (by decide))
      · exact Nat.ne_of_gt (Nat.lt_of_lt_of_le (by decide) hb)
    rw [← hrest b (hb.imp id (Nat.le_trans (by decide)))]
    exact update_of_ne hne _ _

theorem mkfs_eq (hroot : Host.root = some root) (inputs : List Input) :
    mkfs inputs = (inputs.foldlM Host.addFile root).bind fun h => h.fixRoot.bind fun h => h.balloc h.freeblock := by
  rw [mkfs, hroot]
  rfl

/-- `mkfs` on so many files that their inodes lie before the bitmap. -/
theorem mkfs_finished (hlt : inputs.length + 2 ≤ ninodeslots) (hr : mkfs inputs = some h) :
    ∃ h₀, Holds inputs h₀ ∧ Finished h₀ h := by
  obtain ⟨root, hroot, hh⟩ := root_holds
  rw [mkfs_eq hroot] at hr
  obtain ⟨h₀, hfold, hr⟩ := Option.bind_eq_some_iff.mp hr
  have hh0 := hh.of_addFiles (by simpa using hlt) hfold
  obtain ⟨h', hr', hf⟩ := hh0.finish
  cases hr'.symm.trans hr
  exact ⟨h₀, hh0, hf⟩

theorem mkfs_succeeds (hlt : inputs.length + 2 ≤ ninodeslots) (hname : ∀ i ∈ inputs, NameOk i)
    (hsize : ∀ i ∈ inputs, i.bytes.length ≤ maxfile * bsize) (hfit : blocksFor inputs ≤ fssize) :
    ∃ h, mkfs inputs = some h := by
  obtain ⟨root, hroot, hh⟩ := root_holds
  obtain ⟨h₀, hfold⟩ := hh.addFiles_room (by simpa using hlt) hname hsize hfit
  obtain ⟨h, hr, -⟩ := (hh.of_addFiles (by simpa using hlt) hfold).finish
  refine ⟨h, ?_⟩
  rw [mkfs_eq hroot]
  exact Option.bind_eq_some_iff.mpr ⟨h₀, hfold, hr⟩

theorem ialloc_freeinode {h h' : Host} (hr : h.ialloc type = some (n, h')) : h'.freeinode = h.freeinode + 1 := by
  obtain ⟨h1, hw, hr⟩ := Option.bind_eq_some_iff.mp hr
  cases hr
  exact winode_freeinode hw

theorem iappends_freeinode {h h' : Host} {parts : List (List Byte)}
    (hr : parts.foldlM (fun h c => Host.iappend h n c) h = some h') : h'.freeinode = h.freeinode := by
  induction parts generalizing h with
  | nil =>
    cases hr
    rfl
  | cons c parts ih =>
    rw [List.foldlM_cons] at hr
    obtain ⟨h1, hr1, hr⟩ := Option.bind_eq_some_iff.mp hr
    exact (ih hr).trans (iappend_freeinode hr1)

theorem addFile_freeinode {h h' : Host} (hr : h.addFile i = some h') : h'.freeinode = h.freeinode + 1 := by
  unfold Host.addFile at hr
  split at hr
  · cases hr
  split at hr
  · cases hr
  obtain ⟨⟨n, h1⟩, hr1, hr⟩ := Option.bind_eq_some_iff.mp hr
  obtain ⟨h2, hr2, hr⟩ := Option.bind_eq_some_iff.mp hr
  rw [iappends_freeinode hr, iappend_freeinode hr2, ialloc_freeinode hr1]

theorem addFiles_freeinode {h h' : Host} {inputs : List Input} (hr : inputs.foldlM Host.addFile h = some h') :
    h'.freeinode = h.freeinode + inputs.length := by
  induction inputs generalizing h with
  | nil =>
    cases hr
    rfl
  | cons i inputs ih =>
    rw [List.foldlM_cons] at hr
    obtain ⟨h1, hr1, hr⟩ := Option.bind_eq_some_iff.mp hr
    rw [ih hr, addFile_freeinode hr1, List.length_cons]
    omega

theorem mkfs_freeinode (hr : mkfs inputs = some h) : h.freeinode = inputs.length + 2 := by
  obtain ⟨root, hroot, hh⟩ := root_holds
  rw [mkfs_eq hroot] at hr
  obtain ⟨h₀, hfold, hr⟩ := Option.bind_eq_some_iff.mp hr
  obtain ⟨h1, hfix, hr⟩ := Option.bind_eq_some_iff.mp hr
  obtain ⟨din, -, hfix⟩ := Option.bind_eq_some_iff.mp hfix
  have hlast : h.freeinode = h1.freeinode := by
    unfold Host.balloc at hr
    split at hr
    · cases hr
      rfl
    · cases hr
  rw [hlast, winode_freeinode hfix, addFiles_freeinode hfold, hh.count, List.length_nil]
  omega

namespace Finished

variable {h₀ h : Host} {inputs : List Input}

section

variable (hf : Finished h₀ h)

include hf

theorem ofImage_sb (hl : Laid h₀) : (Fs.ofImage h.sect).sb = layout := by
  have hblock : h.sect 1 = Host.blank.sect 1 := (hf.rest 1 (.inl (by decide))).trans hl.sb
  have hread : Superblock.get (Host.blank.sect 1) = layout := by decide +kernel
  rw [Fs.ofImage, hblock, hread]

theorem ofImage_dinode (hl : Laid h₀) : (Fs.ofImage h.sect).dinode = h.inode := by
  have := hf.ofImage_sb hl
  simp only [Fs.ofImage] at this ⊢
  rw [this]
  rfl

theorem ofImage_used (hl : Laid h₀) (hb : b < fssize) :
    (Fs.ofImage h.sect).used b = decide (b < h₀.freeblock) := by
  have hsb := hf.ofImage_sb hl
  have hlt : b < bpb := Nat.lt_trans hb (by decide)
  simp only [Fs.ofImage] at hsb ⊢
  rw [hsb, Fs.bitmapBit, Nat.div_eq_of_lt hlt, Nat.mod_eq_of_lt hlt, Nat.zero_add, layout_bmapstart, hf.bitmap]
  exact Host.bitmap_testBit _ _

theorem data : ∀ b, InData layout b → h.sect b = h₀.sect b :=
  fun b hb => hf.rest b (.inr hb.1)

theorem inode_root : h.inode rootino = { h₀.inode rootino with size := rounded (h₀.inode rootino).size } := by
  rw [hf.inode, update_self]

theorem inode_other (hn : n ≠ rootino) : h.inode n = h₀.inode n := by
  rw [hf.inode, update_of_ne hn]

theorem type_eq (n : Nat) : (h.inode n).type = (h₀.inode n).type := by
  by_cases hn : n = rootino
  · rw [hn, hf.inode_root]
  · rw [hf.inode_other hn]

/-- The accounts of the image, if the root directory has a block for every index below its
rounded size. -/
theorem acct (hl : Laid h₀) (hd : Dense h₀.sect (h₀.inode rootino) (rounded (h₀.inode rootino).size)) :
    Acct (Fs.ofImage h.sect).sb (Fs.ofImage h.sect).used (Fs.ofImage h.sect).data (Fs.ofImage h.sect).dinode := by
  rw [hf.ofImage_sb hl, hf.ofImage_dinode hl, hf.inode]
  exact (hl.acct.resize hd).agree (by decide) (fun b hb => hf.ofImage_used hl hb) hf.data

end

end Finished

theorem dense_rounded {data : Nat → Block} {d : Dinode} (hd : Dense data d size) (hpart : size % bsize ≠ 0) :
    Dense data d (rounded size) := by
  intro bn hbn
  apply hd
  simp only [rounded, bsize] at hbn hpart ⊢
  omega

theorem hole_rounded {data : Nat → Block} {d : Dinode} (hfull : size % bsize = 0) (hsize : size ≤ ndirect * bsize)
    (ht : ∀ s, placesFor size ≤ s → s < nslots → slotAddr data d s = 0) : ¬ Dense data d (rounded size) := by
  intro hd
  obtain ⟨-, h0⟩ := hd (size / bsize) (by simp only [rounded, bsize]; omega)
  apply h0
  apply ht
  · simp only [placesFor, slotOf, bsize, ndirect] at *
    split <;> split <;> omega
  · simp only [slotOf, bsize, ndirect, nslots, nindirect] at *
    split <;> omega

/-- An image that the kernel can take: the magic number, inode numbers below `sb.ninodes`, and the
accounts of the blocks. -/
structure ImageOk (h : Host) : Prop where
  magic : word (h.sect 1) 0 = fsmagic
  numbers : h.freeinode ≤ ninodes
  wellFormed : WellFormed (Fs.ofImage h.sect)

namespace Finished

variable {h₀ h : Host} {inputs : List Input}

theorem wellFormed (hf : Finished h₀ h) (hh : Holds inputs h₀) (hlt : inputs.length + 2 ≤ ninodes)
    (hpart : direntSize * (inputs.length + 2) % bsize ≠ 0) : WellFormed (Fs.ofImage h.sect) := by
  have hd := dense_rounded (hh.acct.dense rootino hh.rootTyped) (by rwa [hh.rootSize])
  refine ⟨hf.acct hh.toLaid hd, ?_, ?_, ?_, ?_, fun _ => rfl⟩
  · intro n hn
    rw [hf.ofImage_dinode hh.toLaid] at hn ⊢
    by_cases hroot : n = rootino
    · rw [hroot, hf.inode_root]
      simp only [rounded, direntSize, bsize]
      omega
    · have hty : (h₀.inode n).type ≠ tFree := by
        rw [← hf.type_eq, hn]
        decide
      obtain ⟨hpos, hmax⟩ := (hh.born n).mp hty
      rw [hh.count] at hmax
      simp only [rootino] at hroot
      obtain ⟨k, rfl⟩ : ∃ k, n = k + 2 := ⟨n - 2, by omega⟩
      have hk : k < inputs.length := by omega
      rw [hf.type_eq, (hh.files k _ (List.getElem?_eq_getElem hk)).1] at hn
      cases hn
  · intro n hn
    rw [hf.ofImage_dinode hh.toLaid, hf.type_eq] at hn
    have := (hh.born n).mp hn
    rw [hh.count] at this
    rw [hf.ofImage_sb hh.toLaid, layout_ninodes]
    omega
  · rw [hf.ofImage_sb hh.toLaid]
    decide
  · rw [hf.ofImage_dinode hh.toLaid, hf.type_eq]
    exact hh.rootTyped

theorem magic (hf : Finished h₀ h) (hl : Laid h₀) : word (h.sect 1) 0 = fsmagic := by
  have hblock : h.sect 1 = Host.blank.sect 1 := (hf.rest 1 (.inl (by decide))).trans hl.sb
  rw [hblock]
  decide +kernel

theorem not_acct (hf : Finished h₀ h) (hh : Holds inputs h₀) (hlt : inputs.length + 2 ≤ ninodes)
    (hfull : direntSize * (inputs.length + 2) % bsize = 0) :
    ¬ Acct (Fs.ofImage h.sect).sb (Fs.ofImage h.sect).used (Fs.ofImage h.sect).data
      (Fs.ofImage h.sect).dinode := by
  intro ha
  have hd := ha.dense rootino
  rw [hf.ofImage_dinode hh.toLaid, hf.inode_root] at hd
  refine hole_rounded (by rwa [hh.rootSize]) ?_ (hh.tight rootino hh.rootTyped) ((hd hh.rootTyped).grow ?_)
  · rw [hh.rootSize]
    simp only [direntSize, ndirect, bsize, ninodes] at hlt ⊢
    omega
  · intro s _ h0
    rw [← hh.acct.slotAddr_agree hf.data hh.rootTyped]
    exact h0

end Finished

/-- The image is consistent exactly when the inode numbers stay below 200 and the entries of the
root directory do not fill its last block. -/
theorem image_ok_iff (hr : mkfs inputs = some h) :
    ImageOk h ↔ inputs.length + 2 ≤ ninodes ∧ direntSize * (inputs.length + 2) % bsize ≠ 0 := by
  have hcount := mkfs_freeinode hr
  by_cases hlt : inputs.length + 2 ≤ ninodes
  · obtain ⟨h₀, hh, hf⟩ := mkfs_finished (Nat.le_trans hlt (by decide)) hr
    constructor
    · intro hok
      exact ⟨hlt, fun hfull => hf.not_acct hh hlt hfull hok.wellFormed.acct⟩
    · rintro ⟨-, hpart⟩
      exact ⟨hf.magic hh.toLaid, by omega, hf.wellFormed hh hlt hpart⟩
  · constructor
    · intro hok
      have := hok.numbers
      omega
    · exact fun hcond => absurd hcond.1 hlt

def letter (k : Nat) : Byte := UInt8.ofNat (97 + k % 26)

theorem letter_ne_zero (k : Nat) : letter k ≠ 0 := by
  have hall : ∀ x, x < 26 → UInt8.ofNat (97 + x) ≠ 0 := by decide
  exact hall _ (Nat.mod_lt _ (by decide))

theorem letter_mod (k : Nat) : letter (k % 26) = letter k := by
  simp [letter]

theorem letters_ok : ∀ a b : Fin 26, Fs.slash ∉ stripUser [letter a, letter b] ∧
    (shortname [letter a, letter b]).length ≤ dirsiz := by decide +kernel

theorem no_reads : ∀ c ∈ ([] : List (List Byte)), c ≠ [] ∧ c.length ≤ bsize := nofun

def emptyFiles (n : Nat) : List Input :=
  (List.range n).map fun k =>
    ⟨[letter (k / 26), letter k], [], by simp [(letter_ne_zero _).symm], no_reads⟩

theorem emptyFiles_fit (hn : n ≤ 199) : ∃ h, mkfs (emptyFiles n) = some h := by
  have hmem : ∀ i ∈ emptyFiles n, ∃ k, i.path = [letter (k / 26), letter k] ∧ i.bytes = [] := by
    intro i hi
    obtain ⟨k, -, rfl⟩ := List.mem_map.mp hi
    exact ⟨k, rfl, rfl⟩
  have hlen : (emptyFiles n).length = n := by simp [emptyFiles]
  refine mkfs_succeeds ?_ ?_ ?_ ?_
  · rw [hlen]
    exact Nat.le_trans (Nat.add_le_add_right hn 2) (by decide)
  · intro i hi
    obtain ⟨k, hp, -⟩ := hmem i hi
    rw [NameOk, hp, ← letter_mod (k / 26), ← letter_mod k]
    exact letters_ok ⟨_, Nat.mod_lt _ (by decide)⟩ ⟨_, Nat.mod_lt _ (by decide)⟩
  · intro i hi
    obtain ⟨k, -, hb⟩ := hmem i hi
    simp [hb]
  · have hsum : ((emptyFiles n).map fun i => placesFor i.bytes.length).sum = 0 := by
      rw [List.sum_eq_zero]
      intro x hx
      obtain ⟨i, hi, rfl⟩ := List.mem_map.mp hx
      obtain ⟨k, -, hb⟩ := hmem i hi
      rw [hb]
      rfl
    rw [blocksFor, hlen, hsum]
    have hmono := placesFor_mono (show direntSize * (n + 2) ≤ direntSize * 201 from Nat.mul_le_mul_left _ (by omega))
    have hmax : nmeta + placesFor (direntSize * 201) ≤ fssize := by decide
    omega

/-- 62 files fill the block of the root directory, and the last of 199 gets inode 200. -/
theorem image_not_ok :
    (∃ h, mkfs (emptyFiles 62) = some h ∧ ¬ ImageOk h) ∧ ∃ h, mkfs (emptyFiles 199) = some h ∧ ¬ ImageOk h := by
  constructor
  · obtain ⟨h, hr⟩ := emptyFiles_fit (n := 62) (by decide)
    obtain ⟨h₀, hh, hf⟩ := mkfs_finished (by decide +kernel) hr
    exact ⟨h, hr, fun hok => hf.not_acct hh (by decide +kernel) (by decide +kernel) hok.wellFormed.acct⟩
  · obtain ⟨h, hr⟩ := emptyFiles_fit (n := 199) (Nat.le_refl _)
    refine ⟨h, hr, fun hok => absurd hok.numbers ?_⟩
    rw [mkfs_freeinode hr]
    decide +kernel

def catFile : Input :=
  ⟨bytes ['u', 's', 'e', 'r', '/', '_', 'c', 'a', 't'], [[1, 2], [3]], by decide, by decide⟩

def fullReads (n : Nat) : List (List Byte) := List.replicate n (List.replicate bsize 7) ++ [[8, 9]]

theorem fullReads_ok (n : Nat) : ∀ c ∈ fullReads n, c ≠ [] ∧ c.length ≤ bsize := by
  intro c hc
  rcases List.mem_append.mp hc with hc | hc
  · rw [List.eq_of_mem_replicate hc]
    exact ⟨fun he => absurd (congrArg List.length he) (by rw [List.length_replicate]; decide),
      (List.length_replicate ..).le⟩
  · rw [List.mem_singleton.mp hc]
    decide

theorem fullReads_flatten (n : Nat) : (fullReads n).flatten = List.replicate (n * bsize) 7 ++ [8, 9] := by
  rw [fullReads, List.flatten_append, List.flatten_replicate_replicate]
  rfl

def readmeFile : Input :=
  ⟨bytes ['R', 'E', 'A', 'D', 'M', 'E'], fullReads 13, by decide, fullReads_ok 13⟩

def twoFiles : List Input := [catFile, readmeFile]

theorem twoFiles_fit : (∀ i ∈ twoFiles, i.bytes.length ≤ maxfile * bsize) ∧ blocksFor twoFiles ≤ fssize := by
  have hcat : catFile.bytes.length = 3 := rfl
  have hreadme : readmeFile.bytes.length = 13 * bsize + 2 := by
    rw [Input.bytes, readmeFile, fullReads_flatten, List.length_append, List.length_replicate]
    rfl
  constructor
  · simp only [twoFiles, List.forall_mem_cons, hcat, hreadme]
    exact ⟨by decide, by decide, List.forall_mem_nil _⟩
  · simp only [blocksFor, twoFiles, List.map_cons, List.map_nil, hcat, hreadme]
    decide

/-- An image with a small file and one with an indirect block. -/
theorem image_ok_iff_twoFiles : ∃ h, mkfs twoFiles = some h ∧ ImageOk h := by
  have hnames : ∀ i ∈ twoFiles, NameOk i := by
    simp only [twoFiles, List.forall_mem_cons, NameOk]
    exact ⟨by decide, by decide, List.forall_mem_nil _⟩
  obtain ⟨h, hr⟩ := mkfs_succeeds (by decide) hnames twoFiles_fit.1 twoFiles_fit.2
  exact ⟨h, hr, (image_ok_iff hr).mpr (by decide)⟩

end Xv6Filter.Mkfs
