import Xv6Filter.Proofs.FileBytes
import Xv6Filter.Proofs.ImageOk
import Xv6Filter.Proofs.Names

namespace Xv6Filter.Mkfs
open Lib Proofs Function

section Kernel

variable {M : Type}

def readNamed (copyout : M → Nat → List Byte → M × Bool) (fs : Fs) (mem : M) (name : List Byte) (off n : Nat) :
    Kern (Option (Int × M)) := do
  let (dp, fs) ← fs.iget rootdev rootino
  let fs ← fs.ilock dp
  let (found, fs) ← fs.dirlookup dp name
  match found with
  | none => pure none
  | some (ip, _) => do
    let fs ← fs.ilock ip
    let (r, mem, _) ← fs.readi copyout mem ip off n
    pure (some (r, mem))

end Kernel

theorem chunk_flatMap {f : α → List β} (hf : ∀ a, (f a).length = w) {l : List α} (hk : l[k]? = some a) :
    ((l.flatMap f).drop (w * k)).take w = f a := by
  induction l generalizing k with
  | nil => cases hk
  | cons b l ih =>
    rw [List.flatMap_cons]
    cases k with
    | zero =>
      cases hk
      rw [Nat.mul_zero, List.drop_zero, List.take_append_of_le_length (by rw [hf]), List.take_of_length_le (by rw [hf])]
    | succ k =>
      rw [List.getElem?_cons_succ] at hk
      rw [Nat.mul_succ, Nat.add_comm, ← List.drop_drop, List.drop_left' (hf b)]
      exact ih hk

def rootEntries (inputs : List Input) : List (Nat × List Byte) :=
  (rootino, bytes ['.']) :: (rootino, bytes ['.', '.']) ::
    (inputs.zipIdx 2).map fun x => (x.2, shortname x.1.path)

theorem rootText_eq (inputs : List Input) :
    rootText inputs = (rootEntries inputs).flatMap fun e => dirent e.1 e.2 := by
  simp [rootText, rootEntries, List.flatMap_map]

theorem rootEntries_file (hk : inputs[k]? = some i) :
    (rootEntries inputs)[k + 2]? = some (k + 2, shortname i.path) := by
  simp [rootEntries, hk, Nat.add_comm]

theorem direntAt_contents {data : Nat → Block} {d : Dinode} (hi : direntSize * (i + 1) ≤ n) :
    direntAt data d i = Fs.Dirent.decode (((contents data d n).drop (direntSize * i)).take direntSize) := by
  unfold direntAt
  congr 1
  rw [Nat.mul_succ] at hi
  apply List.ext_getElem
  · simp [contents]
    omega
  · intro j h1 h2
    simp [contents]

theorem nameKey_self {name : List Byte} (h0 : 0 ∉ name) (hlen : name.length ≤ dirsiz) : nameKey name = name := by
  have hpos : ∀ b ∈ name, decide (b ≠ 0) = true := by
    intro b hb
    simpa using fun hz : b = 0 => h0 (hz ▸ hb)
  have hall := @List.takeWhile_append_of_pos _ _ name [] hpos
  rw [List.append_nil, List.takeWhile_nil, List.append_nil] at hall
  rw [nameKey, hall, List.take_of_length_le hlen]

theorem no_nul_shortname (i : Input) : 0 ∉ shortname i.path := by
  have hsuffix : ∀ (p : List Byte), shortname p <:+ p := by
    intro p
    unfold shortname skipUnderscore stripUser
    split <;> split
    · exact (List.drop_suffix _ _).trans (List.drop_suffix _ _)
    · exact List.drop_suffix _ _
    · exact List.drop_suffix _ _
    · exact List.suffix_refl _
  exact fun h => i.no_nul ((hsuffix i.path).subset h)

namespace Finished

variable {h₀ h : Host} {inputs : List Input} {i : Input} {k : Nat}

section

variable (hf : Finished h₀ h)

include hf

section

variable (hh : Holds inputs h₀)

include hh

theorem root_contents :
    contents h.sect (h.inode rootino) (direntSize * (inputs.length + 2)) = rootText inputs := by
  have hold := hh.acct.contents_agree hf.data hh.rootTyped
  rw [hh.rootSize] at hold
  rw [hf.inode_root, ← hh.names, Host.text, hh.rootSize, ← hold]
  rfl

theorem direntAt_root (hlt : inputs.length + 2 ≤ ninodeslots) (hk : (rootEntries inputs)[k]? = some (n, name)) :
    direntAt h.sect (h.inode rootino) k = ⟨n, strncpy name dirsiz⟩ := by
  have hlen : k < inputs.length + 2 := by
    have := (List.getElem?_eq_some_iff.mp hk).1
    simp only [rootEntries, List.length_cons, List.length_map, List.length_zipIdx] at this
    omega
  have hn : n < 2 ^ 16 := by
    have hmem := List.mem_of_getElem? hk
    simp only [rootEntries, List.mem_cons, Prod.mk.injEq, List.mem_map, Prod.exists] at hmem
    rcases hmem with ⟨rfl, -⟩ | ⟨rfl, -⟩ | ⟨i, j, hj, rfl, -⟩
    · decide
    · decide
    · have hj := List.snd_lt_add_of_mem_zipIdx hj
      exact Nat.lt_of_lt_of_le hj (Nat.le_trans (by omega) (Nat.le_trans hlt (by decide)))
  rw [direntAt_contents (Nat.mul_le_mul_left _ hlen), hf.root_contents hh, rootText_eq,
    chunk_flatMap (fun e => length_dirent e.1 e.2) hk]
  exact decode_encode hn _

theorem rootSize_le : direntSize * (inputs.length + 2) ≤ (h.inode rootino).size := by
  rw [hf.inode_root, ← hh.rootSize]
  simp only [rounded, bsize]
  omega

/-- The blocks of the entries are there, if not those of the rounded size. -/
theorem root_dense : Dense h.sect (h.inode rootino) (direntSize * (inputs.length + 2)) := by
  have hd := hh.acct.dense rootino hh.rootTyped
  rw [hh.rootSize] at hd
  refine hd.grow fun s _ h0 => ?_
  rw [hf.inode_root]
  rw [← hh.acct.slotAddr_agree hf.data hh.rootTyped] at h0
  exact h0

/-- Behind the entries that mkfs wrote there are unused ones up to the end of the block. -/
theorem direntAt_rest (hlt : inputs.length + 2 ≤ ninodeslots)
    (hpart : direntSize * (inputs.length + 2) % bsize ≠ 0) (hk : inputs.length + 2 ≤ k)
    (hend : direntSize * (k + 1) ≤ (h.inode rootino).size) :
    direntAt h.sect (h.inode rootino) k = blankEntry := by
  obtain ⟨hdirect, -⟩ := hh.rootDirect hlt
  have htrim := hh.trim (by rwa [hh.rootSize])
  have hblock := hf.data _ (hh.acct.inData hh.rootTyped (s := (h₀.inode rootino).size / bsize)
    (Nat.lt_trans hdirect (by decide)) (by
      rw [slotAddr, if_pos (Nat.le_of_lt hdirect)]
      exact (hh.toLaid.last_block hh.rootTyped hdirect).mp (by rwa [hh.rootSize])))
  rw [slotAddr, if_pos (Nat.le_of_lt hdirect)] at hblock
  rw [hf.inode_root] at hend ⊢
  rw [hh.rootSize] at hend htrim hblock hdirect
  have hzero : ∀ j, j < direntSize → byteAt h.sect { h₀.inode rootino with size := rounded (h₀.inode rootino).size }
      (direntSize * k + j) = 0 := by
    intro j hj
    have hin : (direntSize * k + j) / bsize = direntSize * (inputs.length + 2) / bsize ∧
        direntSize * (inputs.length + 2) % bsize ≤ (direntSize * k + j) % bsize := by
      simp only [direntSize, rounded, bsize] at *
      omega
    rw [byteAt, hin.1, slotOf, if_pos hdirect, slotAddr, if_pos (Nat.le_of_lt hdirect), hblock]
    exact htrim _ hin.2
  rw [← decode_zeros, direntAt]
  congr 1
  apply List.ext_getElem
  · simp
  · intro j h1 h2
    simpa using hzero j (by simpa using h1)

theorem root_entries (hlt : inputs.length + 2 ≤ ninodeslots)
    (hpart : direntSize * (inputs.length + 2) % bsize ≠ 0) :
    ∃ k, (tree (Fs.ofImage h.sect)).ents rootino =
      (rootEntries inputs).map (fun e => ⟨e.1, strncpy e.2 dirsiz⟩) ++ List.replicate k blankEntry := by
  have hdir : ((Fs.ofImage h.sect).dinode rootino).type = tDir := by
    rw [hf.ofImage_dinode hh.toLaid, hf.type_eq, hh.root]
  have hlen : (rootEntries inputs).length = inputs.length + 2 := by simp [rootEntries]
  have hle := hf.rootSize_le hh
  refine ⟨(h.inode rootino).size / direntSize - (inputs.length + 2), ?_⟩
  rw [tree_ents hdir, hf.ofImage_dinode hh.toLaid]
  apply List.ext_getElem?
  intro i
  change (entries h.sect (h.inode rootino))[i]? = _
  rcases Nat.lt_or_ge i (inputs.length + 2) with hi | hi
  · have hat : (rootEntries inputs)[i]? = some ((rootEntries inputs)[i].1, (rootEntries inputs)[i].2) :=
      List.getElem?_eq_getElem (by rwa [hlen])
    rw [getElem?_entries (by simp only [direntSize] at *; omega), hf.direntAt_root hh hlt hat,
      List.getElem?_append_left (by rwa [List.length_map, hlen]), List.getElem?_map, hat]
    rfl
  · rw [List.getElem?_append_right (by rwa [List.length_map, hlen]), List.length_map, hlen,
      List.getElem?_replicate]
    by_cases hend : i < (h.inode rootino).size / direntSize
    · rw [getElem?_entries hend, if_pos (by omega),
        hf.direntAt_rest hh hlt hpart hi (by simp only [direntSize] at *; omega)]
    · rw [if_neg (by omega), List.getElem?_eq_none (by rw [length_entries]; omega)]

theorem file (hk : inputs[k]? = some i) :
    (h.inode (k + 2)).type = tFile ∧ Dense h.sect (h.inode (k + 2)) (h.inode (k + 2)).size ∧
      contents h.sect (h.inode (k + 2)) (h.inode (k + 2)).size = i.bytes := by
  obtain ⟨hty, htext⟩ := hh.files k i hk
  have htyped : (h₀.inode (k + 2)).type ≠ tFree := by
    rw [hty]
    decide
  rw [hf.inode_other (by simp only [rootino]; omega)]
  refine ⟨hty, (hh.acct.dense _ htyped).grow fun s _ h0 => ?_, ?_⟩
  · rwa [hh.acct.slotAddr_agree hf.data htyped]
  · rw [hh.acct.contents_agree hf.data htyped]
    exact htext

end

end

end Finished

structure NamesApart (inputs : List Input) : Prop where
  distinct : (inputs.map fun i => shortname i.path).Nodup
  dots : ∀ i ∈ inputs, shortname i.path ≠ bytes ['.'] ∧ shortname i.path ≠ bytes ['.', '.']

theorem rootEntries_nodup (hn : NamesApart inputs) (hname : ∀ i ∈ inputs, NameOk i) :
    ((rootEntries inputs).map fun e => nameKey e.2).Nodup := by
  have hkeys : (rootEntries inputs).map (fun e => nameKey e.2) =
      bytes ['.'] :: bytes ['.', '.'] :: inputs.map fun i => shortname i.path := by
    have hfiles : ((inputs.zipIdx 2).map fun x => nameKey (shortname x.1.path)) =
        inputs.map fun i => shortname i.path := by
      apply List.ext_getElem
      · simp
      · intro k h1 h2
        have hk : k < inputs.length := by simpa using h2
        simpa using nameKey_self (no_nul_shortname inputs[k]) (hname _ (List.getElem_mem hk)).2
    simp only [rootEntries, List.map_cons, List.map_map]
    refine congrArg₂ _ (by decide) (congrArg₂ _ (by decide) ?_)
    exact hfiles
  rw [hkeys]
  simp only [List.nodup_cons, List.mem_cons, List.mem_map, not_or]
  refine ⟨⟨by decide, ?_⟩, ?_, hn.distinct⟩
  · rintro ⟨i, hi, he⟩
    exact (hn.dots i hi).1 he
  · rintro ⟨i, hi, he⟩
    exact (hn.dots i hi).2 he

structure NamesOk (inputs : List Input) : Prop extends NamesApart inputs where
  nonempty : ∀ i ∈ inputs, shortname i.path ≠ []
  short : ∀ i ∈ inputs, (shortname i.path).length ≤ dirsiz

theorem NamesOk.ne_before (hn : NamesOk inputs) (hk : inputs[k]? = some i) (hj : j < k + 2)
    (he : (rootEntries inputs)[j]? = some (n, name)) : nameKey (shortname i.path) ≠ nameKey name := by
  have hi := List.mem_of_getElem? hk
  rw [nameKey_self (no_nul_shortname i) (hn.short i hi)]
  match j, he with
  | 0, he =>
    cases he
    exact (hn.dots i hi).1
  | 1, he =>
    cases he
    exact (hn.dots i hi).2
  | j + 2, he =>
    obtain ⟨i', hi', hpair⟩ : ∃ i', inputs[j]? = some i' ∧ (2 + j, shortname i'.path) = (n, name) := by
      simpa [rootEntries] using he
    cases hpair
    rw [nameKey_self (no_nul_shortname i') (hn.short i' (List.mem_of_getElem? hi'))]
    intro hsame
    have := (List.getElem?_inj (l := inputs.map fun i => shortname i.path)
      (by have := (List.getElem?_eq_some_iff.mp hi').1; simpa using this) hn.distinct).mp
      (show _ = (inputs.map fun i => shortname i.path)[k]? by simp [hk, hi', hsame])
    omega

theorem Finished.names (hf : Finished h₀ h) (hh : Holds inputs h₀) (hlt : inputs.length + 2 ≤ ninodeslots)
    (hn : NamesOk inputs) (hk : inputs[k]? = some i) :
    Names h.sect (h.inode rootino) (shortname i.path) (k + 2) (k + 2) := by
  have hat : ∀ j n name, (rootEntries inputs)[j]? = some (n, name) →
      direntAt h.sect (h.inode rootino) j = ⟨n, strncpy name dirsiz⟩ :=
    fun _ _ _ hj => hf.direntAt_root hh hlt hj
  have hlen := (List.getElem?_eq_some_iff.mp hk).1
  refine ⟨?_, ?_, by omega, ?_, ?_⟩
  · exact Nat.le_trans (Nat.mul_le_mul_left _ (by omega)) (hf.rootSize_le hh)
  · rw [hat _ _ _ (rootEntries_file hk)]
  · rw [hat _ _ _ (rootEntries_file hk), namecmp_eq_zero_iff, nameKey_strncpy]
  · intro j hj
    have hin : j < (rootEntries inputs).length := by
      simp only [rootEntries, List.length_cons, List.length_map, List.length_zipIdx]
      omega
    have he : (rootEntries inputs)[j]? = some ((rootEntries inputs)[j].1, (rootEntries inputs)[j].2) :=
      List.getElem?_eq_getElem hin
    right
    rw [hat _ _ _ he, Ne, namecmp_eq_zero_iff, nameKey_strncpy]
    exact hn.ne_before hk hj he

section Lookup

variable {fs : Fs}

theorem take_fresh (fs : Fs) (dev n : Nat) (hno : ∀ e, 0 < (fs.inode e).ref → (fs.inode e).inum ≠ n)
    (hfree : ∃ e, (fs.inode e).ref = 0) (hopen : ∀ e, (fs.inode e).ref = 0 → (fs.inode e).locked = false)
    (ht : (fs.dinode n).type ≠ tFree) :
    ∃ ip fs1, (fs.inode ip).ref = 0 ∧ fs.iget dev n = .ok (ip, fs1) ∧
      fs1.ilock ip = .ok (fs.setInode ip ⟨dev, n, 1, true, true, fs.dinode n⟩) := by
  have hnone : (List.finRange ninode).find? (fun e =>
      decide (0 < (fs.inode e).ref ∧ (fs.inode e).dev = dev ∧ (fs.inode e).inum = n)) = none := by
    rw [List.find?_eq_none]
    intro e _ he
    have := of_decide_eq_true he
    exact hno e this.1 this.2.2
  obtain ⟨ip, hip⟩ : ∃ ip, (List.finRange ninode).find? (fun e => decide ((fs.inode e).ref = 0)) = some ip := by
    rw [← Option.isSome_iff_exists, List.find?_isSome]
    obtain ⟨e, he⟩ := hfree
    exact ⟨e, List.mem_finRange e, decide_eq_true he⟩
  have href : (fs.inode ip).ref = 0 := by simpa using List.find?_some hip
  refine ⟨ip, _, href, by rw [Fs.iget, hnone, hip], ?_⟩
  rw [Fs.ilock]
  simp only [Fs.setInode_inode, update_self, hopen ip href, Fs.setInode_dinode, if_neg ht]
  simp [Fs.setInode]

theorem balloc_unused (h0 : fs.balloc.1 ≠ 0) : fs.used fs.balloc.1 = false := by
  unfold Fs.balloc at h0 ⊢
  split
  · rename_i hnone
    rw [hnone] at h0
    exact absurd rfl h0
  · rename_i b hb
    simpa using List.find?_some hb

end Lookup

theorem ReadDone.bytes {fs : Fs} (hoff : off + len < 2 ^ 32) (htext : fileText fs n = bs)
    (h : ReadDone n off len fs r before after) :
    r = ((bs.drop off).take len).length ∧ after = splice before 0 ((bs.drop off).take len) := by
  have hsize : (fs.dinode n).size = bs.length := by rw [← length_fileText, htext]
  rw [ReadDone, htext, hsize] at h
  by_cases hbeyond : bs.length < off
  · rw [if_pos (.inl hbeyond)] at h
    have hnil : bs.drop off = [] := List.drop_eq_nil_of_le (by omega)
    simpa [hnil] using h
  · rw [if_neg (by omega)] at h
    have htake : (bs.drop off).take (min (off + len) bs.length - off) = (bs.drop off).take len := by
      rw [List.take_eq_take_iff, List.length_drop]
      omega
    rw [htake] at h
    refine ⟨h.1.trans ?_, h.2⟩
    rw [← htake, List.length_take, List.length_drop]
    congr 1
    omega

def InUse (fs : Fs) (b : Nat) : Prop :=
  b < dataStart fs.sb ∨ ∃ n s, (fs.dinode n).type ≠ tFree ∧ s < nslots ∧ slotAddr fs.data (fs.dinode n) s = b

namespace Finished

variable {h₀ h : Host} {inputs : List Input} {i : Input} {k : Nat}

theorem marked (hf : Finished h₀ h) (hh : Holds inputs h₀) (hb : InUse (Fs.ofImage h.sect) b) (h0 : b ≠ 0) :
    (Fs.ofImage h.sect).used b = true := by
  rw [InUse, hf.ofImage_sb hh.toLaid, hf.ofImage_dinode hh.toLaid] at hb
  rcases hb with hb | ⟨n, s, ht, hs, rfl⟩
  · rw [hf.ofImage_used hh.toLaid (Nat.lt_trans hb (by decide))]
    exact hh.acct.cover.reserved b hb
  · rw [hf.type_eq] at ht
    have hslot : slotAddr (Fs.ofImage h.sect).data (h.inode n) s = slotAddr h₀.sect (h₀.inode n) s := by
      rw [← hh.acct.slotAddr_agree hf.data ht]
      by_cases hn : n = rootino
      · rw [hn, hf.inode_root]
        rfl
      · rw [hf.inode_other hn]
        rfl
    rw [hslot] at h0 ⊢
    have hin := hh.acct.inData ht hs h0
    have hmark := hh.acct.cover.owned.used n s hs ht h0
    rw [hf.ofImage_used hh.toLaid hin.2]
    exact hmark

/-- A file of the image is found under its name, and read as it was put there. -/
theorem readNamed (hf : Finished h₀ h) (hh : Holds inputs h₀) (hlt : inputs.length + 2 ≤ ninodeslots)
    (hn : NamesOk inputs) (hk : inputs[k]? = some i) {M : Type} {copyout : M → Nat → List Byte → M × Bool}
    {view : M → Nat → Byte} (mem : M) (hoff : off + n < 2 ^ 32) (hw : Writable copyout view n) :
    ∃ r mem', readNamed copyout (Fs.ofImage h.sect) mem (shortname i.path) off n = .ok (some (r, mem')) ∧
      r = ((i.bytes.drop off).take n).length ∧
      view mem' = splice (view mem) 0 ((i.bytes.drop off).take n) := by
  obtain ⟨hty, hdense, htext⟩ := hf.file hh hk
  have hdin := hf.ofImage_dinode hh.toLaid
  have hroot : (h.inode rootino).type = tDir := (hf.type_eq rootino).trans hh.root
  have hlen := (List.getElem?_eq_some_iff.mp hk).1
  have hnames := hf.names hh hlt hn hk
  have hblank : ∀ e, (Fs.ofImage h.sect).inode e = ⟨0, 0, 0, false, false, .zero⟩ := fun _ => rfl
  have hdata : (Fs.ofImage h.sect).data = h.sect := rfl
  generalize Fs.ofImage h.sect = fs at *
  obtain ⟨dp, fs1, -, hget, hlock⟩ := take_fresh fs rootdev rootino (by simp [hblank])
    ⟨0, by simp [hblank]⟩ (by simp [hblank]) (by rw [hdin, hroot]; decide)
  generalize hfs2 : fs.setInode dp ⟨rootdev, rootino, 1, true, true, fs.dinode rootino⟩ = fs2 at hlock
  have hentry : fs2.inode = update fs.inode dp ⟨rootdev, rootino, 1, true, true, h.inode rootino⟩ := by
    rw [← hfs2, hdin]
    rfl
  have hdata2 : fs2.data = h.sect := by rw [← hfs2, Fs.setInode_data, hdata]
  have hdin2 : fs2.dinode = h.inode := by rw [← hfs2, Fs.setInode_dinode, hdin]
  have hdp : fs2.inode dp = ⟨rootdev, rootino, 1, true, true, h.inode rootino⟩ := by
    rw [hentry, update_self]
  have hother : ∀ e, e ≠ dp → fs2.inode e = ⟨0, 0, 0, false, false, .zero⟩ := by
    intro e he
    rw [hentry, update_of_ne he, hblank]
  have hdense2 : Dense fs2.data (fs2.inode dp).din (direntSize * (k + 2 + 1)) := by
    rw [hdp, hdata2]
    exact (hf.root_dense hh).mono (Nat.mul_le_mul_left _ (by omega))
  have hnames2 : Names fs2.data (fs2.inode dp).din (shortname i.path) (k + 2) (k + 2) := by
    rw [hdp, hdata2]
    exact hnames
  have hfind := dirlookup_names (by rw [hdp]; exact hroot) hdense2 hnames2
  obtain ⟨ip, fs3, -, hget', hlock'⟩ := take_fresh fs2 rootdev (k + 2)
    (by
      intro e hpos
      by_cases he : e = dp
      · rw [he, hdp]
        simp only [rootino]
        omega
      · simp [hother e he] at hpos)
    (by
      by_cases h0 : dp = 0
      · exact ⟨1, by rw [hother 1 (by rw [h0]; decide)]⟩
      · exact ⟨0, by rw [hother 0 (Ne.symm h0)]⟩)
    (by
      intro e href
      by_cases he : e = dp
      · simp [he, hdp] at href
      · rw [hother e he])
    (by rw [hdin2, hty]; decide)
  generalize hfs4 : fs2.setInode ip ⟨rootdev, k + 2, 1, true, true, fs2.dinode (k + 2)⟩ = fs4 at hlock'
  have hdata4 : fs4.data = h.sect := by rw [← hfs4, Fs.setInode_data, hdata2]
  have hdin4 : fs4.dinode = h.inode := by rw [← hfs4, Fs.setInode_dinode, hdin2]
  have hcopy : Copy (k + 2) ip fs4 := by
    refine ⟨by simp [← hfs4], by simp [← hfs4], ?_⟩
    rw [hdin4, hty]
    decide
  have hfile : fileText fs4 (k + 2) = i.bytes := by
    rw [fileText, hdata4, hdin4]
    exact htext
  have hdense4 : Dense fs4.data (fs4.dinode (k + 2)) (fs4.dinode (k + 2)).size := by
    rw [hdata4, hdin4]
    exact hdense
  have hoff32 : off < 2 ^ 32 := by omega
  obtain ⟨r, mem', hread, hdone⟩ := hcopy.readi_done hdense4 hoff32 (by omega) hw mem
  refine ⟨r, mem', ?_, ?_⟩
  · simp only [Mkfs.readNamed, hget, hlock, hfind, hdp, hget', hlock', hread, ok_bind, Except.map]
    rfl
  · exact ReadDone.bytes hoff hfile hdone

end Finished

/-- mkfs and the kernel agree on the format: the kernel finds every input file under its short name
with its bytes, and allocates no block of the image. -/
theorem image_agrees (hn : NamesOk inputs) (hinodes : inputs.length + 1 ≤ ninodes)
    (hblocks : blocksFor inputs ≤ fssize) (hsizes : ∀ i ∈ inputs, i.bytes.length ≤ maxfile * bsize) :
    ((∀ i ∈ inputs, Fs.slash ∉ stripUser i.path) → ∃ h, mkfs inputs = some h) ∧
    ∀ h, mkfs inputs = some h →
      (∀ i ∈ inputs, ∀ (M : Type) (copyout : M → Nat → List Byte → M × Bool) (view : M → Nat → Byte) (mem : M)
        (off n : Nat), off + n < 2 ^ 32 → Writable copyout view n → ∃ r mem',
          readNamed copyout (Fs.ofImage h.sect) mem (shortname i.path) off n = .ok (some (r, mem')) ∧
          r = ((i.bytes.drop off).take n).length ∧
          view mem' = splice (view mem) 0 ((i.bytes.drop off).take n)) ∧
      ∀ fs : Fs, (∀ b, (Fs.ofImage h.sect).used b = true → fs.used b = true) → fs.balloc.1 ≠ 0 →
        ¬ InUse (Fs.ofImage h.sect) fs.balloc.1 := by
  have hlt : inputs.length + 2 ≤ ninodeslots := Nat.le_trans (Nat.succ_le_succ hinodes) (by decide)
  constructor
  · intro hslash
    exact mkfs_succeeds hlt (fun i hi => ⟨hslash i hi, hn.short i hi⟩) hsizes hblocks
  · intro h hr
    obtain ⟨h₀, hh, hf⟩ := mkfs_finished hlt hr
    constructor
    · intro i hi M copyout view mem off n hoff hw
      obtain ⟨k, hk⟩ := List.getElem?_of_mem hi
      exact hf.readNamed hh hlt hn hk mem hoff hw
    · intro fs hmarks h0 huse
      have hmark := hmarks _ (hf.marked hh huse h0)
      rw [balloc_unused h0] at hmark
      cases hmark

def readFrom (h : Host) (name : List Byte) (off n : Nat) : Kern (Option (Int × (Nat → Byte))) :=
  readNamed (fun buf t bs => (splice buf t bs, true)) (Fs.ofImage h.sect) (fun _ => 0) name off n

/-- The kernel reads the small file whole, and the end of the large one through its indirect block. -/
theorem image_agrees_twoFiles : ∃ h, mkfs twoFiles = some h ∧
    (∃ r buf, readFrom h (bytes ['c', 'a', 't']) 0 10 = .ok (some (r, buf)) ∧ r = 3 ∧
      buf = splice (fun _ => 0) 0 [1, 2, 3]) ∧
    ∃ r buf, readFrom h (bytes ['R', 'E', 'A', 'D', 'M', 'E']) (13 * bsize - 1) 10 = .ok (some (r, buf)) ∧ r = 3 ∧
      buf = splice (fun _ => 0) 0 [7, 8, 9] := by
  have hn : NamesOk twoFiles := by
    refine ⟨⟨by decide, ?_⟩, ?_, ?_⟩ <;> simp only [twoFiles, List.forall_mem_cons] <;>
      exact ⟨by decide, by decide, List.forall_mem_nil _⟩
  have hagree := image_agrees hn (by decide) twoFiles_fit.2 twoFiles_fit.1
  obtain ⟨h, hr⟩ := hagree.1 (by simp only [twoFiles, List.forall_mem_cons]; exact ⟨by decide, by decide, List.forall_mem_nil _⟩)
  have hreads := fun i hi => (hagree.2 h hr).1 i hi (Nat → Byte) (fun buf t bs => (splice buf t bs, true)) id (fun _ => 0)
  refine ⟨h, hr, hreads catFile (by simp [twoFiles]) 0 10 (by decide) fun _ _ _ _ => ⟨rfl, rfl⟩, ?_⟩
  have hend : (readmeFile.bytes.drop (13 * bsize - 1)).take 10 = [7, 8, 9] := by
    rw [Input.bytes, readmeFile, fullReads_flatten, List.drop_append_of_le_length (by rw [List.length_replicate]; omega), List.drop_replicate]
    rfl
  have hread := hreads readmeFile (by simp [twoFiles]) (13 * bsize - 1) 10 (by decide) fun _ _ _ _ => ⟨rfl, rfl⟩
  rw [hend] at hread
  exact hread

end Xv6Filter.Mkfs
