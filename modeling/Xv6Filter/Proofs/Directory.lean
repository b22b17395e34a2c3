import Xv6Filter.Proofs.InodeOps
import Xv6Filter.Proofs.Lookup

namespace Xv6Filter.Proofs
open Lib

def entries (data : Nat → Block) (d : Dinode) : List Fs.Dirent :=
  (List.range (d.size / direntSize)).map (direntAt data d)

/-- The directory tree on disk: types, link counts and the entries of the directories.
A free inode has no links here, whatever its block still holds. -/
structure Tree where
  kind : Nat → Short
  nlink : Nat → Short
  ents : Nat → List Fs.Dirent

def tree (fs : Fs) : Tree where
  kind n := (fs.dinode n).type
  nlink n := if (fs.dinode n).type = tFree then 0 else (fs.dinode n).nlink
  ents n := if (fs.dinode n).type = tDir then entries fs.data (fs.dinode n) else []

def Tree.setEnts (t : Tree) (d : Nat) (es : List Fs.Dirent) : Tree :=
  { t with ents := Function.update t.ents d es }

def Matches (name : List Byte) (de : Fs.Dirent) : Prop := de.inum ≠ 0 ∧ namecmp name de.name = 0

instance (name : List Byte) (de : Fs.Dirent) : Decidable (Matches name de) :=
  inferInstanceAs (Decidable (_ ∧ _))

structure FirstAt (name : List Byte) (es : List Fs.Dirent) (i : Nat) (de : Fs.Dirent) : Prop where
  here : es[i]? = some de
  found : Matches name de
  first : ∀ j x, j < i → es[j]? = some x → ¬ Matches name x

theorem FirstAt.mem (h : FirstAt name es i de) : de ∈ es := List.mem_of_getElem? h.here

def putAt (es : List Fs.Dirent) (i : Nat) (de : Fs.Dirent) : List Fs.Dirent :=
  if i < es.length then es.set i de else es ++ [de]

def firstFree (es : List Fs.Dirent) : Nat := es.findIdx fun de => decide (de.inum = 0)

theorem tree_sameDisk {fs fs' : Fs} (h : SameDisk fs fs') : tree fs' = tree fs := by
  unfold tree
  rw [h.dinode, h.data]

@[simp] theorem length_entries (data : Nat → Block) (d : Dinode) :
    (entries data d).length = d.size / direntSize := by simp [entries]

theorem getElem?_entries {data : Nat → Block} {d : Dinode} (h : i < d.size / direntSize) :
    (entries data d)[i]? = some (direntAt data d i) := by simp [entries, h]

theorem direntAt_inum_lt (data : Nat → Block) (d : Dinode) (i : Nat) : (direntAt data d i).inum < 2 ^ 16 := by
  unfold direntAt Fs.Dirent.decode
  dsimp only
  have h1 := UInt8.toNat_lt (((List.range direntSize).map fun j => byteAt data d (direntSize * i + j)).getD 0 0)
  have h2 := UInt8.toNat_lt (((List.range direntSize).map fun j => byteAt data d (direntSize * i + j)).getD 1 0)
  omega

theorem direntAt_congr {data data' : Nat → Block} {d d' : Dinode}
    (h : ∀ j, j < direntSize → byteAt data' d' (direntSize * i + j) = byteAt data d (direntSize * i + j)) :
    direntAt data' d' i = direntAt data d i := by
  unfold direntAt
  congr 1
  apply List.map_congr_left
  intro j hj
  exact h j (List.mem_range.mp hj)

theorem entries_congr {data data' : Nat → Block} {d d' : Dinode} (hs : d'.size = d.size)
    (h : ∀ i, i < d.size → byteAt data' d' i = byteAt data d i) : entries data' d' = entries data d := by
  unfold entries
  rw [hs]
  apply List.map_congr_left
  intro i hi
  have hlt := List.mem_range.mp hi
  apply direntAt_congr
  intro j hj
  apply h
  simp only [direntSize] at hlt hj ⊢
  omega

theorem tree_congr {fs fs' : Fs} (hk : ∀ n, (fs'.dinode n).type = (fs.dinode n).type)
    (hl : ∀ n, (fs'.dinode n).nlink = (fs.dinode n).nlink)
    (he : ∀ n, (fs.dinode n).type = tDir →
      entries fs'.data (fs'.dinode n) = entries fs.data (fs.dinode n)) : tree fs' = tree fs := by
  unfold tree
  congr 1
  · exact funext hk
  · funext n
    rw [hk n, hl n]
  · funext n
    rw [hk n]
    split
    · rename_i hd
      exact he n hd
    · rfl

/-- The search of a directory finds the first entry in use for the name, or there is none. -/
theorem find_first (name : List Byte) (es : List Fs.Dirent) :
    (∀ de ∈ es, ¬ Matches name de) ∨ ∃ i de, FirstAt name es i de := by
  cases hf : es.findIdx? (fun de => decide (Matches name de)) with
  | none =>
    left
    intro de hde
    simpa using List.findIdx?_eq_none_iff.mp hf de hde
  | some i =>
    right
    obtain ⟨hlt, hp, hb⟩ := List.findIdx?_eq_some_iff_getElem.mp hf
    refine ⟨i, es[i], by simp [hlt], by simpa using hp, ?_⟩
    intro j x hj hx
    obtain ⟨hjl, rfl⟩ := List.getElem?_eq_some_iff.mp hx
    simpa using hb j hj

section Search

variable {fs : Fs} {dp : Ip}

theorem dirlookupLoop_absent {left : Nat} (hd : Dense fs.data (fs.inode dp).din (fs.inode dp).din.size)
    (hno : ∀ de ∈ entries fs.data (fs.inode dp).din, ¬ Matches name de)
    (hl : direntSize * (j + left) ≤ (fs.inode dp).din.size) :
    Fs.dirlookupLoop dp name left (direntSize * j) fs = .ok (none, fs) := by
  induction left generalizing j with
  | zero => rfl
  | succ left ih =>
    have hin : direntSize * (j + 1) ≤ (fs.inode dp).din.size :=
      Nat.le_trans (Nat.mul_le_mul_left _ (by omega)) hl
    have hmem : direntAt fs.data (fs.inode dp).din j ∈ entries fs.data (fs.inode dp).din := by
      apply List.mem_map_of_mem
      rw [List.mem_range]
      simp only [direntSize] at hin ⊢
      omega
    have hne : ¬ ((direntAt fs.data (fs.inode dp).din j).inum ≠ 0 ∧
        namecmp name (direntAt fs.data (fs.inode dp).din j).name = 0) := hno _ hmem
    rw [Fs.dirlookupLoop, readDirent_eq (hd.mono hin) hin]
    dsimp only
    rw [if_neg hne, ← Nat.mul_succ]
    exact ih (by rw [Nat.succ_add_eq_add_succ]; exact hl)

theorem freeEntry_eq (hd : Dense fs.data (fs.inode dp).din (fs.inode dp).din.size)
    (hl : direntSize * (j + l) ≤ (fs.inode dp).din.size)
    (hend : j + l = (entries fs.data (fs.inode dp).din).length) :
    Fs.freeEntry dp l (direntSize * j) fs =
      .ok (direntSize * (j + firstFree ((entries fs.data (fs.inode dp).din).drop j)), fs) := by
  induction l generalizing j with
  | zero =>
    rw [List.drop_of_length_le (by omega)]
    rfl
  | succ l ih =>
    have hin : direntSize * (j + 1) ≤ (fs.inode dp).din.size :=
      Nat.le_trans (Nat.mul_le_mul_left _ (by omega)) hl
    have hlt : j < (entries fs.data (fs.inode dp).din).length := by omega
    have hat : (entries fs.data (fs.inode dp).din)[j] = direntAt fs.data (fs.inode dp).din j := by
      simp [entries]
    rw [Fs.freeEntry, readDirent_eq (hd.mono hin) hin, List.drop_eq_getElem_cons hlt, hat]
    dsimp only
    split
    · rename_i hz
      simp [firstFree, List.findIdx_cons, hz]
    · rename_i hz
      have := ih (j := j + 1) (by rw [Nat.succ_add_eq_add_succ]; exact hl) (by omega)
      rw [Nat.mul_succ] at this
      rw [this]
      simp [firstFree, List.findIdx_cons, hz, Nat.add_assoc, Nat.add_comm 1]

theorem isdiremptyLoop_eq {left : Nat} (hd : Dense fs.data (fs.inode dp).din (fs.inode dp).din.size)
    (hl : direntSize * (j + left) ≤ (fs.inode dp).din.size)
    (hend : j + left = (entries fs.data (fs.inode dp).din).length) :
    Fs.isdiremptyLoop dp left (direntSize * j) fs =
      .ok (((entries fs.data (fs.inode dp).din).drop j).all fun de => decide (de.inum = 0), fs) := by
  induction left generalizing j with
  | zero =>
    rw [List.drop_of_length_le (by omega)]
    rfl
  | succ left ih =>
    have hin : direntSize * (j + 1) ≤ (fs.inode dp).din.size :=
      Nat.le_trans (Nat.mul_le_mul_left _ (by omega)) hl
    have hlt : j < (entries fs.data (fs.inode dp).din).length := by omega
    have hat : (entries fs.data (fs.inode dp).din)[j] = direntAt fs.data (fs.inode dp).din j := by
      simp [entries]
    rw [Fs.isdiremptyLoop, readDirent_eq (hd.mono hin) hin, List.drop_eq_getElem_cons hlt, List.all_cons, hat]
    dsimp only
    split
    · rename_i hz
      simp [hz]
    · rename_i hz
      have hz : (direntAt fs.data (fs.inode dp).din j).inum = 0 := by simpa using hz
      have := ih (j := j + 1) (by rw [Nat.succ_add_eq_add_succ]; exact hl) (by omega)
      rw [Nat.mul_succ] at this
      rw [this, hz]
      simp

end Search

theorem length_strncpy (t : List Byte) (n : Nat) : (strncpy t n).length = n := by
  simp only [strncpy, List.length_append, List.length_take, List.length_replicate]
  omega

theorem decode_encode (hn : n < 2 ^ 16) (xs : List Byte) :
    Fs.Dirent.decode (Fs.Dirent.encode ⟨n, xs⟩) = ⟨n, xs⟩ := by
  simp only [Fs.Dirent.decode, Fs.Dirent.encode, List.getD_cons_zero, List.getD_cons_succ, List.drop_succ_cons,
    List.drop_zero, UInt8.toNat_ofNat']
  congr 1
  omega

theorem tree_ents {fs : Fs} (h : (fs.dinode d).type = tDir) :
    (tree fs).ents d = entries fs.data (fs.dinode d) := if_pos h

theorem tree_inum_lt {fs : Fs} (h : de ∈ (tree fs).ents d) : de.inum < 2 ^ 16 := by
  by_cases hdir : (fs.dinode d).type = tDir
  · rw [tree_ents hdir] at h
    obtain ⟨i, -, rfl⟩ := List.mem_map.mp h
    exact direntAt_inum_lt _ _ _
  · have hnone : (tree fs).ents d = [] := if_neg hdir
    rw [hnone] at h
    cases h

/-- A loop over the entries of an aligned directory has one turn for each. -/
theorem entryCount_eq (data : Nat → Block) {d : Dinode} (h : d.size % direntSize = 0) :
    Fs.entryCount d.size = (entries data d).length ∧
      direntSize * (entries data d).length = d.size := by
  simp only [Fs.entryCount, length_entries, direntSize] at h ⊢
  omega

namespace Busy

variable {fs0 fs fs' : Fs} {hs : List Taken} {dp : Ip} {d : Nat}

section

variable (h : Busy fs0 (⟨dp, d, true⟩ :: hs) fs)

include h

theorem dense_copy : Dense fs.data (fs.inode dp).din (fs.inode dp).din.size :=
  (h.copy.working h.sane.acct).dense

theorem dirlookup_absent (hdir : (fs.dinode d).type = tDir)
    (hno : ∀ de ∈ (tree fs).ents d, ¬ Matches name de) : fs.dirlookup dp name = .ok (none, fs) := by
  have hcopy := h.copy
  rw [tree_ents hdir, ← hcopy.same] at hno
  obtain ⟨hcount, hsize⟩ := entryCount_eq fs.data (d := (fs.inode dp).din)
    (by rw [hcopy.same]; exact h.sane.aligned d hdir)
  rw [Fs.dirlookup, if_neg (by simp [hcopy.same, hdir]), hcount]
  exact dirlookupLoop_absent (j := 0) h.dense_copy hno (by rw [Nat.zero_add, hsize])

/-- `dirlookup` of a name with an entry takes the inode of the first one. -/
theorem dirlookup_first (hdir : (fs.dinode d).type = tDir) (hf : FirstAt name ((tree fs).ents d) i de) :
    fs.dirlookup dp name = (fs.iget rootdev de.inum).map fun r => (some (r.1, direntSize * i), r.2) := by
  have hcopy := h.copy
  rw [tree_ents hdir, ← hcopy.same] at hf
  have hlt : i < (fs.inode dp).din.size / direntSize := by
    have := (List.getElem?_eq_some_iff.mp hf.here).1
    rwa [length_entries] at this
  have hde : de = direntAt fs.data (fs.inode dp).din i := by
    have := hf.here
    rw [getElem?_entries hlt] at this
    exact (Option.some.inj this).symm
  have hn : Names fs.data (fs.inode dp).din name de.inum i := by
    refine ⟨?_, hde ▸ rfl, hf.found.1, hde ▸ hf.found.2, ?_⟩
    · simp only [direntSize] at hlt ⊢
      omega
    · intro j hj
      have := hf.first j _ hj (getElem?_entries (by omega))
      by_contra hboth
      rw [not_or, not_not] at hboth
      exact this hboth
  rw [dirlookup_names (by rw [hcopy.same]; exact hdir) (h.dense_copy.mono hn.inside) hn, h.sane.dev dp h.ref_pos]

/-- `dirlookup` gives the inode of the first entry in use for the name. -/
theorem dirlookup (name : List Byte) :
    Post (fs.dirlookup dp name) (Tight fs0 (hs.length + 1)) fun r => (fs.dinode d).type = tDir ∧
      ((r = (none, fs) ∧ ∀ de ∈ (tree fs).ents d, ¬ Matches name de) ∨
      ∃ ip i de, r.1 = some (ip, direntSize * i) ∧ FirstAt name ((tree fs).ents d) i de ∧
        Busy fs0 (⟨ip, de.inum, false⟩ :: ⟨dp, d, true⟩ :: hs) r.2 ∧ SameDisk fs r.2) := by
  by_cases hdir : (fs.dinode d).type = tDir
  · rcases find_first name ((tree fs).ents d) with hno | ⟨i, de, hf⟩
    · rw [h.dirlookup_absent hdir hno]
      exact ⟨hdir, .inl ⟨rfl, hno⟩⟩
    · rw [h.dirlookup_first hdir hf]
      have hget := h.iget (n := de.inum) (tree_inum_lt hf.mem)
      cases hg : fs.iget rootdev de.inum with
      | error e =>
        rw [hg] at hget
        exact hget
      | ok r =>
        rw [hg] at hget
        exact ⟨hdir, .inr ⟨r.1, i, de, rfl, hf, hget.1, hget.2⟩⟩
  · rw [Fs.dirlookup, if_pos (by rw [h.copy.same]; exact hdir)]
    exact .inl (by simp [Plain])

/-- `isdirempty` looks at the entries after the first two and changes nothing. -/
theorem isdirempty (hdir : (fs.dinode d).type = tDir) :
    fs.isdirempty dp = .ok ((((tree fs).ents d).drop 2).all fun de => decide (de.inum = 0), fs) := by
  have hcopy := h.copy
  rw [tree_ents hdir, ← hcopy.same]
  obtain ⟨hcount, hsize⟩ := entryCount_eq fs.data (d := (fs.inode dp).din)
    (by rw [hcopy.same]; exact h.sane.aligned d hdir)
  have hleft : Fs.entryCount ((fs.inode dp).din.size - 2 * direntSize) =
      (entries fs.data (fs.inode dp).din).length - 2 := by
    simp only [Fs.entryCount, direntSize] at hsize ⊢
    omega
  rw [Fs.isdirempty, hleft]
  by_cases htwo : 2 ≤ (entries fs.data (fs.inode dp).din).length
  · exact isdiremptyLoop_eq (j := 2) h.dense_copy (by rw [Nat.add_sub_cancel' htwo, hsize])
      (Nat.add_sub_cancel' htwo)
  · rw [Nat.sub_eq_zero_of_le (by omega), List.drop_of_length_le (by omega)]
    rfl

end

end Busy

namespace Stored

variable {fs fs' : Fs} {ip : Ip} {n off k stop : Nat} {f : Nat → Byte}

section

variable (h : Stored n ip f off k stop fs fs')

include h

theorem entries_other (hm : m ≠ n) (ht : (fs.dinode m).type = tDir) :
    entries fs'.data (fs'.dinode m) = entries fs.data (fs.dinode m) := by
  apply entries_congr
  · rw [h.dinode m hm]
  · exact fun i hi => h.other m i hm (by rw [ht]; decide) hi

theorem kind_eq (m : Nat) : (fs'.dinode m).type = (fs.dinode m).type := by
  by_cases hm : m = n
  · rw [hm, h.shape]
  · rw [h.dinode m hm]

theorem nlink_eq (m : Nat) : (fs'.dinode m).nlink = (fs.dinode m).nlink := by
  by_cases hm : m = n
  · rw [hm, h.shape]
  · rw [h.dinode m hm]

theorem tree_eq (hn : (fs.dinode n).type = tDir → entries fs'.data (fs'.dinode n) = entries fs.data (fs.dinode n)) :
    tree fs' = tree fs := by
  refine tree_congr h.kind_eq h.nlink_eq ?_
  intro m ht
  by_cases hm : m = n
  · subst hm
    exact hn ht
  · exact h.entries_other hm ht

theorem tree_setEnts (hn : (fs.dinode n).type = tDir) :
    tree fs' = (tree fs).setEnts n (entries fs'.data (fs'.dinode n)) := by
  unfold tree Tree.setEnts
  congr 1
  · exact funext h.kind_eq
  · funext m
    rw [h.kind_eq m, h.nlink_eq m]
  · funext m
    rw [h.kind_eq m]
    by_cases hm : m = n
    · subst hm
      simp [hn]
    · rw [Function.update_of_ne hm]
      dsimp only
      split
      · rename_i ht
        exact h.entries_other hm ht
      · rfl

end

theorem entries_none (h : Stored n ip f off 0 off fs fs') (hoff : off ≤ (fs.dinode n).size) :
    entries fs'.data (fs'.dinode n) = entries fs.data (fs.dinode n) := by
  apply entries_congr
  · rw [h.shape]
    exact Nat.max_eq_left hoff
  · intro i hi
    rw [h.old i hi, if_neg (by omega)]

theorem entries_put (h : Stored n ip f off direntSize (off + direntSize) fs fs')
    (hoff : off = direntSize * i) (hal : (fs.dinode n).size % direntSize = 0)
    (hi : i ≤ (entries fs.data (fs.dinode n)).length) (hlen : bs.length = direntSize)
    (hf : ∀ j, j < direntSize → f (off + j) = bs.getD j 0) :
    entries fs'.data (fs'.dinode n) = putAt (entries fs.data (fs.dinode n)) i (Fs.Dirent.decode bs) := by
  subst hoff
  have hsize : (fs'.dinode n).size = max (fs.dinode n).size (direntSize * i + direntSize) := by
    rw [h.shape]
  have hnew : direntAt fs'.data (fs'.dinode n) i = Fs.Dirent.decode bs := by
    unfold direntAt
    congr 1
    apply List.ext_getElem
    · simp [hlen]
    · intro j h1 h2
      have hj : j < direntSize := by simpa using h1
      rw [List.getElem_map, List.getElem_range, h.new _ (by omega) (by omega), hf j hj]
      simp [h2]
  have hold : ∀ j, j < (fs.dinode n).size / direntSize → j ≠ i →
      direntAt fs'.data (fs'.dinode n) j = direntAt fs.data (fs.dinode n) j := by
    intro j hj hji
    apply direntAt_congr
    intro b hb
    simp only [direntSize] at hj hb
    rw [h.old _ (by simp only [direntSize]; omega), if_neg]
    simp only [direntSize]
    omega
  rw [length_entries] at hi
  apply List.ext_getElem?
  intro j
  unfold putAt
  rw [length_entries]
  by_cases hlt : i < (fs.dinode n).size / direntSize
  · rw [if_pos hlt]
    have hsame : (fs'.dinode n).size / direntSize = (fs.dinode n).size / direntSize := by
      simp only [direntSize] at hsize hlt ⊢
      omega
    by_cases hj : j < (fs.dinode n).size / direntSize
    · rw [getElem?_entries (hsame ▸ hj)]
      by_cases hji : j = i
      · subst hji
        rw [hnew, List.getElem?_set_self (by simpa using hj)]
      · rw [hold j hj hji, List.getElem?_set_ne (Ne.symm hji), getElem?_entries hj]
    · rw [List.getElem?_eq_none (by simp only [length_entries]; omega),
        List.getElem?_eq_none (by simp only [List.length_set, length_entries]; omega)]
  · rw [if_neg hlt]
    have hil : i = (fs.dinode n).size / direntSize := by omega
    have hsucc : (fs'.dinode n).size / direntSize = (fs.dinode n).size / direntSize + 1 := by
      simp only [direntSize] at hsize hil hal ⊢
      omega
    rcases Nat.lt_trichotomy j i with hj | rfl | hj
    · rw [getElem?_entries (by omega), hold j (by omega) (by omega),
        List.getElem?_append_left (by simp only [length_entries]; omega), getElem?_entries (by omega)]
    · rw [getElem?_entries (by omega), hnew, List.getElem?_append_right (by simp only [length_entries]; omega)]
      simp [hil]
    · rw [List.getElem?_eq_none (by simp only [length_entries]; omega), List.getElem?_eq_none
        (by simp only [List.length_append, length_entries, List.length_singleton]; omega)]

end Stored

/-- No entry can be written at `off` of directory `d`: the directory would be too large, or
the block is not there and no block is free. -/
def NoRoom (d off : Nat) (fs : Fs) : Prop :=
  maxfile * bsize < off + direntSize ∨ OutOfBlocks (fs.dinode d) off fs

/-- Space is exhausted: the directory would be too large, or fewer blocks are free than it needs
for an entry at `off`. -/
def Exhausted (d off : Nat) (fs : Fs) : Prop :=
  maxfile * bsize < off + direntSize ∨
    freeBlocks fs < need fs.data (fs.dinode d) (placesFor (off + direntSize))

theorem OutOfBlocks.need_pos {fs : Fs} {d : Dinode} (h : OutOfBlocks d off fs) :
    0 < need fs.data d (placesFor (off + direntSize)) := by
  refine Proofs.need_pos (slotOf_lt_placesFor ?_) h.1
  have := Nat.div_mul_le_self off bsize
  simp only [direntSize]
  omega

/-- What writing an entry at `off` of directory `d` takes, and what is left when it fails. -/
structure Entered (d off : Nat) (ok : Bool) (fs fs' : Fs) : Prop where
  fits : ok = false ↔ Exhausted d off fs
  room : ok = true → ¬ NoRoom d off fs
  other : ok = false → ∀ m, m ≠ d → fs'.dinode m = fs.dinode m
  text : ok = false → ∀ m, (fs.dinode m).type ≠ tFree → fileText fs' m = fileText fs m
  kept : ok = false → (fs'.dinode d = fs.dinode d ↔ NoRoom d off fs)

namespace Entered

variable {fs fs' : Fs} {ip : Ip} {d off : Nat} {f : Nat → Byte}

theorem refused (hbig : maxfile * bsize < off + direntSize) : Entered d off false fs fs :=
  ⟨⟨fun _ => .inl hbig, fun _ => rfl⟩, nofun, fun _ _ _ => rfl, fun _ _ _ => rfl,
    fun _ => ⟨fun _ => .inl hbig, fun _ => rfl⟩⟩

theorem short (h : Stored d ip f off 0 (off + 0) fs fs') (hoff : off ≤ (fs.dinode d).size)
    (hmax : off + direntSize ≤ maxfile * bsize)
    (hout : OutOfBlocks (fs'.dinode d) (off + 0) fs' ∧
      (0 = 0 → fs'.dinode d = fs.dinode d ∧ fs'.data = fs.data ∧ freeBlocks fs = 0 ∨
        0 < freeBlocks fs ∧ (fs.dinode d).addrs ndirect = 0 ∧ (fs'.dinode d).addrs ndirect ≠ 0))
    (hcount : freeBlocks fs' + need fs.data (fs.dinode d) (placesFor (off + direntSize)) =
      freeBlocks fs + need fs'.data (fs'.dinode d) (placesFor (off + direntSize))) :
    Entered d off false fs fs' := by
  refine ⟨⟨fun _ => .inr ?_, fun _ => rfl⟩, nofun, fun _ => h.dinode, ?_, ?_⟩
  · have hmiss := hout.1.need_pos
    have hfull := hout.1.2
    rw [Nat.add_zero] at hmiss
    omega
  · intro _ m ht
    by_cases hm : m = d
    · subst hm
      rw [h.fileText_eq hoff]
      simp [slice]
    · exact h.fileText_other hm ht
  · intro _
    rcases hout.2 rfl with ⟨hsame, hdata, hfull⟩ | ⟨hpos, hz, hnz⟩
    · have hmiss := hout.1.1
      rw [hsame, hdata] at hmiss
      exact ⟨fun _ => .inr ⟨hmiss, hfull⟩, fun _ => hsame⟩
    · constructor
      · intro hsame
        rw [hsame] at hnz
        exact absurd hz hnz
      · rintro (hbig | ⟨-, hfull⟩)
        · omega
        · omega

theorem done (h : Stored d ip f off direntSize (off + direntSize) fs fs') (ht : (fs.dinode d).type ≠ tFree)
    (hmax : off + direntSize ≤ maxfile * bsize)
    (hcount : freeBlocks fs' + need fs.data (fs.dinode d) (placesFor (off + direntSize)) =
      freeBlocks fs + need fs'.data (fs'.dinode d) (placesFor (off + direntSize))) :
    Entered d off true fs fs' := by
  have hdense : Dense fs'.data (fs'.dinode d) (off + direntSize) := by
    refine (h.acct.dense d (by rw [h.shape]; exact ht)).mono ?_
    rw [h.shape]
    exact Nat.le_max_right ..
  rw [need_of_dense hdense] at hcount
  refine ⟨⟨nofun, ?_⟩, ?_, nofun, nofun, nofun⟩
  · rintro (hbig | hlack) <;> omega
  · rintro - (hbig | hout)
    · omega
    · have hplace := hout.need_pos
      have hfull := hout.2
      omega

end Entered

namespace Busy

variable {fs0 fs fs' : Fs} {hs : List Taken} {dp : Ip} {d : Nat}

section

variable (h : Busy fs0 (⟨dp, d, true⟩ :: hs) fs)

include h

/-- Writing one entry of a directory does it or, on a full disk, leaves the tree. -/
theorem writeEntry (hdir : (fs.dinode d).type = tDir)
    (hlen : bs.length = direntSize) (hi : i ≤ ((tree fs).ents d).length) :
    ∃ r fs', fs.writeiKernel dp bs (direntSize * i) = .ok (r, fs') ∧
      Busy fs0 (⟨dp, d, true⟩ :: hs) fs' ∧ Logs {fs.iblock d} 2 fs fs' ∧
      Entered d (direntSize * i) (decide (r = (direntSize : Int))) fs fs' ∧
      (r = (direntSize : Int) ∧
          tree fs' = (tree fs).setEnts d (putAt ((tree fs).ents d) i (Fs.Dirent.decode bs)) ∨
        r ≠ (direntSize : Int) ∧ tree fs' = tree fs) := by
  have hal := h.sane.aligned d hdir
  rw [tree_ents hdir] at hi ⊢
  unfold Fs.writeiKernel
  rcases h.copy.writei h.sane.acct (copies_kernel bs) (by rw [hlen]; decide) () (direntSize * i) with
    ⟨hrun, hwhy⟩ | ⟨k, stop, _, fs', hrun, hle, hend, hoff, hmax, hst, hclean, hlogs, hcount, hfull⟩
  · rw [hrun]
    have hbig : maxfile * bsize < direntSize * i + direntSize := by
      rw [length_entries] at hi
      rw [hlen] at hwhy
      simp only [direntSize] at hal hi hwhy ⊢
      omega
    exact ⟨-1, fs, rfl, h, .refl _ _ _, .refused hbig, .inr ⟨by decide, rfl⟩⟩
  · obtain rfl := hclean (.inr fun _ _ _ _ => rfl)
    rw [hrun]
    have hone : spanned (direntSize * i) bs.length ≤ 1 := by
      rw [hlen]
      simp only [spanned, direntSize, bsize]
      split <;> omega
    have hcases : k = 0 ∨ k = direntSize := by
      rw [hlen] at hle hend
      simp only [direntSize, bsize] at hle hend ⊢
      omega
    refine ⟨k, fs', rfl, h.stored hst hlogs.sb ?_, hlogs.mono (Finset.Subset.refl _) (by omega), ?_, ?_⟩
    · intro _
      rcases hcases with rfl | rfl <;> simp only [direntSize] at hal hoff ⊢ <;> omega
    · rw [hlen] at hmax hcount hfull
      rcases hcases with rfl | rfl
      · exact .short hst hoff hmax (hfull (fun _ _ _ _ => rfl) (by decide))
          (hcount _ (Nat.le_refl _) (placesFor_le hmax))
      · exact .done hst h.copy.typed hmax (hcount _ (Nat.le_refl _) (placesFor_le hmax))
    · rcases hcases with rfl | rfl
      · exact .inr ⟨by decide, hst.tree_eq fun _ => hst.entries_none hoff⟩
      · refine .inl ⟨rfl, ?_⟩
        rw [hst.tree_setEnts hdir, hst.entries_put rfl hal hi hlen]
        intro j _
        rw [Nat.add_sub_cancel_left]

/-- `dirlink` of a name that is not there writes a new entry, or leaves the tree when no block is
left. -/
theorem dirlink_new (hn : n < 2 ^ 16) (hdir : (fs.dinode d).type = tDir)
    (hno : ∀ de ∈ (tree fs).ents d, ¬ Matches name de) :
    ∃ ok fs', fs.dirlink dp name n = .ok (ok, fs') ∧ Busy fs0 (⟨dp, d, true⟩ :: hs) fs' ∧
      Logs {fs.iblock d} 2 fs fs' ∧ Entered d (direntSize * firstFree ((tree fs).ents d)) ok fs fs' ∧
      (ok = false ∧ tree fs' = tree fs ∨
        ok = true ∧ tree fs' = (tree fs).setEnts d (putAt ((tree fs).ents d) (firstFree ((tree fs).ents d))
          ⟨n, strncpy name dirsiz⟩)) := by
  have hcopy := h.copy
  obtain ⟨hcount, hsize⟩ := entryCount_eq fs.data (d := (fs.inode dp).din)
    (by rw [hcopy.same]; exact h.sane.aligned d hdir)
  have hfree := freeEntry_eq (j := 0) (l := Fs.entryCount (fs.inode dp).din.size) h.dense_copy
    (by rw [Nat.zero_add, hcount, hsize]) (by rw [Nat.zero_add, hcount])
  rw [Nat.zero_add, List.drop_zero, hcopy.same, ← tree_ents hdir] at hfree
  have hlen : (Fs.Dirent.encode ⟨n, strncpy name dirsiz⟩).length = direntSize := by
    simp [Fs.Dirent.encode, length_strncpy]
  obtain ⟨r, fs', hrun, hb, hlogs, hent, hres⟩ := h.writeEntry hdir hlen (i := firstFree ((tree fs).ents d))
    List.findIdx_le_length
  rw [decode_encode hn] at hres
  refine ⟨decide (r = (direntSize : Int)), fs', ?_, hb, hlogs, hent, ?_⟩
  · rw [Fs.dirlink, h.dirlookup_absent hdir hno]
    simp only [bind, Except.bind, Nat.mul_zero, hcopy.same] at hfree ⊢
    rw [hfree]
    dsimp only
    rw [hrun]
    rfl
  · rcases hres with ⟨hr, ht⟩ | ⟨hr, ht⟩
    · exact .inr ⟨by simpa using hr, ht⟩
    · exact .inl ⟨by simpa using hr, ht⟩

/-- `dirlink` writes a new entry, or leaves the tree when the name is there or no block is. -/
theorem dirlink (hn : n < 2 ^ 16) (name : List Byte) :
    Post (fs.dirlink dp name n) (Tight fs0 (hs.length + 1)) fun r =>
      Busy fs0 (⟨dp, d, true⟩ :: hs) r.2 ∧ Logs {fs.iblock d} 2 fs r.2 ∧
      ((fs.dinode d).type = tDir ∧ ((∀ de ∈ (tree fs).ents d, ¬ Matches name de) →
        Entered d (direntSize * firstFree ((tree fs).ents d)) r.1 fs r.2)) ∧
      (r.1 = false ∧ tree r.2 = tree fs ∨
        r.1 = true ∧ (∀ de ∈ (tree fs).ents d, ¬ Matches name de) ∧
          tree r.2 = (tree fs).setEnts d (putAt ((tree fs).ents d) (firstFree ((tree fs).ents d))
            ⟨n, strncpy name dirsiz⟩)) := by
  by_cases hnew : (fs.dinode d).type = tDir ∧ ∀ de ∈ (tree fs).ents d, ¬ Matches name de
  · obtain ⟨hdir, hno⟩ := hnew
    obtain ⟨ok, fs', hrun, hb, hlogs, hent, hres⟩ := h.dirlink_new hn hdir hno
    rw [hrun]
    exact ⟨hb, hlogs, ⟨hdir, fun _ => hent⟩, hres.imp id fun hdone => ⟨hdone.1, hno, hdone.2⟩⟩
  · unfold Fs.dirlink
    refine (h.dirlookup name).bind ?_
    rintro ⟨found, fs1⟩ ⟨hdir, ⟨-, hno⟩ | ⟨ip, i, de, rfl, hf, hb, hd⟩⟩
    · exact absurd ⟨hdir, hno⟩ hnew
    · have hlast : Lasting fs0 (⟨dp, d, true⟩ :: hs) de.inum fs1 := (h.lasting _).of_sameDisk hd
      refine ((hb.iput_kept hlast).mono fun _ => .inl).bind ?_
      rintro fs2 ⟨hb2, hd2⟩
      have hd' := hd.trans hd2
      exact ⟨hb2, hd'.logs, ⟨hdir, fun hno => absurd hf.found (hno de hf.mem)⟩, .inl ⟨rfl, tree_sameDisk hd'⟩⟩

end

end Busy

end Xv6Filter.Proofs
