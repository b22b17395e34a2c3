import Xv6Filter.Proofs.Names
import Xv6Filter.Proofs.Unlinking

namespace Xv6Filter.Proofs
open Lib Function

section Lists

variable {es : List Fs.Dirent} {de x : Fs.Dirent} {p : Fs.Dirent → Bool}

def putFirst (es : List Fs.Dirent) (de : Fs.Dirent) : List Fs.Dirent := putAt es (firstFree es) de

theorem firstFree_cons (hx : x.inum ≠ 0) : firstFree (x :: es) = firstFree es + 1 := by
  simp [firstFree, List.findIdx_cons, hx]

theorem putFirst_cons (hx : x.inum ≠ 0) : putFirst (x :: es) de = x :: putFirst es de := by
  unfold putFirst putAt
  rw [firstFree_cons hx]
  simp only [List.length_cons, Nat.add_lt_add_iff_right, List.set_cons_succ, List.cons_append]
  split <;> rfl

theorem putFirst_cases (es : List Fs.Dirent) (de : Fs.Dirent) :
    (putFirst es de = es ++ [de]) ∨ ∃ l r x, es = l ++ x :: r ∧ x.inum = 0 ∧ putFirst es de = l ++ de :: r := by
  induction es with
  | nil => exact .inl rfl
  | cons x es ih =>
    by_cases hx : x.inum = 0
    · exact .inr ⟨[], es, x, rfl, hx, by simp [putFirst, putAt, firstFree, List.findIdx_cons, hx]⟩
    · rw [putFirst_cons hx]
      rcases ih with h | ⟨l, r, y, rfl, hy, h⟩
      · exact .inl (by rw [h]; rfl)
      · exact .inr ⟨x :: l, r, y, rfl, hy, by rw [h]; rfl⟩

theorem countP_putFirst (hp : ∀ y, y.inum = 0 → p y = false) :
    (putFirst es de).countP p = es.countP p + if p de then 1 else 0 := by
  rcases putFirst_cases es de with h | ⟨l, r, y, rfl, hy, h⟩
  · simp [h, List.countP_append, List.countP_cons]
  · simp [h, List.countP_append, List.countP_cons, hp y hy, Nat.add_assoc]

theorem mem_putFirst (h : x ∈ putFirst es de) : x = de ∨ x ∈ es := by
  rcases putFirst_cases es de with hp | ⟨l, r, y, rfl, -, hp⟩ <;> rw [hp] at h
  · simpa [or_comm] using h
  · simp only [List.mem_append, List.mem_cons] at h ⊢
    tauto

theorem mem_putFirst_self (es : List Fs.Dirent) (de : Fs.Dirent) : de ∈ putFirst es de := by
  rcases putFirst_cases es de with hp | ⟨l, r, y, rfl, -, hp⟩ <;> simp [hp]

theorem mem_putFirst_of_mem (h : x ∈ es) (hx : x.inum ≠ 0) : x ∈ putFirst es de := by
  rcases putFirst_cases es de with hp | ⟨l, r, y, rfl, hy, hp⟩ <;> rw [hp]
  · simp [h]
  · simp only [List.mem_append, List.mem_cons] at h ⊢
    rcases h with h | rfl | h
    · exact .inl h
    · exact absurd hy hx
    · exact .inr (.inr h)

theorem countP_take (hi : es[i]? = some de) (hp : p blankEntry = false) :
    (es.set i blankEntry).countP p + (if p de then 1 else 0) = es.countP p := by
  obtain ⟨hlt, rfl⟩ := List.getElem?_eq_some_iff.mp hi
  rw [List.countP_set hlt, hp]
  have hle : (if p es[i] = true then 1 else 0) ≤ es.countP p := by
    split
    · rename_i hpe
      exact List.countP_pos_iff.mpr ⟨_, List.getElem_mem hlt, hpe⟩
    · omega
  simp only [Bool.false_eq_true, ↓reduceIte, Nat.add_zero]
  omega

theorem mem_take (h : x ∈ es.set i blankEntry) : x = blankEntry ∨ x ∈ es := by
  rcases List.mem_or_eq_of_mem_set h with h | h
  · exact .inr h
  · exact .inl h

theorem mem_take_of_mem (hi : es[i]? = some de) (h : x ∈ es) : x = de ∨ x ∈ es.set i blankEntry := by
  obtain ⟨j, hj⟩ := List.mem_iff_getElem?.mp h
  by_cases hij : i = j
  · subst hij
    exact .inl (Option.some.inj (hj.symm.trans hi))
  · exact .inr (List.mem_of_getElem? ((List.getElem?_set_ne hij).trans hj))

end Lists

def Dots (d : Nat) (es : List Fs.Dirent) : Prop :=
  ∃ a b rest, es = a :: b :: rest ∧ a.inum = d ∧ b.inum ≠ 0 ∧ namecmp dot a.name = 0 ∧
    namecmp dotdot b.name = 0

namespace Tree

def up (t : Tree) (d : Nat) : Nat := ((t.ents d)[1]?.map Fs.Dirent.inum).getD 0

def rest (t : Tree) (d : Nat) : List Fs.Dirent := (t.ents d).drop 2

def named (t : Tree) (n : Nat) : Nat :=
  ∑ d ∈ Finset.range (2 ^ 16), (t.rest d).countP fun de => decide (de.inum = n)

def subdirs (t : Tree) (d : Nat) : Nat := (t.rest d).countP fun de => decide (t.kind de.inum = tDir)

end Tree

namespace Dots

variable {es : List Fs.Dirent} {d : Nat}

theorem add (h : Dots d es) (hd : d ≠ 0) (de : Fs.Dirent) : Dots d (putFirst es de) ∧
    (putFirst es de).drop 2 = putFirst (es.drop 2) de ∧ (putFirst es de)[1]? = es[1]? := by
  obtain ⟨a, b, rest, rfl, ha, hb, hda, hdb⟩ := h
  rw [putFirst_cons (ha ▸ hd), putFirst_cons hb]
  exact ⟨⟨a, b, _, rfl, ha, hb, hda, hdb⟩, rfl, rfl⟩

theorem take (h : Dots d es) (j : Nat) : Dots d (es.set (j + 2) blankEntry) ∧
    (es.set (j + 2) blankEntry).drop 2 = (es.drop 2).set j blankEntry ∧
    (es.set (j + 2) blankEntry)[1]? = es[1]? := by
  obtain ⟨a, b, rest, rfl, ha, hb, hda, hdb⟩ := h
  exact ⟨⟨a, b, _, rfl, ha, hb, hda, hdb⟩, rfl, rfl⟩

theorem first_proper (h : Dots d es) (hp : Tree.Proper name) (hf : FirstAt name es i de) :
    ∃ j, i = j + 2 ∧ (es.drop 2)[j]? = some de := by
  obtain ⟨a, b, rest, rfl, ha, hb, hda, hdb⟩ := h
  have hm := (matches_iff name de).mp hf.found
  rw [namecmp_eq_zero_iff] at hda hdb
  match i, hf.here with
  | 0, he =>
    cases he
    exact absurd ((namecmp_eq_zero_iff _ _).mpr (hm.2.trans hda.symm)) hp.1
  | 1, he =>
    cases he
    exact absurd ((namecmp_eq_zero_iff _ _).mpr (hm.2.trans hdb.symm)) hp.2
  | j + 2, he => exact ⟨j, rfl, he⟩

theorem proper_of_absent (h : Dots d es) (hd : d ≠ 0) (ha : ∀ de ∈ es, ¬ Matches name de) :
    Tree.Proper name := by
  obtain ⟨a, b, rest, rfl, ha', hb, hda, hdb⟩ := h
  rw [namecmp_eq_zero_iff] at hda hdb
  constructor
  · intro hn
    rw [namecmp_eq_zero_iff] at hn
    exact ha a (by simp) ((matches_iff _ _).mpr ⟨ha' ▸ hd, hn.trans hda⟩)
  · intro hn
    rw [namecmp_eq_zero_iff] at hn
    exact ha b (by simp) ((matches_iff _ _).mpr ⟨hb, hn.trans hdb⟩)

end Dots

theorem Tree.Proper.strncpy (h : Tree.Proper name) : Tree.Proper (strncpy name dirsiz) := by
  unfold Tree.Proper at h ⊢
  simp only [ne_eq, namecmp_eq_zero_iff, nameKey_strncpy] at h ⊢
  exact h

namespace Tree

variable {t t' : Tree} {d n m x : Nat} {e : Fs.Dirent}

theorem rest_setEnts (t : Tree) (d : Nat) (es : List Fs.Dirent) :
    (t.setEnts d es).rest = update t.rest d (es.drop 2) := by
  funext m
  by_cases hm : m = d
  · subst hm
    simp [rest, setEnts]
  · simp [rest, setEnts, hm]

theorem up_setEnts (h : es[1]? = (t.ents d)[1]?) : (t.setEnts d es).up = t.up := by
  funext m
  by_cases hm : m = d
  · subst hm
    simp [up, setEnts, h]
  · simp [up, setEnts, hm]

theorem named_put (hd : d < 2 ^ 16) (hr : t'.rest = update t.rest d (putFirst (t.rest d) e))
    (hm : m ≠ 0) : t'.named m = t.named m + if e.inum = m then 1 else 0 := by
  have hsum := sum_update_mem (Finset.range (2 ^ 16))
    (fun _ es => es.countP fun de : Fs.Dirent => decide (de.inum = m)) t.rest (Finset.mem_range.mpr hd)
    (putFirst (t.rest d) e)
  rw [countP_putFirst fun y hy => by simp [hy, hm.symm], ← hr] at hsum
  simp only [decide_eq_true_eq] at hsum
  unfold named
  omega

theorem named_take (hd : d < 2 ^ 16) (hj : (t.rest d)[j]? = some e)
    (hr : t'.rest = update t.rest d ((t.rest d).set j blankEntry)) (hm : m ≠ 0) :
    (t'.named m + if e.inum = m then 1 else 0) = t.named m := by
  have hsum := sum_update_mem (Finset.range (2 ^ 16))
    (fun _ es => es.countP fun de : Fs.Dirent => decide (de.inum = m)) t.rest (Finset.mem_range.mpr hd)
    ((t.rest d).set j blankEntry)
  have hone := countP_take (p := fun de => decide (de.inum = m)) hj (by simp [blankEntry, hm.symm])
  rw [← hr] at hsum
  simp only [decide_eq_true_eq] at hone
  unfold named
  omega

theorem named_free (hx : x < 2 ^ 16) (hr : t'.rest = update t.rest x []) :
    (t'.named m + (t.rest x).countP fun de => decide (de.inum = m)) = t.named m := by
  have hsum := sum_update_mem (Finset.range (2 ^ 16))
    (fun _ es => es.countP fun de : Fs.Dirent => decide (de.inum = m)) t.rest (Finset.mem_range.mpr hx) []
  rw [← hr] at hsum
  simpa [named] using hsum

theorem named_pos (hd : d < 2 ^ 16) (he : e ∈ t.rest d) : 0 < t.named e.inum := by
  unfold named
  refine Finset.sum_pos' (fun _ _ => Nat.zero_le _) ⟨d, Finset.mem_range.mpr hd, ?_⟩
  exact List.countP_pos_iff.mpr ⟨e, he, by simp⟩

theorem exists_of_named (h : 0 < t.named n) : ∃ d, ∃ e ∈ t.rest d, e.inum = n := by
  obtain ⟨d, -, hd⟩ := Finset.sum_pos_iff.mp h
  obtain ⟨e, he, hn⟩ := List.countP_pos_iff.mp hd
  exact ⟨d, e, he, by simpa using hn⟩

theorem subdirs_congr (hr : t'.rest d = t.rest d)
    (hk : ∀ de ∈ t.rest d, t'.kind de.inum = tDir ↔ t.kind de.inum = tDir) : t'.subdirs d = t.subdirs d := by
  unfold subdirs
  rw [hr]
  apply List.countP_congr
  intro de hde
  simpa using hk de hde

theorem subdirs_le (t : Tree) (d : Nat) : t.subdirs d ≤ (t.ents d).length :=
  Nat.le_trans (List.countP_le_length) (by simp [rest])

end Tree

end Xv6Filter.Proofs
