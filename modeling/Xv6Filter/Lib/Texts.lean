import Xv6Filter.Lib.Bytes

namespace Xv6Filter.Lib

def stringAt (buf : Nat → UInt8) : Nat → Nat → List UInt8
  | 0, _ => []
  | n + 1, s => if buf s = 0 then [] else buf s :: stringAt buf n (s + 1)

def Text (buf : Nat → UInt8) (p : Nat) : List UInt8 → Prop
  | [] => True
  | b :: bs => buf p = b ∧ Text buf (p + 1) bs

theorem text_append {buf : Nat → UInt8} {p : Nat} {l r : List UInt8} :
    Text buf p (l ++ r) ↔ Text buf p l ∧ Text buf (p + l.length) r := by
  induction l generalizing p with
  | nil => simp [Text]
  | cons b l ih =>
    rw [List.cons_append, Text, Text, ih, and_assoc, List.length_cons]
    rw [show p + 1 + l.length = p + (l.length + 1) by omega]

theorem Text.congr {buf buf' : Nat → UInt8} (h : Text buf p bs)
    (hb : ∀ i, p ≤ i → i < p + bs.length → buf' i = buf i) : Text buf' p bs := by
  induction bs generalizing p with
  | nil => trivial
  | cons b bs ih =>
    rw [List.length_cons] at hb
    exact ⟨(hb p (Nat.le_refl p) (by omega)).trans h.1, ih h.2 fun i hi hi' => hb i (by omega) (by omega)⟩

theorem Text.slice {buf : Nat → UInt8} (h : Text buf p bs) : slice buf p bs.length = bs := by
  induction bs generalizing p with
  | nil => rfl
  | cons b bs ih =>
    rw [List.length_cons, Nat.add_comm, slice_add, ih h.2]
    simp [Lib.slice, h.1]

theorem text_splice (buf : Nat → UInt8) (p : Nat) (bs : List UInt8) : Text (splice buf p bs) p bs := by
  induction bs generalizing buf p with
  | nil => trivial
  | cons b bs ih =>
    rw [← splice_cons]
    refine ⟨?_, ih _ _⟩
    rw [splice_before _ _ (Nat.lt_succ_self p), Function.update_self]

theorem stringAt_eq {buf : Nat → UInt8} (h : Text buf p bs) (h0 : 0 ∉ bs) (hend : buf (p + bs.length) = 0)
    (hk : bs.length < k) : stringAt buf k p = bs := by
  induction bs generalizing p k with
  | nil =>
    obtain ⟨k, rfl⟩ : ∃ n, k = n + 1 := ⟨k - 1, by omega⟩
    rw [stringAt, if_pos (by simpa using hend)]
  | cons b bs ih =>
    obtain ⟨k, rfl⟩ : ∃ n, k = n + 1 := ⟨k - 1, by omega⟩
    obtain ⟨hb0, h0⟩ := not_or.mp (mt List.mem_cons.mpr h0)
    rw [List.length_cons] at hk hend
    rw [stringAt, h.1, if_neg (Ne.symm hb0), ih h.2 h0 ?_ (by omega)]
    rw [← hend]
    congr 1
    omega

theorem text_of_getElem {buf : Nat → UInt8} (h : ∀ i (hi : i < bs.length), buf (p + i) = bs[i]) : Text buf p bs := by
  induction bs generalizing p with
  | nil => trivial
  | cons b bs ih =>
    refine ⟨h 0 (by simp), ih fun i hi => ?_⟩
    rw [Nat.add_assoc, Nat.add_comm 1 i]
    exact h (i + 1) (by simpa using hi)

theorem text_slice (buf : Nat → UInt8) (p n : Nat) : Text buf p (slice buf p n) :=
  text_of_getElem fun i hi => by simp [slice]

theorem stringAt_full {buf : Nat → UInt8} (h : Text buf p bs) (h0 : 0 ∉ bs) : stringAt buf bs.length p = bs := by
  induction bs generalizing p with
  | nil => rfl
  | cons b bs ih =>
    obtain ⟨hb0, h0⟩ := not_or.mp (mt List.mem_cons.mpr h0)
    rw [List.length_cons, stringAt, h.1, if_neg (Ne.symm hb0), ih h.2 h0]

end Xv6Filter.Lib
