import Mathlib.Algebra.Group.Nat.Defs
import Mathlib.Logic.Function.Basic

namespace Xv6Filter.Lib

def word (b : Nat → UInt8) (i : Nat) : Nat :=
  (b (4 * i)).toNat + 256 * (b (4 * i + 1)).toNat + 65536 * (b (4 * i + 2)).toNat +
    16777216 * (b (4 * i + 3)).toNat

def setWord (b : Nat → UInt8) (i v : Nat) : Nat → UInt8 :=
  fun k => if k / 4 = i then UInt8.ofNat (v / 256 ^ (k % 4)) else b k

def loadLe (b : Nat → UInt8) (a : Nat) : Nat → Nat
  | 0 => 0
  | n + 1 => (b a).toNat + 256 * loadLe b (a + 1) n

def storeLe (b : Nat → UInt8) (a n v : Nat) : Nat → UInt8 :=
  fun k => if a ≤ k ∧ k < a + n then UInt8.ofNat (v / 256 ^ (k - a)) else b k

def splice (b : Nat → UInt8) (off : Nat) (xs : List UInt8) : Nat → UInt8 :=
  fun k => if off ≤ k ∧ k < off + xs.length then xs.getD (k - off) 0 else b k

def slice (b : Nat → UInt8) (off n : Nat) : List UInt8 :=
  (List.range n).map (fun k => b (off + k))

theorem word_setWord (b : Nat → UInt8) (i v : Nat) : word (setWord b i v) i = v % 2 ^ 32 := by
  have hd : ∀ j, j < 4 → (4 * i + j) / 4 = i ∧ (4 * i + j) % 4 = j := by
    intro j hj
    constructor <;> omega
  have h0 := hd 0 (by omega)
  have h1 := hd 1 (by omega)
  have h2 := hd 2 (by omega)
  have h3 := hd 3 (by omega)
  simp only [Nat.add_zero] at h0
  simp only [word, setWord, h0, h1, h2, h3, ↓reduceIte, UInt8.toNat_ofNat']
  omega

theorem word_setWord_ne (b : Nat → UInt8) {i j : Nat} (v : Nat) (h : i ≠ j) :
    word (setWord b i v) j = word b j := by
  have hd : ∀ n, n < 4 → (4 * j + n) / 4 ≠ i := by
    intro n hn
    omega
  have h0 := hd 0 (by omega)
  have h1 := hd 1 (by omega)
  have h2 := hd 2 (by omega)
  have h3 := hd 3 (by omega)
  simp only [Nat.add_zero] at h0
  simp only [word, setWord, h0, h1, h2, h3, ↓reduceIte]

theorem word_lt (b : Nat → UInt8) (i : Nat) : word b i < 2 ^ 32 := by
  have h0 := (b (4 * i)).toNat_lt
  have h1 := (b (4 * i + 1)).toNat_lt
  have h2 := (b (4 * i + 2)).toNat_lt
  have h3 := (b (4 * i + 3)).toNat_lt
  unfold word
  omega

@[simp] theorem word_zero (i : Nat) : word (fun _ => 0) i = 0 := by
  simp [word]

theorem loadLe_congr {b c : Nat → UInt8} (h : ∀ k, a ≤ k → k < a + n → c k = b k) :
    loadLe c a n = loadLe b a n := by
  induction n generalizing a with
  | zero => rfl
  | succ n ih =>
    rw [loadLe, loadLe, h a (Nat.le_refl a) (by omega), ih fun k hk hk' => h k (by omega) (by omega)]

theorem loadLe_lt (b : Nat → UInt8) (a n : Nat) : loadLe b a n < 256 ^ n := by
  induction n generalizing a with
  | zero => simp [loadLe]
  | succ n ih =>
    have hbyte := (b a).toNat_lt
    have hrest := ih (a + 1)
    rw [loadLe, Nat.pow_succ]
    omega

theorem loadLe_of_digits {b : Nat → UInt8} (h : ∀ i, i < n → b (a + i) = UInt8.ofNat (v / 256 ^ i)) :
    loadLe b a n = v % 256 ^ n := by
  induction n generalizing a v with
  | zero => simp [loadLe, Nat.mod_one]
  | succ n ih =>
    have hfirst : (b a).toNat = v % 256 := by
      have := h 0 (by omega)
      simp only [Nat.add_zero, Nat.pow_zero, Nat.div_one] at this
      simp [this]
    have hrest : loadLe b (a + 1) n = v / 256 % 256 ^ n := by
      refine ih fun i hi => ?_
      rw [Nat.add_assoc, Nat.add_comm 1 i, h (i + 1) (by omega), Nat.pow_succ', Nat.div_div_eq_div_mul]
    rw [loadLe, hfirst, hrest, Nat.pow_succ', Nat.mod_mul]

section

variable (b : Nat → UInt8)

include b

theorem loadLe_storeLe (a n v : Nat) : loadLe (storeLe b a n v) a n = v % 256 ^ n := by
  refine loadLe_of_digits fun i hi => ?_
  simp [storeLe, hi]

theorem loadLe_storeLe_ne (v : Nat) (h : a + n ≤ c ∨ c + m ≤ a) :
    loadLe (storeLe b a n v) c m = loadLe b c m := by
  refine loadLe_congr fun k hk hk' => ?_
  rw [storeLe, if_neg (by omega)]

@[simp] theorem length_slice (off n : Nat) : (slice b off n).length = n := by
  simp [slice]

theorem slice_splice (off : Nat) (xs : List UInt8) : slice (splice b off xs) off xs.length = xs := by
  apply List.ext_getElem
  · simp
  · intro k hk hk'
    simp [slice, splice, hk']

theorem splice_before {off k : Nat} (xs : List UInt8) (h : k < off) : splice b off xs k = b k := by
  simp [splice, Nat.not_le.mpr h]

theorem splice_after {off k : Nat} (xs : List UInt8) (h : off + xs.length ≤ k) : splice b off xs k = b k := by
  simp [splice, Nat.not_lt.mpr h]

theorem splice_inside {off k : Nat} (xs : List UInt8) (h : k < xs.length) :
    splice b off xs (off + k) = xs.getD k 0 := by
  simp [splice, h]

@[simp] theorem splice_nil (off : Nat) : splice b off [] = b := by
  funext k
  simp only [splice, List.length_nil, Nat.add_zero]
  split
  · omega
  · rfl

theorem splice_cons (off : Nat) (x : UInt8) (xs : List UInt8) :
    splice (Function.update b off x) (off + 1) xs = splice b off (x :: xs) := by
  funext k
  rcases Nat.lt_trichotomy k off with h | rfl | h
  · rw [splice_before _ _ (by omega), splice_before _ _ h]
    simp [Nat.ne_of_lt h]
  · rw [splice_before _ _ (by omega)]
    simp [splice]
  · obtain ⟨j, rfl⟩ : ∃ j, k = off + 1 + j := ⟨k - off - 1, by omega⟩
    by_cases hj : j < xs.length
    · rw [splice_inside _ _ hj, Nat.add_assoc, splice_inside _ _ (by simp; omega)]
      simp [Nat.add_comm 1 j]
    · rw [splice_after _ _ (by omega), splice_after _ _ (by simp; omega)]
      simp [show off + 1 + j ≠ off by omega]

theorem splice_append (off : Nat) (xs ys : List UInt8) :
    splice (splice b off xs) (off + xs.length) ys = splice b off (xs ++ ys) := by
  induction xs generalizing b off with
  | nil => simp
  | cons x xs ih =>
    rw [← splice_cons b off x xs, List.cons_append, ← splice_cons b off x (xs ++ ys), ← ih]
    congr 1
    rw [List.length_cons]
    omega

theorem slice_add (off m n : Nat) : slice b off (m + n) = slice b off m ++ slice b (off + m) n := by
  simp [slice, List.range_add, Nat.add_assoc]

end

theorem slice_congr {b c : Nat → UInt8} (h : ∀ k, k < n → b (off + k) = c (off' + k)) :
    slice b off n = slice c off' n := by
  apply List.map_congr_left
  intro k hk
  exact h k (List.mem_range.mp hk)

end Xv6Filter.Lib
