import Xv6Filter.Mkfs.Build
import Xv6Filter.Proofs.Storing

namespace Xv6Filter
open Lib Function

/-- A `struct dinode` can hold it: every word is below 2³², and there are 13 addresses. -/
structure Dinode.Fits (d : Dinode) : Prop where
  size : d.size < 2 ^ 32
  addr : ∀ j, d.addrs j < 2 ^ 32
  ends : ∀ j, ndirect < j → d.addrs j = 0

namespace Dinode

variable {b : Block} {d : Dinode} {i j w : Nat}

theorem toWord_lt (h : d.Fits) (w : Nat) : d.toWord w < 2 ^ 32 := by
  have htype := d.type.isLt
  have hmajor := d.major.isLt
  have hminor := d.minor.isLt
  have hnlink := d.nlink.isLt
  unfold toWord
  split
  · omega
  split
  · omega
  split
  · exact h.size
  · exact h.addr _

theorem word_put (h : d.Fits) (hw : w < 16) : word (put b i d) (16 * i + w) = d.toWord w := by
  have hlt := toWord_lt h w
  have hd : ∀ k, k < 4 → (4 * (16 * i + w) + k) / 64 = i ∧ (4 * (16 * i + w) + k) % 64 / 4 = w ∧
      (4 * (16 * i + w) + k) % 4 = k := by
    intro k hk
    omega
  have h0 := hd 0 (by omega)
  have h1 := hd 1 (by omega)
  have h2 := hd 2 (by omega)
  have h3 := hd 3 (by omega)
  rw [Nat.add_zero] at h0
  simp only [word, put, h0, h1, h2, h3, ↓reduceIte, UInt8.toNat_ofNat']
  omega

theorem word_put_ne (h : j ≠ i) (hw : w < 16) : word (put b i d) (16 * j + w) = word b (16 * j + w) := by
  have hd : ∀ k, k < 4 → (4 * (16 * j + w) + k) / 64 ≠ i := by
    intro k hk
    omega
  have h0 := hd 0 (by omega)
  have h1 := hd 1 (by omega)
  have h2 := hd 2 (by omega)
  have h3 := hd 3 (by omega)
  rw [Nat.add_zero] at h0
  simp only [word, put, h0, h1, h2, h3, ↓reduceIte]

/-- An inode is read back from its block as it was put there. -/
theorem get_put (h : d.Fits) : get (put b i d) i = d := by
  have hw := fun w (hw : w < 16) => word_put (b := b) (i := i) h hw
  have h0 := hw 0 (by omega)
  rw [Nat.add_zero] at h0
  have htype := d.type.isLt
  have hminor := d.minor.isLt
  obtain ⟨type, major, minor, nlink, size, addrs⟩ := d
  simp only [get, Dinode.mk.injEq]
  refine ⟨?_, ?_, ?_, ?_, hw 2 (by omega), ?_⟩
  · apply BitVec.eq_of_toNat_eq
    simp only [h0, toWord, ↓reduceIte, BitVec.toNat_ofNat]
    omega
  · apply BitVec.eq_of_toNat_eq
    have := major.isLt
    simp only [h0, toWord, ↓reduceIte, BitVec.toNat_ofNat]
    omega
  · apply BitVec.eq_of_toNat_eq
    simp only [hw 1 (by omega), toWord, ↓reduceIte, Nat.reduceEqDiff, BitVec.toNat_ofNat]
    omega
  · apply BitVec.eq_of_toNat_eq
    have := nlink.isLt
    simp only [hw 1 (by omega), toWord, ↓reduceIte, Nat.reduceEqDiff, BitVec.toNat_ofNat]
    omega
  · funext k
    split
    · rename_i hk
      simp only [ndirect] at hk
      rw [Nat.add_assoc, hw (3 + k) (by omega)]
      simp [toWord, show 3 + k ≠ 1 by omega, show 3 + k ≠ 2 by omega]
    · rename_i hk
      exact (h.ends k (by omega)).symm

theorem get_put_ne (h : j ≠ i) : get (put b i d) j = get b j := by
  have hw := fun w (hw : w < 16) => word_put_ne (b := b) (d := d) h hw
  have h0 := hw 0 (by omega)
  rw [Nat.add_zero] at h0
  simp only [get, h0, hw 1 (by omega), hw 2 (by omega), Dinode.mk.injEq, true_and]
  funext k
  split
  · rename_i hk
    simp only [ndirect] at hk
    rw [Nat.add_assoc, hw (3 + k) (by omega)]
  · rfl

theorem get_fits (b : Block) (i : Nat) : (get b i).Fits where
  size := word_lt _ _
  addr := by
    intro k
    simp only [get]
    split
    · exact word_lt _ _
    · decide
  ends := by
    intro k hk
    simp only [get, if_neg (Nat.not_le.mpr hk)]

end Dinode

namespace Mkfs.Host

/-- The loop of mkfs's `balloc` sets the bits of the first `used` blocks. -/
theorem bitmap_testBit (used b : Nat) :
    (bitmap used (b / 8)).toNat.testBit (b % 8) = decide (b < used) := by
  induction used with
  | zero => simp [bitmap]
  | succ used ih =>
    have hbit : ∀ k, k < 8 → (UInt8.ofNat (1 <<< (used % 8))).toNat.testBit k = decide (used % 8 = k) := by
      intro k _
      have hpow : 1 <<< (used % 8) % 256 = 2 ^ (used % 8) := by
        have hlt : 2 ^ (used % 8) < 2 ^ 8 := Nat.pow_lt_pow_right (by decide) (by omega)
        rw [Nat.one_shiftLeft]
        exact Nat.mod_eq_of_lt hlt
      rw [UInt8.toNat_ofNat', hpow, Nat.testBit_two_pow]
    have hstep : bitmap (used + 1) = update (bitmap used) (used / 8)
        (bitmap used (used / 8) ||| UInt8.ofNat (1 <<< (used % 8))) := by
      simp [bitmap, List.range_succ]
    rw [hstep]
    by_cases hbyte : b / 8 = used / 8
    · rw [hbyte, update_self, UInt8.toNat_or, Nat.testBit_or, hbit _ (by omega), ← hbyte, ih,
        ← Bool.decide_or]
      congr 1
      apply propext
      omega
    · rw [update_of_ne hbyte, ih]
      congr 1
      apply propext
      omega

end Mkfs.Host

end Xv6Filter
