import Mathlib.Data.Nat.ModEq
import Mathlib.Logic.Function.Basic

namespace Xv6Filter.Lib

open Function

variable {w size : Nat} [NeZero size] {α : Type}

def ringPlace (size : Nat) [NeZero size] (c : BitVec w) : Fin size := Fin.ofNat size c.toNat

def gap (head tail : BitVec w) : Nat := (tail - head).toNat

def between (data : Fin size → α) (head tail : BitVec w) : List α :=
  (List.range (gap head tail)).map fun k => data (ringPlace size (head + BitVec.ofNat w k))

section Counters

variable (head tail : BitVec w)

@[simp] theorem gap_self : gap head head = 0 := by
  simp [gap]

theorem gap_eq_zero : gap head tail = 0 ↔ head = tail := by
  constructor
  · intro h
    have hsub : tail - head = 0#w := BitVec.eq_of_toNat_eq (by simpa [gap] using h)
    calc head = 0#w + head := by simp
      _ = tail - head + head := by rw [hsub]
      _ = tail := BitVec.sub_add_cancel tail head
  · rintro rfl
    exact gap_self head

theorem gap_add (n : Nat) (h : n < 2 ^ w) : gap head (head + BitVec.ofNat w n) = n := by
  have hsub : head + BitVec.ofNat w n - head = BitVec.ofNat w n := by
    rw [BitVec.add_comm, BitVec.add_sub_cancel]
  rw [gap, hsub, BitVec.toNat_ofNat, Nat.mod_eq_of_lt h]

theorem add_gap : head + BitVec.ofNat w (gap head tail) = tail := by
  rw [gap, BitVec.ofNat_toNat, BitVec.setWidth_eq, BitVec.add_comm, BitVec.sub_add_cancel]

theorem gap_lt : gap head tail < 2 ^ w := (tail - head).isLt

theorem eq_add_iff (n : Nat) (h : n < 2 ^ w) : tail = head + BitVec.ofNat w n ↔ gap head tail = n := by
  constructor
  · rintro rfl
    exact gap_add head n h
  · rintro rfl
    exact (add_gap head tail).symm

theorem ofNat_succ (n : Nat) : BitVec.ofNat w (n + 1) = BitVec.ofNat w n + 1#w := BitVec.ofNat_add n 1

theorem gap_succ (h : gap head tail + 1 < 2 ^ w) : gap head (tail + 1#w) = gap head tail + 1 := by
  have ht : tail + 1#w = head + BitVec.ofNat w (gap head tail + 1) := by
    rw [ofNat_succ (gap head tail), ← BitVec.add_assoc, add_gap]
  rw [ht, gap_add head _ h]

theorem gap_pop (h : head ≠ tail) : gap head tail = gap (head + 1#w) tail + 1 := by
  have hpos : gap head tail ≠ 0 := fun h0 => h ((gap_eq_zero head tail).mp h0)
  obtain ⟨n, hn⟩ := Nat.exists_eq_succ_of_ne_zero hpos
  have hlt := gap_lt head tail
  have ht : tail = head + 1#w + BitVec.ofNat w n := by
    rw [BitVec.add_assoc, BitVec.add_comm 1#w, ← ofNat_succ, ← Nat.succ_eq_add_one, ← hn, add_gap]
  have hback : gap (head + 1#w) tail = n := by
    rw [ht]
    exact gap_add _ n (by omega)
  rw [hback, hn]

theorem gap_trans (mid : BitVec w) (h : gap head mid + gap mid tail < 2 ^ w) :
    gap head tail = gap head mid + gap mid tail := by
  have ht : tail = head + BitVec.ofNat w (gap head mid + gap mid tail) := by
    rw [BitVec.ofNat_add, ← BitVec.add_assoc, add_gap, add_gap]
  nth_rewrite 1 [ht]
  exact gap_add head _ h

theorem gap_pred (h : head ≠ tail) : gap head tail = gap head (tail - 1#w) + 1 := by
  have hpos : gap head tail ≠ 0 := fun h0 => h ((gap_eq_zero head tail).mp h0)
  obtain ⟨n, hn⟩ := Nat.exists_eq_succ_of_ne_zero hpos
  have hlt := gap_lt head tail
  have ht : tail - 1#w = head + BitVec.ofNat w n := by
    have hs : tail = head + BitVec.ofNat w n + 1#w := by
      rw [BitVec.add_assoc, ← ofNat_succ n, ← Nat.succ_eq_add_one, ← hn, add_gap]
    rw [hs, BitVec.add_sub_cancel]
  rw [ht, gap_add head n (by omega), hn]

end Counters

section Places

variable (hd : size ∣ 2 ^ w)
include hd

theorem ringPlace_add (c : BitVec w) (n : Nat) :
    ringPlace size (c + BitVec.ofNat w n) = Fin.ofNat size (c.toNat + n) := by
  apply Fin.ext
  simp only [ringPlace, Fin.ofNat, BitVec.toNat_add, BitVec.toNat_ofNat]
  rw [Nat.mod_mod_of_dvd _ hd, Nat.add_mod, Nat.mod_mod_of_dvd _ hd, ← Nat.add_mod]

theorem ringPlace_ne (c : BitVec w) {k n : Nat} (hk : k < n) (hn : n < size) :
    ringPlace size (c + BitVec.ofNat w k) ≠ ringPlace size (c + BitVec.ofNat w n) := by
  intro h
  rw [ringPlace_add hd, ringPlace_add hd] at h
  have hm : c.toNat + k ≡ c.toNat + n [MOD size] := Fin.mk.inj h
  have := (Nat.ModEq.add_left_cancel' c.toNat hm).eq_of_lt_of_lt (by omega) hn
  omega

theorem between_write (data : Fin size → α) (head mid tail : BitVec w) (x : α)
    (hm : gap head mid ≤ gap head tail) (h : gap head tail < size) :
    between (update data (ringPlace size tail) x) head mid = between data head mid := by
  apply List.map_congr_left
  intro k hk
  have hne := ringPlace_ne hd head (Nat.lt_of_lt_of_le (List.mem_range.mp hk) hm) h
  rw [add_gap] at hne
  exact update_of_ne hne ..

end Places

section Lists

variable (data : Fin size → α) (head tail : BitVec w)

@[simp] theorem between_self : between data head head = [] := by
  simp [between]

@[simp] theorem length_between : (between data head tail).length = gap head tail := by
  simp [between]

theorem between_succ (h : gap head tail + 1 < 2 ^ w) :
    between data head (tail + 1#w) = between data head tail ++ [data (ringPlace size tail)] := by
  simp only [between]
  rw [gap_succ head tail h, List.range_succ, List.map_append, List.map_singleton, add_gap]

theorem between_cons (h : head ≠ tail) :
    between data head tail = data (ringPlace size head) :: between data (head + 1#w) tail := by
  simp only [between]
  rw [gap_pop head tail h, List.range_succ_eq_map, List.map_cons, List.map_map]
  congr 1
  · simp
  · apply List.map_congr_left
    intro k _
    simp only [Function.comp_apply, Nat.succ_eq_add_one]
    rw [ofNat_succ, BitVec.add_comm _ 1#w, BitVec.add_assoc]

theorem between_pred (h : head ≠ tail) :
    between data head tail = between data head (tail - 1#w) ++ [data (ringPlace size (tail - 1#w))] := by
  have hlt := gap_lt head tail
  rw [gap_pred head tail h] at hlt
  have hs := between_succ data head (tail - 1#w) hlt
  rwa [BitVec.sub_add_cancel] at hs

theorem between_append (mid : BitVec w) (h : gap head mid + gap mid tail < 2 ^ w) :
    between data head tail = between data head mid ++ between data mid tail := by
  simp only [between]
  rw [gap_trans head tail mid h, List.range_add, List.map_append, List.map_map]
  congr 1
  apply List.map_congr_left
  intro k _
  simp only [Function.comp_apply]
  rw [BitVec.ofNat_add, ← BitVec.add_assoc, add_gap]

theorem between_push (hd : size ∣ 2 ^ w) (x : α) (h : gap head tail < size) (hw : gap head tail + 1 < 2 ^ w) :
    between (update data (ringPlace size tail) x) head (tail + 1#w) = between data head tail ++ [x] := by
  rw [between_succ _ head tail hw, between_write hd data head tail tail x (Nat.le_refl _) h, update_self]

end Lists

end Xv6Filter.Lib
