import Xv6Filter.Kernel.Sysfile
import Xv6Filter.Proofs.Directory

namespace Xv6Filter.Proofs
open Lib

/-- What counts of a name in a directory: the bytes before the NUL, at most `dirsiz` of them. -/
def nameKey (name : List Byte) : List Byte := (name.takeWhile (· ≠ 0)).take dirsiz

theorem takeWhile_headD (p : List Byte) :
    p.takeWhile (· ≠ 0) = if p.headD 0 = 0 then [] else p.headD 0 :: p.tail.takeWhile (· ≠ 0) := by
  cases p with
  | nil => rfl
  | cons a p => by_cases ha : a = 0 <;> simp [ha]

theorem strncmp_eq_zero_iff_take (p q : List Byte) (n : Nat) :
    strncmp p q n = 0 ↔ (p.takeWhile (· ≠ 0)).take n = (q.takeWhile (· ≠ 0)).take n := by
  induction n generalizing p q with
  | zero => simp [strncmp]
  | succ n ih =>
    rw [strncmp, takeWhile_headD p, takeWhile_headD q]
    by_cases he : p.headD 0 = q.headD 0
    · by_cases hz : q.headD 0 = 0
      · simp only [he, hz, ne_eq, not_true_eq_false, false_and, ↓reduceIte, sub_self]
      · simp only [he, hz, ne_eq, not_false_eq_true, and_self, ↓reduceIte, List.take_succ_cons, ih,
          List.cons.injEq, true_and]
    · rw [if_neg fun h => he h.2]
      constructor
      · exact fun h => absurd h (byte_sub_ne_zero he)
      · intro h
        exfalso
        split at h <;> split at h <;> simp_all

theorem namecmp_eq_zero_iff (a b : List Byte) : namecmp a b = 0 ↔ nameKey a = nameKey b :=
  strncmp_eq_zero_iff_take a b dirsiz

theorem matches_iff (name : List Byte) (de : Fs.Dirent) :
    Matches name de ↔ de.inum ≠ 0 ∧ nameKey name = nameKey de.name := by
  rw [Matches, namecmp_eq_zero_iff]

theorem nameKey_strncpy (name : List Byte) : nameKey (strncpy name dirsiz) = nameKey name := by
  unfold nameKey strncpy
  have hall : ∀ b ∈ (name.takeWhile (· ≠ 0)).take dirsiz, decide (b ≠ 0) = true := by
    intro b hb
    exact List.all_eq_true.mp (List.all_takeWhile) b (List.mem_of_mem_take hb)
  rw [List.takeWhile_append_of_pos hall]
  have hz : (List.replicate (dirsiz - (name.takeWhile (· ≠ 0)).length) (0 : Byte)).takeWhile (· ≠ 0) = [] := by
    cases dirsiz - (name.takeWhile (· ≠ 0)).length <;> simp [List.replicate_succ]
  rw [hz, List.append_nil, List.take_take, Nat.min_self]

end Xv6Filter.Proofs
