import Xv6Filter.Kernel.Types

namespace Xv6Filter

/-- `strncmp`: a list stands for the bytes up to its NUL, so reading past its
end gives the NUL. -/
def strncmp : List Byte → List Byte → Nat → Int
  | _, _, 0 => 0
  | p, q, n + 1 =>
    if p.headD 0 ≠ 0 ∧ p.headD 0 = q.headD 0 then strncmp p.tail q.tail n
    else (p.headD 0).toNat - (q.headD 0).toNat

/-- `strncpy(s, t, n)`: exactly `n` bytes, padded with NULs. -/
def strncpy (t : List Byte) (n : Nat) : List Byte :=
  (t.takeWhile (· ≠ 0)).take n ++ List.replicate (n - (t.takeWhile (· ≠ 0)).length) 0

def namecmp (s t : List Byte) : Int := strncmp s t dirsiz

theorem byte_sub_ne_zero {a b : Byte} (h : a ≠ b) : (a.toNat : Int) - b.toNat ≠ 0 := by
  have hn : a.toNat ≠ b.toNat := fun he => h (UInt8.toNat_inj.mp he)
  omega

/-- Comparing with a constant of length `n` over `n` bytes finds it as a first part. -/
theorem strncmp_eq_zero_iff (q p : List Byte) (hq : 0 ∉ q) :
    strncmp p q q.length = 0 ↔ q <+: p := by
  induction q generalizing p with
  | nil => simp [strncmp]
  | cons b q ih =>
    have hb : b ≠ 0 := fun h => hq (by simp [h])
    have hq' : 0 ∉ q := fun h => hq (List.mem_cons_of_mem _ h)
    cases p with
    | nil =>
      have hn := byte_sub_ne_zero hb.symm
      simp_all [strncmp]
    | cons a p =>
      by_cases ha : a = b
      · subst ha
        simp [strncmp, hb, ih p hq', List.cons_prefix_cons]
      · simp [strncmp, ha, Ne.symm ha, byte_sub_ne_zero ha, List.cons_prefix_cons]

/-- One byte more takes in the NUL: only the constant itself compares equal. -/
theorem strncmp_succ_eq_zero_iff (q p : List Byte) (hq : 0 ∉ q) (hp : 0 ∉ p) :
    strncmp p q (q.length + 1) = 0 ↔ p = q := by
  induction q generalizing p with
  | nil =>
    cases p with
    | nil => simp [strncmp]
    | cons a p =>
      have ha : a ≠ 0 := fun h => hp (by simp [h])
      have hn := byte_sub_ne_zero ha
      simp_all [strncmp]
  | cons b q ih =>
    have hb : b ≠ 0 := fun h => hq (by simp [h])
    have hq' : 0 ∉ q := fun h => hq (List.mem_cons_of_mem _ h)
    cases p with
    | nil =>
      have hn := byte_sub_ne_zero hb.symm
      simp_all [strncmp]
    | cons a p =>
      by_cases ha : a = b
      · subst ha
        have hp' : 0 ∉ p := fun h => hp (List.mem_cons_of_mem _ h)
        have := ih p hq' hp'
        rw [List.length_cons, strncmp]
        simp [hb, this]
      · simp [strncmp, ha, byte_sub_ne_zero ha]

end Xv6Filter
