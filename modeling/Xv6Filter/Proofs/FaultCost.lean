import Mathlib.Order.Interval.Finset.Nat
import Xv6Filter.Proofs.Pages

namespace Xv6Filter.Paging
open Lib

def pagesOf (va len : Nat) : Finset Nat := (Finset.Ico va (va + len)).image vpn

theorem mem_pagesOf : v ∈ pagesOf va len ↔ ∃ i, i < len ∧ vpn (va + i) = v := by
  simp only [pagesOf, Finset.mem_image, Finset.mem_Ico]
  constructor
  · rintro ⟨a, ⟨hlow, hhigh⟩, rfl⟩
    exact ⟨a - va, by omega, by congr 1; omega⟩
  · rintro ⟨i, hi, rfl⟩
    exact ⟨va + i, by omega, rfl⟩

theorem pagesOf_zero (va : Nat) : pagesOf va 0 = ∅ := by simp [pagesOf]

/-- The pages of a range: the first one, and those behind it. -/
theorem pagesOf_step (va : Nat) (hlen : 0 < len) (hk : k = min (pgsize - va % pgsize) len) :
    pagesOf va len = insert (vpn va) (pagesOf (vpn va * pgsize + pgsize) (len - k)) ∧
      vpn va ∉ pagesOf (vpn va * pgsize + pgsize) (len - k) := by
  have hsplit : va = vpn va * pgsize + va % pgsize := (Nat.div_add_mod' va pgsize).symm
  have hmod : va % pgsize < pgsize := Nat.mod_lt _ (by decide)
  constructor
  · ext v
    rw [Finset.mem_insert, mem_pagesOf, mem_pagesOf]
    constructor
    · rintro ⟨i, hi, rfl⟩
      by_cases hin : i < k
      · left
        simp only [vpn, pgsize] at *
        omega
      · right
        refine ⟨i - k, by omega, ?_⟩
        congr 1
        omega
    · rintro (rfl | ⟨i, hi, rfl⟩)
      · exact ⟨0, hlen, rfl⟩
      · refine ⟨k + i, by omega, ?_⟩
        congr 1
        omega
  · rw [mem_pagesOf]
    rintro ⟨i, -, he⟩
    simp only [vpn, pgsize] at *
    omega

namespace Table

def absent (pt : Table) (vs : Finset Nat) : Finset Nat := vs.filter fun v => ¬(pt.leaf (v * pgsize)).isSome

def faultCost (pt : Table) (vs : Finset Nat) : Nat :=
  (pt.absent vs).card +
    ((((pt.absent vs).filter fun v => ¬(pt.pte (px 2 (v * pgsize))).isSome).image (· / 512 ^ 2)).card +
      (((pt.absent vs).filter fun v => ¬(pt.node (v * pgsize)).isSome).image (· / 512)).card)

theorem faultCost_mapped {pt : Table} (h : (pt.leaf (v * pgsize)).isSome) (vs : Finset Nat) :
    pt.faultCost (insert v vs) = pt.faultCost vs := by
  have hsame : pt.absent (insert v vs) = pt.absent vs := by
    rw [absent, Finset.filter_insert, if_neg (not_not.mpr h)]
    rfl
  simp only [faultCost, hsame]

/-- A page that is not mapped needs its own frame and those of its path. -/
theorem lacks_lt_faultCost {pt : Table} (h : pt.leaf (v * pgsize) = none) (vs : Finset Nat) :
    pt.lacks (v * pgsize) < pt.faultCost (insert v vs) := by
  have hin : v ∈ pt.absent (insert v vs) := by simp [absent, h]
  have hpage : 0 < (pt.absent (insert v vs)).card := Finset.card_pos.mpr ⟨v, hin⟩
  have hgroup (p : Nat → Bool) (g : Nat → Nat) :
      (if p v then 0 else 1) ≤ (((pt.absent (insert v vs)).filter fun u => ¬p u).image g).card := by
    split
    · exact Nat.zero_le _
    · rename_i hp
      exact Finset.card_pos.mpr ⟨g v, Finset.mem_image_of_mem g (Finset.mem_filter.mpr ⟨hin, hp⟩)⟩
  have htop := hgroup (fun u => (pt.pte (px 2 (u * pgsize))).isSome) (· / 512 ^ 2)
  have hnode := hgroup (fun u => (pt.node (u * pgsize)).isSome) (· / 512)
  rw [lacks, faultCost]
  omega

end Table

/-- Pages below 2²⁷ have the same level-1 page-table page when they are in one group of 512². -/
theorem px_two_iff (hu : u < 2 ^ 27) (hv : v < 2 ^ 27) :
    px 2 (u * pgsize) = px 2 (v * pgsize) ↔ v / 512 ^ 2 = u / 512 ^ 2 := by
  have hsq : 512 ^ 2 = 262144 := by decide
  rw [Fin.ext_iff, px_vpn, px_vpn, vpn_page, vpn_page, hsq]
  omega

theorem samePath_iff (hu : u < 2 ^ 27) (hv : v < 2 ^ 27) :
    SamePath (u * pgsize) (v * pgsize) ↔ v / 512 = u / 512 := by
  have hsq : 512 ^ 2 = 262144 := by decide
  simp only [SamePath, Fin.ext_iff, px_vpn, vpn_page, hsq, Nat.pow_one]
  omega

theorem Table.faultCost_insert {pt pt' : Table} (hv : v < 2 ^ 27) (hvs : ∀ u ∈ vs, u < 2 ^ 27) (hout : v ∉ vs)
    (hleaf : pt.leaf (v * pgsize) = none)
    (hrest : ∀ u ∈ vs, pt'.leaf (u * pgsize) = pt.leaf (u * pgsize)) (ho : Opened pt (v * pgsize) pt') :
    pt.faultCost (insert v vs) = 1 + pt.lacks (v * pgsize) + pt'.faultCost vs := by
  have hsame : pt'.absent vs = pt.absent vs := by
    apply Finset.filter_congr
    intro u hu
    rw [hrest u hu]
  have hinsert : pt.absent (insert v vs) = insert v (pt.absent vs) := by
    rw [absent, Finset.filter_insert, if_pos (by simp [hleaf])]
    rfl
  have hin {u : Nat} (hu : u ∈ pt.absent vs) : u < 2 ^ 27 := hvs u (Finset.mem_filter.mp hu).1
  have hfresh : v ∉ pt.absent vs := fun hmem => hout (Finset.mem_filter.mp hmem).1
  have htop := card_groups_insert (s := pt.absent vs) (a := v) (g := (· / 512 ^ 2))
    (p := fun u => ¬(pt.pte (px 2 (u * pgsize))).isSome) (q := fun u => ¬(pt'.pte (px 2 (u * pgsize))).isSome)
    (by
      intro u hu he
      rw [(px_two_iff hv (hin hu)).mpr he])
    (by
      intro u hu
      have hpath := px_two_iff hv (hin hu)
      have hiff := ho.top (u * pgsize)
      grind)
  have hnode := card_groups_insert (s := pt.absent vs) (a := v) (g := (· / 512))
    (p := fun u => ¬(pt.node (u * pgsize)).isSome) (q := fun u => ¬(pt'.node (u * pgsize)).isSome)
    (by
      intro u hu he
      rw [node_congr ((samePath_iff hv (hin hu)).mpr he)])
    (by
      intro u hu
      have hpath := samePath_iff hv (hin hu)
      have hiff := ho.node (u * pgsize)
      grind)
  simp only [faultCost, hinsert, hsame, Finset.card_insert_of_notMem hfresh, htop, hnode, lacks, ite_not]
  omega

end Xv6Filter.Paging
