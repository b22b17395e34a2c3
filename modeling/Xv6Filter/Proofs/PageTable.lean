import Xv6Filter.Kernel.Paging
import Xv6Filter.Lib.Count
import Xv6Filter.Lib.Result

namespace Xv6Filter.Paging
open Lib Function

abbrev vpn (va : Nat) : Nat := va / pgsize

abbrev trapframeVpn : Nat := trapframeVa / pgsize

theorem vpn_page (v : Nat) : vpn (v * pgsize) = v := Nat.mul_div_cancel v (by decide)

theorem next_page (v : Nat) : v * pgsize + pgsize = (v + 1) * pgsize := (Nat.succ_mul v pgsize).symm

theorem px_vpn (level va : Nat) : (px level va).val = vpn va / 512 ^ level % 512 := by
  have hp : 2 ^ (12 + 9 * level) = pgsize * 512 ^ level := by
    rw [Nat.pow_add, Nat.pow_mul]
  simp only [px, vpn]
  rw [hp, Nat.div_div_eq_div_mul]

theorem px_congr (level : Nat) {va va' : Nat} (h : vpn va = vpn va') : px level va = px level va' := by
  apply Fin.ext
  rw [px_vpn, px_vpn, h]

theorem vpn_eq_of_px {va va' : Nat} (hv : vpn va < 2 ^ 27) (hv' : vpn va' < 2 ^ 27)
    (h2 : px 2 va = px 2 va') (h1 : px 1 va = px 1 va') (h0 : px 0 va = px 0 va') : vpn va = vpn va' := by
  have h2 := congrArg Fin.val h2
  have h1 := congrArg Fin.val h1
  have h0 := congrArg Fin.val h0
  have hsq : 512 ^ 2 = 262144 := by decide
  simp only [px_vpn, Nat.pow_zero, Nat.div_one, Nat.pow_one, hsq] at h2 h1 h0
  generalize vpn va = v at *
  generalize vpn va' = v' at *
  omega

def SamePath (va va' : Nat) : Prop := px 2 va = px 2 va' ∧ px 1 va = px 1 va'

namespace Table

theorem node_congr {va va' : Nat} (h : SamePath va va') (pt : Table) : pt.node va = pt.node va' := by
  simp only [Table.node, h.1, h.2]

theorem leaf_congr {va va' : Nat} (h : vpn va = vpn va') (pt : Table) : pt.leaf va = pt.leaf va' := by
  simp only [Table.leaf, Table.node, px_congr _ h]

theorem node_of_leaf {pt : Table} {va : Nat} (h : pt.leaf va = some l) : (pt.node va).isSome := by
  cases hn : pt.node va with
  | none => simp [Table.leaf, hn] at h
  | some n => rfl

theorem walk_eq {pt : Table} {va : Nat} (h : va < maxva) :
    pt.walk va = .ok ((pt.node va).map fun n => n.pte (px 0 va)) := by
  simp [Table.walk, Nat.not_le.mpr h]

theorem node_some {pt : Table} {va : Nat} {n0 : Node0} (h : pt.node va = some n0) :
    ∃ n1, pt.pte (px 2 va) = some n1 ∧ n1.pte (px 1 va) = some n0 :=
  Option.bind_eq_some_iff.mp h

theorem setLeaf_eq {pt : Table} {n1 : Node1} {n0 : Node0} (h1 : pt.pte (px 2 va) = some n1)
    (h0 : n1.pte (px 1 va) = some n0) (l : Option Leaf) :
    pt.setLeaf va l =
      { pt with pte := update pt.pte (px 2 va) (some
        { n1 with pte := update n1.pte (px 1 va) (some
          { n0 with pte := update n0.pte (px 0 va) l }) }) } := by
  simp only [Table.setLeaf, h1, h0]

theorem node_setLeaf_same {pt : Table} {n0 : Node0} (h : pt.node va = some n0) (hp : SamePath va va')
    (l : Option Leaf) :
    (pt.setLeaf va l).node va' = some { n0 with pte := update n0.pte (px 0 va) l } := by
  obtain ⟨n1, h1, h0⟩ := node_some h
  rw [setLeaf_eq h1 h0]
  simp [Table.node, ← hp.1, ← hp.2]

theorem node_setLeaf_other {pt : Table} {n0 : Node0} (h : pt.node va = some n0) (hp : ¬ SamePath va va')
    (l : Option Leaf) : (pt.setLeaf va l).node va' = pt.node va' := by
  obtain ⟨n1, h1, h0⟩ := node_some h
  rw [setLeaf_eq h1 h0]
  by_cases h2 : px 2 va = px 2 va'
  · have hne : px 1 va' ≠ px 1 va := fun he => hp ⟨h2, he.symm⟩
    simp [Table.node, ← h2, h1, update_of_ne hne]
  · simp [Table.node, update_of_ne (Ne.symm h2)]

theorem leaf_setLeaf {pt : Table} (hn : (pt.node va).isSome) (hv : vpn va < 2 ^ 27) (hv' : vpn va' < 2 ^ 27)
    (l : Option Leaf) : (pt.setLeaf va l).leaf va' = if vpn va' = vpn va then l else pt.leaf va' := by
  obtain ⟨n0, hn⟩ := Option.isSome_iff_exists.mp hn
  by_cases hp : SamePath va va'
  · simp only [Table.leaf, node_setLeaf_same hn hp, ← node_congr hp, hn, Option.bind_some]
    by_cases h0 : px 0 va = px 0 va'
    · rw [if_pos (vpn_eq_of_px hv hv' hp.1 hp.2 h0).symm, ← h0, update_self]
    · rw [if_neg fun he => h0 (px_congr 0 he.symm), update_of_ne (Ne.symm h0)]
  · have hne : vpn va' ≠ vpn va := fun he => hp ⟨px_congr 2 he.symm, px_congr 1 he.symm⟩
    rw [if_neg hne]
    simp only [Table.leaf, node_setLeaf_other hn hp]

theorem isSome_node_setLeaf {pt : Table} (hn : (pt.node va).isSome) (l : Option Leaf) :
    ((pt.setLeaf va l).node va').isSome = (pt.node va').isSome := by
  obtain ⟨n0, hn⟩ := Option.isSome_iff_exists.mp hn
  by_cases hp : SamePath va va'
  · rw [node_setLeaf_same hn hp, ← node_congr hp, hn]
    rfl
  · rw [node_setLeaf_other hn hp]

theorem isSome_pte_setLeaf {pt : Table} (hn : (pt.node va).isSome) (l : Option Leaf) (i : Fin 512) :
    ((pt.setLeaf va l).pte i).isSome = (pt.pte i).isSome := by
  obtain ⟨n0, hn⟩ := Option.isSome_iff_exists.mp hn
  obtain ⟨n1, h1, h0⟩ := node_some hn
  rw [setLeaf_eq h1 h0]
  by_cases hi : i = px 2 va
  · simp [hi, h1]
  · simp [update_of_ne hi]

def lacks (pt : Table) (va : Nat) : Nat :=
  (if (pt.pte (px 2 va)).isSome then 0 else 1) + if (pt.node va).isSome then 0 else 1

theorem lacks_le (pt : Table) (va : Nat) : pt.lacks va ≤ 2 := by
  simp only [lacks]
  split <;> split <;> omega

end Table

structure Opened (pt : Table) (va : Nat) (pt' : Table) : Prop where
  top : ∀ va', (pt'.pte (px 2 va')).isSome ↔ (pt.pte (px 2 va')).isSome ∨ px 2 va = px 2 va'
  node : ∀ va', (pt'.node va').isSome ↔ (pt.node va').isSome ∨ SamePath va va'

theorem Opened.setLeaf (h : Opened pt va pt') (hn : (pt'.node va).isSome) (l : Option Leaf) :
    Opened pt va (pt'.setLeaf va l) := by
  constructor
  · intro va'
    rw [Table.isSome_pte_setLeaf hn, h.top]
  · intro va'
    rw [Table.isSome_node_setLeaf hn, h.node]

def Ram.weight (w : Frame → Nat) (m : Ram) : Nat := (m.free.map w).sum

def Node1.weight (w : Frame → Nat) (n : Node1) : Nat :=
  w n.frame + ∑ j, (n.pte j).elim 0 fun n0 => w n0.frame

def Table.nodeWeight (w : Frame → Nat) (pt : Table) : Nat :=
  w pt.frame + ∑ i, (pt.pte i).elim 0 (Node1.weight w)

def Table.mapped (w : Frame → Nat) (pt : Table) (v : Nat) : Nat :=
  (pt.leaf (v * pgsize)).elim 0 fun l => w l.frame

/-- The pages below TRAPFRAME. Taken as a set, since a range of that length must never be unfolded. -/
noncomputable def userVpns : Finset Nat := (Set.finite_lt_nat trapframeVpn).toFinset

theorem mem_userVpns : v ∈ userVpns ↔ v < trapframeVpn := by
  unfold userVpns
  exact Set.Finite.mem_toFinset _

noncomputable def Table.leafWeight (w : Frame → Nat) (pt : Table) : Nat :=
  ∑ v ∈ userVpns, pt.mapped w v

noncomputable def Table.weight (w : Frame → Nat) (pt : Table) : Nat := pt.nodeWeight w + pt.leafWeight w

theorem Table.nodeWeight_setLeaf {pt : Table} (w : Frame → Nat) (hn : (pt.node va).isSome) (l : Option Leaf) :
    (pt.setLeaf va l).nodeWeight w = pt.nodeWeight w := by
  obtain ⟨n0, hn⟩ := Option.isSome_iff_exists.mp hn
  obtain ⟨n1, h1, h0⟩ := Table.node_some hn
  rw [Table.setLeaf_eq h1 h0]
  simp only [Table.nodeWeight]
  have hroot := sum_update (fun _ (o : Option Node1) => o.elim 0 (Node1.weight w)) pt.pte (px 2 va) (some
    { n1 with pte := update n1.pte (px 1 va) (some
      { n0 with pte := update n0.pte (px 0 va) l }) })
  have hmid := sum_update (fun _ (o : Option Node0) => o.elim 0 fun n => w n.frame) n1.pte (px 1 va) (some
    { n0 with pte := update n0.pte (px 0 va) l })
  simp only [h1, h0, Option.elim_some, Node1.weight] at hroot hmid
  omega

theorem Table.mapped_setLeaf {pt : Table} (w : Frame → Nat) (hn : (pt.node va).isSome) (hv : vpn va < 2 ^ 27)
    (l : Option Leaf) (hu : u < 2 ^ 27) :
    (pt.setLeaf va l).mapped w u =
      update (pt.mapped w) (vpn va) (l.elim 0 fun l => w l.frame) u := by
  simp only [Table.mapped]
  rw [Table.leaf_setLeaf hn hv (by rw [vpn_page]; exact hu), vpn_page]
  by_cases he : u = vpn va
  · subst he
    simp
  · simp [he, Table.mapped]

/-- Storing a leaf below TRAPFRAME changes the weight by that leaf. -/
theorem Table.weight_setLeaf {pt : Table} (w : Frame → Nat) (hn : (pt.node va).isSome)
    (hv : vpn va < trapframeVpn) (l : Option Leaf) :
    (pt.setLeaf va l).weight w + (pt.leaf va).elim 0 (fun l => w l.frame) =
      pt.weight w + l.elim 0 fun l => w l.frame := by
  have hv' : vpn va < 2 ^ 27 := Nat.lt_trans hv (by decide)
  have hsum : (pt.setLeaf va l).leafWeight w =
      ∑ u ∈ userVpns, update (pt.mapped w) (vpn va) (l.elim 0 fun l => w l.frame) u := by
    apply Finset.sum_congr rfl
    intro u hu
    have hu := mem_userVpns.mp hu
    exact Table.mapped_setLeaf w hn hv' l (Nat.lt_trans hu (by decide))
  have hchange := sum_update_mem userVpns (fun _ (x : Nat) => x) (pt.mapped w)
    (mem_userVpns.mpr hv) (l.elim 0 fun l => w l.frame)
  have hold : pt.mapped w (vpn va) = (pt.leaf va).elim 0 fun l => w l.frame := by
    simp only [Table.mapped]
    rw [Table.leaf_congr (vpn_page _)]
  simp only [Table.weight, Table.nodeWeight_setLeaf w hn, hsum, ← hold]
  simp only [Table.leafWeight]
  omega

theorem Table.weight_setLeaf_high {pt : Table} (w : Frame → Nat) (hn : (pt.node va).isSome)
    (hlow : trapframeVpn ≤ vpn va) (hv : vpn va < 2 ^ 27) (l : Option Leaf) :
    (pt.setLeaf va l).weight w = pt.weight w := by
  have hsum : (pt.setLeaf va l).leafWeight w = pt.leafWeight w := by
    apply Finset.sum_congr rfl
    intro u hu
    have hu := mem_userVpns.mp hu
    rw [Table.mapped_setLeaf w hn hv l (Nat.lt_trans hu (by decide)), update_of_ne (by omega)]
  simp only [Table.weight, Table.nodeWeight_setLeaf w hn, hsum]

end Xv6Filter.Paging
