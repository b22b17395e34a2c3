import Xv6Filter.Proofs.Pages
import Xv6Filter.Kernel.Memory
import Mathlib.Algebra.BigOperators.Fin

namespace Xv6Filter.Paging
open Lib Function

theorem px_of_indices (i j k : Fin 512) :
    let va := ((i.val * 512 + j.val) * 512 + k.val) * pgsize
    vpn va < 2 ^ 27 ∧ px 2 va = i ∧ px 1 va = j ∧ px 0 va = k := by
  have hi := i.isLt
  have hj := j.isLt
  have hk := k.isLt
  have hsq : 512 ^ 2 = 262144 := by decide
  refine ⟨?_, Fin.ext ?_, Fin.ext ?_, Fin.ext ?_⟩ <;>
    simp only [px_vpn, vpn_page, Nat.pow_zero, Nat.div_one, Nat.pow_one, hsq] <;> omega

theorem sum_entries (f : Fin 512 → Nat) : (entries.map f).sum = ∑ i, f i := by
  have hall : entries = List.finRange 512 := by
    unfold entries
    exact Eq.refl _
  rw [hall]
  exact (Fin.sum_univ_def f).symm

theorem freeEntries_runs {pte : Fin 512 → Option α} {free : Ram → α → Checked Ram} (weigh : (Frame → Nat) → α → Nat)
    (is : List (Fin 512)) (hfree : ∀ m i n, m.first = first → pte i = some n →
      Runs (free m n) fun m' => Gave m m' ∧ ∀ w, m'.weight w = m.weight w + weigh w n)
    (hfirst : m.first = first) :
    Runs (Ram.freeEntries free pte is m) fun m' =>
      Gave m m' ∧ ∀ w, m'.weight w = m.weight w + (is.map fun i => (pte i).elim 0 (weigh w)).sum := by
  induction is generalizing m with
  | nil => exact ⟨Gave.refl m, fun w => rfl⟩
  | cons i is ih =>
    rw [Ram.freeEntries, List.foldlM_cons]
    cases hi : pte i with
    | none =>
      refine (ih hfirst).imp ?_
      rintro m' ⟨hgave, hw⟩
      refine ⟨hgave, fun w => ?_⟩
      rw [hw w, List.map_cons, List.sum_cons, hi]
      simp
    | some n =>
      refine (hfree m i n hfirst hi).bind ?_
      rintro m1 ⟨hgave1, hw1⟩
      refine (ih (hgave1.first.trans hfirst)).imp ?_
      rintro m' ⟨hgave, hw⟩
      refine ⟨hgave1.trans hgave, fun w => ?_⟩
      rw [hw w, hw1 w, List.map_cons, List.sum_cons, hi, Option.elim_some]
      omega

theorem Table.nodeWeight_entry {pt : Table} (w : Frame → Nat) (h : pt.pte i = some n1) :
    n1.weight w ≤ pt.nodeWeight w := by
  have hsum := Finset.single_le_sum (f := fun i => (pt.pte i).elim 0 (Node1.weight w)) (fun _ _ => Nat.zero_le _)
    (Finset.mem_univ i)
  simp only [h, Option.elim_some] at hsum
  simp only [Table.nodeWeight]
  omega

theorem Node1.weight_entry {n1 : Node1} (w : Frame → Nat) (h : n1.pte j = some n0) :
    w n0.frame ≤ n1.weight w := by
  have hsum := Finset.single_le_sum (f := fun j => (n1.pte j).elim 0 fun n => w n.frame) (fun _ _ => Nat.zero_le _)
    (Finset.mem_univ j)
  simp only [h, Option.elim_some] at hsum
  simp only [Node1.weight]
  omega

theorem freewalk0_runs {m : Ram} {n : Node0} (hempty : ∀ k, n.pte k = none) (hin : stray m.first n.frame = 0) :
    Runs (m.freewalk0 n) fun m' => Gave m m' ∧ ∀ w, m'.weight w = m.weight w + w n.frame := by
  have hfind : entries.findSome? n.pte = none :=
    List.findSome?_eq_none_iff.mpr fun k _ => hempty k
  rw [Ram.freewalk0, hfind]
  refine (Ram.kfree_runs hin).imp ?_
  rintro m' ⟨hgave, hw, -⟩
  exact ⟨hgave, fun w => (hw w).trans (Nat.add_comm ..)⟩

theorem freewalk1_runs {m : Ram} {n : Node1} (hempty : ∀ j n0, n.pte j = some n0 → ∀ k, n0.pte k = none)
    (hin : n.weight (stray m.first) = 0) :
    Runs (m.freewalk1 n) fun m' => Gave m m' ∧ ∀ w, m'.weight w = m.weight w + n.weight w := by
  have hbelow (m' : Ram) (j n0) (hfirst : m'.first = m.first) (h0 : n.pte j = some n0) :
      Runs (m'.freewalk0 n0) fun m'' => Gave m' m'' ∧ ∀ w, m''.weight w = m'.weight w + w n0.frame := by
    apply freewalk0_runs (hempty j n0 h0)
    have hle := Node1.weight_entry (stray m.first) h0
    rw [hfirst]
    omega
  unfold Ram.freewalk1
  refine (freeEntries_runs (fun w (n0 : Node0) => w n0.frame) _ hbelow rfl).bind ?_
  rintro m1 ⟨hgave, hw⟩
  have hroot : stray m1.first n.frame = 0 := by
    rw [hgave.first]
    simp only [Node1.weight] at hin
    omega
  refine (Ram.kfree_runs hroot).imp ?_
  rintro m' ⟨hgave', hw', -⟩
  refine ⟨hgave.trans hgave', fun w => ?_⟩
  rw [hw' w, hw w, sum_entries, Node1.weight]
  omega

/-- `freewalk` of a table without leaves gives all its page-table pages back. -/
theorem freewalk_runs {m : Ram} {pt : Table} (hs : Sound m pt) (hnone : ∀ va, vpn va < 2 ^ 27 → pt.leaf va = none) :
    Runs (m.freewalk pt) fun m' => Gave m m' ∧ ∀ w, m'.weight w = held w m pt := by
  have hstray : pt.nodeWeight (stray m.first) = 0 := by
    have hin := hs.inside
    simp only [held, Table.weight] at hin
    omega
  have hleaves (w) : pt.leafWeight w = 0 := by
    apply Finset.sum_eq_zero
    intro v hv
    have hv := mem_userVpns.mp hv
    have hbig : vpn (v * pgsize) < 2 ^ 27 := by
      rw [vpn_page]
      exact Nat.lt_trans hv (by decide)
    simp [Table.mapped, hnone _ hbig]
  have hbelow (m' : Ram) (i n1) (hfirst : m'.first = m.first) (h1 : pt.pte i = some n1) :
      Runs (m'.freewalk1 n1) fun m'' => Gave m' m'' ∧ ∀ w, m''.weight w = m'.weight w + n1.weight w := by
    apply freewalk1_runs
    · intro j n0 h0 k
      obtain ⟨hv, h2', h1', h0'⟩ := px_of_indices i j k
      have hleaf := hnone _ hv
      rw [Table.leaf, Table.node, h2', h1', h0', h1, Option.bind_some, h0, Option.bind_some] at hleaf
      exact hleaf
    · have hle := Table.nodeWeight_entry (stray m.first) h1
      rw [hfirst]
      omega
  unfold Ram.freewalk
  refine (freeEntries_runs Node1.weight _ hbelow rfl).bind ?_
  rintro m1 ⟨hgave, hw⟩
  have hroot : stray m1.first pt.frame = 0 := by
    rw [hgave.first]
    simp only [Table.nodeWeight] at hstray
    omega
  refine (Ram.kfree_runs hroot).imp ?_
  rintro m' ⟨hgave', hw', -⟩
  refine ⟨hgave.trans hgave', fun w => ?_⟩
  rw [hw' w, hw w, sum_entries, held, Table.weight, hleaves, Table.nodeWeight]
  omega

/-- `uvmfree` gives everything back: the table had no leaf above its size. -/
theorem uvmfree_runs {m : Ram} {pt : Table} (hs : Sound m pt) (hsz : sz ≤ trapframeVa)
    (huser : ∀ va, vpn va < 2 ^ 27 → pages sz ≤ vpn va → pt.leaf va = none) :
    Runs (m.uvmfree pt sz) fun m' => Gave m m' ∧ ∀ w, m'.weight w = held w m pt := by
  have hunmap : Runs (if 0 < sz then m.uvmunmap pt 0 (pgroundup sz / pgsize) true else .ok (m, pt))
      fun r => Unmapped m pt 0 (pages sz) r.1 r.2 := by
    split
    · have hpages : pgroundup sz / pgsize = pages sz := by
        rw [pgroundup_eq hsz]
        exact Nat.mul_div_cancel _ (by decide)
      have hrun := uvmunmap_runs (v := 0) (n := pages sz) hs (by rw [Nat.zero_add]; exact pages_le hsz)
      rw [Nat.zero_mul, Nat.zero_add] at hrun
      rw [hpages]
      exact hrun
    · have hzero : pages sz = 0 := by
        simp only [pages, pgsize]
        omega
      rw [hzero]
      exact Unmapped.refl m pt (Nat.le_refl 0)
  unfold Ram.uvmfree
  refine hunmap.bind ?_
  rintro ⟨m1, pt1⟩ hu
  refine (freewalk_runs (hu.sound hs) ?_).imp ?_
  · intro va hva
    rw [hu.leaf va hva]
    split
    · rfl
    · exact huser va hva (by omega)
  · rintro m' ⟨hgave, hw⟩
    exact ⟨hu.gave.trans hgave, fun w => (hw w).trans (hu.held w)⟩

/-- The page table of a process: user pages below `n`, the trapframe and the trampoline above
them, for the kernel only. -/
structure Shaped (pt : Table) (n : Nat) (trampoline tf : Frame) : Prop where
  user : ∀ va, vpn va < 2 ^ 27 → n ≤ vpn va → vpn va ≠ trapframeVpn → vpn va ≠ trapframeVpn + 1 → pt.leaf va = none
  trapframe : pt.leaf trapframeVa = some ⟨tf, true, true, false, false⟩
  trampoline : pt.leaf trampolineVa = some ⟨trampoline, true, false, true, false⟩

theorem vpn_trapframe : vpn trapframeVa = trapframeVpn := rfl

theorem vpn_trampoline : vpn trampolineVa = trapframeVpn + 1 := by decide

/-- The leaves of TRAPFRAME and TRAMPOLINE at any address of their pages. -/
theorem Shaped.leaf_trapframe (h : Shaped pt n tr tf) (hva : vpn va = trapframeVpn) :
    pt.leaf va = some ⟨tf, true, true, false, false⟩ := by
  rw [Table.leaf_congr (hva.trans vpn_trapframe.symm), h.trapframe]

theorem Shaped.leaf_trampoline (h : Shaped pt n tr tf) (hva : vpn va = trapframeVpn + 1) :
    pt.leaf va = some ⟨tr, true, false, true, false⟩ := by
  rw [Table.leaf_congr (hva.trans vpn_trampoline.symm), h.trampoline]

theorem Shaped.congr (h : Shaped pt n tr tf)
    (hhigh : ∀ va, vpn va < 2 ^ 27 → trapframeVpn ≤ vpn va → pt'.leaf va = pt.leaf va)
    (huser : ∀ va, vpn va < trapframeVpn → n' ≤ vpn va → pt'.leaf va = none) (hle : n ≤ trapframeVpn) :
    Shaped pt' n' tr tf := by
  refine ⟨?_, ?_, ?_⟩
  · intro va hva hn ht ht'
    by_cases hlow : vpn va < trapframeVpn
    · exact huser va hlow hn
    · rw [hhigh va hva (by omega)]
      exact h.user va hva (by omega) ht ht'
  · rw [hhigh _ (by decide) (by decide)]
    exact h.trapframe
  · rw [hhigh _ (by decide) (by decide)]
    exact h.trampoline

/-- `proc_freepagetable` panics on no table of the right shape, and frees every page of it. -/
theorem procFreepagetable_runs {m : Ram} {pt : Table} (hs : Sound m pt) (hsz : sz ≤ trapframeVa)
    (hshape : Shaped pt (pages sz) tr tf) :
    Runs (m.procFreepagetable pt sz) fun m' => Gave m m' ∧ ∀ w, m'.weight w = held w m pt := by
  have htramp : trampolineVa = (trapframeVpn + 1) * pgsize := by decide
  have htrap : trapframeVa = trapframeVpn * pgsize := by decide
  unfold Ram.procFreepagetable
  rw [htramp, htrap]
  refine (unmapHigh_runs (Nat.le_succ _) (by decide)).bind ?_
  rintro ⟨m1, pt1⟩ ⟨rfl, hw1, hleaf1⟩
  refine (unmapHigh_runs (Nat.le_refl _) (by decide)).bind ?_
  rintro ⟨m2, pt2⟩ ⟨rfl, hw2, hleaf2⟩
  dsimp only at hw1 hw2 hleaf1 hleaf2
  have hheld (w) : held w m2 pt2 = held w m2 pt := by
    simp only [held, hw2, hw1]
  refine (uvmfree_runs (hs.congr rfl hheld) hsz ?_).imp ?_
  · intro va hva hn
    rw [hleaf2 va hva, hleaf1 va hva]
    split
    · rfl
    · split
      · rfl
      · exact hshape.user va hva hn ‹_› ‹_›
  · rintro m' ⟨hgave, hw⟩
    exact ⟨hgave, fun w => (hw w).trans (hheld w)⟩

structure Clean (m : Ram) : Prop where
  inside : m.weight (stray m.first) = 0
  single : ∀ f, m.weight (at_ f) ≤ 1

theorem Sound.clean (h : Sound m pt) : Clean m := by
  constructor
  · have hin := h.inside
    simp only [held] at hin
    omega
  · intro f
    have hle := h.single f
    simp only [held] at hle
    omega

theorem Clean.sound (h : Clean m) (hfirst : m'.first = m.first) (hheld : ∀ w, held w m' pt' = m.weight w) :
    Sound m' pt' := by
  constructor
  · rw [hfirst, hheld]
    exact h.inside
  · intro f
    rw [hheld]
    exact h.single f

theorem uvmcreate_some {m : Ram} (h : m.uvmcreate = some (pt, m')) :
    Took m m' ∧ (∀ w, held w m' pt = m.weight w) ∧ (∀ va, pt.leaf va = none) ∧ (∀ va, pt.lacks va = 2) ∧
      m.free.length = m'.free.length + 1 := by
  obtain ⟨⟨f, m1⟩, hz, he⟩ := Option.map_eq_some_iff.mp h
  cases he
  obtain ⟨hfree, htook, -⟩ := Ram.zalloc_some hz
  refine ⟨htook, ?_, fun va => by simp [Table.leaf, Table.node], fun va => by simp [Table.lacks, Table.node],
    by rw [hfree]; rfl⟩
  intro w
  rw [Ram.weight_of_free w hfree]
  simp [held, Table.weight, Table.nodeWeight, Table.leafWeight, Table.mapped, Table.leaf, Table.node]
  omega

def TableMade (m : Ram) (tf : Frame) (made : Option Table) (m' : Ram) : Prop :=
  m'.first = m.first ∧ m'.trampoline = m.trampoline ∧
    match made with
    | none => (∀ w, m'.weight w = m.weight w) ∧ (∀ f, f ∉ m.free → m'.data f = m.data f) ∧ m.free.length < 3
    | some pt => Took m m' ∧ (∀ w, held w m' pt = m.weight w) ∧ Shaped pt 0 m.trampoline tf ∧
        m.free.length = m'.free.length + 3

/-- `proc_pagetable` returns, and a failure takes no page. -/
theorem procPagetable_runs {m : Ram} (hc : Clean m) (tf : Frame) :
    Runs (m.procPagetable tf) fun r => TableMade m tf r.1 r.2 := by
  unfold Ram.procPagetable
  split
  · rename_i hnone
    have hfree := Ram.zalloc_none (Option.map_eq_none_iff.mp hnone)
    exact ⟨rfl, rfl, fun _ => rfl, fun _ _ => rfl, by simp [hfree]⟩
  · rename_i pt0 m0 hsome
    obtain ⟨htook0, hheld0, hleaf0, hlacks0, hlen0⟩ := uvmcreate_some hsome
    have hs0 : Sound m0 pt0 := hc.sound htook0.first hheld0
    refine (mapPage_runs (by decide) (by decide) (hleaf0 _) m0.trampoline ⟨true, false, true, false⟩).bind ?_
    rintro ⟨mapped1, m1, pt1⟩ hm1
    dsimp only at hm1
    have hheld1 := hm1.high (by decide)
    have hs1 : Sound m1 pt1 := hs0.congr hm1.took.first hheld1
    cases mapped1 with
    | false =>
      have hempty (va) (hva : vpn va < 2 ^ 27) : pt1.leaf va = none := by
        rw [hm1.leaf va hva]
        simp [hleaf0]
      refine (uvmfree_runs hs1 (Nat.zero_le _) fun va hva _ => hempty va hva).bind ?_
      rintro m2 ⟨hgave, hw⟩
      have hshort := hm1.few
      have htook := htook0.trans hm1.took
      have hback (w) : m2.weight w = m.weight w := by rw [hw, hheld1, hheld0]
      refine ⟨hgave.first.trans htook.first, hgave.trampoline.trans htook.trampoline, hback, ?_, by omega⟩
      intro f hf
      rw [hgave.data f (Ram.not_mem_of_weight hback hf), htook.data f hf]
    | true =>
      have hfresh : pt1.leaf trapframeVa = none := by
        rw [hm1.leaf _ (by decide), if_neg (by decide)]
        exact hleaf0 _
      refine (mapPage_runs (by decide) (by decide) hfresh tf ⟨true, true, false, false⟩).bind ?_
      rintro ⟨mapped2, m2, pt2⟩ hm2
      dsimp only at hm2
      have hheld2 := hm2.high (by decide)
      have hs2 : Sound m2 pt2 := hs1.congr hm2.took.first hheld2
      obtain ⟨hopened, hpaid⟩ := hm1.paid rfl
      rw [hlacks0] at hpaid
      have hnode : (pt1.node trapframeVa).isSome := (hopened.node trapframeVa).mpr (.inr ⟨by decide, by decide⟩)
      have htop : (pt1.pte (px 2 trapframeVa)).isSome := (hopened.top trapframeVa).mpr (.inr (by decide))
      have hlacks1 : pt1.lacks trapframeVa = 0 := by simp [Table.lacks, hnode, htop]
      cases mapped2 with
      | false =>
        have hshort := hm2.short rfl
        omega
      | true =>
        have htook := htook0.trans (hm1.took.trans hm2.took)
        have hpaid' := (hm2.paid rfl).2
        refine ⟨htook.first, htook.trampoline, htook, ?_, ⟨?_, ?_, ?_⟩, ?_⟩
        · intro w
          rw [hheld2, hheld1, hheld0]
        · intro va hva _ ht ht'
          rw [hm2.leaf va hva, if_neg (by rw [vpn_trapframe]; simpa using ht), hm1.leaf va hva,
            if_neg (by rw [vpn_trampoline]; simpa using ht')]
          exact hleaf0 va
        · rw [hm2.leaf _ (by decide), if_pos ⟨rfl, rfl⟩]
        · rw [hm2.leaf _ (by decide), if_neg (by decide), hm1.leaf _ (by decide), if_pos ⟨rfl, rfl⟩, htook0.trampoline]
        · dsimp only
          omega

/-- Page `va` of the new table is a copy of the old one's: the same bits and bytes in a frame
that was free. -/
def CopyOf (m0 : Ram) (old : Table) (m : Ram) (new : Table) (va : Nat) : Prop :=
  match old.leaf va with
  | none => new.leaf va = none
  | some l => ∃ l', new.leaf va = some l' ∧ l'.perm = l.perm ∧ l'.frame ∈ m0.free ∧ l'.frame ∉ m.free ∧
      m.data l'.frame = m0.data l.frame

structure Copied (m0 : Ram) (old new0 : Table) (v : Nat) (m : Ram) (new : Table) : Prop where
  took : Took m0 m
  held : ∀ w, held w m new = held w m0 new0
  copy : ∀ va, vpn va < v → CopyOf m0 old m new va
  leaf : ∀ va, vpn va < 2 ^ 27 → v ≤ vpn va → new.leaf va = new0.leaf va

theorem Copied.refl (m : Ram) (old new : Table) : Copied m old new 0 m new :=
  ⟨Took.refl m, fun _ => rfl, fun _ h => absurd h (Nat.not_lt_zero _), fun _ _ _ => rfl⟩

theorem Copied.skip (h : Copied m0 old new0 v m new) (hnone : old.leaf (v * pgsize) = none)
    (hnew : new.leaf (v * pgsize) = none) : Copied m0 old new0 (v + 1) m new := by
  refine ⟨h.took, h.held, ?_, fun va hva hge => h.leaf va hva (by omega)⟩
  intro va hlt
  by_cases he : vpn va = v
  · have hsame : vpn va = vpn (v * pgsize) := by rw [vpn_page, he]
    simp only [CopyOf]
    rw [Table.leaf_congr hsame, hnone, Table.leaf_congr hsame, hnew]
  · exact h.copy va (by omega)

theorem Ram.kalloc_copy {m m' : Ram} (h : m.kalloc = some (mem, m')) (bytes : Nat → Byte) :
    Took m { m' with data := update m'.data mem bytes } := by
  obtain ⟨hfree, htook⟩ := kalloc_some h
  refine ⟨htook.first, htook.trampoline, htook.free, ?_⟩
  intro f hf
  rw [← htook.data f hf]
  exact update_of_ne (ne_of_not_mem_free hfree hf) ..

theorem Copied.snoc (h : Copied m0 old new0 v m new) (hs : Sound m new) (hlow : v < trapframeVpn)
    (hold : old.leaf (v * pgsize) = some l) (hother : l.frame ∉ m0.free) (hk : m.kalloc = some (mem, m1))
    (hm : Mapped { m1 with data := update m1.data mem (m1.data l.frame) } new (v * pgsize)
      ⟨mem, l.perm⟩ true m2 new2) : Copied m0 old new0 (v + 1) m2 new2 := by
  obtain ⟨hfree, htook⟩ := Ram.kalloc_some hk
  have htook1 := (Ram.kalloc_copy hk (m1.data l.frame)).trans hm.took
  have hmem : mem ∉ m1.free := hs.not_mem_free hfree
  have hstill : l.frame ∉ m.free := fun hin => hother (h.took.mem hin)
  refine ⟨h.took.trans htook1, ?_, ?_, ?_⟩
  · intro w
    have hlow' := hm.low (by rw [vpn_page]; exact hlow) w
    have hmoved := Ram.weight_of_free w hfree
    have hbefore := h.held w
    simp only [Paging.held, Ram.weight, if_true] at *
    omega
  · intro va hlt
    have hva : vpn va < 2 ^ 27 := Nat.lt_of_lt_of_le hlt (Nat.le_trans hlow (by decide))
    by_cases he : vpn va = v
    · have hsame : vpn va = vpn (v * pgsize) := by rw [vpn_page, he]
      simp only [CopyOf]
      rw [Table.leaf_congr hsame, hold]
      refine ⟨⟨mem, l.perm⟩, ?_, rfl, ?_, fun hin => hmem (hm.took.mem hin), ?_⟩
      · rw [hm.leaf va hva, if_pos ⟨rfl, hsame⟩]
      · exact h.took.mem (by rw [hfree]; exact List.mem_cons_self)
      · rw [hm.took.data mem hmem]
        simp only [update_self]
        rw [htook.data _ hstill, h.took.data _ hother]
    · have hcopy := h.copy va (by omega)
      simp only [CopyOf] at hcopy ⊢
      rw [hm.leaf va hva, vpn_page, if_neg fun hc => he hc.2]
      split at hcopy
      · exact hcopy
      · obtain ⟨l', hl', hperm, hwas, hout, hdata⟩ := hcopy
        refine ⟨l', hl', hperm, hwas, fun hin => hout (htook1.mem hin), ?_⟩
        rw [htook1.data _ hout, hdata]
  · intro va hva hge
    rw [hm.leaf va hva, vpn_page, if_neg (by omega)]
    exact h.leaf va hva (by omega)

theorem Copied.undo (h : Copied m0 old new0 v m new) (hfresh : ∀ va, vpn va < trapframeVpn → new0.leaf va = none)
    (hv : v ≤ trapframeVpn) (hr : Restored m new m2 new2) (hu : Unmapped m2 new2 0 v m3 new3) :
    Restored m0 new0 m3 new3 := by
  refine ⟨?_, ?_, ?_, ?_, ?_⟩
  · rw [hu.gave.first, hr.first, h.took.first]
  · rw [hu.gave.trampoline, hr.trampoline, h.took.trampoline]
  · intro va hva
    rw [hu.leaf va hva]
    split
    · exact (hfresh va (by omega)).symm
    · rw [hr.leaf va hva]
      exact h.leaf va hva (by omega)
  · intro w
    rw [hu.held, hr.held, h.held]
  · intro f hf
    rw [hu.data f, hr.data f fun hin => hf (h.took.mem hin), h.took.data f hf]
    intro va l hva _ hlt hl
    rw [hr.leaf va hva] at hl
    have hcopy := h.copy va hlt
    simp only [CopyOf] at hcopy
    split at hcopy
    · rw [hcopy] at hl
      cases hl
    · obtain ⟨l', hl', -, hwas, -⟩ := hcopy
      rw [hl'] at hl
      cases hl
      rintro rfl
      exact hf hwas

/-- The loop of `uvmcopy` copies every page that is there, or takes all copies back. -/
theorem copyLoop_runs {m0 : Ram} {old new0 : Table} (hs : Sound m0 new0)
    (hfresh : ∀ va, vpn va < trapframeVpn → new0.leaf va = none)
    (hother : ∀ va l, vpn va < trapframeVpn → old.leaf va = some l → l.frame ∉ m0.free)
    (hv : v + n ≤ trapframeVpn) (hc : Copied m0 old new0 v m new) :
    Runs (Ram.copyLoop old n m new (v * pgsize)) fun r =>
      (r.1 = true ∧ Copied m0 old new0 (v + n) r.2.1 r.2.2) ∨ (r.1 = false ∧ Restored m0 new0 r.2.1 r.2.2) := by
  induction n generalizing v m new with
  | zero => exact .inl ⟨rfl, hc⟩
  | succ n ih =>
    have hsound : Sound m new := hs.congr hc.took.first hc.held
    have hlow : v < trapframeVpn := by omega
    have hva : v * pgsize < maxva := by
      simp only [trapframeVpn, trapframeVa, trampolineVa, maxva, pgsize] at *
      omega
    have hv' : vpn (v * pgsize) < trapframeVpn := by
      rw [vpn_page]
      exact hlow
    have hrange : v + 1 + n = v + (n + 1) := by omega
    have hunmapped : new.leaf (v * pgsize) = none := by
      rw [hc.leaf _ (Nat.lt_trans hv' (by decide)) (by rw [vpn_page])]
      exact hfresh _ hv'
    have hskip (hnone : old.leaf (v * pgsize) = none) :=
      ih (by omega) (hc.skip hnone hunmapped)
    rw [hrange] at hskip
    have hundo {m2 : Ram} {new2 : Table} (hr : Restored m new m2 new2) :
        Runs (m2.uvmunmap new2 0 (v * pgsize / pgsize) true) fun r => Restored m0 new0 r.1 r.2 := by
      have hrun := uvmunmap_runs (v := 0) (n := v) (hsound.congr hr.first hr.held) (by omega)
      rw [Nat.zero_mul, Nat.zero_add] at hrun
      rw [Nat.mul_div_cancel v (by decide)]
      exact hrun.imp fun r hu => hc.undo hfresh (Nat.le_of_lt hlow) hr hu
    simp only [Ram.copyLoop, next_page]
    rw [Table.walk_eq hva, ok_bind]
    cases hnode : old.node (v * pgsize) with
    | none => exact hskip (by simp [Table.leaf, hnode])
    | some n0 =>
      cases hl : n0.pte (px 0 (v * pgsize)) with
      | none =>
        simp only [Option.map_some, hl]
        exact hskip (by simp [Table.leaf, hnode, hl])
      | some l =>
        have hold : old.leaf (v * pgsize) = some l := by simp [Table.leaf, hnode, hl]
        simp only [Option.map_some, hl]
        split
        · refine (hundo (Restored.refl m new)).bind ?_
          rintro ⟨m1, new1⟩ hr
          exact .inr ⟨rfl, hr⟩
        · rename_i mem m1 hk
          obtain ⟨hfree, -⟩ := Ram.kalloc_some hk
          refine (mapPage_runs hva (Nat.mul_mod_left ..) hunmapped mem l.perm).bind ?_
          rintro ⟨mapped, m2, new2⟩ hm
          cases mapped with
          | true =>
            have hnext := ih (by omega) (hc.snoc hsound hlow hold (hother _ _ hv' hold) hk hm)
            rw [hrange] at hnext
            exact hnext
          | false =>
            refine (hm.undo hv' hfree (Ram.kalloc_copy hk _) hsound).bind ?_
            intro m3 hr
            refine (hundo hr).bind ?_
            rintro ⟨m4, new4⟩ hr
            exact .inr ⟨rfl, hr⟩

theorem uvmcopy_runs {m : Ram} {old new : Table} (hs : Sound m new) (hsz : sz ≤ trapframeVa)
    (hfresh : ∀ va, vpn va < trapframeVpn → new.leaf va = none)
    (hother : ∀ va l, vpn va < trapframeVpn → old.leaf va = some l → l.frame ∉ m.free) :
    Runs (m.uvmcopy old new sz) fun r =>
      (r.1 = true ∧ Copied m old new (pages sz) r.2.1 r.2.2) ∨ (r.1 = false ∧ Restored m new r.2.1 r.2.2) := by
  have hbound : 0 + pages sz ≤ trapframeVpn := by
    rw [Nat.zero_add]
    exact pages_le hsz
  have hrun := copyLoop_runs hs hfresh hother hbound (Copied.refl m old new)
  rw [Nat.zero_mul, Nat.zero_add] at hrun
  exact hrun

end Xv6Filter.Paging
