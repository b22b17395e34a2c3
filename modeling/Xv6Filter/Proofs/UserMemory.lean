import Xv6Filter.Proofs.FaultCost
import Xv6Filter.Proofs.Spaces

namespace Xv6Filter.Paging
open Lib Function

/-- The bits and bytes of user page `v`: those of its frame, or the zeroed page that `vmfault`
would map there. -/
def Ram.seen (m : Ram) (p : Space) (v : Nat) : Option (Perm × (Nat → Byte)) :=
  if maxva ≤ v * pgsize then none
  else match p.pagetable.leaf (v * pgsize) with
    | some l => if l.perm.u then some (l.perm, m.data l.frame) else none
    | none => if v * pgsize < p.sz then some (⟨true, true, false, true⟩, fun _ => 0) else none

structure Fit (m : Ram) (p : Space) (tf : Frame) : Prop where
  sound : Sound m p.pagetable
  shape : Shaped p.pagetable (pages p.sz) m.trampoline tf
  size : p.sz ≤ trapframeVa

/-- An address space for the copy functions: each frame is in one place, and the two pages above
the largest size are not for users. -/
structure Guarded (m : Ram) (p : Space) : Prop where
  sound : Sound m p.pagetable
  size : p.sz ≤ trapframeVa
  high : ∀ va l, va < maxva → trapframeVpn ≤ vpn va → p.pagetable.leaf va = some l → l.perm.u = false

theorem Fit.guarded (h : Fit m p tf) : Guarded m p := by
  refine ⟨h.sound, h.size, ?_⟩
  intro va l hva hhigh hl
  have hcases : vpn va = trapframeVpn ∨ vpn va = trapframeVpn + 1 := by
    simp only [vpn, trapframeVpn, trapframeVa, trampolineVa, maxva, pgsize] at *
    omega
  rcases hcases with he | he
  · rw [h.shape.leaf_trapframe he] at hl
    cases hl
    rfl
  · rw [h.shape.leaf_trampoline he] at hl
    cases hl
    rfl

structure Stable (m : Ram) (p : Space) (m' : Ram) (p' : Space) : Prop where
  sz : p'.sz = p.sz
  first : m'.first = m.first
  trampoline : m'.trampoline = m.trampoline
  held : ∀ w, held w m' p'.pagetable = held w m p.pagetable
  leaf : ∀ va, vpn va < 2 ^ 27 → pages p.sz ≤ vpn va → p'.pagetable.leaf va = p.pagetable.leaf va

namespace Stable

theorem refl (m : Ram) (p : Space) : Stable m p m p := ⟨rfl, rfl, rfl, fun _ => rfl, fun _ _ _ => rfl⟩

theorem trans (h : Stable m p m' p') (h' : Stable m' p' m'' p'') : Stable m p m'' p'' := by
  refine ⟨h'.sz.trans h.sz, h'.first.trans h.first, h'.trampoline.trans h.trampoline, ?_, ?_⟩
  · intro w
    rw [h'.held, h.held]
  · intro va hva hge
    rw [h'.leaf va hva (by rw [h.sz]; exact hge), h.leaf va hva hge]

theorem fit (h : Stable m p m' p') (hf : Fit m p tf) : Fit m' p' tf := by
  have hpages := pages_le hf.size
  refine ⟨hf.sound.congr h.first h.held, ?_, by rw [h.sz]; exact hf.size⟩
  rw [h.sz, h.trampoline]
  refine hf.shape.congr ?_ ?_ hpages
  · intro va hva hhigh
    exact h.leaf va hva (by omega)
  · intro va hlow hge
    have hva : vpn va < 2 ^ 27 := Nat.lt_trans hlow (by decide)
    rw [h.leaf va hva hge]
    exact hf.shape.user va hva hge (by omega) (by omega)

theorem guarded (h : Stable m p m' p') (hg : Guarded m p) : Guarded m' p' := by
  refine ⟨hg.sound.congr h.first h.held, by rw [h.sz]; exact hg.size, ?_⟩
  intro va l hva hhigh hl
  have hv : vpn va < 2 ^ 27 := by
    simp only [vpn, maxva, pgsize] at *
    omega
  rw [h.leaf va hv (Nat.le_trans (pages_le hg.size) hhigh)] at hl
  exact hg.high va l hva hhigh hl

theorem write (m : Ram) (p : Space) (f : Frame) (o : Nat) (bs : List Byte) : Stable m p (m.write f o bs) p :=
  ⟨rfl, rfl, rfl, fun _ => rfl, fun _ _ _ => rfl⟩

end Stable

theorem Sound.leaf_not_free (h : Sound m pt) (hl : pt.leaf va = some l) (hv : vpn va < trapframeVpn) :
    l.frame ∉ m.free := by
  intro hin
  have hfree := Ram.one_le_weight hin
  have hleaf := Table.le_weight (at_ l.frame) hl hv
  have hone := h.single l.frame
  rw [at_self] at hleaf
  simp only [held] at hone
  omega

theorem Sound.leaf_inj (h : Sound m pt) (hl : pt.leaf va = some l) (hl' : pt.leaf va' = some l')
    (hv : vpn va < trapframeVpn) (hv' : vpn va' < trapframeVpn) (hf : l'.frame = l.frame) : vpn va' = vpn va := by
  by_contra hne
  have hterm {va : Nat} {l : Leaf} (hl : pt.leaf va = some l) (w : Frame → Nat) :
      pt.mapped w (vpn va) = w l.frame := by
    simp only [Table.mapped]
    rw [Table.leaf_congr (vpn_page _), hl]
    rfl
  have hpair := Finset.add_le_sum (f := pt.mapped (at_ l.frame)) (fun _ _ => Nat.zero_le _)
    (mem_userVpns.mpr hv) (mem_userVpns.mpr hv') (Ne.symm hne)
  have hone := h.single l.frame
  rw [hterm hl, hterm hl', hf, at_self] at hpair
  simp only [held, Table.weight, Table.leafWeight] at hone
  omega

theorem Ram.seen_leaf {m : Ram} {p : Space} (hv : v * pgsize < maxva) (hl : p.pagetable.leaf (v * pgsize) = some l) :
    m.seen p v = if l.perm.u then some (l.perm, m.data l.frame) else none := by
  simp only [Ram.seen, Nat.not_le.mpr hv, if_false, hl]

theorem Ram.seen_lazy {m : Ram} {p : Space} (hv : v * pgsize < maxva) (hl : p.pagetable.leaf (v * pgsize) = none) :
    m.seen p v = if v * pgsize < p.sz then some (⟨true, true, false, true⟩, fun _ => 0) else none := by
  simp only [Ram.seen, Nat.not_le.mpr hv, if_false, hl]

theorem Ram.seen_beyond {m : Ram} {p : Space} (hv : maxva ≤ v * pgsize) : m.seen p v = none := by
  simp only [Ram.seen, hv, if_true]

theorem Guarded.seen_congr {m' : Ram} {p' : Space} (hg : Guarded m p) (hsz : p'.sz = p.sz)
    (hleaf : p'.pagetable.leaf (v * pgsize) = p.pagetable.leaf (v * pgsize))
    (hdata : ∀ f, f ∉ m.free → m'.data f = m.data f) : m'.seen p' v = m.seen p v := by
  by_cases hv : v * pgsize < maxva
  · cases hl : p.pagetable.leaf (v * pgsize) with
    | none =>
      rw [Ram.seen_lazy hv hl, Ram.seen_lazy hv (hleaf.trans hl), hsz]
    | some l =>
      rw [Ram.seen_leaf hv hl, Ram.seen_leaf hv (hleaf.trans hl)]
      by_cases hlow : v < trapframeVpn
      · rw [hdata _ (hg.sound.leaf_not_free hl (by rw [vpn_page]; exact hlow))]
      · rw [hg.high _ l hv (by rw [vpn_page]; exact Nat.not_lt.mp hlow) hl]
        rfl
  · rw [Ram.seen_beyond (Nat.not_lt.mp hv), Ram.seen_beyond (Nat.not_lt.mp hv)]

def Space.unmapped (p : Space) : Nat :=
  (List.range (pages p.sz)).countP fun v => (p.pagetable.leaf (v * pgsize)).isNone

/-- Enough free frames for every page that can still be faulted in, with its page-table pages. -/
def Roomy (m : Ram) (p : Space) : Prop := 3 * p.unmapped ≤ m.free.length

theorem pgrounddown_eq (va : Nat) : pgrounddown va = vpn va * pgsize := rfl

theorem vpn_lt_of_lt_sz (h : va < sz) : vpn va < pages sz := by
  simp only [vpn, pages, pgsize] at *
  omega

theorem Table.ismapped_eq {pt : Table} (h : va < maxva) : pt.ismapped va = .ok (pt.leaf va).isSome := by
  simp only [Table.ismapped, Table.walk_eq h, ok_bind, Table.leaf]
  cases hn : pt.node va with
  | none => rfl
  | some n =>
    cases hl : n.pte (px 0 va) with
    | none => simp [hl]
    | some l => simp [hl]

structure Faulted (m : Ram) (p : Space) (va : Nat) (f : Frame) (m' : Ram) (p' : Space) : Prop where
  below : va < p.sz
  lacking : p.pagetable.leaf va = none
  stable : Stable m p m' p'
  took : Took m m'
  leaf : ∀ va', vpn va' < 2 ^ 27 → p'.pagetable.leaf va' =
    if vpn va' = vpn va then some ⟨f, true, true, false, true⟩ else p.pagetable.leaf va'
  zero : m'.data f = fun _ => 0
  fresh : f ∈ m.free
  opened : Opened p.pagetable (vpn va * pgsize) p'.pagetable
  paid : m'.free.length + (1 + p.pagetable.lacks (vpn va * pgsize)) = m.free.length

structure NotFaulted (m : Ram) (p : Space) (va : Nat) (m' : Ram) (p' : Space) : Prop where
  sz : p'.sz = p.sz
  restored : Restored m p.pagetable m' p'.pagetable
  why : (p.sz ≤ va ∨ (p.pagetable.leaf va).isSome) ∧ m' = m ∧ p' = p ∨
    va < p.sz ∧ p.pagetable.leaf va = none ∧ m.free.length < 1 + p.pagetable.lacks (vpn va * pgsize)

theorem NotFaulted.stable (h : NotFaulted m p va m' p') : Stable m p m' p' :=
  ⟨h.sz, h.restored.first, h.restored.trampoline, h.restored.held, fun va hva _ => h.restored.leaf va hva⟩

/-- `vmfault` maps a zeroed page in a lazy place, and changes nothing if it cannot. -/
theorem vmfault_runs {m : Ram} {p : Space} (hg : Guarded m p) (va : Nat) :
    Runs (m.vmfault p p.pagetable va) fun r =>
      match r.1 with
      | none => NotFaulted m p va r.2.1 r.2.2
      | some f => Faulted m p va f r.2.1 r.2.2 := by
  unfold Ram.vmfault
  by_cases hsz : p.sz ≤ va
  · rw [if_pos hsz]
    exact ⟨rfl, Restored.refl _ _, .inl ⟨.inl hsz, rfl, rfl⟩⟩
  · have hlt : va < p.sz := Nat.not_le.mp hsz
    have hpage : vpn (pgrounddown va) = vpn va := by rw [pgrounddown_eq, vpn_page]
    have hlow : vpn va < trapframeVpn := Nat.lt_of_lt_of_le (vpn_lt_of_lt_sz hlt) (pages_le hg.size)
    have hmax : pgrounddown va < maxva := by
      simp only [pgrounddown_eq, trapframeVpn, trapframeVa, trampolineVa, maxva, pgsize] at *
      omega
    have hleaf : p.pagetable.leaf (pgrounddown va) = p.pagetable.leaf va := Table.leaf_congr hpage _
    rw [if_neg hsz]
    dsimp only
    rw [Table.ismapped_eq hmax, ok_bind, hleaf]
    cases hl : p.pagetable.leaf va with
    | some l => exact ⟨rfl, Restored.refl _ _, .inl ⟨.inr (by simp [hl]), rfl, rfl⟩⟩
    | none =>
      simp only [Option.isSome_none, Bool.false_eq_true, if_false]
      split
      · rename_i hnone
        exact ⟨rfl, Restored.refl _ _, .inr ⟨hlt, hl, by simp [Ram.zalloc_none hnone]⟩⟩
      · rename_i mem m1 hz
        obtain ⟨hfree, htook, hzero⟩ := Ram.zalloc_some hz
        have hmem : mem ∉ m1.free := hg.sound.not_mem_free hfree
        refine (mapPage_runs hmax (by rw [pgrounddown_eq]; exact Nat.mul_mod_left ..) (hleaf.trans hl) mem
          ⟨true, true, false, true⟩).bind ?_
        rintro ⟨mapped, m2, own⟩ hm
        dsimp only at hm
        cases mapped with
        | true =>
          have hall := htook.trans hm.took
          obtain ⟨hopened, hpaid⟩ := hm.paid rfl
          have hin : mem ∈ m.free := by
            rw [hfree]
            exact List.mem_cons_self
          refine ⟨hlt, hl, ⟨rfl, hall.first, hall.trampoline, ?_, ?_⟩, hall, ?_, ?_, hin, hopened, ?_⟩
          · intro w
            have hlow' := hm.low (by rw [hpage]; exact hlow) w
            have hmoved := Ram.weight_of_free w hfree
            simp only [held, if_true] at *
            omega
          · intro va' hva' hge
            have hne : vpn va' ≠ vpn va := by
              have := vpn_lt_of_lt_sz hlt
              omega
            rw [hm.leaf va' hva', hpage, if_neg fun hc => hne hc.2]
          · intro va' hva'
            rw [hm.leaf va' hva', hpage]
            simp
          · rw [hm.took.data mem hmem]
            exact hzero
          · rw [pgrounddown_eq] at hpaid
            rw [hfree, List.length_cons]
            dsimp only
            omega
        | false =>
          refine (hm.undo (by rw [hpage]; exact hlow) hfree htook hg.sound).bind ?_
          intro m3 hr
          have hshort := hm.short rfl
          rw [pgrounddown_eq] at hshort
          refine ⟨rfl, hr, .inr ⟨hlt, hl, ?_⟩⟩
          rw [hfree, List.length_cons]
          omega

theorem NotFaulted.seen (h : NotFaulted m p va m' p') (hg : Guarded m p) (v : Nat) : m'.seen p' v = m.seen p v := by
  by_cases hv : v * pgsize < maxva
  · have hva : vpn (v * pgsize) < 2 ^ 27 := by
      simp only [vpn, maxva, pgsize] at *
      omega
    exact hg.seen_congr h.sz (h.restored.leaf _ hva) h.restored.data
  · rw [Ram.seen_beyond (Nat.not_lt.mp hv), Ram.seen_beyond (Nat.not_lt.mp hv)]

theorem Faulted.seen (h : Faulted m p va f m' p') (hg : Guarded m p) (v : Nat) : m'.seen p' v = m.seen p v := by
  by_cases hv : v * pgsize < maxva
  · have hva : vpn (v * pgsize) < 2 ^ 27 := by
      simp only [vpn, maxva, pgsize] at *
      omega
    have hleaf := h.leaf _ hva
    rw [vpn_page] at hleaf
    by_cases he : v = vpn va
    · have hsame : vpn (v * pgsize) = vpn va := by rw [vpn_page, he]
      have hbelow : v * pgsize < p.sz := by
        have := h.below
        simp only [he, vpn, pgsize] at *
        omega
      rw [if_pos he] at hleaf
      rw [Ram.seen_leaf hv hleaf, Ram.seen_lazy hv ((Table.leaf_congr hsame _).trans h.lacking), if_pos hbelow,
        if_pos rfl, h.zero]
    · rw [if_neg he] at hleaf
      exact hg.seen_congr h.stable.sz hleaf h.took.data
  · rw [Ram.seen_beyond (Nat.not_lt.mp hv), Ram.seen_beyond (Nat.not_lt.mp hv)]

theorem Faulted.unmapped (h : Faulted m p va f m' p') (hg : Guarded m p) : p'.unmapped + 1 = p.unmapped := by
  have hlt := vpn_lt_of_lt_sz h.below
  have hbound := pages_le hg.size
  have hsmall {v : Nat} (hv : v < pages p.sz) : vpn (v * pgsize) < 2 ^ 27 := by
    rw [vpn_page]
    exact Nat.lt_of_lt_of_le hv (Nat.le_trans hbound (by decide))
  have hleaf {v : Nat} (hv : v < pages p.sz) := h.leaf _ (hsmall hv)
  simp only [vpn_page] at hleaf
  simp only [Space.unmapped, h.stable.sz]
  apply countP_range_drop hlt
  · have hsame : p.pagetable.leaf (vpn va * pgsize) = p.pagetable.leaf va := Table.leaf_congr (vpn_page _) _
    rw [hsame, h.lacking]
    rfl
  · rw [hleaf hlt, if_pos rfl]
    rfl
  · intro v hv hne
    rw [hleaf hv, if_neg hne]

/-- A process whose pages all fit in memory keeps them: a fault takes three frames at most and
leaves one page less to fault in. -/
theorem Faulted.roomy (h : Faulted m p va f m' p') (hg : Guarded m p) (hr : Roomy m p) : Roomy m' p' := by
  have hcount := h.unmapped hg
  have hpaid := h.paid
  have hpath := p.pagetable.lacks_le (vpn va * pgsize)
  simp only [Roomy] at *
  omega

theorem lacks_lt_of_roomy (hr : Roomy m p) (hlt : va < p.sz) (hl : p.pagetable.leaf va = none) (va' : Nat) :
    1 + p.pagetable.lacks va' ≤ m.free.length := by
  have hone : 0 < p.unmapped := by
    apply List.countP_pos_iff.mpr
    refine ⟨vpn va, List.mem_range.mpr (vpn_lt_of_lt_sz hlt), ?_⟩
    have hsame : p.pagetable.leaf (vpn va * pgsize) = p.pagetable.leaf va := Table.leaf_congr (vpn_page _) _
    rw [hsame, hl]
    rfl
  have hpath := p.pagetable.lacks_le va'
  simp only [Roomy] at hr
  omega

theorem lt_of_seen {m : Ram} {p : Space} (h : (m.seen p v).isSome) : v < 2 ^ 27 := by
  by_contra hv
  have hbeyond : maxva ≤ v * pgsize := by
    simp only [maxva, pgsize] at *
    omega
  rw [Ram.seen_beyond hbeyond] at h
  cases h

structure Got (m : Ram) (p : Space) (v : Nat) (got : Option Frame) (m' : Ram) (p' : Space) : Prop where
  stable : Stable m p m' p'
  seen : ∀ u, m'.seen p' u = m.seen p u
  roomy : Roomy m p → Roomy m' p'
  page : ∀ f, got = some f →
    ∃ l, p'.pagetable.leaf (v * pgsize) = some l ∧ l.frame = f ∧ l.perm.u = true ∧ v * pgsize < maxva
  lost : got = none → Roomy m p → m.seen p v = none
  data : ∀ f, f ∉ m.free → m'.data f = m.data f
  free : got.isSome → ∀ f, f ∈ m'.free → f ∈ m.free
  moved : ∀ va l, va < maxva → p'.pagetable.leaf va = some l → p.pagetable.leaf va = some l ∨ l.frame ∈ m.free
  short : got = none → m.seen p v = none ∨ ∀ vs, m.free.length < p.pagetable.faultCost (insert v vs)
  cost : got.isSome → ∀ vs, v ∉ vs → (∀ u ∈ vs, u < 2 ^ 27) →
    (p.pagetable.faultCost (insert v vs) ≤ m.free.length ↔ p'.pagetable.faultCost vs ≤ m'.free.length)

theorem vpn_lt_of_lt_maxva (h : va < maxva) : vpn va < 2 ^ 27 := by
  simp only [vpn, maxva, pgsize] at *
  omega

theorem Got.mapped {m : Ram} {p : Space} (hl : p.pagetable.leaf (v * pgsize) = some l) (hu : l.perm.u = true)
    (hv : v * pgsize < maxva) : Got m p v (some l.frame) m p := by
  refine ⟨Stable.refl m p, fun _ => rfl, id, ?_, by simp, fun _ _ => rfl, fun _ _ hin => hin,
    fun _ _ _ h => .inl h, by simp, ?_⟩
  · intro f hf
    cases hf
    exact ⟨l, hl, rfl, hu, hv⟩
  · intro _ vs _ _
    rw [Table.faultCost_mapped (by rw [hl]; rfl)]

theorem Faulted.got (h : Faulted m p (v * pgsize) f m' p') (hg : Guarded m p) : Got m p v (some f) m' p' := by
  have hmax : v * pgsize < maxva := by
    have hlt := h.below
    have hsz := hg.size
    simp only [trapframeVa, trampolineVa, maxva, pgsize] at *
    omega
  have hva := vpn_lt_of_lt_maxva hmax
  refine ⟨h.stable, h.seen hg, h.roomy hg, ?_, by simp, h.took.data, fun _ _ hin => h.took.mem hin, ?_, by simp, ?_⟩
  · intro g hg
    cases hg
    exact ⟨_, (h.leaf _ hva).trans (if_pos rfl), rfl, rfl, hmax⟩
  · intro va l hva hl
    rw [h.leaf va (vpn_lt_of_lt_maxva hva)] at hl
    split at hl
    · cases hl
      exact .inr h.fresh
    · exact .inl hl
  · intro _ vs hout hvs
    have hopened := h.opened
    have hpaid := h.paid
    rw [vpn_page] at hopened hpaid hva
    rw [Table.faultCost_insert hva hvs hout h.lacking ?_ hopened]
    · omega
    · intro u hu
      have hne : vpn (u * pgsize) ≠ vpn (v * pgsize) := by
        rw [vpn_page, vpn_page]
        rintro rfl
        exact hout hu
      rw [h.leaf _ (by rw [vpn_page]; exact hvs u hu), if_neg hne]

theorem NotFaulted.got (h : NotFaulted m p (v * pgsize) m' p') (hg : Guarded m p)
    (hnot : ∀ l, v * pgsize < maxva → p.pagetable.leaf (v * pgsize) = some l → l.perm.u = false) :
    Got m p v none m' p' := by
  have hseen : m.seen p v = none ∨ v * pgsize < p.sz ∧ p.pagetable.leaf (v * pgsize) = none ∧
      m.free.length < 1 + p.pagetable.lacks (v * pgsize) := by
    by_cases hv : v * pgsize < maxva
    · rcases h.why with ⟨hno, -, -⟩ | hshort
      · left
        cases hl : p.pagetable.leaf (v * pgsize) with
        | some l =>
          rw [Ram.seen_leaf hv hl, hnot l hv hl]
          rfl
        | none =>
          rw [hl] at hno
          rw [Ram.seen_lazy hv hl, if_neg (by simpa using hno)]
      · rw [vpn_page] at hshort
        exact .inr hshort
    · exact .inl (Ram.seen_beyond (Nat.not_lt.mp hv))
  refine ⟨h.stable, h.seen hg, ?_, by simp, ?_, h.restored.data, by simp, ?_, ?_, by simp⟩
  · intro hroom
    rcases h.why with ⟨-, rfl, rfl⟩ | ⟨hlt, hl, hfew⟩
    · exact hroom
    · exact absurd (lacks_lt_of_roomy hroom hlt hl _) (Nat.not_le.mpr hfew)
  · intro _ hroom
    rcases hseen with hnone | ⟨hlt, hl, hfew⟩
    · exact hnone
    · exact absurd (lacks_lt_of_roomy hroom hlt hl _) (Nat.not_le.mpr hfew)
  · intro va l hva hl
    rw [h.restored.leaf va (vpn_lt_of_lt_maxva hva)] at hl
    exact .inl hl
  · intro _
    rcases hseen with hnone | ⟨-, hl, hfew⟩
    · exact .inl hnone
    · refine .inr fun vs => ?_
      have hcost := Table.lacks_lt_faultCost hl vs
      omega

theorem userPage_runs {m : Ram} {p : Space} (hg : Guarded m p) (v : Nat) :
    Runs (m.userPage p none (v * pgsize)) fun r => Got m p v r.1 r.2.1 r.2.2 := by
  simp only [Ram.userPage, Option.getD_none]
  split
  · rename_i f hw
    simp only [Table.walkaddr] at hw
    split at hw
    · cases hw
    · rename_i hv
      split at hw
      · rename_i l hl
        split at hw
        · rename_i hu
          cases hw
          exact Got.mapped hl hu (Nat.not_le.mp hv)
        · cases hw
      · cases hw
  · rename_i hw
    have hnot : ∀ l, v * pgsize < maxva → p.pagetable.leaf (v * pgsize) = some l → l.perm.u = false := by
      intro l hv hl
      simp only [Table.walkaddr, Nat.not_le.mpr hv, if_false, hl] at hw
      simpa using hw
    refine (vmfault_runs hg (v * pgsize)).imp ?_
    rintro ⟨got, m', p'⟩ hr
    cases got with
    | none => exact NotFaulted.got hr hg hnot
    | some f => exact Faulted.got hr hg

abbrev Seen := Nat → Option (Perm × (Nat → Byte))

def Seen.load (s : Seen) : Nat → Nat → List Byte × Bool
  | 0, _ => ([], true)
  | n + 1, va =>
    match s (vpn va) with
    | none => ([], false)
    | some (_, d) => (d (va % pgsize) :: (load s n (va + 1)).1, (load s n (va + 1)).2)

def Seen.store (s : Seen) : List Byte → Nat → Seen × Bool
  | [], _ => (s, true)
  | b :: bs, va =>
    match s (vpn va) with
    | none => (s, false)
    | some (perm, d) =>
      if perm.w then store (update s (vpn va) (some (perm, update d (va % pgsize) b))) bs (va + 1)
      else (s, false)

def Seen.byte (s : Seen) (va : Nat) : Option Byte := (s (vpn va)).map fun page => page.2 (va % pgsize)

/-- Bytes that were all stored are found in their places, and no other byte changed. -/
theorem Seen.byte_store {s t : Seen} (h : s.store bs va = (t, true)) (a : Nat) :
    t.byte a = if va ≤ a ∧ a < va + bs.length then bs[a - va]? else s.byte a := by
  induction bs generalizing s va with
  | nil =>
    cases h
    rw [List.length_nil, if_neg (by omega)]
  | cons b bs ih =>
    rw [Seen.store] at h
    split at h
    · cases h
    · rename_i perm d hs
      split at h
      · rw [ih h, List.length_cons]
        by_cases ha : a = va
        · subst ha
          rw [if_neg (by omega), if_pos (by omega), Nat.sub_self]
          simp [Seen.byte]
        · by_cases hin : va + 1 ≤ a ∧ a < va + 1 + bs.length
          · have hsub : a - va = a - (va + 1) + 1 := by omega
            rw [if_pos hin, if_pos (by omega), hsub, List.getElem?_cons_succ]
          · rw [if_neg hin, if_neg (by omega)]
            simp only [Seen.byte]
            by_cases hv : vpn a = vpn va
            · have hmod : a % pgsize ≠ va % pgsize := by
                intro he
                apply ha
                rw [← Nat.div_add_mod a pgsize, ← Nat.div_add_mod va pgsize, he]
                exact congrArg (pgsize * · + va % pgsize) hv
              rw [hv, update_self, hs]
              simp [update_of_ne hmod]
            · rw [update_of_ne hv]
      · cases h

theorem vpn_add {v o : Nat} (h : o < pgsize) : vpn (v * pgsize + o) = v := by
  rw [vpn, Nat.mul_comm, Nat.mul_add_div (by decide), Nat.div_eq_of_lt h, Nat.add_zero]

theorem mod_add {v o : Nat} (h : o < pgsize) : (v * pgsize + o) % pgsize = o := by
  rw [Nat.mul_comm, Nat.mul_add_mod, Nat.mod_eq_of_lt h]

theorem Seen.load_page {s : Seen} (hs : s v = some (perm, d)) (k n : Nat) (ho : o + k ≤ pgsize) :
    s.load (k + n) (v * pgsize + o) =
      (slice d o k ++ (s.load n (v * pgsize + (o + k))).1,
        (s.load n (v * pgsize + (o + k))).2) := by
  induction k generalizing o with
  | zero => simp [slice]
  | succ k ih =>
    have hlt : o < pgsize := by omega
    have hnext := ih (o := o + 1) (by omega)
    have hadd : o + 1 + k = o + (k + 1) := by omega
    have hslice : slice d o (k + 1) = d o :: slice d (o + 1) k := by
      rw [Nat.add_comm, slice_add]
      rfl
    rw [hadd] at hnext
    rw [Nat.add_right_comm k 1 n, Seen.load]
    simp only [vpn_add hlt, mod_add hlt, hs]
    rw [Nat.add_assoc (v * pgsize) o 1, hnext, hslice]
    rfl

theorem Seen.store_page {s : Seen} (hs : s v = some (perm, d)) (hw : perm.w = true) (bs rest : List Byte)
    (ho : o + bs.length ≤ pgsize) :
    s.store (bs ++ rest) (v * pgsize + o) =
      Seen.store (update s v (some (perm, splice d o bs))) rest (v * pgsize + (o + bs.length)) := by
  induction bs generalizing o d s with
  | nil =>
    rw [splice_nil, ← hs, update_eq_self]
    rfl
  | cons b bs ih =>
    have hlt : o < pgsize := by
      rw [List.length_cons] at ho
      omega
    have hnext := ih (o := o + 1) (d := update d o b)
      (s := update s v (some (perm, update d o b))) (update_self ..)
      (by rw [List.length_cons] at ho; omega)
    have hadd : o + 1 + bs.length = o + (b :: bs).length := by
      rw [List.length_cons]
      omega
    rw [splice_cons, update_idem, hadd] at hnext
    rw [List.cons_append, Seen.store]
    simp only [vpn_add hlt, mod_add hlt, hs, hw, if_true]
    rw [Nat.add_assoc (v * pgsize) o 1]
    exact hnext

/-- A copy between the kernel and the process's memory leaves the process as it is. -/
structure Copying (m : Ram) (p : Space) (m' : Ram) (p' : Space) : Prop where
  stable : Stable m p m' p'
  roomy : Roomy m p → Roomy m' p'

theorem Copying.refl (m : Ram) (p : Space) : Copying m p m p := ⟨Stable.refl m p, id⟩

theorem Copying.trans (h : Copying m p m' p') (h' : Copying m' p' m'' p'') : Copying m p m'' p'' :=
  ⟨h.stable.trans h'.stable, fun hr => h'.roomy (h.roomy hr)⟩

theorem Got.copying (h : Got m p v got m' p') : Copying m p m' p' := ⟨h.stable, h.roomy⟩

theorem Got.seen_page (h : Got m p v (some f) m' p') :
    ∃ l, p'.pagetable.leaf (v * pgsize) = some l ∧ l.frame = f ∧ v * pgsize < maxva ∧
      m'.seen p' v = some (l.perm, m'.data f) := by
  obtain ⟨l, hl, rfl, hu, hv⟩ := h.page f rfl
  exact ⟨l, hl, rfl, hv, by rw [Ram.seen_leaf hv hl, if_pos hu]⟩

theorem split_address (va : Nat) : va = vpn va * pgsize + va % pgsize := (Nat.div_add_mod' va pgsize).symm

theorem sub_page (va : Nat) : va - vpn va * pgsize = va % pgsize := by
  have := split_address va
  omega

theorem mod_lt_page (va : Nat) : va % pgsize < pgsize := Nat.mod_lt _ (by decide)

/-- What `copyin` did: it gave the bytes that the process sees, all of them when they are there
and memory lasts. -/
structure CopiedIn (m : Ram) (p : Space) (srcva len : Nat) (bs : List Byte) (ok : Bool) (m' : Ram) (p' : Space) :
    Prop where
  copying : Copying m p m' p'
  seen : ∀ v, m'.seen p' v = m.seen p v
  roomy : Roomy m p → (bs, ok) = Seen.load (m.seen p) len srcva
  data : ∀ f, f ∉ m.free → m'.data f = m.data f
  within : bs.length ≤ len
  bytes : ∀ i, i < bs.length → Seen.byte (m.seen p) (srcva + i) = bs[i]?
  whole : ok = true → bs.length = len
  exact : ok = true ↔ (∀ v ∈ pagesOf srcva len, (m.seen p v).isSome) ∧
    p.pagetable.faultCost (pagesOf srcva len) ≤ m.free.length

theorem Table.faultCost_empty (pt : Table) : pt.faultCost ∅ = 0 := by
  simp [Table.faultCost, Table.absent]

theorem CopiedIn.nil (m : Ram) (p : Space) (srcva : Nat) : CopiedIn m p srcva 0 [] true m p := by
  refine ⟨Copying.refl m p, fun _ => rfl, fun _ => rfl, fun _ _ => rfl, Nat.le_refl _, by simp, fun _ => rfl, ?_⟩
  simp [pagesOf_zero, Table.faultCost_empty]

theorem CopiedIn.stop (hgot : Got m p (vpn srcva) none m' p') (hlen : 0 < len) :
    CopiedIn m p srcva len [] false m' p' := by
  refine ⟨hgot.copying, hgot.seen, ?_, hgot.data, Nat.zero_le _, by simp, by simp, ?_⟩
  · intro hroom
    obtain ⟨k, rfl⟩ := Nat.exists_eq_add_of_lt hlen
    rw [Nat.zero_add, Seen.load]
    rw [hgot.lost rfl hroom]
  · obtain ⟨hpages, -⟩ := pagesOf_step srcva hlen rfl
    refine ⟨by simp, ?_⟩
    rw [hpages]
    rintro ⟨hall, hcost⟩
    rcases hgot.short rfl with hnone | hshort
    · have hfirst := hall _ (Finset.mem_insert_self _ _)
      rw [hnone] at hfirst
      cases hfirst
    · exact absurd hcost (Nat.not_le.mpr (hshort _))

theorem CopiedIn.cons (hgot : Got m p (vpn srcva) (some f) m1 p1) (hlen : 0 < len)
    (hk : k = min (pgsize - srcva % pgsize) len)
    (h : CopiedIn m1 p1 (vpn srcva * pgsize + pgsize) (len - k) rest ok m' p') :
    CopiedIn m p srcva len (m1.read f (srcva % pgsize) k ++ rest) ok m' p' := by
  obtain ⟨l, -, -, hv, hseen⟩ := hgot.seen_page
  have hs : (m.seen p : Seen) = m1.seen p1 := funext fun v => (hgot.seen v).symm
  have hmod := mod_lt_page srcva
  have hlength : (m1.read f (srcva % pgsize) k).length = k := by simp [Ram.read]
  have hwithin := h.within
  have hnext : 0 < len - k → srcva + k = vpn srcva * pgsize + pgsize := by
    have := split_address srcva
    omega
  refine ⟨hgot.copying.trans h.copying, fun v => (h.seen v).trans (hgot.seen v), ?_, ?_, ?_, ?_, ?_, ?_⟩
  · intro hroom
    have hload := h.roomy (hgot.roomy hroom)
    have hsplit : len = k + (len - k) := by omega
    have hpage := Seen.load_page (s := m1.seen p1) (o := srcva % pgsize) hseen k (len - k) (by omega)
    rw [← split_address, ← hsplit, ← Nat.add_assoc, ← split_address] at hpage
    rw [hs, hpage]
    by_cases hmore : 0 < len - k
    · rw [hnext hmore, ← hload]
      rfl
    · have hzero : len - k = 0 := by omega
      rw [hzero] at hload ⊢
      simp only [Seen.load, Prod.mk.injEq] at hload
      simp [Seen.load, hload.1, hload.2, Ram.read]
  · intro g hg
    rw [h.data g fun hin => hg (hgot.free rfl g hin), hgot.data g hg]
  · rw [List.length_append, hlength]
    omega
  · intro i hi
    rw [List.length_append, hlength] at hi
    by_cases hin : i < k
    · have hat : srcva + i = vpn srcva * pgsize + (srcva % pgsize + i) := by
        have := split_address srcva
        omega
      rw [List.getElem?_append_left (by omega), hs, Seen.byte, hat, vpn_add (by omega), mod_add (by omega), hseen]
      simp [Ram.read, slice, hin]
    · have hat : srcva + i = vpn srcva * pgsize + pgsize + (i - k) := by
        have := hnext (by omega)
        omega
      rw [List.getElem?_append_right (by omega), hlength, hs, hat]
      exact h.bytes _ (by omega)
  · intro hok
    rw [List.length_append, hlength, h.whole hok]
    omega
  · obtain ⟨hpages, hout⟩ := pagesOf_step _ hlen hk
    rw [h.exact, hpages]
    have hfirst : (m.seen p (vpn srcva)).isSome := by
      rw [← hgot.seen, hseen]
      rfl
    constructor
    · rintro ⟨hall, hcost⟩
      refine ⟨?_, (hgot.cost rfl _ hout fun u hu => lt_of_seen (hall u hu)).mpr hcost⟩
      rw [Finset.forall_mem_insert]
      refine ⟨hfirst, fun u hu => ?_⟩
      rw [← hgot.seen]
      exact hall u hu
    · rintro ⟨hall, hcost⟩
      rw [Finset.forall_mem_insert] at hall
      refine ⟨?_, (hgot.cost rfl _ hout fun u hu => lt_of_seen (hall.2 u hu)).mp hcost⟩
      intro u hu
      rw [hgot.seen]
      exact hall.2 u hu

theorem copyinLoop_runs {m : Ram} {p : Space} (hg : Guarded m p) (hn : len ≤ n) (srcva : Nat) :
    Runs (Ram.copyinLoop n m p srcva len) fun r => CopiedIn m p srcva len r.1 r.2.1 r.2.2.1 r.2.2.2 := by
  induction n generalizing m p srcva len with
  | zero =>
    have hlen : len = 0 := by omega
    subst hlen
    exact CopiedIn.nil m p srcva
  | succ n ih =>
    unfold Ram.copyinLoop
    by_cases hlen : len = 0
    · subst hlen
      exact CopiedIn.nil m p srcva
    · have hpos : 0 < len := Nat.pos_of_ne_zero hlen
      rw [if_neg hlen]
      dsimp only
      rw [pgrounddown_eq]
      refine (userPage_runs hg (vpn srcva)).bind ?_
      rintro ⟨got, m1, p1⟩ hgot
      cases got with
      | none => exact CopiedIn.stop hgot hpos
      | some f =>
        have hmod := mod_lt_page srcva
        dsimp only
        rw [sub_page]
        refine (ih (hgot.stable.guarded hg) (by omega) (vpn srcva * pgsize + pgsize)).bind ?_
        rintro ⟨rest, ok, m2, p2⟩ hrest
        exact CopiedIn.cons hgot hpos rfl hrest

theorem copyin_runs {m : Ram} {p : Space} (hg : Guarded m p) (srcva len : Nat) :
    Runs (m.copyin p srcva len) fun r => CopiedIn m p srcva len r.1 r.2.1 r.2.2.1 r.2.2.2 :=
  copyinLoop_runs hg (Nat.le_refl len) srcva

/-- Bytes written to one user page are seen there and nowhere else. -/
theorem Guarded.seen_write (hg : Guarded m p) (hv : v * pgsize < maxva) (hl : p.pagetable.leaf (v * pgsize) = some l)
    (hu : l.perm.u = true) (o : Nat) (bs : List Byte) :
    (m.write l.frame o bs).seen p =
      update (m.seen p) v (some (l.perm, splice (m.data l.frame) o bs)) := by
  have huser {u : Nat} {l : Leaf} (hu' : u * pgsize < maxva) (hl : p.pagetable.leaf (u * pgsize) = some l)
      (hu : l.perm.u = true) : vpn (u * pgsize) < trapframeVpn := by
    by_contra hlow
    rw [hg.high _ l hu' (Nat.not_lt.mp hlow) hl] at hu
    cases hu
  funext u
  by_cases he : u = v
  · subst he
    rw [update_self, Ram.seen_leaf hv hl, if_pos hu]
    simp only [Ram.write, update_self]
  · rw [update_of_ne he]
    by_cases hmax : u * pgsize < maxva
    · cases hl' : p.pagetable.leaf (u * pgsize) with
      | none => rw [Ram.seen_lazy hmax hl', Ram.seen_lazy hmax hl']
      | some l' =>
        rw [Ram.seen_leaf hmax hl', Ram.seen_leaf hmax hl']
        by_cases hu' : l'.perm.u = true
        · have hne : l'.frame ≠ l.frame := by
            intro hframe
            have hsame := hg.sound.leaf_inj hl hl' (huser hv hl hu) (huser hmax hl' hu') hframe
            rw [vpn_page, vpn_page] at hsame
            exact he hsame
          simp only [Ram.write, update_of_ne hne]
        · rw [if_neg hu', if_neg hu']
    · rw [Ram.seen_beyond (Nat.not_lt.mp hmax), Ram.seen_beyond (Nat.not_lt.mp hmax)]

theorem Copying.write (m : Ram) (p : Space) (f : Frame) (o : Nat) (bs : List Byte) :
    Copying m p (m.write f o bs) p := ⟨Stable.write m p f o bs, id⟩

/-- What `copyout` did: it wrote the bytes, or the first `k` of them, to pages that the process may
write, and to nothing else. -/
structure CopiedOut (m : Ram) (p : Space) (dstva : Nat) (src : List Byte) (ok : Bool) (m' : Ram) (p' : Space) :
    Prop where
  copying : Copying m p m' p'
  roomy : Roomy m p → (m'.seen p', ok) = Seen.store (m.seen p) src dstva
  stored : ∃ k, k ≤ src.length ∧ Seen.store (m.seen p) (src.take k) dstva = (m'.seen p', true) ∧
    (ok = true → k = src.length)
  data : ∀ f, f ∉ m.free → (∀ v ∈ pagesOf dstva src.length, ∀ l, v * pgsize < maxva →
    p.pagetable.leaf (v * pgsize) = some l → l.perm.u = true → l.perm.w = true → l.frame ≠ f) → m'.data f = m.data f
  exact : ok = true ↔ (∀ v ∈ pagesOf dstva src.length, ∃ page, m.seen p v = some page ∧ page.1.w = true) ∧
    p.pagetable.faultCost (pagesOf dstva src.length) ≤ m.free.length

theorem CopiedOut.nil (m : Ram) (p : Space) (dstva : Nat) : CopiedOut m p dstva [] true m p := by
  refine ⟨Copying.refl m p, fun _ => rfl, ⟨0, Nat.le_refl _, rfl, fun _ => rfl⟩, fun _ _ _ => rfl, ?_⟩
  simp [pagesOf_zero, Table.faultCost_empty]

/-- The next byte has no page that the process may write, or no memory. -/
theorem CopiedOut.stop (hcopy : Copying m p m' p') (hseen : ∀ v, m'.seen p' v = m.seen p v)
    (hdata : ∀ f, f ∉ m.free → m'.data f = m.data f)
    (hroom : Roomy m p → ∀ page, m.seen p (vpn dstva) = some page → page.1.w = false)
    (hno : (∀ page, m.seen p (vpn dstva) = some page → page.1.w = false) ∨
      ∀ vs, m.free.length < p.pagetable.faultCost (insert (vpn dstva) vs)) (b : Byte) (bs : List Byte) :
    CopiedOut m p dstva (b :: bs) false m' p' := by
  have hs : (m.seen p : Seen) = m'.seen p' := funext fun v => (hseen v).symm
  refine ⟨hcopy, ?_, ⟨0, Nat.zero_le _, ?_, by simp⟩, fun f hf _ => hdata f hf, by simp, ?_⟩
  · intro hr
    have hroom := hroom hr
    rw [Seen.store]
    cases hpage : m.seen p (vpn dstva) with
    | none => rw [hs]
    | some page =>
      have hw := hroom page hpage
      obtain ⟨perm, d⟩ := page
      dsimp only at hw ⊢
      rw [hw, hs]
      rfl
  · rw [hs]
    rfl
  · obtain ⟨hpages, -⟩ := pagesOf_step dstva (show 0 < (b :: bs).length from Nat.succ_pos _) rfl
    rw [hpages]
    rintro ⟨hall, hcost⟩
    rcases hno with hno | hshort
    · obtain ⟨page, hpage, hw⟩ := hall _ (Finset.mem_insert_self _ _)
      rw [hno page hpage] at hw
      cases hw
    · exact absurd hcost (Nat.not_le.mpr (hshort _))

/-- One page of `copyout`, then the rest. -/
theorem CopiedOut.cons (hg : Guarded m p) (hgot : Got m p (vpn dstva) (some l.frame) m1 p1)
    (hl : p1.pagetable.leaf (vpn dstva * pgsize) = some l) (hw : l.perm.w = true) (hlen : 0 < src.length)
    (hk : k = min (pgsize - dstva % pgsize) src.length)
    (h : CopiedOut (m1.write l.frame (dstva % pgsize) (src.take k)) p1 (vpn dstva * pgsize + pgsize) (src.drop k)
      ok m' p') : CopiedOut m p dstva src ok m' p' := by
  obtain ⟨l', hl', -, hu, hv⟩ := hgot.page _ rfl
  rw [hl] at hl'
  cases hl'
  have hs : (m.seen p : Seen) = m1.seen p1 := funext fun v => (hgot.seen v).symm
  have hmod := mod_lt_page dstva
  have htake : (src.take k).length = k := by
    rw [List.length_take]
    omega
  have hseen : m1.seen p1 (vpn dstva) = some (l.perm, m1.data l.frame) := by
    rw [Ram.seen_leaf hv hl, if_pos hu]
  have hwritten := (hgot.stable.guarded hg).seen_write hv hl hu (dstva % pgsize) (src.take k)
  have hnext : 0 < (src.drop k).length → dstva + k = vpn dstva * pgsize + pgsize := by
    have := split_address dstva
    rw [List.length_drop]
    omega
  have hstore (rest : List Byte) (hrest : rest ≠ [] → 0 < (src.drop k).length) :
      Seen.store (m.seen p) (src.take k ++ rest) dstva =
        Seen.store ((m1.write l.frame (dstva % pgsize) (src.take k)).seen p1) rest (vpn dstva * pgsize + pgsize) := by
    have hpage := Seen.store_page hseen hw (src.take k) rest (o := dstva % pgsize) (by rw [htake]; omega)
    rw [← split_address, htake, ← Nat.add_assoc, ← split_address, ← hwritten, ← hs] at hpage
    rw [hpage]
    cases rest with
    | nil => rfl
    | cons b rest => rw [hnext (hrest (by simp))]
  obtain ⟨k', hk', hpart, hall⟩ := h.stored
  refine ⟨hgot.copying.trans ((Copying.write m1 p1 _ _ _).trans h.copying), ?_, ⟨k + k', ?_, ?_, ?_⟩, ?_, ?_⟩
  · intro hroom
    have hrest := h.roomy (hgot.roomy hroom)
    have hcat := hstore (src.drop k) fun hne => List.length_pos_of_ne_nil hne
    rw [List.take_append_drop] at hcat
    rw [hcat, hrest]
  · rw [List.length_drop] at hk'
    omega
  · rw [List.take_add, hstore _ ?_, hpart]
    intro hne
    by_contra hzero
    have hnil : src.drop k = [] := List.eq_nil_of_length_eq_zero (by omega)
    rw [hnil, List.take_nil] at hne
    exact hne rfl
  · intro hok
    have hlast := hall hok
    rw [List.length_drop] at hlast
    omega
  · obtain ⟨hpages, -⟩ := pagesOf_step _ hlen hk
    intro f hf hother
    have hmoved (v : Nat) (hin : v ∈ pagesOf dstva src.length) (l' : Leaf) (hv' : v * pgsize < maxva)
        (hl' : p1.pagetable.leaf (v * pgsize) = some l') (hu' : l'.perm.u = true) (hw' : l'.perm.w = true) :
        l'.frame ≠ f := by
      rcases hgot.moved _ _ hv' hl' with hold | hfree
      · exact hother v hin l' hv' hold hu' hw'
      · rintro rfl
        exact hf hfree
    have hne := hmoved _ (by rw [hpages]; exact Finset.mem_insert_self _ _) l hv hl hu hw
    rw [h.data f (fun hin => hf (hgot.free rfl f hin)) ?_]
    · simp only [Ram.write, update_of_ne (Ne.symm hne)]
      exact hgot.data f hf
    · intro v hin
      rw [List.length_drop] at hin
      exact hmoved v (by rw [hpages]; exact Finset.mem_insert_of_mem hin)
  · obtain ⟨hpages, hout⟩ := pagesOf_step _ hlen hk
    have hsame {u : Nat} (hu : u ∈ pagesOf (vpn dstva * pgsize + pgsize) (src.length - k)) :
        (m1.write l.frame (dstva % pgsize) (src.take k)).seen p1 u = m.seen p u := by
      have hne : u ≠ vpn dstva := by
        rintro rfl
        exact hout hu
      rw [hwritten, update_of_ne hne, hgot.seen]
    have hbound (hall : ∀ u ∈ pagesOf (vpn dstva * pgsize + pgsize) (src.length - k),
        ∃ page, m.seen p u = some page ∧ page.1.w = true) :
        ∀ u ∈ pagesOf (vpn dstva * pgsize + pgsize) (src.length - k), u < 2 ^ 27 := by
      intro u hu
      obtain ⟨page, hpage, -⟩ := hall u hu
      exact lt_of_seen (by rw [hpage]; rfl)
    rw [h.exact, hpages, List.length_drop]
    constructor
    · rintro ⟨hrest, hcost⟩
      have hrest : ∀ u ∈ pagesOf (vpn dstva * pgsize + pgsize) (src.length - k),
          ∃ page, m.seen p u = some page ∧ page.1.w = true := by
        intro u hu
        rw [← hsame hu]
        exact hrest u hu
      refine ⟨?_, (hgot.cost rfl _ hout (hbound hrest)).mpr hcost⟩
      rw [Finset.forall_mem_insert]
      exact ⟨⟨_, by rw [← hgot.seen, hseen], hw⟩, hrest⟩
    · rintro ⟨hrest, hcost⟩
      rw [Finset.forall_mem_insert] at hrest
      refine ⟨?_, (hgot.cost rfl _ hout (hbound hrest.2)).mp hcost⟩
      intro u hu
      rw [hsame hu]
      exact hrest.2 u hu

theorem copyoutLoop_runs {m : Ram} {p : Space} (hg : Guarded m p) (src : List Byte) (hn : src.length ≤ n)
    (dstva : Nat) :
    Runs (Ram.copyoutLoop none n m p dstva src) fun r => CopiedOut m p dstva src r.1 r.2.1 r.2.2 := by
  induction n generalizing m p dstva src with
  | zero =>
    have hnil : src = [] := List.eq_nil_of_length_eq_zero (by omega)
    subst hnil
    exact CopiedOut.nil m p dstva
  | succ n ih =>
    unfold Ram.copyoutLoop
    cases src with
    | nil => exact CopiedOut.nil m p dstva
    | cons b bs =>
      rw [if_neg (by simp)]
      dsimp only
      rw [pgrounddown_eq]
      by_cases hmax : maxva ≤ vpn dstva * pgsize
      · rw [if_pos hmax]
        have hnone : ∀ page, m.seen p (vpn dstva) = some page → page.1.w = false := by
          intro page hpage
          rw [Ram.seen_beyond hmax] at hpage
          cases hpage
        exact CopiedOut.stop (Copying.refl m p) (fun _ => rfl) (fun _ _ => rfl) (fun _ => hnone) (.inl hnone) b bs
      · rw [if_neg hmax]
        refine (userPage_runs hg (vpn dstva)).bind ?_
        rintro ⟨got, m1, p1⟩ hgot
        cases got with
        | none =>
          have hnone (h : m.seen p (vpn dstva) = none) :
              ∀ page, m.seen p (vpn dstva) = some page → page.1.w = false := by simp [h]
          exact CopiedOut.stop hgot.copying hgot.seen hgot.data (fun hr => hnone (hgot.lost rfl hr))
            ((hgot.short rfl).imp hnone id) b bs
        | some f =>
          obtain ⟨l, hl, rfl, hv, hseen⟩ := hgot.seen_page
          have hwalk : p1.pagetable.walk (vpn dstva * pgsize) = .ok (some (some l)) := by
            rw [Table.walk_eq hv]
            obtain ⟨n0, hn0⟩ := Option.isSome_iff_exists.mp (Table.node_of_leaf hl)
            simp only [Table.leaf, hn0, Option.bind_some] at hl
            rw [hn0, Option.map_some, hl]
          simp only [Option.getD_none, hwalk, ok_bind, Option.any_some]
          by_cases hw : l.perm.w = false
          · rw [if_pos hw]
            have hreadonly : ∀ page, m.seen p (vpn dstva) = some page → page.1.w = false := by
              intro page hpage
              rw [← hgot.seen, hseen] at hpage
              cases hpage
              exact hw
            exact CopiedOut.stop hgot.copying hgot.seen hgot.data (fun _ => hreadonly) (.inl hreadonly) b bs
          · have hw : l.perm.w = true := by simpa using hw
            have hmod := mod_lt_page dstva
            rw [if_neg (by simp [hw]), sub_page]
            refine (ih ((Stable.write m1 p1 _ _ _).guarded (hgot.stable.guarded hg)) _ ?_ _).imp ?_
            · rw [List.length_drop]
              rw [List.length_cons] at hn ⊢
              omega
            · intro r hrest
              exact CopiedOut.cons hg hgot hl hw (Nat.succ_pos _) rfl hrest

theorem copyout_runs {m : Ram} {p : Space} (hg : Guarded m p) (dstva : Nat) (src : List Byte) :
    Runs (m.copyout p none dstva src) fun r => CopiedOut m p dstva src r.1 r.2.1 r.2.2 :=
  copyoutLoop_runs hg src (Nat.le_refl _) dstva

theorem fetchaddr_runs {m : Ram} {p : Space} (hg : Guarded m p) (addr : Nat) :
    Runs (m.fetchaddr p addr) fun r =>
      Copying m p r.2.1 r.2.2 ∧ ∀ v, r.2.1.seen r.2.2 v = m.seen p v := by
  unfold Ram.fetchaddr
  split
  · exact ⟨Copying.refl m p, fun _ => rfl⟩
  · refine (copyin_runs hg addr 8).bind ?_
    rintro ⟨bs, ok, m', p'⟩ hin
    exact ⟨hin.copying, hin.seen⟩

end Xv6Filter.Paging
