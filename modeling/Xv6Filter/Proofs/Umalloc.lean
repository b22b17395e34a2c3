import Xv6Filter.Proofs.FreeList

namespace Xv6Filter.Umalloc
open Lib Function

/-- All that is assumed of the system: the program's own memory is below what `sbrk` adds, and
`sbrk(n)` with `n >= 0` fails or adds exactly `n` bytes where it says. -/
structure Honest (env : Env) : Prop where
  base_pos : 0 < env.base
  base_lt : env.base < maxva
  adds : ∀ asked n p, env.sbrk asked n = some p → 0 ≤ n → Adds env.base asked p n.toNat

/-- What `malloc` of `n` units does to the blocks: it fails and no block of the program changes, or
there is one more. -/
inductive Outcome (env : Env) (n : Nat) (live : Finset Nat) (len : Nat → Nat) (h : Heap) : Nat → Prop where
  | null (shaped : Shaped env h free live len') (kept : ∀ a ∈ live, len' a = len a) : Outcome env n live len h 0
  | block (shaped : Shaped env h free (insert p live) len') (fresh : p ∉ live)
      (size : len' p = hdrsize * n) (kept : ∀ a ∈ live, len' a = len a) :
      Outcome env n live len h (p + hdrsize)

section Malloc

variable {env : Env} {h : Heap} {free live : Finset Nat} {len : Nat → Nat} {n : Nat}

/-- The found block leaves the list whole, or gives up its tail. -/
theorem Shaped.take (hs : Shaped env h free live len) (hbase : env.base < maxva) (hn : 0 < n)
    (hp : prevp ∈ insert env.base free) (hsize : n ≤ h.size (h.ptr prevp)) :
    Outcome env n live len (h.take n prevp (h.ptr prevp)).2 (h.take n prevp (h.ptr prevp)).1 := by
  generalize ha : h.ptr prevp = a at hsize ⊢
  have hcirc : After (insert env.base free) prevp a := ha ▸ hs.circle prevp hp
  have haf : a ∈ free := by
    refine (Finset.mem_insert.mp hcirc.1).resolve_left fun he => ?_
    rw [he, hs.base_size] at hsize
    omega
  have hua : a ∈ free ∪ live := Finset.mem_union_left _ haf
  have hca : a ∈ insert env.base (free ∪ live) := Finset.mem_insert_of_mem hua
  have hcp : prevp ∈ insert env.base (free ∪ live) := by
    rw [← Finset.insert_union]
    exact Finset.mem_union_left _ hp
  have habase : a ≠ env.base := fun he => hs.base_not_mem (he ▸ hua)
  have hne : prevp ≠ a := by
    rintro rfl
    obtain ⟨-, ⟨hlt, -⟩ | ⟨-, hall⟩⟩ := hcirc
    · omega
    · have := hall env.base (Finset.mem_insert_self _ _)
      omega
  have hpos : 0 < h.size a := by omega
  have htrim := hs.toLayout.trim haf hpos
  have hlen : hdrsize * h.size a = update len a (hdrsize * h.size a) a := by rw [update_self]
  have hkept : ∀ c ∈ live, update len a (hdrsize * h.size a) c = len c := by
    intro c hc
    have hca' : c ≠ a := fun he => Finset.disjoint_left.mp hs.split haf (he ▸ hc)
    rw [update_of_ne hca']
  unfold Heap.take
  split
  · rename_i heq
    have hplus : plus a 1 = a + hdrsize := hs.plus_eq hua (by simpa using hs.hdrsize_le hua)
    have hnew := htrim.unlink haf hp ha hne hlen
    rw [hplus]
    have hnext : h.ptr a ∈ insert env.base (free ∪ live) := by
      rw [← Finset.insert_union]
      exact Finset.mem_union_left _ (hs.circle a hcirc.1).1
    have hsees := hs.sees.setPtr hcp (hs.cell_lt hbase hnext)
    have hunion : free.erase a ∪ insert a live = free ∪ live := by
      ext x
      by_cases hx : x = a <;> simp [hx, haf]
    refine @Outcome.block _ _ _ _ _ (free.erase a) _ _ ⟨hnew.congr ?_ ?_, ?_, ?_⟩ ?_ (by rw [← heq, ← hlen]) hkept
    · intro c hc
      refine hsees.ptr c (Finset.insert_subset_insert _ ?_ hc)
      exact (Finset.erase_subset _ _).trans Finset.subset_union_left
    · intro c hc
      rw [hunion] at hc
      exact hsees.size c hc
    · exact (Finset.mem_insert.mp hp).elim (fun he => he ▸ Finset.mem_insert_self _ _) fun hpf =>
        Finset.mem_insert_of_mem (Finset.mem_erase.mpr ⟨hne, hpf⟩)
    · intro hsmall c hc
      have hcf := Finset.mem_of_mem_erase hc
      change c + _ ≠ (h.setPtr prevp (h.ptr a)).ptr c
      rw [hsees.ptr c (by simp [hcf]), hs.exact hsmall haf, update_eq_self]
      by_cases hcp' : c = prevp
      · subst hcp'
        rw [update_self]
        intro hend
        have hbelow := hs.above (Finset.mem_union_left live hcf)
        have hlong := hs.tiles.pos c (Finset.mem_union_left live hcf)
        have hmem : h.ptr a ∈ free := by
          refine (Finset.mem_insert.mp (hs.circle a hcirc.1).1).resolve_left fun he => ?_
          omega
        have hlinked := hs.linked hcf hmem hend
        rw [ha] at hlinked
        obtain ⟨-, ⟨hlt, -⟩ | ⟨-, hall⟩⟩ := hs.circle a hcirc.1
        · omega
        · have := hall env.base (Finset.mem_insert_self _ _)
          omega
      · rw [update_of_ne hcp']
        exact hs.coalesced hsmall c hcf
    · exact Finset.disjoint_left.mp hs.split haf
  · rename_i hneq
    have hlt : n < h.size a := by omega
    have hsz := h.size_lt a
    have hrest : (h.setSize a (h.size a - n)).size a = h.size a - n := by
      rw [Heap.setSize_size, Nat.mod_eq_of_lt (by omega)]
    have hle : hdrsize * (h.size a - n) ≤ len a := by
      have := hs.size_free a haf
      have hmod := Nat.mod_le (len a) (2 ^ 36)
      simp only [hdrsize] at this ⊢
      omega
    have hb : plus a (h.size a - n) = a + hdrsize * (h.size a - n) := hs.plus_eq hua hle
    dsimp only
    rw [hrest, hb]
    obtain ⟨hfresh, hnew⟩ := htrim.carve haf hlen hn hlt rfl
    generalize hend : a + hdrsize * (h.size a - n) = b at hfresh hnew ⊢
    have hub : b ∈ free ∪ insert b live := by simp
    have hplus : plus b 1 = b + hdrsize := hnew.plus_eq hub (by simpa using hnew.hdrsize_le hub)
    rw [hplus]
    have hbf : b ∉ free := fun hmem => hfresh (Finset.mem_union_left _ hmem)
    have hbl : b ∉ live := fun hmem => hfresh (Finset.mem_union_right _ hmem)
    have hba : b ≠ a := fun he => hbf (he ▸ haf)
    have hsees0 : Sees (insert env.base (free ∪ insert b live)) h h.ptr h.size :=
      ⟨fun _ _ => rfl, fun _ _ => rfl, fun _ hc _ hd => hnew.clear hc hd⟩
    have hca' : a ∈ insert env.base (free ∪ insert b live) := by simp [haf]
    have hsees := (hsees0.setSize (v := h.size a - n) hca').setSize (v := n)
      (Finset.mem_insert_of_mem hub)
    rw [Nat.mod_eq_of_lt (by omega : h.size a - n < 2 ^ 32), Nat.mod_eq_of_lt (by omega : n < 2 ^ 32)] at hsees
    refine @Outcome.block _ _ _ _ _ free _ _ ⟨hnew.congr ?_ hsees.size, hp, ?_⟩ hbl (update_self _ _ _) ?_
    · intro c hc
      exact hsees.ptr c (Finset.insert_subset_insert _ Finset.subset_union_left hc)
    · intro hsmall c hc
      change c + _ ≠ ((h.setSize a (h.size a - n)).setSize b n).ptr c
      rw [hsees.ptr c (by simp [hc])]
      have hcb : c ≠ b := fun he => hbf (he ▸ hc)
      rw [update_of_ne hcb]
      by_cases hca' : c = a
      · subst hca'
        rw [update_self, hend]
        intro hbp
        rcases Finset.mem_insert.mp (hs.circle c hcirc.1).1 with he | hmem
        · exact hnew.base_not_mem (by rw [← he, ← hbp]; exact hub)
        · exact hbf (hbp ▸ hmem)
      · rw [update_of_ne hca', update_of_ne hca']
        exact hs.coalesced hsmall c hc
    · intro c hc
      have hcb : c ≠ b := fun he => hbl (he ▸ hc)
      have hca' : c ≠ a := fun he => Finset.disjoint_left.mp hs.split haf (he ▸ hc)
      rw [update_of_ne hcb, update_of_ne hca', update_of_ne hca']

def Heap.refill (env : Env) (h : Heap) (n fuel : Nat) : Option (Nat × Heap) :=
  match h.morecore env fuel n with
  | none => none
  | some (p, h) => if p = 0 then some (0, h) else h.search env n fuel p (h.ptr p)

/-- The loop of `malloc` from `prevp` on, until it is back at `freep`. -/
theorem Shaped.scan (hs : Shaped env h free live len) (hp : prevp ∈ insert env.base free)
    (hk : (arc (insert env.base free) prevp h.freep).card = k) :
    (∃ prev ∈ insert env.base free, n ≤ h.size (h.ptr prev) ∧
      ∀ fuel, h.search env n (k + fuel) prevp (h.ptr prevp) = some (h.take n prev (h.ptr prev))) ∨
    ∀ fuel, h.search env n (k + fuel) prevp (h.ptr prevp) = h.refill env n fuel := by
  induction k generalizing prevp with
  | zero => exact absurd hk (Nat.ne_of_gt ((hs.circle prevp hp).arc_card_pos hs.freep))
  | succ k ih =>
    have hnext := hs.circle prevp hp
    have hstep : ∀ fuel, k + 1 + fuel = k + fuel + 1 := by omega
    by_cases hlarge : n ≤ h.size (h.ptr prevp)
    · refine .inl ⟨prevp, hp, hlarge, fun fuel => ?_⟩
      rw [hstep, Heap.search, if_pos hlarge]
    by_cases hlast : h.ptr prevp = h.freep
    · refine .inr fun fuel => ?_
      have hone : k = 0 := by
        rw [(hlast ▸ hnext : After _ prevp h.freep).arc_last, Finset.card_singleton] at hk
        omega
      subst hone
      rw [hstep, Nat.zero_add, Heap.search, if_neg hlarge, if_pos hlast]
      rfl
    · obtain ⟨hmem, harc⟩ := hnext.arc_step hs.freep hlast
      have hless : (arc (insert env.base free) (h.ptr prevp) h.freep).card = k := by
        rw [harc, Finset.card_erase_of_mem hmem, hk]
        rfl
      refine (ih hnext.1 hless).imp ?_ ?_
      · rintro ⟨prev, hprev, hsize, hrun⟩
        refine ⟨prev, hprev, hsize, fun fuel => ?_⟩
        rw [hstep, Heap.search, if_neg hlarge, if_neg hlast]
        exact hrun fuel
      · intro hrun fuel
        rw [hstep, Heap.search, if_neg hlarge, if_neg hlast]
        exact hrun fuel

theorem coreUnits_bounds (hn : n < 2 ^ 27) : 0 < Heap.coreUnits n ∧ Heap.coreUnits n < 2 ^ 27 := by
  unfold Heap.coreUnits
  split <;> omega

theorem coreBytes_eq (hn : n < 2 ^ 27) : Heap.coreBytes n = (hdrsize * Heap.coreUnits n : Nat) := by
  have hlt := (coreUnits_bounds hn).2
  have hnat : (BitVec.ofNat 32 (Heap.coreUnits n * hdrsize)).toNat = hdrsize * Heap.coreUnits n := by
    rw [BitVec.toNat_ofNat, Nat.mul_comm, Nat.mod_eq_of_lt]
    simp only [hdrsize]
    omega
  rw [Heap.coreBytes, BitVec.toInt_eq_toNat_of_lt, hnat]
  rw [hnat]
  simp only [hdrsize]
  omega

/-- `morecore` of a modest request: what `sbrk` grants becomes a block of the free list. -/
theorem Shaped.morecore (hs : Shaped env h free live len) (he : Honest env) (hn : n < 2 ^ 27) :
    (∃ h', (∀ fuel, h.morecore env fuel n = some (0, h')) ∧ Shaped env h' free live len) ∨
    ∃ h' free' len' q, (∀ fuel, free.card + 2 ≤ fuel → h.morecore env fuel n = some (h'.freep, h')) ∧
      Shaped env h' free' live len' ∧ (∀ a ∈ live, len' a = len a) ∧
      Adds env.base h.asked q (hdrsize * Heap.coreUnits n) ∧
      h'.asked = (((hdrsize * Heap.coreUnits n : Nat) : Int), some q) :: h.asked := by
  obtain ⟨hpos, hlt⟩ := coreUnits_bounds hn
  unfold Heap.morecore
  rw [coreBytes_eq hn]
  cases hq : env.sbrk h.asked (hdrsize * Heap.coreUnits n : Nat) with
  | none => exact .inl ⟨_, fun _ => rfl, hs.toLayout.refuse, hs.freep, hs.coalesced⟩
  | some q =>
    refine .inr ?_
    have hadds : Adds env.base h.asked q (hdrsize * Heap.coreUnits n) := by
      have := he.adds _ _ _ hq (Int.natCast_nonneg _)
      rwa [Int.toNat_natCast] at this
    obtain ⟨hfresh, hnew⟩ := hs.toLayout.grant hpos (Nat.lt_trans hlt (by decide)) hadds
    have hqf : q ∉ free := fun hmem => hfresh (Finset.mem_union_left _ hmem)
    have hql : q ∉ live := fun hmem => hfresh (Finset.mem_union_right _ hmem)
    have huq : q ∈ free ∪ insert q live := by simp
    dsimp only
    generalize hh0 : ({ h with asked := (((hdrsize * Heap.coreUnits n : Nat) : Int), some q) :: h.asked } : Heap) = h₀
    have hasked : h₀.asked = (((hdrsize * Heap.coreUnits n : Nat) : Int), some q) :: h.asked := by rw [← hh0]
    have hfreep : h₀.freep = h.freep := by rw [← hh0]
    have hsees0 : Sees (insert env.base (free ∪ insert q live)) h₀ h.ptr h.size := by
      rw [← hh0]
      exact ⟨fun _ _ => rfl, fun _ _ => rfl, fun _ hc _ hd => hnew.clear hc hd⟩
    have hsees := hsees0.setSize (v := Heap.coreUnits n) (Finset.mem_insert_of_mem huq)
    rw [Nat.mod_eq_of_lt (by omega : Heap.coreUnits n < 2 ^ 32)] at hsees
    have hs1 : Shaped env (h₀.setSize q (Heap.coreUnits n)) free (insert q live)
        (update len q (hdrsize * Heap.coreUnits n)) := by
      rw [← hasked] at hnew
      refine ⟨hnew.congr ?_ hsees.size, ?_, ?_⟩
      · intro c hc
        exact hsees.ptr c (Finset.insert_subset_insert _ Finset.subset_union_left hc)
      · change h₀.freep ∈ _
        rw [hfreep]
        exact hs.freep
      · intro hsmall c hc
        have hcq : c ≠ q := fun hx => hqf (hx ▸ hc)
        rw [hsees.ptr c (by simp [hc]), update_of_ne hcq]
        refine hs.coalesced ?_ c hc
        rw [Heap.setSize_asked, hasked, obtained] at hsmall
        omega
    obtain ⟨h', free', len', hrun, hs', hkept, hasked'⟩ :=
      hs1.free_runs he.base_lt (Finset.mem_insert_self q live)
    rw [Finset.erase_insert hql] at hs' hkept
    have hplus : plus q 1 = q + hdrsize := hnew.plus_eq huq (by simpa using hnew.hdrsize_le huq)
    refine ⟨h', free', len', q, fun fuel hfuel => ?_, hs', fun a ha => ?_, hadds, ?_⟩
    · rw [hplus, hrun fuel hfuel]
      rfl
    · have haq : a ≠ q := fun hx => hql (hx ▸ ha)
      rw [hkept a ha, update_of_ne haq]
    · rw [hasked', Heap.setSize_asked, hasked]

open Classical in
noncomputable def room (asked : Asked) : Nat := ((Finset.range maxva).filter fun x => ¬ Owned asked x).card

open Classical in
theorem room_lt (hn : 0 < m) (ha : Adds base asked q m) : room (((m : Int), some q) :: asked) < room asked := by
  have hbelow := ha.below
  refine Finset.card_lt_card ((Finset.ssubset_iff_of_subset ?_).mpr ⟨q, ?_, ?_⟩)
  · intro x hx
    obtain ⟨hr, hno⟩ := Finset.mem_filter.mp hx
    refine Finset.mem_filter.mpr ⟨hr, fun ⟨k, p, hmem, hin⟩ => hno ⟨k, p, List.mem_cons_of_mem _ hmem, hin⟩⟩
  · exact Finset.mem_filter.mpr ⟨Finset.mem_range.mpr (by omega), ha.fresh q (Nat.le_refl q) (by omega)⟩
  · intro hx
    refine (Finset.mem_filter.mp hx).2 ⟨_, q, List.mem_cons_self, Nat.le_refl q, ?_⟩
    omega

theorem Outcome.of_kept (ho : Outcome env n live len' h r) (hk : ∀ a ∈ live, len' a = len a) :
    Outcome env n live len h r := by
  cases ho with
  | null shaped kept => exact .null shaped fun a ha => (kept a ha).trans (hk a ha)
  | block shaped fresh size kept => exact .block shaped fresh size fun a ha => (kept a ha).trans (hk a ha)

theorem Shaped.freep_pos (hs : Shaped env h free live len) (he : Honest env) : h.freep ≠ 0 := by
  have hpos := he.base_pos
  rcases Finset.mem_insert.mp hs.freep with hb | hf
  · omega
  · have := hs.above (Finset.mem_union_left live hf)
    omega

/-- The loop of `malloc` ends. Each time it has not found a block, `sbrk` fails or there is less left
to be added. -/
theorem Shaped.search_runs (hs : Shaped env h free live len) (he : Honest env) (h0 : 0 < n) (hn : n < 2 ^ 27) :
    ∃ r h' n0, Outcome env n live len h' r ∧
      ∀ fuel, n0 ≤ fuel → h.search env n fuel h.freep (h.ptr h.freep) = some (r, h') := by
  induction hm : room h.asked using Nat.strong_induction_on generalizing h free len with
  | _ m ih =>
    have hfuel : ∀ k fuel : Nat, k ≤ fuel → ∃ j, fuel = k + j := fun k fuel hle => ⟨fuel - k, by omega⟩
    obtain ⟨k, hk⟩ : ∃ k, (arc (insert env.base free) h.freep h.freep).card = k := ⟨_, rfl⟩
    rcases hs.scan (n := n) hs.freep hk with ⟨prev, hprev, hsize, hrun⟩ | hrun
    · refine ⟨_, _, k, hs.take he.base_lt h0 hprev hsize, fun fuel hle => ?_⟩
      obtain ⟨j, rfl⟩ := hfuel _ fuel hle
      exact hrun j
    rcases hs.morecore he hn with ⟨h', hnull, hs'⟩ | ⟨h', free', len', q, hgrant, hs', hkept, hadds, hasked⟩
    · refine ⟨0, h', k, .null hs' fun _ _ => rfl, fun fuel hle => ?_⟩
      obtain ⟨j, rfl⟩ := hfuel _ fuel hle
      rw [hrun j, Heap.refill, hnull j]
      rfl
    · have hless : room h'.asked < m := by
        rw [hasked, ← hm]
        exact room_lt (Nat.mul_pos (by decide) (coreUnits_bounds hn).1) hadds
      obtain ⟨r, h'', n0, ho, hend⟩ := ih _ hless hs' rfl
      refine ⟨r, h'', k + (free.card + 2 + n0), ho.of_kept hkept, fun fuel hle => ?_⟩
      obtain ⟨j, rfl⟩ := hfuel _ fuel hle
      rw [Nat.add_assoc, hrun, Heap.refill, hgrant _ (by omega)]
      dsimp only
      rw [if_neg (hs'.freep_pos he)]
      exact hend _ (by omega)

structure Pristine (h : Heap) : Prop where
  freep : h.freep = 0
  asked : h.asked = []

theorem Pristine.shaped (hp : Pristine h) (he : Honest env) (len : Nat → Nat) :
    Shaped env { (h.setPtr env.base env.base).setSize env.base 0 with freep := env.base } ∅ ∅ len := by
  have hmax : maxva < 2 ^ 64 := by decide
  have hbase := he.base_lt
  have hnone : ∀ x, ¬ Owned h.asked x := by
    rintro x ⟨m, q, hmem, -⟩
    rw [hp.asked] at hmem
    cases hmem
  have hptr : ((h.setPtr env.base env.base).setSize env.base 0).ptr env.base = env.base := by
    rw [Heap.setSize_ptr, Heap.setPtr_ptr, Nat.mod_eq_of_lt (by omega)]
  have hsize : ((h.setPtr env.base env.base).setSize env.base 0).size env.base = 0 := Heap.setSize_size _ _ _
  refine ⟨⟨?_, hsize, ⟨?_, ?_⟩, ?_, ?_, ?_, ?_, ?_, ?_⟩, ?_, ?_⟩
  · intro a ha
    obtain rfl : a = env.base := by simpa using ha
    change After _ _ (((h.setPtr env.base env.base).setSize env.base 0).ptr env.base)
    rw [hptr]
    exact ⟨by simp, .inr ⟨Nat.le_refl _, by simp⟩⟩
  · simp
  · simp
  · simp
  · rintro x ⟨a, ha, -⟩
    simp at ha
  · exact fun x hx => absurd hx (hnone x)
  · simp
  · simp
  · exact fun _ x hx => absurd hx (hnone x)
  · simp
  · intro _ a ha
    simp at ha

/-- The units of a request, with room for the header and the bytes asked for. -/
theorem unitsOf_spec (nbytes : BitVec 32) :
    0 < Heap.unitsOf nbytes ∧ nbytes.toNat ≤ hdrsize * (Heap.unitsOf nbytes - 1) := by
  have := nbytes.isLt
  simp only [Heap.unitsOf, hdrsize]
  omega

theorem unitsOf_lt {nbytes : BitVec 32} (hn : nbytes.toNat ≤ 2 ^ 31 - 32) : Heap.unitsOf nbytes < 2 ^ 27 := by
  simp only [Heap.unitsOf, hdrsize]
  omega

theorem Shaped.malloc_runs (hs : Shaped env h free live len) (he : Honest env) {nbytes : BitVec 32}
    (hn : nbytes.toNat ≤ 2 ^ 31 - 32) :
    ∃ r h' n0, Outcome env (Heap.unitsOf nbytes) live len h' r ∧
      ∀ fuel, n0 ≤ fuel → h.malloc env fuel nbytes = some (r, h') := by
  unfold Heap.malloc
  rw [if_neg (hs.freep_pos he)]
  exact hs.search_runs he (unitsOf_spec nbytes).1 (unitsOf_lt hn)

theorem Pristine.malloc_runs (hp : Pristine h) (he : Honest env) (len : Nat → Nat) {nbytes : BitVec 32}
    (hn : nbytes.toNat ≤ 2 ^ 31 - 32) :
    ∃ r h' n0, Outcome env (Heap.unitsOf nbytes) ∅ len h' r ∧
      ∀ fuel, n0 ≤ fuel → h.malloc env fuel nbytes = some (r, h') := by
  unfold Heap.malloc
  rw [if_pos hp.freep]
  exact (hp.shaped he len).search_runs he (unitsOf_spec nbytes).1 (unitsOf_lt hn)

end Malloc

end Xv6Filter.Umalloc
