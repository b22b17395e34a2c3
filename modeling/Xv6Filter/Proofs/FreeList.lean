import Xv6Filter.Proofs.HeapLayout

namespace Xv6Filter.Umalloc
open Lib Function

def Clear (a b : Nat) : Prop := a + hdrsize ≤ b ∨ b + hdrsize ≤ a

namespace Heap

variable (h : Heap) (a b v : Nat)

@[simp] theorem setPtr_asked : (h.setPtr a v).asked = h.asked := rfl

@[simp] theorem setSize_asked : (h.setSize a v).asked = h.asked := rfl

theorem size_lt : h.size a < 2 ^ 32 := loadLe_lt h.mem (a + 8) 4

theorem setPtr_ptr : (h.setPtr a v).ptr a = v % 2 ^ 64 := loadLe_storeLe h.mem a 8 v

theorem setSize_size : (h.setSize a v).size a = v % 2 ^ 32 := loadLe_storeLe h.mem (a + 8) 4 v

theorem setPtr_size : (h.setPtr a v).size a = h.size a := loadLe_storeLe_ne h.mem v (.inl (Nat.le_refl _))

theorem setSize_ptr : (h.setSize a v).ptr a = h.ptr a := loadLe_storeLe_ne h.mem v (.inr (Nat.le_refl _))

theorem setPtr_setSize_setPtr (w : Nat) :
    ((h.setPtr a v).setSize a w).setPtr a b = (h.setSize a w).setPtr a b := by
  unfold setPtr setSize
  congr 1
  funext k
  simp only [storeLe]
  split
  · rfl
  · split
    · rfl
    · rfl

variable {a b}

theorem setPtr_clear (hc : Clear a b) : (h.setPtr a v).ptr b = h.ptr b ∧ (h.setPtr a v).size b = h.size b := by
  simp only [Clear, hdrsize] at hc
  exact ⟨loadLe_storeLe_ne h.mem v (by omega), loadLe_storeLe_ne h.mem v (by omega)⟩

theorem setSize_clear (hc : Clear a b) : (h.setSize a v).ptr b = h.ptr b ∧ (h.setSize a v).size b = h.size b := by
  simp only [Clear, hdrsize] at hc
  exact ⟨loadLe_storeLe_ne h.mem v (by omega), loadLe_storeLe_ne h.mem v (by omega)⟩

end Heap

/-- The headers in `cells` hold the pointers `ptr` and the sizes `size`, and no two of them overlap. -/
structure Sees (cells : Finset Nat) (h : Heap) (ptr size : Nat → Nat) : Prop where
  ptr : ∀ c ∈ cells, h.ptr c = ptr c
  size : ∀ c ∈ cells, h.size c = size c
  clear : ∀ a ∈ cells, ∀ b ∈ cells, a ≠ b → Clear a b

namespace Sees

variable {cells : Finset Nat} {h : Heap} {ptr size : Nat → Nat} {a v : Nat}

theorem setPtr (hs : Sees cells h ptr size) (ha : a ∈ cells) (hv : v < 2 ^ 64) :
    Sees cells (h.setPtr a v) (update ptr a v) size := by
  refine ⟨?_, ?_, hs.clear⟩
  · intro c hc
    by_cases hca : c = a
    · subst hca
      rw [h.setPtr_ptr, update_self, Nat.mod_eq_of_lt hv]
    · rw [update_of_ne hca, (h.setPtr_clear v (hs.clear a ha c hc (Ne.symm hca))).1]
      exact hs.ptr c hc
  · intro c hc
    by_cases hca : c = a
    · subst hca
      rw [h.setPtr_size]
      exact hs.size c hc
    · rw [(h.setPtr_clear v (hs.clear a ha c hc (Ne.symm hca))).2]
      exact hs.size c hc

theorem setSize (hs : Sees cells h ptr size) (ha : a ∈ cells) :
    Sees cells (h.setSize a v) ptr (update size a (v % 2 ^ 32)) := by
  refine ⟨?_, ?_, hs.clear⟩
  · intro c hc
    by_cases hca : c = a
    · subst hca
      rw [h.setSize_ptr]
      exact hs.ptr c hc
    · rw [(h.setSize_clear v (hs.clear a ha c hc (Ne.symm hca))).1]
      exact hs.ptr c hc
  · intro c hc
    by_cases hca : c = a
    · subst hca
      rw [h.setSize_size, update_self]
    · rw [update_of_ne hca, (h.setSize_clear v (hs.clear a ha c hc (Ne.symm hca))).2]
      exact hs.size c hc

theorem mono (hs : Sees cells h ptr size) (hsub : cells' ⊆ cells) : Sees cells' h ptr size :=
  ⟨fun c hc => hs.ptr c (hsub hc), fun c hc => hs.size c (hsub hc),
    fun a ha b hb => hs.clear a (hsub ha) b (hsub hb)⟩

end Sees

/-- The free list of a heap and the blocks in use: what every call of `malloc` and `free` keeps. -/
structure Shaped (env : Env) (h : Heap) (free live : Finset Nat) (len : Nat → Nat) : Prop extends
    Layout env.base h.asked h.ptr h.size free live len where
  freep : h.freep ∈ insert env.base free
  coalesced : obtained h.asked < 2 ^ 36 → Coalesced h.ptr free len

namespace Layout

variable {base : Nat} {asked : Asked} {ptr size : Nat → Nat} {free live : Finset Nat} {len : Nat → Nat}

theorem clear (h : Layout base asked ptr size free live len) (ha : a ∈ insert base (free ∪ live))
    (hb : b ∈ insert base (free ∪ live)) (hne : a ≠ b) : Clear a b := by
  unfold Clear
  rcases Finset.mem_insert.mp ha with ha | ha
  · rcases Finset.mem_insert.mp hb with hb | hb
    · exact absurd (ha.trans hb.symm) hne
    · exact .inl (ha ▸ h.above hb)
  · rcases Finset.mem_insert.mp hb with hb | hb
    · exact .inr (hb ▸ h.above ha)
    · have hla := h.hdrsize_le ha
      have hlb := h.hdrsize_le hb
      rcases Nat.lt_or_gt_of_ne hne with hlt | hlt
      · have := h.tiles.apart a ha b hb hlt
        exact .inl (by omega)
      · have := h.tiles.apart b hb a ha hlt
        exact .inr (by omega)

theorem sees {h : Heap} (hl : Layout base asked h.ptr h.size free live len) :
    Sees (insert base (free ∪ live)) h h.ptr h.size :=
  ⟨fun _ _ => rfl, fun _ _ => rfl, fun _ ha _ hb => hl.clear ha hb⟩

/-- All addresses of headers are far below the end of the address space. -/
theorem cell_lt (h : Layout base asked ptr size free live len) (hbase : base < maxva)
    (ha : a ∈ insert base (free ∪ live)) : a < 2 ^ 64 := by
  have hmax : maxva < 2 ^ 64 := by decide
  rcases Finset.mem_insert.mp ha with rfl | ha
  · omega
  · have := h.fits ha
    omega

theorem plus_eq (h : Layout base asked ptr size free live len) (ha : a ∈ free ∪ live)
    (hn : hdrsize * n ≤ len a) : plus a n = a + hdrsize * n := by
  have hfits := h.fits ha
  have hmax : maxva < 2 ^ 64 := by decide
  exact Nat.mod_eq_of_lt (by omega)

end Layout

/-- What `free` has when block `bp` is joined to the next one and not yet to `p` before it: the
pointers `ptr` are right once `p` leads to `bp`. -/
structure Halfway (env : Env) (bp p : Nat) (h : Heap) (ptr size : Nat → Nat) (free live : Finset Nat)
    (len : Nat → Nat) : Prop where
  layout : Layout env.base h.asked ptr size free live len
  bp_free : bp ∈ free
  p_mem : p ∈ insert env.base free
  p_ptr : ptr p = bp
  ne : p ≠ bp
  sees : Sees (insert env.base (free ∪ live)) (h.setPtr p bp) ptr size
  bp_ptr : h.ptr bp = ptr bp
  coalesced : obtained h.asked < 2 ^ 36 → ∀ a ∈ free, a ≠ p → a + len a ≠ ptr a

theorem Heap.find_succ (h : Heap) (bp fuel p : Nat) :
    h.find bp (fuel + 1) p = if InGap p (h.ptr p) bp then some p else h.find bp fuel (h.ptr p) := by
  rw [Heap.find]
  by_cases h1 : bp > p ∧ bp < h.ptr p
  · rw [if_pos h1, if_pos (.inl h1)]
  · rw [if_neg h1]
    by_cases h2 : p ≥ h.ptr p ∧ (bp > p ∨ bp < h.ptr p)
    · rw [if_pos h2, if_pos (.inr h2)]
    · have hno : ¬ InGap p (h.ptr p) bp := fun hgap => Or.elim hgap h1 h2
      rw [if_neg h2, if_neg hno]

section Free

variable {env : Env} {h : Heap} {free live : Finset Nat} {len : Nat → Nat} {bp p : Nat}

/-- The first half of `free`: the block has taken in the one behind it, if they touch. -/
theorem Shaped.joinNext (hs : Shaped env h free live len) (hbase : env.base < maxva) (hbp : bp ∈ live)
    (hp : p ∈ insert env.base free) (hgap : InGap p (h.ptr p) bp) :
    ∃ ptr size free' len', Halfway env bp p (h.joinNext bp p) ptr size free' (live.erase bp) len' ∧
      (∀ a ∈ live.erase bp, len' a = len a) ∧ (h.joinNext bp p).asked = h.asked := by
  have hrel := hs.toLayout.release hbp hp hgap
  have hubp : bp ∈ free ∪ live := Finset.mem_union_right _ hbp
  have hcbp : bp ∈ insert env.base (free ∪ live) := Finset.mem_insert_of_mem hubp
  have hcp : p ∈ insert env.base (free ∪ live) := by
    rw [← Finset.insert_union]
    exact Finset.mem_union_left _ hp
  have hpbp : p ≠ bp := by
    rintro rfl
    unfold InGap at hgap
    omega
  have hcells : insert env.base (insert bp free ∪ live.erase bp) = insert env.base (free ∪ live) := by
    congr 1
    ext x
    by_cases hx : x = bp <;> simp [hx, hbp]
  obtain ⟨hsize, -⟩ := hs.size_live bp hbp
  have hplus : plus bp (h.size bp) = bp + len bp := by
    rw [hs.plus_eq hubp (Nat.le_of_eq hsize), hsize]
  have hq : h.ptr p ∈ insert env.base free := (hs.circle p hp).1
  have hcq : h.ptr p ∈ insert env.base (free ∪ live) := by
    rw [← Finset.insert_union]
    exact Finset.mem_union_left _ hq
  have hsees := hs.sees
  unfold Heap.joinNext
  rw [hplus]
  split
  · rename_i htouch
    have hbelow := hs.above hubp
    have hpos := hs.tiles.pos bp hubp
    have hqfree : h.ptr p ∈ free := by
      refine (Finset.mem_insert.mp hq).resolve_left fun he => ?_
      omega
    have hqp : h.ptr p ≠ p := by
      intro he
      obtain ⟨-, ⟨hlt, -⟩ | ⟨-, hall⟩⟩ := hs.circle p hp
      · omega
      · have := hall env.base (Finset.mem_insert_self _ _)
        omega
    have hqbp : h.ptr p ≠ bp := by omega
    have hq0 : update (update h.ptr bp (h.ptr p)) p bp (h.ptr p) = h.ptr (h.ptr p) := by
      rw [update_of_ne hqp, update_of_ne hqbp]
    have habs := hrel.absorb (Finset.mem_insert_self bp free) (Finset.mem_insert_of_mem hqfree) htouch
    rw [hq0] at habs
    have hptrs : update (update (update h.ptr bp (h.ptr p)) p bp) bp
        (h.ptr (h.ptr p)) = update (update h.ptr bp (h.ptr (h.ptr p))) p bp := by
      rw [update_comm hpbp, update_idem]
    rw [hptrs] at habs
    have hsized := hsees.setSize (v := h.size bp + h.size (h.ptr p)) hcbp
    have hnext : h.ptr (h.ptr p) ∈ insert env.base (free ∪ live) := by
      rw [← Finset.insert_union]
      exact Finset.mem_union_left _ (hs.circle _ hq).1
    have hlt := hs.cell_lt hbase hnext
    have hread : (h.setSize bp (h.size bp + h.size (h.ptr p))).ptr
        ((h.setSize bp (h.size bp + h.size (h.ptr p))).ptr p) = h.ptr (h.ptr p) := by
      rw [hsized.ptr p hcp, hsized.ptr _ hcq]
    dsimp only
    rw [hread]
    refine ⟨_, _, _, _, ⟨habs, ?_, ?_, ?_, hpbp, ?_, ?_, ?_⟩, ?_, rfl⟩
    · exact Finset.mem_erase.mpr ⟨hqbp.symm, Finset.mem_insert_self _ _⟩
    · rcases Finset.mem_insert.mp hp with rfl | hpf
      · exact Finset.mem_insert_self _ _
      · exact Finset.mem_insert_of_mem (Finset.mem_erase.mpr ⟨hqp.symm, Finset.mem_insert_of_mem hpf⟩)
    · rw [update_self]
    · refine ((hsized.setPtr hcbp hlt).setPtr hcp (hs.cell_lt hbase hcbp)).mono ?_
      rw [← hcells]
      exact Finset.insert_subset_insert _ (Finset.union_subset_union_left (Finset.erase_subset _ _))
    · rw [update_of_ne hpbp.symm, update_self, Heap.setPtr_ptr, Nat.mod_eq_of_lt hlt]
    · intro hsmall a ha hap
      rw [update_of_ne hap]
      rcases Finset.mem_insert.mp (Finset.mem_of_mem_erase ha) with rfl | ha
      · rw [update_self, update_self]
        have := hs.coalesced hsmall _ hqfree
        omega
      · have hab : a ≠ bp := fun he => Finset.disjoint_left.mp hs.split ha (he ▸ hbp)
        rw [update_of_ne hab, update_of_ne hab]
        exact hs.coalesced hsmall a ha
    · intro a ha
      rw [update_of_ne (Finset.ne_of_mem_erase ha)]
  · rename_i hnot
    refine ⟨_, h.size, insert bp free, len, ⟨hrel, ?_, ?_, ?_, hpbp, ?_, ?_, ?_⟩, fun _ _ => rfl, rfl⟩
    · exact Finset.mem_insert_self _ _
    · rw [Finset.insert_comm]
      exact Finset.mem_insert_of_mem hp
    · rw [update_self]
    · rw [hcells]
      exact (hsees.setPtr hcbp (hs.cell_lt hbase hcq)).setPtr hcp (hs.cell_lt hbase hcbp)
    · rw [update_of_ne hpbp.symm, update_self, Heap.setPtr_ptr, Nat.mod_eq_of_lt]
      exact hs.cell_lt hbase hcq
    · intro hsmall a ha hap
      rw [update_of_ne hap]
      rcases Finset.mem_insert.mp ha with rfl | ha
      · rw [update_self]
        exact hnot
      · have hab : a ≠ bp := fun he => Finset.disjoint_left.mp hs.split ha (he ▸ hbp)
        rw [update_of_ne hab]
        exact hs.coalesced hsmall a ha

/-- The second half: the block before it takes it in, if they touch. -/
theorem Halfway.joinPrev {ptr size : Nat → Nat} (hh : Halfway env bp p h ptr size free live len) (hbase : env.base < maxva) :
    ∃ free' len', Shaped env { h.joinPrev bp p with freep := p } free' live len' ∧
      (∀ a ∈ live, len' a = len a) ∧ (h.joinPrev bp p).asked = h.asked := by
  have hcp : p ∈ insert env.base (free ∪ live) := by
    rw [← Finset.insert_union]
    exact Finset.mem_union_left _ hh.p_mem
  have hubp : bp ∈ free ∪ live := Finset.mem_union_left _ hh.bp_free
  have hcbp : bp ∈ insert env.base (free ∪ live) := Finset.mem_insert_of_mem hubp
  have hbpbase : bp ≠ env.base := fun he => hh.layout.base_not_mem (he ▸ hubp)
  have hcbase := hh.layout.cell_lt hbase (Finset.mem_insert_self env.base _)
  have hsize : ∀ c ∈ insert env.base (free ∪ live), h.size c = size c := by
    intro c hc
    rw [← hh.sees.size c hc]
    by_cases hcp' : c = p
    · rw [hcp', h.setPtr_size]
    · exact ((h.setPtr_clear bp (hh.sees.clear p hcp c hc (Ne.symm hcp'))).2).symm
  have htest : p ∈ free → plus p (h.size p) = p + hdrsize * size p := by
    intro hpf
    have hle : hdrsize * size p ≤ len p := hh.layout.size_free p hpf ▸ Nat.mod_le _ _
    rw [hsize p hcp]
    exact hh.layout.plus_eq (Finset.mem_union_left _ hpf) hle
  unfold Heap.joinPrev
  split
  · rename_i htouch
    have hpf : p ∈ free := by
      refine (Finset.mem_insert.mp hh.p_mem).resolve_left fun he => hbpbase ?_
      rw [← htouch, hsize p hcp, he, hh.layout.base_size, plus]
      exact Nat.mod_eq_of_lt hcbase
    have hup : p ∈ free ∪ live := Finset.mem_union_left _ hpf
    have hend : p + len p = bp := by
      rw [htest hpf] at htouch
      have hmod := hh.layout.size_free p hpf
      have hapart := hh.layout.tiles.apart p hup bp hubp
      have hne := hh.ne
      have hle := Nat.mod_le (len p) (2 ^ 36)
      omega
    have habs := hh.layout.absorb hpf hh.bp_free hend
    have hread : (h.setSize p (h.size p + h.size bp)).ptr bp = ptr bp := by
      rw [(h.setSize_clear _ (hh.sees.clear p hcp bp hcbp hh.ne)).1]
      exact hh.bp_ptr
    have hnext : ptr bp ∈ insert env.base (free ∪ live) := by
      rw [← Finset.insert_union]
      exact Finset.mem_union_left _ (hh.layout.circle bp (Finset.mem_insert_of_mem hh.bp_free)).1
    have hsees : Sees (insert env.base (free ∪ live))
        ((h.setSize p (h.size p + h.size bp)).setPtr p (ptr bp)) (update ptr p (ptr bp))
        (update size p ((size p + size bp) % 2 ^ 32)) := by
      rw [← h.setPtr_setSize_setPtr p (ptr bp) bp, hsize p hcp, hsize bp hcbp]
      exact (hh.sees.setSize hcp).setPtr hcp (hh.layout.cell_lt hbase hnext)
    dsimp only
    rw [hread]
    have hsub : insert env.base (free.erase bp) ⊆ insert env.base (free ∪ live) :=
      Finset.insert_subset_insert _ ((Finset.erase_subset _ _).trans Finset.subset_union_left)
    refine ⟨free.erase bp, _, ⟨habs.congr ?_ ?_, ?_, ?_⟩, ?_, rfl⟩
    · exact fun a ha => hsees.ptr a (hsub ha)
    · intro a ha
      refine hsees.size a (Finset.insert_subset_insert _ ?_ ha)
      exact Finset.union_subset_union_left (Finset.erase_subset _ _)
    · exact Finset.mem_insert_of_mem (Finset.mem_erase.mpr ⟨hh.ne, hpf⟩)
    · intro hsmall a ha
      have hptr := hsees.ptr a (hsub (Finset.mem_insert_of_mem ha))
      change a + _ ≠ ((h.setSize p (h.size p + h.size bp)).setPtr p (ptr bp)).ptr a
      rw [hptr]
      by_cases hap : a = p
      · subst hap
        rw [update_self, update_self]
        have := hh.coalesced hsmall bp hh.bp_free hh.ne.symm
        omega
      · rw [update_of_ne hap, update_of_ne hap]
        exact hh.coalesced hsmall a (Finset.mem_of_mem_erase ha) hap
    · intro a ha
      have hap : a ≠ p := fun he => Finset.disjoint_left.mp hh.layout.split hpf (he ▸ ha)
      rw [update_of_ne hap]
  · rename_i hnot
    refine ⟨free, len, ⟨hh.layout.congr ?_ ?_, ?_, ?_⟩, fun _ _ => rfl, rfl⟩
    · intro a ha
      refine hh.sees.ptr a ?_
      rw [← Finset.insert_union]
      exact Finset.mem_union_left _ ha
    · exact hh.sees.size
    · exact hh.p_mem
    · intro hsmall a ha
      have hptr : (h.setPtr p bp).ptr a = ptr a := hh.sees.ptr a (by simp [ha])
      change a + len a ≠ (h.setPtr p bp).ptr a
      rw [hptr]
      by_cases hap : a = p
      · subst hap
        rw [htest ha, hh.layout.exact hsmall ha] at hnot
        rw [hh.p_ptr]
        exact hnot
      · exact hh.coalesced hsmall a ha hap

section

variable (hs : Shaped env h free live len)

include hs

theorem Shaped.link (hbase : env.base < maxva) (hbp : bp ∈ live)
    (hp : p ∈ insert env.base free) (hgap : InGap p (h.ptr p) bp) :
    ∃ free' len', Shaped env (h.link bp p) free' (live.erase bp) len' ∧
      (∀ a ∈ live.erase bp, len' a = len a) ∧ (h.link bp p).asked = h.asked := by
  obtain ⟨ptr, size, free1, len1, hh, hlen1, hasked1⟩ := hs.joinNext hbase hbp hp hgap
  obtain ⟨free', len', hs', hlen', hasked'⟩ := hh.joinPrev hbase
  unfold Heap.link
  refine ⟨free', len', hs', fun a ha => (hlen' a ha).trans (hlen1 a ha), ?_⟩
  dsimp only
  rw [hasked', hasked1]

/-- From `p` on, the loop of `free` gets to a gap that its block is in. -/
theorem Shaped.find_arc (ht : t ∈ insert env.base free)
    (hgap : InGap t (h.ptr t) bp) (hp : p ∈ insert env.base free)
    (hk : (arc (insert env.base free) p t).card = k) :
    ∃ q ∈ insert env.base free, InGap q (h.ptr q) bp ∧ ∀ fuel, k + 1 ≤ fuel → h.find bp fuel p = some q := by
  induction k generalizing p with
  | zero => exact absurd hk (Nat.ne_of_gt ((hs.circle p hp).arc_card_pos ht))
  | succ k ih =>
    by_cases hhere : InGap p (h.ptr p) bp
    · refine ⟨p, hp, hhere, fun fuel hfuel => ?_⟩
      obtain ⟨fuel, rfl⟩ : ∃ n, fuel = n + 1 := ⟨fuel - 1, by omega⟩
      rw [Heap.find_succ, if_pos hhere]
    have hnext := hs.circle p hp
    by_cases hlast : h.ptr p = t
    · refine ⟨t, ht, hgap, fun fuel hfuel => ?_⟩
      obtain ⟨fuel, rfl⟩ : ∃ n, fuel = n + 2 := ⟨fuel - 2, by omega⟩
      rw [Heap.find_succ, if_neg hhere, hlast, Heap.find_succ, if_pos hgap]
    · obtain ⟨hmem, harc⟩ := hnext.arc_step ht hlast
      obtain ⟨q, hq, hqgap, hfind⟩ := ih hnext.1 (by rw [harc, Finset.card_erase_of_mem hmem, hk]; rfl)
      refine ⟨q, hq, hqgap, fun fuel hfuel => ?_⟩
      obtain ⟨fuel, rfl⟩ : ∃ n, fuel = n + 1 := ⟨fuel - 1, by omega⟩
      rw [Heap.find_succ, if_neg hhere]
      exact hfind fuel (by omega)

theorem Shaped.find (hbp : bp ∉ insert env.base free) : ∃ q ∈ insert env.base free, InGap q (h.ptr q) bp ∧
      ∀ fuel, free.card + 2 ≤ fuel → h.find bp fuel h.freep = some q := by
  obtain ⟨t, ht, hgap⟩ := hs.circle.exists_gap ⟨_, hs.freep⟩ hbp
  obtain ⟨q, hq, hqgap, hfind⟩ := hs.find_arc ht hgap hs.freep rfl
  refine ⟨q, hq, hqgap, fun fuel hfuel => hfind fuel ?_⟩
  have hle := Finset.card_le_card (arc_subset (insert env.base free) h.freep t)
  have hins := Finset.card_insert_le env.base free
  omega

/-- `free` of a live block returns, and the list has the right shape again. -/
theorem Shaped.free_runs (hbase : env.base < maxva) (hbp : bp ∈ live) :
    ∃ h' free' len', (∀ fuel, free.card + 2 ≤ fuel → h.free fuel (bp + hdrsize) = some h') ∧
      Shaped env h' free' (live.erase bp) len' ∧ (∀ a ∈ live.erase bp, len' a = len a) ∧
      h'.asked = h.asked := by
  have hubp : bp ∈ free ∪ live := Finset.mem_union_right _ hbp
  have hnot : bp ∉ insert env.base free := by
    intro hmem
    rcases Finset.mem_insert.mp hmem with he | hfree
    · exact hs.base_not_mem (he ▸ hubp)
    · exact Finset.disjoint_left.mp hs.split hfree hbp
  have hheader : headerOf (bp + hdrsize) = bp := by
    have := hs.cell_lt hbase (Finset.mem_insert_of_mem hubp)
    simp only [headerOf, hdrsize]
    omega
  obtain ⟨q, hq, hgap, hfind⟩ := hs.find hnot
  obtain ⟨free', len', hs', hlen, hasked⟩ := hs.link hbase hbp hq hgap
  refine ⟨h.link bp q, free', len', fun fuel hfuel => ?_, hs', hlen, hasked⟩
  rw [Heap.free, hheader, hfind fuel hfuel]
  rfl

end

end Free

end Xv6Filter.Umalloc
