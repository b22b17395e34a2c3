import Xv6Filter.Proofs.PageTable

namespace Xv6Filter.Paging
open Lib Function

noncomputable def held (w : Frame → Nat) (m : Ram) (pt : Table) : Nat := m.weight w + pt.weight w

def at_ (f : Frame) : Frame → Nat := fun g => if g = f then 1 else 0

theorem at_self (f : Frame) : at_ f f = 1 := by simp [at_]

theorem Ram.one_le_weight {m : Ram} (h : f ∈ m.free) : 1 ≤ m.weight (at_ f) := by
  have hle : at_ f f ≤ (m.free.map (at_ f)).sum := List.le_sum_of_mem (List.mem_map_of_mem h)
  rw [at_self] at hle
  exact hle

theorem Ram.mem_of_weight {m : Ram} (h : 0 < m.weight (at_ f)) : f ∈ m.free := by
  by_contra hout
  have hzero : (m.free.map (at_ f)).sum = 0 := by
    apply List.sum_eq_zero
    intro x hx
    obtain ⟨g, hg, rfl⟩ := List.mem_map.mp hx
    have hne : g ≠ f := by
      rintro rfl
      exact hout hg
    simp [at_, hne]
  simp only [Ram.weight, hzero] at h
  omega

theorem Ram.not_mem_of_weight {m m' : Ram} (hw : ∀ w, m'.weight w = m.weight w) (hf : f ∉ m.free) : f ∉ m'.free := by
  intro hin
  have hone := Ram.one_le_weight hin
  rw [hw] at hone
  exact hf (Ram.mem_of_weight hone)

def stray (first : Frame) : Frame → Nat := fun f => if first ≤ f ∧ f < physstop then 0 else 1

structure Took (m m' : Ram) : Prop where
  first : m'.first = m.first
  trampoline : m'.trampoline = m.trampoline
  free : ∃ us, m.free = us ++ m'.free
  data : ∀ f, f ∉ m.free → m'.data f = m.data f

structure Gave (m m' : Ram) : Prop where
  first : m'.first = m.first
  trampoline : m'.trampoline = m.trampoline
  free : ∃ us, m'.free = us ++ m.free
  data : ∀ f, f ∉ m'.free → m'.data f = m.data f

namespace Took

theorem refl (m : Ram) : Took m m := ⟨rfl, rfl, ⟨[], rfl⟩, fun _ _ => rfl⟩

theorem trans (h : Took m m') (h' : Took m' m'') : Took m m'' := by
  obtain ⟨us, hu⟩ := h.free
  obtain ⟨us', hu'⟩ := h'.free
  refine ⟨h'.first.trans h.first, h'.trampoline.trans h.trampoline, ⟨us ++ us', ?_⟩, ?_⟩
  · rw [hu, hu', List.append_assoc]
  · intro f hf
    have hf' : f ∉ m'.free := by
      intro hm
      exact hf (by rw [hu]; exact List.mem_append_right us hm)
    rw [h'.data f hf', h.data f hf]

theorem mem (h : Took m m') (hf : f ∈ m'.free) : f ∈ m.free := by
  obtain ⟨us, hu⟩ := h.free
  rw [hu]
  exact List.mem_append_right us hf

theorem length_le (h : Took m m') : m'.free.length ≤ m.free.length := by
  obtain ⟨us, hu⟩ := h.free
  rw [hu, List.length_append]
  omega

end Took

namespace Gave

theorem refl (m : Ram) : Gave m m := ⟨rfl, rfl, ⟨[], rfl⟩, fun _ _ => rfl⟩

theorem trans (h : Gave m m') (h' : Gave m' m'') : Gave m m'' := by
  obtain ⟨us, hu⟩ := h.free
  obtain ⟨us', hu'⟩ := h'.free
  refine ⟨h'.first.trans h.first, h'.trampoline.trans h.trampoline, ⟨us' ++ us, ?_⟩, ?_⟩
  · rw [hu', hu, List.append_assoc]
  · intro f hf
    have hf' : f ∉ m'.free := by
      intro hm
      exact hf (by rw [hu']; exact List.mem_append_right us' hm)
    rw [h'.data f hf, h.data f hf']

end Gave

namespace Ram

theorem ne_of_not_mem_free {m : Ram} (h : m.free = f :: fs) (hg : g ∉ m.free) : g ≠ f := by
  rintro rfl
  exact hg (by rw [h]; exact List.mem_cons_self)

theorem kalloc_some {m m' : Ram} (h : m.kalloc = some (f, m')) :
    m.free = f :: m'.free ∧ Took m m' := by
  simp only [kalloc] at h
  split at h
  · cases h
  · rename_i hfree
    cases h
    refine ⟨hfree, rfl, rfl, ⟨[_], hfree⟩, ?_⟩
    intro f' hf'
    exact update_of_ne (ne_of_not_mem_free hfree hf') ..

theorem kalloc_none {m : Ram} (h : m.kalloc = none) : m.free = [] := by
  simp only [kalloc] at h
  split at h
  · assumption
  · cases h

theorem zalloc_some {m m' : Ram} (h : m.zalloc = some (f, m')) :
    m.free = f :: m'.free ∧ Took m m' ∧ m'.data f = fun _ => 0 := by
  obtain ⟨⟨g, m1⟩, hk, he⟩ := Option.map_eq_some_iff.mp h
  cases he
  obtain ⟨hfree, htook⟩ := kalloc_some hk
  refine ⟨hfree, ⟨htook.first, htook.trampoline, htook.free, ?_⟩, update_self ..⟩
  intro f' hf'
  rw [← htook.data f' hf']
  exact update_of_ne (ne_of_not_mem_free hfree hf') ..

theorem zalloc_none {m : Ram} (h : m.zalloc = none) : m.free = [] :=
  kalloc_none (Option.map_eq_none_iff.mp h)

theorem weight_of_free {m m' : Ram} (w : Frame → Nat) (h : m.free = f :: m'.free) :
    m.weight w = w f + m'.weight w := by
  simp [weight, h]

theorem kfree_runs {m : Ram} (h : stray m.first f = 0) :
    Runs (m.kfree f) fun m' => Gave m m' ∧ (∀ w, m'.weight w = w f + m.weight w) ∧
      ∀ g, g ≠ f → m'.data g = m.data g := by
  have hin : ¬(f < m.first ∨ physstop ≤ f) := by
    simp only [stray] at h
    split at h
    · rename_i hin
      rintro (hlow | hhigh)
      · exact Nat.not_lt.mpr hin.1 hlow
      · exact Nat.not_lt.mpr hhigh hin.2
    · cases h
  simp only [kfree, hin, if_false, Runs]
  refine ⟨⟨rfl, rfl, ⟨[f], rfl⟩, ?_⟩, fun w => by simp [weight], fun g hne => update_of_ne hne ..⟩
  intro g hg
  have hne : g ≠ f := by
    rintro rfl
    exact hg List.mem_cons_self
  exact update_of_ne hne ..

end Ram

structure Grown (m : Ram) (pt : Table) (m' : Ram) (pt' : Table) : Prop where
  took : Took m m'
  leaf : ∀ va, pt'.leaf va = pt.leaf va
  node : ∀ va, (pt.node va).isSome → (pt'.node va).isSome
  weight : ∀ w, m'.weight w + pt'.nodeWeight w = m.weight w + pt.nodeWeight w

theorem Grown.held (h : Grown m pt m' pt') (w : Frame → Nat) : held w m' pt' = held w m pt := by
  have hleaves : pt'.leafWeight w = pt.leafWeight w := by
    simp only [Table.leafWeight, Table.mapped, h.leaf]
  have hnodes := h.weight w
  simp only [Paging.held, Table.weight, hleaves]
  omega

/-- A new entry of the root changes the weight of the nodes by that entry. -/
theorem Table.nodeWeight_update (pt : Table) (i : Fin 512) (n1 : Node1) (w : Frame → Nat) :
    ({ pt with pte := update pt.pte i (some n1) } : Table).nodeWeight w +
        (pt.pte i).elim 0 (Node1.weight w) = pt.nodeWeight w + n1.weight w := by
  have hsum := sum_update (fun _ (o : Option Node1) => o.elim 0 (Node1.weight w)) pt.pte i (some n1)
  simp only [Option.elim_some] at hsum
  simp only [Table.nodeWeight]
  omega

theorem Node1.weight_update (n : Node1) (j : Fin 512) (n0 : Node0) (w : Frame → Nat) :
    ({ n with pte := update n.pte j (some n0) } : Node1).weight w +
        (n.pte j).elim 0 (fun n => w n.frame) = n.weight w + w n0.frame := by
  have hsum := sum_update (fun _ (o : Option Node0) => o.elim 0 fun n => w n.frame) n.pte j (some n0)
  simp only [Option.elim_some] at hsum
  simp only [Node1.weight]
  omega

theorem Node1.weight_empty (f : Frame) (w : Frame → Nat) :
    (⟨f, fun _ => none⟩ : Node1).weight w = w f := by
  simp [Node1.weight]

namespace Ram

theorem nextLevel_some {m m' : Ram} {pte : Option α} {empty : Frame → α}
    (h : m.nextLevel pte empty = some (n, m')) :
    (pte = some n ∧ m' = m) ∨ (pte = none ∧ ∃ f, m.zalloc = some (f, m') ∧ n = empty f) := by
  simp only [nextLevel] at h
  split at h
  · cases h
    exact .inl ⟨rfl, rfl⟩
  · obtain ⟨⟨f, m1⟩, hz, he⟩ := Option.map_eq_some_iff.mp h
    cases he
    exact .inr ⟨rfl, f, hz, rfl⟩

theorem nextLevel_none {m : Ram} {pte : Option α} {empty : Frame → α}
    (h : m.nextLevel pte empty = none) : pte = none ∧ m.free = [] := by
  simp only [nextLevel] at h
  split at h
  · cases h
  · exact ⟨rfl, zalloc_none (Option.map_eq_none_iff.mp h)⟩

/-- What a round takes from the free list is what the page-table page weighs more. -/
theorem nextLevel_weight {m m' : Ram} {pte : Option α} {empty : Frame → α} (weigh : α → Nat)
    (h : m.nextLevel pte empty = some (n, m')) (hw : ∀ f, weigh (empty f) = w f) :
    Took m m' ∧ m'.weight w + weigh n = m.weight w + pte.elim 0 weigh ∧
      m'.free.length + (if pte.isSome then 0 else 1) = m.free.length := by
  obtain ⟨rfl, rfl⟩ | ⟨rfl, f, hz, rfl⟩ := nextLevel_some h
  · exact ⟨Took.refl _, rfl, rfl⟩
  · obtain ⟨hfree, htook, -⟩ := zalloc_some hz
    refine ⟨htook, ?_, by rw [hfree]; rfl⟩
    rw [hw, weight_of_free w hfree]
    simp only [Option.elim_none]
    omega

end Ram

/-- Replacing an entry of the root by one that has the same level-0 pages keeps the map. -/
theorem Table.node_update {pt : Table} {n1 : Node1} {va : Nat}
    (h : ∀ j, n1.pte j = ((pt.pte (px 2 va)).bind fun n => n.pte j)) (va' : Nat) :
    ({ pt with pte := update pt.pte (px 2 va) (some n1) } : Table).node va' = pt.node va' := by
  by_cases h2 : px 2 va' = px 2 va
  · simp [Table.node, h2, h]
  · simp [Table.node, update_of_ne h2]

theorem Table.leaf_update {pt : Table} {n1 : Node1} {n0 : Node0} {va : Nat}
    (h1 : ∀ j, n1.pte j = ((pt.pte (px 2 va)).bind fun n => n.pte j))
    (h0 : ∀ k, n0.pte k = ((n1.pte (px 1 va)).bind fun n => n.pte k)) (va' : Nat) :
    ({ pt with pte := update pt.pte (px 2 va) (some
        { n1 with pte := update n1.pte (px 1 va) (some n0) }) } : Table).leaf va' = pt.leaf va' := by
  by_cases h2 : px 2 va' = px 2 va
  · by_cases h1' : px 1 va' = px 1 va
    · simp [Table.leaf, Table.node, h2, h1', h0, h1]
    · simp [Table.leaf, Table.node, h2, update_of_ne h1', h1]
  · simp [Table.leaf, Table.node, update_of_ne h2]

theorem Table.opened {pt : Table} {n1 : Node1} {va : Nat} (n0 : Node0)
    (h : ∀ j, n1.pte j = ((pt.pte (px 2 va)).bind fun n => n.pte j)) :
    Opened pt va { pt with pte := update pt.pte (px 2 va) (some
      { n1 with pte := update n1.pte (px 1 va) (some n0) }) } := by
  constructor
  · intro va'
    by_cases h2 : px 2 va = px 2 va'
    · simp [h2]
    · simp [h2, update_of_ne (Ne.symm h2)]
  · intro va'
    by_cases h2 : px 2 va = px 2 va'
    · by_cases h1 : px 1 va = px 1 va'
      · simp [SamePath, Table.node, h2, h1]
      · simp only [SamePath, Table.node, ← h2, update_self, Option.bind_some,
          update_of_ne (Ne.symm h1), h, h1, and_false, or_false]
    · simp [SamePath, Table.node, h2, update_of_ne (Ne.symm h2)]

/-- `walk` with allocation below MAXVA returns; it gives up only when memory runs out. -/
theorem walkAlloc_runs {m : Ram} {pt : Table} (hva : va < maxva) :
    Runs (m.walkAlloc pt va) fun (found, m', pt') =>
      Grown m pt m' pt' ∧ (found = false → m.free.length < pt.lacks va) ∧
        (found = true → Opened pt va pt' ∧ m'.free.length + pt.lacks va = m.free.length) ∧
        m.free.length ≤ m'.free.length + 2 := by
  simp only [Ram.walkAlloc, Nat.not_le.mpr hva, if_false]
  split
  · rename_i hnone
    obtain ⟨hpte, hfree⟩ := Ram.nextLevel_none hnone
    refine ⟨⟨Took.refl _, fun _ => rfl, fun _ h => h, fun _ => rfl⟩, ?_, by simp, by simp⟩
    simp [hfree, Table.lacks, hpte]
  · rename_i n1 m1 hn1
    have hpte1 : ∀ j, n1.pte j = ((pt.pte (px 2 va)).bind fun n => n.pte j) := by
      intro j
      obtain ⟨he, -⟩ | ⟨he, f, -, rfl⟩ := Ram.nextLevel_some hn1
      · simp [he]
      · simp [he]
    have hw1 := fun w => Ram.nextLevel_weight (Node1.weight w) hn1 fun f => Node1.weight_empty f w
    split
    · rename_i hnone
      obtain ⟨hnone, hfree⟩ := Ram.nextLevel_none hnone
      have hlen := (hw1 fun _ => 0).2.2
      have hnode : pt.node va = none := by rw [Table.node, ← hpte1, hnone]
      have hlacks : pt.lacks va = (if (pt.pte (px 2 va)).isSome then 0 else 1) + 1 := by simp [Table.lacks, hnode]
      simp only [hfree, List.length_nil] at hlen
      refine ⟨⟨(hw1 fun _ => 0).1, ?_, ?_, ?_⟩, ?_, by simp, ?_⟩
      · intro va'
        simp only [Table.leaf, Table.node_update hpte1]
      · intro va' hn
        rw [Table.node_update hpte1]
        exact hn
      · intro w
        have hroot := Table.nodeWeight_update pt (px 2 va) n1 w
        have hmid := (hw1 w).2.1
        dsimp only
        omega
      · intro _
        omega
      · split at hlen
        · omega
        · dsimp only
          omega
    · rename_i n0 m2 hn0
      have hpte0 : ∀ k, n0.pte k = ((n1.pte (px 1 va)).bind fun n => n.pte k) := by
        intro k
        obtain ⟨he, -⟩ | ⟨he, f, -, rfl⟩ := Ram.nextLevel_some hn0
        · simp [he]
        · simp [he]
      have hw0 := fun w => Ram.nextLevel_weight (w := w) (fun n : Node0 => w n.frame) hn0 fun f => rfl
      have hopened := Table.opened n0 hpte1
      have hlen : m2.free.length + pt.lacks va = m.free.length := by
        have hlen1 := (hw1 fun _ => 0).2.2
        have hlen0 := (hw0 fun _ => 0).2.2
        have hnode : pt.node va = n1.pte (px 1 va) := (hpte1 _).symm
        simp only [Table.lacks, hnode]
        omega
      refine ⟨⟨(hw1 fun _ => 0).1.trans (hw0 fun _ => 0).1, ?_, ?_, ?_⟩, by simp, fun _ => ⟨hopened, hlen⟩, ?_⟩
      · exact Table.leaf_update hpte1 hpte0
      · intro va' hn
        exact (hopened.node va').mpr (.inl hn)
      · intro w
        have hroot := Table.nodeWeight_update pt (px 2 va)
          { n1 with pte := update n1.pte (px 1 va) (some n0) } w
        have hnode := Node1.weight_update n1 (px 1 va) n0 w
        have hmid := (hw1 w).2.1
        have hlow := (hw0 w).2.1
        dsimp only
        omega
      · have hle := pt.lacks_le va
        dsimp only
        omega

structure Mapped (m : Ram) (pt : Table) (va : Nat) (l : Leaf) (mapped : Bool) (m' : Ram) (pt' : Table) : Prop where
  took : Took m m'
  leaf : ∀ va', vpn va' < 2 ^ 27 →
    pt'.leaf va' = if mapped = true ∧ vpn va' = vpn va then some l else pt.leaf va'
  low : vpn va < trapframeVpn → ∀ w, held w m' pt' = held w m pt + if mapped then w l.frame else 0
  high : trapframeVpn ≤ vpn va → ∀ w, held w m' pt' = held w m pt
  short : mapped = false → m.free.length < pt.lacks va
  paid : mapped = true → Opened pt va pt' ∧ m'.free.length + pt.lacks va = m.free.length
  cost : m.free.length ≤ m'.free.length + 2

theorem Mapped.few (h : Mapped m pt va l false m' pt') : m.free.length < 2 :=
  Nat.lt_of_lt_of_le (h.short rfl) (pt.lacks_le va)

/-- Mapping one free page either maps it or finds no memory for a table. -/
theorem mapPage_runs {m : Ram} {pt : Table} (hva : va < maxva) (hal : va % pgsize = 0)
    (hnone : pt.leaf va = none) (pa : Frame) (perm : Perm) :
    Runs (m.mappages pt va pgsize pa perm) fun r => Mapped m pt va ⟨pa, perm⟩ r.1 r.2.1 r.2.2 := by
  have hv : vpn va < 2 ^ 27 := by
    simp only [vpn, maxva, pgsize] at *
    omega
  have hsize : pgsize / pgsize = 1 := by decide
  simp only [Ram.mappages, hal, ne_eq, not_true, if_false, Nat.mod_self, hsize]
  rw [if_neg (by decide), Ram.mapLoop]
  refine (walkAlloc_runs hva).bind ?_
  rintro ⟨found, m', pt'⟩ ⟨hgrown, hshort, hpaid, hcost⟩
  cases found with
  | false =>
    refine ⟨hgrown.took, ?_, ?_, fun _ => hgrown.held, hshort, by simp, hcost⟩
    · intro va' _
      simpa using hgrown.leaf va'
    · intro _ w
      simpa using hgrown.held w
  | true =>
    obtain ⟨hopened, hlen⟩ := hpaid rfl
    have hnode : (pt'.node va).isSome := (hopened.node va).mpr (.inr ⟨rfl, rfl⟩)
    have hfresh : pt'.leaf va = none := (hgrown.leaf va).trans hnone
    simp only [Bool.true_eq_false, if_false, hfresh, Ram.mapLoop]
    refine ⟨hgrown.took, ?_, ?_, ?_, by simp, fun _ => ⟨hopened.setLeaf hnode _, hlen⟩, hcost⟩
    · intro va' hv'
      rw [Table.leaf_setLeaf hnode hv hv', hgrown.leaf]
      simp
    · intro hlow w
      have hset := Table.weight_setLeaf w hnode hlow (some ⟨pa, perm⟩)
      have hheld := hgrown.held w
      simp only [hfresh, Option.elim_none, Option.elim_some, held, if_true] at *
      omega
    · intro hhigh w
      have hset := Table.weight_setLeaf_high w hnode hhigh hv (some ⟨pa, perm⟩)
      have hheld := hgrown.held w
      simp only [held] at *
      omega

structure Sound (m : Ram) (pt : Table) : Prop where
  inside : held (stray m.first) m pt = 0
  single : ∀ f, held (at_ f) m pt ≤ 1

theorem Sound.congr (h : Sound m pt) (hfirst : m'.first = m.first) (hheld : ∀ w, held w m' pt' = held w m pt) :
    Sound m' pt' := by
  constructor
  · rw [hfirst, hheld]
    exact h.inside
  · intro f
    rw [hheld]
    exact h.single f

theorem Table.le_weight {pt : Table} (w : Frame → Nat) (hl : pt.leaf va = some l) (hv : vpn va < trapframeVpn) :
    w l.frame ≤ pt.weight w := by
  have hterm : pt.mapped w (vpn va) = w l.frame := by
    simp only [Table.mapped]
    rw [Table.leaf_congr (vpn_page _), hl]
    rfl
  have hsum := Finset.single_le_sum (f := pt.mapped w) (fun _ _ => Nat.zero_le _) (mem_userVpns.mpr hv)
  simp only [Table.weight, Table.leafWeight]
  omega

theorem Sound.leaf_inside (h : Sound m pt) (hl : pt.leaf va = some l) (hv : vpn va < trapframeVpn) :
    stray m.first l.frame = 0 := by
  have hle := Table.le_weight (stray m.first) hl hv
  have hin := h.inside
  simp only [held] at hin
  omega

structure Unmapped (m : Ram) (pt : Table) (lo hi : Nat) (m' : Ram) (pt' : Table) : Prop where
  gave : Gave m m'
  leaf : ∀ va, vpn va < 2 ^ 27 → pt'.leaf va = if lo ≤ vpn va ∧ vpn va < hi then none else pt.leaf va
  held : ∀ w, held w m' pt' = held w m pt
  data : ∀ f, (∀ va l, vpn va < 2 ^ 27 → lo ≤ vpn va → vpn va < hi → pt.leaf va = some l → l.frame ≠ f) →
    m'.data f = m.data f

theorem Unmapped.refl (m : Ram) (pt : Table) (h : hi ≤ lo) : Unmapped m pt lo hi m pt := by
  refine ⟨Gave.refl m, ?_, fun _ => rfl, fun _ _ => rfl⟩
  intro va _
  rw [if_neg (by omega)]

theorem Unmapped.sound (h : Unmapped m pt lo hi m' pt') (hs : Sound m pt) : Sound m' pt' :=
  hs.congr h.gave.first h.held

theorem Unmapped.cons (h : Unmapped m pt lo (lo + 1) m' pt') (h' : Unmapped m' pt' (lo + 1) hi m'' pt'')
    (hle : lo < hi) : Unmapped m pt lo hi m'' pt'' := by
  refine ⟨h.gave.trans h'.gave, ?_, fun w => (h'.held w).trans (h.held w), ?_⟩
  · intro va hva
    rw [h'.leaf va hva, h.leaf va hva]
    by_cases hin : lo ≤ vpn va ∧ vpn va < hi
    · rw [if_pos hin]
      split
      · rfl
      · rw [if_pos (by omega)]
    · rw [if_neg hin, if_neg (by omega), if_neg (by omega)]
  · intro f hf
    rw [h'.data f, h.data f fun va l hva hge hlt => hf va l hva hge (by omega)]
    intro va l hva hge hlt hl
    rw [h.leaf va hva, if_neg (by omega)] at hl
    exact hf va l hva (by omega) hlt hl

theorem unmapLoop_runs {m : Ram} {pt : Table} (hs : Sound m pt) (hn : v + n ≤ trapframeVpn) :
    Runs (Ram.unmapLoop true n m pt (v * pgsize)) fun r => Unmapped m pt v (v + n) r.1 r.2 := by
  induction n generalizing v m pt with
  | zero => exact Unmapped.refl m pt (Nat.le_refl _)
  | succ n ih =>
    have hva : v * pgsize < maxva := by
      simp only [trapframeVpn, trapframeVa, trampolineVa, maxva, pgsize] at *
      omega
    have hrange : v + 1 + n = v + (n + 1) := by omega
    have hskip (hnone : pt.leaf (v * pgsize) = none) :
        Runs (Ram.unmapLoop true n m pt ((v + 1) * pgsize)) fun r => Unmapped m pt v (v + (n + 1)) r.1 r.2 := by
      rw [← hrange]
      refine (ih hs (by omega)).imp fun r hr =>
        Unmapped.cons ⟨Gave.refl m, ?_, fun _ => rfl, fun _ _ => rfl⟩ hr (by omega)
      intro va _
      split
      · have hsame : vpn va = vpn (v * pgsize) := by
          rw [vpn_page]
          omega
        rw [Table.leaf_congr hsame, hnone]
      · rfl
    simp only [Ram.unmapLoop, Table.walk_eq hva, ok_bind, next_page]
    cases hnode : pt.node (v * pgsize) with
    | none => exact hskip (by simp [Table.leaf, hnode])
    | some n0 =>
      cases hl : n0.pte (px 0 (v * pgsize)) with
      | none =>
        simp only [Option.map_some, hl]
        exact hskip (by simp [Table.leaf, hnode, hl])
      | some l =>
        have hleaf : pt.leaf (v * pgsize) = some l := by simp [Table.leaf, hnode, hl]
        have hlow : vpn (v * pgsize) < trapframeVpn := by
          rw [vpn_page]
          omega
        have hhere : (pt.node (v * pgsize)).isSome := by simp [hnode]
        simp only [Option.map_some, hl, if_true]
        refine (Ram.kfree_runs (hs.leaf_inside hleaf hlow)).bind ?_
        rintro m' ⟨hgave, hw, hdata⟩
        have hone : Unmapped m pt v (v + 1) m' (pt.setLeaf (v * pgsize) none) := by
          refine ⟨hgave, ?_, ?_, ?_⟩
          · intro va hva
            rw [Table.leaf_setLeaf hhere (Nat.lt_trans hlow (by decide)) hva, vpn_page]
            exact if_congr (by omega) rfl rfl
          · intro w
            have hset := Table.weight_setLeaf w hhere hlow none
            have hw := hw w
            simp only [hleaf, Option.elim_some, Option.elim_none] at hset
            simp only [held]
            omega
          · intro f hf
            have hne : l.frame ≠ f := hf (v * pgsize) l (Nat.lt_trans hlow (by decide)) (by rw [vpn_page])
              (by rw [vpn_page]; omega) hleaf
            exact hdata f hne.symm
        rw [← hrange]
        exact (ih (hone.sound hs) (by omega)).imp fun r hr => hone.cons hr (by omega)

theorem uvmunmap_runs {m : Ram} {pt : Table} (hs : Sound m pt) (hn : v + n ≤ trapframeVpn) :
    Runs (m.uvmunmap pt (v * pgsize) n true) fun r => Unmapped m pt v (v + n) r.1 r.2 := by
  simp only [Ram.uvmunmap, Nat.mul_mod_left, ne_eq, not_true, if_false]
  exact unmapLoop_runs hs hn

/-- `uvmunmap` of the trapframe's or the trampoline's page, which stays allocated. -/
theorem unmapHigh_runs {m : Ram} {pt : Table} (hlow : trapframeVpn ≤ v) (hhigh : v * pgsize < maxva) :
    Runs (m.uvmunmap pt (v * pgsize) 1 false) fun r => r.1 = m ∧ (∀ w, r.2.weight w = pt.weight w) ∧
      ∀ va, vpn va < 2 ^ 27 → r.2.leaf va = if vpn va = v then none else pt.leaf va := by
  have hkept (hnone : pt.leaf (v * pgsize) = none) :
      ∀ va, vpn va < 2 ^ 27 → pt.leaf va = if vpn va = v then none else pt.leaf va := by
    intro va _
    split
    · have hsame : vpn va = vpn (v * pgsize) := by
        rw [vpn_page]
        assumption
      rw [Table.leaf_congr hsame, hnone]
    · rfl
  simp only [Ram.uvmunmap, Nat.mul_mod_left, ne_eq, not_true, if_false, Ram.unmapLoop, Table.walk_eq hhigh, ok_bind]
  cases hnode : pt.node (v * pgsize) with
  | none => exact ⟨rfl, fun _ => rfl, hkept (by simp [Table.leaf, hnode])⟩
  | some n0 =>
    have hhere : (pt.node (v * pgsize)).isSome := by simp [hnode]
    have hv : vpn (v * pgsize) < 2 ^ 27 := by
      simp only [vpn, maxva, pgsize] at *
      omega
    cases hl : n0.pte (px 0 (v * pgsize)) with
    | none =>
      simp only [Option.map_some, hl]
      exact ⟨rfl, fun _ => rfl, hkept (by simp [Table.leaf, hnode, hl])⟩
    | some l =>
      simp only [Option.map_some, hl, Bool.false_eq_true, if_false]
      refine ⟨rfl, fun w => Table.weight_setLeaf_high w hhere (by rw [vpn_page]; exact hlow) hv none, ?_⟩
      intro va hva
      rw [Table.leaf_setLeaf hhere hv hva, vpn_page]

abbrev pages (sz : Nat) : Nat := (sz + (pgsize - 1)) / pgsize

theorem pgroundup_eq (h : sz ≤ trapframeVa) : pgroundup sz = pages sz * pgsize := by
  have hsmall : sz + (pgsize - 1) < 2 ^ 64 := by
    simp only [trapframeVa, trampolineVa, maxva, pgsize] at *
    omega
  simp only [pgroundup, Nat.mod_eq_of_lt hsmall]

theorem pages_le (h : sz ≤ trapframeVa) : pages sz ≤ trapframeVpn := by
  simp only [pages, trapframeVpn, trapframeVa, trampolineVa, maxva, pgsize] at *
  omega

theorem pages_page (v : Nat) : pages (v * pgsize) = v := by
  simp only [pages, pgsize]
  omega

theorem intPages_eq (h : n < 2 ^ 31) : Ram.intPages n = n := by
  have hmsb : (BitVec.ofNat 32 n).msb = false := by
    simp only [BitVec.msb_eq_decide, BitVec.toNat_ofNat, decide_eq_false_iff_not]
    omega
  simp only [Ram.intPages, BitVec.signExtend_eq_setWidth_of_msb_false hmsb, BitVec.toNat_setWidth,
    BitVec.toNat_ofNat]
  omega

/-- `uvmdealloc` of a process gives the pages between the two sizes back. -/
theorem uvmdealloc_runs {m : Ram} {pt : Table} (hs : Sound m pt) (hold : oldsz ≤ trapframeVa) (newsz : Nat) :
    Runs (m.uvmdealloc pt oldsz newsz) fun r =>
      r.1 = min oldsz newsz ∧ Unmapped m pt (pages newsz) (pages oldsz) r.2.1 r.2.2 := by
  simp only [Ram.uvmdealloc]
  by_cases hle : oldsz ≤ newsz
  · have hpages : pages oldsz ≤ pages newsz := by
      apply Nat.div_le_div_right
      omega
    rw [if_pos hle]
    exact ⟨(Nat.min_eq_left hle).symm, Unmapped.refl m pt hpages⟩
  · have hmin : newsz = min oldsz newsz := by omega
    have hnew : newsz ≤ trapframeVa := by omega
    rw [if_neg hle, pgroundup_eq hold, pgroundup_eq hnew]
    by_cases hlt : pages newsz * pgsize < pages oldsz * pgsize
    · have hdiff : (pages oldsz * pgsize - pages newsz * pgsize) / pgsize = pages oldsz - pages newsz := by
        rw [← Nat.sub_mul]
        exact Nat.mul_div_cancel _ (by decide)
      have hbound := pages_le hold
      have hsmall : pages oldsz - pages newsz < 2 ^ 31 := by
        have htop : trapframeVpn < 2 ^ 31 := by decide
        omega
      have hpages : pages newsz ≤ pages oldsz := Nat.le_of_lt (Nat.lt_of_mul_lt_mul_right hlt)
      have hsum : pages newsz + (pages oldsz - pages newsz) = pages oldsz := by omega
      rw [if_pos hlt, hdiff, intPages_eq hsmall]
      refine (uvmunmap_runs (n := pages oldsz - pages newsz) hs (by omega)).bind ?_
      rintro ⟨m', pt'⟩ hun
      rw [hsum] at hun
      exact ⟨hmin, hun⟩
    · rw [if_neg hlt]
      refine ⟨hmin, Unmapped.refl m pt ?_⟩
      exact Nat.le_of_mul_le_mul_right (Nat.not_lt.mp hlt) (by decide)

/-- The free list of sound memory has no frame twice, and none of the table's. -/
theorem Sound.not_mem_free (h : Sound m pt) (hfree : m.free = f :: fs) : f ∉ fs := by
  intro hmem
  have hle := h.single f
  have hsub : 2 ≤ m.weight (at_ f) := by
    have hin : at_ f f ≤ (fs.map (at_ f)).sum := List.le_sum_of_mem (List.mem_map_of_mem hmem)
    simp only [Ram.weight, hfree, List.map_cons, List.sum_cons]
    simp only [at_, if_true] at *
    omega
  simp only [held] at hle
  omega

theorem Sound.free_inside (h : Sound m pt) (hfree : m.free = f :: fs) : stray m.first f = 0 := by
  have hin := h.inside
  simp only [held, Ram.weight, hfree, List.map_cons, List.sum_cons] at hin
  omega

structure Filled (m : Ram) (pt : Table) (lo hi : Nat) (perm : Perm) (m' : Ram) (pt' : Table) : Prop where
  took : Took m m'
  held : ∀ w, held w m' pt' = held w m pt
  new : ∀ va, vpn va < 2 ^ 27 → lo ≤ vpn va → vpn va < hi →
    ∃ l, pt'.leaf va = some l ∧ l.perm = perm ∧ l.frame ∈ m.free ∧ l.frame ∉ m'.free ∧
      m'.data l.frame = fun _ => 0
  leaf : ∀ va, vpn va < 2 ^ 27 → ¬(lo ≤ vpn va ∧ vpn va < hi) → pt'.leaf va = pt.leaf va
  count : hi + m'.free.length ≤ lo + m.free.length
  cost : m.free.length + 3 * lo ≤ m'.free.length + 3 * hi

structure Restored (m : Ram) (pt : Table) (m' : Ram) (pt' : Table) : Prop where
  first : m'.first = m.first
  trampoline : m'.trampoline = m.trampoline
  leaf : ∀ va, vpn va < 2 ^ 27 → pt'.leaf va = pt.leaf va
  held : ∀ w, held w m' pt' = held w m pt
  data : ∀ f, f ∉ m.free → m'.data f = m.data f

theorem Filled.refl (m : Ram) (pt : Table) (lo : Nat) (perm : Perm) : Filled m pt lo lo perm m pt := by
  refine ⟨Took.refl m, fun _ => rfl, ?_, fun _ _ _ => rfl, Nat.le_refl _, Nat.le_refl _⟩
  intro va _ hlo hhi
  omega

/-- A zeroed page from the free list, mapped at the end of the range. -/
theorem Filled.snoc (h : Filled m pt lo v perm m1 pt1) (hs : Sound m1 pt1) (hlo : lo ≤ v)
    (hlow : v < trapframeVpn) (hz : m1.zalloc = some (mem, m2))
    (hm : Mapped m2 pt1 (v * pgsize) ⟨mem, perm⟩ true m3 pt3) : Filled m pt lo (v + 1) perm m3 pt3 := by
  obtain ⟨hfree, htook, hzero⟩ := Ram.zalloc_some hz
  have hmem : mem ∉ m2.free := hs.not_mem_free hfree
  have hgone (f) (hf : f ∉ m1.free) : f ∉ m3.free := fun hin => hf ((htook.trans hm.took).mem hin)
  refine ⟨h.took.trans (htook.trans hm.took), ?_, ?_, ?_, ?_, ?_⟩
  · intro w
    have hlow' := hm.low (by rw [vpn_page]; exact hlow) w
    have hmoved := Ram.weight_of_free w hfree
    have hbefore := h.held w
    simp only [Paging.held, if_true] at *
    omega
  · intro va hva hge hlt
    rw [hm.leaf va hva, vpn_page]
    by_cases he : vpn va = v
    · refine ⟨⟨mem, perm⟩, by simp [he], rfl, ?_, ?_, ?_⟩
      · exact h.took.mem (by rw [hfree]; exact List.mem_cons_self)
      · exact fun hin => hmem (hm.took.mem hin)
      · exact (hm.took.data mem hmem).trans hzero
    · obtain ⟨l, hl, hperm, hwas, hout, hdata⟩ := h.new va hva hge (by omega)
      refine ⟨l, by simp [he, hl], hperm, hwas, hgone _ hout, ?_⟩
      rw [(htook.trans hm.took).data _ hout, hdata]
  · intro va hva hout
    rw [hm.leaf va hva, vpn_page, if_neg (by omega)]
    exact h.leaf va hva (by omega)
  · have hle := hm.took.length_le
    have hcount := h.count
    rw [hfree, List.length_cons] at hcount
    omega
  · have hmapped := hm.cost
    have hcost := h.cost
    rw [hfree, List.length_cons] at hcost
    omega

theorem Restored.refl (m : Ram) (pt : Table) : Restored m pt m pt :=
  ⟨rfl, rfl, fun _ _ => rfl, fun _ => rfl, fun _ _ => rfl⟩

theorem Filled.undo (h : Filled m pt lo v perm m1 pt1) (hfresh : ∀ va, vpn va < 2 ^ 27 → lo ≤ vpn va →
    vpn va < trapframeVpn → pt.leaf va = none) (hv : v ≤ trapframeVpn) (hr : Restored m1 pt1 m2 pt2)
    (hu : Unmapped m2 pt2 lo v m3 pt3) : Restored m pt m3 pt3 := by
  refine ⟨?_, ?_, ?_, ?_, ?_⟩
  · rw [hu.gave.first, hr.first, h.took.first]
  · rw [hu.gave.trampoline, hr.trampoline, h.took.trampoline]
  · intro va hva
    rw [hu.leaf va hva]
    split
    · exact (hfresh va hva (by omega) (by omega)).symm
    · rw [hr.leaf va hva]
      exact h.leaf va hva (by omega)
  · intro w
    rw [hu.held, hr.held, h.held]
  · intro f hf
    rw [hu.data f, hr.data f fun hin => hf (h.took.mem hin), h.took.data f hf]
    intro va l hva hge hlt hl
    obtain ⟨l', hl', -, hwas, -⟩ := h.new va hva hge hlt
    rw [hr.leaf va hva, hl'] at hl
    cases hl
    rintro rfl
    exact hf hwas

/-- A page from the free list that could not be mapped goes back to it. -/
theorem Mapped.undo (hm : Mapped m1 pt va ⟨mem, perm⟩ false m2 pt2) (hlow : vpn va < trapframeVpn)
    (hfree : m.free = mem :: m1.free) (htook : Took m m1) (hs : Sound m pt) :
    Runs (m2.kfree mem) fun m3 => Restored m pt m3 pt2 := by
  have hin : stray m2.first mem = 0 := by
    rw [hm.took.first, htook.first]
    exact hs.free_inside hfree
  refine (Ram.kfree_runs hin).imp ?_
  rintro m3 ⟨hgave, hweight, hdata⟩
  refine ⟨?_, ?_, ?_, ?_, ?_⟩
  · rw [hgave.first, hm.took.first, htook.first]
  · rw [hgave.trampoline, hm.took.trampoline, htook.trampoline]
  · intro va' hva'
    simpa using hm.leaf va' hva'
  · intro w
    have hlow := hm.low hlow w
    have hmoved := Ram.weight_of_free w hfree
    have hback := hweight w
    simp only [held, Bool.false_eq_true, if_false] at *
    omega
  · intro f hf
    have hne := Ram.ne_of_not_mem_free hfree hf
    have hf1 : f ∉ m1.free := fun hin => hf (by rw [hfree]; exact List.mem_cons_of_mem _ hin)
    rw [hdata f hne, hm.took.data f hf1, htook.data f hf]

/-- The loop of `uvmalloc` maps every page up to the new size, or takes all of them back. -/
theorem allocLoop_runs {m0 : Ram} {pt0 : Table} (hs : Sound m0 pt0)
    (hfresh : ∀ va, vpn va < 2 ^ 27 → lo ≤ vpn va → vpn va < trapframeVpn → pt0.leaf va = none)
    (hbound : pages newsz ≤ trapframeVpn ∨ lo + m0.free.length ≤ trapframeVpn)
    (hf : Filled m0 pt0 lo v perm m pt) (hge : lo ≤ v) (hle : v ≤ pages newsz)
    (hrounds : pages newsz ≤ v + n) :
    Runs (Ram.allocLoop (lo * pgsize) newsz perm n m pt (v * pgsize)) fun r =>
      (r.1 = newsz ∧ Filled m0 pt0 lo (pages newsz) perm r.2.1 r.2.2) ∨
        (r.1 = 0 ∧ Restored m0 pt0 r.2.1 r.2.2 ∧ m0.free.length + 3 * lo < 3 * pages newsz) := by
  induction n generalizing v m pt with
  | zero =>
    have hv : v = pages newsz := by omega
    exact .inl ⟨rfl, hv ▸ hf⟩
  | succ n ih =>
    have hsound : Sound m pt := hs.congr hf.took.first hf.held
    have hcount := hf.count
    have hcost := hf.cost
    have hundo {m2 : Ram} {pt2 : Table} (hv : v ≤ trapframeVpn) (hr : Restored m pt m2 pt2) :
        Runs (m2.uvmdealloc pt2 (v * pgsize) (lo * pgsize)) fun r => Restored m0 pt0 r.2.1 r.2.2 := by
      have hold : v * pgsize ≤ trapframeVa := by
        simp only [trapframeVpn, trapframeVa, trampolineVa, maxva, pgsize] at *
        omega
      refine (uvmdealloc_runs (hsound.congr hr.first hr.held) hold _).imp ?_
      rintro r ⟨-, hu⟩
      rw [pages_page, pages_page] at hu
      exact hf.undo hfresh hv hr hu
    simp only [Ram.allocLoop, next_page]
    by_cases hdone : newsz ≤ v * pgsize
    · have hv : v = pages newsz := by
        simp only [pages, pgsize] at *
        omega
      rw [if_pos hdone]
      exact .inl ⟨rfl, hv ▸ hf⟩
    · have hlt : v < pages newsz := by
        simp only [pages, pgsize] at *
        omega
      rw [if_neg hdone]
      split
      · rename_i hnone
        have hfree := Ram.zalloc_none hnone
        have hv : v ≤ trapframeVpn := by
          rw [hfree, List.length_nil] at hcount
          omega
        refine (hundo hv (Restored.refl m pt)).bind ?_
        rintro ⟨_, m', pt'⟩ hr
        rw [hfree, List.length_nil] at hcost
        exact .inr ⟨rfl, hr, by omega⟩
      · rename_i mem m1 hz
        obtain ⟨hfree, htook, -⟩ := Ram.zalloc_some hz
        have hv : v < trapframeVpn := by
          rw [hfree, List.length_cons] at hcount
          omega
        have hva : v * pgsize < maxva := by
          simp only [trapframeVpn, trapframeVa, trampolineVa, maxva, pgsize] at *
          omega
        have hv' : vpn (v * pgsize) < 2 ^ 27 := by
          rw [vpn_page]
          exact Nat.lt_trans hv (by decide)
        have hunmapped : pt.leaf (v * pgsize) = none := by
          rw [hf.leaf _ hv' (by rw [vpn_page]; omega)]
          exact hfresh _ hv' (by rw [vpn_page]; exact hge) (by rw [vpn_page]; exact hv)
        refine (mapPage_runs hva (Nat.mul_mod_left ..) hunmapped mem perm).bind ?_
        rintro ⟨mapped, m2, pt2⟩ hm
        cases mapped with
        | true => exact ih (hf.snoc hsound hge hv hz hm) (by omega) (by omega) (by omega)
        | false =>
          refine (hm.undo (by rw [vpn_page]; exact hv) hfree htook hsound).bind ?_
          intro m3 hr
          refine (hundo (Nat.le_of_lt hv) hr).bind ?_
          rintro ⟨_, m', pt'⟩ hr
          have hfew := hm.few
          rw [hfree, List.length_cons] at hcost
          exact .inr ⟨rfl, hr, by omega⟩

/-- `uvmalloc` of pages that are not mapped, with a size or a free list below TRAPFRAME. -/
theorem uvmalloc_runs {m : Ram} {pt : Table} (hs : Sound m pt) (hold : oldsz ≤ trapframeVa)
    (hfresh : ∀ va, vpn va < 2 ^ 27 → pages oldsz ≤ vpn va → vpn va < trapframeVpn → pt.leaf va = none)
    (hbound : pages newsz ≤ trapframeVpn ∨ pages oldsz + m.free.length ≤ trapframeVpn)
    (hle : oldsz ≤ newsz) (w x : Bool) :
    Runs (m.uvmalloc pt oldsz newsz w x) fun r =>
      (r.1 = newsz ∧ Filled m pt (pages oldsz) (pages newsz) ⟨true, w, x, true⟩ r.2.1 r.2.2) ∨
        (r.1 = 0 ∧ Restored m pt r.2.1 r.2.2 ∧ m.free.length + 3 * pages oldsz < 3 * pages newsz) := by
  have hpages : pages oldsz ≤ pages newsz := by
    apply Nat.div_le_div_right
    omega
  simp only [Ram.uvmalloc, Nat.not_lt.mpr hle, if_false, pgroundup_eq hold]
  apply allocLoop_runs hs hfresh hbound (Filled.refl m pt _ _) (Nat.le_refl _) hpages
  simp only [pages, pgsize] at *
  omega

end Xv6Filter.Paging
