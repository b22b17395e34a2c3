import Xv6Filter.Proofs.Sv39Words
import Xv6Filter.Lib.Radix

namespace Xv6Filter.Sv39
open Lib Paging

def child (m : Ram) (f : Frame) (i : Fin 512) : Option Frame :=
  if Valid (entry m f i) then some (frameOf (pte2pa (entry m f i))) else none

def node (m : Ram) (root : Frame) (q : List (Fin 512)) : Option Frame := Radix.node (child m) root q

structure Tree (m : Ram) (root : Frame) : Prop where
  root_lt : root < maxFrame
  distinct : Radix.Distinct (child m) root 2

structure WellFormed (m : Ram) (root : Frame) : Prop extends Tree m root where
  free_lt : ∀ f ∈ m.free, f < maxFrame
  free_nodup : m.free.Nodup
  free_apart : ∀ q f, q.length ≤ 2 → node m root q = some f → f ∉ m.free

def leafAt (m : Ram) (root : Frame) (i j k : Fin 512) : Option U64 :=
  (node m root [i, j]).bind fun f => if Valid (entry m f k) then some (entry m f k) else none

theorem child_lt (h : child m f i = some g) : g < maxFrame := by
  unfold child at h
  split at h
  · cases h
    exact frameOf_lt _
  · cases h

theorem child_congr {i : Fin 512} (h : entry m' f i = entry m f i) : child m' f i = child m f i := by
  rw [child, child, h]

theorem node_snoc (m : Ram) (root : Frame) (q : List (Fin 512)) (i : Fin 512) :
    node m root (q ++ [i]) = (node m root q).bind fun f => child m f i := Radix.node_snoc q i

theorem Tree.node_lt (h : Tree m root) (hn : node m root q = some f) : f < maxFrame := by
  induction q using List.reverseRecOn with
  | nil =>
    cases hn
    exact h.root_lt
  | append_singleton q i _ =>
    rw [node_snoc] at hn
    obtain ⟨g, -, hg⟩ := Option.bind_eq_some_iff.mp hn
    exact child_lt hg

theorem node_congr (he : ∀ q f i, q.length < 2 → node m root q = some f → entry m' f i = entry m f i)
    (q : List (Fin 512)) (hq : q.length ≤ 2) : node m' root q = node m root q := by
  refine Radix.node_congr ?_ q hq
  intro q f hq hf i
  exact child_congr (he q f i hq hf)

theorem Tree.congr (h : Tree m root) (hn : ∀ q, q.length ≤ 2 → node m' root q = node m root q) : Tree m' root :=
  ⟨h.root_lt, h.distinct.congr hn⟩

theorem WellFormed.congr (h : WellFormed m root) (hn : ∀ q, q.length ≤ 2 → node m' root q = node m root q)
    (hfree : m'.free = m.free) : WellFormed m' root := by
  refine ⟨h.toTree.congr hn, ?_, ?_, ?_⟩
  · rw [hfree]
    exact h.free_lt
  · rw [hfree]
    exact h.free_nodup
  · intro q f hq hf
    rw [hfree]
    exact h.free_apart q f hq (hn q hq ▸ hf)

theorem kalloc_some {m m1 : Ram} (h : m.kalloc = some (g, m1)) : ∃ rest, m.free = g :: rest ∧ m1 = { m with free := rest }.fill g 5 := by
  unfold Ram.kalloc at h
  split at h
  · cases h
  · rename_i f free hfree
    cases h
    exact ⟨free, hfree, rfl⟩

def linked (m : Ram) (f : Frame) (i : Fin 512) (g : Frame) : Ram :=
  setEntry (m.fill g 0) f i (pa2pte (pageAddr g) ||| pteV)

structure Entries (m : Ram) (f : Frame) (i : Fin 512) (g : Frame) (m' : Ram) : Prop where
  new : ∀ k : Nat, entry m' g k = 0
  pointer : entry m' f i = pa2pte (pageAddr g) ||| pteV
  others : ∀ x (k : Nat), x ≠ g → x ≠ f ∨ k ≠ i → entry m' x k = entry m x k

theorem linked_entries {m m1 : Ram} (hk : m.kalloc = some (g, m1)) (hne : f ≠ g) (i : Fin 512) : Entries m f i g (linked m1 f i g) := by
  obtain ⟨rest, -, rfl⟩ := kalloc_some hk
  constructor
  · intro k
    rw [linked, entry_setEntry_ne _ _ (.inl hne.symm), entry_fill_zero]
  · exact entry_setEntry_same _ _ _ _
  · intro x k hg hx
    rw [linked, entry_setEntry_ne _ _ hx, entry_fill_ne _ _ hg, entry_fill_ne _ _ hg]
    rfl

theorem child_zero {i : Fin 512} (h : entry m f i = 0) : child m f i = none := by
  rw [child, h, if_neg not_valid_zero]

structure Grown (m : Ram) (root : Frame) (q : List (Fin 512)) (g : Frame) (m' : Ram) : Prop where
  wellFormed : WellFormed m' root
  node : ∀ q', q'.length ≤ 2 → node m' root q' = if q' = q then some g else node m root q'
  leafAt : ∀ i j k, leafAt m' root i j k = leafAt m root i j k

theorem WellFormed.link {m m1 : Ram} (h : WellFormed m root) (hp : p.length ≤ 1) (hn : node m root p = some f)
    (hc : child m f i = none) (hk : m.kalloc = some (g, m1)) : Grown m root (p ++ [i]) g (linked m1 f i g) := by
  obtain ⟨rest, hfree, hm1⟩ := kalloc_some hk
  have hg : g ∈ m.free := hfree ▸ List.mem_cons_self
  have hfresh : ∀ q, q.length ≤ 2 → node m root q ≠ some g := fun q hq hq' => h.free_apart q g hq hq' hg
  have hne : f ≠ g := fun he => hfresh p (by omega) (he ▸ hn)
  have he := linked_entries hk hne i
  have hnone : node m root (p ++ [i]) = none := by
    rw [node_snoc, hn]
    exact hc
  have hother : ∀ q x (k : Fin 512), q.length ≤ 2 → node m root q = some x → q ++ [k] ≠ p ++ [i] →
      entry (linked m1 f i g) x k = entry m x k := by
    intro q x k hq hx hqk
    refine he.others x k (fun hxg => hfresh q hq (hxg ▸ hx)) ?_
    by_contra hboth
    obtain ⟨rfl, hki⟩ := not_or.mp hboth |>.imp not_not.mp not_not.mp
    have hqp := h.distinct q p hq (by omega) x hx hn
    rw [hqp, Fin.ext hki] at hqk
    exact hqk rfl
  have hlink : Radix.Link (child m) (child (linked m1 f i g)) root 2 p i g := by
    refine ⟨hnone, hfresh, ⟨f, hn, ?_⟩, ?_, fun j => child_zero (he.new j)⟩
    · rw [child, he.pointer, if_pos (by simpa using valid_pte (pageAddr g) 0), frameOf_pte (h.free_lt g hg) (by decide)]
    · intro q x k hq hx hqk
      exact child_congr (hother q x k (Nat.le_of_lt hq) hx hqk)
  have hnode : ∀ q, q.length ≤ 2 → node (linked m1 f i g) root q = if q = p ++ [i] then some g else node m root q :=
    fun q hq => Radix.node_link hlink q hq
  have hrest : (linked m1 f i g).free = rest := by
    rw [hm1]
    rfl
  have hnodup := hfree ▸ h.free_nodup
  refine ⟨⟨⟨h.root_lt, h.distinct.link hlink⟩, ?_, ?_, ?_⟩, hnode, ?_⟩
  · rw [hrest]
    exact fun x hx => h.free_lt x (hfree ▸ List.mem_cons_of_mem _ hx)
  · rw [hrest]
    exact (List.nodup_cons.mp hnodup).2
  · intro q x hq hx
    rw [hrest]
    rw [hnode q hq] at hx
    split at hx
    · cases hx
      exact (List.nodup_cons.mp hnodup).1
    · exact fun hmem => h.free_apart q x hq hx (hfree ▸ List.mem_cons_of_mem _ hmem)
  · intro a b c
    rw [Sv39.leafAt, Sv39.leafAt, hnode [a, b] (Nat.le_refl 2)]
    by_cases hab : [a, b] = p ++ [i]
    · rw [if_pos hab, hab, hnone]
      simp only [Option.bind_some, he.new, not_valid_zero, if_false]
      rfl
    · rw [if_neg hab]
      cases hx : node m root [a, b] with
      | none => simp only [Option.bind_none]
      | some x =>
        have hlen : [a, b] ++ [c] ≠ p ++ [i] := by
          intro h3
          have := congrArg List.length h3
          simp at this
          omega
        simp only [Option.bind_some, hother [a, b] x c (Nat.le_refl 2) hx hlen]

theorem load_slot (m : Ram) (hf : f < maxFrame) (level : Nat) (va : U64) :
    load m (slot (pageAddr f) level va) = entry m f (Paging.px level va.toNat) := by
  rw [slot_eq, load_entryAddr m hf (Fin.isLt _)]

theorem store_slot (m : Ram) (hf : f < maxFrame) (level : Nat) (va v : U64) :
    store m (slot (pageAddr f) level va) v = setEntry m f (Paging.px level va.toNat) v := by
  rw [slot_eq, store_entryAddr m hf (Fin.isLt _)]

theorem walkLoop_down (hf : f < maxFrame) (hc : child m f (Paging.px (level + 1) va.toNat) = some g) (alloc : Bool) :
    walkLoop alloc va (level + 1) m (pageAddr f) = walkLoop alloc va level m (pageAddr g) := by
  unfold child at hc
  split at hc
  · rename_i hv
    cases hc
    simp only [walkLoop, load_slot m hf]
    rw [if_pos hv, pageAddr_pte2pa]
  · cases hc

theorem walkLoop_stop (hf : f < maxFrame) (hc : child m f (Paging.px (level + 1) va.toNat) = none) :
    walkLoop false va (level + 1) m (pageAddr f) = (none, m) := by
  unfold child at hc
  split at hc
  · cases hc
  · rename_i hv
    simp only [walkLoop, load_slot m hf]
    rw [if_neg hv]
    rfl

theorem walkLoop_new (hf : f < maxFrame) (hc : child m f (Paging.px (level + 1) va.toNat) = none) :
    walkLoop true va (level + 1) m (pageAddr f) =
      match m.kalloc with
      | none => (none, m)
      | some (g, m1) => walkLoop true va level (linked m1 f (Paging.px (level + 1) va.toNat) g) (pageAddr g) := by
  unfold child at hc
  split at hc
  · cases hc
  · rename_i hv
    simp only [walkLoop, load_slot m hf]
    rw [if_neg hv]
    simp only [Bool.true_eq_false, if_false, store_slot _ hf]
    rfl

def leafPage (m : Ram) (root : Frame) (va : U64) : Option Frame :=
  node m root [Paging.px 2 va.toNat, Paging.px 1 va.toNat]

theorem walk_eq (h : Tree m root) (hva : va.toNat < maxva) :
    walk m (pageAddr root) va false =
      .ok ((leafPage m root va).map fun f => entryAddr f (Paging.px 0 va.toNat), m) := by
  rw [walk, if_neg (Nat.not_le.mpr hva)]
  congr 1
  cases h2 : child m root (Paging.px 2 va.toNat) with
  | none =>
    rw [walkLoop_stop h.root_lt h2]
    simp [leafPage, node, Radix.node, h2]
  | some f =>
    have hf := child_lt h2
    rw [walkLoop_down h.root_lt h2]
    cases h1 : child m f (Paging.px 1 va.toNat) with
    | none =>
      rw [walkLoop_stop hf h1]
      simp [leafPage, node, Radix.node, h2, h1]
    | some g =>
      rw [walkLoop_down hf h1, walkLoop, slot_eq]
      simp [leafPage, node, Radix.node, h2, h1]

/-- What `walk` with allocation leaves: a table with the same leaves, and on success the page for the
leaf PTE. -/
structure Walked (m : Ram) (root : Frame) (va : U64) (r : Option U64) (m' : Ram) : Prop where
  wellFormed : WellFormed m' root
  leafAt : ∀ i j k, leafAt m' root i j k = leafAt m root i j k
  found : ∀ pte, r = some pte → ∃ f, leafPage m' root va = some f ∧ pte = entryAddr f (Paging.px 0 va.toNat)

theorem Walked.trans (h : Walked m1 root va r m') (hl : ∀ i j k, Sv39.leafAt m1 root i j k = Sv39.leafAt m root i j k) :
    Walked m root va r m' :=
  ⟨h.wellFormed, fun i j k => (h.leafAt i j k).trans (hl i j k), h.found⟩

theorem walkLoop_one (h : WellFormed m root) (hf : node m root [Paging.px 2 va.toNat] = some f) :
    Walked m root va (walkLoop true va 1 m (pageAddr f)).1 (walkLoop true va 1 m (pageAddr f)).2 := by
  have hlt := h.node_lt hf
  cases h1 : child m f (Paging.px 1 va.toNat) with
  | some g =>
    rw [walkLoop_down hlt h1, walkLoop, slot_eq]
    refine ⟨h, fun _ _ _ => rfl, ?_⟩
    rintro pte ⟨⟩
    refine ⟨g, ?_, rfl⟩
    have := node_snoc m root [Paging.px 2 va.toNat] (Paging.px 1 va.toNat)
    rw [hf] at this
    exact this.trans h1
  | none =>
    rw [walkLoop_new hlt h1]
    cases hk : m.kalloc with
    | none => exact ⟨h, fun _ _ _ => rfl, by simp⟩
    | some r =>
      obtain ⟨g, m1⟩ := r
      have hg := h.link (p := [_]) (Nat.le_refl 1) hf h1 hk
      dsimp only
      rw [walkLoop, slot_eq]
      refine ⟨hg.wellFormed, hg.leafAt, ?_⟩
      rintro pte ⟨⟩
      refine ⟨g, ?_, rfl⟩
      exact (hg.node [_, _] (Nat.le_refl 2)).trans (if_pos rfl)

theorem walk_alloc (h : WellFormed m root) (hva : va.toNat < maxva) :
    ∃ r m', walk m (pageAddr root) va true = .ok (r, m') ∧ Walked m root va r m' := by
  rw [walk, if_neg (Nat.not_le.mpr hva)]
  refine ⟨(walkLoop true va 2 m (pageAddr root)).1, (walkLoop true va 2 m (pageAddr root)).2, rfl, ?_⟩
  have hroot : node m root [] = some root := rfl
  cases h2 : child m root (Paging.px 2 va.toNat) with
  | some f =>
    rw [walkLoop_down h.root_lt h2]
    refine walkLoop_one h ?_
    have := node_snoc m root [] (Paging.px 2 va.toNat)
    rw [hroot] at this
    exact this.trans h2
  | none =>
    rw [walkLoop_new h.root_lt h2]
    cases hk : m.kalloc with
    | none => exact ⟨h, fun _ _ _ => rfl, by simp⟩
    | some r =>
      obtain ⟨g, m1⟩ := r
      have hg := h.link (p := []) (Nat.zero_le 1) hroot h2 hk
      exact (walkLoop_one hg.wellFormed ((hg.node [_] (Nat.le_succ 1)).trans (if_pos rfl))).trans hg.leafAt

end Xv6Filter.Sv39
