import Xv6Filter.Proofs.Sv39Table

namespace Xv6Filter.Sv39
open Lib Paging

def translation (m : Ram) (pagetable va : U64) : Option U64 :=
  match walk m pagetable va false with
  | .ok (some pte, m) => if Valid (load m pte) then some (load m pte) else none
  | _ => none

def leaf (m : Ram) (root : Frame) (va : Nat) : Option U64 :=
  leafAt m root (Paging.px 2 va) (Paging.px 1 va) (Paging.px 0 va)

theorem translation_eq (h : Tree m root) (hva : va.toNat < maxva) :
    translation m (pageAddr root) va = leaf m root va.toNat := by
  unfold translation leaf leafAt
  rw [walk_eq h hva, leafPage]
  cases hf : node m root [Paging.px 2 va.toNat, Paging.px 1 va.toNat] with
  | none => simp only [Option.map_none, Option.bind_none]
  | some f => simp only [Option.map_some, Option.bind_some, load_entryAddr m (h.node_lt hf) (Fin.isLt _)]

def userAddr (leaf : Option U64) : U64 :=
  match leaf with
  | none => 0
  | some pte => if pte &&& pteU = 0 then 0 else pte2pa pte

theorem walkaddr_eq (h : Tree m root) (hva : va.toNat < maxva) :
    walkaddr m (pageAddr root) va = .ok (userAddr (leaf m root va.toNat)) := by
  rw [← translation_eq h hva, translation, walkaddr, if_neg (Nat.not_le.mpr hva), walk_eq h hva]
  cases leafPage m root va with
  | none => rfl
  | some f =>
    dsimp only [Option.map_some]
    by_cases hv : load m (entryAddr f (Paging.px 0 va.toNat)) &&& pteV = 0
    · rw [if_pos hv, if_neg (not_not.mpr hv)]
      rfl
    · rw [if_neg hv, if_pos hv]
      simp only [userAddr]
      split <;> rfl

theorem Tree.setLeaf (h : Tree m root) (hf : node m root [a, b] = some f) (c : Fin 512) (w : U64) :
    (∀ q, q.length ≤ 2 → node (setEntry m f c w) root q = node m root q) ∧
      ∀ i j k, leafAt (setEntry m f c w) root i j k =
        if i = a ∧ j = b ∧ k = c then (if Valid w then some w else none) else leafAt m root i j k := by
  have hn : ∀ q, q.length ≤ 2 → node (setEntry m f c w) root q = node m root q := by
    refine node_congr fun q x i hq hx => entry_setEntry_ne m w (.inl ?_)
    rintro rfl
    have := h.distinct q [a, b] (by omega) (Nat.le_refl 2) x hx hf
    rw [this] at hq
    exact absurd hq (Nat.lt_irrefl 2)
  refine ⟨hn, fun i j k => ?_⟩
  rw [leafAt, hn [i, j] (Nat.le_refl 2)]
  by_cases hij : i = a ∧ j = b
  · obtain ⟨rfl, rfl⟩ := hij
    rw [hf, Option.bind_some]
    by_cases hk : k = c
    · rw [hk, entry_setEntry_same]
      exact (if_pos ⟨rfl, rfl, rfl⟩).symm
    · have hk' : k.val ≠ c.val := fun he => hk (Fin.ext he)
      refine Eq.trans ?_ (if_neg fun he => hk he.2.2).symm
      rw [entry_setEntry_ne m w (.inr hk'), leafAt, hf, Option.bind_some]
  · rw [if_neg fun he => hij ⟨he.1, he.2.1⟩, leafAt]
    cases hx : node m root [i, j] with
    | none => simp only [Option.bind_none]
    | some x =>
      have hne : x ≠ f := by
        rintro rfl
        have := h.distinct [i, j] [a, b] (Nat.le_refl 2) (Nat.le_refl 2) x hx hf
        simp only [List.cons.injEq, and_true] at this
        exact hij this
      simp only [Option.bind_some, entry_setEntry_ne m w (.inl hne)]

theorem vpn_lt (h : va < maxva) : vpn va < 2 ^ 27 := by
  simp only [vpn, maxva, pgsize] at h ⊢
  omega

theorem leaf_congr (h : vpn va = vpn va') : leaf m root va = leaf m root va' := by
  rw [leaf, leaf, px_congr 2 h, px_congr 1 h, px_congr 0 h]

/-- A store through the pointer that `walk` returned for `va` changes the map at one page. -/
theorem Tree.store (h : Tree m root) (hf : leafPage m root va = some f) (hva : va.toNat < maxva) (w : U64) :
    (∀ q, q.length ≤ 2 → node (store m (entryAddr f (Paging.px 0 va.toNat)) w) root q = node m root q) ∧
      ∀ va' < maxva, leaf (store m (entryAddr f (Paging.px 0 va.toNat)) w) root va' =
        if vpn va' = vpn va.toNat then (if Valid w then some w else none) else leaf m root va' := by
  obtain ⟨hn, hl⟩ := h.setLeaf hf (Paging.px 0 va.toNat) w
  rw [store_entryAddr m (h.node_lt hf) (Fin.isLt _)]
  refine ⟨hn, fun va' hva' => ?_⟩
  rw [leaf, hl]
  by_cases hv : vpn va' = vpn va.toNat
  · rw [if_pos hv, if_pos ⟨px_congr 2 hv, px_congr 1 hv, px_congr 0 hv⟩]
  · rw [if_neg hv, if_neg fun he => hv (vpn_eq_of_px (vpn_lt hva') (vpn_lt hva) he.1 he.2.1 he.2.2)]
    rfl

def pteFor (pa perm : U64) : U64 := pa2pte pa ||| perm ||| pteV

theorem mapLoop_eq (pagetable last perm : U64) (m : Ram) (a pa : U64) :
    mapLoop pagetable last perm m a pa =
      match walk m pagetable a true with
      | .error why => .error why
      | .ok (none, m) => .ok (false, m)
      | .ok (some pte, m) =>
        if Valid (load m pte) then .error .remap
        else if a = last then .ok (true, store m pte (pteFor pa perm))
        else mapLoop pagetable last perm (store m pte (pteFor pa perm)) (a + pgBytes) (pa + pgBytes) := by
  rw [mapLoop]
  split
  · rename_i h
    rw [h]
  · rename_i h
    rw [h]
  · rename_i h
    rw [h]
    rfl

theorem mapLoop_first (h : WellFormed m root) (hrun : mapLoop (pageAddr root) last perm m a pa = .ok (true, m')) :
    ∃ m1, a.toNat < maxva ∧ WellFormed m1 root ∧
      (∀ va < maxva, leaf m1 root va = if vpn va = vpn a.toNat then some (pteFor pa perm) else leaf m root va) ∧
      if a = last then m1 = m' else mapLoop (pageAddr root) last perm m1 (a + pgBytes) (pa + pgBytes) = .ok (true, m') := by
  rw [mapLoop_eq] at hrun
  by_cases ha : a.toNat < maxva
  · obtain ⟨r, m1, hw, hwalked⟩ := walk_alloc h ha
    rw [hw] at hrun
    cases r with
    | none => cases hrun
    | some pte =>
      obtain ⟨f, hf, rfl⟩ := hwalked.found pte rfl
      obtain ⟨hnode, hleaf⟩ := hwalked.wellFormed.toTree.store hf ha (pteFor pa perm)
      have hvalid : Valid (pteFor pa perm) := valid_pte pa perm
      dsimp only at hrun
      split at hrun
      · cases hrun
      · refine ⟨_, ha, hwalked.wellFormed.congr hnode rfl, fun va hva => ?_, ?_⟩
        · rw [hleaf va hva, if_pos hvalid, leaf, leaf, hwalked.leafAt]
        · split at hrun
          · rw [if_pos ‹_›]
            cases hrun
            rfl
          · rw [if_neg ‹_›]
            exact hrun
  · have hpanic : walk m (pageAddr root) a true = .error .walk := if_pos (Nat.le_of_not_lt ha)
    rw [hpanic] at hrun
    cases hrun

structure Mapped (m : Ram) (root : Frame) (a pa perm : U64) (n : Nat) (m' : Ram) : Prop where
  wellFormed : WellFormed m' root
  below : a.toNat + n * pgsize < maxva
  leaf : ∀ va < maxva, leaf m' root va =
    if vpn a.toNat ≤ vpn va ∧ vpn va ≤ vpn a.toNat + n then
      some (pteFor (pa + BitVec.ofNat 64 ((vpn va - vpn a.toNat) * pgsize)) perm)
    else leaf m root va

theorem vpn_next (a : Nat) : vpn (a + pgsize) = vpn a + 1 := Nat.add_div_right a (by decide)

theorem add_pages (x : U64) (k : Nat) :
    x + BitVec.ofNat 64 ((k + 1) * pgsize) = x + pgBytes + BitVec.ofNat 64 (k * pgsize) := by
  rw [Nat.succ_mul, Nat.add_comm, BitVec.ofNat_add, BitVec.add_assoc]
  rfl

theorem mapLoop_maps (h : WellFormed m root) (hlast : last = a + BitVec.ofNat 64 (n * pgsize))
    (hn : n * pgsize < 2 ^ 64) (hrun : mapLoop (pageAddr root) last perm m a pa = .ok (true, m')) :
    Mapped m root a pa perm n m' := by
  induction n generalizing m a pa with
  | zero =>
    obtain ⟨m1, ha, hwf, hleaf, hend⟩ := mapLoop_first h hrun
    rw [if_pos (by simpa using hlast.symm)] at hend
    subst hend
    refine ⟨hwf, by simpa using ha, fun va hva => ?_⟩
    rw [hleaf va hva]
    by_cases hv : vpn va = vpn a.toNat
    · rw [if_pos hv, if_pos (by omega), hv, Nat.sub_self, Nat.zero_mul]
      simp
    · rw [if_neg hv, if_neg (by omega)]
  | succ n ih =>
    obtain ⟨m1, ha, hwf, hleaf, hnext⟩ := mapLoop_first h hrun
    have hne : a ≠ last := by
      intro he
      rw [he, BitVec.self_eq_add_right] at hlast
      have hzero := congrArg BitVec.toNat hlast
      rw [BitVec.toNat_ofNat, Nat.mod_eq_of_lt hn] at hzero
      exact absurd hzero (Nat.mul_ne_zero (Nat.succ_ne_zero n) (by decide))
    rw [if_neg hne] at hnext
    rw [add_pages] at hlast
    have hrest := ih hwf hlast (Nat.lt_of_le_of_lt (Nat.mul_le_mul_right _ (Nat.le_succ n)) hn) hnext
    have hbelow := hrest.below
    rw [toNat_next ha] at hbelow
    refine ⟨hrest.wellFormed, by rw [Nat.succ_mul]; omega, fun va hva => ?_⟩
    rw [hrest.leaf va hva, toNat_next ha, vpn_next]
    by_cases hv : vpn va = vpn a.toNat
    · rw [if_neg (by omega), hleaf va hva, if_pos hv, if_pos (by omega), hv, Nat.sub_self, Nat.zero_mul]
      simp
    · by_cases hin : vpn a.toNat + 1 ≤ vpn va ∧ vpn va ≤ vpn a.toNat + 1 + n
      · obtain ⟨k, hk⟩ : ∃ k, vpn va - vpn a.toNat = k + 1 := ⟨vpn va - vpn a.toNat - 1, by omega⟩
        rw [if_pos hin, if_pos (by omega), hk, add_pages, show vpn va - (vpn a.toNat + 1) = k by omega]
      · rw [if_neg hin, hleaf va hva, if_neg hv, if_neg (by omega)]

theorem unmapLoop_eq (pagetable stop : U64) (doFree : Bool) (m : Ram) (a : U64) :
    unmapLoop pagetable stop doFree m a =
      if a.toNat < stop.toNat then
        match walk m pagetable a false with
        | .error why => .error why
        | .ok (none, m) => unmapLoop pagetable stop doFree m (a + pgBytes)
        | .ok (some pte, m) =>
          if Valid (load m pte) then
            match if doFree then m.kfree (frameOf (pte2pa (load m pte))) else .ok m with
            | .error why => .error why
            | .ok m => unmapLoop pagetable stop doFree (store m pte 0) (a + pgBytes)
          else unmapLoop pagetable stop doFree m (a + pgBytes)
      else .ok m := by
  rw [unmapLoop]
  split
  · split
    · rename_i h
      rw [h]
    · rename_i h
      rw [h]
    · rename_i pte m h
      rw [h]
      exact (ite_not (load m pte &&& pteV = 0) _ _).symm
  · rfl

/-- The frame of a leaf can go back to the allocator: it is one of its pages, and not a page-table
page of this table. -/
structure Freeable (m : Ram) (root : Frame) (pte : U64) : Prop where
  owned : m.first ≤ frameOf (pte2pa pte) ∧ frameOf (pte2pa pte) < physstop
  apart : ∀ q, q.length ≤ 2 → node m root q ≠ some (frameOf (pte2pa pte))

structure Unmapped (m : Ram) (root : Frame) (v n : Nat) (m' : Ram) : Prop where
  first : m'.first = m.first
  node : ∀ q, q.length ≤ 2 → node m' root q = node m root q
  leaf : ∀ va < maxva, leaf m' root va = if v ≤ vpn va ∧ vpn va < v + n then none else leaf m root va

/-- `kfree` of a frame that is not a page-table page leaves the table alone. -/
theorem kfree_leaves (hg : ∀ q, q.length ≤ 2 → node m root q ≠ some g) (hk : m.kfree g = .ok m') :
    m'.first = m.first ∧ (∀ q, q.length ≤ 2 → node m' root q = node m root q) ∧
      ∀ i j k, leafAt m' root i j k = leafAt m root i j k := by
  unfold Ram.kfree at hk
  split at hk
  · cases hk
  · cases hk
    have he : ∀ q f (i : Nat), q.length ≤ 2 → node m root q = some f →
        entry { m.fill g 1 with free := g :: m.free } f i = entry m f i := by
      intro q f i hq hf
      have hne : f ≠ g := fun hfg => hg q hq (hfg ▸ hf)
      exact entry_fill_ne m 1 hne i
    have hn : ∀ q, q.length ≤ 2 → node { m.fill g 1 with free := g :: m.free } root q = node m root q :=
      node_congr fun q f i hq hf => he q f i (Nat.le_of_lt hq) hf
    refine ⟨rfl, hn, fun i j k => ?_⟩
    rw [leafAt, leafAt, hn [i, j] (Nat.le_refl 2)]
    cases hf : node m root [i, j] with
    | none => simp only [Option.bind_none]
    | some f => simp only [Option.bind_some, he [i, j] f k (Nat.le_refl 2) hf]

theorem free_leaf (hfree : doFree = true → Freeable m root w) :
    ∃ m1, (if doFree = true then m.kfree (frameOf (pte2pa w)) else .ok m) = .ok m1 ∧ m1.first = m.first ∧
      (∀ q, q.length ≤ 2 → node m1 root q = node m root q) ∧ ∀ i j k, leafAt m1 root i j k = leafAt m root i j k := by
  split
  · rename_i hd
    have hown := (hfree hd).owned
    have hk : m.kfree (frameOf (pte2pa w)) = .ok _ :=
      if_neg (not_or.mpr ⟨Nat.not_lt.mpr hown.1, Nat.not_le.mpr hown.2⟩)
    exact ⟨_, hk, kfree_leaves (hfree hd).apart hk⟩
  · exact ⟨m, rfl, rfl, fun _ _ => rfl, fun _ _ _ => rfl⟩

theorem unmap_page (h : Tree m root) (ha : a.toNat < maxva) (hstop : a.toNat < stop.toNat)
    (hfree : doFree = true → ∀ w, leaf m root a.toNat = some w → Freeable m root w) :
    ∃ m1, Unmapped m root (vpn a.toNat) 1 m1 ∧
      unmapLoop (pageAddr root) stop doFree m a = unmapLoop (pageAddr root) stop doFree m1 (a + pgBytes) := by
  have hskip : leaf m root a.toNat = none → Unmapped m root (vpn a.toNat) 1 m := by
    intro hnone
    refine ⟨rfl, fun _ _ => rfl, fun va hva => ?_⟩
    split
    · rw [leaf_congr (show vpn va = vpn a.toNat by omega), hnone]
    · rfl
  have hleaf := translation_eq h ha
  rw [translation, walk_eq h ha] at hleaf
  rw [unmapLoop_eq, if_pos hstop, walk_eq h ha]
  cases hf : leafPage m root a with
  | none =>
    rw [hf] at hleaf
    exact ⟨m, hskip hleaf.symm, rfl⟩
  | some f =>
    rw [hf] at hleaf
    dsimp only [Option.map_some] at hleaf ⊢
    by_cases hv : Valid (load m (entryAddr f (Paging.px 0 a.toNat)))
    · rw [if_pos hv] at hleaf ⊢
      obtain ⟨m1, hm1, hfirst, hnode, hleafAt⟩ := free_leaf fun hd => hfree hd _ hleaf.symm
      rw [hm1]
      have h1 : Tree m1 root := h.congr hnode
      have hf1 : leafPage m1 root a = some f := (hnode [_, _] (Nat.le_refl 2)).trans hf
      obtain ⟨hnode2, hleaf2⟩ := h1.store hf1 ha 0
      refine ⟨store m1 (entryAddr f (Paging.px 0 a.toNat)) 0, ⟨hfirst, ?_, fun va hva => ?_⟩, rfl⟩
      · intro q hq
        rw [hnode2 q hq, hnode q hq]
      rw [hleaf2 va hva, if_neg not_valid_zero, leaf, leaf, hleafAt]
      by_cases hva' : vpn va = vpn a.toNat
      · rw [if_pos hva', if_pos (by omega)]
      · rw [if_neg hva', if_neg (by omega)]
    · rw [if_neg hv] at hleaf ⊢
      exact ⟨m, hskip hleaf.symm, rfl⟩

theorem unmapLoop_unmaps (h : Tree m root) (hstop : stop.toNat = a.toNat + n * pgsize) (hmax : stop.toNat ≤ maxva)
    (hfree : doFree = true → ∀ va < maxva, vpn a.toNat ≤ vpn va → vpn va < vpn a.toNat + n →
      ∀ w, leaf m root va = some w → Freeable m root w) :
    ∃ m', unmapLoop (pageAddr root) stop doFree m a = .ok m' ∧ Unmapped m root (vpn a.toNat) n m' := by
  induction n generalizing m a with
  | zero =>
    rw [Nat.zero_mul, Nat.add_zero] at hstop
    rw [unmapLoop_eq, if_neg (by omega)]
    refine ⟨m, rfl, rfl, fun _ _ => rfl, fun va _ => ?_⟩
    rw [if_neg (by omega)]
  | succ n ih =>
    rw [Nat.succ_mul] at hstop
    have hlt : a.toNat < stop.toNat := by
      simp only [pgsize] at hstop
      omega
    have ha : a.toNat < maxva := Nat.lt_of_lt_of_le hlt hmax
    obtain ⟨m1, hpage, hrun⟩ := unmap_page h ha hlt fun hd => hfree hd a.toNat ha (Nat.le_refl _) (by omega)
    have hnext : vpn (a + pgBytes).toNat = vpn a.toNat + 1 := by rw [toNat_next ha, vpn_next]
    have hfree1 : doFree = true → ∀ va < maxva, vpn (a + pgBytes).toNat ≤ vpn va →
        vpn va < vpn (a + pgBytes).toNat + n → ∀ w, leaf m1 root va = some w → Freeable m1 root w := by
      intro hd va hva hlo hhi w hw
      rw [hpage.leaf va hva, if_neg (by omega)] at hw
      have hfw := hfree hd va hva (by omega) (by omega) w hw
      refine ⟨hpage.first ▸ hfw.owned, fun q hq => ?_⟩
      rw [hpage.node q hq]
      exact hfw.apart q hq
    obtain ⟨m', hrun', hrest⟩ := ih (h.congr hpage.node) (by rw [toNat_next ha]; omega) hfree1
    refine ⟨m', hrun.trans hrun', hrest.first.trans hpage.first, fun q hq => (hrest.node q hq).trans (hpage.node q hq),
      fun va hva => ?_⟩
    rw [hrest.leaf va hva, hpage.leaf va hva, hnext]
    by_cases hin : vpn a.toNat ≤ vpn va ∧ vpn va < vpn a.toNat + (n + 1)
    · rw [if_pos hin]
      split
      · rfl
      · rw [if_pos (by omega)]
    · rw [if_neg hin, if_neg (by omega), if_neg (by omega)]

def pageOf (pa : U64) : U64 := pageAddr (frameOf pa)

theorem pageOf_aligned {pa : U64} (h : pa.toNat % pgsize = 0) : pageOf pa = pa := by
  apply BitVec.eq_of_toNat_eq
  rw [pageOf, toNat_pageAddr (frameOf_lt pa)]
  exact Nat.div_mul_cancel (Nat.dvd_of_mod_eq_zero h)

section Flags

variable {pa flags : U64} (h : flags.toNat < 2 ^ 10)

include h

theorem pte2pa_flags (pa : U64) : pte2pa (pa2pte pa ||| flags) = pageOf pa := by
  apply BitVec.eq_of_toNat_eq
  rw [pte2pa_pte pa h, pageOf, toNat_pageAddr (frameOf_lt pa)]
  rfl

theorem user_flags (pa : U64) : (pa2pte pa ||| flags) &&& pteU = flags &&& pteU := by
  have hflags : (pa2pte pa ||| flags) &&& 0x3FF = flags := pteFlags_pte pa h
  have hmask : (0x3FF : U64) &&& pteU = pteU := by decide
  calc (pa2pte pa ||| flags) &&& pteU
      = (pa2pte pa ||| flags) &&& (0x3FF &&& pteU) := by rw [hmask]
    _ = ((pa2pte pa ||| flags) &&& 0x3FF) &&& pteU := (BitVec.and_assoc ..).symm
    _ = flags &&& pteU := by rw [hflags]

end Flags

def flagsOf (perm : I32) : U64 := perm.signExtend 64 ||| pteV

theorem flagsOf_lt {perm : I32} (h : perm.toNat < 2 ^ 10) : (flagsOf perm).toNat < 2 ^ 10 := by
  have hmsb : perm.msb = false := by
    rw [BitVec.msb_eq_decide]
    simp
    omega
  rw [flagsOf, BitVec.signExtend_eq_setWidth_of_msb_false hmsb, BitVec.toNat_or, BitVec.toNat_setWidth]
  exact Nat.or_lt_two_pow (by omega) (by decide)

theorem flagsOf_user (perm : I32) : flagsOf perm &&& pteU = perm.signExtend 64 &&& pteU := by
  rw [flagsOf, BitVec.and_or_distrib_right]
  simp

theorem pteFor_eq (pa : U64) (perm : I32) : pteFor pa (perm.signExtend 64) = pa2pte pa ||| flagsOf perm :=
  BitVec.or_assoc ..

/-- The addresses of the range translate to the pages from `pa` on with exactly these flags, and all
other addresses as before. -/
structure MapsRange (m : Ram) (pagetable va size pa : U64) (perm : I32) (m' : Ram) : Prop where
  inside : ∀ a : U64, va.toNat ≤ a.toNat → a.toNat < va.toNat + size.toNat →
    ∃ pte, translation m' pagetable a = some pte ∧
      pte2pa pte = pageOf (pa + BitVec.ofNat 64 ((a.toNat - va.toNat) / pgsize * pgsize)) ∧
      pteFlags pte = perm.signExtend 64 ||| pteV ∧
      walkaddr m' pagetable a = .ok (if perm.signExtend 64 &&& pteU = 0 then 0 else pte2pa pte)
  outside : ∀ a : U64, a.toNat < maxva → ¬ (va.toNat ≤ a.toNat ∧ a.toNat < va.toNat + size.toNat) →
    translation m' pagetable a = translation m pagetable a ∧ walkaddr m' pagetable a = walkaddr m pagetable a

theorem mappages_maps (h : WellFormed m root) (hperm : perm.toNat < 2 ^ 10)
    (hrun : mappages m (pageAddr root) va size pa perm = .ok (true, m')) :
    MapsRange m (pageAddr root) va size pa perm m' ∧ WellFormed m' root := by
  unfold mappages at hrun
  split at hrun
  · cases hrun
  split at hrun
  · cases hrun
  split at hrun
  · cases hrun
  rename_i hva hsize h0
  obtain ⟨n, hn⟩ : ∃ n, size.toNat = (n + 1) * pgsize := by
    have hpos : size.toNat ≠ 0 := fun hz => h0 (BitVec.eq_of_toNat_eq hz)
    refine ⟨size.toNat / pgsize - 1, ?_⟩
    simp only [pgsize] at hsize ⊢
    omega
  have hlt : (n + 1) * pgsize < 2 ^ 64 := hn ▸ size.isLt
  have hlast : va + size - pgBytes = va + BitVec.ofNat 64 (n * pgsize) := by
    have hs : size = BitVec.ofNat 64 ((n + 1) * pgsize) := by
      apply BitVec.eq_of_toNat_eq
      rw [hn, BitVec.toNat_ofNat, Nat.mod_eq_of_lt hlt]
    rw [hs, add_pages]
    bv_omega
  have hmap := mapLoop_maps h hlast (Nat.lt_of_le_of_lt (Nat.mul_le_mul_right _ (Nat.le_succ n)) hlt) hrun
  have hbelow := hmap.below
  refine ⟨⟨fun a hlo hhi => ?_, fun a ha hout => ?_⟩, hmap.wellFormed⟩
  · have ha : a.toNat < maxva := by
      simp only [pgsize, maxva] at hn hbelow hva ⊢
      omega
    have hin : vpn va.toNat ≤ vpn a.toNat ∧ vpn a.toNat ≤ vpn va.toNat + n := by
      simp only [vpn, pgsize] at hn hva ⊢
      omega
    have hk : (a.toNat - va.toNat) / pgsize = vpn a.toNat - vpn va.toNat := by
      simp only [vpn, pgsize] at hva ⊢
      omega
    have hleaf := hmap.leaf a.toNat ha
    rw [if_pos hin, pteFor_eq, ← hk] at hleaf
    refine ⟨_, (translation_eq hmap.wellFormed.toTree ha).trans hleaf, pte2pa_flags (flagsOf_lt hperm) _,
      pteFlags_pte _ (flagsOf_lt hperm), ?_⟩
    rw [walkaddr_eq hmap.wellFormed.toTree ha, hleaf, userAddr, user_flags (flagsOf_lt hperm), flagsOf_user]
  · have hin : ¬ (vpn va.toNat ≤ vpn a.toNat ∧ vpn a.toNat ≤ vpn va.toNat + n) := by
      simp only [vpn, pgsize] at hn hva ⊢
      omega
    have hleaf := hmap.leaf a.toNat ha
    rw [if_neg hin] at hleaf
    rw [translation_eq hmap.wellFormed.toTree ha, translation_eq h.toTree ha, walkaddr_eq hmap.wellFormed.toTree ha,
      walkaddr_eq h.toTree ha, hleaf]
    exact ⟨rfl, rfl⟩

structure UnmapsRange (m : Ram) (pagetable : U64) (lo hi : Nat) (m' : Ram) : Prop where
  inside : ∀ a : U64, lo ≤ a.toNat → a.toNat < hi → translation m' pagetable a = none ∧ walkaddr m' pagetable a = .ok 0
  outside : ∀ a : U64, a.toNat < maxva → ¬ (lo ≤ a.toNat ∧ a.toNat < hi) →
    translation m' pagetable a = translation m pagetable a ∧ walkaddr m' pagetable a = walkaddr m pagetable a

theorem uvmunmap_unmaps (h : Tree m root) (hva : va.toNat % pgsize = 0)
    (hmax : va.toNat + npages.toNat * pgsize ≤ maxva)
    (hfree : doFree = true → ∀ a : U64, va.toNat ≤ a.toNat → a.toNat < va.toNat + npages.toNat * pgsize →
      ∀ pte, translation m (pageAddr root) a = some pte → Freeable m root pte) :
    ∃ m', uvmunmap m (pageAddr root) va npages doFree = .ok m' ∧ Tree m' root ∧
      UnmapsRange m (pageAddr root) va.toNat (va.toNat + npages.toNat * pgsize) m' := by
  have hstop : (va + npages * pgBytes).toNat = va.toNat + npages.toNat * pgsize := by
    rw [BitVec.toNat_add, BitVec.toNat_mul]
    show (va.toNat + npages.toNat * pgsize % 2 ^ 64) % 2 ^ 64 = _
    simp only [maxva] at hmax
    omega
  have hpages : ∀ x, va.toNat ≤ x ∧ x < va.toNat + npages.toNat * pgsize ↔
      vpn va.toNat ≤ vpn x ∧ vpn x < vpn va.toNat + npages.toNat := by
    intro x
    simp only [vpn, pgsize] at hva ⊢
    omega
  have hleaves : doFree = true → ∀ x < maxva, vpn va.toNat ≤ vpn x → vpn x < vpn va.toNat + npages.toNat →
      ∀ w, leaf m root x = some w → Freeable m root w := by
    intro hd x hx hlo hhi w hw
    obtain ⟨hlo, hhi⟩ := (hpages x).mpr ⟨hlo, hhi⟩
    have hword : (BitVec.ofNat 64 x).toNat = x := by
      rw [BitVec.toNat_ofNat]
      simp only [maxva] at hx
      omega
    refine hfree hd (BitVec.ofNat 64 x) (by rw [hword]; exact hlo) (by rw [hword]; exact hhi) w ?_
    rw [translation_eq h (by rw [hword]; exact hx), hword]
    exact hw
  obtain ⟨m', hrun, hun⟩ := unmapLoop_unmaps h hstop (hstop ▸ hmax) hleaves
  have h' : Tree m' root := h.congr hun.node
  refine ⟨m', ?_, h', fun a hlo hhi => ?_, fun a ha hout => ?_⟩
  · rw [uvmunmap, if_neg (not_not.mpr hva), hrun]
  · have ha : a.toNat < maxva := Nat.lt_of_lt_of_le hhi hmax
    have hleaf := hun.leaf a.toNat ha
    rw [if_pos ((hpages _).mp ⟨hlo, hhi⟩)] at hleaf
    rw [translation_eq h' ha, walkaddr_eq h' ha, hleaf]
    exact ⟨rfl, rfl⟩
  · have hleaf := hun.leaf a.toNat ha
    rw [if_neg (mt (hpages _).mpr hout)] at hleaf
    rw [translation_eq h' ha, translation_eq h ha, walkaddr_eq h' ha, walkaddr_eq h ha, hleaf]
    exact ⟨rfl, rfl⟩

theorem walk_injective (h : Tree m root) (hva : va.toNat % pgsize = 0) (hva' : va'.toNat % pgsize = 0)
    (hw : walk m (pageAddr root) va false = .ok (some p, m1)) (hw' : walk m (pageAddr root) va' false = .ok (some p, m2)) :
    va = va' := by
  have ha := lt_maxva_of_walk hw
  have ha' := lt_maxva_of_walk hw'
  rw [walk_eq h ha] at hw
  rw [walk_eq h ha'] at hw'
  obtain ⟨f, hf, hp⟩ := Option.map_eq_some_iff.mp (congrArg Prod.fst (Except.ok.inj hw))
  obtain ⟨f', hf', hp'⟩ := Option.map_eq_some_iff.mp (congrArg Prod.fst (Except.ok.inj hw'))
  obtain ⟨rfl, h0⟩ := entryAddr_inj (h.node_lt hf) (h.node_lt hf') (Fin.isLt _) (Fin.isLt _) (hp.trans hp'.symm)
  have hpath := h.distinct [_, _] [_, _] (Nat.le_refl 2) (Nat.le_refl 2) f hf hf'
  simp only [List.cons.injEq, and_true] at hpath
  have hv := vpn_eq_of_px (vpn_lt ha) (vpn_lt ha') hpath.1 hpath.2 (Fin.ext h0)
  apply BitVec.eq_of_toNat_eq
  simp only [vpn, pgsize] at hv hva hva'
  omega

/-- A page table is a finite map: no two pages share a leaf PTE, `mappages` adds exactly its range and
`uvmunmap` removes exactly its range, whatever else is mapped; and a PTE gives back the address and
the flags it was made of. -/
theorem page_table_map (m : Ram) (root : Frame) (h : WellFormed m root) :
    (∀ va va' p p', va.toNat % pgsize = 0 → va'.toNat % pgsize = 0 → va ≠ va' →
      walk m (pageAddr root) va false = .ok (some p, m) → walk m (pageAddr root) va' false = .ok (some p', m) → p ≠ p') ∧
    (∀ va size pa perm m', perm.toNat < 2 ^ 10 → mappages m (pageAddr root) va size pa perm = .ok (true, m') →
      MapsRange m (pageAddr root) va size pa perm m' ∧ WellFormed m' root) ∧
    (∀ va npages doFree, va.toNat % pgsize = 0 → va.toNat + npages.toNat * pgsize ≤ maxva →
      (doFree = true → ∀ a : U64, va.toNat ≤ a.toNat → a.toNat < va.toNat + npages.toNat * pgsize →
        ∀ pte, translation m (pageAddr root) a = some pte → Freeable m root pte) →
      ∃ m', uvmunmap m (pageAddr root) va npages doFree = .ok m' ∧ Tree m' root ∧
        UnmapsRange m (pageAddr root) va.toNat (va.toNat + npages.toNat * pgsize) m') ∧
    ∀ pa flags, pa.toNat % pgsize = 0 → flags.toNat < 2 ^ 10 →
      pte2pa (pa2pte pa ||| flags) = pa ∧ pteFlags (pa2pte pa ||| flags) = flags := by
  refine ⟨?_, ?_, ?_, ?_⟩
  · rintro va va' p _ hva hva' hne hw hw' rfl
    exact hne (walk_injective h.toTree hva hva' hw hw')
  · intro va size pa perm m' hperm hrun
    exact mappages_maps h hperm hrun
  · intro va npages doFree hva hmax hfree
    exact uvmunmap_unmaps h.toTree hva hmax hfree
  · intro pa flags hpa hflags
    exact ⟨(pte2pa_flags hflags pa).trans (pageOf_aligned hpa), pteFlags_pte pa hflags⟩

def smallRam : Ram := ⟨0x80000, 0x80000, [0x80003, 0x80004, 0x80005], fun _ _ => 0⟩

theorem smallRam_node (h : node smallRam 0x80002 q = some f) : q = [] ∧ f = 0x80002 := by
  cases q with
  | nil => exact ⟨rfl, (Option.some.inj h).symm⟩
  | cons i q =>
    have hz : entry smallRam 0x80002 i = 0 := by simp [entry, smallRam, loadLe]
    rw [node, Radix.node, child_zero hz] at h
    cases h

theorem smallRam_wellFormed : WellFormed smallRam 0x80002 where
  root_lt := by decide
  distinct := by
    intro q q' _ _ a ha ha'
    rw [(smallRam_node ha).1, (smallRam_node ha').1]
  free_lt := by decide
  free_nodup := by decide
  free_apart := by
    intro q f _ hf
    rw [(smallRam_node hf).2]
    decide

theorem smallRam_maps :
    ∃ m', mappages smallRam (pageAddr 0x80002) 0x1000 0x1000 0x80006000 18 = .ok (true, m') := by
  have hrun : Runs (mappages smallRam (pageAddr 0x80002) 0x1000 0x1000 0x80006000 18) (fun r => r.1 = true) := by
    have hloop : mappages smallRam (pageAddr 0x80002) 0x1000 0x1000 0x80006000 18 =
        mapLoop (pageAddr 0x80002) 0x1000 18 smallRam 0x1000 0x80006000 := rfl
    rw [hloop, mapLoop_eq]
    decide +kernel
  obtain ⟨⟨b, m'⟩, hr, hb⟩ := hrun.result
  exact ⟨m', hb ▸ hr⟩

/-- One page mapped for the user in an empty table, and the next one not. -/
theorem page_table_map_small : ∃ m',
    mappages smallRam (pageAddr 0x80002) 0x1000 0x1000 0x80006000 18 = .ok (true, m') ∧
      (∃ pte, translation m' (pageAddr 0x80002) 0x1000 = some pte ∧ pteFlags pte = 19) ∧
      translation m' (pageAddr 0x80002) 0x2000 = translation smallRam (pageAddr 0x80002) 0x2000 := by
  obtain ⟨m', hrun⟩ := smallRam_maps
  obtain ⟨hmaps, -⟩ := (page_table_map smallRam 0x80002 smallRam_wellFormed).2.1 _ _ _ _ m' (by decide) hrun
  obtain ⟨pte, htr, -, hflags, -⟩ := hmaps.inside 0x1000 (by decide) (by decide)
  exact ⟨m', hrun, ⟨pte, htr, hflags⟩, (hmaps.outside 0x2000 (by decide) (by decide)).1⟩

end Xv6Filter.Sv39
