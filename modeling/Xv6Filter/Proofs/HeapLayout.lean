import Mathlib.Order.Interval.Finset.Nat
import Xv6Filter.Lib.Circle
import Xv6Filter.Lib.Tiles
import Xv6Filter.User.Umalloc

namespace Xv6Filter.Umalloc
open Lib Function

def Owned (asked : Asked) (x : Nat) : Prop :=
  ∃ (n : Int) (q : Nat), (n, some q) ∈ asked ∧ q ≤ x ∧ (x : Int) < q + n

def obtained : Asked → Nat
  | [] => 0
  | (n, some _) :: asked => n.toNat + obtained asked
  | (_, none) :: asked => obtained asked

abbrev maxva : Nat := 2 ^ 38

/-- `sbrk` adds exactly `n` bytes at `p`: addresses above the program's own memory that it did not
have before. -/
structure Adds (base : Nat) (asked : Asked) (p n : Nat) : Prop where
  above : base + hdrsize ≤ p
  below : p + n ≤ maxva
  fresh : ∀ x, p ≤ x → x < p + n → ¬ Owned asked x

/-- The blocks `free` and `live` of a heap, with their lengths in bytes, as the pointers and the sizes
in their headers have them. A size wraps around at `2 ^ 32` units; what a free block has more than that
is lost. -/
structure Layout (base : Nat) (asked : Asked) (ptr size : Nat → Nat) (free live : Finset Nat)
    (len : Nat → Nat) : Prop where
  circle : Circle (insert base free) ptr
  base_size : size base = 0
  tiles : Tiles (free ∪ live) len
  split : Disjoint free live
  owned : ∀ x, Covered (free ∪ live) len x → Owned asked x
  range : ∀ x, Owned asked x → base + hdrsize ≤ x ∧ x < maxva
  size_free : ∀ a ∈ free, hdrsize * size a = len a % 2 ^ 36
  size_live : ∀ a ∈ live, hdrsize * size a = len a ∧ len a < 2 ^ 36
  tiled : obtained asked < 2 ^ 36 → ∀ x, Owned asked x → Covered (free ∪ live) len x

def Coalesced (ptr : Nat → Nat) (free : Finset Nat) (len : Nat → Nat) : Prop :=
  ∀ a ∈ free, a + len a ≠ ptr a

theorem Owned.card_le {s : Finset Nat} (h : ∀ x ∈ s, Owned asked x) : s.card ≤ obtained asked := by
  induction asked generalizing s with
  | nil =>
    have hempty : s = ∅ := Finset.eq_empty_of_forall_notMem fun x hx => by
      obtain ⟨n, q, hmem, -⟩ := h x hx
      cases hmem
    simp [hempty]
  | cons call asked ih =>
    obtain ⟨n, _ | q⟩ := call
    · refine ih fun x hx => ?_
      obtain ⟨m, r, hmem, hin⟩ := h x hx
      exact ⟨m, r, by simpa using hmem, hin⟩
    · have hrest : (s.filter fun x => x ∉ Finset.Ico q (q + n.toNat)).card ≤ obtained asked := by
        refine ih fun x hx => ?_
        obtain ⟨hs, hout⟩ := Finset.mem_filter.mp hx
        obtain ⟨m, r, hmem, hlow, hlt⟩ := h x hs
        rcases List.mem_cons.mp hmem with he | hmem
        · cases he
          exact absurd (Finset.mem_Ico.mpr ⟨hlow, by omega⟩) hout
        · exact ⟨m, r, hmem, hlow, hlt⟩
      have hfirst : (s.filter fun x => x ∈ Finset.Ico q (q + n.toNat)).card ≤ n.toNat := by
        refine (Finset.card_le_card (t := Finset.Ico q (q + n.toNat)) fun x hx => (Finset.mem_filter.mp hx).2).trans ?_
        simp
      have hsum := Finset.card_filter_add_card_filter_not (s := s) (fun x => x ∈ Finset.Ico q (q + n.toNat))
      rw [obtained]
      omega

theorem Owned.length_le (h : ∀ x, a ≤ x → x < a + n → Owned asked x) : n ≤ obtained asked := by
  have hcard := Owned.card_le (s := Finset.Ico a (a + n)) fun x hx =>
    h x (Finset.mem_Ico.mp hx).1 (Finset.mem_Ico.mp hx).2
  simpa using hcard

namespace Layout

variable {base : Nat} {asked : Asked} {ptr size : Nat → Nat} {free live : Finset Nat} {len : Nat → Nat}
  {a b bp p q : Nat}

section

variable (h : Layout base asked ptr size free live len)

include h

section

variable (ha : a ∈ free ∪ live)

include ha

theorem covered : Owned asked a := h.owned a (h.tiles.covered_start ha)

theorem above : base + hdrsize ≤ a :=
  (h.range a (h.covered ha)).1

theorem hdrsize_le : hdrsize ≤ len a := by
  have hpos := h.tiles.pos a ha
  rcases Finset.mem_union.mp ha with hf | hl
  · have := h.size_free a hf
    simp only [hdrsize] at this ⊢
    omega
  · have := (h.size_live a hl).1
    simp only [hdrsize] at this ⊢
    omega

theorem fits : a + len a ≤ maxva := by
  have hpos := h.tiles.pos a ha
  have hlast := (h.range (a + len a - 1) (h.owned _ ⟨a, ha, by omega, by omega⟩)).2
  omega

end

theorem base_not_mem : base ∉ free ∪ live := by
  intro hb
  have := h.above hb
  simp only [hdrsize] at this
  omega

theorem exact (hs : obtained asked < 2 ^ 36) (ha : a ∈ free) : hdrsize * size a = len a := by
  have hmem : a ∈ free ∪ live := Finset.mem_union_left _ ha
  have hle : len a ≤ obtained asked :=
    Owned.length_le fun x hlow hlt => h.owned x ⟨a, hmem, hlow, hlt⟩
  rw [h.size_free a ha, Nat.mod_eq_of_lt (by omega)]

theorem congr (hp : ∀ a ∈ insert base free, ptr' a = ptr a) (hs : ∀ a ∈ insert base (free ∪ live), size' a = size a) :
    Layout base asked ptr' size' free live len where
  circle := h.circle.congr hp
  base_size := (hs base (Finset.mem_insert_self _ _)).trans h.base_size
  tiles := h.tiles
  split := h.split
  owned := h.owned
  range := h.range
  size_free := fun a ha => by
    rw [hs a (by simp [ha])]
    exact h.size_free a ha
  size_live := fun a ha => by
    rw [hs a (by simp [ha])]
    exact h.size_live a ha
  tiled := h.tiled

/-- Where one free block ends and another starts, a pointer leads from the one to the other. -/
theorem linked (ha : a ∈ free) (hb : b ∈ free) (hab : a + len a = b) : ptr a = b := by
  have hua : a ∈ free ∪ live := Finset.mem_union_left _ ha
  have hpos := h.tiles.pos a hua
  obtain ⟨hmem, hafter⟩ := h.circle a (Finset.mem_insert_of_mem ha)
  have hbs : b ∈ insert base free := Finset.mem_insert_of_mem hb
  rcases hafter with ⟨hlt, hgap⟩ | ⟨-, hall⟩
  · have hle : ptr a ≤ b := by
      have := hgap b hbs
      omega
    rcases Finset.mem_insert.mp hmem with he | hfree
    · have := h.above hua
      omega
    · have := h.tiles.apart a hua (ptr a) (Finset.mem_union_left _ hfree) hlt
      omega
  · have := hall b hbs
    omega

theorem release (hbp : bp ∈ live) (hp : p ∈ insert base free) (hgap : InGap p (ptr p) bp) :
    Layout base asked (update (update ptr bp (ptr p)) p bp) size (insert bp free)
      (live.erase bp) len := by
  have hunion : insert bp free ∪ live.erase bp = free ∪ live := by
    ext x
    by_cases hx : x = bp <;> simp [hx, hbp]
  have hnot : bp ∉ insert base free := by
    intro hmem
    rcases Finset.mem_insert.mp hmem with rfl | hfree
    · exact h.base_not_mem (Finset.mem_union_right _ hbp)
    · exact Finset.disjoint_left.mp h.split hfree hbp
  refine ⟨?_, h.base_size, ?_, ?_, ?_, h.range, ?_, ?_, ?_⟩
  · rw [Finset.insert_comm]
    exact h.circle.link hp hnot hgap
  · rw [hunion]
    exact h.tiles
  · rw [Finset.disjoint_insert_left]
    exact ⟨Finset.notMem_erase _ _, h.split.mono_right (Finset.erase_subset _ _)⟩
  · rw [hunion]
    exact h.owned
  · intro a ha
    rcases Finset.mem_insert.mp ha with rfl | hfree
    · obtain ⟨hsize, hlt⟩ := h.size_live a hbp
      rw [hsize, Nat.mod_eq_of_lt hlt]
    · exact h.size_free a hfree
  · exact fun a ha => h.size_live a (Finset.mem_of_mem_erase ha)
  · rw [hunion]
    exact h.tiled

/-- A free block takes in the next one, which starts where it ends. -/
theorem absorb (ha : a ∈ free) (hb : b ∈ free) (hab : a + len a = b) :
    Layout base asked (update ptr a (ptr b)) (update size a ((size a + size b) % 2 ^ 32))
      (free.erase b) live (update len a (len a + len b)) := by
  have hua : a ∈ free ∪ live := Finset.mem_union_left _ ha
  have hub : b ∈ free ∪ live := Finset.mem_union_left _ hb
  have hpos := h.tiles.pos a hua
  have hbl : b ∉ live := Finset.disjoint_left.mp h.split hb
  have hal : a ∉ live := Finset.disjoint_left.mp h.split ha
  have hbase : b ≠ base := fun he => h.base_not_mem (he ▸ hub)
  have habase : base ≠ a := fun he => h.base_not_mem (he ▸ hua)
  have hunion : free.erase b ∪ live = (free ∪ live).erase b := by
    rw [Finset.erase_union_distrib, Finset.erase_eq_of_notMem hbl]
  refine ⟨?_, ?_, ?_, ?_, ?_, h.range, ?_, ?_, ?_⟩
  · rw [← Finset.erase_insert_of_ne hbase.symm]
    exact h.circle.unlink (Finset.mem_insert_of_mem ha) (h.linked ha hb hab) (by omega)
  · rw [update_of_ne habase]
    exact h.base_size
  · rw [hunion]
    exact h.tiles.absorb hua hub hab
  · exact h.split.mono_left (Finset.erase_subset _ _)
  · intro x hx
    rw [hunion, h.tiles.covered_absorb hua hub hab] at hx
    exact h.owned x hx
  · intro c hc
    have hcf := Finset.mem_of_mem_erase hc
    by_cases hca : c = a
    · subst hca
      have h1 := h.size_free c ha
      have h2 := h.size_free b hb
      simp only [update_self, hdrsize] at h1 h2 ⊢
      omega
    · rw [update_of_ne hca, update_of_ne hca]
      exact h.size_free c hcf
  · intro c hc
    have hca : c ≠ a := fun he => hal (he ▸ hc)
    rw [update_of_ne hca, update_of_ne hca]
    exact h.size_live c hc
  · intro hs x hx
    rw [hunion, h.tiles.covered_absorb hua hub hab]
    exact h.tiled hs x hx

theorem trim (ha : a ∈ free) (hs : 0 < size a) :
    Layout base asked ptr size free live (update len a (hdrsize * size a)) := by
  have hua : a ∈ free ∪ live := Finset.mem_union_left _ ha
  have hsize := h.size_free a ha
  have hle : hdrsize * size a ≤ len a := hsize ▸ Nat.mod_le _ _
  have hpos : 0 < hdrsize * size a := Nat.mul_pos (by decide) hs
  refine ⟨h.circle, h.base_size, h.tiles.shrink hua hpos hle, h.split, ?_, h.range, ?_, ?_, ?_⟩
  · exact fun x hx => h.owned x ((Tiles.covered_shrink hua hle).mpr (.inl hx))
  · intro c hc
    by_cases hca : c = a
    · subst hca
      rw [update_self, Nat.mod_eq_of_lt]
      omega
    · rw [update_of_ne hca]
      exact h.size_free c hc
  · intro c hc
    have hca : c ≠ a := fun he => Finset.disjoint_left.mp h.split ha (he ▸ hc)
    rw [update_of_ne hca]
    exact h.size_live c hc
  · intro hsmall
    rw [h.exact hsmall ha, update_eq_self]
    exact h.tiled hsmall

theorem unlink (ha : a ∈ free) (hp : p ∈ insert base free)
    (hpa : ptr p = a) (hne : p ≠ a) (hlen : hdrsize * size a = len a) :
    Layout base asked (update ptr p (ptr a)) size (free.erase a) (insert a live) len := by
  have hunion : free.erase a ∪ insert a live = free ∪ live := by
    ext x
    by_cases hx : x = a <;> simp [hx, ha]
  have hbase : a ≠ base := fun he => h.base_not_mem (Finset.mem_union_left _ (he ▸ ha))
  refine ⟨?_, h.base_size, ?_, ?_, ?_, h.range, ?_, ?_, ?_⟩
  · rw [← Finset.erase_insert_of_ne hbase.symm]
    exact h.circle.unlink hp hpa hne
  · rw [hunion]
    exact h.tiles
  · rw [Finset.disjoint_insert_right]
    exact ⟨Finset.notMem_erase _ _, h.split.mono_left (Finset.erase_subset _ _)⟩
  · rw [hunion]
    exact h.owned
  · exact fun c hc => h.size_free c (Finset.mem_of_mem_erase hc)
  · intro c hc
    rcases Finset.mem_insert.mp hc with rfl | hc
    · have := h.size_free c ha
      exact ⟨hlen, by omega⟩
    · exact h.size_live c hc
  · rw [hunion]
    exact h.tiled

/-- The tail of a free block becomes a live block. -/
theorem carve (ha : a ∈ free) (hlen : hdrsize * size a = len a)
    (hn : 0 < n) (hlt : n < size a) (hb : b = a + hdrsize * (size a - n)) :
    b ∉ free ∪ live ∧
    Layout base asked ptr (update (update size a (size a - n)) b n) free (insert b live)
      (update (update len a (hdrsize * (size a - n))) b (hdrsize * n)) := by
  have hua : a ∈ free ∪ live := Finset.mem_union_left _ ha
  have hcut : hdrsize * (size a - n) + hdrsize * n = len a := by
    rw [← Nat.mul_add, Nat.sub_add_cancel (Nat.le_of_lt hlt), hlen]
  have hle : hdrsize * (size a - n) ≤ len a := by omega
  have hrest : 0 < hdrsize * (size a - n) := Nat.mul_pos (by decide) (by omega)
  have hnpos : 0 < hdrsize * n := Nat.mul_pos (by decide) hn
  have hshrunk := h.tiles.shrink hua hrest hle
  have hfree : ∀ x, b ≤ x → x < b + hdrsize * n →
      ¬ Covered (free ∪ live) (update len a (hdrsize * (size a - n))) x := by
    intro x hlow hhigh
    exact h.tiles.not_covered_end hua (by omega) (by omega)
  have hnot : b ∉ free ∪ live := fun hmem =>
    hfree b (Nat.le_refl b) (by omega) (hshrunk.covered_start hmem)
  have hbf : b ∉ free := fun hf => hnot (Finset.mem_union_left _ hf)
  have hbl : b ∉ live := fun hl => hnot (Finset.mem_union_right _ hl)
  have hba : b ≠ a := by omega
  have hbase := h.above hua
  refine ⟨hnot, h.circle, ?_, ?_, ?_, ?_, h.range, ?_, ?_, ?_⟩
  · have hbb : base ≠ b := by
      simp only [hdrsize] at hbase
      omega
    have hab : base ≠ a := by
      simp only [hdrsize] at hbase
      omega
    rw [update_of_ne hbb, update_of_ne hab]
    exact h.base_size
  · rw [Finset.union_insert]
    exact hshrunk.add hnpos hfree
  · exact Finset.disjoint_insert_right.mpr ⟨hbf, h.split⟩
  · intro x hx
    rw [Finset.union_insert, Tiles.covered_add hnot] at hx
    refine h.owned x ((Tiles.covered_shrink hua hle).mpr ?_)
    rcases hx with hx | hx
    · exact .inr ⟨by omega, by omega⟩
    · exact .inl hx
  · intro c hc
    have hcb : c ≠ b := fun he => hbf (he ▸ hc)
    rw [update_of_ne hcb, update_of_ne hcb]
    by_cases hca : c = a
    · subst hca
      have := h.size_free c ha
      rw [update_self, update_self, Nat.mod_eq_of_lt (by omega)]
    · rw [update_of_ne hca, update_of_ne hca]
      exact h.size_free c hc
  · intro c hc
    rcases Finset.mem_insert.mp hc with rfl | hc
    · have := h.size_free a ha
      rw [update_self, update_self]
      exact ⟨rfl, by omega⟩
    · have hcb : c ≠ b := fun he => hbl (he ▸ hc)
      have hca : c ≠ a := fun he => Finset.disjoint_left.mp h.split ha (he ▸ hc)
      rw [update_of_ne hcb, update_of_ne hcb, update_of_ne hca,
        update_of_ne hca]
      exact h.size_live c hc
  · intro hsmall x hx
    rw [Finset.union_insert, Tiles.covered_add hnot]
    rcases (Tiles.covered_shrink hua hle).mp (h.tiled hsmall x hx) with hc | ⟨hlow, hhigh⟩
    · exact .inr hc
    · exact .inl ⟨by omega, by omega⟩

theorem grant (hn : 0 < n) (hlt : n < 2 ^ 32) (hadds : Adds base asked q (hdrsize * n)) : q ∉ free ∪ live ∧
    Layout base (((hdrsize * n : Nat), some q) :: asked) ptr (update size q n) free (insert q live)
      (update len q (hdrsize * n)) := by
  have hnpos : 0 < hdrsize * n := Nat.mul_pos (by decide) hn
  have hfree : ∀ x, q ≤ x → x < q + hdrsize * n → ¬ Covered (free ∪ live) len x :=
    fun x hlow hhigh hc => hadds.fresh x hlow hhigh (h.owned x hc)
  have hnot : q ∉ free ∪ live := fun hmem =>
    hfree q (Nat.le_refl q) (by omega) (h.tiles.covered_start hmem)
  have hqf : q ∉ free := fun hf => hnot (Finset.mem_union_left _ hf)
  have hql : q ∉ live := fun hl => hnot (Finset.mem_union_right _ hl)
  have howned : ∀ x, Owned (((hdrsize * n : Nat), some q) :: asked) x ↔
      q ≤ x ∧ x < q + hdrsize * n ∨ Owned asked x := by
    intro x
    constructor
    · rintro ⟨m, r, hmem, hlow, hhigh⟩
      rcases List.mem_cons.mp hmem with he | hmem
      · cases he
        exact .inl ⟨hlow, by omega⟩
      · exact .inr ⟨m, r, hmem, hlow, hhigh⟩
    · rintro (⟨hlow, hhigh⟩ | ⟨m, r, hmem, hin⟩)
      · exact ⟨_, q, List.mem_cons_self, hlow, by omega⟩
      · exact ⟨m, r, List.mem_cons_of_mem _ hmem, hin⟩
  refine ⟨hnot, h.circle, ?_, ?_, ?_, ?_, ?_, ?_, ?_, ?_⟩
  · have hbq : base ≠ q := by
      have := hadds.above
      simp only [hdrsize] at this
      omega
    rw [update_of_ne hbq]
    exact h.base_size
  · rw [Finset.union_insert]
    exact h.tiles.add hnpos hfree
  · exact Finset.disjoint_insert_right.mpr ⟨hqf, h.split⟩
  · intro x hx
    rw [Finset.union_insert, Tiles.covered_add hnot] at hx
    exact (howned x).mpr (hx.imp_right (h.owned x))
  · intro x hx
    rcases (howned x).mp hx with ⟨hlow, hhigh⟩ | hx
    · have := hadds.above
      have := hadds.below
      omega
    · exact h.range x hx
  · intro c hc
    have hcq : c ≠ q := fun he => hqf (he ▸ hc)
    rw [update_of_ne hcq, update_of_ne hcq]
    exact h.size_free c hc
  · intro c hc
    rcases Finset.mem_insert.mp hc with rfl | hc
    · rw [update_self, update_self]
      exact ⟨rfl, by simp only [hdrsize]; omega⟩
    · have hcq : c ≠ q := fun he => hql (he ▸ hc)
      rw [update_of_ne hcq, update_of_ne hcq]
      exact h.size_live c hc
  · intro hsmall x hx
    rw [obtained] at hsmall
    rw [Finset.union_insert, Tiles.covered_add hnot]
    exact ((howned x).mp hx).imp_right (h.tiled (by omega) x)

theorem refuse : Layout base ((n, none) :: asked) ptr size free live len := by
  have howned : ∀ x, Owned ((n, none) :: asked) x ↔ Owned asked x := by
    intro x
    constructor
    · rintro ⟨m, r, hmem, hin⟩
      exact ⟨m, r, by simpa using hmem, hin⟩
    · rintro ⟨m, r, hmem, hin⟩
      exact ⟨m, r, List.mem_cons_of_mem _ hmem, hin⟩
  exact ⟨h.circle, h.base_size, h.tiles, h.split, fun x hx => (howned x).mpr (h.owned x hx),
    fun x hx => h.range x ((howned x).mp hx), h.size_free, h.size_live,
    fun hsmall x hx => h.tiled hsmall x ((howned x).mp hx)⟩

end

end Layout

end Xv6Filter.Umalloc
