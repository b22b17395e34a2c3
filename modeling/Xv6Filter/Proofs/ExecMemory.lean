import Xv6Filter.Proofs.Sbrk

namespace Xv6Filter.Paging
open Lib Function

theorem Ram.weight_one (m : Ram) : m.weight (fun _ => 1) = m.free.length := by
  simp [Ram.weight]

theorem field_lt (bs : List Byte) (o n : Nat) : field bs o n < 256 ^ n := by
  have hfold (l : List Byte) : l.foldr (fun b v => b.toNat + 256 * v) 0 < 256 ^ l.length := by
    induction l with
    | nil => exact Nat.one_pos
    | cons b l ih =>
      have hb := b.toNat_lt
      rw [List.foldr_cons, List.length_cons, Nat.pow_succ]
      omega
  have hlen : ((bs.drop o).take n).length ≤ n := List.length_take_le n _
  exact Nat.lt_of_lt_of_le (hfold _) (Nat.pow_le_pow_right (by decide) hlen)

structure Built (m0 : Ram) (sz : Nat) (tf : Frame) (m : Ram) (pt : Table) : Prop where
  first : m.first = m0.first
  trampoline : m.trampoline = m0.trampoline
  held : ∀ w, held w m pt = m0.weight w
  shape : Shaped pt (pages sz) m0.trampoline tf
  size : sz ≤ trapframeVa
  data : ∀ f, f ∉ m0.free → m.data f = m0.data f

structure Returned (m m' : Ram) : Prop where
  first : m'.first = m.first
  trampoline : m'.trampoline = m.trampoline
  weight : ∀ w, m'.weight w = m.weight w
  data : ∀ f, f ∉ m.free → m'.data f = m.data f

theorem Returned.refl (m : Ram) : Returned m m := ⟨rfl, rfl, fun _ => rfl, fun _ _ => rfl⟩

structure Loading (m0 : Ram) (sz : Nat) (tf : Frame) (m : Ram) (pt : Table) : Prop extends
    Built m0 sz tf m pt where
  full : ∀ va, vpn va < pages sz → ∃ l, pt.leaf va = some l ∧ l.perm.u = true

namespace Built

section

variable (h : Built m0 sz tf m pt)

include h

theorem sound (hc : Clean m0) : Sound m pt := hc.sound h.first h.held

theorem mem_free (hf : f ∈ m.free) : f ∈ m0.free := by
  apply Ram.mem_of_weight
  have hone := Ram.one_le_weight hf
  have hheld := h.held (at_ f)
  simp only [Paging.held] at hheld
  omega

theorem leaf_mem (hl : pt.leaf va = some l) (hv : vpn va < trapframeVpn) : l.frame ∈ m0.free := by
  apply Ram.mem_of_weight
  have hone := Table.le_weight (at_ l.frame) hl hv
  have hheld := h.held (at_ l.frame)
  rw [at_self] at hone
  simp only [Paging.held] at hheld
  omega

theorem write (hf : f ∈ m0.free) (o : Nat) (bs : List Byte) : Built m0 sz tf (m.write f o bs) pt := by
  refine ⟨h.first, h.trampoline, h.held, h.shape, h.size, ?_⟩
  intro g hg
  have hne : g ≠ f := by
    rintro rfl
    exact hg hf
  rw [← h.data g hg]
  exact update_of_ne hne ..

theorem free_runs (hc : Clean m0) : Runs (m.procFreepagetable pt sz) (Returned m0) := by
  refine (procFreepagetable_runs (h.sound hc) h.size h.shape).imp ?_
  rintro m' ⟨hgave, hw⟩
  refine ⟨hgave.first.trans h.first, hgave.trampoline.trans h.trampoline, fun w => (hw w).trans (h.held w), ?_⟩
  intro f hf
  have hout := Ram.not_mem_of_weight (fun w => (hw w).trans (h.held w)) hf
  rw [hgave.data f hout, h.data f hf]

end

end Built

namespace Loading

section

variable (h : Loading m0 sz tf m pt)

include h

theorem count : pages sz + m.free.length ≤ m0.free.length := by
  have hheld := h.held fun _ => 1
  have hbound := pages_le h.size
  have hleaves : pages sz ≤ pt.leafWeight fun _ => 1 := by
    calc pages sz = ∑ v ∈ Finset.range (pages sz), 1 := by simp
      _ = ∑ v ∈ Finset.range (pages sz), pt.mapped (fun _ => 1) v := by
        apply Finset.sum_congr rfl
        intro v hv
        obtain ⟨l, hl, -⟩ := h.full (v * pgsize) (by rw [vpn_page]; exact Finset.mem_range.mp hv)
        simp [Table.mapped, hl]
      _ ≤ ∑ v ∈ userVpns, pt.mapped (fun _ => 1) v := by
        apply Finset.sum_le_sum_of_subset
        intro v hv
        exact mem_userVpns.mpr (Nat.lt_of_lt_of_le (Finset.mem_range.mp hv) hbound)
  simp only [Paging.held, Table.weight, Ram.weight_one] at hheld
  omega

theorem page (hva : va < sz) :
    ∃ l, pt.leaf va = some l ∧ pt.walkaddr va = some l.frame ∧ l.frame ∈ m0.free := by
  have hv := vpn_lt_of_lt_sz hva
  have hbound := pages_le h.size
  have hmax : va < maxva := by
    have hsz := h.size
    simp only [trapframeVa, trampolineVa, maxva, pgsize] at *
    omega
  obtain ⟨l, hl, hu⟩ := h.full va hv
  refine ⟨l, hl, ?_, h.leaf_mem hl (by omega)⟩
  simp only [Table.walkaddr, Nat.not_le.mpr hmax, if_false, hl, hu, if_true]

theorem write (hf : f ∈ m0.free) (o : Nat) (bs : List Byte) :
    Loading m0 sz tf (m.write f o bs) pt := ⟨h.toBuilt.write hf o bs, h.full⟩

theorem grown (hf : Filled m pt (pages sz) (pages newsz) ⟨true, w, x, true⟩ m' pt')
    (hnew : newsz ≤ trapframeVa) (hle : sz ≤ newsz) : Loading m0 newsz tf m' pt' := by
  have hpages : pages sz ≤ pages newsz := by
    apply Nat.div_le_div_right
    omega
  have hbound := pages_le hnew
  refine ⟨⟨hf.took.first.trans h.first, hf.took.trampoline.trans h.trampoline, fun w => (hf.held w).trans (h.held w),
    h.shape.congr ?_ ?_ (by omega), hnew, ?_⟩, ?_⟩
  · intro va hva hhigh
    exact hf.leaf va hva (by omega)
  · intro va hlow hge
    have hva : vpn va < 2 ^ 27 := Nat.lt_trans hlow (by decide)
    rw [hf.leaf va hva (by omega)]
    exact h.shape.user va hva (by omega) (by omega) (by omega)
  · intro f hout
    rw [hf.took.data f fun hin => hout (h.mem_free hin), h.data f hout]
  · intro va hlt
    have hva : vpn va < 2 ^ 27 := Nat.lt_of_lt_of_le hlt (Nat.le_trans hbound (by decide))
    by_cases hold : vpn va < pages sz
    · rw [hf.leaf va hva (by omega)]
      exact h.full va hold
    · obtain ⟨l, hl, hperm, -⟩ := hf.new va hva (by omega) hlt
      exact ⟨l, hl, by rw [hperm]⟩

theorem restored (hr : Restored m pt m' pt') : Loading m0 sz tf m' pt' := by
  have hbound := pages_le h.size
  refine ⟨⟨hr.first.trans h.first, hr.trampoline.trans h.trampoline, fun w => (hr.held w).trans (h.held w),
    h.shape.congr ?_ ?_ hbound, h.size, ?_⟩, ?_⟩
  · intro va hva _
    exact hr.leaf va hva
  · intro va hlow hge
    have hva : vpn va < 2 ^ 27 := Nat.lt_trans hlow (by decide)
    rw [hr.leaf va hva]
    exact h.shape.user va hva hge (by omega) (by omega)
  · intro f hout
    rw [hr.data f fun hin => hout (h.mem_free hin), h.data f hout]
  · intro va hlt
    have hva : vpn va < 2 ^ 27 := Nat.lt_of_lt_of_le hlt (Nat.le_trans hbound (by decide))
    rw [hr.leaf va hva]
    exact h.full va hlt

/-- `uvmalloc` of the new table to any 64-bit size: memory runs out before an address does. -/
theorem uvmalloc_runs (hc : Clean m0) (hfew : m0.free.length ≤ physFrames) (newsz : Nat) (w x : Bool) :
    Runs (m.uvmalloc pt sz newsz w x) fun r =>
      (r.1 ≠ 0 ∧ r.1 = max sz newsz ∧ Loading m0 r.1 tf r.2.1 r.2.2 ∧
          ∀ va, pages sz ≤ vpn va → vpn va < pages r.1 →
            ∃ l, r.2.2.leaf va = some l ∧ l.perm = ⟨true, w, x, true⟩) ∨
        (r.1 = 0 ∧ Loading m0 sz tf r.2.1 r.2.2 ∧ (newsz ≠ 0 → m.free.length + 3 * pages sz < 3 * pages newsz)) := by
  by_cases hle : sz ≤ newsz
  · have hcount := h.count
    have hsmall : pages sz + m.free.length ≤ trapframeVpn := by
      have htop : physFrames ≤ trapframeVpn := by decide
      omega
    refine (Paging.uvmalloc_runs (h.sound hc) h.size ?_ (.inr hsmall) hle w x).imp ?_
    · intro va hva hge hlow
      exact h.shape.user va hva hge (by omega) (by omega)
    · rintro ⟨sz', m', pt'⟩ (⟨rfl, hfill⟩ | ⟨rfl, hr, hshort⟩)
      · dsimp only at hfill ⊢
        have hnew : sz' ≤ trapframeVa := by
          have htotal := hfill.count
          simp only [pages, physFrames, trapframeVa, trampolineVa, maxva, pgsize] at *
          omega
        have hgrown := h.grown hfill hnew hle
        by_cases hzero : sz' = 0
        · have hsz : sz = sz' := by omega
          exact .inr ⟨hzero, hsz ▸ hgrown, fun hne => absurd hzero hne⟩
        · refine .inl ⟨hzero, (Nat.max_eq_right hle).symm, hgrown, ?_⟩
          intro va hge hlt
          have hva : vpn va < 2 ^ 27 := Nat.lt_of_lt_of_le hlt (Nat.le_trans (pages_le hnew) (by decide))
          obtain ⟨l, hl, hperm, -⟩ := hfill.new va hva hge hlt
          exact ⟨l, hl, hperm⟩
      · exact .inr ⟨rfl, h.restored hr, fun _ => hshort⟩
  · have hlt : newsz < sz := Nat.not_le.mp hle
    unfold Ram.uvmalloc
    rw [if_pos hlt]
    exact .inl ⟨by dsimp only; omega, (Nat.max_eq_left (Nat.le_of_lt hlt)).symm, h, fun va hge hlt => absurd hlt (Nat.not_lt.mpr hge)⟩

theorem loadsegLoop_runs (hend : va + filesz ≤ sz) (file : List Byte) (offset rounds i : Nat) :
    Runs (Ram.loadsegLoop pt va file offset filesz rounds m i) fun r => Loading m0 sz tf r.2 pt := by
  induction rounds generalizing m i with
  | zero => exact h
  | succ rounds ih =>
    unfold Ram.loadsegLoop
    by_cases hi : filesz ≤ i
    · rw [if_pos hi]
      exact h
    · rw [if_neg hi]
      have hlow : va + i < sz := by omega
      obtain ⟨l, -, hwalk, hmem⟩ := h.page hlow
      rw [hwalk]
      dsimp only
      have hnext := h.write hmem 0 (readFile file ((offset + i) % 2 ^ 32) (min (filesz - i) pgsize))
      split
      · exact hnext
      · exact ih hnext (i + pgsize)

end

theorem segment_end {ph : List Byte} (h : ¬(field ph 16 8 + field ph 40 8) % 2 ^ 64 < field ph 16 8) :
    (field ph 16 8 + field ph 40 8) % 2 ^ 64 = field ph 16 8 + field ph 40 8 := by
  have hv := field_lt ph 16 8
  have hm := field_lt ph 40 8
  have hpow : 256 ^ 8 = 2 ^ 64 := by decide
  rw [hpow] at hv hm
  omega

theorem loadProgram_runs (h : Loading m0 sz tf m pt) (hc : Clean m0) (hfew : m0.free.length ≤ physFrames)
    (file : List Byte) (left off : Nat) :
    Runs (Ram.loadProgram file left m pt sz off) fun r => Loading m0 r.2.1 tf r.2.2.1 r.2.2.2 := by
  induction left generalizing m pt sz off with
  | zero => exact h
  | succ left ih =>
    unfold Ram.loadProgram
    dsimp only
    generalize readFile file off phSize = ph
    split
    · exact h
    · split
      · exact ih h _
      · split
        · exact h
        · split
          · exact h
          · split
            · exact h
            · rename_i _ _ hmemsz hwrap hal
              rw [segment_end hwrap]
              refine (h.uvmalloc_runs hc hfew _ _ _).bind ?_
              rintro ⟨sz', m', pt'⟩ (⟨hne, hmax, hl, -⟩ | ⟨rfl, hl, -⟩)
              · dsimp only at hne hmax hl ⊢
                rw [if_neg hne]
                have hfit : field ph 16 8 + field ph 32 8 % 2 ^ 32 ≤ sz' := by
                  have := Nat.mod_le (field ph 32 8) (2 ^ 32)
                  omega
                refine (hl.loadsegLoop_runs hfit file _ _ 0).bind ?_
                rintro ⟨loaded, m''⟩ hl'
                cases loaded with
                | true => exact ih hl' _
                | false => exact hl'
              · exact hl

end Loading

/-- The new table with its stack page at `base`, the last one, in frame `f`, and the guard page
under it. -/
structure Stacked (m0 : Ram) (base : Nat) (tf f : Frame) (m : Ram) (pt : Table) : Prop extends
    Built m0 (base + pgsize) tf m pt where
  aligned : base % pgsize = 0
  room : pgsize ≤ base
  stack : ∃ l, pt.leaf base = some l ∧ l.frame = f ∧ l.perm.u = true ∧ l.perm.w = true
  guard : ∃ l, pt.leaf (base - pgsize) = some l ∧ l.perm.u = false

theorem copyout_other {m : Ram} {pt : Table} (p : Space) (src : List Byte) (hl : pt.leaf va = some l)
    (hu : l.perm.u = true) (hw : l.perm.w = true) (hva : va < maxva) (hfit : va % pgsize + src.length ≤ pgsize)
    (hne : src ≠ []) :
    m.copyout p (some pt) va src = .ok (true, m.write l.frame (va % pgsize) src, p) := by
  obtain ⟨n, hn⟩ := Nat.exists_eq_succ_of_ne_zero (fun h => hne (List.eq_nil_of_length_eq_zero h))
  have hpage : vpn (vpn va * pgsize) = vpn va := vpn_page _
  have hmax : vpn va * pgsize < maxva := by
    have := split_address va
    omega
  have hl' : pt.leaf (vpn va * pgsize) = some l := (Table.leaf_congr hpage pt).trans hl
  have hwalk : pt.walk (vpn va * pgsize) = .ok (some (some l)) := by
    rw [Table.walk_eq hmax]
    obtain ⟨n0, hn0⟩ := Option.isSome_iff_exists.mp (Table.node_of_leaf hl')
    simp only [Table.leaf, hn0, Option.bind_some] at hl'
    rw [hn0, Option.map_some, hl']
  have haddr : pt.walkaddr (vpn va * pgsize) = some l.frame := by
    simp only [Table.walkaddr, Nat.not_le.mpr hmax, if_false, hl', hu, if_true]
  have hoff : va - vpn va * pgsize = va % pgsize := by
    have := split_address va
    omega
  have hmin : min (pgsize - va % pgsize) src.length = src.length := by omega
  unfold Ram.copyout
  rw [hn, Nat.succ_eq_add_one]
  unfold Ram.copyoutLoop
  rw [if_neg (by omega)]
  dsimp only
  rw [pgrounddown_eq, if_neg (Nat.not_le.mpr hmax)]
  simp only [Ram.userPage, Option.getD_some, haddr, ok_bind, hwalk, Option.any_some, hw, Bool.true_eq_false,
    if_false, hoff, hmin, List.take_length, List.drop_length]
  cases n <;> simp [Ram.copyoutLoop]

def room16 (n : Nat) : Nat := (n + 15) / 16 * 16

def stringSpace (argv : List (List Byte)) : Nat := (argv.map fun arg => room16 (arg.length + 1)).sum

/-- The strings `argv` are at the addresses `as` of the stack page, each below the one before,
from `sp` down to `sp'`. -/
inductive Strings (m : Ram) (f : Frame) (base : Nat) : Nat → List (List Byte) → List Nat → Nat → Prop
  | nil : Strings m f base sp [] [] sp
  | cons : base ≤ a → a + room16 (arg.length + 1) = sp → m.read f (a - base) (arg.length + 1) = arg ++ [0] →
      Strings m f base a argv as sp' → Strings m f base sp (arg :: argv) (a :: as) sp'

structure PushedBelow (f : Frame) (base sp : Nat) (m m' : Ram) : Prop where
  other : ∀ g, g ≠ f → m'.data g = m.data g
  above : ∀ o, sp ≤ base + o → m'.data f o = m.data f o

theorem PushedBelow.refl (f : Frame) (base sp : Nat) (m : Ram) : PushedBelow f base sp m m :=
  ⟨fun _ _ => rfl, fun _ _ => rfl⟩

theorem PushedBelow.trans (h : PushedBelow f base sp m m1) (h' : PushedBelow f base sp' m1 m') (hle : sp' ≤ sp) :
    PushedBelow f base sp m m' :=
  ⟨fun g hg => (h'.other g hg).trans (h.other g hg),
    fun o ho => (h'.above o (Nat.le_trans hle ho)).trans (h.above o ho)⟩

theorem PushedBelow.write (m : Ram) (hlow : base ≤ a) (hhigh : a + bs.length ≤ sp) :
    PushedBelow f base sp m (m.write f (a - base) bs) := by
  constructor
  · intro g hg
    simp only [Ram.write, update_of_ne hg]
  · intro o ho
    simp only [Ram.write, update_self]
    exact splice_after _ _ (by omega)

theorem Ram.read_write (m : Ram) (f : Frame) (o : Nat) (bs : List Byte) : (m.write f o bs).read f o bs.length = bs := by
  simp only [Ram.read, Ram.write, update_self]
  exact slice_splice ..

theorem Strings.kept (h : Strings m f base sp argv as sp') (hp : PushedBelow f base low m m') (hle : low ≤ sp') :
    Strings m' f base sp argv as sp' ∧ sp' ≤ sp := by
  induction h with
  | nil => exact ⟨.nil, Nat.le_refl _⟩
  | cons hlow hroom hread hrest ih =>
    obtain ⟨hrest', hdown⟩ := ih hle
    refine ⟨.cons hlow hroom ?_ hrest', by omega⟩
    rw [← hread]
    apply slice_congr
    intro i _
    exact hp.above _ (by omega)

theorem Strings.space (h : Strings m f base sp argv as sp') :
    as.length = argv.length ∧ sp' + stringSpace argv = sp ∧ (base ≤ sp → base ≤ sp') ∧
      (sp % 16 = 0 → sp' % 16 = 0) := by
  induction h with
  | nil => exact ⟨rfl, rfl, id, id⟩
  | cons hlow hroom _ _ ih =>
    obtain ⟨hlength, hspace, hbase, halign⟩ := ih
    refine ⟨by rw [List.length_cons, List.length_cons, hlength], ?_, fun _ => hbase hlow, ?_⟩
    · simp only [stringSpace, List.map_cons, List.sum_cons] at *
      omega
    · intro hsp
      apply halign
      simp only [room16] at hroom
      omega

theorem Strings.get {i : Nat} (h : Strings m f base sp argv as sp') (harg : argv[i]? = some arg) (ha : as[i]? = some a) :
    base ≤ a ∧ a + (arg.length + 1) ≤ sp ∧ sp' ≤ a ∧ m.read f (a - base) (arg.length + 1) = arg ++ [0] := by
  induction h generalizing i with
  | nil => cases harg
  | @cons b s arg' argv' as' sp' hlow hroom hread hrest ih =>
    have hround : arg'.length + 1 ≤ room16 (arg'.length + 1) := by
      simp only [room16]
      omega
    cases i with
    | zero =>
      cases harg
      cases ha
      have hdown := hrest.space.2.1
      exact ⟨hlow, by omega, by omega, hread⟩
    | succ i =>
      obtain ⟨hbase, hup, hdown, hr⟩ := ih harg ha
      exact ⟨hbase, by omega, hdown, hr⟩

theorem Strings.descends {i j : Nat} (h : Strings m f base sp argv as sp') (hij : i < j) (ha : as[i]? = some a) (hb : as[j]? = some b)
    (harg : argv[j]? = some arg) : b + (arg.length + 1) ≤ a := by
  induction h generalizing i j with
  | nil => cases ha
  | cons hlow hroom hread hrest ih =>
    cases j with
    | zero => exact absurd hij (Nat.not_lt_zero _)
    | succ j =>
      cases i with
      | zero =>
        cases ha
        exact (hrest.get harg hb).2.1
      | succ i => exact ih (Nat.lt_of_succ_lt_succ hij) ha hb harg

namespace Stacked

theorem push (h : Stacked m0 base tf f m pt) (p : Space) (src : List Byte) (hlow : base ≤ sp)
    (hhigh : sp + src.length ≤ base + pgsize) (hne : src ≠ []) :
    m.copyout p (some pt) sp src = .ok (true, m.write f (sp - base) src, p) ∧
      Stacked m0 base tf f (m.write f (sp - base) src) pt := by
  have hpos : 0 < src.length := List.length_pos_of_ne_nil hne
  have hal := h.aligned
  have hsize := h.size
  obtain ⟨l, hl, rfl, hu, hw⟩ := h.stack
  have hsame : vpn sp = vpn base := by
    simp only [vpn, pgsize] at *
    omega
  have hlow' : vpn base < trapframeVpn := by
    simp only [vpn, trapframeVpn, trapframeVa, trampolineVa, maxva, pgsize] at *
    omega
  have hmax : sp < maxva := by
    simp only [trapframeVa, trampolineVa, maxva, pgsize] at *
    omega
  have hfit : sp % pgsize + src.length ≤ pgsize := by
    simp only [pgsize] at *
    omega
  have hoff : sp % pgsize = sp - base := by
    simp only [pgsize] at *
    omega
  have hcopy := copyout_other (m := m) p src ((Table.leaf_congr hsame pt).trans hl) hu hw hmax hfit hne
  rw [hoff] at hcopy
  exact ⟨hcopy, h.toBuilt.write (h.leaf_mem hl hlow') _ _, hal, h.room, ⟨l, hl, rfl, hu, hw⟩, h.guard⟩

theorem lowerSp_room (h : Stacked m0 base tf f m pt) (hlow : base ≤ sp) (hhigh : sp ≤ base + pgsize)
    (hal : sp % 16 = 0) (hn : n ≤ pgsize) : Ram.lowerSp sp n + room16 n = sp := by
  have hroom := h.room
  have hsize := h.size
  simp only [Ram.lowerSp, room16, trapframeVa, trampolineVa, maxva, pgsize] at *
  omega

theorem pushArgs_runs (h : Stacked m0 base tf f m pt) (p : Space) (argv : List (List Byte))
    (hargs : ∀ arg ∈ argv, arg.length < pgsize) (ustack : List Nat) (hfew : ustack.length + argv.length < maxarg)
    (hlow : base ≤ sp) (hhigh : sp ≤ base + pgsize) (hal : sp % 16 = 0) :
    Runs (Ram.pushArgs pt base argv m p sp ustack) fun r =>
      r.2.2 = p ∧ Stacked m0 base tf f r.2.1 pt ∧ PushedBelow f base sp m r.2.1 ∧
        match r.1 with
        | none => sp < base + stringSpace argv
        | some (sp', us) => ∃ as, us = ustack ++ as ∧ Strings r.2.1 f base sp argv as sp' := by
  induction argv generalizing m sp ustack with
  | nil => exact ⟨rfl, h, .refl f base sp m, [], (List.append_nil _).symm, .nil⟩
  | cons arg argv ih =>
    have hlen := hargs arg List.mem_cons_self
    have hsp := h.lowerSp_room (n := arg.length + 1) hlow hhigh hal hlen
    have hround : arg.length + 1 ≤ room16 (arg.length + 1) ∧ room16 (arg.length + 1) % 16 = 0 := by
      simp only [room16]
      omega
    rw [List.length_cons] at hfew
    unfold Ram.pushArgs
    dsimp only
    generalize Ram.lowerSp sp (arg.length + 1) = a at hsp
    rw [if_neg (by omega)]
    by_cases hbelow : a < base
    · rw [if_pos hbelow]
      refine ⟨rfl, h, .refl f base sp m, ?_⟩
      simp only [stringSpace, List.map_cons, List.sum_cons]
      omega
    · have hbelow := Nat.not_lt.mp hbelow
      have hlength : (arg ++ [0]).length = arg.length + 1 := by simp
      obtain ⟨hcopy, hs1⟩ := h.push p (arg ++ [0]) hbelow (by rw [hlength]; omega) (by simp)
      rw [if_neg (Nat.not_lt.mpr hbelow), hcopy, ok_bind]
      dsimp only
      rw [if_pos rfl]
      have hwritten : PushedBelow f base sp m (m.write f (a - base) (arg ++ [0])) :=
        .write m hbelow (by rw [hlength]; omega)
      refine (ih hs1 (fun b hb => hargs b (List.mem_cons_of_mem _ hb)) (ustack ++ [a]) ?_ hbelow (by omega)
        (by omega)).imp ?_
      · rw [List.length_append, List.length_singleton]
        omega
      · rintro ⟨pushed, m', p'⟩ ⟨rfl, hs', hpushed, hresult⟩
        dsimp only at hs' hpushed hresult ⊢
        refine ⟨rfl, hs', hwritten.trans hpushed (by omega), ?_⟩
        cases pushed with
        | none =>
          dsimp only at hresult ⊢
          simp only [stringSpace, List.map_cons, List.sum_cons] at *
          omega
        | some r =>
          obtain ⟨as, hus, hstrings⟩ := hresult
          refine ⟨a :: as, by rw [hus, List.append_assoc]; rfl, .cons hbelow hsp ?_ hstrings⟩
          have hread := Ram.read_write m f (a - base) (arg ++ [0])
          rw [hlength] at hread
          rw [← hread]
          apply slice_congr
          intro i _
          exact hpushed.above _ (by omega)

end Stacked

/-- The arguments on the stack page: the strings, and under them the array of their addresses. -/
structure ArgsPlaced (m : Ram) (f : Frame) (base : Nat) (argv : List (List Byte)) (as : List Nat) (sp : Nat) : Prop where
  strings : ∃ sp', Strings m f base (base + pgsize) argv as sp' ∧ sp + room16 ((argv.length + 1) * 8) = sp'
  low : base ≤ sp
  array : m.read f (sp - base) ((argv.length + 1) * 8) = (as ++ [0]).flatMap Ram.word

def argSpace (argv : List (List Byte)) : Nat := stringSpace argv + room16 ((argv.length + 1) * 8)

theorem Stacked.pushArgv_runs (h : Stacked m0 base tf f m pt) (p : Space) (argv : List (List Byte))
    (hargs : ∀ arg ∈ argv, arg.length < pgsize) (hfew : argv.length < maxarg) :
    Runs (m.pushArgv p pt base (base + pgsize) argv) fun r =>
      r.2.2 = p ∧ Stacked m0 base tf f r.2.1 pt ∧ PushedBelow f base (base + pgsize) m r.2.1 ∧
        match r.1 with
        | none => pgsize < argSpace argv
        | some (argc, sp) => argc = argv.length ∧ ∃ as, ArgsPlaced r.2.1 f base argv as sp := by
  have hal : (base + pgsize) % 16 = 0 := by
    have := h.aligned
    simp only [pgsize] at *
    omega
  unfold Ram.pushArgv
  refine (h.pushArgs_runs p argv hargs [] (by simpa using hfew) (Nat.le_add_right ..) (Nat.le_refl _) hal).bind ?_
  rintro ⟨pushed, m', p'⟩ ⟨rfl, h', hpushed, hresult⟩
  dsimp only at h' hpushed hresult
  cases pushed with
  | none =>
    refine ⟨rfl, h', hpushed, ?_⟩
    dsimp only at hresult ⊢
    simp only [argSpace]
    omega
  | some r =>
    obtain ⟨sp', us⟩ := r
    obtain ⟨as, hus, hstrings⟩ := hresult
    obtain ⟨hcount, hspace, hbase, hal'⟩ := hstrings.space
    have hbase := hbase (Nat.le_add_right ..)
    have hwords : ((as ++ [0]).flatMap Ram.word).length = (argv.length + 1) * 8 := by
      simp [List.length_flatMap, Ram.word, Nat.add_mul, hcount]
    have hle : (argv.length + 1) * 8 ≤ pgsize := by
      simp only [maxarg, pgsize] at *
      omega
    have hround : (argv.length + 1) * 8 ≤ room16 ((argv.length + 1) * 8) := by
      simp only [room16]
      omega
    have hsp := h'.lowerSp_room hbase (by omega) (hal' hal) hle
    dsimp only
    rw [hus, List.nil_append, if_neg (by omega), hcount]
    generalize Ram.lowerSp sp' ((argv.length + 1) * 8) = sp at hsp
    by_cases hbelow : sp < base
    · rw [if_pos hbelow]
      refine ⟨rfl, h', hpushed, ?_⟩
      simp only [argSpace]
      omega
    · have hbelow := Nat.not_lt.mp hbelow
      obtain ⟨hcopy, hs1⟩ := h'.push p' ((as ++ [0]).flatMap Ram.word) hbelow (by rw [hwords]; omega)
        (List.ne_nil_of_length_pos (by rw [hwords]; omega))
      have hwritten : PushedBelow f base sp' m' (m'.write f (sp - base) ((as ++ [0]).flatMap Ram.word)) :=
        .write m' hbelow (by rw [hwords]; omega)
      rw [if_neg (Nat.not_lt.mpr hbelow), hcopy, ok_bind]
      refine ⟨rfl, hs1, hpushed.trans hwritten (by omega), rfl, as, ⟨sp', ?_, hsp⟩, hbelow, ?_⟩
      · exact (hstrings.kept hwritten (Nat.le_refl _)).1
      · rw [← hwords]
        exact Ram.read_write ..

theorem uvmclear_runs {pt : Table} (hl : pt.leaf va = some l) (hlow : vpn va < trapframeVpn) (hva : va < maxva) :
    Runs (pt.uvmclear va) fun pt' => (∀ w, pt'.weight w = pt.weight w) ∧
      ∀ va', vpn va' < 2 ^ 27 → pt'.leaf va' =
        if vpn va' = vpn va then some { l with perm := { l.perm with u := false } } else pt.leaf va' := by
  have hnode := Table.node_of_leaf hl
  obtain ⟨n0, hn0⟩ := Option.isSome_iff_exists.mp hnode
  have hpte : n0.pte (px 0 va) = some l := by
    simpa only [Table.leaf, hn0, Option.bind_some] using hl
  unfold Table.uvmclear
  rw [Table.walk_eq hva, ok_bind, hn0, Option.map_some, hpte]
  refine ⟨?_, ?_⟩
  · intro w
    have hset := Table.weight_setLeaf w hnode hlow (some { l with perm := { l.perm with u := false } })
    rw [hl] at hset
    simp only [Option.elim_some] at hset
    exact Nat.add_right_cancel hset
  · intro va' hva'
    exact Table.leaf_setLeaf hnode (Nat.lt_trans hlow (by decide)) hva' _

theorem Loading.guard_runs (h : Loading m0 (base + pgsize) tf m pt) (hbase : base = (k + 1) * pgsize)
    (hnew : ∀ va, k ≤ vpn va → vpn va < k + 2 → ∃ l, pt.leaf va = some l ∧ l.perm = ⟨true, true, false, true⟩) :
    Runs (pt.uvmclear (k * pgsize)) fun pt' => ∃ l, pt.leaf base = some l ∧ Stacked m0 base tf l.frame m pt' := by
  have hpage : vpn base = k + 1 := by
    rw [hbase, vpn_page]
  have htop : pages (base + pgsize) = k + 2 := by
    rw [hbase, next_page]
    exact pages_page _
  have hbound := pages_le h.size
  obtain ⟨lg, hlg, -⟩ := hnew (k * pgsize) (by rw [vpn_page]) (by rw [vpn_page]; omega)
  obtain ⟨ls, hls, hlsp⟩ := hnew base (by rw [hpage]; omega) (by rw [hpage]; omega)
  have hlow : vpn (k * pgsize) < trapframeVpn := by
    rw [vpn_page]
    omega
  have hva : k * pgsize < maxva := by
    simp only [trapframeVpn, trapframeVa, trampolineVa, maxva, pgsize] at *
    omega
  refine (uvmclear_runs hlg hlow hva).imp ?_
  rintro pt' ⟨hw, hleaf⟩
  refine ⟨ls, hls, ⟨h.first, h.trampoline, ?_, h.shape.congr ?_ ?_ hbound, h.size, h.data⟩, ?_, ?_, ?_, ?_⟩
  · intro w
    rw [← h.held w]
    simp only [held, hw]
  · intro va hva hhigh
    rw [hleaf va hva, if_neg (by omega)]
  · intro va hlt hge
    have hva : vpn va < 2 ^ 27 := Nat.lt_trans hlt (by decide)
    rw [hleaf va hva, vpn_page, if_neg (by omega)]
    exact h.shape.user va hva hge (by omega) (by omega)
  · rw [hbase]
    exact Nat.mul_mod_left ..
  · rw [hbase]
    exact Nat.le_mul_of_pos_left _ (Nat.succ_pos _)
  · have hva : vpn base < 2 ^ 27 := by
      rw [hpage]
      exact Nat.lt_of_lt_of_le (by omega) (Nat.le_trans hbound (by decide))
    refine ⟨ls, ?_, rfl, by rw [hlsp], by rw [hlsp]⟩
    rw [hleaf _ hva, vpn_page, hpage, if_neg (by omega)]
    exact hls
  · have hguard : base - pgsize = k * pgsize := by
      rw [hbase, ← next_page, Nat.add_sub_cancel]
    rw [hguard]
    exact ⟨_, (hleaf _ (Nat.lt_trans hlow (by decide))).trans (if_pos rfl), rfl⟩

/-- The stack that `kexec` made in `m1`: two pages on top of the program, the lower one without
PTE_U, and the arguments on the upper one; or there was no memory, or no room for the arguments. -/
def StackMade (m0 m1 : Ram) (sz : Nat) (tf : Frame) (argv : List (List Byte)) (pushed : Option (Nat × Nat))
    (sz' : Nat) (m : Ram) (pt : Table) : Prop :=
  match pushed with
  | none => pgsize < argSpace argv ∨ m1.free.length < 3 * (userstack + 1)
  | some (argc, sp) => argc = argv.length ∧ sz' = pages sz * pgsize + (userstack + 1) * pgsize ∧
      ∃ f as, Stacked m0 (sz' - pgsize) tf f m pt ∧ ArgsPlaced m f (sz' - pgsize) argv as sp

def StackOnly (m : Ram) (pt : Table) (sz : Nat) (m' : Ram) : Prop :=
  ∃ sz1 m1 pt1, m.uvmalloc pt (pgroundup sz) (pgroundup sz + (userstack + 1) * pgsize) true false = .ok (sz1, m1, pt1) ∧
    (m' = m1 ∨ ∃ l, pt1.leaf (sz1 - userstack * pgsize) = some l ∧ ∀ g, g ≠ l.frame → m'.data g = m1.data g)

/-- The stack is made in pages that were free, and nothing but its upper page is written. -/
theorem buildStack_runs (h : Loading m0 sz tf m pt) (hc : Clean m0) (hfew : m0.free.length ≤ physFrames)
    (p : Space) (argv : List (List Byte)) (hargs : ∀ arg ∈ argv, arg.length < pgsize) (hmany : argv.length < maxarg) :
    Runs (m.buildStack p pt sz argv) fun r =>
      r.2.2.2.1 = p ∧ Built m0 r.2.1 tf r.2.2.1 r.2.2.2.2 ∧ StackMade m0 m sz tf argv r.1 r.2.1 r.2.2.1 r.2.2.2.2 ∧
        StackOnly m pt sz r.2.2.1 := by
  have hround : pgroundup sz = pages sz * pgsize := pgroundup_eq h.size
  have hpages : pages (pages sz * pgsize) = pages sz := pages_page _
  have hcount := h.count
  have hsize : pages sz * pgsize ≤ trapframeVa := by
    simp only [pages, physFrames, trapframeVa, trampolineVa, maxva, pgsize] at *
    omega
  have hrounded : Loading m0 (pages sz * pgsize) tf m pt :=
    ⟨⟨h.first, h.trampoline, h.held, by rw [hpages]; exact h.shape, hsize, h.data⟩, by rw [hpages]; exact h.full⟩
  unfold Ram.buildStack
  rw [hround]
  obtain ⟨⟨sz', m', pt'⟩, hrun, hgrown⟩ :=
    (hrounded.uvmalloc_runs hc hfew (pages sz * pgsize + (userstack + 1) * pgsize) true false).result
  dsimp only
  rw [hrun, ok_bind]
  rcases hgrown with ⟨hne, hmax, hl, hperm⟩ | ⟨rfl, hl, hshort⟩
  · dsimp only at hne hmax hl hperm ⊢
    have htwo : (userstack + 1) * pgsize = pgsize + pgsize := by decide
    have hsz' : sz' = (pages sz + 1) * pgsize + pgsize := by
      rw [hmax, Nat.max_eq_right (Nat.le_add_right ..), htwo, ← next_page, Nat.add_assoc]
    have hguard : sz' - (userstack + 1) * pgsize = pages sz * pgsize := by
      rw [hsz', ← next_page, htwo, Nat.add_assoc, Nat.add_sub_cancel]
    have hupper : sz' - userstack * pgsize = (pages sz + 1) * pgsize := by
      rw [hsz', Nat.one_mul, Nat.add_sub_cancel]
    have htop : pages sz' = pages sz + 2 := by
      rw [hsz', next_page]
      exact pages_page _
    rw [hpages, htop] at hperm
    rw [if_neg hne, hguard, hupper]
    rw [hsz'] at hl
    refine (hl.guard_runs rfl hperm).bind ?_
    rintro pt2 ⟨l, hstack, hstacked⟩
    have hbase : (pages sz + 1) * pgsize + pgsize - pgsize = (pages sz + 1) * pgsize := Nat.add_sub_cancel ..
    rw [hsz']
    refine (hstacked.pushArgv_runs p argv hargs hmany).bind ?_
    rintro ⟨pushed, m3, p3⟩ ⟨rfl, hs3, hpushed, hresult⟩
    dsimp only at hs3 hresult hpushed
    have honly : StackOnly m pt sz m3 := by
      rw [hsz'] at hrun
      refine ⟨_, m', pt', by rw [hround]; exact hrun, .inr ⟨l, ?_, hpushed.other⟩⟩
      rw [Nat.one_mul, hbase]
      exact hstack
    refine ⟨rfl, hs3.toBuilt, ?_, honly⟩
    cases pushed with
    | none => exact .inl hresult
    | some r =>
      obtain ⟨hargc, as, hplaced⟩ := hresult
      refine ⟨hargc, ?_, l.frame, as, ?_⟩
      · dsimp only
        rw [htwo, ← next_page, Nat.add_assoc]
      · dsimp only
        rw [hbase]
        exact ⟨hs3, hplaced⟩
  · refine ⟨rfl, hl.toBuilt, .inr ?_, 0, m', pt', by rw [hround]; exact hrun, .inl rfl⟩
    have hstack : 0 < (userstack + 1) * pgsize := by decide
    have hshort := hshort (by omega)
    rw [hpages, ← Nat.add_mul, pages_page] at hshort
    omega

end Xv6Filter.Paging
