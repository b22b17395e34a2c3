import Xv6Filter.Proofs.UserMemory

namespace Xv6Filter.Paging
open Lib

structure Resized (m : Ram) (p : Space) (tf : Frame) (m' : Ram) (p' : Space) : Prop where
  first : m'.first = m.first
  trampoline : m'.trampoline = m.trampoline
  held : ∀ w, held w m' p'.pagetable = held w m p.pagetable
  fit : Fit m' p' tf

theorem Resized.refl (hf : Fit m p tf) : Resized m p tf m p := ⟨rfl, rfl, fun _ => rfl, hf⟩

theorem Stable.resized (h : Stable m p m' p') (hf : Fit m p tf) : Resized m p tf m' p' :=
  ⟨h.first, h.trampoline, h.held, h.fit hf⟩

theorem addInt_eq (sz : Nat) (n : I32) : (Ram.addInt sz n : Int) = (sz + n.toInt) % 2 ^ 64 := by
  have hext := BitVec.toInt_signExtend_of_le (x := n) (v := 64) (by decide)
  rw [BitVec.toInt_eq_toNat_cond] at hext
  have hlt := (n.signExtend 64).isLt
  simp only [Ram.addInt, Int.natCast_emod, Int.natCast_add]
  generalize n.toInt = k at *
  generalize (n.signExtend 64).toNat = q at *
  split at hext <;> omega

theorem toInt_range (n : I32) : -2 ^ 31 ≤ n.toInt ∧ n.toInt < 2 ^ 31 := by
  have hlow := BitVec.le_toInt n
  have hhigh := BitVec.toInt_lt (x := n)
  omega

/-- `sz + n` without wrapping, for a request that leaves the size non-negative. -/
theorem addInt_small (hsz : sz ≤ trapframeVa) (h : 0 ≤ (sz : Int) + n.toInt) :
    (Ram.addInt sz n : Int) = sz + n.toInt := by
  have hrange := toInt_range n
  rw [addInt_eq]
  simp only [trapframeVa, trampolineVa, maxva, pgsize] at hsz
  omega

theorem addInt_wrap (hsz : sz ≤ trapframeVa) (h : (sz : Int) + n.toInt < 0) : sz ≤ Ram.addInt sz n := by
  have hrange := toInt_range n
  have heq := addInt_eq sz n
  simp only [trapframeVa, trampolineVa, maxva, pgsize] at hsz
  omega

/-- The change of size of a successful `growproc(n)` or `sbrk(n)`: by `n`, or not at all when `n`
is below `-sz`. -/
def Grew (sz : Nat) (n : I32) (sz' : Nat) : Prop :=
  (0 ≤ (sz : Int) + n.toInt → (sz' : Int) = sz + n.toInt) ∧ ((sz : Int) + n.toInt < 0 → sz' = sz)

theorem Filled.resized (h : Filled m p.pagetable (pages p.sz) (pages newsz) perm m' pt') (hf : Fit m p tf)
    (hnew : newsz ≤ trapframeVa) (hle : p.sz ≤ newsz) : Resized m p tf m' ⟨pt', newsz⟩ := by
  have hpages : pages p.sz ≤ pages newsz := by
    apply Nat.div_le_div_right
    omega
  have hbound := pages_le hnew
  refine ⟨h.took.first, h.took.trampoline, h.held, hf.sound.congr h.took.first h.held, ?_, hnew⟩
  rw [h.took.trampoline]
  refine hf.shape.congr ?_ ?_ (pages_le hf.size)
  · intro va hva hhigh
    exact h.leaf va hva (by omega)
  · intro va hlow hge
    have hva : vpn va < 2 ^ 27 := Nat.lt_trans hlow (by decide)
    dsimp only at hge
    rw [h.leaf va hva (by omega)]
    exact hf.shape.user va hva (by omega) (by omega) (by omega)

theorem Restored.resized (h : Restored m p.pagetable m' pt') (hf : Fit m p tf) :
    Resized m p tf m' { p with pagetable := pt' } :=
  Stable.resized ⟨rfl, h.first, h.trampoline, h.held, fun va hva _ => h.leaf va hva⟩ hf

theorem Unmapped.resized (h : Unmapped m p.pagetable (pages newsz) (pages p.sz) m' pt') (hf : Fit m p tf)
    (hle : newsz ≤ p.sz) : Resized m p tf m' ⟨pt', newsz⟩ := by
  have hbound := pages_le hf.size
  have hpages : pages newsz ≤ pages p.sz := by
    apply Nat.div_le_div_right
    omega
  refine ⟨h.gave.first, h.gave.trampoline, h.held, h.sound hf.sound, ?_, Nat.le_trans hle hf.size⟩
  rw [h.gave.trampoline]
  refine hf.shape.congr ?_ ?_ hbound
  · intro va hva hhigh
    rw [h.leaf va hva, if_neg (by omega)]
  · intro va hlow hge
    have hva : vpn va < 2 ^ 27 := Nat.lt_trans hlow (by decide)
    dsimp only at hge
    rw [h.leaf va hva]
    split
    · rfl
    · exact hf.shape.user va hva (by omega) (by omega) (by omega)

theorem growproc_runs {m : Ram} {p : Space} (hf : Fit m p tf) (n : I32) :
    Runs (m.growproc p n) fun r => Resized m p tf r.2.1 r.2.2 ∧
      if r.1 then Grew p.sz n r.2.2.sz else r.2.2.sz = p.sz := by
  have hbound := pages_le hf.size
  unfold Ram.growproc
  by_cases hpos : 0 < n.toInt
  · have hsum := addInt_small hf.size (n := n) (by omega)
    rw [if_pos hpos]
    by_cases hbig : trapframeVa < Ram.addInt p.sz n
    · rw [if_pos hbig]
      exact ⟨Resized.refl hf, rfl⟩
    · have hnew : Ram.addInt p.sz n ≤ trapframeVa := Nat.not_lt.mp hbig
      have hle : p.sz ≤ Ram.addInt p.sz n := by omega
      rw [if_neg hbig]
      refine (uvmalloc_runs hf.sound hf.size ?_ (.inl (pages_le hnew)) hle true false).bind ?_
      · intro va hva hge hlow
        exact hf.shape.user va hva hge (by omega) (by omega)
      · rintro ⟨sz, m', pt'⟩ (⟨rfl, hfill⟩ | ⟨rfl, hr, -⟩)
        · dsimp only
          rw [if_neg (by omega)]
          exact ⟨hfill.resized hf hnew hle, fun _ => hsum, fun hneg => by omega⟩
        · exact ⟨hr.resized hf, rfl⟩
  · rw [if_neg hpos]
    by_cases hneg : n.toInt < 0
    · rw [if_pos hneg]
      refine (uvmdealloc_runs hf.sound hf.size _).bind ?_
      rintro ⟨sz, m', pt'⟩ ⟨rfl, hu⟩
      by_cases hsmall : 0 ≤ (p.sz : Int) + n.toInt
      · have hsum := addInt_small hf.size hsmall
        have hle : Ram.addInt p.sz n ≤ p.sz := by omega
        dsimp only
        rw [Nat.min_eq_right hle]
        exact ⟨hu.resized hf hle, fun _ => hsum, fun h => by omega⟩
      · have hwrap := addInt_wrap hf.size (Int.not_le.mp hsmall)
        have hpages : pages p.sz ≤ pages (Ram.addInt p.sz n) := by
          apply Nat.div_le_div_right
          omega
        have hsame : Unmapped m p.pagetable (pages p.sz) (pages p.sz) m' pt' := by
          refine ⟨hu.gave, ?_, hu.held, ?_⟩
          · intro va hva
            rw [hu.leaf va hva, if_neg (by omega), if_neg (by omega)]
          · intro f _
            exact hu.data f fun va l _ hge hlt => by omega
        dsimp only
        rw [Nat.min_eq_left hwrap]
        exact ⟨hsame.resized hf (Nat.le_refl _), fun h => absurd h hsmall, fun _ => rfl⟩
    · have hzero : n.toInt = 0 := by omega
      rw [if_neg hneg]
      exact ⟨Resized.refl hf, fun _ => by rw [hzero]; exact (Int.add_zero _).symm, fun _ => rfl⟩

/-- `sys_sbrk` returns the old size and grows by the request, or changes nothing. -/
theorem sysSbrk_runs {m : Ram} {p : Space} (hf : Fit m p tf) (n t : I32) :
    Runs (m.sysSbrk p n t) fun r => Resized m p tf r.2.1 r.2.2 ∧
      match r.1 with
      | none => r.2.2.sz = p.sz
      | some addr => addr = p.sz ∧ Grew p.sz n r.2.2.sz := by
  unfold Ram.sysSbrk
  dsimp only
  by_cases heager : t = Ram.sbrkEager ∨ n.toInt < 0
  · rw [if_pos heager]
    refine (growproc_runs hf n).bind ?_
    rintro ⟨grown, m', p'⟩ ⟨hres, hsz⟩
    cases grown with
    | true => exact ⟨hres, rfl, hsz⟩
    | false => exact ⟨hres, hsz⟩
  · have hsum := addInt_small hf.size (n := n) (by omega)
    rw [if_neg heager]
    by_cases hless : Ram.addInt p.sz n < p.sz
    · rw [if_pos hless]
      exact ⟨Resized.refl hf, rfl⟩
    · rw [if_neg hless]
      by_cases hbig : trapframeVa < Ram.addInt p.sz n
      · rw [if_pos hbig]
        exact ⟨Resized.refl hf, rfl⟩
      · have hle : p.sz ≤ Ram.addInt p.sz n := Nat.not_lt.mp hless
        have hpages : pages p.sz ≤ pages (Ram.addInt p.sz n) := by
          apply Nat.div_le_div_right
          omega
        rw [if_neg hbig]
        refine ⟨⟨rfl, rfl, fun _ => rfl, hf.sound, ?_, Nat.not_lt.mp hbig⟩, rfl, fun _ => hsum, fun h => by omega⟩
        exact ⟨fun va hva hge => hf.shape.user va hva (by dsimp only at hge; omega), hf.shape.trapframe,
          hf.shape.trampoline⟩

end Xv6Filter.Paging
