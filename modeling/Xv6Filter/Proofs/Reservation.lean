import Mathlib.Algebra.Order.BigOperators.Group.List
import Mathlib.Algebra.Order.Group.Nat
import Mathlib.Data.Finset.Card
import Xv6Filter.Proofs.GroupCommit

namespace Xv6Filter.Proofs
open Lib Function

variable {P : Type} [DecidableEq P] {m m' : Group P}

def opBlocks (recorded : List (OpId × Nat)) (op : OpId) : Finset Nat :=
  ((recorded.filter fun x => decide (x.1 = op)).map Prod.snd).toFinset

theorem mem_opBlocks : b ∈ opBlocks recorded op ↔ (op, b) ∈ recorded := by
  simp only [opBlocks, List.mem_toFinset, List.mem_map, List.mem_filter, decide_eq_true_eq]
  constructor
  · rintro ⟨⟨_, _⟩, ⟨hx, rfl⟩, rfl⟩
    exact hx
  · exact fun h => ⟨(op, b), ⟨h, rfl⟩, rfl⟩

def WithinBudget (m : Group P) : LogEvent P → Prop
  | .logWrite p i =>
    match m.pc p with
    | .inOp op => (insert (m.cache.buf i).blockno (opBlocks m.recorded op)).card ≤ maxopblocks
    | _ => True
  | _ => True

/-- A block that the header has already is not logged again while the header is full. -/
def NoRepeatWhenFull (m : Group P) : LogEvent P → Prop
  | .logWrite _ i => (m.cache.buf i).blockno ∈ m.lh → m.lh.length < logblocks
  | _ => True

instance (e : LogEvent P) : Decidable (WithinBudget m e) := by
  unfold WithinBudget
  split
  · split <;> infer_instance
  · infer_instance

def left (recorded : List (OpId × Nat)) : Lpc → Nat
  | .inOp op => maxopblocks - (opBlocks recorded op).card
  | _ => 0

def Reserved (lh : List Nat) (recorded : List (OpId × Nat)) (pc : P → Lpc) (active : List P) : Prop :=
  lh.length + (active.map fun p => left recorded (pc p)).sum ≤ logblocks

theorem left_le (recorded : List (OpId × Nat)) (c : Lpc) : left recorded c ≤ maxopblocks := by
  unfold left
  split <;> omega

omit [DecidableEq P] in
theorem sum_left_le (recorded : List (OpId × Nat)) (pc : P → Lpc) (active : List P) :
    (active.map fun p => left recorded (pc p)).sum ≤ active.length * maxopblocks := by
  have h := List.sum_le_card_nsmul (active.map fun p => left recorded (pc p)) maxopblocks (by
    intro x hx
    obtain ⟨p, _, rfl⟩ := List.mem_map.mp hx
    exact left_le recorded (pc p))
  simpa using h

theorem left_snoc_le (recorded : List (OpId × Nat)) (x : OpId × Nat) (c : Lpc) :
    left (recorded ++ [x]) c ≤ left recorded c := by
  cases c with
  | inOp op =>
    have hsub : opBlocks recorded op ⊆ opBlocks (recorded ++ [x]) op := by
      intro b hb
      exact mem_opBlocks.mpr (List.mem_append_left _ (mem_opBlocks.mp hb))
    have := Finset.card_le_card hsub
    simp only [left]
    omega
  | _ => exact Nat.le_refl _

theorem left_snoc_lt (hb : (op, b) ∉ recorded)
    (hle : (insert b (opBlocks recorded op)).card ≤ maxopblocks) :
    left (recorded ++ [(op, b)]) (.inOp op) + 1 ≤ left recorded (.inOp op) := by
  have hmem : b ∉ opBlocks recorded op := fun h => hb (mem_opBlocks.mp h)
  have heq : opBlocks (recorded ++ [(op, b)]) op = insert b (opBlocks recorded op) := by
    ext c
    simp [mem_opBlocks, or_comm]
  rw [Finset.card_insert_of_notMem hmem] at hle
  simp only [left, heq, Finset.card_insert_of_notMem hmem]
  omega

namespace Reserved

variable {lh : List Nat} {recorded : List (OpId × Nat)} {pc : P → Lpc} {active : List P}

omit [DecidableEq P] in
theorem length_le (hr : Reserved lh recorded pc active) : lh.length ≤ logblocks := by
  unfold Reserved at hr
  omega

omit [DecidableEq P] in
theorem room (hr : Reserved lh recorded pc active) (hp : p ∈ active)
    (hl : 0 < left recorded (pc p)) : lh.length < logblocks := by
  have hle := List.single_le_sum (l := active.map fun p => left recorded (pc p))
    (fun x _ => Nat.zero_le x) _ (List.mem_map_of_mem hp)
  unfold Reserved at hr
  omega

omit [DecidableEq P] in
theorem absorb (hr : Reserved lh recorded pc active) (x : OpId × Nat) :
    Reserved lh (recorded ++ [x]) pc active := by
  have hle : (active.map fun p => left (recorded ++ [x]) (pc p)).sum ≤
      (active.map fun p => left recorded (pc p)).sum :=
    List.sum_le_sum fun p _ => left_snoc_le recorded x (pc p)
  unfold Reserved at hr ⊢
  omega

omit [DecidableEq P] in
theorem snoc (hr : Reserved lh recorded pc active) (hp : p ∈ active) (hpc : pc p = .inOp op)
    (hb : (op, b) ∉ recorded) (hle : (insert b (opBlocks recorded op)).card ≤ maxopblocks) :
    Reserved (lh ++ [b]) (recorded ++ [(op, b)]) pc active := by
  have hlt : (active.map fun p => left (recorded ++ [(op, b)]) (pc p)).sum <
      (active.map fun p => left recorded (pc p)).sum := by
    apply List.sum_lt_sum _ _ fun q _ => left_snoc_le recorded (op, b) (pc q)
    refine ⟨p, hp, ?_⟩
    rw [hpc]
    exact left_snoc_lt hb hle
  unfold Reserved at hr ⊢
  rw [List.length_append, List.length_singleton]
  omega

/-- The admission test of `begin_op` reserves for the new operation too. -/
theorem begin (c : Lpc)
    (hroom : lh.length + (active.length + 1) * maxopblocks ≤ logblocks) :
    Reserved lh recorded (update pc p c) (p :: active) := by
  have hle := sum_left_le recorded (update pc p c) (p :: active)
  unfold Reserved
  rw [List.length_cons] at hle
  omega

theorem leave (hr : Reserved lh recorded pc active) (hn : active.Nodup) (p : P) (c : Lpc) :
    Reserved lh recorded (update pc p c) (active.erase p) := by
  have hsame : (active.erase p).map (fun q => left recorded (update pc p c q)) =
      (active.erase p).map fun q => left recorded (pc q) := by
    apply List.map_congr_left
    intro q hq
    rw [update_of_ne (hn.mem_erase_iff.mp hq).1]
  have hle := ((List.erase_sublist (a := p) (l := active)).map fun q => left recorded (pc q)).sum_le_sum
    fun x _ => Nat.zero_le x
  unfold Reserved at hr ⊢
  rw [hsame]
  omega

omit [DecidableEq P] in
theorem settled (hl : lh.length ≤ logblocks) : Reserved lh recorded pc [] := by
  simpa [Reserved] using hl

end Reserved

def Roomy (m : Group P) : Prop := Reserved m.lh m.recorded m.pc m.active

theorem beginOp_roomy (hm : GroupOk start m) (hb : m.beginOp p = some m') :
    Roomy m' ∧ m'.halted = m.halted := by
  unfold Group.beginOp at hb
  split at hb
  · cases hb
  split at hb
  · cases hb
  rename_i hroom
  have hfits : m.lh.length + (m.active.length + 1) * maxopblocks ≤ logblocks := by
    rw [hm.control.count] at hroom
    simp only [maxopblocks, logblocks] at hroom ⊢
    omega
  cases hb
  exact ⟨Reserved.begin _ hfits, rfl⟩

theorem endOp_roomy (hm : GroupOk start m) (hr : Roomy m) (hp : m.pc p = .inOp op) :
    Roomy (m.endOp p) ∧ (m.endOp p).halted = m.halted := by
  have hleave := hr.leave hm.control.nodup p
  unfold Group.endOp
  simp only [hm.control.idle_of_inOp hp, Bool.false_eq_true, ↓reduceIte]
  split
  · exact ⟨hleave .commit, rfl⟩
  · exact ⟨hleave .idle, rfl⟩

omit [DecidableEq P] in
/-- A block new to the header finds room; a repeated one does while the header is not full. -/
theorem logWrite_roomy (hm : GroupOk start m) (hr : Roomy m) (hp : m.pc p = .inOp op)
    (hbudget : (insert (m.cache.buf i).blockno (opBlocks m.recorded op)).card ≤ maxopblocks)
    (hfull : (m.cache.buf i).blockno ∈ m.lh → m.lh.length < logblocks) :
    Roomy (m.logWrite op i) ∧ (m.logWrite op i).halted = m.halted := by
  generalize hb : (m.cache.buf i).blockno = b at hbudget hfull
  have hmem : p ∈ m.active := (hm.control.member p).mpr ⟨op, hp⟩
  have hfresh : b ∉ m.lh → (op, b) ∉ m.recorded := by
    intro hn hrec
    exact hn ((hm.recorded.exactly.2 b).mpr ⟨op, hrec⟩)
  have hroom : m.lh.length < logblocks := by
    by_cases hin : b ∈ m.lh
    · exact hfull hin
    · apply hr.room hmem
      rw [hp]
      have := left_snoc_lt (hfresh hin) hbudget
      omega
  have hout : ¬ m.outstanding < 1 := by
    have := List.length_pos_of_mem hmem
    rw [hm.control.count]
    omega
  unfold Group.logWrite
  simp only [hb, if_neg (Nat.not_le.mpr hroom), if_neg hout]
  split
  · exact ⟨hr.absorb _, rfl⟩
  · rename_i hnew
    exact ⟨hr.snoc hmem hp (hfresh hnew) hbudget, rfl⟩

theorem left_onward (ho : Onward n c next) (recorded : List (OpId × Nat)) :
    left recorded next = left recorded c := by
  cases c with
  | inOp op => rw [(ho.inOp op).mpr rfl]
  | _ =>
    cases next with
    | inOp op => cases (ho.inOp op).mp rfl
    | _ => rfl

theorem Reserved.onward {pc : P → Lpc} {active : List P} (hr : Reserved lh recorded pc active)
    (ho : Onward n (pc p) next) : Reserved lh recorded (update pc p next) active := by
  have hsame : (fun q => left recorded (update pc p next q)) =
      fun q => left recorded (pc q) := by
    funext q
    by_cases hq : q = p
    · subst hq
      simpa using left_onward ho recorded
    · simp [hq]
  unfold Reserved at hr ⊢
  rwa [hsame]

/-- Reads, releases and the commit reserve nothing and take nothing. -/
theorem perform_roomy (hf : Fits start m p (m.pc p) a) (hm : GroupOk start m) (hr : Roomy m) :
    Roomy (m.perform p a) := by
  have hnil : (m.pc p).committing = true → m.active = [] :=
    fun h => hm.control.settled (hm.control.busy p h)
  cases hf with
  | goto ho _ _ | writeLog _ ho _ _ _ _ _ | writeHome _ ho _ _ _ _ _ | bunpin _ ho _ _ _ _ _
  | brelse ho _ _ _ => exact hr.onward ho
  | bread ho _ _ =>
    simp only [Group.perform, Group.get]
    split
    · exact hr
    · exact hr.onward (ho _)
  | erase hc =>
    have ha := hnil (by rw [hc]; rfl)
    simp only [Roomy, Group.perform, Group.goto, ha]
    exact Reserved.settled (Nat.zero_le _)
  | finish hc =>
    have ha := hnil (by rw [hc]; rfl)
    simp only [Roomy, Group.perform, Group.goto, ha]
    exact Reserved.settled hr.length_le

theorem perform_halted (m : Group P) (p : P) (a : Act) :
    (m.perform p a).halted = m.halted ∨ (m.perform p a).halted = some .noBuffers := by
  cases a with
  | bread b next =>
    simp only [Group.perform, Group.get]
    split
    · exact .inr rfl
    · exact .inl rfl
  | _ => exact .inl rfl

/-- Which steps the log is meant to take: within the budget, and not the one repeated
write that finds the header full. -/
def Fair (m : Group P) (e : LogEvent P) : Prop := WithinBudget m e ∧ NoRepeatWhenFull m e

theorem step_roomy (hm : GroupOk start m) (hr : Roomy m) (hh : m.halted ≠ some .tooBig)
    (hf : Fair m e) (hs : m.step start e = some m') : Roomy m' ∧ m'.halted ≠ some .tooBig := by
  have hacted : ∀ {p a}, Fits start m p (m.pc p) a →
      Roomy (m.perform p a) ∧ (m.perform p a).halted ≠ some .tooBig := by
    intro p a hfit
    refine ⟨perform_roomy hfit hm hr, ?_⟩
    rcases perform_halted m p a with h | h <;> rw [h]
    · exact hh
    · nofun
  cases e with
  | beginOp p =>
    obtain ⟨_, hb⟩ := step_beginOp hs
    obtain ⟨hr', hh'⟩ := beginOp_roomy hm hb
    exact ⟨hr', hh' ▸ hh⟩
  | endOp p =>
    obtain ⟨op, hp, rfl⟩ := step_endOp hs
    obtain ⟨hr', hh'⟩ := endOp_roomy hm hr hp
    exact ⟨hr', hh' ▸ hh⟩
  | logWrite p i =>
    obtain ⟨op, hp, _, rfl⟩ := step_logWrite hs
    obtain ⟨hbudget, hfull⟩ := hf
    simp only [WithinBudget, hp] at hbudget
    obtain ⟨hr', hh'⟩ := logWrite_roomy hm hr hp hbudget hfull
    exact ⟨hr', hh' ▸ hh⟩
  | bread p b =>
    obtain ⟨q, a, hfit, rfl⟩ := step_acted hm hs (.inl ⟨p, b, rfl⟩)
    exact hacted hfit
  | brelse p i =>
    obtain ⟨q, a, hfit, rfl⟩ := step_acted hm hs (.inr (.inl ⟨p, i, rfl⟩))
    exact hacted hfit
  | commit p =>
    obtain ⟨q, a, hfit, rfl⟩ := step_acted hm hs (.inr (.inr ⟨p, rfl⟩))
    exact hacted hfit

/-- Whatever the interleaving, operations within their budget never find the log too
small, except by logging a block again that is there while the header is full. -/
theorem reservation_suffices
    (hr : Run (Group.step start) Fair (Group.init (P := P)) es m) :
    m.halted ≠ some .tooBig ∧ m.lh.length ≤ logblocks := by
  have hinv := hr.invariant (fun m => GroupOk start m ∧ Roomy m ∧ m.halted ≠ some .tooBig)
    ⟨init_ok start, Reserved.settled (Nat.zero_le _), nofun⟩
    (fun t e u ⟨hm, hroomy, hh⟩ hf hs =>
      ⟨(step_moves hm hs).ok hm, step_roomy hm hroomy hh hf hs⟩)
  exact ⟨hinv.2.2, hinv.2.1.length_le⟩

instance (e : LogEvent P) : Decidable (NoRepeatWhenFull m e) := by
  unfold NoRepeatWhenFull
  split <;> infer_instance

instance (e : LogEvent P) : Decidable (Fair m e) := inferInstanceAs (Decidable (_ ∧ _))

def tenBlocks (p : Fin 3) (b : Nat) (i : Nat) : List (LogEvent (Fin 3)) :=
  (List.range 10).flatMap fun k =>
    [.bread p (b + k), .logWrite p (Fin.ofNat nbuf (i + k)), .brelse p (Fin.ofNat nbuf (i + k))]

def threeFull : List (LogEvent (Fin 3)) :=
  [.beginOp 0, .beginOp 1, .beginOp 2] ++ tenBlocks 0 40 0 ++ tenBlocks 1 50 10 ++ tenBlocks 2 60 20

/-- Three operations that log ten blocks each fill the log, and nothing panics. -/
theorem reservation_suffices_threeFull : ∃ m : Group (Fin 3),
    Run (Group.step 2) Fair Group.init threeFull m ∧ m.lh.length = logblocks ∧
      m.halted ≠ some .tooBig := by
  obtain ⟨m, hr, hl⟩ : ∃ m : Group (Fin 3), Run (Group.step 2) Fair Group.init threeFull m ∧
      m.lh.length = logblocks := replay_reaches (by decide +kernel)
  exact ⟨m, hr, hl, (reservation_suffices hr).1⟩

/-- The first operation then logs one of its blocks a second time. -/
theorem threeFull_repeat_panics : ∃ m : Group (Fin 3),
    Run (Group.step 2) WithinBudget Group.init
      (threeFull ++ [.bread 0 40, .logWrite 0 0]) m ∧ m.halted = some .tooBig :=
  replay_reaches (by decide +kernel)

end Xv6Filter.Proofs
