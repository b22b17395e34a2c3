import Xv6Filter.Proofs.Group

namespace Xv6Filter.Proofs
open Lib Function

variable {P : Type} [DecidableEq P] {m : Group P}

omit [DecidableEq P] in
theorem group_halt (hm : GroupOk start m) (h : why = .tooBig ∨ why = .noBuffers) :
    GroupOk start (m.halt why) := by
  refine ⟨hm.control, hm.counted, hm.recorded, hm.quiet, ?_, ?_⟩
  · intro p hp
    exact ⟨(hm.placed p hp).range, (hm.placed p hp).written, (hm.placed p hp).inHand⟩
  · rcases h with rfl | rfl <;> simp [Group.halt]

/-- No action of a process takes a buffer with references away from its block. -/
theorem perform_caches (a : Act) (hi : Caches m.cache i b) (hr : 0 < (m.cache.buf i).refcnt) :
    Caches (m.perform p a).cache i b := by
  cases a with
  | goto | writeLog | writeHome | erase | finish => exact hi
  | bread b' next =>
    simp only [Group.perform, Group.get]
    split
    · exact hi
    · rename_i hg
      exact Counted.got_keeps (bget_got hg) hi hr
  | brelse j next => exact ((Counted.recounted_brelse m.cache j).tags i b).mpr hi
  | bunpin j next => exact ((Counted.recounted_set m.cache j _).tags i b).mpr hi

omit [DecidableEq P] in
/-- Before the header is erased every block has been written, installed and unpinned. -/
theorem Placed.all_done (hp : Placed start m p .erase) :
    m.logged = m.lh ∧ m.installed = m.lh ∧ m.released = m.lh := by
  refine ⟨?_, ?_, ?_⟩
  · simpa [progress] using hp.written.logged
  · simpa [progress] using hp.written.installed
  · simpa [progress] using hp.written.released

theorem Recorded.onward {pc : P → Lpc} (hr : Recorded lh recorded done pc)
    (ho : Onward n (pc p) next) : Recorded lh recorded done (update pc p next) :=
  ⟨hr.exactly, hr.current, fun q op hq => hr.running q op (((ho.kinds q).2 op).mp hq), hr.complete⟩

namespace Fits

section

variable {p : P} (hf : Fits start m p (m.pc p) a)

include hf

theorem control (hc : Control m.outstanding m.committing m.pc m.active) :
    Control (m.perform p a).outstanding (m.perform p a).committing (m.perform p a).pc
      (m.perform p a).active := by
  cases hf with
  | goto ho | brelse ho | writeLog _ ho | writeHome _ ho | bunpin _ ho => exact hc.onward ho
  | bread ho =>
    simp only [Group.perform, Group.get]
    split
    · exact hc
    · exact hc.onward (ho _)
  | erase he =>
    have ho : Onward 0 (m.pc p) (.clear .start) := by
      rw [he]
      exact Proofs.onward rfl rfl rfl
    exact hc.onward ho
  | finish he => exact hc.finish (by rw [he]; rfl)

theorem counted (hm : GroupOk start m) :
    Counted (m.perform p a).cache (m.perform p a).holds (pins (m.perform p a)) := by
  have hc := hm.counted
  cases hf with
  | goto | writeLog | writeHome | finish => exact hc
  | bread =>
    simp only [Group.perform, Group.get]
    split
    · exact hc
    · rename_i hg
      exact hc.get (bget_got hg)
  | brelse _ _ hh => exact hc.put hh
  | bunpin hb _ ht hcb hg =>
    rename_i t h _ _ _
    have hrel : m.released = m.lh.take t := by
      simpa only [hg] using (hm.placed p hb).written.released
    have hnew : m.lh.getD t 0 ∉ m.released := by
      rw [hrel]
      exact getD_notMem_take hm.recorded.exactly.1 ht 0
    refine hc.unpin hcb ?_ ?_ ?_
    · exact decide_eq_true ⟨getD_mem ht 0, hnew⟩
    · rw [← hcb.2]
      simp [pins, Group.perform, Group.goto]
    · intro k hk
      rw [← hcb.2] at hk
      simp [pins, Group.perform, Group.goto, hk]
  | erase he =>
    have hall := (he ▸ hm.placed p (by rw [he]; rfl) : Placed start m p .erase).all_done
    have hp : pins (m.perform p (.erase (.clear .start))) = pins m := by
      funext b
      simp [pins, Group.perform, Group.goto, hall.2.2]
    rw [hp]
    exact hc

theorem recorded (hm : GroupOk start m) :
    Recorded (m.perform p a).lh (m.perform p a).recorded (m.perform p a).done
      (m.perform p a).pc := by
  have hr := hm.recorded
  cases hf with
  | goto ho | brelse ho | writeLog _ ho | writeHome _ ho | bunpin _ ho => exact hr.onward ho
  | bread ho =>
    simp only [Group.perform, Group.get]
    split
    · exact hr
    · exact hr.onward (ho _)
  | finish he =>
    have ho : ∀ q op, update m.pc p .idle q = .inOp op → m.pc q = .inOp op := by
      intro q op hq
      by_cases h : q = p
      · subst h
        simp at hq
      · simpa [h] using hq
    exact ⟨hr.exactly, hr.current, fun q op hq => hr.running q op (ho q op hq), hr.complete⟩
  | erase he =>
    have hcom : (m.pc p).committing = true := by rw [he]; rfl
    obtain ⟨hl, hi, -⟩ := (he ▸ hm.placed p hcom : Placed start m p .erase).all_done
    refine ⟨⟨List.nodup_nil, by simp [Group.perform, Group.goto]⟩,
      by simp [Group.perform, Group.goto], ?_, ?_⟩
    · intro q op hq
      have hbusy := hm.control.busy p hcom
      by_cases h : q = p
      · subst h
        simp [Group.perform, Group.goto] at hq
      · simp only [Group.perform, Group.goto, update_of_ne h] at hq
        exact absurd (hm.control.idle_of_inOp hq) (by simp [hbusy])
    · intro e c hc
      simp only [Group.perform, Group.goto] at hc
      rw [List.getElem?_append] at hc
      split at hc
      · exact hr.complete e c hc
      · rename_i hlt
        have he : e = m.done.length ∧ c = ⟨m.recorded, m.logged, m.installed⟩ := by
          by_cases h0 : e - m.done.length = 0
          · rw [h0] at hc
            exact ⟨by omega, by simpa using hc.symm⟩
          · rw [List.getElem?_eq_none (by simp; omega)] at hc
            cases hc
        obtain ⟨rfl, rfl⟩ := he
        exact ⟨hl ▸ hr.exactly, hi ▸ hr.exactly, hr.current⟩

theorem quiet (hm : GroupOk start m) (hq : (m.perform p a).committing = false) :
    (m.perform p a).logged = [] ∧ (m.perform p a).installed = [] ∧
      (m.perform p a).released = [] := by
  cases hf with
  | goto | brelse => exact hm.quiet hq
  | bread =>
    simp only [Group.perform, Group.get] at hq ⊢
    split at hq
    · exact hm.quiet hq
    · exact hm.quiet hq
  | writeLog hb | writeHome hb | bunpin hb =>
    exact absurd (hm.control.busy p hb) (by simpa [Group.perform, Group.goto] using hq)
  | erase he => exact ⟨rfl, rfl, rfl⟩
  | finish he =>
    have hp := he ▸ hm.placed p (by rw [he]; rfl)
    exact ⟨hp.written.logged, hp.written.installed, hp.written.released⟩

theorem range (hp : Placed start m p (m.pc p))
    (hb : (m.pc p).committing = true) (hb' : ((m.perform p a).pc p).committing = true) :
    InRange (m.perform p a).lh.length ((m.perform p a).pc p) := by
  cases hf with
  | goto ho | brelse ho | writeLog _ ho | writeHome _ ho | bunpin _ ho =>
    simpa [Group.perform, Group.put, Group.goto] using ho.range hb
  | bread ho =>
    simp only [Group.perform, Group.get]
    split
    · exact hp.range
    · simpa [Group.goto] using (ho _).range hb
  | erase => simp [Group.perform, Group.goto, InRange]
  | finish => simp [Group.perform, Group.goto, Lpc.committing] at hb'

theorem written (hp : Placed start m p (m.pc p)) (hb' : ((m.perform p a).pc p).committing = true) :
    Written (m.perform p a).lh (m.perform p a).logged (m.perform p a).installed
      (m.perform p a).released (progress (m.perform p a).lh.length ((m.perform p a).pc p)) := by
  have hw := hp.written
  cases hf with
  | goto _ hg | brelse _ hg =>
    simpa [Group.perform, Group.put, Group.goto, hg] using hw
  | bread _ hg =>
    simp only [Group.perform, Group.get]
    split
    · exact hw
    · simpa [Group.goto, hg] using hw
  | writeLog _ _ ht hc hg hg' =>
    rw [hg] at hw
    simp only [Group.perform, Group.goto, update_self, hg', hc.2]
    exact ⟨hw.logged ▸ take_snoc ht 0, hw.installed, hw.released⟩
  | writeHome _ _ ht hc hg hg' =>
    rw [hg] at hw
    simp only [Group.perform, Group.goto, update_self, hg', hc.2]
    exact ⟨hw.logged, hw.installed ▸ take_snoc ht 0, hw.released⟩
  | bunpin _ _ ht hc hg hg' =>
    rw [hg] at hw
    simp only [Group.perform, Group.goto, update_self, hg', hc.2]
    exact ⟨hw.logged, hw.installed, hw.released ▸ take_snoc ht 0⟩
  | erase => simp [Group.perform, Group.goto, progress, Written.mk]
  | finish => simp [Group.perform, Group.goto, Lpc.committing] at hb'

theorem inHand (hm : GroupOk start m)
    (hb : (m.pc p).committing = true) (hb' : ((m.perform p a).pc p).committing = true) :
    InHand start (m.perform p a).lh (m.perform p a).cache (m.perform p a).holds p
      ((m.perform p a).pc p) := by
  have hi := (hm.placed p hb).inHand
  cases hf with
  | goto _ _ hr | writeLog _ _ _ _ _ _ hr | writeHome _ _ _ _ _ _ hr =>
    simp only [Group.perform, Group.goto, update_self]
    exact ⟨hr ▸ hi.held, hr ▸ hi.caches⟩
  | bunpin _ _ _ _ _ _ hr =>
    simp only [Group.perform, Group.goto, update_self]
    refine ⟨hr ▸ hi.held, ?_⟩
    rw [hr]
    intro x hx
    exact ((Counted.recounted_set m.cache _ _).tags _ _).mpr (hi.caches x hx)
  | bread _ _ hr =>
    simp only [Group.perform, Group.get]
    split
    · exact hi
    · rename_i i c hg
      simp only [Group.goto, update_self]
      have hgot := bget_got hg
      refine ⟨?_, ?_⟩
      · rw [hr hb]
        exact (List.subperm_cons _).mpr hi.held
      · rw [hr hb]
        intro x hx
        rcases List.mem_cons.mp hx with rfl | hx
        · exact hgot.caches
        · exact Counted.got_keeps hgot (hi.caches x hx)
            (hm.counted.refcnt_pos_of_held (hi.mem_holds hx))
  | brelse _ _ _ hr =>
    rename_i i _ _ _ _
    simp only [Group.perform, Group.put, Group.goto, update_self]
    refine ⟨?_, ?_⟩
    · have h := ((((hr hb).map fun x => (p, x.1)).subperm_right).mp hi.held).erase (p, i)
      simpa using h
    · intro x hx
      have hx' := (hr hb).mem_iff.mpr (List.mem_cons_of_mem _ hx)
      exact ((Counted.recounted_brelse m.cache _).tags _ _).mpr (hi.caches x hx')
  | erase =>
    simp only [Group.perform, Group.goto, update_self]
    exact ⟨List.nil_subperm, nofun⟩
  | finish => simp [Group.perform, Group.goto, Lpc.committing] at hb'

theorem placed_other (hm : GroupOk start m)
    (hb : (m.pc p).committing = false) (hq : (m.pc q).committing = true) :
    Placed start (m.perform p a) q (m.pc q) := by
  have hp := hm.placed q hq
  have hne : q ≠ p := by
    rintro rfl
    simp [hb] at hq
  have hkeep : ∀ i b, (q, i) ∈ m.holds → Caches m.cache i b → Caches (m.perform p a).cache i b :=
    fun i b hi hc => perform_caches a hc (hm.counted.refcnt_pos_of_held hi)
  cases hf with
  | goto => exact ⟨hp.range, hp.written, hp.inHand⟩
  | bread =>
    simp only [Group.perform, Group.get] at hkeep ⊢
    split at hkeep
    · exact ⟨hp.range, hp.written, hp.inHand⟩
    · exact ⟨hp.range, hp.written, hp.inHand.keep (hp.inHand.held.cons_right _) hkeep⟩
  | brelse => exact ⟨hp.range, hp.written, hp.inHand.keep (hp.inHand.keep_erase hne _) hkeep⟩
  | writeLog h | writeHome h | bunpin h => simp [hb] at h
  | erase h | finish h => simp [h, Lpc.committing] at hb

end

theorem perform_pc_other (a : Act) (hq : q ≠ p) : (m.perform p a).pc q = m.pc q := by
  cases a with
  | bread b next =>
    simp only [Group.perform, Group.get]
    split
    · rfl
    · simp [Group.goto, hq]
  | _ => simp [Group.perform, Group.put, Group.goto, hq]

theorem panics (hf : Fits start m p c a) (hm : m.halted ≠ some .committing ∧ m.halted ≠ some .outsideTrans) :
    (m.perform p a).halted ≠ some .committing ∧ (m.perform p a).halted ≠ some .outsideTrans := by
  cases hf with
  | bread =>
    simp only [Group.perform, Group.get]
    split
    · simp [Group.halt]
    · exact hm
  | _ => exact hm

theorem commits_before (hf : Fits start m p (m.pc p) a)
    (hb : ((m.perform p a).pc p).committing = true) : (m.pc p).committing = true := by
  cases hf with
  | goto ho | brelse ho | writeLog _ ho | writeHome _ ho | bunpin _ ho =>
    simpa [Group.perform, Group.put, Group.goto, ho.committing] using hb
  | bread ho =>
    simp only [Group.perform, Group.get] at hb
    split at hb
    · exact hb
    · simpa [Group.goto, (ho _).committing] using hb
  | erase he | finish he => simp [he, Lpc.committing]

theorem ok (hf : Fits start m p (m.pc p) a) (hm : GroupOk start m) : GroupOk start (m.perform p a) := by
  refine ⟨hf.control hm.control, hf.counted hm, hf.recorded hm, hf.quiet hm, ?_,
    hf.panics hm.panics⟩
  intro q hq
  by_cases hqp : q = p
  · subst hqp
    have hb := hf.commits_before hq
    exact ⟨hf.range (hm.placed q hb) hb hq, hf.written (hm.placed q hb) hq, hf.inHand hm hb hq⟩
  · rw [perform_pc_other a hqp] at hq ⊢
    have hb : (m.pc p).committing = false := by
      by_contra h
      exact hqp (hm.control.alone q p hq (by simpa using h))
    exact hf.placed_other hm hb hq

end Fits

theorem beginOp_ok (hm : GroupOk start m) (hp : m.pc p = .idle) (hb : m.beginOp p = some m') :
    GroupOk start m' := by
  unfold Group.beginOp at hb
  split at hb
  · cases hb
  split at hb
  · cases hb
  rename_i hcom _
  have hcom : m.committing = false := by simpa using hcom
  cases hb
  have hc := hcom ▸ hm.control
  have hcontrol := hc.begin hp ⟨m.done.length, m.nextOp⟩
  refine ⟨by rw [← hcom] at hcontrol; exact hcontrol, hm.counted, ?_, hm.quiet, ?_, hm.panics⟩
  · refine ⟨hm.recorded.exactly, hm.recorded.current, ?_, hm.recorded.complete⟩
    intro q op hq
    by_cases h : q = p
    · subst h
      simp only [Group.goto, update_self, Lpc.inOp.injEq] at hq
      rw [← hq]
      rfl
    · simp only [Group.goto, update_of_ne h] at hq
      exact hm.recorded.running q op hq
  · intro q hq
    exact absurd (hcontrol.none_commits q) (by simpa [Group.goto] using hq)

theorem endOp_ok (hm : GroupOk start m) (hp : m.pc p = .inOp op) : GroupOk start (m.endOp p) := by
  have hcom := hm.control.idle_of_inOp hp
  have hleave := hm.control.leave hp
  obtain ⟨hl, hi, hr⟩ := hm.quiet hcom
  have hrec : ∀ c : Lpc, (∀ op, c ≠ .inOp op) →
      Recorded m.lh m.recorded m.done (update m.pc p c) := by
    intro c hc
    refine ⟨hm.recorded.exactly, hm.recorded.current, ?_, hm.recorded.complete⟩
    intro q op hq
    by_cases h : q = p
    · subst h
      exact absurd (by simpa using hq) (hc op)
    · exact hm.recorded.running q op (by simpa [h] using hq)
  unfold Group.endOp
  simp only [hcom, Bool.false_eq_true, ↓reduceIte]
  split
  · rename_i hz
    rw [hz] at hleave
    have hcontrol := hleave.commit (p := p) (by simp)
    rw [update_idem] at hcontrol
    refine ⟨by simpa [Group.goto, hz] using hcontrol, hm.counted, hrec _ (by simp), nofun, ?_,
      hm.panics⟩
    intro q hq
    have hqp : q = p := by
      by_contra h
      have := (hcom ▸ hm.control).none_commits q
      simp [Group.goto, h, this] at hq
    subst hqp
    simp only [Group.goto, update_self]
    exact ⟨trivial, ⟨hl, hi, hr⟩, ⟨List.nil_subperm, nofun⟩⟩
  · refine ⟨by simpa [Group.goto, hcom] using hleave, hm.counted, hrec _ (by simp), fun _ => ⟨hl, hi, hr⟩,
      ?_, hm.panics⟩
    intro q hq
    exact absurd (hleave.none_commits q) (by simpa [Group.goto] using hq)

theorem Exactly.absorb (he : Exactly l recorded) (hb : b ∈ l) (op : OpId) :
    Exactly l (recorded ++ [(op, b)]) := by
  refine ⟨he.1, fun k => ?_⟩
  rw [he.2]
  constructor
  · rintro ⟨o, ho⟩
    exact ⟨o, List.mem_append_left _ ho⟩
  · rintro ⟨o, ho⟩
    rcases List.mem_append.mp ho with ho | ho
    · exact ⟨o, ho⟩
    · cases List.mem_singleton.mp ho
      exact (he.2 b).mp hb

theorem Exactly.snoc (he : Exactly l recorded) (hb : b ∉ l) (op : OpId) :
    Exactly (l ++ [b]) (recorded ++ [(op, b)]) := by
  refine ⟨List.nodup_append.mpr ⟨he.1, List.nodup_singleton b, ?_⟩, fun k => ?_⟩
  · rintro x hx y hy rfl
    exact hb (List.mem_singleton.mp hy ▸ hx)
  · simp [he.2, exists_or]

omit [DecidableEq P] in
theorem logWrite_ok (hm : GroupOk start m) (hp : m.pc p = .inOp op) (hh : (q, i) ∈ m.holds) :
    GroupOk start (m.logWrite op i) := by
  have hcom := hm.control.idle_of_inOp hp
  have hrel : m.released = [] := (hm.quiet hcom).2.2
  have hnone := (hcom ▸ hm.control).none_commits
  have hout : ¬ m.outstanding < 1 := by
    have := List.length_pos_of_mem ((hm.control.member p).mpr ⟨op, hp⟩)
    rw [hm.control.count]
    omega
  have hcaches : Caches m.cache i (m.cache.buf i).blockno := ⟨hm.counted.root _ hh, rfl⟩
  have hcur : ∀ x ∈ m.recorded ++ [(op, (m.cache.buf i).blockno)], x.1.epoch = m.done.length := by
    intro x hx
    rcases List.mem_append.mp hx with hx | hx
    · exact hm.recorded.current x hx
    · obtain rfl := List.mem_singleton.mp hx
      exact hm.recorded.running p op hp
  have hplaced : ∀ m' : Group P, ∀ q, (m.pc q).committing = true → Placed start m' q (m.pc q) :=
    fun _ q hq => absurd hq (by simp [hnone q])
  unfold Group.logWrite
  simp only [if_neg hout]
  split
  · exact group_halt hm (.inl rfl)
  split
  · rename_i hin
    exact ⟨hm.control, hm.counted, ⟨hm.recorded.exactly.absorb hin op, hcur, hm.recorded.running,
      hm.recorded.complete⟩, hm.quiet, hplaced _, hm.panics⟩
  · rename_i hnew
    refine ⟨hm.control, ?_, ⟨hm.recorded.exactly.snoc hnew op, hcur, hm.recorded.running,
      hm.recorded.complete⟩, hm.quiet, hplaced _, hm.panics⟩
    apply hm.counted.pin hcaches
    · simp [pins, hnew]
    · simp [pins, hrel]
    · intro k hk
      simp [pins, hk]

omit [DecidableEq P] in
theorem init_ok (start : Nat) : GroupOk start (Group.init (P := P)) where
  control := .of_none_commits List.nodup_nil (by simp [Group.init]) rfl (fun _ => rfl)
  counted := Counted.init
  recorded := ⟨⟨List.nodup_nil, by simp [Group.init]⟩, nofun, nofun, by simp [Group.init]⟩
  quiet _ := ⟨rfl, rfl, rfl⟩
  placed := nofun
  panics := ⟨nofun, nofun⟩

/-- What a step can do: begin, end or extend an operation, or one action that fits. -/
inductive Moves (start : Nat) (m : Group P) : Group P → Prop where
  | begun (hp : m.pc p = .idle) (hb : m.beginOp p = some m') : Moves start m m'
  | ended (hp : m.pc p = .inOp op) : Moves start m (m.endOp p)
  | logged (hp : m.pc p = .inOp op) (hh : (p, i) ∈ m.holds) : Moves start m (m.logWrite op i)
  | acted (hf : Fits start m p (m.pc p) a) : Moves start m (m.perform p a)

/-- Reads, releases and sections of the commit are actions that fit. -/
theorem step_acted (hm : GroupOk start m) (hs : m.step start e = some m')
    (he : (∃ p b, e = .bread p b) ∨ (∃ p i, e = .brelse p i) ∨ ∃ p, e = .commit p) :
    ∃ p a, Fits start m p (m.pc p) a ∧ m' = m.perform p a := by
  unfold Group.step at hs
  split at hs
  · cases hs
  rcases he with ⟨p, b, rfl⟩ | ⟨p, i, rfl⟩ | ⟨p, rfl⟩
  · dsimp only at hs
    split at hs
    · cases hs
    · rename_i hc
      have hc : (m.pc p).committing = false := by simpa using hc
      cases hs
      exact ⟨p, .bread b fun _ => m.pc p,
        .bread (fun _ => .refl hc) (fun _ => rfl) (fun h => by simp [hc] at h), rfl⟩
  · dsimp only at hs
    split at hs
    · rename_i hc
      cases hs
      exact ⟨p, .brelse i (m.pc p),
        .brelse (b := 0) (.refl hc.1) rfl hc.2 (fun h => by simp [hc.1] at h), rfl⟩
    · cases hs
  · obtain ⟨a, ha, rfl⟩ := Option.map_eq_some_iff.mp hs
    have hb : (m.pc p).committing = true := by
      cases hc : m.pc p <;> simp [hc, Lpc.act] at ha <;> rfl
    exact ⟨p, a, act_fits (hm.placed p hb) ha, rfl⟩

theorem step_beginOp (hs : m.step start (.beginOp p) = some m') : m.pc p = .idle ∧ m.beginOp p = some m' := by
  unfold Group.step at hs
  split at hs
  · cases hs
  dsimp only at hs
  split at hs
  · exact ⟨‹_›, hs⟩
  · cases hs

theorem step_endOp (hs : m.step start (.endOp p) = some m') : ∃ op, m.pc p = .inOp op ∧ m' = m.endOp p := by
  unfold Group.step at hs
  split at hs
  · cases hs
  dsimp only at hs
  split at hs
  · cases hs
    exact ⟨_, ‹_›, rfl⟩
  · cases hs

theorem step_logWrite (hs : m.step start (.logWrite p i) = some m') :
    ∃ op, m.pc p = .inOp op ∧ (p, i) ∈ m.holds ∧ m' = m.logWrite op i := by
  unfold Group.step at hs
  split at hs
  · cases hs
  dsimp only at hs
  split at hs
  · split at hs
    · cases hs
      exact ⟨_, ‹_›, ‹_›, rfl⟩
    · cases hs
  · cases hs

theorem step_moves (hm : GroupOk start m) (hs : m.step start e = some m') : Moves start m m' := by
  cases e with
  | beginOp p =>
    obtain ⟨hp, hb⟩ := step_beginOp hs
    exact .begun hp hb
  | endOp p =>
    obtain ⟨op, hp, rfl⟩ := step_endOp hs
    exact .ended hp
  | logWrite p i =>
    obtain ⟨op, hp, hh, rfl⟩ := step_logWrite hs
    exact .logged hp hh
  | bread p b =>
    obtain ⟨q, a, hf, rfl⟩ := step_acted hm hs (.inl ⟨p, b, rfl⟩)
    exact .acted hf
  | brelse p i =>
    obtain ⟨q, a, hf, rfl⟩ := step_acted hm hs (.inr (.inl ⟨p, i, rfl⟩))
    exact .acted hf
  | commit p =>
    obtain ⟨q, a, hf, rfl⟩ := step_acted hm hs (.inr (.inr ⟨p, rfl⟩))
    exact .acted hf

theorem Moves.ok (hs : Moves start m m') (hm : GroupOk start m) : GroupOk start m' := by
  cases hs with
  | begun hp hb => exact beginOp_ok hm hp hb
  | ended hp => exact endOp_ok hm hp
  | logged hp hh => exact logWrite_ok hm hp hh
  | acted hf => exact hf.ok hm

theorem run_ok (hr : Run (Group.step start) anyEvent Group.init es m) : GroupOk start m :=
  hr.invariant (GroupOk start) (init_ok start) fun _ _ _ hm _ hs => (step_moves hm hs).ok hm

theorem Moves.caches (hs : Moves start m m') (hi : Caches m.cache i b)
    (hr : 0 < (m.cache.buf i).refcnt) : Caches m'.cache i b := by
  cases hs with
  | begun hp hb =>
    unfold Group.beginOp at hb
    split at hb
    · cases hb
    split at hb <;> cases hb
    exact hi
  | ended hp =>
    unfold Group.endOp
    dsimp only
    split
    · exact hi
    split <;> exact hi
  | logged hp hh =>
    unfold Group.logWrite
    dsimp only
    split
    · exact hi
    split
    · exact hi
    split
    · exact hi
    · exact ((Counted.recounted_set m.cache _ _).tags i b).mpr hi
  | acted hf => exact perform_caches _ hi hr

def Pending (m : Group P) (b : Nat) : Prop := (∃ op, (op, b) ∈ m.recorded) ∧ b ∉ m.installed

structure GroupCommit (start : Nat) (m : Group P) : Prop where
  /-- While a commit is on there is no operation, and none begins. -/
  owner : m.committing = true ↔ ∃ p, (m.pc p).committing = true
  alone : ∀ p q, (m.pc p).committing = true → (m.pc q).committing = true → p = q
  settled : m.committing = true → m.outstanding = 0 ∧ ∀ p op, m.pc p ≠ .inOp op
  shut : m.committing = true → ∀ p, m.step start (.beginOp p) = none
  /-- The header goes out when the log holds each recorded block once, and a commit
  ends when their homes do. -/
  header : ∀ p touch, m.pc p = .head touch → Exactly m.logged m.recorded
  exactly : ∀ (e : Nat) (c : Commit), m.done[e]? = some c →
    Exactly c.logged c.recorded ∧ Exactly c.installed c.recorded
  /-- An operation in a commit is over, and is in no other commit. -/
  whole : ∀ (e : Nat) (c : Commit) (op : OpId) (b : Nat), m.done[e]? = some c →
    (op, b) ∈ c.recorded → (∀ p, m.pc p ≠ .inOp op) ∧ (∀ b', (op, b') ∉ m.recorded) ∧
      ∀ (e' : Nat) (c' : Commit) (b' : Nat), m.done[e']? = some c' → (op, b') ∈ c'.recorded → e' = e
  /-- A pending block has one buffer, with a reference, for as long as it is pending. -/
  pinned : ∀ b, Pending m b → ∃ i, ∀ es m',
    LiveRun (Group.step start) anyEvent (Pending · b) m es m' →
      Caches m'.cache i b ∧ 0 < (m'.cache.buf i).refcnt
  panics : m.halted ≠ some .committing ∧ m.halted ≠ some .outsideTrans

theorem progress_le (n : Nat) (c : Lpc) : (progress n c).2.2 ≤ (progress n c).2.1 := by
  unfold progress
  split <;> simp

omit [DecidableEq P] in
theorem released_installed (hm : GroupOk start m) (hb : b ∈ m.released) : b ∈ m.installed := by
  cases hc : m.committing with
  | false => simp [(hm.quiet hc).2.2] at hb
  | true =>
    obtain ⟨p, hp⟩ := hm.control.owner hc
    have hw := (hm.placed p hp).written
    rw [hw.released] at hb
    rw [hw.installed]
    exact (List.take_sublist_take_left (progress_le _ _)).subset hb

omit [DecidableEq P] in
theorem Pending.pins (hp : Pending m b) (hm : GroupOk start m) : Proofs.pins m b = true := by
  have hin : b ∈ m.lh := (hm.recorded.exactly.2 b).mpr hp.1
  exact decide_eq_true ⟨hin, fun h => hp.2 (released_installed hm h)⟩

theorem pending_pinned (hm : GroupOk start m) (hp : Pending m b) :
    ∃ i, ∀ es m', LiveRun (Group.step start) anyEvent (Pending · b) m es m' →
      Caches m'.cache i b ∧ 0 < (m'.cache.buf i).refcnt := by
  obtain ⟨i, hi⟩ := hm.counted.present b (hp.pins hm)
  refine ⟨i, fun es m' hr => ?_⟩
  obtain ⟨⟨hm', hi'⟩, hp'⟩ := hr.relate (fun _ t => GroupOk start t ∧ Caches t.cache i b)
    (fun _ => ⟨hm, hi⟩) (fun t e u ht hpt _ hs _ => by
      have hmv := step_moves ht.1 hs
      exact ⟨hmv.ok ht.1, hmv.caches ht.2 (ht.1.counted.refcnt_pos_of_pin ht.2 (hpt.pins ht.1))⟩)
  exact ⟨hi', hm'.counted.refcnt_pos_of_pin hi' (hp'.pins hm')⟩

/-- In every run, of any processes, operations commit together and whole. -/
theorem group_commit (hr : Run (Group.step start) anyEvent (Group.init (P := P)) es m) :
    GroupCommit start m := by
  have hm := run_ok hr
  refine ⟨⟨hm.control.owner, fun ⟨p, hp⟩ => hm.control.busy p hp⟩, hm.control.alone,
    ?_, ?_, ?_, ?_, ?_, ?_, hm.panics⟩
  · intro hc
    have hnil := hm.control.settled hc
    exact ⟨by rw [hm.control.count, hnil]; rfl, (hc ▸ hm.control).nobody⟩
  · intro hc p
    unfold Group.step
    split
    · rfl
    · simp [Group.beginOp, hc]
  · intro p touch hp
    have hw := (hm.placed p (by rw [hp]; rfl)).written
    have hl : m.logged = m.lh := by simpa [hp, progress] using hw.logged
    exact hl ▸ hm.recorded.exactly
  · intro e c hc
    have h := hm.recorded.complete e c hc
    exact ⟨h.logged, h.installed⟩
  · intro e c op b hc hb
    have he : op.epoch = e := (hm.recorded.complete e c hc).epoch _ hb
    have hlt : e < m.done.length := (List.getElem?_eq_some_iff.mp hc).1
    refine ⟨?_, ?_, ?_⟩
    · intro p hp
      have := hm.recorded.running p op hp
      omega
    · intro b' hb'
      have := hm.recorded.current _ hb'
      dsimp only at this
      omega
    · intro e' c' b' hc' hb'
      exact ((hm.recorded.complete e' c' hc').epoch _ hb').symm.trans he
  · exact fun b hp => pending_pinned hm hp

def twoOps : List (LogEvent Bool) :=
  [.beginOp false, .beginOp true, .bread false 40, .logWrite false 0, .brelse false 0,
    .bread true 41, .logWrite true 1, .endOp false, .bread true 40, .logWrite true 0,
    .brelse true 1, .brelse true 0, .endOp true] ++ List.replicate 33 (.commit true)

/-- Two operations that overlap are committed as one group. -/
theorem group_commit_twoOps : ∃ m : Group Bool, Run (Group.step 2) anyEvent Group.init twoOps m ∧
      (m.committing = false ∧ m.done.map Commit.installed = [[40, 41]]) ∧ GroupCommit 2 m := by
  obtain ⟨m, hr, hd⟩ : ∃ m : Group Bool, Run (Group.step 2) anyEvent Group.init twoOps m ∧
      (m.committing = false ∧ m.done.map Commit.installed = [[40, 41]]) :=
    replay_reaches (by decide +kernel)
  exact ⟨m, hr, hd, group_commit hr⟩

end Xv6Filter.Proofs
