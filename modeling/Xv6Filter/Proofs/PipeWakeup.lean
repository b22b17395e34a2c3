import Xv6Filter.Proofs.Pipe

namespace Xv6Filter.Proofs
open Lib Function

variable {ι : Type} [DecidableEq ι]

def inWriteLoop : PipePc → Bool
  | .wTest _ _ | .wBody _ _ => true
  | _ => false

def KillsOutsideLoop (s : PipeSys ι) : PipeEvent ι → Prop
  | .kill p => inWriteLoop (s.pc p) = false
  | _ => True

instance (s : PipeSys ι) (e : PipeEvent ι) : Decidable (KillsOutsideLoop s e) :=
  match e with
  | .kill p => inferInstanceAs (Decidable (inWriteLoop (s.pc p) = false))
  | .write _ _ | .read _ _ | .go _ _ | .resume _ | .close _ _ => .isTrue trivial

/-- There is reason to sleep on the channel: no byte to read, or no room to write. -/
def Due (pi : PipeRing) : PipeChan → Prop
  | .nread => pi.nread = pi.nwrite ∧ pi.writeopen = true
  | .nwrite => pi.full = true ∧ pi.readopen = true

def Justified (s : PipeSys ι) (c : PipeChan) : Prop := ∀ q, s.asleep q = some c → Due s.pi c

/-- What holds of the sleepers while process `p` stands inside at the given place. A writer that
may have stored bytes has to leave its loop by the `wakeup`. -/
def Owes (s : PipeSys ι) (p : ι) : PipePc → Prop
  | .wTest _ _ =>
    (s.pi.readopen = false ∨ s.killed p = true → Justified s .nread) ∧ Justified s .nwrite
  | .wBody _ _ => s.killed p = false ∧ Justified s .nwrite
  | .wEnd _ => Justified s .nwrite
  | .rCopy _ _ | .rEnd _ _ => Justified s .nread
  | .rTest _ | .rKilled _ | .rSleep _ => Justified s .nread ∧ Justified s .nwrite
  | .out | .wWait _ _ | .rWait _ => True

/-- Nobody sleeps in vain while `pi->lock` is free, and its holder sees to the rest. -/
structure NoneStranded (s : PipeSys ι) : Prop where
  free : s.lock = none → ∀ c, Justified s c
  held : ∀ p, s.lock = some p → Owes s p (s.pc p)

section Wakeups

variable {s : PipeSys ι} {p : ι} {c : PipeChan}

omit [DecidableEq ι] in
theorem Justified.of_none (h : ∀ q, s.asleep q ≠ some c) : Justified s c := fun q hq => absurd hq (h q)

omit [DecidableEq ι] in
theorem Justified.none_of (h : Justified s c) (hd : ¬ Due s.pi c) (q : ι) : s.asleep q ≠ some c :=
  fun hq => hd (h q hq)

theorem asleep_wakeup (h : s.asleep p = none) (q : ι) : (s.wakeup p c).asleep q ≠ some c := by
  intro hq
  simp only [PipeSys.wakeup] at hq
  split at hq
  · cases hq
  · rename_i hne
    refine hne ⟨?_, hq⟩
    rintro rfl
    rw [h] at hq
    cases hq

theorem Justified.wakeup {d : PipeChan} (h : Justified s d) : Justified (s.wakeup p c) d := by
  intro q hq
  simp only [PipeSys.wakeup] at hq
  split at hq
  · cases hq
  · exact h q hq

theorem Justified.sleep {d : PipeChan} {k : PipePc} (h : Justified s d) (hd : c = d → Due s.pi d) :
    Justified (s.sleep p c k) d := by
  intro q hq
  simp only [PipeSys.sleep] at hq
  by_cases hqp : q = p
  · subst hqp
    rw [update_self] at hq
    exact hd (Option.some.inj hq)
  · rw [update_of_ne hqp] at hq
    exact h q hq

theorem Justified.kill (h : Justified s c) : Justified (s.kill p) c := by
  intro q hq
  simp only [PipeSys.kill] at hq
  by_cases hqp : q = p
  · subst hqp
    rw [update_self] at hq
    cases hq
  · rw [update_of_ne hqp] at hq
    exact h q hq

end Wakeups

namespace NoneStranded

variable {s : PipeSys ι} {p : ι}

omit [DecidableEq ι] in
theorem of_free (hl : s.lock = none) (h : ∀ c, Justified s c) : NoneStranded s := by
  refine ⟨fun _ => h, ?_⟩
  intro p hp
  rw [hl] at hp
  cases hp

omit [DecidableEq ι] in
theorem of_held (hl : s.lock = some p) (h : Owes s p (s.pc p)) : NoneStranded s := by
  refine ⟨?_, ?_⟩
  · intro hn
    rw [hl] at hn
    cases hn
  · intro q hq
    rw [hl] at hq
    cases hq
    exact h

omit [DecidableEq ι] in
theorem owes (h : NoneStranded s) (hl : s.lock = some p) {c : PipePc} (hp : s.pc p = c) : Owes s p c :=
  hp ▸ h.held p hl

theorem goto (hl : s.lock = some p) {c : PipePc} (h : Owes s p c) : NoneStranded (s.goto p c) := by
  refine of_held (p := p) hl ?_
  simp only [PipeSys.goto, update_self]
  cases c <;> exact h

theorem acquire {c : PipePc} (h : Owes s p c) : NoneStranded { s.goto p c with lock := some p } := by
  refine of_held (p := p) rfl ?_
  simp only [PipeSys.goto, update_self]
  cases c <;> exact h

theorem leave (h : ∀ c, Justified s c) : NoneStranded (s.leave p) := of_free rfl h

/-- Only a writer in its loop looks at its own killed flag, and it is not the one that is killed. -/
theorem kill (h : NoneStranded s) (hok : inWriteLoop (s.pc p) = false) : NoneStranded (s.kill p) := by
  refine ⟨fun hl c => (h.free hl c).kill, ?_⟩
  intro r hl
  have ho := h.held r hl
  have hk : inWriteLoop (s.pc r) = true → (s.kill p).killed r = s.killed r := by
    intro hin
    apply update_of_ne
    rintro rfl
    rw [hin] at hok
    cases hok
  change Owes (s.kill p) r (s.pc r)
  cases hc : s.pc r with
  | wTest n i =>
    rw [hc] at ho hk
    refine ⟨?_, ho.2.kill⟩
    rw [hk rfl]
    exact fun hb => (ho.1 hb).kill
  | wBody n i =>
    rw [hc] at ho hk
    exact ⟨(hk rfl).trans ho.1, ho.2.kill⟩
  | wEnd | rCopy | rEnd =>
    rw [hc] at ho
    exact Justified.kill ho
  | rTest | rKilled | rSleep =>
    rw [hc] at ho
    exact ⟨ho.1.kill, ho.2.kill⟩
  | out | wWait | rWait => trivial

/-- No step of the pipe strands a sleeper, if kills come outside the write loop. -/
theorem step {s' : PipeSys ι} {e : PipeEvent ι} (h : NoneStranded s) (hx : PipeOrder s)
    (hok : KillsOutsideLoop s e) (hs : Piped s e s') : NoneStranded s' := by
  cases hs with
  | write p n hf hp | wResume p n i hf ha hp =>
    exact acquire ⟨fun _ => h.free hf .nread, h.free hf .nwrite⟩
  | read p n hf hp | rResume p n hf ha hp => exact acquire ⟨h.free hf .nread, h.free hf .nwrite⟩
  | broken p n i hl hp hi hb =>
    have ho := h.owes hl hp
    apply leave
    intro c
    cases c with
    | nread => exact ho.1 hb
    | nwrite => exact ho.2
  | more p n i hl hp hi hro hk =>
    have ho := h.owes hl hp
    exact goto hl ⟨hk, ho.2⟩
  | wrote p n i hl hp =>
    have ho := h.owes hl hp
    exact goto hl ho.2
  | badIn p n i hl hp =>
    have ho := h.owes hl hp
    exact goto hl ho.2
  | blocked p n i hl hp hf =>
    have ho := h.owes hl hp
    have hk := hx.locked.fact_at hl hp
    apply of_free rfl
    intro c
    cases c with
    | nread => exact (Justified.of_none (asleep_wakeup (hx.awake_of_inside hl))).sleep nofun
    | nwrite => exact (ho.2.wakeup).sleep (fun _ => ⟨hf, hk⟩)
  | put p n i ch hl hp hf =>
    have ho := h.owes hl hp
    have hk := hx.locked.fact_at hl hp
    have hno := ho.2.none_of (by simp [Due, hf])
    refine goto (s := s.setPi (s.pi.put ch)) hl ⟨?_, Justified.of_none hno⟩
    rintro (hc | hc)
    · exact absurd (hk.symm.trans hc) (by simp)
    · exact absurd (ho.1.symm.trans hc) (by simp)
  | wDone p i hl hp =>
    have ho := h.owes hl hp
    apply leave
    intro c
    cases c with
    | nread => exact Justified.of_none (asleep_wakeup (hx.awake_of_inside hl))
    | nwrite => exact Justified.wakeup ho
  | dry p n hl hp he hwo =>
    have ho := h.owes hl hp
    exact goto hl ho
  | wet p n hl hp he =>
    have ho := h.owes hl hp
    exact goto hl ho.1
  | dead p n hl hp hk =>
    have ho := h.owes hl hp
    apply leave
    intro c
    cases c with
    | nread => exact ho.1
    | nwrite => exact ho.2
  | tired p n hl hp =>
    have ho := h.owes hl hp
    exact goto hl ho
  | sleep p n hl hp =>
    have ho := h.owes hl hp
    have hk := hx.locked.fact_at hl hp
    apply of_free rfl
    intro c
    cases c with
    | nread => exact ho.1.sleep (fun _ => hk)
    | nwrite => exact ho.2.sleep nofun
  | drained p n i hl hp he | badOut p n i hl hp he =>
    have ho := h.owes hl hp
    exact goto hl ho
  | take p n i ch hl hp hi he =>
    have ho := h.owes hl hp
    have hno := Justified.none_of ho (by
      rintro ⟨heq, -⟩
      rw [(empty_iff s.pi).mpr heq] at he
      cases he)
    refine goto (s := s.setPi { s.pi with nread := s.pi.nread + 1 }) (c := .rCopy n (i + 1)) hl ?_
    exact Justified.of_none hno
  | rDone p n r hl hp =>
    have ho := h.owes hl hp
    apply leave
    intro c
    cases c with
    | nread => exact Justified.wakeup ho
    | nwrite => exact Justified.of_none (asleep_wakeup (hx.awake_of_inside hl))
  | close p writable hf hp =>
    have ha : s.asleep p = none := hx.awake (by rw [hp]; rfl)
    have hall := h.free hf
    unfold PipeSys.close
    split
    · refine of_free hf ?_
      intro c
      cases c with
      | nread => exact Justified.of_none (asleep_wakeup ha)
      | nwrite => exact Justified.wakeup (hall .nwrite)
    · refine of_free hf ?_
      intro c
      cases c with
      | nread => exact Justified.wakeup (hall .nread)
      | nwrite => exact Justified.of_none (asleep_wakeup ha)
  | kill p => exact h.kill hok

end NoneStranded

/-- No lost wakeup: in every run of any processes on a new pipe in which no `kkill` finds a process
that holds `pi->lock` in the loop of `pipewrite`, nobody sleeps on the pipe without reason
whenever `pi->lock` is free. -/
theorem no_lost_wakeup {data : Fin pipesize → Byte} {killed : ι → Bool}
    (hr : Run PipeSys.step KillsOutsideLoop (.alloc data killed) es s) (hl : s.lock = none) :
    (∀ q, s.asleep q = some .nread → s.pi.nread = s.pi.nwrite ∧ s.pi.writeopen = true) ∧
    (∀ q, s.asleep q = some .nwrite →
      s.pi.nwrite = s.pi.nread + BitVec.ofNat 32 pipesize ∧ s.pi.readopen = true) := by
  have hinv : NoneStranded s := by
    clear hl
    induction hr with
    | nil => exact .of_free rfl (fun _ => .of_none nofun)
    | snoc run meets next ih => exact ih.step (run_pipeOrder run) meets (step_piped next)
  have hall := hinv.free hl
  refine ⟨hall .nread, ?_⟩
  intro q hq
  obtain ⟨hf, ho⟩ := hall .nwrite q hq
  exact ⟨by simpa [PipeRing.full] using hf, ho⟩

def readerSleeps : List (PipeEvent Bool) := [.read false 1, .go false none, .go false none, .go false none]

/-- A writer gives the sleeping reader a byte and is killed after its call; the reader takes the byte
and sleeps in its next call. -/
def sleepsAgain : List (PipeEvent Bool) :=
  readerSleeps ++ [.write true 1, .go true none, .go true (some 65), .go true none, .go true none, .kill true] ++
    [.resume false, .go false none, .go false (some 0), .go false none, .go false none] ++ readerSleeps

/-- A reader takes the byte that woke it and sleeps again, after the writer was killed. -/
theorem no_lost_wakeup_sleepsAgain :
    ∃ s, Run PipeSys.step KillsOutsideLoop newPipe sleepsAgain s ∧ s.asleep false = some .nread ∧
      s.killed true = true ∧ s.pi.nread = 1 ∧ s.pi.nread = s.pi.nwrite ∧ s.pi.writeopen = true := by
  obtain ⟨s, hr, hl, ha, hk, hread⟩ : ∃ s, Run PipeSys.step KillsOutsideLoop newPipe sleepsAgain s ∧ s.lock = none ∧
      s.asleep false = some .nread ∧ s.killed true = true ∧ s.pi.nread = 1 :=
    replay_reaches (by decide)
  exact ⟨s, hr, ha, hk, hread, (no_lost_wakeup hr hl).1 false ha⟩

def writerKilled : List (PipeEvent Bool) :=
  readerSleeps ++ [.write true 2, .go true none, .go true (some 65), .kill true, .go true none]

/-- The reader of a killed writer sleeps on although there is a byte for it. -/
theorem writerKilled_strands_reader :
    ∃ s, Run PipeSys.step anyEvent newPipe writerKilled s ∧ s.lock = none ∧ s.asleep false = some .nread ∧
      s.pi.nread ≠ s.pi.nwrite :=
  replay_reaches (by decide)

end Xv6Filter.Proofs
