import Xv6Filter.Kernel.Pipe
import Xv6Filter.Lib.Monitor

namespace Xv6Filter.Proofs
open Lib Function

variable {ι : Type} [DecidableEq ι]

inductive Piped (s : PipeSys ι) : PipeEvent ι → PipeSys ι → Prop where
  | write (p : ι) (n : I32) (hf : s.lock = none) (hp : s.pc p = .out) :
      Piped s (.write p n) { s.goto p (.wTest n 0) with lock := some p }
  | read (p : ι) (n : I32) (hf : s.lock = none) (hp : s.pc p = .out) :
      Piped s (.read p n) { s.goto p (.rTest n) with lock := some p }
  | wResume (p : ι) (n : I32) (i : Nat) (hf : s.lock = none) (ha : s.asleep p = none) (hp : s.pc p = .wWait n i) :
      Piped s (.resume p) { s.goto p (.wTest n i) with lock := some p }
  | rResume (p : ι) (n : I32) (hf : s.lock = none) (ha : s.asleep p = none) (hp : s.pc p = .rWait n) :
      Piped s (.resume p) { s.goto p (.rTest n) with lock := some p }
  | broken (p : ι) (n : I32) (i : Nat) (hl : s.lock = some p) (hp : s.pc p = .wTest n i) (hi : i < n.toInt)
      (hb : s.pi.readopen = false ∨ s.killed p = true) : Piped s (.go p user) (s.leave p)
  | more (p : ι) (n : I32) (i : Nat) (hl : s.lock = some p) (hp : s.pc p = .wTest n i) (hi : i < n.toInt)
      (ho : s.pi.readopen = true) (hk : s.killed p = false) : Piped s (.go p user) (s.goto p (.wBody n i))
  | wrote (p : ι) (n : I32) (i : Nat) (hl : s.lock = some p) (hp : s.pc p = .wTest n i) :
      Piped s (.go p user) (s.goto p (.wEnd i))
  | blocked (p : ι) (n : I32) (i : Nat) (hl : s.lock = some p) (hp : s.pc p = .wBody n i) (hf : s.pi.full = true) :
      Piped s (.go p user) ((s.wakeup p .nread).sleep p .nwrite (.wWait n i))
  | badIn (p : ι) (n : I32) (i : Nat) (hl : s.lock = some p) (hp : s.pc p = .wBody n i) :
      Piped s (.go p none) (s.goto p (.wEnd i))
  | put (p : ι) (n : I32) (i : Nat) (ch : Byte) (hl : s.lock = some p) (hp : s.pc p = .wBody n i)
      (hf : s.pi.full = false) :
      Piped s (.go p (some ch)) ((s.setPi (s.pi.put ch)).goto p (.wTest n (i + 1)))
  | wDone (p : ι) (i : Nat) (hl : s.lock = some p) (hp : s.pc p = .wEnd i) :
      Piped s (.go p user) ((s.wakeup p .nread).leave p)
  | dry (p : ι) (n : I32) (hl : s.lock = some p) (hp : s.pc p = .rTest n) (he : s.pi.empty = true)
      (ho : s.pi.writeopen = true) : Piped s (.go p user) (s.goto p (.rKilled n))
  | wet (p : ι) (n : I32) (hl : s.lock = some p) (hp : s.pc p = .rTest n)
      (he : s.pi.empty = false ∨ s.pi.writeopen = false) : Piped s (.go p user) (s.goto p (.rCopy n 0))
  | dead (p : ι) (n : I32) (hl : s.lock = some p) (hp : s.pc p = .rKilled n) (hk : s.killed p = true) :
      Piped s (.go p user) (s.leave p)
  | tired (p : ι) (n : I32) (hl : s.lock = some p) (hp : s.pc p = .rKilled n) :
      Piped s (.go p user) (s.goto p (.rSleep n))
  | sleep (p : ι) (n : I32) (hl : s.lock = some p) (hp : s.pc p = .rSleep n) :
      Piped s (.go p user) (s.sleep p .nread (.rWait n))
  | drained (p : ι) (n : I32) (i : Nat) (hl : s.lock = some p) (hp : s.pc p = .rCopy n i)
      (he : i < n.toInt → s.pi.empty = true) : Piped s (.go p user) (s.goto p (.rEnd n i))
  | badOut (p : ι) (n : I32) (i : Nat) (hl : s.lock = some p) (hp : s.pc p = .rCopy n i)
      (he : s.pi.empty = false) : Piped s (.go p none) (s.goto p (.rEnd n (if i = 0 then -1 else i)))
  | take (p : ι) (n : I32) (i : Nat) (ch : Byte) (hl : s.lock = some p) (hp : s.pc p = .rCopy n i)
      (hi : i < n.toInt) (he : s.pi.empty = false) : Piped s (.go p (some ch))
        ((s.setPi { s.pi with nread := s.pi.nread + 1 }).goto p (.rCopy n (i + 1)))
  | rDone (p : ι) (n : I32) (r : Int) (hl : s.lock = some p) (hp : s.pc p = .rEnd n r) :
      Piped s (.go p user) ((s.wakeup p .nwrite).leave p)
  | close (p : ι) (writable : Bool) (hf : s.lock = none) (hp : s.pc p = .out) :
      Piped s (.close p writable) (s.close p writable)
  | kill (p : ι) : Piped s (.kill p) (s.kill p)

theorem advance_piped {s s' : PipeSys ι} {p : ι} {user : Option Byte} (hl : s.lock = some p)
    (h : s.advance p user = some s') : Piped s (.go p user) s' := by
  unfold PipeSys.advance at h
  split at h
  · rename_i n i hp
    split at h
    · rename_i hi
      split at h
      · rename_i hb
        cases h
        exact .broken p n i hl hp hi hb
      · rename_i hb
        cases h
        rw [not_or, Bool.not_eq_false, Bool.not_eq_true] at hb
        exact .more p n i hl hp hi hb.1 hb.2
    · cases h
      exact .wrote p n i hl hp
  · rename_i n i hp
    split at h
    · rename_i hf
      cases h
      exact .blocked p n i hl hp hf
    · rename_i hf
      split at h
      · cases h
        exact .badIn p n i hl hp
      · cases h
        exact .put p n i _ hl hp (by simpa using hf)
  · rename_i i hp
    cases h
    exact .wDone p i hl hp
  · rename_i n hp
    split at h
    · rename_i he
      cases h
      exact .dry p n hl hp he.1 he.2
    · rename_i he
      cases h
      rw [not_and_or, Bool.not_eq_true, Bool.not_eq_true] at he
      exact .wet p n hl hp he
  · rename_i n hp
    split at h
    · rename_i hk
      cases h
      exact .dead p n hl hp hk
    · cases h
      exact .tired p n hl hp
  · rename_i n hp
    cases h
    exact .sleep p n hl hp
  · rename_i n i hp
    split at h
    · rename_i hi
      split at h
      · rename_i he
        cases h
        exact .drained p n i hl hp (fun _ => he)
      · rename_i he
        rw [Bool.not_eq_true] at he
        split at h
        · cases h
          exact .badOut p n i hl hp he
        · cases h
          exact .take p n i _ hl hp hi he
    · rename_i hi
      cases h
      exact .drained p n i hl hp (fun hlt => absurd hlt hi)
  · rename_i n r hp
    cases h
    exact .rDone p n r hl hp
  · cases h
  · cases h
  · cases h

omit [DecidableEq ι] in
theorem free_lock {s : PipeSys ι} (h : s.free = true) : s.lock = none := by
  simp only [PipeSys.free, Bool.and_eq_true, Option.isNone_iff_eq_none] at h
  exact h.1

/-- Every step on the pipe is one of its transitions. -/
theorem step_piped {s s' : PipeSys ι} {e : PipeEvent ι} (h : s.step e = some s') : Piped s e s' := by
  cases e with
  | write p n =>
    simp only [PipeSys.step, Option.ite_none_right_eq_some, Option.some.injEq] at h
    obtain ⟨⟨hf, hp⟩, rfl⟩ := h
    exact .write p n (free_lock hf) hp
  | read p n =>
    simp only [PipeSys.step, Option.ite_none_right_eq_some, Option.some.injEq] at h
    obtain ⟨⟨hf, hp⟩, rfl⟩ := h
    exact .read p n (free_lock hf) hp
  | go p user =>
    simp only [PipeSys.step, Option.ite_none_right_eq_some] at h
    exact advance_piped h.1 h.2
  | resume p =>
    simp only [PipeSys.step, Option.ite_none_right_eq_some] at h
    obtain ⟨⟨hf, ha⟩, h⟩ := h
    split at h
    · rename_i n i hp
      cases h
      exact .wResume p n i (free_lock hf) ha hp
    · rename_i n hp
      cases h
      exact .rResume p n (free_lock hf) ha hp
    · cases h
  | close p writable =>
    simp only [PipeSys.step, Option.ite_none_right_eq_some, Option.some.injEq] at h
    obtain ⟨⟨hf, hp⟩, rfl⟩ := h
    exact .close p writable (free_lock hf) hp
  | kill p =>
    cases h
    exact .kill p

section Bytes

theorem full_iff (pi : PipeRing) : pi.full = true ↔ gap pi.nread pi.nwrite = pipesize := by
  simp only [PipeRing.full, decide_eq_true_eq]
  exact eq_add_iff _ _ _ (by decide)

theorem empty_iff (pi : PipeRing) : pi.empty = true ↔ pi.nread = pi.nwrite := by
  simp [PipeRing.empty]

def Idles (s : PipeSys ι) (e : PipeEvent ι) (s' : PipeSys ι) : Prop :=
  s'.pi.data = s.pi.data ∧ s'.pi.nread = s.pi.nread ∧ s'.pi.nwrite = s.pi.nwrite ∧ s.accepted e = [] ∧ s.delivered e = []

theorem Idles.of_go {s s' : PipeSys ι} {p : ι} {user : Option Byte} (hpi : s'.pi = s.pi)
    (hw : ∀ n i, s.pc p = .wBody n i → user = none ∨ s.pi.full = true)
    (hr : ∀ n i, s.pc p = .rCopy n i → user = none ∨ s.pi.empty = true ∨ ¬ i < n.toInt) : Idles s (.go p user) s' := by
  refine ⟨by rw [hpi], by rw [hpi], by rw [hpi], ?_, ?_⟩
  · cases user with
    | none => rfl
    | some ch =>
      simp only [PipeSys.accepted]
      split
      · rename_i n i hp
        have hf : s.pi.full = true := by simpa using hw n i hp
        simp [hf]
      · rfl
  · cases user with
    | none => rfl
    | some ch =>
      simp only [PipeSys.delivered]
      split
      · rename_i n i hp
        have he : s.pi.empty = true ∨ ¬ i < n.toInt := by simpa using hr n i hp
        rw [if_neg]
        rintro ⟨-, hi, hne⟩
        rcases he with he | he
        · rw [he] at hne
          cases hne
        · exact he hi
      · rfl

inductive Moved (s : PipeSys ι) : PipeEvent ι → PipeSys ι → Prop where
  | idle (h : Idles s e s') : Moved s e s'
  | put (p : ι) (ch : Byte) (hf : s.pi.full = false) (ha : s.accepted (.go p (some ch)) = [ch])
      (hd : s.delivered (.go p (some ch)) = []) (hs : s'.pi = s.pi.put ch) : Moved s (.go p (some ch)) s'
  | take (p : ι) (ch : Byte) (he : s.pi.empty = false) (ha : s.accepted (.go p (some ch)) = [])
      (hd : s.delivered (.go p (some ch)) = [s.pi.front])
      (hs : s'.pi = { s.pi with nread := s.pi.nread + 1 }) : Moved s (.go p (some ch)) s'

theorem Piped.moved {s s' : PipeSys ι} {e : PipeEvent ι} (h : Piped s e s') : Moved s e s' := by
  cases h with
  | write | read | wResume | rResume | kill => exact .idle ⟨rfl, rfl, rfl, rfl, rfl⟩
  | close p writable =>
    refine .idle ⟨?_, ?_, ?_, rfl, rfl⟩ <;>
    · unfold PipeSys.close
      split <;> rfl
  | put p n i ch hl hp hf =>
    refine .put p ch hf ?_ ?_ rfl
    · simp [PipeSys.accepted, hp, hl, hf]
    · simp [PipeSys.delivered, hp]
  | take p n i ch hl hp hi he =>
    refine .take p ch he ?_ ?_ rfl
    · simp [PipeSys.accepted, hp]
    · simp [PipeSys.delivered, hp, hl, hi, he]
  | blocked p n i hl hp hf =>
    refine .idle (.of_go rfl (fun _ _ _ => .inr hf) ?_)
    intro n i h
    rw [hp] at h
    cases h
  | drained p n i hl hp he =>
    refine .idle (.of_go rfl ?_ ?_)
    · intro n i h
      rw [hp] at h
      cases h
    · intro n i h
      rw [hp] at h
      cases h
      by_cases hi : i < n.toInt
      · exact .inr (.inl (he hi))
      · exact .inr (.inr hi)
  | badIn p n i hl hp | badOut p n i hl hp => exact .idle (.of_go rfl (fun _ _ _ => .inl rfl) (fun _ _ _ => .inl rfl))
  | broken p n i hl hp | more p n i hl hp | wrote p n i hl hp | wDone p i hl hp | dry p n hl hp | wet p n hl hp
  | dead p n hl hp | tired p n hl hp | sleep p n hl hp | rDone p n r hl hp =>
    refine .idle (.of_go rfl ?_ ?_) <;>
    · intro n i h
      rw [hp] at h
      cases h

/-- One step of the ring: it never holds more than `PIPESIZE` bytes, and what comes out is what went in. -/
theorem Moved.fifo {s s' : PipeSys ι} {e : PipeEvent ι} (h : Moved s e s')
    (hb : gap s.pi.nread s.pi.nwrite ≤ pipesize) :
    gap s'.pi.nread s'.pi.nwrite ≤ pipesize ∧
      s.delivered e ++ s'.pi.stored = s.pi.stored ++ s.accepted e := by
  cases h with
  | idle h =>
    obtain ⟨hd, hr, hw, ha, hdel⟩ := h
    rw [ha, hdel, List.append_nil, List.nil_append, PipeRing.stored, PipeRing.stored, hd, hr, hw]
    exact ⟨hb, rfl⟩
  | put p ch hf ha hd hs =>
    have hlt : gap s.pi.nread s.pi.nwrite < pipesize := by
      refine Nat.lt_of_le_of_ne hb ?_
      intro he
      rw [(full_iff s.pi).mpr he] at hf
      cases hf
    have hlt' : gap s.pi.nread s.pi.nwrite + 1 < 2 ^ 32 := by
      simp only [pipesize] at hlt
      omega
    have hn := gap_succ s.pi.nread s.pi.nwrite hlt'
    rw [ha, hd, hs, List.nil_append]
    constructor
    · change gap s.pi.nread (s.pi.nwrite + 1#32) ≤ pipesize
      rw [hn]
      exact hlt
    · exact between_push s.pi.data s.pi.nread s.pi.nwrite (by decide) ch hlt hlt'
  | take p ch he ha hd hs =>
    have hne : s.pi.nread ≠ s.pi.nwrite := by simpa [PipeRing.empty] using he
    have hn := gap_pop s.pi.nread s.pi.nwrite hne
    rw [ha, hd, hs, List.append_nil]
    constructor
    · change gap (s.pi.nread + 1#32) s.pi.nwrite ≤ pipesize
      omega
    · exact (between_cons s.pi.data s.pi.nread s.pi.nwrite hne).symm

end Bytes

def Knows (pi : PipeRing) : PipePc → Prop
  | .wBody _ _ => pi.readopen = true
  | .rKilled _ | .rSleep _ => pi.nread = pi.nwrite ∧ pi.writeopen = true
  | .rCopy _ i => i = 0 → pi.nread ≠ pi.nwrite ∨ pi.writeopen = false
  | .rEnd n r => r = 0 → 0 < n.toInt → pi.nread = pi.nwrite ∧ pi.writeopen = false
  | _ => True

structure PipeOrder (s : PipeSys ι) : Prop where
  locked : Exclusive PipePc.inside (Knows s.pi) s.lock s.pc
  asleep : ∀ p, s.asleep p ≠ none → (s.pc p).waiting = true

namespace PipeOrder

variable {s : PipeSys ι} {p : ι} {c : PipePc}

omit [DecidableEq ι] in
theorem awake (h : PipeOrder s) (hw : (s.pc p).waiting = false) : s.asleep p = none := by
  by_contra ha
  rw [h.asleep p ha] at hw
  cases hw

omit [DecidableEq ι] in
theorem awake_of_inside (h : PipeOrder s) (hl : s.lock = some p) : s.asleep p = none := by
  apply h.awake
  have hi := (h.locked.holder p).mpr hl
  cases hc : s.pc p with
  | wWait | rWait =>
    rw [hc] at hi
    cases hi
  | _ => rfl

theorem asleep_update (h : PipeOrder s) {asleep : ι → Option PipeChan}
    (ha : ∀ q, q ≠ p → asleep q ≠ none → s.asleep q ≠ none) (hp : asleep p ≠ none → c.waiting = true) (q : ι)
    (hq : asleep q ≠ none) : (update s.pc p c q).waiting = true := by
  by_cases hqp : q = p
  · subst hqp
    rw [update_self]
    exact hp hq
  · rw [update_of_ne hqp]
    exact h.asleep q (ha q hqp hq)

theorem inside (h : PipeOrder s) (hl : s.lock = some p) (pi : PipeRing) (hc : c.inside = true) (hk : Knows pi c) :
    PipeOrder ((s.setPi pi).goto p c) := by
  refine ⟨h.locked.goto hl hc hk, h.asleep_update (fun _ _ hq => hq) ?_⟩
  intro hp
  exact absurd (h.awake_of_inside hl) hp

theorem acquire (h : PipeOrder s) (hl : s.lock = none) (ha : s.asleep p = none) (hc : c.inside = true)
    (hk : Knows s.pi c) : PipeOrder { s.goto p c with lock := some p } := by
  have hx := h.locked
  rw [hl] at hx
  exact ⟨hx.acquire hc hk, h.asleep_update (fun _ _ hq => hq) (fun hp => absurd ha hp)⟩

theorem leave (h : PipeOrder s) (hl : s.lock = some p) : PipeOrder (s.leave p) := by
  refine ⟨h.locked.release hl rfl, h.asleep_update (fun _ _ hq => hq) ?_⟩
  intro hp
  exact absurd (h.awake_of_inside hl) hp

theorem sleep (h : PipeOrder s) (hl : s.lock = some p) (hc : c.inside = false) (hw : c.waiting = true)
    (chan : PipeChan) : PipeOrder (s.sleep p chan c) := by
  refine ⟨h.locked.release hl hc, h.asleep_update ?_ (fun _ => hw)⟩
  intro q hq ha
  simp only [PipeSys.sleep] at ha
  rwa [update_of_ne hq] at ha

omit [DecidableEq ι] in
theorem setPi (h : PipeOrder s) (hl : s.lock = none) (pi : PipeRing) : PipeOrder (s.setPi pi) := by
  have hx := h.locked
  rw [hl] at hx
  exact ⟨(congrArg (Exclusive _ _ · s.pc) hl).mpr hx.free, h.asleep⟩

theorem wakeup (h : PipeOrder s) (chan : PipeChan) : PipeOrder (s.wakeup p chan) := by
  refine ⟨h.locked, ?_⟩
  intro q hq
  apply h.asleep q
  simp only [PipeSys.wakeup] at hq
  split at hq
  · exact absurd rfl hq
  · exact hq

theorem kill (h : PipeOrder s) : PipeOrder (s.kill p) := by
  refine ⟨h.locked, ?_⟩
  intro q hq
  apply h.asleep q
  simp only [PipeSys.kill] at hq
  by_cases hqp : q = p
  · subst hqp
    rw [update_self] at hq
    exact absurd rfl hq
  · rwa [update_of_ne hqp] at hq

theorem step {s' : PipeSys ι} {e : PipeEvent ι} (h : PipeOrder s) (hs : Piped s e s') : PipeOrder s' := by
  cases hs with
  | write p n hf hp | read p n hf hp => exact h.acquire hf (h.awake (by rw [hp]; rfl)) rfl trivial
  | wResume p n i hf ha hp | rResume p n hf ha hp => exact h.acquire hf ha rfl trivial
  | broken p n i hl hp | dead p n hl hp => exact h.leave hl
  | wDone p i hl hp | rDone p n r hl hp => exact (h.wakeup _).leave hl
  | blocked p n i hl hp hf => exact (h.wakeup _).sleep hl rfl rfl _
  | sleep p n hl hp => exact h.sleep hl rfl rfl _
  | more p n i hl hp hi ho hk => exact h.inside hl _ rfl ho
  | wrote p n i hl hp | badIn p n i hl hp => exact h.inside hl s.pi rfl trivial
  | put p n i ch hl hp hf => exact h.inside hl _ rfl trivial
  | dry p n hl hp he ho => exact h.inside hl _ rfl ⟨(empty_iff s.pi).mp he, ho⟩
  | wet p n hl hp he =>
    refine h.inside hl s.pi rfl (fun _ => ?_)
    refine he.imp_left ?_
    intro hne heq
    rw [(empty_iff s.pi).mpr heq] at hne
    cases hne
  | tired p n hl hp =>
    have hk := h.locked.fact_at hl hp
    exact h.inside hl s.pi rfl hk
  | drained p n i hl hp he =>
    have hk := h.locked.fact_at hl hp
    refine h.inside hl s.pi rfl ?_
    intro hi hn
    have hi0 : i = 0 := by omega
    have hempty := (empty_iff s.pi).mp (he (by omega))
    exact ⟨hempty, (hk hi0).resolve_left (fun hne => hne hempty)⟩
  | badOut p n i hl hp he =>
    refine h.inside hl s.pi rfl ?_
    intro hr
    split at hr <;> omega
  | take p n i ch hl hp hi he =>
    refine h.inside hl _ rfl ?_
    intro h0
    omega
  | close p writable hf hp =>
    unfold PipeSys.close
    split <;> exact (h.setPi hf _).wakeup _
  | kill p => exact h.kill

omit [DecidableEq ι] in
theorem alloc (data : Fin pipesize → Byte) (killed : ι → Bool) : PipeOrder (PipeSys.alloc data killed) := by
  refine ⟨⟨?_, nofun⟩, fun _ hq => absurd rfl hq⟩
  intro p
  simp [PipeSys.alloc, PipePc.inside]

end PipeOrder

/-- A run of any processes on a new pipe keeps the lock discipline. -/
theorem run_pipeOrder {ok : PipeSys ι → PipeEvent ι → Prop} {data : Fin pipesize → Byte} {killed : ι → Bool}
    (hr : Run PipeSys.step ok (.alloc data killed) es s) : PipeOrder s :=
  hr.invariant PipeOrder (.alloc data killed) fun _ _ _ h _ hs => h.step (step_piped hs)

theorem run_fifo {ok : PipeSys ι → PipeEvent ι → Prop} {data : Fin pipesize → Byte} {killed : ι → Bool}
    (hr : Run PipeSys.step ok (.alloc data killed) es s) :
    gap s.pi.nread s.pi.nwrite ≤ pipesize ∧
      observe PipeSys.step PipeSys.delivered es (.alloc data killed) ++ s.pi.stored =
        observe PipeSys.step PipeSys.accepted es (.alloc data killed) := by
  induction hr with
  | nil => exact ⟨(gap_self _).trans_le (Nat.zero_le _), between_self data _⟩
  | @snoc es t e u run _ next ih =>
    obtain ⟨hb, heq⟩ := (step_piped next).moved.fifo ih.1
    refine ⟨hb, ?_⟩
    rw [run.observe_snoc, run.observe_snoc, List.append_assoc, heq, ← List.append_assoc, ih.2]

/-- Pipes are FIFO queues: in every run of any processes on a new pipe it never holds more than
`PIPESIZE` bytes, the bytes delivered and then those stored are those accepted, a failed copy
leaves the pipe as it was, and a `piperead` of more than nothing that is about to return 0 found
the pipe empty and its write end closed. -/
theorem pipe_is_fifo {data : Fin pipesize → Byte} {killed : ι → Bool}
    (hr : Run PipeSys.step anyEvent (.alloc data killed) es s) :
    (s.pi.nwrite - s.pi.nread).toNat ≤ pipesize ∧
    observe PipeSys.step PipeSys.delivered es (.alloc data killed) ++ s.pi.stored =
      observe PipeSys.step PipeSys.accepted es (.alloc data killed) ∧
    (∀ p s', s.step (.go p none) = some s' → s'.pi = s.pi) ∧
    (∀ p n, s.pc p = .rEnd n 0 → 0 < n.toInt → s.pi.nread = s.pi.nwrite ∧ s.pi.writeopen = false) := by
  obtain ⟨hb, heq⟩ := run_fifo hr
  refine ⟨hb, heq, ?_, ?_⟩
  · intro p s' hs
    cases step_piped hs <;> rfl
  · intro p n hp hn
    have hin : (s.pc p).inside = true := by rw [hp]; rfl
    have ho := (run_pipeOrder hr).locked
    exact ho.fact_at ((ho.holder p).mp hin) hp rfl hn

def newPipe : PipeSys Bool := .alloc (fun _ => 0) (fun _ => false)

def writeRead : List (PipeEvent Bool) :=
  [.write true 2, .go true none, .go true (some 65), .go true none, .go true (some 66), .go true none, .go true none,
    .read false 1, .go false none, .go false (some 0), .go false none]

/-- Two bytes are written, and the first of them is read. -/
theorem pipe_is_fifo_writeRead :
    ∃ s, Run PipeSys.step anyEvent newPipe writeRead s ∧ s.pc false = .rEnd 1 1 ∧
      observe PipeSys.step PipeSys.delivered writeRead newPipe ++ s.pi.stored =
        observe PipeSys.step PipeSys.accepted writeRead newPipe ∧
      observe PipeSys.step PipeSys.accepted writeRead newPipe = [65, 66] := by
  obtain ⟨s, hr, hp⟩ : ∃ s, Run PipeSys.step anyEvent newPipe writeRead s ∧ s.pc false = .rEnd 1 1 :=
    replay_reaches (by decide)
  obtain ⟨-, heq, -⟩ := pipe_is_fifo hr
  exact ⟨s, hr, hp, heq, by decide⟩

end Xv6Filter.Proofs
