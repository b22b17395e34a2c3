import Xv6Filter.Proofs.Family

namespace Xv6Filter.Proofs
open Lib Function

def died (j : Slot) (m : Machine) : Event → List (I32 × I32)
  | .exit i _ _ _ =>
    match m.pc i with
    | .exit status => if i = j then [((m.k.proc j).pid, status)] else []
    | _ => []
  | _ => []

def reaped (j : Slot) (m : Machine) (e : Event) : List (I32 × I32) :=
  match reaping m e with
  | some r => if r.child = j then [(r.pid, r.status)] else []
  | none => []

def unreaped (j : Slot) (m : Machine) : List (I32 × I32) :=
  if (m.k.proc j).state = .zombie then [((m.k.proc j).pid, (m.k.proc j).xstate)] else []

def leftBy (x : Life) : List (I32 × I32) := if x.state = .zombie then [(x.pid, x.xstate)] else []

theorem unreaped_eq (j : Slot) (m : Machine) : unreaped j m = leftBy (life m j) := rfl

theorem leftBy_of_ne {x : Life} (h : x.state ≠ .zombie) : leftBy x = [] := if_neg h

theorem leftBy_of_eq {x : Life} (h : x.state = .zombie) : leftBy x = [(x.pid, x.xstate)] := if_pos h

theorem died_nil {m : Machine} {e : Event} (j : Slot) (hx : ∀ i fs file pipe, e ≠ .exit i fs file pipe) :
    died j m e = [] := by
  unfold died
  split
  · exact absurd rfl (hx _ _ _ _)
  · rfl

theorem reaped_nil {m : Machine} {e : Event} (j : Slot) (hr : reaping m e = none) : reaped j m e = [] := by
  simp [reaped, hr]

theorem phase_exit {c : Kpc} {status : I32} (h : phase c = .exit status) : c = .exit status := by
  cases c with
  | exit s =>
    cases h
    rfl
  | _ => cases h

theorem Standing.balance {m : Machine} {l' : Slot → Life} (h : Standing (life m)) (hl : Lived m e l') (j : Slot) :
    leftBy (life m j) ++ died j m e = reaped j m e ++ leftBy (l' j) := by
  have hquiet : ∀ {e}, reaping m e = none → (∀ i fs file pipe, e ≠ .exit i fs file pipe) →
      leftBy (l' j) = leftBy (life m j) →
      leftBy (life m j) ++ died j m e = reaped j m e ++ leftBy (l' j) := by
    intro e hr hx hp
    rw [died_nil j hx, reaped_nil j hr, hp, List.append_nil, List.nil_append]
  cases hl with
  | same hr hx => exact hquiet hr hx rfl
  | turn i ph hs ho hn hr hx => exact hquiet hr hx (by grind [leftBy])
  | sched i hs => exact hquiet rfl (fun _ _ _ _ => nofun) (by grind [leftBy])
  | yield i hs => exact hquiet rfl (fun _ _ _ _ => nofun) (by grind [leftBy])
  | sleep i c hs => exact hquiet rfl (fun _ _ _ _ => nofun) (by grind [leftBy])
  | waits i hs hp hz hr => exact hquiet hr (fun _ _ _ _ => nofun) (by grind [leftBy])
  | woken w hw hr hx => exact hquiet hr hx (by grind [leftBy])
  | born i c hs hp hu => exact hquiet rfl (fun _ _ _ _ => nofun) (by grind [leftBy])
  | aborted i c hu =>
    have hcs : (life m c).cleared.state = .unused := rfl
    exact hquiet rfl (fun _ _ _ _ => nofun) (by grind [leftBy])
  | adopt i c hs hp =>
    have hu := h.child i c (.inl hp)
    exact hquiet rfl (fun _ _ _ _ => nofun) (by grind [leftBy])
  | launch i c hs hp =>
    have hu := h.child i c (.inr hp)
    exact hquiet rfl (fun _ _ _ _ => nofun) (by grind [leftBy])
  | exit i status hs hp hi =>
    have hpc : m.pc i = .exit status := phase_exit hp
    rw [reaped_nil j rfl, List.nil_append]
    by_cases hj : j = i
    · subst hj
      rw [update_self, leftBy_of_ne (by simp [hs]), leftBy_of_eq rfl, List.nil_append]
      simp only [died, hpc, if_pos]
      rfl
    · rw [update_of_ne hj]
      simp only [died, hpc, if_neg (Ne.symm hj), List.append_nil]
      simp only [leftBy, Life.bereaved]
      grind
  | freed i c hs hp hz hc hr =>
    simp only [died, List.append_nil, reaped, hr]
    by_cases hj : c = j
    · subst hj
      have hfree : (life m c).cleared.state = .unused := rfl
      rw [if_pos rfl, leftBy_of_eq hz, leftBy_of_ne, List.append_nil]
      grind
    · rw [if_neg hj, List.nil_append]
      grind [leftBy]

theorem life_boot (fs : Fs) (file : Fp → File) (j : Slot) : life (boot fs file) j =
    if j = 0 then ⟨.runnable, none, 1, 0, none, .other⟩ else ⟨.unused, none, 0, 0, none, .other⟩ := by
  unfold life boot bootKernel
  by_cases hj : j = 0
  · subst hj
    rfl
  · simp only [Kernel.allocFound, Kernel.setProc_proc, update_of_ne hj, if_neg hj]
    rfl

theorem boot_standing (fs : Fs) (file : Fp → File) : Standing (life (boot fs file)) := by
  have hother : ∀ j, (life (boot fs file) j).phase = .other := by
    intro j
    rw [life_boot]
    split <;> rfl
  have hnf : ∀ i c, ¬ (life (boot fs file) i).phase.Forking c := by
    intro i c hf
    rw [hother] at hf
    rcases hf with hf | hf <;> cases hf
  refine ⟨?_, fun i c hf => absurd hf (hnf i c), fun i _ c hf => absurd hf (hnf i c)⟩
  intro j
  rw [life_boot]
  split
  · exact .of_alive (by simp [Alive]) (by simp)
  · exact ⟨nofun, nofun, fun _ => .inr rfl⟩

theorem boot_family (fs : Fs) (file : Fp → File) : Family (boot fs file).k.initproc (life (boot fs file)) := by
  have hinit : (boot fs file).k.initproc = 0 := rfl
  have hpar : ∀ j, (life (boot fs file) j).parent = none := by
    intro j
    rw [life_boot]
    split <;> rfl
  refine ⟨boot_standing fs file, ?_, ?_, ?_, ?_, ?_⟩
  · rw [hinit, life_boot, if_pos rfl]
    simp [Alive]
  · intro i c hl
    rw [life_boot] at hl
    split at hl <;> cases hl
  · intro j q hj
    rw [hpar] at hj
    cases hj
  · intro j hj hs
    rw [hinit] at hj
    rw [life_boot, if_neg hj] at hs
    simp [Alive] at hs
  · intro i hi
    rw [life_boot] at hi
    split at hi <;> cases hi

theorem run_family {ok : Machine → Event → Prop} (hr : Run Machine.step ok (boot fs file) es m) :
    Family m.k.initproc (life m) := by
  refine hr.invariant (fun m => Family m.k.initproc (life m)) (boot_family fs file) ?_
  intro t e u h _ hs
  rw [(step_counters hs).1]
  exact h.lived (step_lived hs)

/-- Every exit from slot `j` is handed over once, in order, or waits to be. -/
theorem run_balance (j : Slot) (hr : Run Machine.step anyEvent (boot fs file) es m) :
    observe Machine.step (died j) es (boot fs file) =
      observe Machine.step (reaped j) es (boot fs file) ++ unreaped j m := by
  induction hr with
  | nil =>
    rw [unreaped_eq, leftBy_of_ne]
    · rfl
    · rw [life_boot]
      split <;> simp
  | @snoc es t e u run _ next ih =>
    have hb := (run_family run).toStanding.balance (step_lived next) j
    rw [run.observe_snoc, run.observe_snoc, ih, List.append_assoc, List.append_assoc, unreaped_eq, unreaped_eq, hb]

/-- A `kwait` that returns a child returns a zombie child of the caller, and frees it. -/
theorem step_reaping {m m' : Machine} {r : Reaping} (hs : m.step e = some m') (hr : reaping m e = some r) :
    (m.k.proc r.child).state = .zombie ∧ (m.k.proc r.child).parent = some r.parent ∧
      (m'.k.proc r.parent).trapframe.a0 = r.pid.signExtend 64 ∧ (m'.k.proc r.child).state = .unused := by
  cases step_stepped hs with
  | wait i addr copied pt hrun hpc =>
    simp only [reaping, hpc] at hr
    split at hr
    · rename_i addr' j ha hscan
      cases ha
      split at hr
      · cases hr
      · rename_i hcopy
        cases hr
        obtain ⟨hp, hz⟩ := kwaitScan_zombie hscan
        have hij : i ≠ j := by
          rintro rfl
          rw [hrun] at hz
          cases hz
        refine ⟨hz, hp, ?_⟩
        simp only [Machine.waitAt, hscan, if_neg hcopy]
        simp [Machine.finish, Kernel.setA0, Kernel.freeproc, hij, hij.symm]
    · cases hr
  | _ => cases hr

/-- A `kwait` whose copyout fails changes no slot but its own, and returns -1. -/
theorem waitAt_uncopied {m : Machine} {i j : Slot} {addr : U64} {pt : PageTable}
    (hscan : m.k.kwaitScan i = .zombie j) (ha : addr ≠ 0) :
    (∀ c, c ≠ i → (m.waitAt i addr false pt).k.proc c = m.k.proc c) ∧
      ((m.waitAt i addr false pt).k.proc i).trapframe.a0 = minusOne := by
  have hw : m.waitAt i addr false pt =
      m.finish i (minusOne, m.k.setProc i { m.k.proc i with pagetable := pt }) := by
    unfold Machine.waitAt
    rw [hscan]
    dsimp only
    rw [if_pos ha, if_pos ⟨ha, rfl⟩]
  rw [hw]
  constructor
  · intro c hc
    simp [Machine.finish, Kernel.setA0, hc]
  · simp [Machine.finish, Kernel.setA0]

/-- Exit and wait in every run from boot. Every process but init has a living parent; the
exits from each slot are, in order, the handovers of that slot by `kwait` followed by the zombie
that still waits; a handover goes to the parent; a failed copyout leaves the child where it is;
and nobody sleeps in `kwait` beside a zombie child. -/
theorem exits_are_waited_for (hr : Run Machine.step anyEvent (boot fs file) es m) :
    (∀ j, j ≠ m.k.initproc →
      (m.k.proc j).state = .sleeping ∨ (m.k.proc j).state = .runnable ∨ (m.k.proc j).state = .running ∨
        (m.k.proc j).state = .zombie →
      ∃ q, (m.k.proc j).parent = some q ∧ (m.k.proc q).state ≠ .unused ∧ (m.k.proc q).state ≠ .zombie) ∧
    (∀ j, observe Machine.step (died j) es (boot fs file) =
      observe Machine.step (reaped j) es (boot fs file) ++ unreaped j m) ∧
    (∀ e m' r, m.step e = some m' → reaping m e = some r →
      (m.k.proc r.child).state = .zombie ∧ (m.k.proc r.child).parent = some r.parent ∧
        (m'.k.proc r.parent).trapframe.a0 = r.pid.signExtend 64 ∧ (m'.k.proc r.child).state = .unused) ∧
    (∀ i addr j pt m', m.pc i = .wait addr → addr ≠ 0 → m.k.kwaitScan i = .zombie j →
      m.step (.wait i false pt) = some m' →
      (∀ c, c ≠ i → m'.k.proc c = m.k.proc c) ∧ (m'.k.proc i).trapframe.a0 = minusOne) ∧
    (∀ i addr, (m.k.proc i).state = .sleeping → m.pc i = .wait addr →
      ∀ j, (m.k.proc j).parent = some i → (m.k.proc j).state ≠ .zombie) := by
  have hf := run_family hr
  refine ⟨?_, fun j => run_balance j hr, fun e m' r hs hrp => step_reaping hs hrp, ?_, ?_⟩
  · intro j hj hs
    have hs' : Alive (life m j).state ∨ (life m j).state = .zombie := by
      change Alive (m.k.proc j).state ∨ (m.k.proc j).state = .zombie
      rcases hs with hs | hs | hs | hs <;> simp [hs, Alive]
    obtain ⟨q, hq⟩ := Option.ne_none_iff_exists'.mp (hf.has_parent j hj hs')
    have ha := hf.parent_alive j q hq
    exact ⟨q, hq, ha.1, ha.2.2⟩
  · intro i addr j pt m' hpc ha hscan hs
    cases step_stepped hs with
    | wait _ addr' _ _ _ hpc' =>
      rw [hpc] at hpc'
      cases hpc'
      exact waitAt_uncopied hscan ha
  · intro i addr hs hpc
    exact (hf.waits i hs (life_phase hpc)).2

def forkExit : List Event :=
  startInit ++ [load 0 1 0, .ecall 0, .alloc 0 .enough, .alloc 0 .enough, .adopt 0, .launch 0,
    .sched 1, load 1 2 7, .ecall 1, .exit 1 bareFs bareFiles (fun _ => none)]

/-- A child has exited, and its parent has not waited for it yet. -/
theorem exits_are_waited_for_forkExit :
    ∃ m, Run Machine.step anyEvent (boot bareFs bareFiles) forkExit m ∧ (m.k.proc 1).state = .zombie ∧
      (∃ q, (m.k.proc 1).parent = some q ∧ (m.k.proc q).state ≠ .zombie) ∧
      observe Machine.step (died 1) forkExit (boot bareFs bareFiles) =
        observe Machine.step (reaped 1) forkExit (boot bareFs bareFiles) ++ [(2, 7)] := by
  obtain ⟨m, hr, hinit, hz, hp, hx⟩ :
      ∃ m, Run Machine.step anyEvent (boot bareFs bareFiles) forkExit m ∧ m.k.initproc = 0 ∧
        (m.k.proc 1).state = .zombie ∧ (m.k.proc 1).pid = 2 ∧ (m.k.proc 1).xstate = 7 :=
    replay_reaches (by decide)
  obtain ⟨hparent, hbooks, -⟩ := exits_are_waited_for hr
  obtain ⟨q, hq, -, hqz⟩ := hparent 1 (by rw [hinit]; decide) (.inr (.inr (.inr hz)))
  refine ⟨m, hr, hz, ⟨q, hq, hqz⟩, ?_⟩
  rw [hbooks 1, unreaped, if_pos hz, hp, hx]

end Xv6Filter.Proofs
