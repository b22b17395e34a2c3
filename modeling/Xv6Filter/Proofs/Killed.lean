import Xv6Filter.Proofs.Ratchet

namespace Xv6Filter.Proofs
open Lib Function

def NoKillZero (_ : Slot) (p : Proc) : Prop := Admits p .kill → argint p.trapframe.a0 ≠ 0

instance (i : Slot) (p : Proc) : Decidable (NoKillZero i p) :=
  inferInstanceAs (Decidable (_ → _))

def Kills (m : Machine) (e : Event) (i : Slot) (pid : I32) : Prop :=
  (∃ n, m.pc i = .kill pid n) ∨
    e = .ecall i ∧ Admits (m.k.proc i) .kill ∧ pid = argint (m.k.proc i).trapframe.a0

theorem Kills.of_setPc {m : Machine} {i l : Slot} {c : Kpc} {pid : I32} {n : Nat} {e : Event}
    (h : (m.setPc l c).pc i = .kill pid n) (hc : ∀ pid n, c ≠ .kill pid n) : Kills m e i pid := by
  simp only [Machine.setPc_pc, update_apply] at h
  split at h
  · exact absurd h (hc pid n)
  · exact .inl ⟨n, h⟩

theorem enter_kill {m : Machine} {i l : Slot} {s : Sys} {pid : I32} {n : Nat}
    (h : (m.enter l s).pc i = .kill pid n) :
    m.pc i = .kill pid n ∨ i = l ∧ s = .kill ∧ pid = argint (m.k.proc l).trapframe.a0 := by
  cases s with
  | kill =>
    simp only [Machine.enter, Machine.setPc_pc, update_apply] at h
    split at h
    · rename_i hi
      simp only [Kpc.kill.injEq] at h
      exact .inr ⟨hi, rfl, h.1.symm⟩
    · exact .inl h
  | _ =>
    refine .inl ?_
    simp only [Machine.enter, Machine.finish, Machine.setPc_pc, Machine.setK_pc,
      update_apply] at h
    split at h
    · cases h
    · exact h

theorem ecall_kill {m : Machine} {i l : Slot} {pid : I32} {n : Nat}
    (h : (m.ecall l).pc i = .kill pid n) : Kills m (.ecall l) i pid := by
  unfold Machine.ecall at h
  split at h
  · exact .of_setPc h (by simp)
  · rename_i hk
    have hp := pastEcall_past m l
    simp only [Machine.dispatch, Machine.setK_k, hp.a7_eq, hp.masked_eq, hp.inspect_eq] at h
    have admitted : ∀ s, Sys.ofNum (argint (m.k.proc l).trapframe.a7) = some s →
        (masked (m.k.proc l) (argint (m.k.proc l).trapframe.a7) = true →
          inspect (m.k.proc l) s = .run) →
        ((m.setK (m.k.pastEcall l)).enter l s).pc i = .kill pid n →
        Kills m (.ecall l) i pid := by
      intro s hs hi he
      rcases enter_kill he with hpc | ⟨rfl, rfl, ha⟩
      · exact .inl ⟨n, hpc⟩
      · refine .inr ⟨rfl, ⟨not_not.mp hk, hs, hi⟩, ?_⟩
        rw [ha, Machine.setK_k, hp.a0_eq]
    split at h
    · exact .of_setPc h (by simp)
    · rename_i s hs
      split at h
      · split at h
        · exact .of_setPc h (by simp)
        · rename_i hi
          exact admitted s hs (fun _ => hi) h
        · unfold Machine.refuse at h
          refine .of_setPc h ?_
          intro _ _
          split <;> simp
      · rename_i hm
        exact admitted s hs (fun ht => absurd ht hm) h

theorem Kills.of_finish {m : Machine} {i l : Slot} {r : U64 × Kernel} {pid : I32} {n : Nat}
    {e : Event} (h : (m.finish l r).pc i = .kill pid n) : Kills m e i pid :=
  .of_setPc h (by simp)

theorem allocAt_kill {m m' : Machine} {i l : Slot} {j n : Nat} {mem : Kernel.ForkMem} {pid : I32}
    {e : Event} (h : m.allocAt l j mem = some m') (hpc : m'.pc i = .kill pid n) :
    Kills m e i pid := by
  unfold Machine.allocAt at h
  split at h
  · dsimp only at h
    split at h
    · split at h
      · cases h
      · cases h
        exact .of_setPc hpc (by simp)
      · cases h
        exact .of_finish hpc
    · cases h
      exact .of_setPc hpc (by simp)
  · cases h
    exact .of_finish hpc

theorem waitAt_kill {m : Machine} {i l : Slot} {addr : U64} {copied : Bool} {pt : PageTable}
    {pid : I32} {n : Nat} {e : Event} (hpc : (m.waitAt l addr copied pt).pc i = .kill pid n) :
    Kills m e i pid := by
  unfold Machine.waitAt at hpc
  dsimp only at hpc
  split at hpc
  · split at hpc <;> exact .of_finish hpc
  · split at hpc
    · exact .of_finish hpc
    · exact .inl ⟨n, hpc⟩
  · exact .of_finish hpc

theorem killAt_kill {m : Machine} {i l : Slot} {pid pid' : I32} {j n : Nat} {e : Event}
    (hl : m.pc l = .kill pid' j) (hpc : (m.killAt l pid' j).pc i = .kill pid n) :
    Kills m e i pid := by
  unfold Machine.killAt at hpc
  split at hpc
  · dsimp only at hpc
    split at hpc
    · exact .of_finish hpc
    · simp only [Machine.setPc_pc, update_apply] at hpc
      split at hpc
      · rename_i hi
        simp only [Kpc.kill.injEq] at hpc
        rw [← hi, hpc.1] at hl
        exact .inl ⟨j, hl⟩
      · exact .inl ⟨n, hpc⟩
  · exact .of_finish hpc

/-- A process is in `kkill` only for the pid it passed when its call was admitted. -/
theorem step_kills {m m' : Machine} {e : Event} {i : Slot} {pid : I32} {n : Nat}
    (h : m.step e = some m') (hpc : m'.pc i = .kill pid n) : Kills m e i pid := by
  cases step_stepped h with
  | ecall l => exact ecall_kill hpc
  | alloc l mem _ _ ha => exact allocAt_kill ha hpc
  | wait => exact waitAt_kill hpc
  | kill l pid' j _ hl => exact killAt_kill hl hpc
  | launch l c =>
    rcases Kills.of_setPc (e := .launch l) hpc (by simp) with ⟨n, hn⟩ | ⟨hc, _⟩
    · exact .of_finish hn
    · cases hc
  | done => exact .of_finish hpc
  | fault | auditDone | adopt | exit => exact .of_setPc hpc (by simp)
  | sysret =>
    refine .of_setPc hpc ?_
    intro _ _
    split <;> simp
  | sched | yield | user | work | sleep | auditWork | wakeup => exact .inl ⟨n, hpc⟩

structure CleanSlots (m : Machine) : Prop where
  target : ∀ i pid n, m.pc i = .kill pid n → pid ≠ 0
  unused : ∀ j, ¬ live j m → (guardAt m j).pid = 0 ∧ (guardAt m j).killed = 0

theorem boot_clean (fs : Fs) (file : Fp → File) : CleanSlots (boot fs file) where
  target := by
    intro i pid n h
    simp only [boot] at h
    split at h <;> cases h
  unused := by
    intro j hj
    rw [live_iff_free] at hj
    rw [guardAt_boot] at hj ⊢
    by_cases h0 : j = 0
    · simp [h0] at hj
    · simp [h0, Guard.clear]

theorem live_of_running {m : Machine} {j : Slot} (hr : (m.k.proc j).state = .running) : live j m := by
  simp [live, hr]

theorem live_of_trap {m m' : Machine} {e : Event} {j : Slot} (h : m.step e = some m')
    (he : e = .ecall j ∨ e = .fault j) : live j m := by
  rcases he with rfl | rfl
  · cases step_stepped h with
    | ecall _ hr => exact live_of_running hr
  · cases step_stepped h with
    | fault _ hr => exact live_of_running hr

theorem step_clean {m m' : Machine} {e : Event} (hi : CleanSlots m)
    (hk : OnEcall NoKillZero m e) (h : m.step e = some m') : CleanSlots m' where
  target := by
    intro i pid n hpc
    rcases step_kills h hpc with ⟨n', hn⟩ | ⟨rfl, ha, rfl⟩
    · exact hi.target i pid n' hn
    · exact hk i rfl ha
  unused := by
    intro j hj
    rw [live_iff_free, Bool.not_eq_false] at hj
    have hu : (guardAt m j).free = true → (guardAt m j).pid = 0 ∧ (guardAt m j).killed = 0 := by
      intro hf
      refine hi.unused j ?_
      rw [live_iff_free, hf]
      simp
    have he := step_effect h j
    generalize guardAt m' j = g at he hj
    cases he with
    | violation => exact absurd hj (by simp [(live_iff_free j m).mp (live_of_trap h (.inl rfl))])
    | fault => exact absurd hj (by simp [(live_iff_free j m).mp (live_of_trap h (.inr rfl))])
    | kill i at_ => exact absurd (hu hj).1 (hi.target i _ _ at_)
    | born | launch => cases hj
    | aborted | freed => exact ⟨rfl, rfl⟩
    | _ => exact hu hj

/-- A step that may kill the process in slot `j`: it faults, it violates its filter
in strict mode, or a `kkill` of its own pid is in progress. -/
def Strikes (m : Machine) (j : Slot) (e : Event) : Prop :=
  e = .fault j ∨ (e = .ecall j ∧ Refuses (m.k.proc j) ∧ (m.k.proc j).strictMode ≠ 0) ∨
    ∃ i n, e = .kill i ∧ m.pc i = .kill (m.k.proc j).pid n

theorem step_strikes {m m' : Machine} {e : Event} {j : Slot} (h : m.step e = some m')
    (hk : (guardAt m j).killed = 0) (hk' : (guardAt m' j).killed ≠ 0) : Strikes m j e := by
  have he := step_effect h j
  generalize guardAt m' j = g at he hk'
  cases he with
  | violation refused strict => exact .inr (.inl ⟨rfl, refused, strict⟩)
  | fault => exact .inl rfl
  | kill i at_ => exact .inr (.inr ⟨i, _, rfl, at_⟩)
  | aborted | freed => exact absurd rfl hk'
  | _ => exact absurd hk hk'

theorem CleanSlots.live_of_strikes {m m' : Machine} {e : Event} {j : Slot} (hc : CleanSlots m)
    (h : m.step e = some m') (hst : Strikes m j e) : live j m := by
  rcases hst with he | ⟨he, _⟩ | ⟨i, n, _, hpc⟩
  · exact live_of_trap h (.inr he)
  · exact live_of_trap h (.inl he)
  · exact Decidable.of_not_not fun hl => hc.target i _ n hpc (hc.unused j hl).1

/-- In the run `es` to `m` the process in slot `j` was killed in its own lifetime:
after a step that strikes it its slot stays taken and its pid the same. -/
def KilledInRun (ok : Machine → Event → Prop) (s : Machine) (es : List Event) (m : Machine)
    (j : Slot) : Prop :=
  ∃ es1 e es2 m1 m2, es = es1 ++ e :: es2 ∧ Run Machine.step ok s es1 m1 ∧ live j m1 ∧
    (m1.k.proc j).pid = (m.k.proc j).pid ∧ Strikes m1 j e ∧ m1.step e = some m2 ∧
    LiveRun Machine.step ok (live j) m2 es2 m

theorem KilledInRun.snoc {ok : Machine → Event → Prop} {s m m' : Machine} {es : List Event}
    {e : Event} {j : Slot} (hk : KilledInRun ok s es m j) (ho : ok m e)
    (h : m.step e = some m') (hl : live j m) (hl' : live j m') :
    KilledInRun ok s (es ++ [e]) m' j := by
  obtain ⟨es1, e1, es2, m1, m2, rfl, hr, hl1, hp, hst, hs, hlr⟩ := hk
  refine ⟨es1, e1, es2 ++ [e], m1, m2, by simp, hr, hl1, hp.trans ?_, hst, hs,
    hlr.snoc ho h hl'⟩
  exact (step_ratchet h j hl hl').1.symm

theorem run_clean (hr : Run Machine.step (OnEcall NoKillZero) (boot fs file) es m) :
    CleanSlots m :=
  hr.invariant CleanSlots (boot_clean fs file) (fun _ _ _ hi hk hs => step_clean hi hk hs)

theorem run_killed (hr : Run Machine.step (OnEcall NoKillZero) (boot fs file) es m)
    (hl : live j m) (hk : (guardAt m j).killed ≠ 0) :
    KilledInRun (OnEcall NoKillZero) (boot fs file) es m j := by
  induction hr with
  | nil =>
    rw [guardAt_boot] at hk
    split at hk <;> exact absurd rfl hk
  | @snoc es t e u run meets next ih =>
    by_cases hkt : (guardAt t j).killed = 0
    · have hst := step_strikes next hkt hk
      have hlt := (run_clean run).live_of_strikes next hst
      exact ⟨es, e, [], t, u, rfl, run, hlt, (step_ratchet next j hlt hl).1.symm, hst, next,
        .nil hl⟩
    · have hlt : live j t := Decidable.of_not_not fun hn => hkt ((run_clean run).unused j hn).2
      exact (ih hlt hkt).snoc meets next hlt hl

/-- No process is born killed in a run in which no admitted `kill` passes pid 0:
unused slots are not killed, so a killed process faulted, violated strict mode or
was the target of a `kkill` of its pid after that pid was allocated. -/
theorem killed_in_own_lifetime
    (hr : Run Machine.step (OnEcall NoKillZero) (boot fs file) es m) :
    (∀ j, (m.k.proc j).state = .unused → (m.k.proc j).killed = 0) ∧
    ∀ j, (m.k.proc j).state ≠ .unused → (m.k.proc j).killed ≠ 0 →
      KilledInRun (OnEcall NoKillZero) (boot fs file) es m j := by
  constructor
  · intro j hj
    exact ((run_clean hr).unused j (not_not.mpr hj)).2
  · intro j hj hk
    exact run_killed hr hj hk

def killSelf : List Event := startInit ++ [load 0 6 1, .ecall 0, .kill 0]

/-- A process that kills itself; the child forked before is not killed. -/
theorem killed_in_own_lifetime_killSelf :
    ∃ m, Run Machine.step (OnEcall NoKillZero) (boot bareFs bareFiles) killSelf m ∧
      (m.k.proc 0).killed = 1 ∧ (m.k.proc 1).killed = 0 ∧
      KilledInRun (OnEcall NoKillZero) (boot bareFs bareFiles) killSelf m 0 := by
  obtain ⟨m, hr, hu, hl, hk⟩ :
      ∃ m, Run Machine.step (OnEcall NoKillZero) (boot bareFs bareFiles) killSelf m ∧
        (m.k.proc 1).state = .unused ∧ (m.k.proc 0).state ≠ .unused ∧ (m.k.proc 0).killed = 1 :=
    replay_reaches (by decide)
  obtain ⟨hfree, hcause⟩ := killed_in_own_lifetime hr
  exact ⟨m, hr, hk, hfree 1 hu, hcause 0 hl (by rw [hk]; decide)⟩

def killZero : List Event := startInit ++ [load 0 6 0, .ecall 0, .kill 0, .kill 0, .sysret 0]
def forkAfter : List Event :=
  [load 0 1 0, .ecall 0, .alloc 0 .enough, .alloc 0 .enough, .adopt 0, .launch 0]

/-- `kill(0)` marks an unused slot, and the next child is born killed. -/
theorem killZero_child_born_killed :
    (∃ m, Run Machine.step anyEvent (boot bareFs bareFiles) killZero m ∧
      (m.k.proc 1).state = .unused ∧ (m.k.proc 1).killed = 1) ∧
    ∃ m, Run Machine.step anyEvent (boot bareFs bareFiles) (killZero ++ forkAfter) m ∧
      (m.k.proc 1).state = .runnable ∧ (m.k.proc 1).pid = 2 ∧ (m.k.proc 1).killed = 1 :=
  ⟨replay_reaches (by decide), replay_reaches (by decide)⟩

end Xv6Filter.Proofs
