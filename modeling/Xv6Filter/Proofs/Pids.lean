import Xv6Filter.Proofs.Waiting
import Xv6Filter.Proofs.Killed

namespace Xv6Filter.Proofs
open Lib

/-- `allocpid` is not asked for a pid when `nextpid` has wrapped around to a number that is not positive. -/
def PidLeft (m : Machine) (e : Event) : Prop := allocating m e = true → 0 < m.k.nextpid.toInt

instance (m : Machine) (e : Event) : Decidable (PidLeft m e) := inferInstanceAs (Decidable (_ → _))

/-- The pids of the processes: positive, below `nextpid` as long as that is positive, and all
different. A slot without a process has pid 0. -/
structure Pids (m : Machine) : Prop where
  unused : ∀ j, ¬ live j m → (guardAt m j).pid = 0
  positive : ∀ j, live j m → 0 < (guardAt m j).pid.toInt
  below : ∀ j, live j m → 0 < m.k.nextpid.toInt → (guardAt m j).pid.toInt < m.k.nextpid.toInt
  distinct : ∀ i j, live i m → live j m → (guardAt m i).pid = (guardAt m j).pid → i = j

/-- A pid after a step is the one before it, or the one just taken. -/
theorem step_pid {m m' : Machine} {e : Event} {j : Slot} (h : m.step e = some m') (hs : Standing (life m))
    (hl : live j m') :
    live j m ∧ (guardAt m' j).pid = (guardAt m j).pid ∨
      ∃ i, e = .alloc i .enough ∧ m.pc i = .alloc j ∧ allocating m e = true ∧
        (guardAt m' j).pid = m.k.nextpid := by
  rw [live_iff_free] at hl
  have hlive : (guardAt m j).free = false → live j m := (live_iff_free j m).mpr
  have he := step_effect h j
  generalize guardAt m' j = g at he hl ⊢
  cases he with
  | born i at_ free =>
    have hu : (m.k.proc j).state = .unused := by simpa [guardAt, guard] using free
    exact .inr ⟨i, rfl, at_, by simp [allocating, at_, hu], rfl⟩
  | launch i at_ =>
    have hu : (m.k.proc j).state = .used := hs.child i j (.inr (life_phase at_))
    exact .inl ⟨by simp [live, hu], rfl⟩
  | aborted | freed => cases hl
  | _ => exact .inl ⟨hlive hl, rfl⟩

theorem step_pid_unused {m m' : Machine} {e : Event} {j : Slot} (h : m.step e = some m')
    (hu : ¬ live j m → (guardAt m j).pid = 0) (hl : ¬ live j m') : (guardAt m' j).pid = 0 := by
  rw [live_iff_free, Bool.not_eq_false] at hu hl
  have he := step_effect h j
  generalize guardAt m' j = g at he hl ⊢
  cases he with
  | born | launch => cases hl
  | aborted | freed => rfl
  | _ => exact hu hl

theorem nextpid_step {m m' : Machine} {e : Event} (h : m.step e = some m') (hp : PidLeft m e)
    (hpos : 0 < m'.k.nextpid.toInt) :
    0 < m.k.nextpid.toInt ∧ m'.k.nextpid.toInt = m.k.nextpid.toInt + if allocating m e then 1 else 0 := by
  have hn := (step_counters h).2
  by_cases ha : allocating m e = true
  · have h0 := hp ha
    rw [if_pos ha] at hn ⊢
    refine ⟨h0, ?_⟩
    rw [hn] at hpos ⊢
    have hlt := BitVec.toInt_lt (x := m.k.nextpid)
    have h1 : (1 : I32).toInt = 1 := rfl
    rw [BitVec.toInt_add, h1, Int.bmod_def] at hpos ⊢
    split at hpos <;> omega
  · rw [if_neg ha] at hn ⊢
    rw [hn] at hpos ⊢
    exact ⟨hpos, by omega⟩

theorem Pids.step {m m' : Machine} {e : Event} (hi : Pids m) (hs : Standing (life m)) (hp : PidLeft m e)
    (h : m.step e = some m') : Pids m' := by
  have hcase := fun j => step_pid (j := j) h hs
  refine ⟨fun j hl => step_pid_unused h (hi.unused j) hl, ?_, ?_, ?_⟩
  · intro j hl
    rcases hcase j hl with ⟨hlj, he⟩ | ⟨i, _, _, ha, he⟩
    · rw [he]
      exact hi.positive j hlj
    · rw [he]
      exact hp ha
  · intro j hl hpos
    obtain ⟨h0, hn⟩ := nextpid_step h hp hpos
    rcases hcase j hl with ⟨hlj, he⟩ | ⟨i, _, _, ha, he⟩
    · have hlt := hi.below j hlj h0
      rw [he, hn]
      split <;> omega
    · rw [he, hn, if_pos ha]
      omega
  · intro j j' hl hl' heq
    rcases hcase j hl with ⟨hlj, he⟩ | ⟨i, hev, hpc, ha, he⟩ <;>
      rcases hcase j' hl' with ⟨hlj', he'⟩ | ⟨i', hev', hpc', ha', he'⟩
    · exact hi.distinct j j' hlj hlj' (by rw [← he, ← he', heq])
    · have hlt := hi.below j hlj (hp ha')
      rw [← he, heq, he'] at hlt
      omega
    · have hlt := hi.below j' hlj' (hp ha)
      rw [← he', ← heq, he] at hlt
      omega
    · rw [hev] at hev'
      cases hev'
      rw [hpc] at hpc'
      exact Fin.ext (Kpc.alloc.inj hpc')

theorem ofNum_kill {num : I32} (h : Sys.ofNum num = some .kill) : num = 6 := by
  have htable : ∀ n < syscallTable.length, (syscallTable[n]?).join = some .kill → n = 6 := by decide
  unfold Sys.ofNum at h
  split at h
  · rename_i hb
    have hn := htable num.toInt.toNat (by omega) h
    apply BitVec.eq_of_toInt_eq
    change num.toInt = 6
    omega
  · cases h

/-- A process in `kkill` is there, and if its filter inspects `kill` it looks for a pid above 2. -/
structure Targets (m : Machine) : Prop where
  there : ∀ i pid n, m.pc i = .kill pid n → live i m
  inspected : ∀ i pid n, m.pc i = .kill pid n → masked (m.k.proc i) 6 = true → 2 < pid.toInt

/-- The mask of a process in `kkill` does not change, nor does it leave its slot. -/
theorem kill_guard {m m' : Machine} {e : Event} {i : Slot} {pid : I32} {n : Nat} (h : m.step e = some m')
    (hs : Standing (life m)) (hl : live i m) (hpc : m.pc i = .kill pid n) :
    live i m' ∧ (guardAt m' i).mask = (guardAt m i).mask := by
  rw [live_iff_free] at hl ⊢
  have hnz : (m.k.proc i).state ≠ .zombie := by
    intro hz
    have hg := (hs.stands i).zombie hz
    rw [life_phase hpc] at hg
    cases hg
  have hnu : e ≠ .ecall i := by
    rintro rfl
    cases step_stepped h with
    | ecall _ _ hu =>
      rw [hpc] at hu
      cases hu
  have he := step_effect h i
  generalize guardAt m' i = g at he ⊢
  cases he with
  | setfilter | setfilterChild | setaudit | setstrict | violation => exact absurd rfl hnu
  | born _ _ free | aborted _ _ _ free =>
    rw [free] at hl
    cases hl
  | freed _ zombie => exact absurd zombie hnz
  | launch => exact ⟨rfl, rfl⟩
  | _ => exact ⟨hl, rfl⟩

/-- The filter of a process that enters `kkill` stays as it is in that step. -/
theorem ecall_guard {m m' : Machine} {i : Slot} (h : m.step (.ecall i) = some m')
    (ha : Admits (m.k.proc i) .kill) : live i m' ∧ (guardAt m' i).mask = (guardAt m i).mask := by
  have hl := live_of_trap h (.inl rfl)
  rw [live_iff_free] at hl ⊢
  have hne : ∀ s, Admits (m.k.proc i) s → s = .kill := by
    intro s hs
    have := hs.2.1.symm.trans ha.2.1
    exact Option.some.inj this
  have he := step_effect h i
  generalize guardAt m' i = g at he ⊢
  cases he with
  | setfilter runs | setfilterChild runs | setaudit runs | setstrict runs => cases hne _ runs
  | _ => exact ⟨hl, rfl⟩

theorem masked_of_mask {p q : Proc} (h : p.syscallMask = q.syscallMask) (num : I32) :
    masked p num = masked q num := by
  simp only [masked, h]

theorem Targets.step {m m' : Machine} {e : Event} (hi : Targets m) (hs : Standing (life m))
    (h : m.step e = some m') : Targets m' := by
  refine ⟨?_, ?_⟩
  · intro i pid n hpc
    rcases step_kills h hpc with ⟨n', hn⟩ | ⟨rfl, ha, -⟩
    · exact (kill_guard h hs (hi.there i pid n' hn) hn).1
    · exact (ecall_guard h ha).1
  · intro i pid n hpc hm
    rcases step_kills h hpc with ⟨n', hn⟩ | ⟨rfl, ha, rfl⟩
    · have hg := (kill_guard h hs (hi.there i pid n' hn) hn).2
      rw [masked_of_mask hg] at hm
      exact hi.inspected i pid n' hn hm
    · have hg := (ecall_guard h ha).2
      rw [masked_of_mask hg] at hm
      rw [← ofNum_kill ha.2.1] at hm
      have hv := ha.2.2 hm
      simp only [inspect] at hv
      split at hv
      · assumption
      · cases hv

theorem boot_pids (fs : Fs) (file : Fp → File) : Pids (boot fs file) := by
  have hzero : ∀ j, live j (boot fs file) → j = 0 := by
    intro j hl
    rw [live_iff_free, guardAt_boot] at hl
    by_contra hj
    rw [if_neg hj] at hl
    cases hl
  have hnext : (boot fs file).k.nextpid = 2 := rfl
  refine ⟨?_, ?_, ?_, ?_⟩
  · intro j hl
    rw [live_iff_free, guardAt_boot] at hl
    rw [guardAt_boot]
    by_cases hj : j = 0
    · rw [if_pos hj] at hl
      exact absurd rfl hl
    · rw [if_neg hj]
      rfl
  · intro j hl
    rw [hzero j hl, guardAt_boot]
    decide
  · intro j hl _
    rw [hzero j hl, guardAt_boot, hnext]
    decide
  · intro i j hi hj _
    rw [hzero i hi, hzero j hj]

theorem boot_targets (fs : Fs) (file : Fp → File) : Targets (boot fs file) := by
  have hno : ∀ i pid n, (boot fs file).pc i ≠ .kill pid n := by
    intro i pid n h
    simp only [boot] at h
    split at h <;> cases h
  exact ⟨fun i pid n h => absurd h (hno i pid n), fun i pid n h => absurd h (hno i pid n)⟩

theorem run_pids (hr : Run Machine.step PidLeft (boot fs file) es m) : Pids m := by
  induction hr with
  | nil => exact boot_pids fs file
  | snoc run meets next ih => exact ih.step (run_family run).toStanding meets next

theorem run_targets {ok : Machine → Event → Prop} (hr : Run Machine.step ok (boot fs file) es m) : Targets m := by
  induction hr with
  | nil => exact boot_targets fs file
  | snoc run _ next ih => exact ih.step (run_family run).toStanding next

theorem kill_strikes {m m' : Machine} {i c : Slot} {pid : I32} {n : Nat} (h : m.step (.kill i) = some m')
    (hpc : m.pc i = .kill pid n) (hk : (guardAt m' c).killed ≠ (guardAt m c).killed) :
    (guardAt m c).pid = pid := by
  have he := step_effect h c
  generalize guardAt m' c = g at he hk
  cases he with
  | kill _ at_ =>
    rw [hpc] at at_
    cases at_
    rfl
  | _ => exact absurd rfl hk

theorem reaping_pid {m : Machine} {e : Event} {r : Reaping} (h : reaping m e = some r) :
    r.pid = (m.k.proc r.child).pid := by
  unfold reaping at h
  split at h
  · split at h
    · split at h
      · cases h
      · cases h
        rfl
    · cases h
  · cases h

/-- In every run in which `allocpid` is never asked past the last positive pid, pids identify
processes: they are positive and different, so a `kkill` strikes the one process that has the
pid, a `kwait` returns the pid of its child alone, and a `kill` that was inspected looks for
neither pid 1 nor pid 2. -/
theorem pids_identify (hr : Run Machine.step PidLeft (boot fs file) es m) :
    (∀ j, (m.k.proc j).state ≠ .unused → 0 < (m.k.proc j).pid.toInt) ∧
    (∀ i j, (m.k.proc i).state ≠ .unused → (m.k.proc j).state ≠ .unused →
      (m.k.proc i).pid = (m.k.proc j).pid → i = j) ∧
    (∀ i pid n m' c, m.pc i = .kill pid n → m.step (.kill i) = some m' →
      (m'.k.proc c).killed ≠ (m.k.proc c).killed →
      (m.k.proc c).pid = pid ∧ ∀ j, (m.k.proc j).state ≠ .unused → (m.k.proc j).pid = pid → j = c) ∧
    (∀ e m' r, m.step e = some m' → reaping m e = some r →
      ∀ j, (m.k.proc j).state ≠ .unused → (m.k.proc j).pid = r.pid → j = r.child) ∧
    (∀ i pid n, m.pc i = .kill pid n → masked (m.k.proc i) 6 = true → 2 < pid.toInt) := by
  have hp := run_pids hr
  refine ⟨hp.positive, hp.distinct, ?_, ?_, (run_targets hr).inspected⟩
  · intro i pid n m' c hpc hs hk
    have hc := kill_strikes hs hpc hk
    refine ⟨hc, ?_⟩
    intro j hj hpid
    have hl : live c m := by
      by_contra hl
      have h0 := hp.unused c hl
      have hpos : 0 < (m.k.proc j).pid.toInt := hp.positive j hj
      rw [hpid, ← hc, h0] at hpos
      exact absurd hpos (by decide)
    exact hp.distinct j c hj hl (hpid.trans hc.symm)
  · intro e m' r hs hrp j hj hpid
    obtain ⟨hz, -⟩ := step_reaping hs hrp
    refine hp.distinct j r.child hj (by rw [live, hz]; simp) ?_
    exact hpid.trans (reaping_pid hrp)

/-- The exited child has a pid of its own until it is waited for. -/
theorem pids_identify_forkExit :
    ∃ m, Run Machine.step PidLeft (boot bareFs bareFiles) forkExit m ∧ (m.k.proc 1).state ≠ .unused ∧
      0 < (m.k.proc 1).pid.toInt ∧ (m.k.proc 0).pid ≠ (m.k.proc 1).pid := by
  obtain ⟨m, hr, h0, h1⟩ :
      ∃ m, Run Machine.step PidLeft (boot bareFs bareFiles) forkExit m ∧ (m.k.proc 0).state ≠ .unused ∧
        (m.k.proc 1).state ≠ .unused :=
    replay_reaches (by decide)
  obtain ⟨hpos, hne, -⟩ := pids_identify hr
  exact ⟨m, hr, h1, hpos 1 h1, fun he => absurd (hne 0 1 h0 h1 he) (by decide)⟩

section Wraparound

def failedFork : List Event := [load 0 1 0, .ecall 0, .alloc 0 .enough, .alloc 0 .noTrapframe, .sysret 0]

def goodFork : List Event :=
  [load 0 1 0, .ecall 0, .alloc 0 .enough, .alloc 0 .enough, .adopt 0, .launch 0]

structure Bare (p : Proc) : Prop where
  running : p.state = .running
  killed : p.killed = 0
  mask : p.syscallMask = 0
  files : p.ofile = fun _ => none
  cwd : p.cwd ≠ none
  pid : p.pid = 1

structure Idle (p : I32) (m : Machine) : Prop where
  init : Bare (m.k.proc 0)
  user : m.pc 0 = .user
  free : (m.k.proc 1).state = .unused
  next : m.k.nextpid = p

structure Forking (p : I32) (m : Machine) : Prop where
  init : Bare (m.k.proc 0)
  alloc : m.pc 0 = .alloc 1
  free : (m.k.proc 1).state = .unused
  next : m.k.nextpid = p

theorem Idle.forks {m : Machine} (h : Idle p m) :
    ∃ t, Run Machine.step anyEvent m [load 0 1 0, .ecall 0, .alloc 0 .enough] t ∧ Forking p t := by
  have hnum : Sys.ofNum (argint 1#64) = some .fork := by decide
  have h10 : (1 : Slot) ≠ 0 := by decide
  have hb := h.init
  obtain ⟨t, ht, hf⟩ : ∃ t, replay Machine.step anyEvent [load 0 1 0, .ecall 0, .alloc 0 .enough] m = some t ∧
      Forking p t := by
    simp [replay, anyEvent, load, Machine.step, Machine.running, hb.running, h.user, Machine.ecall, hb.killed,
      Kernel.pastEcall, Machine.dispatch, hnum, masked, hb.mask, Machine.enter, Machine.allocAt, nproc]
    constructor
    · constructor <;> simp [hb.files, hb.cwd, hb.pid]
    · simp
    · simp [h.free, h10]
    · simp [h.next]
  exact ⟨t, replay_run ht, hf⟩

theorem Forking.step_alloc {m : Machine} (h : Forking p m) (mem : Kernel.ForkMem) :
    m.step (.alloc 0 mem) = match m.k.kforkFound 0 1 mem with
      | .error _ => none
      | .ok (true, k) => some ((m.setK k).setPc 0 (.adopt 1))
      | .ok (false, k) => some (m.finish 0 (minusOne, k)) := by
  have hs : m.step (.alloc 0 mem) = m.allocAt 0 1 mem := by
    simp only [Machine.step, h.alloc, running_iff.mpr h.init.running, if_true]
  rw [hs]
  unfold Machine.allocAt
  rw [dif_pos (by decide : 1 < nproc)]
  dsimp only
  rw [if_pos (show (m.k.proc ⟨1, _⟩).state = .unused from h.free)]
  rfl

/-- A `fork` that fails for want of a page costs a pid all the same. -/
theorem Idle.failedFork {m : Machine} (h : Idle p m) :
    ∃ t, Run Machine.step anyEvent m failedFork t ∧ Idle (p + 1) t := by
  obtain ⟨t, ht, hf⟩ := h.forks
  have h10 : (1 : Slot) ≠ 0 := by decide
  have h01 : (0 : Slot) ≠ 1 := by decide
  have hb := hf.init
  generalize hu : t.finish 0 (minusOne, (t.k.allocFound 1).freeproc 1) = u
  have hs : t.step (.alloc 0 .noTrapframe) = some u := by
    rw [hf.step_alloc, ← hu]
    rfl
  have hinit : Bare (u.k.proc 0) := by
    rw [← hu]
    constructor <;>
      simp [Machine.finish, Kernel.freeproc, Kernel.allocFound, Kernel.setA0, h01, hb.running, hb.killed,
        hb.mask, hb.files, hb.cwd, hb.pid]
  have hpc : u.pc 0 = .sysret := by
    rw [← hu]
    simp [Machine.finish]
  have hs' : u.step (.sysret 0) = some (u.setPc 0 .user) := by
    simp [Machine.step, Machine.running, hinit.running, hpc, hinit.killed]
  refine ⟨u.setPc 0 .user, ((ht.snoc trivial hs).snoc trivial hs'), hinit, by simp, ?_, ?_⟩
  · rw [← hu]
    simp [Machine.finish, Kernel.freeproc, Kernel.allocFound, Kernel.setA0, h10]
  · rw [← hu, ← hf.next]
    rfl

theorem Idle.failedForks {m : Machine} (h : Idle p m) (n : Nat) :
    ∃ es t, Run Machine.step anyEvent m es t ∧ Idle (p + BitVec.ofNat 32 n) t := by
  induction n with
  | zero => exact ⟨[], m, .nil, by simpa using h⟩
  | succ n ih =>
    obtain ⟨es, t, hr, ht⟩ := ih
    obtain ⟨u, hu, hidle⟩ := ht.failedFork
    refine ⟨es ++ Proofs.failedFork, u, hr.append hu, ?_⟩
    have hp : p + BitVec.ofNat 32 (n + 1) = p + BitVec.ofNat 32 n + 1 := by
      rw [BitVec.ofNat_add, BitVec.add_assoc]
      rfl
    rw [hp]
    exact hidle

theorem dupFiles_none (k : Kernel) : k.dupFiles (fun _ => none) = .ok k := by
  unfold Kernel.dupFiles
  induction List.finRange nofile with
  | nil => rfl
  | cons fd fds ih =>
    rw [List.foldlM_cons]
    exact ih

theorem Idle.goodFork {m : Machine} (h : Idle p m) :
    ∃ t, Run Machine.step anyEvent m goodFork t ∧ (t.k.proc 1).state = .runnable ∧ (t.k.proc 1).pid = p ∧
      (t.k.proc 0).state = .running ∧ (t.k.proc 0).pid = 1 := by
  obtain ⟨t, ht, hf⟩ := h.forks
  have h10 : (1 : Slot) ≠ 0 := by decide
  have h01 : (0 : Slot) ≠ 1 := by decide
  have hb := hf.init
  obtain ⟨cwd, hcwd⟩ := Option.ne_none_iff_exists'.mp hb.cwd
  obtain ⟨k, hk, h1, hp1, h0, hp0⟩ : ∃ k, t.k.kforkFound 0 1 .enough = .ok (true, k) ∧
      (k.proc 1).state = .used ∧ (k.proc 1).pid = p ∧ (k.proc 0).state = .running ∧ (k.proc 0).pid = 1 := by
    have hfiles : ((t.k.allocFound 1).proc 0).ofile = fun _ => none := by
      simp [Kernel.allocFound, h01, hb.files]
    unfold Kernel.kforkFound
    dsimp only
    rw [hfiles, dupFiles_none]
    simp [Kernel.inheritRest, Kernel.inheritFilter, Kernel.allocFound, h01, h10, hcwd, hb.running, hb.pid, hf.next]
  have hs : t.step (.alloc 0 .enough) = some ((t.setK k).setPc 0 (.adopt 1)) := by
    rw [hf.step_alloc, hk]
  obtain ⟨u, hu, hgoal⟩ : ∃ u, replay Machine.step anyEvent [.adopt 0, .launch 0] ((t.setK k).setPc 0 (.adopt 1)) =
      some u ∧ (u.k.proc 1).state = .runnable ∧ (u.k.proc 1).pid = p ∧ (u.k.proc 0).state = .running ∧
        (u.k.proc 0).pid = 1 := by
    simp [replay, anyEvent, Machine.step, Machine.running, h0, h01, h10, Machine.finish, Kernel.setA0, hp1, hp0]
  exact ⟨u, (ht.snoc trivial hs).append (replay_run hu), hgoal⟩

theorem boot_idle :
    ∃ m, Run Machine.step anyEvent (boot bareFs bareFiles) startInit m ∧ Idle 2 m := by
  obtain ⟨m, hr, h⟩ : ∃ m, Run Machine.step anyEvent (boot bareFs bareFiles) startInit m ∧
      ((m.k.proc 0).state = .running ∧ (m.k.proc 0).killed = 0 ∧ (m.k.proc 0).syscallMask = 0 ∧
        (∀ fd, (m.k.proc 0).ofile fd = none) ∧ (m.k.proc 0).cwd ≠ none ∧ (m.k.proc 0).pid = 1) ∧
      m.pc 0 = .user ∧ (m.k.proc 1).state = .unused ∧ m.k.nextpid = 2 :=
    replay_reaches (by decide)
  obtain ⟨⟨hs, hk, hm, hf, hc, hp⟩, hpc, hu, hn⟩ := h
  exact ⟨m, hr, ⟨hs, hk, hm, funext hf, hc, hp⟩, hpc, hu, hn⟩

/-- After `n` failed forks the child of the next fork has pid `2 + n`, counted modulo 2^32. -/
theorem child_after_forks (n : Nat) :
    ∃ es m, Run Machine.step anyEvent (boot bareFs bareFiles) es m ∧
      (m.k.proc 1).state = .runnable ∧ (m.k.proc 1).pid = 2 + BitVec.ofNat 32 n ∧
      (m.k.proc 0).state = .running ∧ (m.k.proc 0).pid = 1 := by
  obtain ⟨m0, h₀, hi⟩ := boot_idle
  obtain ⟨es, m1, h₁, hi⟩ := hi.failedForks n
  obtain ⟨m2, h2, hchild⟩ := hi.goodFork
  exact ⟨_, m2, (h₀.append h₁).append h2, hchild⟩

/-- Past 2^31 - 2 failed forks a child has a negative pid; past 2^32 - 1 it has the pid of init. -/
theorem pids_wrap_around :
    (∃ es m, Run Machine.step anyEvent (boot bareFs bareFiles) es m ∧
      (m.k.proc 1).state = .runnable ∧ (m.k.proc 1).pid.toInt < 0) ∧
    ∃ es m, Run Machine.step anyEvent (boot bareFs bareFiles) es m ∧
      (m.k.proc 0).state = .running ∧ (m.k.proc 1).state = .runnable ∧
      (m.k.proc 0).pid = 1 ∧ (m.k.proc 1).pid = 1 := by
  constructor
  · obtain ⟨es, m, hr, hs, hp, -⟩ := child_after_forks (2 ^ 31 - 2)
    refine ⟨es, m, hr, hs, ?_⟩
    rw [hp]
    decide
  · obtain ⟨es, m, hr, hs, hp, hs0, hp₀⟩ := child_after_forks (2 ^ 32 - 1)
    refine ⟨es, m, hr, hs0, hs, hp₀, ?_⟩
    rw [hp]
    decide

end Wraparound

end Xv6Filter.Proofs
