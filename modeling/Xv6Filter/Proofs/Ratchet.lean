import Xv6Filter.Proofs.Handlers
import Xv6Filter.Lib.Mask

namespace Xv6Filter.Proofs
open Lib

def live (j : Slot) (m : Machine) : Prop := (m.k.proc j).state ≠ .unused

instance (j : Slot) (m : Machine) : Decidable (live j m) := inferInstanceAs (Decidable (_ ≠ _))

theorem live_iff_free (j : Slot) (m : Machine) : live j m ↔ (guardAt m j).free = false := by
  simp [live, guardAt, guard]

def Forks (m : Machine) (e : Event) (i c : Slot) : Prop :=
  e = .alloc i .enough ∧ m.pc i = .alloc c ∧ (m.k.proc c).state = .unused

/-- The process in slot `j` stays the same one while its slot stays taken, and
its mask only gains bits. -/
theorem step_ratchet {m m' : Machine} {e : Event} (h : m.step e = some m') (j : Slot)
    (hl : live j m) (hl' : live j m') :
    (guardAt m' j).pid = (guardAt m j).pid ∧
      Contains (guardAt m' j).mask (guardAt m j).mask := by
  rw [live_iff_free] at hl hl'
  have he := step_effect h j
  generalize guardAt m' j = g at he hl'
  cases he with
  | setfilter _ grows => exact ⟨rfl, grows⟩
  | born _ _ free | aborted _ _ _ free => rw [free] at hl; cases hl
  | freed => cases hl'
  | _ => exact ⟨rfl, Contains.refl _⟩

theorem move_ratchet {m m' : Machine} {a : Move} (h : m.move a = some m') (j : Slot)
    (hl : live j m) (hl' : live j m') :
    (guardAt m' j).pid = (guardAt m j).pid ∧
      Contains (guardAt m' j).mask (guardAt m j).mask := by
  by_cases hs : ∃ e, a = .step e
  · obtain ⟨e, rfl⟩ := hs
    exact step_ratchet h j hl hl'
  · rw [(move_run h).2 (not_exists.mp hs) j]
    exact ⟨rfl, Contains.refl _⟩

theorem liveRun_ratchet {ok : Machine → Move → Prop} {m m' : Machine} {j : Slot}
    (h : LiveRun Machine.move ok (live j) m es m') :
    (guardAt m' j).pid = (guardAt m j).pid ∧
      Contains (guardAt m' j).mask (guardAt m j).mask :=
  (h.relate (fun m m' => (guardAt m' j).pid = (guardAt m j).pid ∧
      Contains (guardAt m' j).mask (guardAt m j).mask)
    (fun _ => ⟨rfl, Contains.refl _⟩)
    (fun _ _ _ hr hl _ hs hl' => by
      obtain ⟨hp, hm⟩ := move_ratchet hs j hl hl'
      exact ⟨hp.trans hr.1, hm.trans hr.2⟩)).1

theorem forks_child {m m' : Machine} {e : Event} {i c : Slot} (h : m.step e = some m')
    (hf : Forks m e i c) :
    guardAt m' c =
      { free := false, pid := m.k.nextpid, killed := (guardAt m c).killed,
        mask := Kernel.childMask (m.k.proc i), child := 0,
        audit := (guardAt m i).audit, strict := (guardAt m i).strict } := by
  obtain ⟨rfl, hpc, hu⟩ := hf
  cases step_stepped h with
  | alloc _ _ hr hpc' ha =>
    rw [hpc] at hpc'
    cases hpc'
    have hne : i ≠ c := by
      rintro rfl
      rw [hr] at hu
      cases hu
    simp only [Machine.allocAt, Fin.is_lt, ↓reduceDIte, Fin.eta, hu, ↓reduceIte] at ha
    split at ha
    · cases ha
    · rename_i k hk
      cases ha
      obtain ⟨_, hg, _⟩ := kforkFound_guard hne hk
      exact hg
    · rename_i k hk
      have := (kforkFound_guard hne hk).1
      simp at this

theorem step_admitted {m : Machine} {i : Slot} {s : Sys} (hr : m.running i = true)
    (hpc : m.pc i = .user) (ha : Admits (m.k.proc i) s) :
    m.step (.ecall i) = some ((m.setK (m.k.pastEcall i)).enter i s) := by
  obtain ⟨hk, hs, hi⟩ := ha
  have hp := pastEcall_past m i
  have hd : (m.setK (m.k.pastEcall i)).dispatch i = (m.setK (m.k.pastEcall i)).enter i s := by
    simp only [Machine.dispatch, Machine.setK_k, hp.a7_eq, hs, hp.masked_eq, hp.inspect_eq]
    split
    · rename_i hm
      rw [hi hm]
    · rfl
  simp only [Machine.step, Machine.ecall, hr, hpc, hk, and_self, ↓reduceIte, ne_eq,
    not_true_eq_false, hd]

theorem sysSetfilter_eq (i : Slot) (k : Kernel) :
    sysSetfilter i k =
      if Contains (k.proc i).trapframe.a0 (k.proc i).syscallMask then
        (0, k.setProc i { k.proc i with syscallMask := (k.proc i).trapframe.a0 })
      else (minusOne, k) := by
  unfold sysSetfilter
  dsimp only
  by_cases hc : Contains (k.proc i).trapframe.a0 (k.proc i).syscallMask
  · exact (if_neg (not_not.mpr hc)).trans (if_pos hc).symm
  · exact (if_pos hc).trans (if_neg hc).symm

/-- The filter mask of a process is a ratchet in every run, with the handlers of the file calls, of
`exec` and of `sbrk` as the kernel has them: while the process exists it only gains bits. A handler is a
run of the machine, and it keeps the filters of all processes. An admitted `setfilter` succeeds exactly
when the new mask contains the old one and otherwise only reports -1. -/
theorem mask_only_gains_bits (m : Machine) :
    (∀ j es m', LiveRun Machine.move anyEvent (live j) m es m' →
      (m'.k.proc j).pid = (m.k.proc j).pid ∧
        Contains (m'.k.proc j).syscallMask (m.k.proc j).syscallMask) ∧
    (∀ a m', m.move a = some m' → (∃ es, Run Machine.step anyEvent m es m') ∧
      ((∀ e, a ≠ .step e) → ∀ j, guard (m'.k.proc j) = guard (m.k.proc j))) ∧
    (∀ i, m.running i → m.pc i = .user → Admits (m.k.proc i) .setfilter →
      let p := m.k.proc i
      let k := m.k.pastEcall i
      m.step (.ecall i) = some (if Contains p.trapframe.a0 p.syscallMask then
        m.finish i (0, k.setProc i { k.proc i with syscallMask := p.trapframe.a0 })
      else m.finish i (minusOne, k))) := by
  refine ⟨?_, ?_, ?_⟩
  · intro j es m' h
    exact liveRun_ratchet h
  · intro a m' h
    exact move_run h
  · intro i hrun hpc ha
    have hp := pastEcall_past m i
    have hm : ((m.k.pastEcall i).proc i).syscallMask = (m.k.proc i).syscallMask :=
      congrArg Guard.mask (hp.guard_eq i)
    rw [step_admitted hrun hpc ha]
    simp only [Machine.enter, Machine.setK_k, sysSetfilter_eq, hp.a0_eq, hm]
    split <;> rfl

def programDisk : Fs :=
  { bareFs with
    dinode := fun n =>
      if n = rootino then ⟨tDir, 0, 0, 1, direntSize, fun i => if i = 0 then 10 else 0⟩
      else if n = 2 then ⟨tFile, 0, 0, 1, elfSize, fun i => if i = 0 then 11 else 0⟩
      else .zero
    data := fun b i =>
      if b = 10 then [2, 0, 112].getD i 0 else if b = 11 then [0x7f, 0x45, 0x4c, 0x46].getD i 0 else 0 }

def execute (path : List Char) : Move :=
  .handler 0 (.exec (some (bytes path)) ⟨true, fun _ => true, true⟩ ⟨4096, fun _ => none, 4080, 1⟩)

def lockSbrk : List Move :=
  [.step (.sched 0), execute ['/', 'q'], .step (.sysret 0)] ++ (call 0 23 0x1000).map .step

def unlockSbrk : List Move :=
  [.step (load 0 7 0), .step (.ecall 0), execute ['/', 'p'], .step (.sysret 0), .step (load 0 23 0)]

/-- A program that `exec` started finds `sbrk` masked and cannot unmask it. -/
theorem mask_only_gains_bits_unlockSbrk :
    ∃ m m' m'', Run Machine.move anyEvent (boot programDisk bareFiles) lockSbrk m ∧
      LiveRun Machine.move anyEvent (live 0) m unlockSbrk m' ∧ (m'.k.proc 0).name = bytes ['p'] ∧
      Contains (m'.k.proc 0).syscallMask 0x1000 ∧
      m'.step (.ecall 0) = some m'' ∧ m'' = m'.finish 0 (minusOne, m'.k.pastEcall 0) := by
  obtain ⟨m, hr, hk, hl, hload⟩ :
      ∃ m, Run Machine.move anyEvent (boot programDisk bareFiles) lockSbrk m ∧
        (m.k.proc 0).syscallMask = 0x1000 ∧ live 0 m ∧
        ((replay (fun t a => (t.move a).filter fun u => decide (live 0 u)) anyEvent unlockSbrk m).any fun m' =>
          decide ((m'.k.proc 0).name = bytes ['p'] ∧ m'.running 0 = true ∧ m'.pc 0 = .user ∧
            Admits (m'.k.proc 0) .setfilter ∧
            ¬ Contains (m'.k.proc 0).trapframe.a0 (m'.k.proc 0).syscallMask)) = true :=
    replay_reaches (by decide +kernel)
  obtain ⟨m', hr', hname, hrun, hpc, ha, hc⟩ := replay_reaches hload
  have hlive := LiveRun.of_run hl hr'
  obtain ⟨-, -, hset⟩ := mask_only_gains_bits m'
  exact ⟨m, m', _, hr, hlive, hname, hk ▸ ((mask_only_gains_bits m).1 0 _ _ hlive).2,
    (hset 0 hrun hpc ha).trans (congrArg some (if_neg hc)), rfl⟩

/-- The process in slot `i` makes no `setfilter` that will succeed while a mask that
lacks one of the new bits waits for its next child. -/
def KeepsPending (i l : Slot) (p : Proc) : Prop :=
  l = i → Admits p .setfilter → Contains p.trapframe.a0 p.syscallMask →
    p.childSyscallMask = 0 ∨ Contains p.childSyscallMask p.trapframe.a0

instance (i l : Slot) (p : Proc) : Decidable (KeepsPending i l p) :=
  inferInstanceAs (Decidable (_ → _ → _ → _ ∨ _))

def PendingContains (g : Guard) : Prop := g.child = 0 ∨ Contains g.child g.mask

theorem boot_pending (fs : Fs) (file : Fp → File) (j : Slot) :
    PendingContains (guardAt (boot fs file) j) := by
  rw [guardAt_boot]
  split <;> exact .inl rfl

theorem step_pending {m m' : Machine} {e : Event} {i : Slot}
    (hi : PendingContains (guardAt m i)) (hk : OnEcall (KeepsPending i) m e)
    (h : m.step e = some m') : PendingContains (guardAt m' i) := by
  have he := step_effect h i
  generalize guardAt m' i = g at he
  cases he with
  | setfilter runs grows => exact hk i rfl rfl runs grows
  | setfilterChild _ grows => exact .inr grows
  | born | parent | aborted | freed => exact .inl rfl
  | _ => exact hi

theorem childMask_contains {p : Proc} (h : PendingContains (guard p)) :
    Contains (Kernel.childMask p) p.syscallMask := by
  unfold Kernel.childMask
  split
  · rename_i hc
    exact h.resolve_left hc
  · exact Contains.refl _

/-- A child's mask contains its parent's at the fork, in every run in which the
parent tightens its own mask only while no smaller child mask waits. -/
theorem child_contains_parent
    (hr : Run Machine.step (OnEcall (KeepsPending i)) (boot fs file) es m)
    (h : m.step e = some m') (hf : Forks m e i c) :
    Contains (m'.k.proc c).syscallMask (m.k.proc i).syscallMask := by
  have hi : PendingContains (guardAt m i) :=
    hr.invariant (fun m => PendingContains (guardAt m i)) (boot_pending fs file i)
      (fun _ _ _ hi hk hs => step_pending hi hk hs)
  have hm := congrArg Guard.mask (forks_child h hf)
  change (m'.k.proc c).syscallMask = _ at hm
  rw [hm]
  exact childMask_contains hi

def tightFork : List Event :=
  startInit ++ call 0 25 0x1002 ++ call 0 23 0x1000 ++ [load 0 1 0, .ecall 0, .alloc 0 .enough]

/-- The parent masks a call that the mask for its child has already. -/
theorem child_contains_parent_tightFork :
    ∃ m m', Run Machine.step (OnEcall (KeepsPending 0)) (boot bareFs bareFiles) tightFork m ∧
      m.step (.alloc 0 .enough) = some m' ∧
      (m.k.proc 0).syscallMask = 0x1000 ∧ Contains (m'.k.proc 1).syscallMask 0x1000 := by
  obtain ⟨m, hr, hs, hf, hk⟩ :
      ∃ m, Run Machine.step (OnEcall (KeepsPending 0)) (boot bareFs bareFiles) tightFork m ∧
        (m.step (.alloc 0 .enough)).isSome ∧ (m.pc 0 = .alloc 1 ∧
        (m.k.proc 1).state = .unused) ∧ (m.k.proc 0).syscallMask = 0x1000 :=
    replay_reaches (by decide)
  obtain ⟨m', hs⟩ := Option.isSome_iff_exists.mp hs
  exact ⟨m, m', hr, hs, hk, hk ▸ child_contains_parent hr hs ⟨rfl, hf⟩⟩

/-- init asks for children that lack bit 12 only, adds bit 6 to its own mask and
forks: the child may call `kill`, its parent may not. -/
def staleFork : List Event :=
  startInit ++ call 0 25 0x1000 ++ call 0 23 0x1040 ++ [load 0 1 0, .ecall 0, .alloc 0 .enough]

/-- A parent tightens its mask after setting the child's: the child can do what the parent cannot. -/
theorem staleFork_child_less_restricted :
    ∃ m m', Run Machine.step anyEvent (boot bareFs bareFiles) staleFork m ∧
      m.step (.alloc 0 .enough) = some m' ∧ Forks m (.alloc 0 .enough) 0 1 ∧
      (m.k.proc 0).syscallMask = 0x1040 ∧ (m'.k.proc 1).syscallMask = 0x1000 ∧
      ¬ Contains (m'.k.proc 1).syscallMask (m.k.proc 0).syscallMask := by
  obtain ⟨m, hr, hs, hf, hk⟩ :
      ∃ m, Run Machine.step anyEvent (boot bareFs bareFiles) staleFork m ∧
        ((m.step (.alloc 0 .enough)).map fun m' => (m'.k.proc 1).syscallMask) = some 0x1000 ∧
        (m.pc 0 = .alloc 1 ∧ (m.k.proc 1).state = .unused) ∧
        (m.k.proc 0).syscallMask = 0x1040 :=
    replay_reaches (by decide)
  obtain ⟨m', hs, hc⟩ := Option.map_eq_some_iff.mp hs
  exact ⟨m, m', hr, hs, ⟨rfl, hf⟩, hk, hc, by rw [hc, hk]; decide⟩

inductive Flag where
  | strict | audit
  deriving DecidableEq

def Flag.call : Flag → Sys
  | .strict => .setstrict
  | .audit => .setaudit

def Flag.of (p : Proc) : Flag → I32
  | .strict => p.strictMode
  | .audit => p.auditEnabled

def Flag.get (g : Guard) : Flag → I32
  | .strict => g.strict
  | .audit => g.audit

theorem Flag.get_guard (p : Proc) (f : Flag) : f.get (guard p) = f.of p := by
  cases f <;> rfl

def KeepsFlag (f : Flag) (j l : Slot) (p : Proc) : Prop :=
  l = j → Admits p f.call → p.syscallMask ≠ 0 → f.of p ≠ 0 → argint p.trapframe.a0 ≠ 0

instance (f : Flag) (j l : Slot) (p : Proc) : Decidable (KeepsFlag f j l p) :=
  inferInstanceAs (Decidable (_ → _ → _ → _ → _))

/-- A condition on the system calls of a run with whole handlers, which make none themselves. -/
def OnTrap (meets : Slot → Proc → Prop) (m : Machine) : Move → Prop
  | .step e => OnEcall meets m e
  | _ => True

instance [∀ i p, Decidable (meets i p)] (m : Machine) (a : Move) : Decidable (OnTrap meets m a) :=
  match a with
  | .step e => inferInstanceAs (Decidable (OnEcall meets m e))
  | .handler .. | .exec .. | .sbrk .. => inferInstanceAs (Decidable True)

def Held (f : Flag) (g : Guard) : Prop := g.mask ≠ 0 ∧ f.get g ≠ 0

theorem step_held {m m' : Machine} {e : Event} {j : Slot} {f : Flag}
    (hh : Held f (guardAt m j)) (hk : OnEcall (KeepsFlag f j) m e) (h : m.step e = some m')
    (hl : live j m) (hl' : live j m') : Held f (guardAt m' j) := by
  refine ⟨(step_ratchet h j hl hl').2.ne_zero hh.1, ?_⟩
  rw [live_iff_free] at hl hl'
  have hf := hh.2
  have he := step_effect h j
  generalize guardAt m' j = g at he hl'
  cases he with
  | setaudit runs =>
    cases f with
    | strict => exact hf
    | audit => exact hk j rfl rfl runs hh.1 hf
  | setstrict runs =>
    cases f with
    | strict => exact hk j rfl rfl runs hh.1 hf
    | audit => exact hf
  | born _ _ free | aborted _ _ _ free => rw [free] at hl; cases hl
  | freed => cases hl'
  | _ => cases f <;> exact hf

theorem move_held {m m' : Machine} {a : Move} {j : Slot} {f : Flag}
    (hh : Held f (guardAt m j)) (hk : OnTrap (KeepsFlag f j) m a) (h : m.move a = some m')
    (hl : live j m) (hl' : live j m') : Held f (guardAt m' j) := by
  by_cases hs : ∃ e, a = .step e
  · obtain ⟨e, rfl⟩ := hs
    exact step_held hh hk h hl hl'
  · rw [(move_run h).2 (not_exists.mp hs) j]
    exact hh

/-- From any state in which a sandboxed process has the flag on, and through every
run in which it does not switch the flag off itself: the flag stays on until the
process is freed, and every child starts with the parent's value. -/
theorem flag_stays_on (f : Flag) (hm : (m.k.proc j).syscallMask ≠ 0)
    (hf : f.of (m.k.proc j) ≠ 0)
    (h : LiveRun Machine.move (OnTrap (KeepsFlag f j)) (live j) m es m') :
    f.of (m'.k.proc j) ≠ 0 ∧
      ∀ e m'' c, m'.step e = some m'' → Forks m' e j c →
        f.of (m''.k.proc c) = f.of (m'.k.proc j) := by
  have hh : Held f (guardAt m' j) :=
    (h.relate (fun _ t => Held f (guardAt t j)) (fun _ => ⟨hm, by rwa [guardAt, Flag.get_guard]⟩)
      (fun _ _ _ hh hl hk hs hl' => move_held hh hk hs hl hl')).1
  constructor
  · rw [← Flag.get_guard]
    exact hh.2
  · intro e m'' c hs hfk
    have hc := forks_child hs hfk
    cases f with
    | strict => exact congrArg Guard.strict hc
    | audit => exact congrArg Guard.audit hc

/-- init sandboxes itself and turns strict mode on; then it runs another program and forks. -/
def strictOn : List Move := (startInit ++ call 0 23 0x1000 ++ call 0 27 1).map .step
def execFork : List Move :=
  [.step (load 0 7 0), .step (.ecall 0), execute ['/', 'p'], .step (.sysret 0), .step (load 0 1 0),
    .step (.ecall 0), .step (.alloc 0 .enough)]

/-- Strict mode stays on across an `exec`, and the child of a `fork` gets it. -/
theorem flag_stays_on_execFork :
    ∃ m m' m'', Run Machine.move anyEvent (boot programDisk bareFiles) strictOn m ∧
      (m.k.proc 0).syscallMask = 0x1000 ∧ (m.k.proc 0).strictMode = 1 ∧
      LiveRun Machine.move (OnTrap (KeepsFlag .strict 0)) (live 0) m execFork m' ∧
      (m'.k.proc 0).strictMode ≠ 0 ∧ m'.step (.alloc 0 .enough) = some m'' ∧
      (m''.k.proc 1).strictMode = (m'.k.proc 0).strictMode := by
  obtain ⟨m, hr, hm, hf, hl, hrest⟩ :
      ∃ m, Run Machine.move anyEvent (boot programDisk bareFiles) strictOn m ∧
        (m.k.proc 0).syscallMask = 0x1000 ∧ (m.k.proc 0).strictMode = 1 ∧ live 0 m ∧
        ((replay (fun t a => (t.move a).filter fun u => decide (live 0 u)) (OnTrap (KeepsFlag .strict 0))
          execFork m).any fun m' => decide ((m'.step (.alloc 0 .enough)).isSome ∧ m'.pc 0 = .alloc 1 ∧
            (m'.k.proc 1).state = .unused)) = true :=
    replay_reaches (by decide +kernel)
  obtain ⟨m', hr', hs, hk⟩ := replay_reaches hrest
  obtain ⟨m'', hs⟩ := Option.isSome_iff_exists.mp hs
  have hlive := LiveRun.of_run hl hr'
  obtain ⟨hon, hchild⟩ := flag_stays_on .strict (by rw [hm]; decide) (by rw [Flag.of, hf]; decide) hlive
  exact ⟨m, m', m'', hr, hm, hf, hlive, hon, hs, hchild _ _ 1 hs ⟨rfl, hk⟩⟩

def flagsOn : List Event := startInit ++ call 0 23 0x1000 ++ call 0 26 1 ++ call 0 27 1
def flagsOff : List Event := call 0 26 0 ++ call 0 27 0

/-- A sandboxed process switches off auditing and strict mode with two calls. -/
theorem flagsOff_clears_flags :
    ∃ m m', Run Machine.step anyEvent (boot bareFs bareFiles) flagsOn m ∧
      ((m.k.proc 0).syscallMask = 0x1000 ∧ (m.k.proc 0).auditEnabled = 1 ∧
        (m.k.proc 0).strictMode = 1) ∧
      LiveRun Machine.step anyEvent (live 0) m flagsOff m' ∧
      ((m'.k.proc 0).syscallMask = 0x1000 ∧ (m'.k.proc 0).auditEnabled = 0 ∧
        (m'.k.proc 0).strictMode = 0) := by
  obtain ⟨m, hr, hon, hl, hoff⟩ :
      ∃ m, Run Machine.step anyEvent (boot bareFs bareFiles) flagsOn m ∧
        ((m.k.proc 0).syscallMask = 0x1000 ∧ (m.k.proc 0).auditEnabled = 1 ∧
          (m.k.proc 0).strictMode = 1) ∧ live 0 m ∧
        ((replay (fun t e => (t.step e).filter fun u => decide (live 0 u)) anyEvent
          flagsOff m).any fun m' => decide ((m'.k.proc 0).syscallMask = 0x1000 ∧
            (m'.k.proc 0).auditEnabled = 0 ∧ (m'.k.proc 0).strictMode = 0)) = true :=
    replay_reaches (by decide)
  obtain ⟨m', hr', hz⟩ := replay_reaches hoff
  exact ⟨m, m', hr, hon, LiveRun.of_run hl hr', hz⟩

end Xv6Filter.Proofs
