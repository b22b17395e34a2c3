import Xv6Filter.Kernel.Machine

namespace Xv6Filter.Proofs

inductive Stepped (m : Machine) : Event → Machine → Prop where
  | sched (i : Slot) (hs : (m.k.proc i).state = .runnable) : Stepped m (.sched i)
      (m.setK (m.k.setProc i { m.k.proc i with state := .running, chan := none }))
  | yield (i : Slot) (hr : (m.k.proc i).state = .running) : Stepped m (.yield i)
      (m.setK (m.k.setProc i { m.k.proc i with state := .runnable }))
  | user (i : Slot) (tf : Trapframe) (pt : PageTable) (hr : (m.k.proc i).state = .running)
      (hpc : m.pc i = .user) : Stepped m (.user i tf pt)
        (m.setK (m.k.setProc i { m.k.proc i with trapframe := tf, pagetable := pt }))
  | fault (i : Slot) (hr : (m.k.proc i).state = .running) (hpc : m.pc i = .user) :
      Stepped m (.fault i) ((m.setK (m.k.setkilled i)).setPc i .sysret)
  | ecall (i : Slot) (hr : (m.k.proc i).state = .running) (hpc : m.pc i = .user) :
      Stepped m (.ecall i) (m.ecall i)
  | sysret (i : Slot) (hr : (m.k.proc i).state = .running) (hpc : m.pc i = .sysret) :
      Stepped m (.sysret i) (m.setPc i (if (m.k.proc i).killed ≠ 0 then .exit (-1) else .user))
  | alloc (i : Slot) (mem : Kernel.ForkMem) (hr : (m.k.proc i).state = .running)
      (hpc : m.pc i = .alloc n) (ha : m.allocAt i n mem = some m') : Stepped m (.alloc i mem) m'
  | adopt (i c : Slot) (hr : (m.k.proc i).state = .running) (hpc : m.pc i = .adopt c) :
      Stepped m (.adopt i)
        ((m.setK (m.k.setProc c { m.k.proc c with parent := some i })).setPc i (.launch c))
  | launch (i c : Slot) (hr : (m.k.proc i).state = .running) (hpc : m.pc i = .launch c) :
      Stepped m (.launch i) ((m.finish i ((m.k.proc c).pid.signExtend 64,
        m.k.setProc c { m.k.proc c with state := .runnable })).setPc c .user)
  | exit (i : Slot) (status : I32) (fs : Fs) (file : Fp → File) (pipe : Nat → Option Pipe)
      (hr : (m.k.proc i).state = .running) (hpc : m.pc i = .exit status) (hi : i ≠ m.k.initproc) :
      Stepped m (.exit i fs file pipe)
        ((m.setK ((({ m.k with fs := fs, file := file, pipe := pipe }).setProc i
          { m.k.proc i with ofile := fun _ => none, cwd := none }).kexitLocked i status)).setPc i .gone)
  | wait (i : Slot) (addr : U64) (copied : Bool) (pt : PageTable)
      (hr : (m.k.proc i).state = .running) (hpc : m.pc i = .wait addr) :
      Stepped m (.wait i copied pt) (m.waitAt i addr copied pt)
  | kill (i : Slot) (pid : I32) (n : Nat) (hr : (m.k.proc i).state = .running)
      (hpc : m.pc i = .kill pid n) : Stepped m (.kill i) (m.killAt i pid n)
  | auditWork (i : Slot) (fs : Fs) (hr : (m.k.proc i).state = .running) (hpc : m.pc i = .audit) :
      Stepped m (.auditWork i fs) (m.setK { m.k with fs := fs })
  | auditDone (i : Slot) (hr : (m.k.proc i).state = .running) (hpc : m.pc i = .audit) :
      Stepped m (.auditDone i) (m.setPc i .sysret)
  | work (i : Slot) (v : Private) (fs : Fs) (file : Fp → File) (pipe : Nat → Option Pipe)
      (hr : (m.k.proc i).state = .running) (hpc : m.pc i = .busy s) :
      Stepped m (.work i v fs file pipe)
        (m.setK (({ m.k with fs := fs, file := file, pipe := pipe }).setProc i
          ((m.k.proc i).withPrivate v)))
  | sleep (i : Slot) (chan : Chan) (hr : (m.k.proc i).state = .running)
      (hpc : (∃ s, m.pc i = .busy s) ∨ m.pc i = .audit ∨ ∃ status, m.pc i = .exit status) :
      Stepped m (.sleep i chan) (m.setK (m.k.sleep i chan))
  | done (i : Slot) (r : U64) (hr : (m.k.proc i).state = .running) (hpc : m.pc i = .busy s) :
      Stepped m (.done i r) (m.finish i (r, m.k))
  | wakeup (i : Slot) (chan : Chan) : Stepped m (.wakeup i chan) (m.setK (m.k.wakeup i chan))

theorem running_iff {m : Machine} {i : Slot} :
    m.running i = true ↔ (m.k.proc i).state = .running := by
  simp [Machine.running]

/-- Every step of the machine is one of the transitions, from the place it starts at. -/
theorem step_stepped {m m' : Machine} {e : Event} (h : m.step e = some m') : Stepped m e m' := by
  cases e
  all_goals simp only [Machine.step, Option.ite_none_right_eq_some, Option.some.injEq] at h
  case sched i =>
    obtain ⟨hs, rfl⟩ := h
    exact .sched i hs
  case yield i =>
    obtain ⟨hr, rfl⟩ := h
    exact .yield i (running_iff.mp hr)
  case user i tf pt =>
    obtain ⟨⟨hr, hpc⟩, rfl⟩ := h
    exact .user i tf pt (running_iff.mp hr) hpc
  case fault i =>
    obtain ⟨⟨hr, hpc⟩, rfl⟩ := h
    exact .fault i (running_iff.mp hr) hpc
  case ecall i =>
    obtain ⟨⟨hr, hpc⟩, rfl⟩ := h
    exact .ecall i (running_iff.mp hr) hpc
  case sysret i =>
    obtain ⟨⟨hr, hpc⟩, rfl⟩ := h
    exact .sysret i (running_iff.mp hr) hpc
  case auditWork i fs =>
    obtain ⟨⟨hr, hpc⟩, rfl⟩ := h
    exact .auditWork i fs (running_iff.mp hr) hpc
  case auditDone i =>
    obtain ⟨⟨hr, hpc⟩, rfl⟩ := h
    exact .auditDone i (running_iff.mp hr) hpc
  case wakeup i chan =>
    cases h
    exact .wakeup i chan
  case alloc i mem =>
    split at h
    · rename_i n hpc
      obtain ⟨hr, ha⟩ := Option.ite_none_right_eq_some.mp h
      exact .alloc i mem (running_iff.mp hr) hpc ha
    · cases h
  case adopt i =>
    split at h
    · rename_i c hpc
      obtain ⟨hr, h⟩ := Option.ite_none_right_eq_some.mp h
      cases h
      exact .adopt i c (running_iff.mp hr) hpc
    · cases h
  case launch i =>
    split at h
    · rename_i c hpc
      obtain ⟨hr, h⟩ := Option.ite_none_right_eq_some.mp h
      cases h
      exact .launch i c (running_iff.mp hr) hpc
    · cases h
  case exit i fs file pipe =>
    split at h
    · rename_i status hpc
      obtain ⟨hr, h⟩ := Option.ite_none_right_eq_some.mp h
      cases h
      exact .exit i status fs file pipe (running_iff.mp hr.1) hpc hr.2
    · cases h
  case wait i copied pt =>
    split at h
    · rename_i addr hpc
      obtain ⟨hr, h⟩ := Option.ite_none_right_eq_some.mp h
      cases h
      exact .wait i addr copied pt (running_iff.mp hr) hpc
    · cases h
  case kill i =>
    split at h
    · rename_i pid n hpc
      obtain ⟨hr, h⟩ := Option.ite_none_right_eq_some.mp h
      cases h
      exact .kill i pid n (running_iff.mp hr) hpc
    · cases h
  case work i v fs file pipe =>
    split at h
    · rename_i s hpc
      obtain ⟨hr, h⟩ := Option.ite_none_right_eq_some.mp h
      cases h
      exact .work i v fs file pipe (running_iff.mp hr) hpc
    · cases h
  case sleep i chan =>
    split at h
    · rename_i s hpc
      obtain ⟨hr, h⟩ := Option.ite_none_right_eq_some.mp h
      cases h
      exact .sleep i chan (running_iff.mp hr) (.inl ⟨s, hpc⟩)
    · rename_i hpc
      obtain ⟨hr, h⟩ := Option.ite_none_right_eq_some.mp h
      cases h
      exact .sleep i chan (running_iff.mp hr) (.inr (.inl hpc))
    · rename_i status hpc
      obtain ⟨hr, h⟩ := Option.ite_none_right_eq_some.mp h
      cases h
      exact .sleep i chan (running_iff.mp hr) (.inr (.inr ⟨status, hpc⟩))
    · cases h
  case done i r =>
    split at h
    · rename_i s hpc
      obtain ⟨hr, h⟩ := Option.ite_none_right_eq_some.mp h
      cases h
      exact .done i r (running_iff.mp hr) hpc
    · cases h

end Xv6Filter.Proofs
