import Xv6Filter.Proofs.Steps

namespace Xv6Filter.Proofs

/-- The fields that decide what a process may do and whether it still may: whether
its slot is free, its pid, its killed flag and the four fields of the filter. -/
structure Guard where
  free : Bool
  pid : I32
  killed : I32
  mask : U64
  child : U64
  audit : I32
  strict : I32
  deriving DecidableEq

def guard (p : Proc) : Guard where
  free := decide (p.state = .unused)
  pid := p.pid
  killed := p.killed
  mask := p.syscallMask
  child := p.childSyscallMask
  audit := p.auditEnabled
  strict := p.strictMode

def Guard.clear : Guard := ⟨true, 0, 0, 0, 0, 0, 0⟩

def guardAt (m : Machine) (j : Slot) : Guard := guard (m.k.proc j)

def Admits (p : Proc) (s : Sys) : Prop :=
  p.killed = 0 ∧ Sys.ofNum (argint p.trapframe.a7) = some s ∧
    (masked p (argint p.trapframe.a7) = true → inspect p s = .run)

def Refuses (p : Proc) : Prop :=
  p.killed = 0 ∧ ∃ s, Sys.ofNum (argint p.trapframe.a7) = some s ∧
    masked p (argint p.trapframe.a7) = true ∧ inspect p s = .deny

instance (p : Proc) (s : Sys) : Decidable (Admits p s) :=
  inferInstanceAs (Decidable (_ ∧ _ ∧ _))

def OnEcall (meets : Slot → Proc → Prop) (m : Machine) (e : Event) : Prop :=
  ∀ i ∈ e.caller, meets i (m.k.proc i)

instance [∀ i p, Decidable (meets i p)] (m : Machine) (e : Event) :
    Decidable (OnEcall meets m e) :=
  inferInstanceAs (Decidable (∀ i ∈ e.caller, _))

inductive Effect (m : Machine) (j : Slot) : Event → Guard → Prop where
  | same : Effect m j e (guardAt m j)
  | setfilter (runs : Admits (m.k.proc j) .setfilter)
      (grows : (m.k.proc j).trapframe.a0 &&& (guardAt m j).mask = (guardAt m j).mask) :
      Effect m j (.ecall j) { guardAt m j with mask := (m.k.proc j).trapframe.a0 }
  | setfilterChild (runs : Admits (m.k.proc j) .setfilterChild)
      (grows : (m.k.proc j).trapframe.a0 &&& (guardAt m j).mask = (guardAt m j).mask) :
      Effect m j (.ecall j) { guardAt m j with child := (m.k.proc j).trapframe.a0 }
  | setaudit (runs : Admits (m.k.proc j) .setaudit) :
      Effect m j (.ecall j) { guardAt m j with audit := argint (m.k.proc j).trapframe.a0 }
  | setstrict (runs : Admits (m.k.proc j) .setstrict) :
      Effect m j (.ecall j) { guardAt m j with strict := argint (m.k.proc j).trapframe.a0 }
  | violation (refused : Refuses (m.k.proc j)) (strict : (guardAt m j).strict ≠ 0) :
      Effect m j (.ecall j) { guardAt m j with killed := 1 }
  | fault : Effect m j (.fault j) { guardAt m j with killed := 1 }
  | kill (i : Slot) (at_ : m.pc i = .kill (guardAt m j).pid j) :
      Effect m j (.kill i) { guardAt m j with killed := 1 }
  | born (i : Slot) (at_ : m.pc i = .alloc j) (free : (guardAt m j).free = true) :
      Effect m j (.alloc i .enough)
        { free := false, pid := m.k.nextpid, killed := (guardAt m j).killed,
          mask := Kernel.childMask (m.k.proc i), child := 0,
          audit := (guardAt m i).audit, strict := (guardAt m i).strict }
  | parent (c : Slot) (at_ : m.pc j = .alloc c) (mem : Kernel.ForkMem) :
      Effect m j (.alloc j mem) { guardAt m j with child := 0 }
  | aborted (i : Slot) (at_ : m.pc i = .alloc j) (mem : Kernel.ForkMem)
      (free : (guardAt m j).free = true) : Effect m j (.alloc i mem) .clear
  | launch (i : Slot) (at_ : m.pc i = .launch j) :
      Effect m j (.launch i) { guardAt m j with free := false }
  | freed (i : Slot) (zombie : (m.k.proc j).state = .zombie) (copied : Bool) (pt : PageTable) :
      Effect m j (.wait i copied pt) .clear

section Frames

variable (k : Kernel) (i j : Slot)

theorem guard_setProc (p : Proc) :
    guard ((k.setProc i p).proc j) = if j = i then guard p else guard (k.proc j) := by
  by_cases h : j = i
  · subst h; simp
  · simp [h]

@[simp] theorem guard_setA0 (v : U64) : guard ((k.setA0 i v).proc j) = guard (k.proc j) := by
  unfold Kernel.setA0
  rw [guard_setProc]
  split
  · rename_i h; subst h; rfl
  · rfl

@[simp] theorem guard_wakeup (c : Chan) : guard ((k.wakeup i c).proc j) = guard (k.proc j) := by
  unfold Kernel.wakeup
  dsimp only
  split
  · rename_i h
    simp [guard, h.2.1]
  · rfl

@[simp] theorem guard_sleep (c : Chan) (hr : (k.proc i).state = .running) :
    guard ((k.sleep i c).proc j) = guard (k.proc j) := by
  unfold Kernel.sleep
  rw [guard_setProc]
  split
  · rename_i h; subst h
    simp [guard, hr]
  · rfl

@[simp] theorem guard_reparent : guard ((k.reparent i).proc j) = guard (k.proc j) := by
  unfold Kernel.reparent
  dsimp only
  split
  · rw [guard_wakeup]
    dsimp only
    split <;> rfl
  · dsimp only
    split <;> rfl

theorem guard_freeproc :
    guard ((k.freeproc i).proc j) = if j = i then .clear else guard (k.proc j) := by
  unfold Kernel.freeproc
  rw [guard_setProc]
  split <;> rfl

theorem guard_setkilled :
    guard ((k.setkilled i).proc j) =
      if j = i then { guard (k.proc i) with killed := 1 } else guard (k.proc j) := by
  unfold Kernel.setkilled
  rw [guard_setProc]
  rfl

theorem guard_killAt :
    guard ((k.killAt i).proc j) =
      if j = i then { guard (k.proc i) with killed := 1 } else guard (k.proc j) := by
  unfold Kernel.killAt
  rw [guard_setProc]
  split
  · by_cases h : (k.proc i).state = .sleeping <;> simp [guard, h]
  · rfl

/-- Dying in `kexit` keeps the guard: a ZOMBIE slot is still taken. -/
theorem guard_kexitLocked (status : I32) (hr : (k.proc i).state = .running) :
    guard ((k.kexitLocked i status).proc j) = guard (k.proc j) := by
  have hw : ∀ k' : Kernel, guard (k'.proc i) = guard (k.proc i) →
      (k'.proc i).state ≠ .unused := by
    intro k' he hu
    have := congrArg Guard.free he
    simp [guard, hu, hr] at this
  unfold Kernel.kexitLocked
  dsimp only
  rw [guard_setProc]
  split
  · rename_i h; subst h
    split
    · have := hw (k.reparent j) (guard_reparent k j j)
      rw [← guard_reparent k j j]
      simp [guard, this]
    · rename_i q _
      have := hw ((k.reparent j).wakeup j (.proc q)) (by simp)
      rw [← guard_reparent k j j, ← guard_wakeup (k.reparent j) j j (.proc q)]
      simp [guard, this]
  · split
    · simp
    · simp

theorem dupFiles_frame {k k' : Kernel} {ofile : Fin nofile → Option Fp}
    (h : k.dupFiles ofile = .ok k') :
    k'.proc = k.proc ∧ k'.nextpid = k.nextpid ∧ k'.initproc = k.initproc := by
  unfold Kernel.dupFiles at h
  generalize List.finRange nofile = fds at h
  induction fds generalizing k with
  | nil =>
    simp only [List.foldlM_nil, pure, Except.pure, Except.ok.injEq] at h
    exact ⟨congrArg Kernel.proc h.symm, congrArg Kernel.nextpid h.symm, congrArg Kernel.initproc h.symm⟩
  | cons fd fds ih =>
    simp only [List.foldlM_cons, bind, Except.bind] at h
    split at h
    · cases h
    · rename_i k1 hk
      obtain ⟨hp, hn, hi⟩ := ih h
      split at hk
      · cases hk; exact ⟨hp, hn, hi⟩
      · unfold Kernel.filedup at hk
        split at hk
        · cases hk
        · cases hk; exact ⟨hp, hn, hi⟩

theorem guard_allocFound :
    guard ((k.allocFound j).proc i) =
      if i = j then { free := false, pid := k.nextpid, killed := (k.proc j).killed,
                      mask := 0, child := 0, audit := 0, strict := 0 }
      else guard (k.proc i) := by
  unfold Kernel.allocFound
  rw [guard_setProc]
  split <;> rfl

/-- The child takes mask and flags from the parent, whose child mask is spent. -/
theorem guard_inheritFilter (hij : i ≠ j) (l : Slot) :
    guard ((k.inheritFilter i j).proc l) =
      if l = i then { guard (k.proc i) with child := 0 }
      else if l = j then
        { guard (k.proc j) with
          mask := Kernel.childMask (k.proc i)
          audit := (k.proc i).auditEnabled
          strict := (k.proc i).strictMode }
      else guard (k.proc l) := by
  unfold Kernel.inheritFilter
  dsimp only
  rw [guard_setProc]
  by_cases hl : l = i
  · simp [hl, hij, guard]
  · simp only [hl, ↓reduceIte]
    rw [guard_setProc]
    split
    · rename_i h; subst h; rfl
    · rfl

theorem guard_inheritRest (l : Slot) :
    guard ((k.inheritRest i j).proc l) = guard (k.proc l) := by
  unfold Kernel.inheritRest
  rw [guard_setProc]
  split
  · rename_i h; subst h; rfl
  · rfl

end Frames

/-- Every outcome of `kfork` after slot `j` was found, slot by slot. -/
theorem kforkFound_guard {k k' : Kernel} {i j : Slot} {mem : Kernel.ForkMem} {made : Bool}
    (hij : i ≠ j) (h : k.kforkFound i j mem = .ok (made, k')) :
    (made = true ↔ mem = .enough) ∧
    guard (k'.proc j) = (if made then
      { free := false, pid := k.nextpid, killed := (k.proc j).killed,
        mask := Kernel.childMask (k.proc i), child := 0,
        audit := (k.proc i).auditEnabled, strict := (k.proc i).strictMode }
      else .clear) ∧
    (guard (k'.proc i) = guard (k.proc i) ∨
      guard (k'.proc i) = { guard (k.proc i) with child := 0 }) ∧
    ∀ l, l ≠ i → l ≠ j → guard (k'.proc l) = guard (k.proc l) := by
  have hk : (k.allocFound j).proc i = k.proc i := by
    simp [Kernel.allocFound, hij]
  unfold Kernel.kforkFound at h
  dsimp only at h
  split at h
  case h_1 | h_2 =>
    cases h
    refine ⟨by simp, by simp [guard_freeproc], .inl ?_, ?_⟩
    · rw [guard_freeproc, if_neg hij, hk]
    · intro l _ hlj
      rw [guard_freeproc, if_neg hlj, guard_allocFound, if_neg hlj]
  case h_3 =>
    cases h
    refine ⟨by simp, by simp [guard_freeproc], .inr ?_, ?_⟩
    · rw [guard_freeproc, if_neg hij, guard_inheritFilter _ _ _ hij, if_pos rfl, hk]
    · intro l hli hlj
      rw [guard_freeproc, if_neg hlj, guard_inheritFilter _ _ _ hij, if_neg hli, if_neg hlj,
        guard_allocFound, if_neg hlj]
  case h_4 =>
    split at h
    · cases h
    · rename_i k1 hd
      obtain ⟨hp, _⟩ := dupFiles_frame hd
      have hg : ∀ l, guard (k1.proc l) = guard (((k.allocFound j).inheritFilter i j).proc l) := by
        intro l
        rw [hp, guard_inheritRest]
      split at h
      · cases h
      · cases h
        refine ⟨by simp, ?_, .inr ?_, ?_⟩
        · change guard (k1.proc j) = _
          rw [hg, guard_inheritFilter _ _ _ hij, if_neg hij.symm, if_pos rfl, guard_allocFound,
            if_pos rfl, hk, if_pos rfl]
        · change guard (k1.proc i) = _
          rw [hg, guard_inheritFilter _ _ _ hij, if_pos rfl, hk]
        · intro l hli hlj
          change guard (k1.proc l) = _
          rw [hg, guard_inheritFilter _ _ _ hij, if_neg hli, if_neg hlj, guard_allocFound,
            if_neg hlj]

/-- A handler that ends at once changes no guard beyond its own effect. -/
theorem guardAt_finish (m : Machine) (i j : Slot) (r : U64 × Kernel) :
    guardAt (m.finish i r) j = guard (r.2.proc j) := by
  simp [guardAt, Machine.finish]

theorem inspect_epc (p : Proc) (pc : U64) (s : Sys) :
    inspect { p with trapframe := { p.trapframe with epc := pc } } s = inspect p s := by
  cases s <;> rfl

/-- A kernel state that differs from that of `m` at most in the saved program
counter of slot `i`, which `usertrap` has moved past the `ecall`. -/
structure PastEcall (m : Machine) (i : Slot) (k : Kernel) : Prop where
  caller : ∃ pc, k.proc i =
    { m.k.proc i with trapframe := { (m.k.proc i).trapframe with epc := pc } }
  others : ∀ l, l ≠ i → k.proc l = m.k.proc l

namespace PastEcall

variable {m : Machine} {i : Slot} {k : Kernel} (h : PastEcall m i k)
include h

theorem guard_eq (l : Slot) : guard (k.proc l) = guardAt m l := by
  by_cases hl : l = i
  · obtain ⟨pc, hc⟩ := h.caller
    rw [hl, hc]
    rfl
  · rw [h.others l hl]
    rfl

theorem a0_eq : (k.proc i).trapframe.a0 = (m.k.proc i).trapframe.a0 := by
  obtain ⟨pc, hc⟩ := h.caller
  rw [hc]

theorem a7_eq : (k.proc i).trapframe.a7 = (m.k.proc i).trapframe.a7 := by
  obtain ⟨pc, hc⟩ := h.caller
  rw [hc]

theorem masked_eq : masked (k.proc i) = masked (m.k.proc i) := by
  obtain ⟨pc, hc⟩ := h.caller
  rw [hc]
  rfl

theorem inspect_eq (s : Sys) : inspect (k.proc i) s = inspect (m.k.proc i) s := by
  obtain ⟨pc, hc⟩ := h.caller
  rw [hc, inspect_epc]

/-- A handler that rewrites only the caller has only the caller's effect. -/
theorem own_effect {q : Proc} {g : Guard} (hg : Effect m i (.ecall i) g) (hq : guard q = g)
    (j : Slot) : Effect m j (.ecall i) (guard ((k.setProc i q).proc j)) := by
  rw [guard_setProc]
  by_cases hj : j = i
  · subst hj
    rw [if_pos rfl, hq]
    exact hg
  · rw [if_neg hj, h.guard_eq]
    exact .same

theorem same_effect (j : Slot) : Effect m j (.ecall i) (guard (k.proc j)) := by
  rw [h.guard_eq]
  exact .same

/-- Entering a handler touches guards only through the four calls that write the filter. -/
theorem enter_effect {s : Sys} (hs : Admits (m.k.proc i) s) (j : Slot) :
    Effect m j (.ecall i) (guardAt ((m.setK k).enter i s) j) := by
  have hmask : (k.proc i).syscallMask = (guardAt m i).mask := congrArg Guard.mask (h.guard_eq i)
  unfold Machine.enter
  cases s
  case setfilter =>
    rw [guardAt_finish]
    dsimp only [sysSetfilter, Machine.setK_k]
    split
    · exact h.same_effect j
    · rename_i hge
      rw [h.a0_eq, hmask, ne_eq, Decidable.not_not] at hge
      apply h.own_effect (.setfilter hs hge)
      rw [← h.a0_eq, ← h.guard_eq i]
      rfl
  case setfilterChild =>
    rw [guardAt_finish]
    dsimp only [sysSetfilterChild, Machine.setK_k]
    split
    · exact h.same_effect j
    · rename_i hge
      rw [h.a0_eq, hmask, ne_eq, Decidable.not_not] at hge
      apply h.own_effect (.setfilterChild hs hge)
      rw [← h.a0_eq, ← h.guard_eq i]
      rfl
  case setaudit =>
    rw [guardAt_finish]
    apply h.own_effect (.setaudit hs)
    rw [← h.a0_eq, ← h.guard_eq i]
    rfl
  case setstrict =>
    rw [guardAt_finish]
    apply h.own_effect (.setstrict hs)
    rw [← h.a0_eq, ← h.guard_eq i]
    rfl
  case getpid | getfilter =>
    rw [guardAt_finish]
    exact h.same_effect j
  all_goals exact h.same_effect j

theorem refuse_effect (hr : Refuses (m.k.proc i)) (j : Slot) :
    Effect m j (.ecall i) (guardAt ((m.setK k).refuse i) j) := by
  change Effect m j _ (guard (((if (k.proc i).strictMode ≠ 0 then k.setkilled i
    else k).setA0 i minusOne).proc j))
  rw [guard_setA0]
  split
  · rename_i hst
    rw [guard_setkilled, h.guard_eq i, h.guard_eq j]
    split
    · rename_i hj
      subst hj
      apply Effect.violation hr
      rw [← h.guard_eq j]
      exact hst
    · exact .same
  · exact h.same_effect j

theorem dispatch_effect (hk : (m.k.proc i).killed = 0) (j : Slot) :
    Effect m j (.ecall i) (guardAt ((m.setK k).dispatch i) j) := by
  have fail : Effect m j (.ecall i)
      (guardAt (((m.setK k).setK (k.setA0 i minusOne)).setPc i .sysret) j) := by
    simpa [guardAt] using h.same_effect j
  unfold Machine.dispatch
  dsimp only [Machine.setK_k]
  rw [h.masked_eq, h.a7_eq]
  split
  · exact fail
  · rename_i s hs
    rw [h.inspect_eq]
    split
    · rename_i hm
      split
      · exact fail
      · rename_i hv
        exact h.enter_effect ⟨hk, hs, fun _ => hv⟩ j
      · rename_i hv
        exact h.refuse_effect ⟨hk, s, hs, hm, hv⟩ j
    · rename_i hm
      exact h.enter_effect ⟨hk, hs, fun hm' => absurd hm' hm⟩ j

end PastEcall

/-- Nothing is filtered at boot. -/
theorem guardAt_boot (fs : Fs) (file : Fp → File) (j : Slot) :
    guardAt (boot fs file) j =
      if j = 0 then { Guard.clear with free := false, pid := 1 } else .clear := by
  by_cases hj : j = 0
  · subst hj
    rfl
  · simp [guardAt, boot, bootKernel, Kernel.allocFound, hj, guard, Proc.zero, Guard.clear]

theorem pastEcall_past (m : Machine) (i : Slot) : PastEcall m i (m.k.pastEcall i) :=
  ⟨⟨_, Function.update_self ..⟩, fun l hl => by simp [Kernel.pastEcall, hl]⟩

theorem ecall_effect (m : Machine) (i j : Slot) : Effect m j (.ecall i) (guardAt (m.ecall i) j) := by
  unfold Machine.ecall
  split
  · exact .same
  · rename_i hk
    exact (pastEcall_past m i).dispatch_effect (by simpa using hk) j

theorem allocAt_effect {m m' : Machine} {i j : Slot} {n : Nat} {mem : Kernel.ForkMem}
    (hpc : m.pc i = .alloc n) (hr : (m.k.proc i).state = .running)
    (h : m.allocAt i n mem = some m') : Effect m j (.alloc i mem) (guardAt m' j) := by
  unfold Machine.allocAt at h
  split at h
  · rename_i hn
    dsimp only at h
    split at h
    · rename_i hu
      have hne : i ≠ ⟨n, hn⟩ := by
        intro he
        rw [← he, hr] at hu
        cases hu
      have hfree : (guardAt m ⟨n, hn⟩).free = true := by simp [guardAt, guard, hu]
      have key : ∀ made k, m.k.kforkFound i ⟨n, hn⟩ mem = .ok (made, k) →
          Effect m j (.alloc i mem) (guard (k.proc j)) := by
        intro made k hk
        obtain ⟨hm, hc, hi, hl⟩ := kforkFound_guard hne hk
        by_cases hji : j = i
        · subst hji
          rcases hi with he | he
          · rw [he]; exact .same
          · rw [he]; exact .parent ⟨n, hn⟩ hpc mem
        · by_cases hjc : j = ⟨n, hn⟩
          · subst hjc
            rw [hc]
            cases made with
            | false => exact .aborted i hpc mem hfree
            | true =>
              rw [hm.mp rfl]
              exact .born i hpc hfree
          · rw [hl j hji hjc]
            exact .same
      split at h
      · cases h
      · rename_i k hk
        cases h
        exact key true k hk
      · rename_i k hk
        cases h
        rw [guardAt_finish]
        exact key false k hk
    · cases h
      exact .same
  · cases h
    rw [guardAt_finish]
    exact .same

theorem waitAt_effect (m : Machine) (i j : Slot) (addr : U64) (copied : Bool) (pt : PageTable)
    (hr : (m.k.proc i).state = .running) :
    Effect m j (.wait i copied pt) (guardAt (m.waitAt i addr copied pt) j) := by
  unfold Machine.waitAt
  dsimp only
  split
  · rename_i z hz
    have hzombie : (m.k.proc z).state = .zombie := by
      unfold Kernel.kwaitScan at hz
      split at hz
      · rename_i z' hf
        cases hz
        have := List.find?_some hf
        simp only [decide_eq_true_eq] at this
        exact this.2
      · split at hz <;> cases hz
    have hk : ∀ l, guard ((if addr ≠ 0 then m.k.setProc i { m.k.proc i with pagetable := pt }
        else m.k).proc l) = guardAt m l := by
      intro l
      split
      · rw [guard_setProc]
        split
        · rename_i hl; subst hl; rfl
        · rfl
      · rfl
    split
    · rw [guardAt_finish, hk]
      exact .same
    · rw [guardAt_finish, guard_freeproc]
      split
      · rename_i hj
        subst hj
        exact .freed i hzombie copied pt
      · rw [hk]
        exact .same
  · split
    · rw [guardAt_finish]; exact .same
    · simp only [guardAt, Machine.setK_k]
      rw [guard_sleep _ _ _ _ hr]
      exact .same
  · rw [guardAt_finish]; exact .same

theorem killAt_effect (m : Machine) (i j : Slot) (pid : I32) (n : Nat)
    (hpc : m.pc i = .kill pid n) : Effect m j (.kill i) (guardAt (m.killAt i pid n) j) := by
  unfold Machine.killAt
  split
  · rename_i hn
    dsimp only
    split
    · rename_i hp
      rw [guardAt_finish, guard_killAt]
      split
      · rename_i hj
        subst hj
        apply Effect.kill i
        rw [hpc, ← hp]
        rfl
      · exact .same
    · exact .same
  · rw [guardAt_finish]; exact .same

theorem setProc_effect (m : Machine) (e : Event) (i j : Slot) (p : Proc)
    (hp : guard p = guardAt m i) : Effect m j e (guard ((m.k.setProc i p).proc j)) := by
  rw [guard_setProc]
  split
  · rename_i hj
    subst hj
    rw [hp]
    exact .same
  · exact .same

/-- What a step of the machine can do to the filter fields of a slot. -/
theorem step_effect {m m' : Machine} {e : Event} (h : m.step e = some m') (j : Slot) :
    Effect m j e (guardAt m' j) := by
  cases step_stepped h with
  | sched i hs => exact setProc_effect m _ i j _ (by simp [guardAt, guard, hs])
  | yield i hr => exact setProc_effect m _ i j _ (by simp [guardAt, guard, hr])
  | user i => exact setProc_effect m _ i j _ rfl
  | fault i =>
    simp only [guardAt, Machine.setPc_k, Machine.setK_k]
    rw [guard_setkilled]
    split
    · rename_i hj
      subst hj
      exact .fault
    · exact .same
  | ecall i => exact ecall_effect m i j
  | alloc i mem hr hpc ha => exact allocAt_effect hpc hr ha
  | adopt i c => exact setProc_effect m _ c j _ rfl
  | launch i c hr hpc =>
    change Effect m j _ (guardAt (m.finish i _) j)
    rw [guardAt_finish, guard_setProc]
    split
    · rename_i hj
      subst hj
      exact .launch i hpc
    · exact .same
  | exit i status fs file pipe hr =>
    simp only [guardAt, Machine.setPc_k, Machine.setK_k]
    rw [guard_kexitLocked _ _ _ _ (by simpa using hr)]
    exact setProc_effect m _ i j _ rfl
  | wait i addr copied pt hr => exact waitAt_effect m i j addr copied pt hr
  | kill i pid n _ hpc => exact killAt_effect m i j pid n hpc
  | work i v => exact setProc_effect m _ i j _ rfl
  | sleep i chan hr =>
    simp only [guardAt, Machine.setK_k]
    rw [guard_sleep _ _ _ _ hr]
    exact .same
  | done i r =>
    rw [guardAt_finish]
    exact .same
  | wakeup i chan =>
    simp only [guardAt, Machine.setK_k, guard_wakeup]
    exact .same
  | sysret | auditWork | auditDone => exact .same

end Xv6Filter.Proofs
