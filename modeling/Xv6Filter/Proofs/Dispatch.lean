import Xv6Filter.Proofs.Effects

namespace Xv6Filter.Proofs

open Function

/-- What a refusal is: the call has no effect of its own, `a0` becomes -1, strict
mode marks the process killed and auditing writes one record. -/
def refusal (i : Slot) (num : I32) (k : Kernel) : Flow :=
  let p := k.proc i
  let q := { p with
    killed := if p.strictMode ≠ 0 then 1 else p.killed
    trapframe := { p.trapframe with a0 := minusOne } }
  match if p.auditEnabled ≠ 0 then k.fs.auditLogWrite p.pid num else .ok k.fs with
  | .error why => .stop why
  | .ok fs => .back { k.setProc i q with fs := fs }

theorem deny_eq_refusal (i : Slot) (num : I32) (k : Kernel) :
    deny i num k = refusal i num k := by
  unfold deny refusal auditDenied
  by_cases hs : (k.proc i).strictMode = 0#32 <;> by_cases ha : (k.proc i).auditEnabled = 0#32
  all_goals
    simp only [hs, ha, Kernel.setkilled, Kernel.setA0, Kernel.setProc, update_self,
      update_idem, ne_eq, BitVec.ofNat_eq_ofNat, not_true_eq_false, not_false_eq_true,
      ↓reduceIte]
  all_goals
    cases k.fs.auditLogWrite (k.proc i).pid num <;> simp

def inspected : List Sys := [.open, .kill, .exec, .unlink, .sbrk]

theorem inspect_of_not_inspected {p : Proc} {s : Sys} (h : s ∉ inspected) :
    inspect p s = .deny := by
  cases s <;> first | rfl | simp [inspected] at h

theorem inspect_unfetched {p : Proc} {s : Sys} (h : inspect p s = .unfetched) :
    (s = .open ∨ s = .exec ∨ s = .unlink) ∧ fetchstr p p.trapframe.a0 maxpath = none := by
  have hp : ∀ safe, inspectPath p safe = .unfetched →
      fetchstr p p.trapframe.a0 maxpath = none := by
    intro safe hu
    unfold inspectPath at hu
    split at hu
    · assumption
    · split at hu <;> cases hu
  cases s with
  | «open» => exact ⟨.inl rfl, hp _ h⟩
  | exec => exact ⟨.inr (.inl rfl), hp _ h⟩
  | unlink => exact ⟨.inr (.inr rfl), hp _ h⟩
  | kill => simp only [inspect] at h; split at h <;> cases h
  | sbrk => simp only [inspect] at h; split at h <;> cases h
  | _ => cases h

/-- A handler that cannot fetch its path fails at once, as the filter does for it. -/
theorem call_unfetched (h : Handlers) {i : Slot} {k : Kernel} {s : Sys}
    (hi : inspect (k.proc i) s = .unfetched) : h.call i k s = .ret minusOne k := by
  obtain ⟨hs, hf⟩ := inspect_unfetched hi
  rcases hs with rfl | rfl | rfl
  · simp only [Handlers.call, Kernel.sysOpen, hf]
  · simp only [Handlers.call, sysExec, hf]
  · simp only [Handlers.call, Kernel.sysUnlink, hf]

section Syscall

variable (h : Handlers) {i : Slot} {k : Kernel}

theorem syscall_clear (hm : masked (k.proc i) (argint (k.proc i).trapframe.a7) = false) :
    h.syscall i k = h.unfiltered i k := by
  unfold Handlers.syscall Handlers.unfiltered
  simp only [hm, Bool.false_eq_true, ↓reduceIte]

theorem syscall_masked {s : Sys} (hs : Sys.ofNum (argint (k.proc i).trapframe.a7) = some s)
    (hm : masked (k.proc i) (argint (k.proc i).trapframe.a7) = true) :
    h.syscall i k = if inspect (k.proc i) s = .deny then
      refusal i (argint (k.proc i).trapframe.a7) k else h.unfiltered i k := by
  unfold Handlers.syscall Handlers.unfiltered
  simp only [hs, hm, ↓reduceIte]
  cases hi : inspect (k.proc i) s with
  | run => rfl
  | unfetched => rw [call_unfetched h hi]; rfl
  | deny => exact deny_eq_refusal ..

theorem syscall_unknown (hs : Sys.ofNum (argint (k.proc i).trapframe.a7) = none) :
    h.syscall i k = h.unfiltered i k := by
  unfold Handlers.syscall Handlers.unfiltered
  simp only [hs]

/-- A refusal in strict mode leaves the process killed, if it returns at all. -/
theorem refusal_strict {num : I32} {k' : Kernel} (hs : (k.proc i).strictMode ≠ 0)
    (hr : refusal i num k = .back k') : (k'.proc i).killed = 1 := by
  unfold refusal at hr
  dsimp only at hr
  split at hr
  · cases hr
  · cases hr
    simp only [Kernel.setProc_proc, update_self, if_pos hs]

theorem refusal_not_exit (num status : I32) (k' : Kernel) :
    refusal i num k ≠ .exit status k' := by
  unfold refusal
  dsimp only
  split <;> simp

theorem pastEcall_proc (k : Kernel) (i : Slot) :
    (k.pastEcall i).proc i = { k.proc i with
      trapframe := { (k.proc i).trapframe with epc := (k.proc i).trapframe.epc + 4 } } :=
  update_self ..

theorem usertrap_refused (hr : Refuses (k.proc i)) (hs : (k.proc i).strictMode ≠ 0) :
    let out := refusal i (argint (k.proc i).trapframe.a7) (k.pastEcall i)
    (∃ k', out = .back k' ∧ h.usertrap i k .ecall = .exit (-1) k') ∨
      ∃ why, out = .stop why ∧ h.usertrap i k .ecall = .stop why := by
  obtain ⟨hk, s, ho, hm, hd⟩ := hr
  have hp := pastEcall_proc k i
  have hc : h.syscall i (k.pastEcall i) =
      refusal i (argint (k.proc i).trapframe.a7) (k.pastEcall i) := by
    rw [syscall_masked h (s := s) (by rw [hp]; exact ho) (by rw [hp]; exact hm), hp,
      inspect_epc, if_pos hd]
  simp only [Handlers.usertrap, hk, ne_eq, not_true_eq_false, ↓reduceIte, hc]
  cases hout : refusal i (argint (k.proc i).trapframe.a7) (k.pastEcall i) with
  | back k' =>
    have hk' : (k'.proc i).killed = 1 :=
      refusal_strict (by rw [hp]; exact hs) hout
    exact .inl ⟨k', rfl, by simp [hk']⟩
  | exit status k' => exact absurd hout (refusal_not_exit _ _ _)
  | stop why => exact .inr ⟨why, rfl, rfl⟩

end Syscall

/-- The filter only restricts the dispatcher. A clear bit changes nothing. A set bit
changes nothing or refuses the call; an unreadable path fails the same with and
without the filter; a call that is not inspected is refused; and a process refused
in strict mode ends in `kexit(-1)`. -/
theorem filter_only_restricts (h : Handlers) (i : Slot) (k : Kernel) :
    let p := k.proc i
    let num := argint p.trapframe.a7
    (masked p num = false → h.syscall i k = h.unfiltered i k) ∧
    (masked p num = true →
      h.syscall i k = h.unfiltered i k ∨ h.syscall i k = refusal i num k) ∧
    (∀ s ∈ [Sys.open, .exec, .unlink], Sys.ofNum num = some s → masked p num = true →
      fetchstr p p.trapframe.a0 maxpath = none →
        h.syscall i k = .back (k.setA0 i minusOne) ∧
        h.unfiltered i k = .back (k.setA0 i minusOne)) ∧
    (∀ s, Sys.ofNum num = some s → masked p num = true → s ∉ inspected →
      h.syscall i k = refusal i num k) ∧
    (Refuses p → p.strictMode ≠ 0 →
      (∃ k', refusal i num (k.pastEcall i) = .back k' ∧ h.usertrap i k .ecall = .exit (-1) k') ∨
        ∃ why, refusal i num (k.pastEcall i) = .stop why ∧ h.usertrap i k .ecall = .stop why) := by
  refine ⟨syscall_clear h, ?_, ?_, ?_, usertrap_refused h⟩
  · intro hm
    cases hs : Sys.ofNum (argint (k.proc i).trapframe.a7) with
    | none => exact .inl (syscall_unknown h hs)
    | some s =>
      rw [syscall_masked h hs hm]
      split
      · exact .inr rfl
      · exact .inl rfl
  · intro s hmem hs hm hf
    have hi : inspect (k.proc i) s = .unfetched := by
      simp only [List.mem_cons, List.not_mem_nil, or_false] at hmem
      rcases hmem with rfl | rfl | rfl <;> simp only [inspect, inspectPath, hf]
    have hu : h.unfiltered i k = .back (k.setA0 i minusOne) := by
      simp only [Handlers.unfiltered, hs, call_unfetched h hi, Res.storeA0]
    rw [syscall_masked h hs hm, hi]
    exact ⟨hu, hu⟩
  · intro s hs hm hn
    rw [syscall_masked h hs hm, inspect_of_not_inspected hn, if_pos rfl]

def strictGetpid : Kernel :=
  (bootKernel bareFs bareFiles).setProc 0
    { Proc.zero with
      state := .running
      trapframe := { Trapframe.zero with a7 := 11 }
      syscallMask := 0x800
      strictMode := 1 }

def idleHandlers : Handlers := ⟨fun _ _ _ k => .ret minusOne k, fun _ _ k => .ret 0 k⟩

/-- A masked `getpid` in strict mode is refused, and the process exits. -/
theorem filter_only_restricts_strictGetpid :
    idleHandlers.syscall 0 strictGetpid = refusal 0 11 strictGetpid ∧
      ∃ k', idleHandlers.usertrap 0 strictGetpid .ecall = .exit (-1) k' := by
  obtain ⟨_, _, _, hden, hend⟩ := filter_only_restricts idleHandlers 0 strictGetpid
  refine ⟨hden .getpid (by decide) (by decide) (by decide), ?_⟩
  rcases hend ⟨by decide, .getpid, by decide, by decide, by decide⟩ (by decide) with
    ⟨k', _, hk⟩ | ⟨why, hw, _⟩
  · exact ⟨k', hk⟩
  · cases hw

def Calls (h : Handlers) (i : Slot) (k : Kernel) (s : Sys) : Prop :=
  h.syscall i k = (h.call i k s).storeA0 i

/-- Where the machine's dispatcher leaves a process, against `syscall()`: past the call, or at the
first section of the handler that `syscall()` runs, with nothing changed. -/
def Agrees (h : Handlers) (i : Slot) (k : Kernel) (m : Machine) : Prop :=
  match m.pc i with
  | .sysret => h.syscall i k = .back m.k
  | .exit status => h.syscall i k = .exit status m.k
  | .audit =>
    h.syscall i k =
      match m.k.fs.auditLogWrite (m.k.proc i).pid (argint (k.proc i).trapframe.a7) with
      | .error why => .stop why
      | .ok fs => .back { m.k with fs := fs }
  | .alloc j => j = 0 ∧ m.k = k ∧ Calls h i k .fork
  | .wait addr => addr = (k.proc i).trapframe.a0 ∧ m.k = k ∧ Calls h i k .wait
  | .kill pid j => pid = argint (k.proc i).trapframe.a0 ∧ j = 0 ∧ m.k = k ∧ Calls h i k .kill
  | .busy s => m.k = k ∧ Calls h i k s
  | _ => False

theorem enter_agrees (h : Handlers) (m : Machine) (i : Slot) (s : Sys) (hs : Calls h i m.k s) :
    Agrees h i m.k (m.enter i s) := by
  unfold Calls at hs
  cases s <;> simp [Agrees, Calls, Machine.enter, Machine.finish, hs, Handlers.call, Res.storeA0]

theorem refuse_agrees (h : Handlers) (m : Machine) (i : Slot)
    (hs : h.syscall i m.k = refusal i (argint (m.k.proc i).trapframe.a7) m.k) :
    Agrees h i m.k (m.refuse i) := by
  unfold Agrees Machine.refuse
  rw [hs, refusal]
  by_cases hm : (m.k.proc i).strictMode = 0#32 <;> by_cases ha : (m.k.proc i).auditEnabled = 0#32
  all_goals
    simp only [hm, ha, Kernel.setkilled, Kernel.setA0, Kernel.setProc, update_self,
      update_idem, Machine.setPc_pc, Machine.setPc_k, Machine.setK_k, ne_eq,
      BitVec.ofNat_eq_ofNat, not_true_eq_false, not_false_eq_true, ↓reduceIte]

/-- The dispatcher of the machine refines `syscall()`, whatever the handlers do. -/
theorem dispatch_agrees (h : Handlers) (m : Machine) (i : Slot) :
    Agrees h i m.k (m.dispatch i) := by
  have fails : h.syscall i m.k = .back (m.k.setA0 i minusOne) →
      Agrees h i m.k ((m.setK (m.k.setA0 i minusOne)).setPc i .sysret) := by
    intro hs
    simpa [Agrees] using hs
  simp only [Machine.dispatch]
  cases hs : Sys.ofNum (argint (m.k.proc i).trapframe.a7) with
  | none => exact fails (by simp only [Handlers.syscall, hs])
  | some s =>
    by_cases hm : masked (m.k.proc i) (argint (m.k.proc i).trapframe.a7) = true
    · simp only [hm, ↓reduceIte]
      cases hi : inspect (m.k.proc i) s with
      | unfetched => exact fails (by simp only [Handlers.syscall, hs, hm, hi, ↓reduceIte])
      | run => exact enter_agrees h m i s (by simp only [Calls, Handlers.syscall, hs, hm, hi, ↓reduceIte])
      | deny => exact refuse_agrees h m i (by rw [syscall_masked h hs hm, if_pos hi])
    · simp only [hm]
      exact enter_agrees h m i s (by simp only [Calls, Handlers.syscall, hs, hm]; rfl)

end Xv6Filter.Proofs
