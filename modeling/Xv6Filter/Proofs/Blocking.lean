import Xv6Filter.User.Filter
import Xv6Filter.Proofs.Dispatch
import Xv6Filter.Proofs.Ratchet

namespace Xv6Filter.Proofs
open Lib

def oneBit (n : Nat) : U64 := 1#64 <<< n

theorem getLsbD_oneBit (n j : Nat) : (oneBit n).getLsbD j = decide (j < 64 ∧ j = n) := by
  simp only [oneBit, BitVec.getLsbD_shiftLeft, BitVec.getLsbD_one]
  grind

theorem oneBit_contains (n : Nat) (m : U64) : Contains (oneBit n) m ↔ m = 0 ∨ m = oneBit n := by
  constructor
  · intro h
    have hbit (j : Nat) (hj : m.getLsbD j = true) : (oneBit n).getLsbD j = true := by
      have hand := congrArg (·.getLsbD j) h
      simpa [hj] using hand
    by_cases hn : m.getLsbD n = true
    · right
      apply BitVec.eq_of_getLsbD_eq
      intro j hj
      by_cases he : j = n
      · subst he
        rw [hn, hbit j hn]
      · cases hm : m.getLsbD j with
        | false => simp [getLsbD_oneBit, he]
        | true =>
          have hone := hbit j hm
          simp [getLsbD_oneBit, he] at hone
    · left
      apply BitVec.eq_of_getLsbD_eq
      intro j hj
      cases hm : m.getLsbD j with
      | false => simp
      | true =>
        have hone := hbit j hm
        simp only [getLsbD_oneBit, decide_eq_true_eq] at hone
        rw [hone.2] at hm
        exact absurd hm hn
  · rintro (rfl | rfl)
    · exact BitVec.and_zero
    · exact Contains.refl _

theorem oneBit_injective (hn : n < 64) (h : oneBit n = oneBit n') : n = n' := by
  have hbit : (oneBit n).getLsbD n = (oneBit n').getLsbD n := by rw [h]
  rw [getLsbD_oneBit, getLsbD_oneBit] at hbit
  simpa [hn] using hbit

theorem oneBit_ne_zero (hn : n < 64) : oneBit n ≠ 0 := by
  intro h
  have hbit : (oneBit n).getLsbD n = (0 : U64).getLsbD n := by rw [h]
  rw [getLsbD_oneBit] at hbit
  simp [hn] at hbit

def MayFilter (i : Slot) (k : Kernel) : Prop := masked (k.proc i) 23 = false

theorem mayFilter_of_mask {i : Slot} {k : Kernel} (hm : (k.proc i).syscallMask = oneBit n) (hne : n ≠ 23) :
    MayFilter i k := by
  have hand : oneBit n &&& (1#64 <<< 23) = 0 := by
    apply BitVec.eq_of_getLsbD_eq
    intro j hj
    have hother := getLsbD_oneBit 23 j
    rw [oneBit] at hother
    rw [BitVec.getLsbD_and, getLsbD_oneBit, hother]
    grind
  simp only [MayFilter, masked, hm]
  simpa using hand

section Calls

variable {h : Handlers} {i : Slot} {k : Kernel}

/-- A call that is let through is `sys_setfilter` with a one-bit mask. -/
theorem sandboxBlockSyscall_eq (hk : MayFilter i k) (n : Nat) :
    let p := k.proc i
    let loaded := k.setProc i { p with trapframe := { p.trapframe with a7 := 23, a0 := oneBit n } }
    h.sandboxBlockSyscall i n k =
      some ((sysSetfilter i loaded).1, (sysSetfilter i loaded).2.setA0 i (sysSetfilter i loaded).1) := by
  intro p loaded
  have hnum : Sys.ofNum (argint (loaded.proc i).trapframe.a7) = some .setfilter := by
    simp only [loaded, Kernel.setProc, Function.update_self]
    decide
  have hbit : masked (loaded.proc i) (argint (loaded.proc i).trapframe.a7) = false := by
    simp only [loaded, Kernel.setProc, Function.update_self]
    exact hk
  have hback : h.syscall i loaded = .back ((sysSetfilter i loaded).2.setA0 i (sysSetfilter i loaded).1) := by
    simp only [Handlers.syscall, hnum, hbit, Bool.false_eq_true, if_false]
    rfl
  simp only [Handlers.sandboxBlockSyscall, Handlers.stub]
  rw [show k.setProc i { k.proc i with trapframe := { (k.proc i).trapframe with a7 := 23, a0 := 1#64 <<< n } } = loaded
    from rfl, hback]
  simp [Kernel.setA0, Kernel.setProc]

theorem sandboxBlockSyscall_ok (hk : MayFilter i k) (hc : Contains (oneBit n) (k.proc i).syscallMask) :
    ∃ k', h.sandboxBlockSyscall i n k = some (0, k') ∧ (k'.proc i).syscallMask = oneBit n := by
  rw [sandboxBlockSyscall_eq hk]
  have hc : oneBit n &&& (k.proc i).syscallMask = (k.proc i).syscallMask := hc
  simp [sysSetfilter, Kernel.setA0, Kernel.setProc, hc]

theorem sandboxBlockSyscall_fails (hk : MayFilter i k) (hc : ¬Contains (oneBit n) (k.proc i).syscallMask) :
    ∃ k', h.sandboxBlockSyscall i n k = some (minusOne, k') := by
  rw [sandboxBlockSyscall_eq hk]
  have hc : ¬oneBit n &&& (k.proc i).syscallMask = (k.proc i).syscallMask := hc
  simp [sysSetfilter, Kernel.setProc, hc]

def Accumulates (h : Handlers) (i : Slot) (ns : List Nat) (k : Kernel) : Prop :=
  ∃ k', h.sandboxBlockAll i ns k = some (ns.map fun _ => 0, k') ∧
    (k'.proc i).syscallMask = ns.foldl (fun m n => m ||| oneBit n) (k.proc i).syscallMask

theorem accumulates_cons_ok (hcall : h.sandboxBlockSyscall i a k = some (0, k1))
    (hmask : (k1.proc i).syscallMask = (k.proc i).syscallMask ||| oneBit a) :
    Accumulates h i (a :: ns) k ↔ Accumulates h i ns k1 := by
  simp only [Accumulates, Handlers.sandboxBlockAll, hcall, Option.bind_eq_bind, Option.bind_some, List.map_cons,
    List.foldl_cons, ← hmask]
  constructor
  · rintro ⟨k', hall, hend⟩
    obtain ⟨⟨rs, k''⟩, hrest, he⟩ := Option.bind_eq_some_iff.mp hall
    simp only [Option.some.injEq, Prod.mk.injEq, List.cons.injEq, true_and] at he
    obtain ⟨rfl, rfl⟩ := he
    exact ⟨k'', hrest, hend⟩
  · rintro ⟨k', hrest, hend⟩
    exact ⟨k', by rw [hrest]; rfl, hend⟩

theorem not_accumulates_cons (hcall : h.sandboxBlockSyscall i a k = some (minusOne, k1)) :
    ¬Accumulates h i (a :: ns) k := by
  rintro ⟨k', hall, -⟩
  simp only [Handlers.sandboxBlockAll, hcall, List.map_cons, Option.bind_eq_bind, Option.bind_some,
    Option.bind_eq_some_iff] at hall
  obtain ⟨r, -, he⟩ := hall
  simp at he

/-- Once the mask is one bit, only that bit can be asked for again. -/
theorem block_again (hn : n < 64) (hne : n ≠ 23) (hm : (k.proc i).syscallMask = oneBit n) (hns : ∀ n' ∈ ns, n' < 64) :
    Accumulates h i ns k ↔ ∀ n' ∈ ns, n' = n := by
  induction ns generalizing k with
  | nil => simp [Accumulates, Handlers.sandboxBlockAll]
  | cons a ns ih =>
    have hmay : MayFilter i k := mayFilter_of_mask hm hne
    by_cases ha : a = n
    · subst ha
      obtain ⟨k1, hcall, hmask⟩ := sandboxBlockSyscall_ok (h := h) (n := a) hmay (by rw [hm]; exact Contains.refl _)
      have hsame : (k1.proc i).syscallMask = (k.proc i).syscallMask ||| oneBit a := by
        rw [hmask, hm, BitVec.or_self]
      have hrest := ih hmask fun n' hn' => hns n' (List.mem_cons_of_mem _ hn')
      simp only [List.forall_mem_cons, true_and, ← hrest]
      exact accumulates_cons_ok hcall hsame
    · have hnot : ¬Contains (oneBit a) (k.proc i).syscallMask := by
        rw [hm, oneBit_contains]
        rintro (hzero | hsame)
        · exact oneBit_ne_zero hn hzero
        · exact ha (oneBit_injective hn hsame).symm
      obtain ⟨k1, hcall⟩ := sandboxBlockSyscall_fails (h := h) hmay hnot
      constructor
      · intro hall
        exact absurd hall (not_accumulates_cons hcall)
      · intro hall
        exact absurd (hall a List.mem_cons_self) ha

/-- The calls accumulate exactly when there is nothing to accumulate: no call at all, or one number
only, asked of a process whose mask holds no other bit. -/
theorem blocking_accumulates_iff (hk : MayFilter i k) (hns : ∀ n ∈ ns, n < 64 ∧ n ≠ 23) :
    Accumulates h i ns k ↔
      ns = [] ∨ ∃ n, ((k.proc i).syscallMask = 0 ∨ (k.proc i).syscallMask = oneBit n) ∧ ∀ n' ∈ ns, n' = n := by
  cases ns with
  | nil => simp [Accumulates, Handlers.sandboxBlockAll]
  | cons a ns =>
    obtain ⟨ha, hne⟩ := hns a List.mem_cons_self
    have hns' : ∀ n' ∈ ns, n' < 64 := fun n' hn' => (hns n' (List.mem_cons_of_mem _ hn')).1
    have hsome : (∃ n, ((k.proc i).syscallMask = 0 ∨ (k.proc i).syscallMask = oneBit n) ∧ ∀ n' ∈ a :: ns, n' = n) ↔
        Contains (oneBit a) (k.proc i).syscallMask ∧ ∀ n' ∈ ns, n' = a := by
      rw [oneBit_contains]
      constructor
      · rintro ⟨n, hmask, hall⟩
        obtain rfl := hall a List.mem_cons_self
        exact ⟨hmask, fun n' hn' => hall n' (List.mem_cons_of_mem _ hn')⟩
      · rintro ⟨hmask, hall⟩
        exact ⟨a, hmask, by simpa using hall⟩
    simp only [List.cons_ne_nil, false_or, hsome]
    by_cases hc : Contains (oneBit a) (k.proc i).syscallMask
    · obtain ⟨k1, hcall, hmask⟩ := sandboxBlockSyscall_ok (h := h) hk hc
      have hadded : (k1.proc i).syscallMask = (k.proc i).syscallMask ||| oneBit a := by
        rcases (oneBit_contains a _).mp hc with hzero | hsame
        · rw [hmask, hzero]
          exact BitVec.zero_or.symm
        · rw [hmask, hsame, BitVec.or_self]
      simp only [hc, true_and, ← block_again (h := h) ha hne hmask hns']
      exact accumulates_cons_ok hcall hadded
    · obtain ⟨k1, hcall⟩ := sandboxBlockSyscall_fails (h := h) hk hc
      simp only [hc, false_and, iff_false]
      exact not_accumulates_cons hcall

end Calls

def noHandlers : Handlers := ⟨fun _ _ _ k => .ret minusOne k, fun _ _ k => .ret minusOne k⟩

/-- The same number twice. -/
theorem blocking_accumulates_twice :
    Accumulates noHandlers 0 [15, 15] (boot bareFs bareFiles).k :=
  (blocking_accumulates_iff (by unfold MayFilter; decide) (by decide)).mpr (.inr ⟨15, .inl (by decide), by decide⟩)

/-- `open` and then `write` blocked from a fresh process: the second call fails, and `write` stays allowed. -/
theorem blocking_second_call_fails :
    ((noHandlers.sandboxBlockAll 0 [15, 16] (boot bareFs bareFiles).k).map fun r =>
      (r.1, (r.2.proc 0).syscallMask)) = some ([0, minusOne], 1#64 <<< 15) := by
  decide

/-- `setfilter` that returns 0 has set the mask. -/
theorem stub_setfilter {h : Handlers} (hs : h.stub i 23 mask k = some (0, k')) :
    (k'.proc i).syscallMask = mask := by
  have hdeny (p : Proc) : inspect p .setfilter = .deny := inspect_of_not_inspected (by decide)
  simp only [Handlers.stub, Handlers.syscall, Kernel.setProc, Function.update_self, show argint 23 = 23 by decide,
    show Sys.ofNum 23 = some .setfilter by decide, hdeny, deny_eq_refusal, refusal, Handlers.call, sysSetfilter_eq] at hs
  split at hs
  · rename_i hb
    split at hb
    · split at hb <;> cases hb
      simp [minusOne] at hs
    · simp only [Res.storeA0] at hb
      split at hb <;> cases hb <;> simp [Kernel.setA0, Kernel.setProc, minusOne] at hs
      simp [← hs]
  · cases hs

/-- Once `sandbox_apply_profile("PURE_COMPUTE")` has returned 0, `write`, `read`, `mknod`, `link`,
`mkdir` and `chdir` are refused to the process for as long as it lives, whatever it and all
other processes do in between, the handlers of the file calls, of `exec` and of `sbrk` included. -/
theorem profile_lasts {h : Handlers} {profile : List Byte} {m m' : Machine}
    (hp : h.sandboxApplyProfile j profile k = some (0, m.k))
    (hr : LiveRun Machine.move anyEvent (live j) m es m') {n : I32} (hn : n ∈ [16, 5, 17, 19, 20, 9])
    (ha : argint (m'.k.proc j).trapframe.a7 = n) : m'.dispatch j = m'.refuse j := by
  unfold Handlers.sandboxApplyProfile at hp
  split at hp
  · have hmask := stub_setfilter hp
    have hc : Contains (m'.k.proc j).syscallMask (m.k.proc j).syscallMask := (liveRun_ratchet hr).2
    obtain ⟨hbit, hne, s, hs, hi⟩ : Contains (m.k.proc j).syscallMask (1#64 <<< n.toNat) ∧
        1#64 <<< n.toNat ≠ 0 ∧ ∃ s, Sys.ofNum n = some s ∧ s ∉ inspected := by
      rw [hmask]
      clear ha
      simp only [List.mem_cons, List.not_mem_nil, or_false] at hn
      rcases hn with rfl | rfl | rfl | rfl | rfl | rfl <;> exact ⟨by decide, by decide, _, rfl, by decide⟩
    have hon : masked (m'.k.proc j) n = true := by
      have hand : _ = 1#64 <<< n.toNat := hc.trans hbit
      simp only [masked, hand, decide_eq_true_eq]
      exact hne
    simp only [Machine.dispatch, ha, hs, hon, if_true, inspect_of_not_inspected hi]
  · cases hp

def mkdirAfterExec : List Move :=
  [.step (.sched 0), execute ['/', 'q'], .step (.sysret 0), .step (load 0 7 0), .step (.ecall 0), execute ['/', 'p'],
    .step (.sysret 0), .step (load 0 20 0)]

/-- A program under the profile runs another one, and its `mkdir` is refused. -/
theorem profile_lasts_mkdir : ∃ m m' : Machine,
    noHandlers.sandboxApplyProfile 0 pureComputeName (boot programDisk bareFiles).k = some (0, m.k) ∧
      LiveRun Machine.move anyEvent (live 0) m mkdirAfterExec m' ∧ m'.dispatch 0 = m'.refuse 0 := by
  obtain ⟨⟨_, k⟩, hp, hk⟩ := (Option.any_eq_true _ _).mp (show
    ((noHandlers.sandboxApplyProfile 0 pureComputeName (boot programDisk bareFiles).k).any fun r =>
      let m := (boot programDisk bareFiles).setK r.2
      decide (r.1 = 0 ∧ live 0 m ∧ (replay (fun t a => (t.move a).filter fun u => decide (live 0 u)) anyEvent
        mkdirAfterExec m).any fun m' => decide (argint (m'.k.proc 0).trapframe.a7 = 20))) = true
    by decide +kernel)
  obtain ⟨rfl, hl, hload⟩ := of_decide_eq_true hk
  obtain ⟨m', hr, ha⟩ := replay_reaches hload
  have hr := LiveRun.of_run hl hr
  exact ⟨_, m', hp, hr, profile_lasts hp hr (by decide) ha⟩

end Xv6Filter.Proofs
