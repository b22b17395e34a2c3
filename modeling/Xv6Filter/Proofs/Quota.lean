import Xv6Filter.Proofs.PageRuns
import Xv6Filter.Proofs.Dispatch
import Xv6Filter.Kernel.Host

namespace Xv6Filter.Paging
open Lib Function

abbrev quotaStep : Nat := 1024 * 1024
abbrev quotaTotal : Nat := 10 * 1024 * 1024

def Host.request (x : Host) (i : Slot) : I32 := argint (x.kernel.proc i).trapframe.a0

theorem inspect_sbrk (x : Host) (i : Slot) :
    inspect (x.proc i) .sbrk =
      if (x.request i).toInt ≤ quotaStep ∧ Ram.addInt (x.memory.proc i).sz (x.request i) ≤ quotaTotal
      then .run else .deny := by
  have hsum : (BitVec.ofNat 64 (x.memory.proc i).sz + (x.request i).signExtend 64).toNat =
      Ram.addInt (x.memory.proc i).sz (x.request i) := by
    rw [BitVec.toNat_add, BitVec.toNat_ofNat, Ram.addInt, Nat.mod_add_mod]
  simp only [inspect, ← hsum]
  rfl

/-- A request of at most 0 passes the test exactly when it leaves a size between 0 and the quota. -/
theorem addInt_le_quota (hsz : sz ≤ trapframeVa) (hn : n.toInt ≤ 0) :
    Ram.addInt sz n ≤ quotaTotal ↔ 0 ≤ (sz : Int) + n.toInt ∧ (sz : Int) + n.toInt ≤ quotaTotal := by
  by_cases hsmall : 0 ≤ (sz : Int) + n.toInt
  · have hsum := addInt_small hsz hsmall
    omega
  · have hrange := toInt_range n
    have heq := addInt_eq sz n
    have hbig : quotaTotal < Ram.addInt sz n := by
      simp only [trapframeVa, trampolineVa, maxva, pgsize, quotaTotal] at *
      omega
    omega

theorem growproc_shrinks {m : Ram} {p : Space} (hf : Fit m p tf) (hn : n.toInt ≤ 0) :
    Runs (m.growproc p n) fun r => r.1 = true := by
  unfold Ram.growproc
  rw [if_neg (Int.not_lt.mpr hn)]
  by_cases hneg : n.toInt < 0
  · rw [if_pos hneg]
    refine (uvmdealloc_runs hf.sound hf.size _).bind ?_
    intro r _
    exact rfl
  · rw [if_neg hneg]
    exact rfl

theorem sysSbrk_shrinks {m : Ram} {p : Space} (hf : Fit m p tf) (hn : n.toInt ≤ 0) (t : I32) :
    Runs (m.sysSbrk p n t) fun r => r.1 = some p.sz := by
  unfold Ram.sysSbrk
  dsimp only
  by_cases heager : t = Ram.sbrkEager ∨ n.toInt < 0
  · rw [if_pos heager]
    refine (growproc_shrinks hf hn).bind ?_
    rintro ⟨grown, m', p'⟩ hgrown
    dsimp only at hgrown
    subst hgrown
    exact rfl
  · have hsum := addInt_small hf.size (n := n) (by omega)
    have hsize := hf.size
    rw [if_neg heager, if_neg (by omega), if_neg (by omega)]
    exact rfl

theorem deny_a0 (h : deny i num k = .back k') : (k'.proc i).trapframe.a0 = minusOne := by
  rw [Proofs.deny_eq_refusal] at h
  simp only [Proofs.refusal] at h
  split at h
  · cases h
  · cases h
    simp [Kernel.setProc]

theorem masked_congr {p q : Proc} (h : p.syscallMask = q.syscallMask) (num : I32) : masked p num = masked q num := by
  simp only [masked, h]

theorem withArgs_mask (x : Host) (i : Slot) (a0 a1 : U64) (l : Slot) :
    ((x.withArgs i a0 a1).kernel.proc l).syscallMask = (x.kernel.proc l).syscallMask := by
  by_cases hl : l = i
  · subst hl
    simp [Host.withArgs, Kernel.setProc]
  · simp [Host.withArgs, Kernel.setProc, hl]

/-- A refusal is no answer to a request that only gives memory back: the handler returns the old size. -/
theorem refused_ne_served {x : Host} (hf : Fit x.memory.ram p tf) (hn : (x.request i).toInt ≤ 0) :
    .ok (deny i sbrkNum x.kernel, x.memory) ≠ x.sysSbrk i p := by
  intro hsame
  obtain ⟨⟨ret, m, p'⟩, hsbrk, hret⟩ := (sysSbrk_shrinks hf hn (argint (x.kernel.proc i).trapframe.a1)).result
  dsimp only at hret
  subst hret
  have hserved : x.sysSbrk i p =
      .ok (.back (x.kernel.setA0 i (BitVec.ofNat 64 p.sz)), x.memory.setSpace i m p') := by
    simp only [Host.sysSbrk]
    rw [show argint (x.kernel.proc i).trapframe.a0 = x.request i from rfl, hsbrk]
    rfl
  rw [hserved] at hsame
  simp only [Except.ok.injEq, Prod.mk.injEq] at hsame
  have ha0 := congrArg BitVec.toNat (deny_a0 hsame.1)
  have hsize := hf.size
  have hminus : minusOne.toNat = 2 ^ 64 - 1 := by decide
  simp only [Kernel.setA0, Kernel.setProc, update_self, BitVec.toNat_ofNat] at ha0
  simp only [trapframeVa, trampolineVa, maxva, pgsize] at hsize
  omega

/-- A request of at most 0 by a masked process is served like that of an unmasked one exactly when
it leaves a size between 0 and the quota. -/
theorem shrink_served_iff {x : Host} (hb : System.boot image tr nodes = some s0)
    (hr : Run System.step anyEvent s0 es x.memory) (hp : x.memory.space i = some p)
    (hmask : masked (x.proc i) sbrkNum = true) (hn : (x.request i).toInt ≤ 0) :
    x.sbrk i p = x.sysSbrk i p ↔
      0 ≤ (p.sz : Int) + (x.request i).toInt ∧ (p.sz : Int) + (x.request i).toInt ≤ quotaTotal := by
  obtain ⟨tf, -, -, hself, hf⟩ := (run_owned hb hr).fit hp
  have hsz : (x.memory.proc i).sz = p.sz := by rw [hself]
  have hstep : (x.request i).toInt ≤ quotaStep := by omega
  rw [← addInt_le_quota hf.size hn]
  simp only [Host.sbrk, hmask, if_true, inspect_sbrk, hsz, hstep, true_and]
  by_cases hquota : Ram.addInt p.sz (x.request i) ≤ quotaTotal
  · simp [hquota]
  · simp only [hquota, if_false, iff_false]
    exact refused_ne_served hf hn

def limitedKernel : Kernel :=
  let k := (boot bareFs bareFiles).k
  k.setProc 0 { k.proc 0 with syscallMask := 0x1000, strictMode := 1 }

def limitedHost (n : I32) : Option Host := do
  let s0 ← System.boot 32568 0x80000 1
  let s ← replay System.step anyEvent [.sbrk 0 n 2] s0
  some ⟨limitedKernel, s⟩

theorem limitedHost_some (h : limitedHost n = some x) :
    x.kernel = limitedKernel ∧
      ∃ s0, System.boot 32568 0x80000 1 = some s0 ∧ Run System.step anyEvent s0 [.sbrk 0 n 2] x.memory := by
  simp only [limitedHost, Option.bind_eq_bind, Option.bind_eq_some_iff] at h
  obtain ⟨s0, hb, s, hs, he⟩ := h
  cases he
  exact ⟨rfl, s0, hb, replay_run hs⟩

theorem limited_masked {x : Host} (h : x.kernel = limitedKernel) (a0 a1 : U64) :
    masked ((x.withArgs 0 a0 a1).proc 0) sbrkNum = true := by
  have hmask : ((x.withArgs 0 a0 a1).proc 0).syscallMask = (x.kernel.proc 0).syscallMask :=
    withArgs_mask x 0 a0 a1 0
  rw [masked_congr hmask, h]
  decide

/-- 4096 bytes of 9 MB are given back. -/
theorem shrink_served_iff_page : ∃ x p, limitedHost 0x900000 = some x ∧ x.memory.space 0 = some p ∧
    (x.withArgs 0 (-4096) 1).sbrk 0 p = (x.withArgs 0 (-4096) 1).sysSbrk 0 p := by
  have hhost : (limitedHost 0x900000).any (fun x => (x.memory.space 0).any fun p => p.sz = 0x900000) = true := by
    decide +kernel
  obtain ⟨x, hx, hspace⟩ := (Option.any_eq_true ..).mp hhost
  obtain ⟨p, hp, hsz⟩ := (Option.any_eq_true ..).mp hspace
  have hsz : p.sz = 0x900000 := of_decide_eq_true hsz
  obtain ⟨hkernel, s0, hb, hr⟩ := limitedHost_some hx
  have hmask := limited_masked hkernel (-4096) 1
  have hrequest : ((x.withArgs 0 (-4096) 1).request 0).toInt = -4096 := by
    simp only [Host.request, Host.withArgs, Kernel.setProc, update_self]
    decide
  have hserved := shrink_served_iff (x := x.withArgs 0 (-4096) 1) hb hr hp hmask (by omega)
  refine ⟨x, p, hx, hp, hserved.mpr ?_⟩
  rw [hsz, hrequest]
  decide

/-- A process that was at 11 MB when it was limited asks for one byte less: it is refused and,
in strict mode, killed. -/
theorem shrink_over_quota_killed : ∃ x p k, limitedHost 0xB00000 = some x ∧ x.memory.space 0 = some p ∧
    ((x.withArgs 0 minusOne 1).request 0).toInt = -1 ∧
    (x.withArgs 0 minusOne 1).sbrk 0 p = .ok (.back k, x.memory) ∧ (k.proc 0).killed = 1 ∧
      (x.withArgs 0 minusOne 1).sbrk 0 p ≠ (x.withArgs 0 minusOne 1).sysSbrk 0 p := by
  have hhost : (limitedHost 0xB00000).any (fun x => (x.memory.space 0).any fun p => p.sz = 0xB00000) = true := by
    decide +kernel
  obtain ⟨x, hx, hspace⟩ := (Option.any_eq_true ..).mp hhost
  obtain ⟨p, hp, hsz⟩ := (Option.any_eq_true ..).mp hspace
  have hsz : p.sz = 0xB00000 := of_decide_eq_true hsz
  obtain ⟨hkernel, s0, hb, hr⟩ := limitedHost_some hx
  obtain ⟨tf, -, -, hself, hf⟩ := (run_owned hb hr).fit hp
  have hproc : (x.memory.proc 0).sz = 0xB00000 := by rw [hself, hsz]
  have hrequest : (x.withArgs 0 minusOne 1).request 0 = -1 := by
    simp only [Host.request, Host.withArgs, Kernel.setProc, update_self]
    decide
  have hdenied : (x.withArgs 0 minusOne 1).sbrk 0 p =
      .ok (deny 0 sbrkNum (x.withArgs 0 minusOne 1).kernel, x.memory) := by
    have hmask := limited_masked hkernel minusOne 1
    simp only [Host.sbrk, hmask, if_true, inspect_sbrk, hrequest]
    rw [show ((x.withArgs 0 minusOne 1).memory.proc 0).sz = 0xB00000 from hproc, if_neg (by decide)]
    rfl
  have hstrict : ((x.withArgs 0 minusOne 1).kernel.proc 0).strictMode ≠ 0 := by
    simp only [Host.withArgs, hkernel]
    decide
  have haudit : ((x.withArgs 0 minusOne 1).kernel.proc 0).auditEnabled = 0 := by
    simp only [Host.withArgs, hkernel]
    decide
  have hback : deny 0 sbrkNum (x.withArgs 0 minusOne 1).kernel =
      .back (((x.withArgs 0 minusOne 1).kernel.setkilled 0).setA0 0 minusOne) := by
    simp only [deny, hstrict, ne_eq, not_false_eq_true, if_true, auditDenied, Kernel.setkilled, Kernel.setProc,
      update_self, haudit]
    rfl
  refine ⟨x, p, _, hx, hp, by rw [hrequest]; decide, hdenied.trans (by rw [hback]), ?_, ?_⟩
  · simp [Kernel.setA0, Kernel.setkilled, Kernel.setProc]
  · rw [hdenied]
    exact refused_ne_served (x := x.withArgs 0 minusOne 1) hf (by rw [hrequest]; decide)

/-- The events of the life of process `i` under the quota: no `exec` and no `exit` of it, and the
bit stays set. -/
def UnderQuota (i : Slot) (_ : Host) : HostEvent → Prop
  | .sbrk .. => True
  | .memory e => ¬e.moves i
  | .other kernel => masked (kernel.proc i) sbrkNum = true

/-- Process `i` runs with its bit set, in a memory in which every frame has its place, and its size
is at most `bound`. -/
structure Limited (image : Nat) (tr : Frame) (i : Slot) (bound : Nat) (x : Host) : Prop where
  owned : Owned image tr x.memory
  running : (x.memory.proc i).state = .runnable
  bit : masked (x.kernel.proc i) sbrkNum = true
  size : (x.memory.proc i).sz ≤ bound

theorem deny_mask (h : deny i num k = .back k') (l : Slot) :
    (k'.proc l).syscallMask = (k.proc l).syscallMask := by
  rw [Proofs.deny_eq_refusal] at h
  simp only [Proofs.refusal] at h
  split at h
  · cases h
  · cases h
    by_cases hl : l = i
    · subst hl
      simp [Kernel.setProc]
    · simp [Kernel.setProc, hl]

theorem setA0_mask (k : Kernel) (i : Slot) (v : U64) (l : Slot) :
    ((k.setA0 i v).proc l).syscallMask = (k.proc l).syscallMask := by
  by_cases hl : l = i
  · subst hl
    simp [Kernel.setA0, Kernel.setProc]
  · simp [Kernel.setA0, Kernel.setProc, hl]

theorem sysSbrk_size {m m' : Ram} {p p' : Space} {n t : I32} (hf : Fit m p tf) (hstep : n.toInt ≤ quotaStep)
    (hquota : Ram.addInt p.sz n ≤ quotaTotal) (h : m.sysSbrk p n t = .ok (ret, m', p')) :
    p'.sz ≤ p.sz + quotaStep ∧ (p'.sz ≤ quotaTotal ∨ p'.sz = p.sz) := by
  have hruns := sysSbrk_runs hf n t
  rw [h] at hruns
  obtain ⟨-, hsz⟩ := hruns
  cases ret with
  | none =>
    dsimp only at hsz
    omega
  | some addr =>
    obtain ⟨-, hgrew, hsame⟩ := hsz
    dsimp only at hgrew hsame
    by_cases hsmall : 0 ≤ (p.sz : Int) + n.toInt
    · have hnew := hgrew hsmall
      have hsum := addInt_small hf.size hsmall
      omega
    · have hold := hsame (Int.not_le.mp hsmall)
      omega

/-- What a call of `sbrk` by process `j` does: it changes no mask and no other process, and a
masked caller grows within the quota. -/
structure SbrkDone (image : Nat) (tr : Frame) (j : Slot) (x x' : Host) : Prop where
  owned : Owned image tr x'.memory
  mask : ∀ l, (x'.kernel.proc l).syscallMask = (x.kernel.proc l).syscallMask
  others : ∀ l, l ≠ j → Kept x.memory x'.memory l
  running : (x.memory.proc j).state = .runnable → (x'.memory.proc j).state = .runnable
  quota : masked (x.kernel.proc j) sbrkNum = true →
    (x'.memory.proc j).sz ≤ (x.memory.proc j).sz + quotaStep ∧
      ((x'.memory.proc j).sz ≤ quotaTotal ∨ (x'.memory.proc j).sz = (x.memory.proc j).sz)

theorem SbrkDone.idle (h : Owned image tr x.memory) (hmem : x'.memory = x.memory)
    (hmask : ∀ l, (x'.kernel.proc l).syscallMask = (x.kernel.proc l).syscallMask) : SbrkDone image tr j x x' := by
  refine ⟨by rw [hmem]; exact h, hmask, ?_, by rw [hmem]; exact id, ?_⟩
  · intro l _
    exact Kept.of_proc (by rw [hmem]) l
  · intro _
    rw [hmem]
    exact ⟨Nat.le_add_right .., .inr rfl⟩

theorem sbrk_done {x x' : Host} (h : Owned image tr x.memory) (hs : x.step (.sbrk j a0 a1) = some x') :
    SbrkDone image tr j x x' := by
  simp only [Host.step] at hs
  split at hs
  · cases hs
    exact SbrkDone.idle h rfl fun _ => rfl
  · rename_i p hp
    split at hs
    · rename_i kernel memory hsbrk
      cases hs
      obtain ⟨tf, hrun, htf, hself, hf⟩ := h.fit hp
      have hsz : (x.memory.proc j).sz = p.sz := by rw [hself]
      have hserved (hcall : (x.withArgs j a0 a1).sysSbrk j p = .ok (.back kernel, memory))
          (htest : masked (x.kernel.proc j) sbrkNum = true → ((x.withArgs j a0 a1).request j).toInt ≤ quotaStep ∧
            Ram.addInt p.sz ((x.withArgs j a0 a1).request j) ≤ quotaTotal) :
          SbrkDone image tr j x ⟨kernel, memory⟩ := by
        obtain ⟨⟨ret, m, p'⟩, hm, he⟩ := bind_eq_ok.mp hcall
        cases he
        have hres : Resized x.memory.ram p tf m p' := by
          have hruns := sysSbrk_runs hf (argint ((x.withArgs j a0 a1).kernel.proc j).trapframe.a0)
            (argint ((x.withArgs j a0 a1).kernel.proc j).trapframe.a1)
          have hm' : x.memory.ram.sysSbrk p _ _ = .ok (ret, m, p') := hm
          rw [hm'] at hruns
          exact hruns.1
        have hproc : ((x.memory.setSpace j m p').proc j) =
            { x.memory.proc j with pagetable := some p'.pagetable, sz := p'.sz } := System.put_proc_self ..
        refine ⟨h.setSpace hp htf hres, ?_, ?_, ?_, ?_⟩
        · intro l
          rw [setA0_mask, withArgs_mask]
        · intro l hl
          exact Kept.put x.memory m _ hl
        · intro hj
          dsimp only [Host.withArgs]
          rw [hproc]
          exact hj
        · intro hmask
          obtain ⟨hstep, hquota⟩ := htest hmask
          have hsize := sysSbrk_size hf hstep hquota hm
          dsimp only [Host.withArgs]
          rw [hproc, hsz]
          exact hsize
      simp only [Host.sbrk] at hsbrk
      split at hsbrk
      · rename_i hmask
        rw [inspect_sbrk] at hsbrk
        split at hsbrk
        · rename_i hrunv
          refine hserved hsbrk fun _ => ?_
          split at hrunv
          · rename_i htest
            rw [← hsz]
            exact htest
          · cases hrunv
        · rename_i hrunv
          split at hrunv <;> cases hrunv
        · simp only [Except.ok.injEq, Prod.mk.injEq] at hsbrk
          obtain ⟨hdeny, rfl⟩ := hsbrk
          refine SbrkDone.idle h rfl fun l => ?_
          rw [deny_mask hdeny, withArgs_mask]
      · rename_i hmask
        refine hserved hsbrk fun hm => absurd ?_ hmask
        rw [← hm]
        exact masked_congr (withArgs_mask x j a0 a1 j) _
    · cases hs

theorem memory_step {x x' : Host} (hs : x.step (.memory e) = some x') :
    x.memory.step e = some x'.memory ∧ x'.kernel = x.kernel := by
  cases e with
  | sbrk => cases hs
  | _ =>
    obtain ⟨t, ht, rfl⟩ := Option.map_eq_some_iff.mp hs
    exact ⟨ht, rfl⟩

theorem Limited.step (h : Limited image tr i bound x) (hbound : quotaTotal ≤ bound) (hok : UnderQuota i x e)
    (hs : x.step e = some x') : Limited image tr i bound x' := by
  have hsize := h.size
  cases e with
  | sbrk j a0 a1 =>
    have hdone := sbrk_done h.owned hs
    have hmask : masked (x'.kernel.proc i) sbrkNum = true := by
      rw [masked_congr (hdone.mask i)]
      exact h.bit
    by_cases hj : i = j
    · subst hj
      obtain ⟨-, hquota⟩ := hdone.quota h.bit
      exact ⟨hdone.owned, hdone.running h.running, hmask, by omega⟩
    · obtain ⟨hrun, hsz⟩ := hdone.others i hj h.running
      exact ⟨hdone.owned, hrun, hmask, by omega⟩
  | memory e =>
    obtain ⟨hstep, hkernel⟩ := memory_step hs
    have hstepped := h.owned.step hstep
    obtain ⟨hrun, hsz⟩ := hstepped.kept i hok h.running
    exact ⟨hstepped.owned, hrun, by rw [hkernel]; exact h.bit, by omega⟩
  | other kernel =>
    cases hs
    exact ⟨h.owned, h.running, hok, h.size⟩

/-- Memory quota: while its SYS_sbrk bit is set, no call of a process grows it by more than 1 MB, and
it never gets larger than 10 MB or the size it had before. -/
theorem quota_holds {x y : Host} (hb : System.boot image tr nodes = some s0)
    (hr : Run System.step anyEvent s0 es x.memory) (hrun : (x.memory.proc i).state = .runnable)
    (hmask : masked (x.kernel.proc i) sbrkNum = true) (hq : Run Host.step (UnderQuota i) x es' y) :
    (y.memory.proc i).sz ≤ max quotaTotal (x.memory.proc i).sz ∧
      ∀ a0 a1 y', y.step (.sbrk i a0 a1) = some y' →
        (y'.memory.proc i).sz ≤ (y.memory.proc i).sz + quotaStep := by
  have hstart : Limited image tr i (max quotaTotal (x.memory.proc i).sz) x :=
    ⟨run_owned hb hr, hrun, hmask, Nat.le_max_right ..⟩
  have hend := hq.invariant _ hstart fun _ _ _ h hok hs => h.step (Nat.le_max_left ..) hok hs
  refine ⟨hend.size, ?_⟩
  intro a0 a1 y' hs
  exact ((sbrk_done hend.owned hs).quota hend.bit).1

/-- From 9 MB on, a lazy request for 1 MB and an eager one for a page. -/
theorem quota_holds_twice : ∃ x y, limitedHost 0x900000 = some x ∧
    Run Host.step (UnderQuota 0) x [.sbrk 0 0x100000 2, .sbrk 0 4096 1] y ∧
      (y.memory.proc 0).sz ≤ max quotaTotal (x.memory.proc 0).sz := by
  have hrun : (limitedHost 0x900000).any (fun x => (x.memory.proc 0).state = .runnable ∧
      ((x.step (.sbrk 0 0x100000 2)).bind (·.step (.sbrk 0 4096 1))).isSome) = true := by
    decide +kernel
  obtain ⟨x, hx, hsteps⟩ := (Option.any_eq_true ..).mp hrun
  simp only [decide_eq_true_eq] at hsteps
  obtain ⟨hstate, hsome⟩ := hsteps
  obtain ⟨y, hy⟩ := Option.isSome_iff_exists.mp hsome
  obtain ⟨z, hz, hy⟩ := Option.bind_eq_some_iff.mp hy
  obtain ⟨hkernel, s0, hb, hr⟩ := limitedHost_some hx
  have hq : Run Host.step (UnderQuota 0) x ([.sbrk 0 0x100000 2] ++ [.sbrk 0 4096 1]) y :=
    .snoc (.snoc .nil trivial hz) trivial hy
  exact ⟨x, y, hx, hq, (quota_holds hb hr hstate (by rw [hkernel]; decide) hq).1⟩

end Xv6Filter.Paging
