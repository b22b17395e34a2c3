import Xv6Filter.Proofs.Effects

namespace Xv6Filter.Proofs

open Function

inductive Phase where
  | other
  | adopt (child : Slot)
  | launch (child : Slot)
  | exit (status : I32)
  | wait
  | gone
  deriving DecidableEq

def phase : Kpc → Phase
  | .adopt c => .adopt c
  | .launch c => .launch c
  | .exit status => .exit status
  | .wait _ => .wait
  | .gone => .gone
  | _ => .other

def Phase.Own (ph : Phase) : Prop := ph = .other ∨ ph = .wait ∨ ∃ status, ph = .exit status

/-- The fields of a slot that `kfork`, `kexit`, `kwait`, `sleep` and `wakeup` work on. -/
structure Life where
  state : ProcState
  parent : Option Slot
  pid : I32
  xstate : I32
  chan : Option Chan
  phase : Phase

def lifeOf (p : Proc) (c : Kpc) : Life := ⟨p.state, p.parent, p.pid, p.xstate, p.chan, phase c⟩

def life (m : Machine) (j : Slot) : Life := lifeOf (m.k.proc j) (m.pc j)

def Life.cleared (l : Life) : Life :=
  { l with state := .unused, parent := none, pid := 0, xstate := 0, chan := none }

/-- What `kexit` of slot `i` under `wait_lock` makes of the life of another slot: a child goes
to init, and who sleeps on init while there are children, or on the parent, is woken. -/
def Life.bereaved (i init : Slot) (q : Option Slot) (kids : Bool) (l : Life) : Life :=
  { l with
    parent := if l.parent = some i then some init else l.parent
    state := if l.state = .sleeping ∧
        (kids = true ∧ l.chan = some (.proc init) ∨ ∃ p, q = some p ∧ l.chan = some (.proc p)) then .runnable
      else l.state }

structure Reaping where
  parent : Slot
  child : Slot
  pid : I32
  status : I32
  deriving DecidableEq

def reaping (m : Machine) : Event → Option Reaping
  | .wait i copied _ =>
    match m.pc i, m.k.kwaitScan i with
    | .wait addr, .zombie j =>
      if addr ≠ 0 ∧ copied = false then none
      else some ⟨i, j, (m.k.proc j).pid, (m.k.proc j).xstate⟩
    | _, _ => none
  | _ => none

def allocating (m : Machine) : Event → Bool
  | .alloc i _ =>
    match m.pc i with
    | .alloc n => if h : n < nproc then decide ((m.k.proc ⟨n, h⟩).state = .unused) else false
    | _ => false
  | _ => false

inductive Lived (m : Machine) : Event → (Slot → Life) → Prop where
  | same (hr : reaping m e = none) (hx : ∀ i fs file pipe, e ≠ .exit i fs file pipe) : Lived m e (life m)
  /-- a process goes on to another part of its own code -/
  | turn (i : Slot) (ph : Phase) (hs : (life m i).state = .running) (ho : (life m i).phase.Own)
      (hn : ph.Own) (hr : reaping m e = none) (hx : ∀ i fs file pipe, e ≠ .exit i fs file pipe) :
      Lived m e (update (life m) i { life m i with phase := ph })
  | sched (i : Slot) (hs : (life m i).state = .runnable) :
      Lived m (.sched i) (update (life m) i { life m i with state := .running, chan := none })
  | yield (i : Slot) (hs : (life m i).state = .running) :
      Lived m (.yield i) (update (life m) i { life m i with state := .runnable })
  | sleep (i : Slot) (c : Chan) (hs : (life m i).state = .running) (ho : (life m i).phase.Own)
      (hp : (life m i).phase ≠ .wait) :
      Lived m (.sleep i c) (update (life m) i { life m i with state := .sleeping, chan := some c })
  /-- `kwait` found children, none of them a zombie -/
  | waits (i : Slot) (hs : (life m i).state = .running) (hp : (life m i).phase = .wait)
      (hz : ∀ j, (life m j).parent = some i → (life m j).state ≠ .zombie)
      (hr : reaping m (.wait i copied pt) = none) :
      Lived m (.wait i copied pt)
        (update (life m) i { life m i with state := .sleeping, chan := some (.proc i) })
  | woken (w : Slot → Bool) (hw : ∀ j, w j = true → (life m j).state = .sleeping)
      (hr : reaping m e = none) (hx : ∀ i fs file pipe, e ≠ .exit i fs file pipe) :
      Lived m e (fun j => if w j then { life m j with state := .runnable } else life m j)
  | born (i c : Slot) (hs : (life m i).state = .running) (hp : (life m i).phase = .other)
      (hu : (life m c).state = .unused) (ha : allocating m (.alloc i mem) = true) :
      Lived m (.alloc i mem) (update (update (life m) c
        { life m c with state := .used, pid := m.k.nextpid }) i { life m i with phase := .adopt c })
  | aborted (i c : Slot) (hu : (life m c).state = .unused) :
      Lived m (.alloc i mem) (update (life m) c (life m c).cleared)
  | adopt (i c : Slot) (hs : (life m i).state = .running) (hp : (life m i).phase = .adopt c) :
      Lived m (.adopt i) (update (update (life m) c { life m c with parent := some i }) i
        { (update (life m) c { life m c with parent := some i } i) with phase := .launch c })
  | launch (i c : Slot) (hs : (life m i).state = .running) (hp : (life m i).phase = .launch c) :
      Lived m (.launch i) (update (update (life m) i { life m i with phase := .other }) c
        { (life m c) with state := .runnable, phase := .other })
  | exit (i : Slot) (status : I32) (hs : (life m i).state = .running) (hp : (life m i).phase = .exit status)
      (hi : i ≠ m.k.initproc) :
      Lived m (.exit i fs file pipe) (update
        (fun j => (life m j).bereaved i m.k.initproc
          (if (life m i).parent = some i then some m.k.initproc else (life m i).parent)
          ((List.finRange nproc).any fun j => decide ((life m j).parent = some i))) i
        { life m i with
          state := .zombie
          xstate := status
          phase := .gone
          parent := if (life m i).parent = some i then some m.k.initproc else (life m i).parent })
  | freed (i c : Slot) (hs : (life m i).state = .running) (hp : (life m i).phase = .wait)
      (hz : (life m c).state = .zombie) (hc : (life m c).parent = some i)
      (hr : reaping m (.wait i copied pt) = some ⟨i, c, (life m c).pid, (life m c).xstate⟩) :
      Lived m (.wait i copied pt) (update (update (life m) c (life m c).cleared) i
        { life m i with phase := .other })

section Frames

variable (m : Machine) (i : Slot)

theorem life_setPc (c : Kpc) : life (m.setPc i c) = update (life m) i { life m i with phase := phase c } := by
  funext j
  by_cases hj : j = i
  · subst hj
    simp [life, lifeOf]
  · simp [life, hj]

theorem life_setProc (p : Proc) : life (m.setK (m.k.setProc i p)) =
    update (life m) i (lifeOf p (m.pc i)) := by
  funext j
  by_cases hj : j = i
  · subst hj
    simp [life]
  · simp [life, hj]

theorem life_setK {k k' : Kernel} (h : k.proc = k'.proc) : life (m.setK k) = life (m.setK k') := by
  funext j
  simp [life, h]

theorem life_setA0 (k : Kernel) (v : U64) : life (m.setK (k.setA0 i v)) = life (m.setK k) := by
  funext j
  by_cases hj : j = i
  · subst hj
    simp [life, lifeOf, Kernel.setA0]
  · simp [life, Kernel.setA0, hj]

theorem life_finish (r : U64 × Kernel) : life (m.finish i r) =
    update (life (m.setK r.2)) i { life (m.setK r.2) i with phase := .other } := by
  unfold Machine.finish
  rw [life_setPc, life_setA0]
  rfl

theorem life_wakeup (k : Kernel) (c : Chan) : life (m.setK (k.wakeup i c)) = fun j =>
    if j ≠ i ∧ (k.proc j).state = .sleeping ∧ (k.proc j).chan = some c then
      { life (m.setK k) j with state := .runnable }
    else life (m.setK k) j := by
  funext j
  simp only [life, Machine.setK_k, Machine.setK_pc, Kernel.wakeup]
  split <;> rfl

end Frames

theorem life_setPc_self {m : Machine} {i : Slot} {c : Kpc} (h : (life m i).phase = phase c) :
    life (m.setPc i c) = life m := by
  rw [life_setPc, ← h]
  exact update_eq_self i (life m)

theorem life_finish_self {m : Machine} {i : Slot} {r : U64 × Kernel}
    (h : (life (m.setK r.2) i).phase = .other) : life (m.finish i r) = life (m.setK r.2) := by
  rw [life_finish, ← h]
  exact update_eq_self i (life (m.setK r.2))

/-- A handler that rewrites fields of its caller that its life does not show. -/
theorem life_own {m : Machine} {i : Slot} {p : Proc} (c : Kpc) (h : lifeOf p c = lifeOf (m.k.proc i) c) :
    life (m.setK (m.k.setProc i p)) = life m := by
  rw [life_setProc]
  have : lifeOf p (m.pc i) = life m i := by
    simp only [lifeOf, Life.mk.injEq] at h
    simp only [life, lifeOf, Life.mk.injEq]
    exact ⟨h.1, h.2.1, h.2.2.1, h.2.2.2.1, h.2.2.2.2.1, trivial⟩
  rw [this]
  exact update_eq_self i (life m)

theorem life_pastEcall (m : Machine) (i : Slot) : life (m.setK (m.k.pastEcall i)) = life m :=
  life_own .user rfl

theorem enter_life (m : Machine) (i : Slot) (s : Sys) : ∃ ph : Phase, ph.Own ∧
    life (m.enter i s) = update (life m) i { life m i with phase := ph } := by
  have hfin : ∀ r : U64 × Kernel, life (m.setK r.2) = life m → ∃ ph : Phase, ph.Own ∧
      life (m.finish i r) = update (life m) i { life m i with phase := ph } := by
    intro r hr
    refine ⟨.other, .inl rfl, ?_⟩
    rw [life_finish, hr]
  cases s with
  | fork => exact ⟨.other, .inl rfl, life_setPc m i _⟩
  | exit => exact ⟨.exit _, .inr (.inr ⟨_, rfl⟩), life_setPc m i _⟩
  | wait => exact ⟨.wait, .inr (.inl rfl), life_setPc m i _⟩
  | kill => exact ⟨.other, .inl rfl, life_setPc m i _⟩
  | getpid | getfilter => exact hfin _ rfl
  | setaudit | setstrict => exact hfin _ (life_own .user rfl)
  | setfilter =>
    refine hfin _ ?_
    unfold sysSetfilter
    dsimp only
    split
    · rfl
    · exact life_own .user rfl
  | setfilterChild =>
    refine hfin _ ?_
    unfold sysSetfilterChild
    dsimp only
    split
    · rfl
    · exact life_own .user rfl
  | _ => exact ⟨.other, .inl rfl, life_setPc m i _⟩

/-- The dispatcher sends the caller to another part of its own code. -/
theorem ecall_life (m : Machine) (i : Slot) : ∃ ph : Phase, ph.Own ∧
    life (m.ecall i) = update (life m) i { life m i with phase := ph } := by
  unfold Machine.ecall
  split
  · exact ⟨.exit (-1), .inr (.inr ⟨_, rfl⟩), life_setPc m i _⟩
  generalize hm : m.setK (m.k.pastEcall i) = m1
  have hl : life m1 = life m := hm ▸ life_pastEcall m i
  rw [← hl]
  have hfail : ∃ ph : Phase, ph.Own ∧ life ((m1.setK (m1.k.setA0 i minusOne)).setPc i .sysret) =
      update (life m1) i { life m1 i with phase := ph } := by
    refine ⟨.other, .inl rfl, ?_⟩
    rw [life_setPc, life_setA0]
    rfl
  unfold Machine.dispatch
  dsimp only
  split
  · exact hfail
  · split
    · split
      · exact hfail
      · exact enter_life m1 i _
      · refine ⟨.other, .inl rfl, ?_⟩
        have hk : life (m1.setK (if (m1.k.proc i).strictMode ≠ 0 then m1.k.setkilled i else m1.k)) = life m1 := by
          split
          · exact life_own .user rfl
          · rfl
        unfold Machine.refuse
        dsimp only
        rw [life_setPc, life_setA0, hk]
        congr 1
        split <;> rfl
    · exact enter_life m1 i _

theorem kforkFound_life {k k' : Kernel} {i j : Slot} {mem : Kernel.ForkMem} {made : Bool} (hij : i ≠ j)
    (h : k.kforkFound i j mem = .ok (made, k')) (x : Slot) (c : Kpc) : lifeOf (k'.proc x) c =
      if x = j then
        if made then { lifeOf (k.proc j) c with state := .used, pid := k.nextpid }
        else (lifeOf (k.proc j) c).cleared
      else lifeOf (k.proc x) c := by
  unfold Kernel.kforkFound at h
  dsimp only at h
  split at h
  case h_1 | h_2 =>
    cases h
    by_cases hx : x = j
    · subst hx
      simp [Kernel.freeproc, Kernel.allocFound, lifeOf, Life.cleared]
    · simp [Kernel.freeproc, Kernel.allocFound, hx]
  case h_3 =>
    cases h
    by_cases hx : x = j
    · subst hx
      simp [Kernel.freeproc, Kernel.allocFound, Kernel.inheritFilter, lifeOf, Life.cleared, Ne.symm hij]
    · by_cases hi : x = i
      · subst hi
        simp [Kernel.freeproc, Kernel.allocFound, Kernel.inheritFilter, hx, lifeOf]
      · simp [Kernel.freeproc, Kernel.allocFound, Kernel.inheritFilter, hx, hi]
  case h_4 =>
    split at h
    · cases h
    · rename_i k1 hd
      obtain ⟨hp, _⟩ := dupFiles_frame hd
      split at h
      · cases h
      · cases h
        change lifeOf (k1.proc x) c = _
        rw [hp]
        by_cases hx : x = j
        · subst hx
          simp [Kernel.inheritRest, Kernel.inheritFilter, Kernel.allocFound, lifeOf, Ne.symm hij]
        · by_cases hi : x = i
          · subst hi
            simp [Kernel.inheritRest, Kernel.inheritFilter, Kernel.allocFound, hx, lifeOf]
          · simp [Kernel.inheritRest, Kernel.inheritFilter, Kernel.allocFound, hx, hi]

theorem allocAt_lived {m m' : Machine} {i : Slot} {n : Nat} {mem : Kernel.ForkMem}
    (hs : (m.k.proc i).state = .running) (hpc : m.pc i = .alloc n) (h : m.allocAt i n mem = some m') :
    Lived m (.alloc i mem) (life m') := by
  have hph : (life m i).phase = .other := by
    simp only [life, lifeOf, hpc]
    rfl
  have hsame : Lived m (.alloc i mem) (life m) := .same rfl (by simp)
  have hal : ∀ hn : n < nproc, (m.k.proc ⟨n, hn⟩).state = .unused → allocating m (.alloc i mem) = true := by
    intro hn hu
    simp [allocating, hpc, hn, hu]
  unfold Machine.allocAt at h
  split at h
  · rename_i hn
    dsimp only at h
    split at h
    · rename_i hu
      have hne : i ≠ ⟨n, hn⟩ := by
        intro he
        rw [← he, hs] at hu
        cases hu
      split at h
      · cases h
      · rename_i k hk
        cases h
        have hlife : life (m.setK k) = update (life m) ⟨n, hn⟩
            { life m ⟨n, hn⟩ with state := .used, pid := m.k.nextpid } := by
          funext x
          simp only [life, Machine.setK_k, Machine.setK_pc, update_apply]
          rw [kforkFound_life hne hk]
          split
          · rename_i hx
            rw [hx]
            rfl
          · rfl
        rw [life_setPc, hlife, update_of_ne hne]
        exact .born i ⟨n, hn⟩ hs hph hu (hal hn hu)
      · rename_i k hk
        cases h
        have hlife : life (m.setK k) = update (life m) ⟨n, hn⟩ (life m ⟨n, hn⟩).cleared := by
          funext x
          simp only [life, Machine.setK_k, Machine.setK_pc, update_apply]
          rw [kforkFound_life hne hk]
          split
          · rename_i hx
            rw [hx]
            rfl
          · rfl
        rw [life_finish_self, hlife]
        · exact .aborted i ⟨n, hn⟩ hu
        · rw [hlife, update_of_ne hne]
          exact hph
    · cases h
      rw [life_setPc_self hph]
      exact hsame
  · cases h
    rw [life_finish_self hph]
    exact hsame

theorem kwaitScan_zombie {k : Kernel} {i j : Slot} (h : k.kwaitScan i = .zombie j) :
    (k.proc j).parent = some i ∧ (k.proc j).state = .zombie := by
  unfold Kernel.kwaitScan at h
  split at h
  · rename_i z hf
    cases h
    simpa using List.find?_some hf
  · split at h <;> cases h

theorem kwaitScan_alive {k : Kernel} {i : Slot} (h : k.kwaitScan i = .alive) (j : Slot)
    (hp : (k.proc j).parent = some i) : (k.proc j).state ≠ .zombie := by
  unfold Kernel.kwaitScan at h
  split at h
  · cases h
  · rename_i hf
    intro hz
    have := List.find?_eq_none.mp hf j (List.mem_finRange j)
    simp [hp, hz] at this

theorem waitAt_lived {m : Machine} {i : Slot} {addr : U64} (copied : Bool) (pt : PageTable)
    (hs : (m.k.proc i).state = .running) (hpc : m.pc i = .wait addr) :
    Lived m (.wait i copied pt) (life (m.waitAt i addr copied pt)) := by
  have hph : (life m i).phase = .wait := by
    simp only [life, lifeOf, hpc]
    rfl
  have hback : ∀ k : Kernel, life (m.setK k) = life m → reaping m (.wait i copied pt) = none →
      Lived m (.wait i copied pt) (life (m.finish i (minusOne, k))) := by
    intro k hk hr
    rw [life_finish, hk]
    exact .turn i .other hs (.inr (.inl hph)) (.inl rfl) hr (by simp)
  unfold Machine.waitAt
  dsimp only
  split
  · rename_i z hz
    obtain ⟨hpar, hzom⟩ := kwaitScan_zombie hz
    have hiz : i ≠ z := by
      rintro rfl
      rw [hs] at hzom
      cases hzom
    have hcopy : ∀ k : Kernel, k = (if addr ≠ 0 then m.k.setProc i { m.k.proc i with pagetable := pt }
        else m.k) → life (m.setK k) = life m := by
      rintro k rfl
      split
      · exact life_own .user rfl
      · rfl
    generalize hk : (if addr ≠ 0 then m.k.setProc i { m.k.proc i with pagetable := pt } else m.k) = k
    have hlife := hcopy k hk.symm
    split
    · rename_i hfail
      exact hback k hlife (by simp only [reaping, hpc, hz, if_pos hfail])
    · rename_i hgo
      have hfree : life (m.setK (k.freeproc z)) = update (life m) z (life m z).cleared := by
        funext x
        rw [← hlife]
        by_cases hx : x = z
        · subst hx
          simp [life, lifeOf, Kernel.freeproc, Life.cleared]
        · simp [life, Kernel.freeproc, hx]
      rw [life_finish, hfree, update_of_ne hiz]
      exact .freed i z hs hph hzom hpar (by simp only [reaping, hpc, hz, if_neg hgo]; rfl)
  · rename_i hz
    have hr : reaping m (.wait i copied pt) = none := by simp only [reaping, hpc, hz]
    split
    · exact hback m.k rfl hr
    · unfold Kernel.sleep
      rw [life_setProc]
      exact .waits i hs hph (kwaitScan_alive hz) hr
  · rename_i hz
    exact hback m.k rfl (by simp only [reaping, hpc, hz])

theorem killAt_lived {m : Machine} {i : Slot} {pid : I32} {n : Nat} (hpc : m.pc i = .kill pid n) :
    Lived m (.kill i) (life (m.killAt i pid n)) := by
  have hph : (life m i).phase = .other := by
    simp only [life, lifeOf, hpc]
    rfl
  have hsame : Lived m (.kill i) (life m) := .same rfl (by simp)
  unfold Machine.killAt
  split
  · rename_i hn
    dsimp only
    split
    · have hlife : life (m.setK (m.k.killAt ⟨n, hn⟩)) = fun j =>
          if decide (j = ⟨n, hn⟩ ∧ (life m j).state = .sleeping) then { life m j with state := .runnable }
          else life m j := by
        funext j
        simp only [decide_eq_true_eq]
        by_cases hj : j = ⟨n, hn⟩
        · subst hj
          by_cases hsl : (m.k.proc ⟨n, hn⟩).state = .sleeping
          · simp [life, lifeOf, Kernel.killAt, hsl]
          · simp [life, lifeOf, Kernel.killAt, hsl]
        · simp [life, Kernel.killAt, hj]
      rw [life_finish_self, hlife]
      · exact .woken _ (fun j hj => by simpa using (of_decide_eq_true hj).2) rfl (by simp)
      · rw [hlife]
        dsimp only
        split <;> exact hph
    · rw [life_setPc_self hph]
      exact hsame
  · rw [life_finish_self hph]
    exact hsame

theorem reparent_life (m : Machine) (i : Slot) (j : Slot) :
    life (m.setK (m.k.reparent i)) j = { life m j with
      parent := if (life m j).parent = some i then some m.k.initproc else (life m j).parent
      state := if j ≠ i ∧ (life m j).state = .sleeping ∧
          ((List.finRange nproc).any fun j => decide ((life m j).parent = some i)) = true ∧
          (life m j).chan = some (.proc m.k.initproc) then .runnable
        else (life m j).state } := by
  have hadopt : ∀ k : Kernel, (k.proc = fun j => if (m.k.proc j).parent = some i then
      { m.k.proc j with parent := some m.k.initproc } else m.k.proc j) →
      ∀ j, life (m.setK k) j = { life m j with
        parent := if (life m j).parent = some i then some m.k.initproc else (life m j).parent } := by
    intro k hk j
    simp only [life, Machine.setK_k, Machine.setK_pc, hk]
    split
    · rename_i hp
      simp [lifeOf, hp]
    · rename_i hp
      simp [lifeOf, hp]
  have hany : ((List.finRange nproc).any fun j => decide ((life m j).parent = some i)) =
      (List.finRange nproc).any fun j => decide ((m.k.proc j).parent = some i) := rfl
  unfold Kernel.reparent
  dsimp only
  rw [hany]
  split
  · rename_i hkids
    rw [life_wakeup]
    dsimp only
    have hstate : (if (m.k.proc j).parent = some i then { m.k.proc j with parent := some m.k.initproc }
        else m.k.proc j).state = (life m j).state := by split <;> rfl
    have hchan : (if (m.k.proc j).parent = some i then { m.k.proc j with parent := some m.k.initproc }
        else m.k.proc j).chan = (life m j).chan := by split <;> rfl
    rw [hstate, hchan, hadopt _ rfl]
    simp only [hkids, true_and]
    split <;> rfl
  · rename_i hkids
    rw [hadopt _ rfl]
    simp [hkids]

/-- What `kexit` does to the lives: the children go to init, the process is a zombie. -/
theorem kexitLocked_life (m : Machine) (i : Slot) (status : I32) :
    life ((m.setK (m.k.kexitLocked i status)).setPc i .gone) = update
      (fun j => (life m j).bereaved i m.k.initproc
        (if (life m i).parent = some i then some m.k.initproc else (life m i).parent)
        ((List.finRange nproc).any fun j => decide ((life m j).parent = some i))) i
      { life m i with
        state := .zombie
        xstate := status
        phase := .gone
        parent := if (life m i).parent = some i then some m.k.initproc else (life m i).parent } := by
  have hrep := reparent_life m i
  have hpar : ((m.k.reparent i).proc i).parent =
      if (life m i).parent = some i then some m.k.initproc else (life m i).parent :=
    congrArg Life.parent (hrep i)
  have hend : ∀ k : Kernel, (∀ j, j ≠ i → life (m.setK k) j = (life m j).bereaved i m.k.initproc
        (if (life m i).parent = some i then some m.k.initproc else (life m i).parent)
        ((List.finRange nproc).any fun j => decide ((life m j).parent = some i))) →
      life (m.setK k) i = life (m.setK (m.k.reparent i)) i →
      life ((m.setK (k.setProc i { k.proc i with xstate := status, state := .zombie })).setPc i .gone) =
        update (fun j => (life m j).bereaved i m.k.initproc
          (if (life m i).parent = some i then some m.k.initproc else (life m i).parent)
          ((List.finRange nproc).any fun j => decide ((life m j).parent = some i))) i
        { life m i with
          state := .zombie
          xstate := status
          phase := .gone
          parent := if (life m i).parent = some i then some m.k.initproc else (life m i).parent } := by
    intro k hk hi
    rw [hrep i] at hi
    funext j
    rw [life_setPc]
    by_cases hj : j = i
    · subst hj
      simp only [life, lifeOf, Machine.setK_k, Machine.setK_pc, Life.mk.injEq] at hi
      obtain ⟨-, h2, h3, -, h5, -⟩ := hi
      simp only [update_self, life, lifeOf, Machine.setK_k, Machine.setK_pc,
        Kernel.setProc_proc, h2, h3, h5]
      rfl
    · rw [update_of_ne hj, update_of_ne hj, ← hk j hj]
      simp [life, hj]
  unfold Kernel.kexitLocked
  dsimp only
  rw [hpar]
  cases hq : (if (life m i).parent = some i then some m.k.initproc else (life m i).parent) with
  | none =>
    rw [hq] at hend
    refine hend _ ?_ rfl
    intro j hj
    rw [hrep j]
    simp [Life.bereaved, hj]
  | some q =>
    rw [hq] at hend
    refine hend _ ?_ ?_
    · intro j hj
      have hst : ((m.k.reparent i).proc j).state = _ := congrArg Life.state (hrep j)
      have hch : ((m.k.reparent i).proc j).chan = _ := congrArg Life.chan (hrep j)
      rw [life_wakeup]
      dsimp only
      rw [hst, hch, hrep j]
      simp only [Life.bereaved, ne_eq, hj, not_false_eq_true, true_and, Option.some.injEq, exists_eq_left']
      by_cases hsl : (life m j).state = .sleeping
      · simp only [hsl, true_and]
        by_cases h1 : ((List.finRange nproc).any fun j => decide ((life m j).parent = some i)) = true ∧
            (life m j).chan = some (.proc m.k.initproc)
        · simp [h1]
        · by_cases h2 : (life m j).chan = some (.proc q)
          · simp [h2]
          · simp [h2]
      · simp [hsl]
    · rw [life_wakeup]
      simp

theorem launch_life (m : Machine) (i c : Slot) (v : U64) :
    life ((m.finish i (v, m.k.setProc c { m.k.proc c with state := .runnable })).setPc c .user) =
      update (update (life m) i { life m i with phase := .other }) c
        { life m c with state := .runnable, phase := .other } := by
  rw [life_setPc, life_finish]
  dsimp only
  rw [life_setProc]
  funext x
  by_cases hx : x = c
  · subst hx
    simp only [update_self]
    by_cases hi : x = i
    · subst hi
      rw [update_self, update_self]
      rfl
    · rw [update_of_ne hi, update_self]
      rfl
  · rw [update_of_ne hx, update_of_ne hx]
    by_cases hi : x = i
    · subst hi
      rw [update_self, update_self, update_of_ne hx]
    · rw [update_of_ne hi, update_of_ne hi, update_of_ne hx]

theorem life_phase {m : Machine} {i : Slot} {c : Kpc} (h : m.pc i = c) : (life m i).phase = phase c :=
  congrArg phase h

/-- What a step can do to the lives of the processes. -/
theorem step_lived {m m' : Machine} {e : Event} (h : m.step e = some m') : Lived m e (life m') := by
  replace h := step_stepped h
  cases h with
  | sched i hs =>
    rw [life_setProc]
    exact .sched i hs
  | yield i hr =>
    rw [life_setProc]
    exact .yield i hr
  | user i tf pt hr hpc =>
    have hl : life (m.setK (m.k.setProc i { m.k.proc i with trapframe := tf, pagetable := pt })) = life m :=
      life_own .user rfl
    rw [hl]
    exact .same rfl nofun
  | fault i hr hpc =>
    have hl : life (m.setK (m.k.setkilled i)) = life m := life_own .user rfl
    rw [life_setPc, hl]
    exact .turn i .other hr (.inl (life_phase hpc)) (.inl rfl) rfl nofun
  | ecall i hr hpc =>
    obtain ⟨ph, hown, hl⟩ := ecall_life m i
    rw [hl]
    exact .turn i ph hr (.inl (life_phase hpc)) hown rfl nofun
  | sysret i hr hpc =>
    rw [life_setPc]
    refine .turn i _ hr (.inl (life_phase hpc)) ?_ rfl nofun
    split
    · exact .inr (.inr ⟨_, rfl⟩)
    · exact .inl rfl
  | alloc i mem hr hpc ha => exact allocAt_lived hr hpc ha
  | adopt i c hr hpc =>
    rw [life_setPc, life_setProc]
    exact .adopt i c hr (life_phase hpc)
  | launch i c hr hpc =>
    rw [launch_life]
    exact .launch i c hr (life_phase hpc)
  | exit i status fs file pipe hr hpc hi =>
    generalize hk : ({ m.k with fs := fs, file := file, pipe := pipe } : Kernel).setProc i
      { m.k.proc i with ofile := fun _ => none, cwd := none } = k
    have hl : life (m.setK k) = life m := by
      rw [← hk]
      exact (life_setK m rfl).trans (life_own .user rfl)
    have hinit : k.initproc = m.k.initproc := by
      rw [← hk]
      rfl
    have hx := kexitLocked_life (m.setK k) i status
    simp only [Machine.setK_k, hl, hinit] at hx
    change Lived m _ (life (((m.setK k).setK (k.kexitLocked i status)).setPc i .gone))
    rw [hx]
    exact .exit i status hr (life_phase hpc) hi
  | wait i addr copied pt hr hpc => exact waitAt_lived copied pt hr hpc
  | kill i pid n hr hpc => exact killAt_lived hpc
  | auditWork i fs hr hpc =>
    have hl : life (m.setK { m.k with fs := fs }) = life m := life_setK m rfl
    rw [hl]
    exact .same rfl nofun
  | auditDone i hr hpc =>
    have hph : (life m i).phase = phase .sysret := (life_phase hpc).trans rfl
    rw [life_setPc_self hph]
    exact .same rfl nofun
  | work i v fs file pipe hr hpc =>
    have hl : life (m.setK (({ m.k with fs := fs, file := file, pipe := pipe } : Kernel).setProc i
        ((m.k.proc i).withPrivate v))) = life m :=
      (life_setK m rfl).trans (life_own .user rfl)
    rw [hl]
    exact .same rfl nofun
  | sleep i chan hr hpc =>
    unfold Kernel.sleep
    rw [life_setProc]
    rcases hpc with ⟨s, hpc⟩ | hpc | ⟨status, hpc⟩
    · exact .sleep i chan hr (.inl (life_phase hpc)) (by rw [life_phase hpc]; nofun)
    · exact .sleep i chan hr (.inl (life_phase hpc)) (by rw [life_phase hpc]; nofun)
    · exact .sleep i chan hr (.inr (.inr ⟨status, life_phase hpc⟩))
        (by rw [life_phase hpc]; nofun)
  | done i r hr hpc =>
    have hph : (life m i).phase = .other := life_phase hpc
    rw [life_finish_self (r := (r, m.k)) hph]
    exact .same rfl nofun
  | wakeup i chan =>
    have hl : life (m.setK (m.k.wakeup i chan)) = fun j =>
        if decide (j ≠ i ∧ (life m j).state = .sleeping ∧ (life m j).chan = some chan) then
          { life m j with state := .runnable }
        else life m j := by
      rw [life_wakeup]
      funext j
      simp only [decide_eq_true_eq]
      rfl
    rw [hl]
    exact .woken _ (fun j hj => (of_decide_eq_true hj).2.1) rfl nofun

section Counters

theorem kforkFound_counters {k k' : Kernel} {i j : Slot} {mem : Kernel.ForkMem} {made : Bool}
    (h : k.kforkFound i j mem = .ok (made, k')) :
    k'.initproc = k.initproc ∧ k'.nextpid = k.nextpid + 1 := by
  unfold Kernel.kforkFound at h
  dsimp only at h
  split at h
  case h_1 | h_2 | h_3 =>
    cases h
    exact ⟨rfl, rfl⟩
  case h_4 =>
    split at h
    · cases h
    · rename_i k1 hd
      obtain ⟨_, hn, hi⟩ := dupFiles_frame hd
      split at h
      · cases h
      · cases h
        exact ⟨hi, hn⟩

theorem enter_counters (m : Machine) (i : Slot) (s : Sys) :
    (m.enter i s).k.initproc = m.k.initproc ∧ (m.enter i s).k.nextpid = m.k.nextpid := by
  cases s with
  | setfilter =>
    simp only [Machine.enter, Machine.finish, sysSetfilter]
    split <;> exact ⟨rfl, rfl⟩
  | setfilterChild =>
    simp only [Machine.enter, Machine.finish, sysSetfilterChild]
    split <;> exact ⟨rfl, rfl⟩
  | _ => exact ⟨rfl, rfl⟩

theorem ecall_counters (m : Machine) (i : Slot) :
    (m.ecall i).k.initproc = m.k.initproc ∧ (m.ecall i).k.nextpid = m.k.nextpid := by
  have henter := enter_counters (m.setK (m.k.pastEcall i)) i
  unfold Machine.ecall
  split
  · exact ⟨rfl, rfl⟩
  unfold Machine.dispatch
  dsimp only
  split
  · exact ⟨rfl, rfl⟩
  · split
    · split
      · exact ⟨rfl, rfl⟩
      · exact henter _
      · simp only [Machine.refuse]
        split <;> exact ⟨rfl, rfl⟩
    · exact henter _

theorem waitAt_counters (m : Machine) (i : Slot) (addr : U64) (copied : Bool) (pt : PageTable) :
    (m.waitAt i addr copied pt).k.initproc = m.k.initproc ∧
      (m.waitAt i addr copied pt).k.nextpid = m.k.nextpid := by
  unfold Machine.waitAt
  dsimp only
  split
  · split <;> split <;> exact ⟨rfl, rfl⟩
  · split <;> exact ⟨rfl, rfl⟩
  · exact ⟨rfl, rfl⟩

theorem kexitLocked_counters (k : Kernel) (i : Slot) (status : I32) :
    (k.kexitLocked i status).initproc = k.initproc ∧ (k.kexitLocked i status).nextpid = k.nextpid := by
  have hr : (k.reparent i).initproc = k.initproc ∧ (k.reparent i).nextpid = k.nextpid := by
    unfold Kernel.reparent
    dsimp only
    split <;> exact ⟨rfl, rfl⟩
  unfold Kernel.kexitLocked
  dsimp only
  split <;> exact hr

/-- A step moves `nextpid` by one if it takes a pid and never touches `initproc`. -/
theorem step_counters {m m' : Machine} {e : Event} (h : m.step e = some m') :
    m'.k.initproc = m.k.initproc ∧
      m'.k.nextpid = if allocating m e then m.k.nextpid + 1 else m.k.nextpid := by
  cases step_stepped h with
  | ecall i => exact ecall_counters m i
  | wait i addr copied pt => exact waitAt_counters m i addr copied pt
  | exit i status fs file pipe => exact kexitLocked_counters _ i status
  | kill i pid n hr hpc =>
    unfold Machine.killAt
    split
    · dsimp only
      split <;> exact ⟨rfl, rfl⟩
    · exact ⟨rfl, rfl⟩
  | alloc i mem hr hpc ha =>
    rename_i n
    unfold Machine.allocAt at ha
    split at ha
    · rename_i hn
      dsimp only at ha
      split at ha
      · rename_i hu
        have hal : allocating m (.alloc i mem) = true := by simp [allocating, hpc, hn, hu]
        rw [hal, if_pos rfl]
        split at ha
        · cases ha
        · rename_i k hk
          cases ha
          exact kforkFound_counters hk
        · rename_i k hk
          cases ha
          exact ⟨(kforkFound_counters hk).1, (kforkFound_counters hk).2⟩
      · rename_i hu
        cases ha
        have hal : allocating m (.alloc i mem) = false := by simp [allocating, hpc, hn, hu]
        rw [hal]
        exact ⟨rfl, rfl⟩
    · rename_i hn
      cases ha
      have hal : allocating m (.alloc i mem) = false := by simp [allocating, hpc, hn]
      rw [hal]
      exact ⟨rfl, rfl⟩
  | _ => exact ⟨rfl, rfl⟩

end Counters

end Xv6Filter.Proofs
