import Xv6Filter.Kernel.Sched

namespace Xv6Filter.Sched
open Function Lib

variable {C L X : Type}

@[simp] def Cpu.Has : Cpu → Slot → Prop
  | .scheduler, _ => False
  | .running p, q | .back p, q => q = p

@[simp] def Holds (lk : X → L) (p : Slot) (held : List (Key L)) : Thread X → Prop
  | .own | .relock _ => ∀ q, .proc q ∉ held
  | .parting x => held = [.proc p, .lock (lk x)]
  | .parted _ | .slept _ | .yielded _ | .forkret => held = [.proc p]
  | .exited => False

@[simp] def Seat (lk : X → L) (task : Slot → Task X) (held : List (Key L)) : Cpu → Prop
  | .scheduler => ∀ q, .proc q ∉ held
  | .running p => (task p).state = .running ∧ Holds lk p held (task p).thread
  | .back p => held = [.proc p] ∧ (task p).state ≠ .running

@[simp] def Saved (t : Task X) : Prop :=
  match t.state, t.thread with
  | .running, _ => True
  | .sleeping, .slept x => t.chan = some x
  | .runnable, .slept _ | .runnable, .yielded _ | .runnable, .forkret | .used, .forkret => True
  | .unused, .forkret | .unused, .exited | .zombie, .exited => True
  | _, _ => False

@[simp] def Dozing (t : Task X) (x : X) : Prop :=
  t.thread = .parted x ∨ t.thread = .slept x ∧ t.state = .sleeping

/-- A CPU in `wakeup(x)` has the condition lock, and whoever is to be woken it has yet to visit. -/
def Reached (lk : X → L) (held : List (Key L)) (task : Slot → Task X) (w : Option (X × List Slot)) : Prop :=
  ∀ x todo, w = some (x, todo) →
    .lock (lk x) ∈ held ∧ (∀ q, .proc q ∉ held) ∧ ∀ q, Dozing (task q) x → q ∈ todo

def Masks (i : Irq) (held : List (Key L)) : Prop := i.noff = held.length ∧ (held ≠ [] → i.sie = false)

structure Good (lk : X → L) (s : Smp C L X) : Prop where
  sound : s.panicked = false
  excluded : ∀ c c' k, k ∈ s.held c → k ∈ s.held c' → c = c'
  alone : ∀ c c' p, (s.cpu c).Has p → (s.cpu c').Has p → c = c'
  seat : ∀ c, Seat lk s.task (s.held c) (s.cpu c)
  running : ∀ p, (s.task p).state = .running → ∃ c, s.cpu c = .running p
  saved : ∀ p, Saved (s.task p)
  reached : ∀ c, Reached lk (s.held c) s.task (s.wakes c)
  masks : ∀ c, Masks (s.irq c) (s.held c)

variable {lk : X → L} {s t : Smp C L X} {c : C} {p q : Slot} {k : Cpu} {r : Task X} {x : X} {i : Irq}
  {l : List (Key L)} {task : Slot → Task X} {key : Key L}

theorem Masks.pushOff (h : Masks i l) (key : Key L) : Masks i.pushOff (key :: l) :=
  ⟨congrArg (· + 1) h.1, fun _ => rfl⟩

/-- A CPU that has a lock can release it: neither check of `pop_off` fails. -/
theorem Masks.popOff [DecidableEq L] (h : Masks i l) (hk : key ∈ l) :
    ∃ j, i.popOff = some j ∧ Masks j (l.erase key) := by
  have hlen := List.length_erase_of_mem hk
  have hpos := List.length_pos_of_mem hk
  have hoff := h.2 (List.ne_nil_of_mem hk)
  have hno : ¬ (i.sie = true ∨ i.noff < 1) := by
    rw [hoff, h.1, not_or]
    exact ⟨Bool.false_ne_true, by omega⟩
  refine ⟨_, if_neg hno, by rw [hlen, h.1], fun hne => ?_⟩
  have := List.length_pos_iff.mpr hne
  have hleft : ¬ i.noff - 1 = 0 := by rw [h.1]; omega
  simp [hleft]

theorem Masks.update [DecidableEq C] {irq : C → Irq} {held : C → List (Key L)} (h : ∀ c, Masks (irq c) (held c))
    (hi : Masks i l) (c c' : C) : Masks (update irq c i c') (update held c l c') := by
  by_cases hc : c' = c
  · subst hc
    simpa using hi
  · simpa [hc] using h c'

theorem Seat.congr {task' : Slot → Task X} (h : Seat lk task l k) (he : ∀ q, k.Has q → task' q = task q) :
    Seat lk task' l k := by
  cases k with
  | scheduler => exact h
  | running p => simpa only [Seat, he p rfl] using h
  | back p => simpa only [Seat, he p rfl] using h

def Fair (s : Smp C L X) (p : Slot) (r : Task X) : Prop :=
  ∀ x, Dozing r x → Dozing (s.task p) x ∨ ∀ c todo, s.wakes c ≠ some (x, todo)

theorem Reached.change (h : Reached lk l s.task (s.wakes c)) (hf : Fair s p r) :
    Reached lk l (update s.task p r) (s.wakes c) := by
  intro x todo hw
  obtain ⟨hl, hq, hd⟩ := h x todo hw
  refine ⟨hl, hq, fun q hdq => ?_⟩
  by_cases he : q = p
  · subst he
    rcases hf x (by simpa using hdq) with hold | hno
    · exact hd q hold
    · exact absurd hw (hno c todo)
  · exact hd q (by simpa [he] using hdq)

namespace Good

/-- A process whose lock is free and that is not RUNNING is on no CPU. -/
theorem off (h : Good lk s) (hq : ∀ c, .proc q ∉ s.held c) (hs : (s.task q).state ≠ .running) (c : C) :
    ¬ (s.cpu c).Has q := by
  intro hh
  have hseat := h.seat c
  cases hc : s.cpu c <;> simp only [hc, Seat, Cpu.Has] at hh hseat
  · exact hs (hh ▸ hseat.1)
  · exact hq c (by simp [hseat.1, hh])

/-- A process on its way to sleep is on a CPU that has its lock. -/
theorem parted (h : Good lk s) (hq : (s.task q).thread = .parted x) : ∃ c, .proc q ∈ s.held c := by
  have hr : (s.task q).state = .running := by
    have hs := h.saved q
    cases hst : (s.task q).state <;> simp_all
  obtain ⟨c, hc⟩ := h.running q hr
  have hseat := h.seat c
  simp only [hc, Seat, hq, Holds] at hseat
  exact ⟨c, by simp [hseat.2]⟩

theorem mine (h : Good lk s) : ∀ j ∈ s.held c, ∀ c', c' ≠ c → j ∉ s.held c' :=
  fun j hj c' hne hj' => hne (h.excluded c' c j hj' hj)

theorem more (h : Good lk s) (hk : ∀ c', key ∉ s.held c') : ∀ j ∈ key :: s.held c, ∀ c', c' ≠ c → j ∉ s.held c' := by
  intro j hj c' hne
  rcases List.mem_cons.mp hj with rfl | hj
  · exact hk c'
  · exact h.mine j hj c' hne

variable [DecidableEq C]

/-- The locks of a CPU that is not in `wakeup` do not matter to the others. -/
theorem others (hr : ∀ c, Reached lk (s.held c) task (s.wakes c)) (hw : s.wakes c = none) (c' : C) :
    Reached lk (update s.held c l c') task (s.wakes c') := by
  by_cases hc : c' = c
  · subst hc
    intro x todo hx
    rw [hw] at hx
    cases hx
  · simpa [hc] using hr c'

theorem flags (h : Good lk s) (hi : Masks i (s.held c)) (c' : C) : Masks (update s.irq c i c') (s.held c') := by
  have := Masks.update h.masks hi c c'
  rwa [update_eq_self] at this

section Steps

variable (h : Good lk s) (hw : s.wakes c = none)

include h

theorem masked (hi : Masks i (s.held c)) : Good lk { s with irq := update s.irq c i } :=
  ⟨h.sound, h.excluded, h.alone, h.seat, h.running, h.saved, h.reached, h.flags hi⟩

/-- A section under the lock of a process that is on no CPU. -/
theorem visit (hi : Masks i (s.held c)) (hq : ∀ c, .proc q ∉ s.held c) (hs : (s.task q).state ≠ .running)
    (hr : r.state ≠ .running) (hsaved : Saved r) (hf : Fair s q r) :
    Good lk { s with irq := update s.irq c i, task := update s.task q r } := by
  refine ⟨h.sound, h.excluded, h.alone, ?_, ?_, ?_, fun c => (h.reached c).change hf, h.flags hi⟩
  · intro c
    refine (h.seat c).congr ?_
    intro p hp
    refine update_of_ne ?_ _ _
    rintro rfl
    exact h.off hq hs c hp
  · have := h.running
    grind [update_apply]
  · have := h.saved
    grind [update_apply]

/-- The `wakeup` of a CPU begins, goes on or ends. -/
theorem waking {w : Option (X × List Slot)} (hn : Reached lk (s.held c) s.task w) :
    Good lk { s with wakes := update s.wakes c w } := by
  refine ⟨h.sound, h.excluded, h.alone, h.seat, h.running, h.saved, fun c' => ?_, h.masks⟩
  by_cases hc : c' = c
  · subst hc
    simpa using hn
  · simpa [hc] using h.reached c'

include hw

/-- CPU `c` takes or gives back locks. -/
theorem locks (hl : ∀ key ∈ l, ∀ c', c' ≠ c → key ∉ s.held c') (hseat : Seat lk s.task l (s.cpu c)) (hi : Masks i l) :
    Good lk { s with held := update s.held c l, irq := update s.irq c i } := by
  refine ⟨h.sound, ?_, h.alone, fun c' => ?_, h.running, h.saved, others h.reached hw, Masks.update h.masks hi c⟩
  · have := h.excluded
    grind [update_apply]
  · by_cases hc : c' = c
    · subst hc
      simpa using hseat
    · simpa [hc] using h.seat c'

/-- CPU `c` and its process `p` change, or `c` takes up `p` from no CPU. -/
theorem turn (hp : (s.cpu c).Has p ∨ s.cpu c = .scheduler ∧ ∀ c', ¬ (s.cpu c').Has p)
    (hnew : ∀ q, k.Has q → q = p) (hl : ∀ key ∈ l, ∀ c', c' ≠ c → key ∉ s.held c')
    (hseat : Seat lk (update s.task p r) l k) (hrun : r.state = .running → k = .running p)
    (hsaved : Saved r) (hf : Fair s p r) (hi : Masks i l) :
    Good lk ⟨update s.cpu c k, update s.held c l, update s.irq c i, s.wakes, update s.task p r, s.panicked⟩ := by
  have hmine : ∀ c', c' ≠ c → ¬ (s.cpu c').Has p := fun c' hne hq =>
    hp.elim (fun hc => hne (h.alone c' c p hq hc)) fun hc => hc.2 c' hq
  have hold : ∀ q, (s.cpu c).Has q → q = p := by
    intro q hq
    cases hk : s.cpu c <;> simp_all
  refine ⟨h.sound, ?_, ?_, ?_, ?_, ?_, others (fun c => (h.reached c).change hf) hw, Masks.update h.masks hi c⟩
  · have := h.excluded
    grind [update_apply]
  · have := h.alone
    grind [update_apply]
  · intro c1
    by_cases hc1 : c1 = c
    · subst hc1
      simpa only [update_self] using hseat
    · simp only [update_of_ne hc1]
      refine (h.seat c1).congr ?_
      intro q hq
      refine update_of_ne ?_ _ _
      rintro rfl
      exact hmine c1 hc1 hq
  · intro q hq
    by_cases he : q = p
    · subst he
      exact ⟨c, by simpa using hrun (by simpa using hq)⟩
    · obtain ⟨c1, hc1⟩ := h.running q (by simpa [he] using hq)
      have hne : c1 ≠ c := by
        rintro rfl
        exact he (hold q (by simp [hc1]))
      exact ⟨c1, by simpa [hne] using hc1⟩
  · have := h.saved
    grind [update_apply]

/-- The process on `c` moves on and stays there. -/
theorem stay (hc : s.cpu c = .running p) (hl : ∀ key ∈ l, ∀ c', c' ≠ c → key ∉ s.held c')
    (hr : r.state = .running) (hk : Holds lk p l r.thread) (hf : Fair s p r) (hi : Masks i l) :
    Good lk ⟨s.cpu, update s.held c l, update s.irq c i, s.wakes, update s.task p r, s.panicked⟩ := by
  have ht := h.turn hw (k := .running p) (.inl (by simp [hc])) (by simp) hl (by simpa using ⟨hr, hk⟩)
    (fun _ => rfl) (by simp [hr]) hf hi
  rwa [← hc, update_eq_self] at ht

end Steps

end Good

section Locks

variable [DecidableEq C] [DecidableEq L]

/-- A lock that the CPU does not hold is free when it is acquired. -/
theorem acquire_free [Fintype C] {f : Smp C L X → Smp C L X} (hk : key ∉ s.held c)
    (hu : (s.acquire c key).map f = some t) : (∀ c', key ∉ s.held c') ∧
      f { s with held := update s.held c (key :: s.held c), irq := update s.irq c (s.irq c).pushOff } = t := by
  rw [Smp.acquire, if_neg hk] at hu
  split at hu
  · exact ⟨‹_›, Option.some.inj hu⟩
  · cases hu

theorem release_held (hm : Masks (s.irq c) (s.held c)) (hk : key ∈ s.held c) :
    ∃ i, Masks i ((s.held c).erase key) ∧
      s.release c key = { s with held := update s.held c ((s.held c).erase key), irq := update s.irq c i } := by
  obtain ⟨i, hi, hmi⟩ := hm.popOff hk
  exact ⟨i, hmi, by simp only [Smp.release, hk, ↓reduceIte, hi]⟩

theorem visit_free [Fintype C] {f : Task X → Task X} (hm : Masks (s.irq c) (s.held c)) (hk : .proc q ∉ s.held c)
    (hu : s.visit c q f = some t) : (∀ c', .proc q ∉ s.held c') ∧ ∃ i, Masks i (s.held c) ∧
      t = { s with irq := update s.irq c i, task := update s.task q (f (s.task q)) } := by
  obtain ⟨hl, rfl⟩ := acquire_free hk hu
  obtain ⟨i, hi, hr⟩ := (hm.pushOff (.proc q)).popOff (List.mem_cons_self ..)
  rw [List.erase_cons_head] at hr
  refine ⟨hl, i, hr, ?_⟩
  simp [Smp.release, Smp.setTask, hi]

end Locks

namespace Good

variable (h : Good lk s)

include h

/-- Waking a process whose lock is free. -/
theorem rouse [DecidableEq C] (hi : Masks i (s.held c)) (hq : ∀ c, .proc q ∉ s.held c) (asleep : Option X → Bool) :
    Good lk { s with irq := update s.irq c i, task := update s.task q (Smp.rouse asleep (s.task q)) } := by
  unfold Smp.rouse
  split
  · rename_i hr
    have hsaved := h.saved q
    refine h.visit hi hq (by simp [hr.1]) (by simp) ?_ fun x hx => .inl ?_
    all_goals cases hth : (s.task q).thread <;> simp_all
  · rw [update_eq_self]
    exact h.masked hi

/-- A process on its way to sleep has its lock, so a visit finds it asleep or not at all. -/
theorem roused [DecidableEq X] (hq : ∀ c, .proc q ∉ s.held c) :
    ¬ Dozing (Smp.rouse (· = some x) (s.task q)) x := by
  have hsaved := h.saved q
  have hparted : (s.task q).thread ≠ .parted x := by
    intro hth
    obtain ⟨c, hc⟩ := h.parted hth
    exact hq c hc
  unfold Smp.rouse
  split
  · simp [hparted]
  · rintro (hth | ⟨hth, hst⟩)
    · exact hparted hth
    · simp_all

/-- Where interrupts may be on, no lock of a process is held, and other locks do not matter. -/
theorem interrupted (hi : s.interruptible c = true) :
    (∀ q, .proc q ∉ s.held c) ∧ ∀ l, (∀ q, .proc q ∉ l) → Seat lk s.task l (s.cpu c) := by
  have hseat := h.seat c
  unfold Smp.interruptible at hi
  cases hc : s.cpu c with
  | scheduler => simpa [hc] using hseat
  | running p => cases hth : (s.task p).thread <;> simp_all
  | back p => simp [hc] at hi

variable [DecidableEq C] [DecidableEq L]

theorem wake [Fintype C] [DecidableEq X] {todo : List Slot} (hw : s.wakes c = some (x, todo)) (ha : s.wake c x todo = some t) :
    Good lk t := by
  obtain ⟨hk, hq, hd⟩ := h.reached c x todo hw
  cases todo with
  | nil =>
    obtain rfl := Option.some.inj ha
    exact h.waking (by simp [Reached])
  | cons q todo =>
    obtain ⟨u, hu, rfl⟩ := Option.map_eq_some_iff.mp ha
    obtain ⟨hl, i, hi, rfl⟩ := visit_free (h.masks c) (hq q) hu
    have h1 := h.rouse hi hl (· = some x)
    refine h1.waking ?_
    intro y l hy
    obtain ⟨rfl, rfl⟩ : x = y ∧ todo = l := by simpa using hy
    refine ⟨hk, hq, fun q' hd' => ?_⟩
    rcases List.mem_cons.mp ((h1.reached c x _ hw).2.2 q' hd') with rfl | hm
    · exact absurd (by simpa using hd') (h.roused hl)
    · exact hm

variable (hw : s.wakes c = none)

include hw

section Running

variable (hc : s.cpu c = .running p)

include hc

/-- The process moves on and releases a lock. -/
theorem released (hk : key ∈ s.held c) (hr : r.state = .running)
    (hkh : Holds lk p ((s.held c).erase key) r.thread) (hf : Fair s p r) :
    Good lk ((s.setTask p r).release c key) := by
  obtain ⟨i, hi, he⟩ := release_held (s := s.setTask p r) (h.masks c) hk
  rw [he]
  exact h.stay hw hc (fun j hj => h.mine j (List.mem_of_mem_erase hj)) hr hkh hf hi

/-- After its `swtch` the process has its own lock, gives it back and moves on. -/
theorem resumed (hk : s.held c = [.proc p]) (hr : r.state = .running) (hth : Holds lk p [] r.thread) (hf : Fair s p r) :
    Good lk (((s.resume c p).setTask p r).release c (.proc p)) := by
  have h' : Good lk (s.resume c p) := h.masked (h.masks c)
  refine h'.released hw hc (by simp [Smp.resume, hk]) hr ?_ hf
  simpa only [Smp.resume, hk, List.erase_cons_head] using hth

/-- The process calls `sched` with its own lock and no other. -/
theorem sched {th : Thread X} (hl : ∀ c', c' ≠ c → .proc p ∉ s.held c') (hi : Masks (L := L) i [.proc p]) (hr : r.state ≠ .running)
    (hsaved : Saved { r with thread := th, intena := i.intena })
    (hf : Fair s p { r with thread := th, intena := i.intena }) :
    Good lk (Smp.sched ⟨s.cpu, update s.held c [.proc p], update s.irq c i, s.wakes, update s.task p r, s.panicked⟩
      c p th) := by
  have ht := h.turn hw (k := .back p) (r := { r with thread := th, intena := i.intena }) (l := [.proc p])
    (.inl (by simp [hc])) (by simp) (by simpa using hl) (by simp [hr]) (fun he => absurd he hr) hsaved hf hi
  have hoff : i.sie = false := hi.2 (by simp)
  have hone : i.noff = 1 := hi.1
  simpa [Smp.sched, Smp.setTask, hr, hoff, hone] using ht

variable [Fintype C]

theorem leave {w : Option L} {st : ProcState} {th : Thread X} (hheld : s.held c = w.toList.map .lock)
    (hst : (∃ x, st = .runnable ∧ th = .yielded x) ∨ st = .zombie ∧ th = .exited)
    (ha : s.leave c p w st th = some t) : Good lk t := by
  obtain ⟨hl, rfl⟩ := acquire_free (by simp [hheld]) ha
  have ht (i : Irq) (hi : Masks (L := L) i [.proc p]) : Good lk (Smp.sched ⟨s.cpu, update s.held c [.proc p], update s.irq c i,
      s.wakes, update s.task p { s.task p with state := st }, s.panicked⟩ c p th) := by
    refine h.sched hw hc (fun c' _ => hl c') hi ?_ ?_ fun x hx => .inl ?_
    all_goals rcases hst with ⟨x, rfl, rfl⟩ | ⟨rfl, rfl⟩ <;> simp_all
  have hm := (h.masks c).pushOff (.proc p)
  cases w with
  | none =>
    rw [hheld] at hm
    simpa [Smp.setTask, hheld] using ht _ hm
  | some l =>
    let u : Smp C L X := { s with
      held := update s.held c (.proc p :: s.held c), irq := update s.irq c (s.irq c).pushOff
      task := update s.task p { s.task p with state := st } }
    have hmem : Key.lock l ∈ u.held c := by simp [u, hheld]
    obtain ⟨i, hi, he⟩ := release_held (s := u) (by simpa [u] using hm) hmem
    have hleft : (Key.proc p :: s.held c).erase (.lock l) = [.proc p] := by simp [hheld]
    simp only [u, update_self, hleft, update_idem] at hi he
    simpa [Smp.setTask, he] using ht i hi

theorem go (hg : s.go lk c p = some t) : Good lk t := by
  obtain ⟨hr, hk⟩ : (s.task p).state = .running ∧ Holds lk p (s.held c) (s.task p).thread := by
    simpa only [hc, Seat] using h.seat c
  unfold Smp.go at hg
  cases hth : (s.task p).thread with
  | own => simp [hth] at hg
  | parting x =>
    simp only [hth, Holds, Option.some.injEq] at hg hk
    subst hg
    refine h.released hw hc (by simp [hk]) hr (by simp [hk]) ?_
    rintro y (hy | hy)
    · obtain rfl : x = y := by simpa using hy
      refine .inr fun c' todo hc' => ?_
      obtain rfl := h.excluded c' c _ (h.reached c' x todo hc').1 (by simp [hk])
      simp [hw] at hc'
    · simp at hy
  | parted x =>
    simp only [hth, Holds, Option.some.injEq] at hg hk
    subst hg
    have hm := h.masks c
    rw [hk] at hm
    have ht : Good lk (Smp.sched ⟨s.cpu, update s.held c [.proc p], update s.irq c (s.irq c), s.wakes,
        update s.task p { s.task p with state := .sleeping, chan := some x }, s.panicked⟩ c p (.slept x)) :=
      h.sched hw hc (h.mine _ (by simp [hk])) hm (by simp) rfl (by simp [Fair, hth])
    rw [← hk, update_eq_self, update_eq_self] at ht
    simpa only [Smp.setTask, hth] using ht
  | slept x =>
    simp only [hth, Holds, Option.some.injEq] at hg hk
    subst hg
    exact h.resumed hw hc hk hr (by simp) (by simp [Fair])
  | relock x =>
    simp only [hth] at hg
    obtain ⟨hheld, hg⟩ := Option.ite_none_right_eq_some.mp hg
    obtain ⟨hl, rfl⟩ := acquire_free (by simp [hheld]) hg
    exact h.stay hw hc (h.more hl) hr (by simp [hheld]) (by simp [Fair]) ((h.masks c).pushOff _)
  | yielded x =>
    simp only [hth, Holds, Option.some.injEq] at hg hk
    subst hg
    exact h.resumed hw hc hk hr (by cases x <;> simp) (by cases x <;> simp [Fair])
  | forkret =>
    simp only [hth, Holds, Option.some.injEq] at hg hk
    subst hg
    exact h.released hw hc (by simp [hk]) hr (by simp [hk]) (by simp [Fair])
  | exited => simp [hth, Holds] at hk

theorem call {a : Act L X} (hth : (s.task p).thread = .own) (hd : Disciplined lk s (c, a))
    (ha : s.call c p a = some t) : Good lk t := by
  obtain ⟨hr, hk⟩ : (s.task p).state = .running ∧ ∀ q, .proc q ∉ s.held c := by
    simpa only [hc, Seat, hth, Holds] using h.seat c
  cases a with
  | sleep x =>
    obtain ⟨hl, rfl⟩ := acquire_free (hk p) ha
    exact h.stay hw hc (h.more hl) hr (congrArg _ hd) (by simp [Fair]) ((h.masks c).pushOff _)
  | kexit => exact h.leave hw hc (w := some _) hd (.inr ⟨rfl, rfl⟩) ha
  | kkill q =>
    obtain ⟨hl, i, hi, rfl⟩ := visit_free (h.masks c) (hk q) ha
    exact h.rouse hi hl _
  | recast q st =>
    obtain ⟨hst, ha⟩ := Option.ite_none_right_eq_some.mp ha
    obtain ⟨hl, i, hi, rfl⟩ := visit_free (h.masks c) (hk q) ha
    have hsaved := h.saved q
    refine h.visit hi hl ?_ ?_ ?_ fun x hx => .inl ?_
    all_goals
      cases hs : (s.task q).state <;> cases st <;> simp [hs, recasts] at hst
      all_goals cases ht : (s.task q).thread <;> simp_all
  | _ => cases ha

end Running

theorem putBack (hc : s.cpu c = .back p) :
    Good lk { s.release c (.proc p) with cpu := update s.cpu c .scheduler } := by
  obtain ⟨hheld, hrun⟩ : s.held c = [.proc p] ∧ (s.task p).state ≠ .running := by
    simpa [hc, Seat] using h.seat c
  obtain ⟨i, hi, he⟩ := release_held (h.masks c) (show Key.proc p ∈ s.held c by simp [hheld])
  have hnil : (s.held c).erase (.proc p) = [] := by simp [hheld]
  rw [hnil] at hi he
  have ht := h.turn hw (k := .scheduler) (r := s.task p) (l := []) (.inl (by simp [hc])) (by simp)
    (by simp) (by simp) (fun he => absurd he hrun) (h.saved p) (fun _ hx => .inl hx) hi
  rw [he]
  simpa using ht

variable [Fintype C]

/-- The invariant of the scheduler is kept by every step of a CPU. -/
theorem act {a : Act L X} (hd : Disciplined lk s (c, a)) (ha : s.act lk c a = some t) : Good lk t := by
  cases a with
  | pick q =>
    obtain ⟨⟨hc, hheld, hr⟩, ha⟩ := Option.ite_none_right_eq_some.mp ha
    obtain ⟨hl, rfl⟩ := acquire_free (by simp [hheld]) ha
    have hoff := h.off hl (by simp [hr])
    have hsaved := h.saved q
    refine h.turn hw (.inr ⟨hc, hoff⟩) (by simp) (h.more hl) ?_ (fun _ => rfl) (by simp) (fun x hx => .inl ?_)
      ((h.masks c).pushOff _)
    all_goals cases hth : (s.task q).thread <;> simp_all
  | putBack =>
    simp only [Smp.act] at ha
    split at ha
    · obtain rfl := Option.some.inj ha
      exact h.putBack hw ‹_›
    · cases ha
  | intr sie =>
    obtain ⟨-, ha⟩ := Option.ite_none_right_eq_some.mp ha
    obtain rfl := Option.some.inj ha
    refine h.masked ⟨(h.masks c).1, fun hne => ?_⟩
    cases sie with
    | false => rfl
    | true => exact absurd (hd rfl) hne
  | acquire l =>
    obtain ⟨hi, ha⟩ := Option.ite_none_right_eq_some.mp ha
    obtain ⟨hq, hseat⟩ := h.interrupted hi
    obtain ⟨hl, rfl⟩ := acquire_free (f := id) hd (by simpa using ha)
    exact h.locks hw (h.more hl) (hseat _ (by simpa using hq)) ((h.masks c).pushOff _)
  | release l =>
    obtain ⟨hi, ha⟩ := Option.ite_none_right_eq_some.mp ha
    obtain ⟨hq, hseat⟩ := h.interrupted hi
    obtain rfl := Option.some.inj ha
    obtain ⟨i, hm, he⟩ := release_held (h.masks c) (show Key.lock l ∈ s.held c from hd)
    rw [he]
    exact h.locks hw (fun j hj => h.mine j (List.mem_of_mem_erase hj))
      (hseat _ fun q hj => hq q (List.mem_of_mem_erase hj)) hm
  | wakeup x =>
    obtain ⟨hi, ha⟩ := Option.ite_none_right_eq_some.mp ha
    obtain rfl := Option.some.inj ha
    refine h.waking ?_
    intro y todo hy
    obtain ⟨rfl, rfl⟩ : x = y ∧ _ = todo := by simpa using hy
    refine ⟨hd, (h.interrupted hi).1, fun q hdq => ?_⟩
    have hc : s.cpu c ≠ .running q := by
      intro hc
      simp only [Smp.interruptible, hc] at hi
      rcases hdq with hth | hth <;> simp [hth] at hi
    simp [hc]
  | go =>
    simp only [Smp.act] at ha
    split at ha
    · exact h.go hw ‹_› ha
    · cases ha
  | yield =>
    simp only [Smp.act] at ha
    split at ha
    · rename_i hc
      split at ha
      · exact h.leave hw hc (w := none) hd (.inl ⟨_, rfl, rfl⟩) ha
      · exact h.leave hw hc (w := none) hd (.inl ⟨_, rfl, rfl⟩) ha
      · cases ha
    · cases ha
  | _ =>
    simp only [Smp.act] at ha
    split at ha
    · rename_i hc
      split at ha
      · exact h.call hw hc ‹_› hd ha
      · cases ha
    · cases ha

omit hw in
theorem step [DecidableEq X] {e : C × Act L X} (hd : Disciplined lk s e) (hs : s.step lk e = some t) : Good lk t := by
  simp only [Smp.step, h.sound, Bool.false_eq_true, ↓reduceIte] at hs
  split at hs
  · exact h.wake ‹_› hs
  · cases hs
  · exact h.act ‹_› hd hs

end Good

theorem init_good (lk : X → L) (first : Slot) : Good lk (Smp.init (C := C) first) := by
  refine ⟨rfl, by simp [Smp.init], by simp [Smp.init], by simp [Smp.init], ?_, ?_, by simp [Smp.init, Reached],
    by simp [Smp.init, Masks]⟩
  all_goals
    intro p
    by_cases hp : p = first <;> simp [Smp.init, hp]

section Runs

variable [DecidableEq C] [Fintype C] [DecidableEq L] [DecidableEq X] {first : Slot} {es : List (C × Act L X)}
  (hr : Run (Smp.step lk) (Disciplined lk) (.init first) es s)

include hr

theorem run_good : Good lk s := hr.invariant (Good lk) (init_good lk first) fun _ _ _ h hd hs => h.step hd hs

/-- No check of `acquire`, `release`, `pop_off` or `sched` ever fails, and a CPU that has a lock takes
no interrupt. A process is on one CPU at most, is RUNNING just while a CPU runs it, and once
another CPU can take its lock to run it or free its slot, the CPU that it left is done with its
stack. -/
theorem one_cpu_per_process :
    s.panicked = false ∧ (∀ c, s.held c ≠ [] → (s.irq c).sie = false) ∧
      (∀ c c' p, (s.cpu c).Has p → (s.cpu c').Has p → c = c') ∧
      ∀ p, ((s.task p).state = .running ↔ ∃ c, s.cpu c = .running p) ∧
        ((s.task p).state ≠ .running → (∀ c, .proc p ∉ s.held c) → ∀ c, ¬ (s.cpu c).Has p) := by
  have h := run_good hr
  refine ⟨h.sound, fun c => (h.masks c).2, h.alone, fun p => ⟨⟨h.running p, ?_⟩, fun hn hl => h.off hl hn⟩⟩
  rintro ⟨c, hc⟩
  have hseat := h.seat c
  simp only [hc, Seat] at hseat
  exact hseat.1

/-- No wakeup is lost: while a process or an interrupt handler is in `wakeup(x)`, every process
that sleeps on `x`, or is on its way there without the condition lock, is among the slots
yet to visit. So when `wakeup` returns none is left. -/
theorem no_wakeup_lost {todo : List Slot} (hw : s.wakes c = some (x, todo)) :
    .lock (lk x) ∈ s.held c ∧ ∀ q, Dozing (s.task q) x → q ∈ todo := by
  obtain ⟨hk, -, hd⟩ := (run_good hr).reached c x todo hw
  exact ⟨hk, hd⟩

end Runs

/-- Process 0 has released the condition lock in `sleep` when an interrupt on the other CPU
calls `wakeup`. -/
def parted : List (Bool × Act Unit Unit) :=
  [(false, .pick 0), (false, .go), (false, .acquire ()), (false, .sleep ()), (false, .go), (true, .acquire ()),
    (true, .wakeup ())]

/-- A process on its way to sleep that a `wakeup` on another CPU has still to come to. -/
theorem no_wakeup_lost_parted : ∃ s, Run (Smp.step id) (Disciplined id) (.init 0) parted s ∧
    Dozing (s.task 0) () ∧ ∃ todo, s.wakes true = some ((), todo) ∧ 0 ∈ todo := by
  obtain ⟨s, hr, hd, hw⟩ : ∃ s, Run (Smp.step id) (Disciplined id) (.init 0) parted s ∧
      (s.task 0).thread = .parted () ∧ s.wakes true = some ((), List.finRange nproc) :=
    replay_reaches (by decide)
  exact ⟨s, hr, .inl hd, _, hw, (no_wakeup_lost hr hw).2 0 (.inl hd)⟩

/-- Process 0 goes to sleep with interrupts on and is woken. The other CPU takes it up, and a timer
interrupt comes before it has the condition lock again. -/
def timerInSleep : List (Bool × Act Unit Unit) :=
  [(false, .pick 0), (false, .go), (false, .intr true), (false, .acquire ()), (false, .sleep ()), (false, .go), (false, .go),
    (false, .putBack), (true, .acquire ()), (true, .wakeup ())] ++ List.replicate (nproc + 1) (true, .go) ++
    [(true, .release ()), (true, .pick 0), (true, .go), (true, .intr false), (true, .yield)]

/-- The timer takes the CPU from a process on its way to sleep. -/
theorem one_cpu_per_process_timerInSleep : ∃ s, Run (Smp.step id) (Disciplined id) (.init 0) timerInSleep s ∧
    (s.task 0).thread = .yielded (some ()) ∧ s.cpu true = .back 0 ∧ s.panicked = false ∧ ¬ (s.cpu false).Has 0 := by
  obtain ⟨s, hr, hth, hc⟩ : ∃ s, Run (Smp.step id) (Disciplined id) (.init 0) timerInSleep s ∧
      (s.task 0).thread = .yielded (some ()) ∧ s.cpu true = .back 0 :=
    replay_reaches (by decide +kernel)
  obtain ⟨hsound, -, halone, -⟩ := one_cpu_per_process hr
  refine ⟨s, hr, hth, hc, hsound, fun ht => ?_⟩
  cases halone true false 0 (by simp [hc]) ht

end Xv6Filter.Sched
