import Xv6Filter.Kernel.Types
import Xv6Filter.Lib.Run
import Mathlib.Data.Fintype.Basic

namespace Xv6Filter.Sched
open Function

/-- Where the kernel thread of a process is, with the channels `X`. -/
inductive Thread (X : Type) where
  | own
  /-- in `sleep`, which has taken `p->lock` and next releases the condition lock -/
  | parting (x : X)
  /-- in `sleep`, which next sets `p->chan` and `p->state` and calls `sched` -/
  | parted (x : X)
  /-- in the `sched` of `sleep` -/
  | slept (x : X)
  /-- in `sleep`, which next takes the condition lock again -/
  | relock (x : X)
  /-- in the `sched` of a `yield`; a timer interrupt calls it also where `relock x` is -/
  | yielded (relock : Option X)
  /-- new, and about to enter `forkret` -/
  | forkret
  /-- in the `sched` of `kexit` -/
  | exited
  deriving DecidableEq

/-- `intena` is the variable of `sched` that keeps the field of that name of the CPU. -/
structure Task (X : Type) where
  state : ProcState
  chan : Option X
  thread : Thread X
  intena : Bool

/-- What a CPU executes: the loop of `scheduler`, process `p`, or `scheduler` again after
the `swtch` of `p`, before it releases `p->lock`. -/
inductive Cpu where
  | scheduler
  | running (p : Slot)
  | back (p : Slot)
  deriving DecidableEq

/-- A spinlock: `p->lock` of a slot, or one of the others. -/
inductive Key (L : Type) where
  | proc (q : Slot)
  | lock (l : L)
  deriving DecidableEq

/-- `noff` and `intena` of a CPU, and the flag SIE, which is on while it takes interrupts. -/
structure Irq where
  noff : Nat
  intena : Bool
  sie : Bool

def Irq.pushOff (i : Irq) : Irq := ⟨i.noff + 1, if i.noff = 0 then i.sie else i.intena, false⟩

/-- `pop_off`; none for its two panics. -/
def Irq.popOff (i : Irq) : Option Irq :=
  if i.sie = true ∨ i.noff < 1 then none
  else some ⟨i.noff - 1, i.intena, decide (i.noff - 1 = 0) && i.intena⟩

/-- The CPUs `C` at work on the process table. `held` has the locks of each CPU, and `wakes` the
`wakeup` it is in, with the slots yet to visit. -/
structure Smp (C L X : Type) where
  cpu : C → Cpu
  held : C → List (Key L)
  irq : C → Irq
  wakes : C → Option (X × List Slot)
  task : Slot → Task X
  panicked : Bool

/-- What a CPU does next. `go` is the next step inside `sleep` or `wakeup`, or after a `swtch`. -/
inductive Act (L X : Type) where
  | pick (q : Slot)
  | putBack
  /-- `intr_on` and the return from an interrupt, `intr_off` and the entry to its handler -/
  | intr (sie : Bool)
  | acquire (l : L)
  | release (l : L)
  | wakeup (x : X)
  | sleep (x : X)
  | yield
  /-- the end of `kexit`, which holds `wait_lock` -/
  | kexit (waitLock : L)
  | kkill (q : Slot)
  /-- `allocproc`, `freeproc`, or the last section of `kfork` on slot `q` -/
  | recast (q : Slot) (state : ProcState)
  | go

def recasts : ProcState → ProcState → Bool
  | .unused, .used | .used, .unused | .used, .runnable | .zombie, .unused => true
  | _, _ => false

namespace Smp

variable {C L X : Type} [DecidableEq C] [Fintype C] [DecidableEq L] [DecidableEq X] (lk : X → L) (s : Smp C L X) (c : C)

/-- All slots are free but that of the first process, and every CPU enters `scheduler`. -/
def init (first : Slot) : Smp C L X where
  cpu := fun _ => .scheduler
  held := fun _ => []
  irq := fun _ => ⟨0, false, false⟩
  wakes := fun _ => none
  task := fun q => ⟨if q = first then .runnable else .unused, none, .forkret, false⟩
  panicked := false

def panic : Smp C L X := { s with panicked := true }

def setTask (q : Slot) (t : Task X) : Smp C L X := { s with task := update s.task q t }

def goto (p : Slot) (th : Thread X) : Smp C L X := s.setTask p { s.task p with thread := th }

/-- `acquire`; none while it spins. -/
def acquire (k : Key L) : Option (Smp C L X) :=
  if k ∈ s.held c then some s.panic
  else if ∀ c', k ∉ s.held c' then
    some { s with held := update s.held c (k :: s.held c), irq := update s.irq c (s.irq c).pushOff }
  else none

def release (k : Key L) : Smp C L X :=
  if k ∈ s.held c then
    match (s.irq c).popOff with
    | none => s.panic
    | some i => { s with held := update s.held c ((s.held c).erase k), irq := update s.irq c i }
  else s.panic

/-- A section under `q->lock` that takes the lock, changes the slot and gives it back. -/
def visit (q : Slot) (f : Task X → Task X) : Option (Smp C L X) :=
  (s.acquire c (.proc q)).map fun s => (s.setTask q (f (s.task q))).release c (.proc q)

/-- `sched`, called by `p` on its way out: the four checks, and `swtch` to the scheduler. -/
def sched (p : Slot) (th : Thread X) : Smp C L X :=
  if .proc p ∈ s.held c ∧ (s.irq c).noff = 1 ∧ (s.task p).state ≠ .running ∧ (s.irq c).sie = false then
    { s.setTask p { s.task p with thread := th, intena := (s.irq c).intena } with cpu := update s.cpu c (.back p) }
  else s.panic

def resume (p : Slot) : Smp C L X :=
  { s with irq := update s.irq c { s.irq c with intena := (s.task p).intena } }

/-- `acquire(&p->lock); p->state = state; release(w); sched();`, without a `w` in `yield`. -/
def leave (p : Slot) (w : Option L) (state : ProcState) (th : Thread X) : Option (Smp C L X) :=
  (s.acquire c (.proc p)).map fun s =>
    let s := s.setTask p { s.task p with state := state }
    (w.elim s fun l => s.release c (.lock l)).sched c p th

def rouse (asleep : Option X → Bool) (t : Task X) : Task X :=
  if t.state = .sleeping ∧ asleep t.chan = true then { t with state := .runnable } else t

def wake (x : X) : List Slot → Option (Smp C L X)
  | [] => some { s with wakes := update s.wakes c none }
  | q :: todo => (s.visit c q (rouse (· = some x))).map fun s => { s with wakes := update s.wakes c (some (x, todo)) }

/-- The next step of `p` inside `sleep`, `yield` or `forkret`, or after an interrupt; `lk` is the condition lock of
a channel. -/
def go (p : Slot) : Option (Smp C L X) :=
  match (s.task p).thread with
  | .own => none
  | .parting x => some ((s.goto p (.parted x)).release c (.lock (lk x)))
  | .parted x => some ((s.setTask p { s.task p with state := .sleeping, chan := some x }).sched c p (.slept x))
  | .slept x =>
    some (((s.resume c p).setTask p { s.task p with chan := none, thread := .relock x }).release c (.proc p))
  | .relock x => if s.held c = [] then (s.acquire c (.lock (lk x))).map (·.goto p .own) else none
  | .yielded x => some (((s.resume c p).goto p (x.elim .own .relock)).release c (.proc p))
  | .forkret => some ((s.goto p .own).release c (.proc p))
  | .exited => some s.panic

def call (p : Slot) : Act L X → Option (Smp C L X)
  | .sleep x => (s.acquire c (.proc p)).map (·.goto p (.parting x))
  | .kexit w => s.leave c p (some w) .zombie .exited
  | .kkill q => s.visit c q (rouse fun _ => true)
  | .recast q state =>
    if recasts (s.task q).state state then
      s.visit c q fun t => { t with state := state, thread := if state = .used then .forkret else t.thread }
    else none
  | _ => none

/-- Interrupts may be on, also those that find no process: their handlers take locks and call
`wakeup`, and what they interrupted goes on when they have given the locks back. -/
def interruptible : Bool :=
  match s.cpu c with
  | .scheduler => true
  | .running p => match (s.task p).thread with
    | .own | .relock _ => true
    | _ => false
  | .back _ => false

def act : Act L X → Option (Smp C L X)
  | .pick q =>
    if s.cpu c = .scheduler ∧ s.held c = [] ∧ (s.task q).state = .runnable then
      (s.acquire c (.proc q)).map fun s =>
        { s.setTask q { s.task q with state := .running } with cpu := update s.cpu c (.running q) }
    else none
  | .putBack =>
    match s.cpu c with
    | .back p => some { s.release c (.proc p) with cpu := update s.cpu c .scheduler }
    | _ => none
  | .intr sie => if s.interruptible c then some { s with irq := update s.irq c { s.irq c with sie := sie } } else none
  | .acquire l => if s.interruptible c then s.acquire c (.lock l) else none
  | .release l => if s.interruptible c then some (s.release c (.lock l)) else none
  | .wakeup x =>
    if s.interruptible c then
      some { s with wakes := update s.wakes c (some (x, (List.finRange nproc).filter (s.cpu c ≠ .running ·))) }
    else none
  | .go =>
    match s.cpu c with
    | .running p => s.go lk c p
    | _ => none
  | .yield =>
    match s.cpu c with
    | .running p => match (s.task p).thread with
      | .own => s.leave c p none .runnable (.yielded none)
      | .relock x => s.leave c p none .runnable (.yielded (some x))
      | _ => none
    | _ => none
  | a =>
    match s.cpu c with
    | .running p => match (s.task p).thread with
      | .own => s.call c p a
      | _ => none
    | _ => none

def step (e : C × Act L X) : Option (Smp C L X) :=
  if s.panicked then none
  else match s.wakes e.1, e.2 with
    | some (x, todo), .go => s.wake e.1 x todo
    | some _, _ => none
    | none, a => s.act lk e.1 a

end Smp

variable {C L X : Type}

/-- How the kernel uses its locks: none is taken twice or released by another, interrupts are
turned on without one, `sleep` is called with the condition lock alone and `wakeup` with it,
`yield` with no lock and `kexit` ends with `wait_lock` alone. -/
def Disciplined (lk : X → L) (s : Smp C L X) : C × Act L X → Prop
  | (c, .intr sie) => sie = true → s.held c = []
  | (c, .acquire l) => .lock l ∉ s.held c
  | (c, .release l) => .lock l ∈ s.held c
  | (c, .sleep x) => s.held c = [.lock (lk x)]
  | (c, .wakeup x) => .lock (lk x) ∈ s.held c
  | (c, .yield) => s.held c = []
  | (c, .kexit w) => s.held c = [.lock w]
  | _ => True

instance [DecidableEq L] (lk : X → L) (s : Smp C L X) (e : C × Act L X) : Decidable (Disciplined lk s e) := by
  obtain ⟨c, a⟩ := e
  cases a <;> unfold Disciplined <;> infer_instance

end Xv6Filter.Sched
