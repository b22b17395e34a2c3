import Xv6Filter.Log.Bcache
import Xv6Filter.Log.Redo
import Xv6Filter.Lib.Run

namespace Xv6Filter

/-- A file system operation: the number of commits before its `begin_op`, and a serial. -/
structure OpId where
  epoch : Nat
  serial : Nat
  deriving DecidableEq

/-- Inside one turn of `write_log` or `install_trans`: no buffer yet, the log's
buffer, both buffers, both before the `brelse` calls, one left to release. -/
inductive Turn where
  | start
  | one (lbuf : Bp)
  | both (lbuf hbuf : Bp)
  | drop (lbuf hbuf : Bp)
  | last (buf : Bp)
  deriving DecidableEq

inductive Touch where
  | start
  | held (buf : Bp)
  | written (buf : Bp)
  deriving DecidableEq

/-- Where a process is: outside the log, in an operation, or in `end_op` with the
commit to do. -/
inductive Lpc where
  | idle
  | inOp (op : OpId)
  | commit
  | log (tail : Nat) (turn : Turn)
  | head (touch : Touch)
  | install (tail : Nat) (turn : Turn)
  | unpin (tail : Nat) (lbuf hbuf : Bp)
  | erase
  | clear (touch : Touch)
  | finish
  deriving DecidableEq

def Lpc.committing : Lpc → Bool
  | .idle | .inOp _ => false
  | _ => true

inductive Act where
  | goto (next : Lpc)
  | bread (b : Nat) (next : Bp → Lpc)
  | brelse (i : Bp) (next : Lpc)
  /-- `bwrite` of a log block that was copied from buffer `h` -/
  | writeLog (h : Bp) (next : Lpc)
  /-- `bwrite` of buffer `h` itself, with the block from the log -/
  | writeHome (h : Bp) (next : Lpc)
  | bunpin (h : Bp) (next : Lpc)
  /-- `log.lh.n = 0` -/
  | erase (next : Lpc)
  /-- `log.committing = 0` -/
  | finish (next : Lpc)

/-- `commit`, with `write_log`, `write_head` and `install_trans`, section by section. -/
def Lpc.act (start : Nat) (lh : List Nat) : Lpc → Option Act
  | .idle | .inOp _ => none
  | .commit => some (.goto (if 0 < lh.length then .log 0 .start else .finish))
  | .log t .start =>
    if t < lh.length then some (.bread (Dev.slot start t) fun i => .log t (.one i))
    else some (.goto (.head .start))
  | .log t (.one l) => some (.bread (lh.getD t 0) fun i => .log t (.both l i))
  | .log t (.both l h) => some (.writeLog h (.log t (.drop l h)))
  | .log t (.drop l h) => some (.brelse h (.log t (.last l)))
  | .log t (.last l) => some (.brelse l (.log (t + 1) .start))
  | .head .start => some (.bread start fun i => .head (.held i))
  | .head (.held i) => some (.goto (.head (.written i)))
  | .head (.written i) => some (.brelse i (.install 0 .start))
  | .install t .start =>
    if t < lh.length then some (.bread (Dev.slot start t) fun i => .install t (.one i))
    else some (.goto .erase)
  | .install t (.one l) => some (.bread (lh.getD t 0) fun i => .install t (.both l i))
  | .install t (.both l h) => some (.writeHome h (.unpin t l h))
  | .unpin t l h => some (.bunpin h (.install t (.drop l h)))
  | .install t (.drop l h) => some (.brelse l (.install t (.last h)))
  | .install t (.last h) => some (.brelse h (.install (t + 1) .start))
  | .erase => some (.erase (.clear .start))
  | .clear .start => some (.bread start fun i => .clear (.held i))
  | .clear (.held i) => some (.goto (.clear (.written i)))
  | .clear (.written i) => some (.brelse i .finish)
  | .finish => some (.finish .idle)

inductive LogPanic where
  | committing
  | tooBig
  | outsideTrans
  | noBuffers
  deriving DecidableEq

/-- What one commit did: the `log_write`s since the one before, and the blocks it
copied to the log and then to their homes. -/
structure Commit where
  recorded : List (OpId × Nat)
  logged : List Nat
  installed : List Nat

/-- The log of log.c and the buffer cache with any processes `P` at work.
`holds` lists the references that `bget` gave out and `active` the processes
between `begin_op` and `end_op`. The fields from `recorded` on are history. -/
structure Group (P : Type) where
  outstanding : Int
  committing : Bool
  lh : List Nat
  cache : Bcache
  pc : P → Lpc
  holds : List (P × Bp)
  halted : Option LogPanic
  nextOp : Nat
  active : List P
  recorded : List (OpId × Nat)
  logged : List Nat
  installed : List Nat
  released : List Nat
  done : List Commit

inductive LogEvent (P : Type) where
  | beginOp (p : P)
  | endOp (p : P)
  | bread (p : P) (b : Nat)
  | brelse (p : P) (i : Bp)
  | logWrite (p : P) (i : Bp)
  | commit (p : P)

namespace Group

variable {P : Type} [DecidableEq P]

def init : Group P where
  outstanding := 0
  committing := false
  lh := []
  cache := .init
  pc := fun _ => .idle
  holds := []
  halted := none
  nextOp := 0
  active := []
  recorded := []
  logged := []
  installed := []
  released := []
  done := []

def goto (m : Group P) (p : P) (c : Lpc) : Group P := { m with pc := Function.update m.pc p c }

def halt (m : Group P) (why : LogPanic) : Group P := { m with halted := some why }

def get (m : Group P) (p : P) (b : Nat) (next : Bp → Lpc) : Group P :=
  match m.cache.bget rootdev b with
  | none => m.halt .noBuffers
  | some (i, c) => { m with cache := c, holds := (p, i) :: m.holds }.goto p (next i)

def put (m : Group P) (p : P) (i : Bp) (next : Lpc) : Group P :=
  { m with cache := m.cache.brelse i, holds := m.holds.erase (p, i) }.goto p next

/-- `begin_op`; none while it sleeps. -/
def beginOp (m : Group P) (p : P) : Option (Group P) :=
  if m.committing then none
  else if m.lh.length + (m.outstanding + 1) * maxopblocks > logblocks then none
  else some ({ m with
    outstanding := m.outstanding + 1
    nextOp := m.nextOp + 1
    active := p :: m.active }.goto p (.inOp ⟨m.done.length, m.nextOp⟩))

def endOp (m : Group P) (p : P) : Group P :=
  let m := { m with outstanding := m.outstanding - 1, active := m.active.erase p }
  if m.committing then m.halt .committing
  else if m.outstanding = 0 then { m with committing := true }.goto p .commit
  else m.goto p .idle

def logWrite (m : Group P) (op : OpId) (i : Bp) : Group P :=
  let b := (m.cache.buf i).blockno
  if logblocks ≤ m.lh.length then m.halt .tooBig
  else if m.outstanding < 1 then m.halt .outsideTrans
  else
    let m := { m with recorded := m.recorded ++ [(op, b)] }
    if b ∈ m.lh then m else { m with lh := m.lh ++ [b], cache := m.cache.bpin i }

def perform (m : Group P) (p : P) : Act → Group P
  | .goto next => m.goto p next
  | .bread b next => m.get p b next
  | .brelse i next => m.put p i next
  | .writeLog h next =>
    { m with logged := m.logged ++ [(m.cache.buf h).blockno] }.goto p next
  | .writeHome h next =>
    { m with installed := m.installed ++ [(m.cache.buf h).blockno] }.goto p next
  | .bunpin h next =>
    { m with
      cache := m.cache.bunpin h
      released := m.released ++ [(m.cache.buf h).blockno] }.goto p next
  | .erase next =>
    { m with
      lh := []
      done := m.done ++ [Commit.mk m.recorded m.logged m.installed]
      recorded := []
      logged := []
      installed := []
      released := [] }.goto p next
  | .finish next => { m with committing := false }.goto p next

/-- One step of one process. Reads may come from anywhere outside a commit;
`log_write` comes from inside an operation that holds the buffer. -/
def step (start : Nat) (m : Group P) (e : LogEvent P) : Option (Group P) :=
  if m.halted.isSome then none
  else match e with
    | .beginOp p => if m.pc p = .idle then m.beginOp p else none
    | .endOp p =>
      match m.pc p with
      | .inOp _ => some (m.endOp p)
      | _ => none
    | .bread p b => if (m.pc p).committing then none else some (m.get p b fun _ => m.pc p)
    | .brelse p i =>
      if (m.pc p).committing = false ∧ (p, i) ∈ m.holds then some (m.put p i (m.pc p)) else none
    | .logWrite p i =>
      match m.pc p with
      | .inOp op => if (p, i) ∈ m.holds then some (m.logWrite op i) else none
      | _ => none
    | .commit p => ((m.pc p).act start m.lh).map (m.perform p)

end Group

end Xv6Filter
