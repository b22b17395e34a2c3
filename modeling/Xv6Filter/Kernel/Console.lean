import Xv6Filter.Kernel.Types
import Xv6Filter.Lib.Fifo
import Xv6Filter.Lib.Run

namespace Xv6Filter
open Lib Function

abbrev inputBufSize : Nat := 128

def ctrl (x : Char) : Byte := x.toUInt8 - '@'.toUInt8

abbrev lineFeed : Byte := '\n'.toUInt8

abbrev delete : Byte := 0x7f

structure Cons where
  buf : Fin inputBufSize → Byte
  r : U32
  w : U32
  e : U32

namespace Cons

def last (c : Cons) : Byte := c.buf (ringPlace inputBufSize (c.e - 1))

def front (c : Cons) : Byte := c.buf (ringPlace inputBufSize c.r)

def killLine : Nat → Cons → Cons
  | 0, c => c
  | fuel + 1, c => if c.e ≠ c.w ∧ c.last ≠ lineFeed then killLine fuel { c with e := c.e - 1 } else c

def put (c : Cons) (ch : Byte) : Cons :=
  { c with buf := update c.buf (ringPlace inputBufSize c.e) ch, e := c.e + 1 }

/-- `consoleintr`, without the echo; true when it wakes the readers. The loop of Control-U has
at most as many turns as there are characters to erase. -/
def intr (c : Cons) (ch : Byte) : Cons × Bool :=
  if ch = ctrl 'P' then (c, false)
  else if ch = ctrl 'U' then (c.killLine (gap c.w c.e), false)
  else if ch = ctrl 'H' ∨ ch = delete then
    if c.e ≠ c.w then ({ c with e := c.e - 1 }, false) else (c, false)
  else if ch ≠ 0 ∧ gap c.r c.e < inputBufSize then
    let ch := if ch = '\r'.toUInt8 then lineFeed else ch
    let c := c.put ch
    if ch = lineFeed ∨ ch = ctrl 'D' ∨ gap c.r c.e = inputBufSize then ({ c with w := c.e }, true)
    else (c, false)
  else (c, false)

end Cons

/-- Where a process is in `consoleread(user_dst, dst, n)`; `target` is the count it was called with. -/
inductive ConsPc where
  | out
  /-- at `while(n > 0)` and `while(cons.r == cons.w)`; at `killed`; about to sleep; in `sleep` -/
  | test (n target : Int)
  | killed (n target : Int)
  | sleep (n target : Int)
  | wait (n target : Int)
  /-- about to take a character -/
  | take (n target : Int)
  deriving DecidableEq

def ConsPc.inside : ConsPc → Bool
  | .out | .wait _ _ => false
  | _ => true

structure ConsSys (ι : Type) where
  cons : Cons
  lock : Option ι
  pc : ι → ConsPc
  asleep : ι → Bool
  killed : ι → Bool

/-- One step. Whether the address that `either_copyout` gets is good comes with it. -/
inductive ConsEvent (ι : Type) where
  /-- a whole `consoleintr` -/
  | intr (ch : Byte)
  /-- `consoleread` is called and gets `cons.lock` -/
  | read (p : ι) (n : I32)
  /-- the holder of `cons.lock` goes on -/
  | go (p : ι) (good : Bool)
  /-- `sleep` returns: a process that was woken gets `cons.lock` back -/
  | resume (p : ι)
  /-- `kkill` finds the process -/
  | kill (p : ι)

namespace ConsSys

variable {ι : Type} [DecidableEq ι]

def init (killed : ι → Bool) : ConsSys ι where
  cons := ⟨fun _ => 0, 0, 0, 0⟩
  lock := none
  pc := fun _ => .out
  asleep := fun _ => false
  killed := killed

def goto (s : ConsSys ι) (p : ι) (c : ConsPc) : ConsSys ι := { s with pc := update s.pc p c }

def setCons (s : ConsSys ι) (c : Cons) : ConsSys ι := { s with cons := c }

def leave (s : ConsSys ι) (p : ι) : ConsSys ι := { s.goto p .out with lock := none }

def popped (s : ConsSys ι) : ConsSys ι := s.setCons { s.cons with r := s.cons.r + 1 }

def unpopped (s : ConsSys ι) : ConsSys ι := s.setCons { s.cons with r := s.cons.r - 1 }

/-- The body of the outer loop of `consoleread` from the point where there is input, with the
state it leaves and the value it returns, if it returns. -/
def takeChar (s : ConsSys ι) (p : ι) (n target : Int) (good : Bool) : ConsSys ι × Option Int :=
  let c := s.cons.front
  let s := s.popped
  if c = ctrl 'D' then
    if n < target then (s.unpopped.leave p, some (target - n)) else (s.leave p, some (target - n))
  else if good = false then (s.leave p, some (target - n))
  else if c = lineFeed then (s.leave p, some (target - (n - 1)))
  else (s.goto p (.test (n - 1) target), none)

def advance (s : ConsSys ι) (p : ι) (good : Bool) : Option (ConsSys ι × Option Int) :=
  match s.pc p with
  | .test n target =>
    if 0 < n then
      if s.cons.r = s.cons.w then some (s.goto p (.killed n target), none)
      else some (s.goto p (.take n target), none)
    else some (s.leave p, some (target - n))
  | .killed n target =>
    if s.killed p then some (s.leave p, some (-1)) else some (s.goto p (.sleep n target), none)
  | .sleep n target =>
    some ({ s.goto p (.wait n target) with lock := none, asleep := update s.asleep p true }, none)
  | .take n target => some (s.takeChar p n target good)
  | .out | .wait _ _ => none

def step (s : ConsSys ι) : ConsEvent ι → Option (ConsSys ι)
  | .intr ch =>
    if s.lock = none then
      let c := s.cons.intr ch
      some { s with cons := c.1, asleep := fun q => if c.2 then false else s.asleep q }
    else none
  | .read p n =>
    if s.lock = none ∧ s.pc p = .out then
      some { s.goto p (.test n.toInt n.toInt) with lock := some p }
    else none
  | .go p good => if s.lock = some p then (s.advance p good).map Prod.fst else none
  | .resume p =>
    match s.pc p with
    | .wait n target =>
      if s.lock = none ∧ s.asleep p = false then some { s.goto p (.test n target) with lock := some p }
      else none
    | _ => none
  | .kill p =>
    some { s with killed := update s.killed p true, asleep := update s.asleep p false }

/-- What a `consoleread` that ends in this step returns, and the count it was called with. -/
def returned (s : ConsSys ι) : ConsEvent ι → Option (Int × Int)
  | .go p good =>
    match s.pc p with
    | .test _ target | .killed _ target | .take _ target =>
      if s.lock = some p then ((s.advance p good).bind Prod.snd).map (target, ·) else none
    | _ => none
  | _ => none

def consumed (s : ConsSys ι) : ConsEvent ι → List Byte
  | .go p _ =>
    match s.pc p with
    | .take n target =>
      if s.lock = some p then
        if s.cons.front = ctrl 'D' ∧ n < target then [] else [s.cons.front]
      else []
    | _ => []
  | _ => []

def delivered (s : ConsSys ι) : ConsEvent ι → List Byte
  | .go p good =>
    match s.pc p with
    | .take _ _ =>
      if s.lock = some p ∧ s.cons.front ≠ ctrl 'D' ∧ good = true then [s.cons.front] else []
    | _ => []
  | _ => []

end ConsSys

/-- What a line editor is told: a key, or that a character of its output was taken. -/
inductive Edit where
  | key (ch : Byte)
  | taken

/-- A line editor: the line being edited, all committed output, and how much of it was taken. -/
structure Editor where
  line : List Byte
  committed : List Byte
  taken : Nat

namespace Editor

def empty : Editor := ⟨[], [], 0⟩

def held (ed : Editor) : Nat := ed.committed.length - ed.taken + ed.line.length

/-- A character goes to the end of the line; a whole line, an end of file or a full editor commits. -/
def insert (ed : Editor) (ch : Byte) : Editor :=
  let ed := { ed with line := ed.line ++ [ch] }
  if ch = lineFeed ∨ ch = ctrl 'D' ∨ ed.held = inputBufSize then
    { ed with line := [], committed := ed.committed ++ ed.line }
  else ed

/-- Backspace and kill-line work on the line alone; carriage return becomes newline; there
is no room in a full editor. -/
def edit (ed : Editor) : Edit → Editor
  | .taken => { ed with taken := ed.taken + 1 }
  | .key ch =>
    if ch = ctrl 'P' ∨ ch = 0 then ed
    else if ch = ctrl 'U' then { ed with line := [] }
    else if ch = ctrl 'H' ∨ ch = delete then { ed with line := ed.line.dropLast }
    else if ed.held < inputBufSize then ed.insert (if ch = '\r'.toUInt8 then lineFeed else ch)
    else ed

def run (edits : List Edit) : Editor := edits.foldl edit empty

end Editor

def ConsSys.edits {ι : Type} [DecidableEq ι] (s : ConsSys ι) (e : ConsEvent ι) : List Edit :=
  match e with
  | .intr ch => if s.lock = none then [.key ch] else []
  | e => (s.consumed e).map fun _ => .taken

end Xv6Filter
