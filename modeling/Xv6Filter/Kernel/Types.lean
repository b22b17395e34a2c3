import Mathlib.Algebra.GroupWithZero.Nat
import Mathlib.Logic.Function.Basic

namespace Xv6Filter

abbrev nproc : Nat := 64
abbrev nofile : Nat := 16
abbrev nfile : Nat := 100
abbrev ninode : Nat := 50
abbrev ndev : Nat := 10
abbrev rootdev : Nat := 1
abbrev rootino : Nat := 1
abbrev maxpath : Nat := 128
abbrev maxopblocks : Nat := 10
abbrev logblocks : Nat := maxopblocks * 3
abbrev nbuf : Nat := maxopblocks * 3
abbrev bsize : Nat := 1024
abbrev ndirect : Nat := 12
abbrev nindirect : Nat := bsize / 4
abbrev maxfile : Nat := ndirect + nindirect
abbrev ipb : Nat := bsize / 64
abbrev bpb : Nat := bsize * 8
abbrev dirsiz : Nat := 14
abbrev direntSize : Nat := 16
abbrev pgsize : Nat := 4096
abbrev maxva : Nat := 2 ^ 38

/-- The C types `uint64`, `uint`, `int`, `short` and `char`. Signed readings go through `toInt`. -/
abbrev U64 := BitVec 64
abbrev U32 := BitVec 32
abbrev I32 := BitVec 32
abbrev Short := BitVec 16
abbrev Byte := UInt8

/-- One disk block or buffer: the byte at each offset below `bsize`. -/
abbrev Block := Nat → Byte

def bytes (cs : List Char) : List Byte := cs.map Char.toUInt8

/-- Slots of `proc[NPROC]`, entries of `itable.inode[NINODE]` and of `ftable.file[NFILE]`. -/
abbrev Slot := Fin nproc
abbrev Ip := Fin ninode
abbrev Fp := Fin nfile

instance : NeZero nproc := ⟨by decide⟩
instance : NeZero ninode := ⟨by decide⟩
instance : NeZero nfile := ⟨by decide⟩
instance : NeZero nofile := ⟨by decide⟩
instance : NeZero nbuf := ⟨by decide⟩

inductive Panic where
  | freeingFreeBlock
  | igetNoInodes
  | ilock
  | ilockNoType
  | iunlock
  | bmapOutOfRange
  | dirlookupNotDir
  | dirlookupRead
  | dirlinkRead
  | isdiremptyRead
  | unlinkNlink
  | unlinkWritei
  | filedup
  | fileclose
  | fileread
  | filewrite
  | initExiting
  | kerneltrap
  deriving DecidableEq, Repr

/-- Why a kernel function does not return to its caller: a panic, a sleep on a
lock that nobody else is there to release, or an index outside a local array. -/
inductive Stop where
  | panic (msg : Panic)
  | blocked
  | overrun
  deriving DecidableEq, Repr

abbrev Kern := Except Stop

inductive ProcState where
  | unused | used | sleeping | runnable | running | zombie
  deriving DecidableEq, Repr

/-- What a process can sleep on: a process (in `kwait`), the clock, the two ends
of a pipe, or any other address. -/
inductive Chan where
  | proc (i : Slot)
  | ticks
  | nread (pi : Nat)
  | nwrite (pi : Nat)
  | addr (n : Nat)
  deriving DecidableEq, Repr

/-- The saved user registers that the kernel reads or writes by name. -/
structure Trapframe where
  epc : U64
  sp : U64
  a0 : U64
  a1 : U64
  a2 : U64
  a3 : U64
  a4 : U64
  a5 : U64
  a7 : U64
  deriving DecidableEq

/-- A leaf page-table entry: the page it maps and its permission bits. -/
structure Pte where
  frame : Nat → Byte
  r : Bool
  w : Bool
  x : Bool
  u : Bool

/-- A user page table as the finite map it implements, from virtual page number to leaf. -/
abbrev PageTable := Nat → Option Pte

structure Proc where
  state : ProcState
  chan : Option Chan
  killed : I32
  xstate : I32
  pid : I32
  parent : Option Slot
  sz : U64
  pagetable : PageTable
  trapframe : Trapframe
  ofile : Fin nofile → Option Fp
  cwd : Option Ip
  syscallMask : U64
  name : List Byte
  childSyscallMask : U64
  auditEnabled : I32
  strictMode : I32

end Xv6Filter
