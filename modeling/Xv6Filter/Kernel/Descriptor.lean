import Xv6Filter.Kernel.Proc
import Xv6Filter.Kernel.Sysfile

namespace Xv6Filter
open Lib

/-- A user buffer as the copying functions find it: its bytes, and how many of the `m`
bytes from offset `t` on a copy can move. -/
structure UserBuf where
  byte : Nat → Byte
  reach : Nat → Nat → Nat

namespace UserBuf

def copyin (b : UserBuf) (i : Nat) : Unit → Nat → Nat → Unit × List Byte × Bool :=
  fun _ t m => ((), slice b.byte (i + t) (min m (b.reach (i + t) m)), decide (m ≤ b.reach (i + t) m))

/-- `either_copyout` to the buffer; what it leaves there is the user's. -/
def copyout (b : UserBuf) : Unit → Nat → List Byte → Unit × Bool :=
  fun _ t bs => ((), decide (bs.length ≤ b.reach t bs.length))

/-- `either_copyout` to the buffer, with what it stores there: each byte and its offset. -/
def store (b : UserBuf) : List (Byte × Nat) → Nat → List Byte → List (Byte × Nat) × Bool :=
  fun stored t bs =>
    (stored ++ (bs.take (b.reach t bs.length)).zipIdx t, decide (bs.length ≤ b.reach t bs.length))

end UserBuf

namespace Kernel

def argfd (p : Proc) (fd : I32) : Option (Fin nofile × Fp) :=
  if h : 0 ≤ fd.toInt ∧ fd.toInt.toNat < nofile then
    (p.ofile ⟨fd.toInt.toNat, h.2⟩).map fun f => (⟨fd.toInt.toNat, h.2⟩, f)
  else none

def setOfile (k : Kernel) (i : Slot) (fd : Fin nofile) (f : Option Fp) : Kernel :=
  k.setProc i { k.proc i with ofile := Function.update (k.proc i).ofile fd f }

def sysDup (k : Kernel) (i : Slot) (fd : I32) : Kern (U64 × Kernel) :=
  match argfd (k.proc i) fd with
  | none => .ok (minusOne, k)
  | some (_, f) =>
    match k.fdalloc i f with
    | none => .ok (minusOne, k)
    | some (new, k) =>
      match k.filedup f with
      | .error why => .error why
      | .ok k => .ok (BitVec.ofNat 64 new, k)

def sysClose (k : Kernel) (i : Slot) (fd : I32) : Kern (U64 × Kernel) :=
  match argfd (k.proc i) fd with
  | none => .ok (minusOne, k)
  | some (fd, f) =>
    match (k.setOfile i fd none).fileclose i f with
    | .error why => .error why
    | .ok k => .ok (0, k)

def pipeEnd (f : File) (pi : Nat) (writable : Bool) : File :=
  { f with type := .pipe, readable := !writable, writable := writable, pipe := pi }

def pipealloc (k : Kernel) (i : Slot) (page : Option Nat) : Kern (Option (Fp × Fp) × Kernel) :=
  match k.filealloc with
  | none => .ok (none, k)
  | some (f0, k) =>
    match k.filealloc with
    | none => do
      let k ← k.fileclose i f0
      pure (none, k)
    | some (f1, k) =>
      match page with
      | none => do
        let k ← k.fileclose i f0
        let k ← k.fileclose i f1
        pure (none, k)
      | some pi =>
        let k := { k with pipe := Function.update k.pipe pi (some ⟨true, true⟩) }
        let k := k.setFile f0 (pipeEnd (k.file f0) pi false)
        let k := k.setFile f1 (pipeEnd (k.file f1) pi true)
        .ok (some (f0, f1), k)

def closePipe (k : Kernel) (i : Slot) (rf wf : Fp) : Kern (U64 × Kernel) := do
  let k ← k.fileclose i rf
  let k ← k.fileclose i wf
  pure (minusOne, k)

/-- `sys_pipe`; `copied` tells whether both `copyout` of the descriptors succeed. -/
def sysPipe (k : Kernel) (i : Slot) (page : Option Nat) (copied : Bool) : Kern (U64 × Kernel) := do
  let (ends, k) ← k.pipealloc i page
  match ends with
  | none => pure (minusOne, k)
  | some (rf, wf) =>
    match k.fdalloc i rf with
    | none => k.closePipe i rf wf
    | some (fd0, k) =>
      match k.fdalloc i wf with
      | none => (k.setOfile i fd0 none).closePipe i rf wf
      | some (fd1, k) =>
        if copied then pure (0, k)
        else ((k.setOfile i fd0 none).setOfile i fd1 none).closePipe i rf wf

abbrev maxWrite : Nat := (maxopblocks - 1 - 1 - 2) / 2 * bsize

/-- One transaction of `filewrite`: `n1` bytes of the buffer from offset `i` on. -/
def writeChunk (k : Kernel) (f : Fp) (src : UserBuf) (i n1 : Nat) : Kern (Int × Kernel) := do
  let fs ← k.fs.ilock (k.file f).ip
  let (r, _, fs) ← fs.writei (src.copyin i) () (k.file f).ip (k.file f).off n1
  let file := if 0 < r then { k.file f with off := (k.file f).off + r.toNat } else k.file f
  let fs ← fs.iunlock (k.file f).ip
  pure (r, { k with fs := fs }.setFile f file)

/-- The loop of `filewrite`, with how far it came. A turn that goes on writes at least
one byte, so `n` turns are enough. -/
def filewriteLoop (f : Fp) (src : UserBuf) : Nat → Kernel → Nat → Nat → Kern (Nat × Kernel)
  | 0, k, i, _ => .ok (i, k)
  | rounds + 1, k, i, n =>
    if n ≤ i then .ok (i, k)
    else
      let n1 := min (n - i) maxWrite
      match k.writeChunk f src i n1 with
      | .error why => .error why
      | .ok (r, k) => if r ≠ (n1 : Int) then .ok (i, k) else filewriteLoop f src rounds k (i + n1) n

def filewrite (k : Kernel) (f : Fp) (src : UserBuf) (n : Int) (other : Int) : Kern (Int × Kernel) :=
  if (k.file f).writable = false then .ok (-1, k)
  else match (k.file f).type with
    | .none => .error (.panic .filewrite)
    | .pipe | .device => .ok (other, k)
    | .inode =>
      match filewriteLoop f src n.toNat k 0 n.toNat with
      | .error why => .error why
      | .ok (i, k) => .ok (if (i : Int) = n then n else -1, k)

def fileread (k : Kernel) (f : Fp) (dst : UserBuf) (n : I32) (other : Int) : Kern (Int × Kernel) :=
  if (k.file f).readable = false then .ok (-1, k)
  else match (k.file f).type with
    | .none => .error (.panic .fileread)
    | .pipe | .device => .ok (other, k)
    | .inode => do
      let fs ← k.fs.ilock (k.file f).ip
      let (r, _, fs) ← fs.readi dst.copyout () (k.file f).ip (k.file f).off n.toNat
      let file := if 0 < r then { k.file f with off := (k.file f).off + r.toNat } else k.file f
      let fs ← fs.iunlock (k.file f).ip
      pure (r, { k with fs := fs }.setFile f file)

/-- `fileread` of an inode, with the bytes that it stores in the buffer. -/
def filereadStores (k : Kernel) (f : Fp) (dst : UserBuf) (n : I32) : Kern (Int × List (Byte × Nat) × Kernel) := do
  let fs ← k.fs.ilock (k.file f).ip
  let (r, stored, fs) ← fs.readi dst.store [] (k.file f).ip (k.file f).off n.toNat
  let file := if 0 < r then { k.file f with off := (k.file f).off + r.toNat } else k.file f
  let fs ← fs.iunlock (k.file f).ip
  pure (r, stored, { k with fs := fs }.setFile f file)

def filestat (k : Kernel) (f : Fp) (copied : Bool) : Kern (Int × Kernel) :=
  match (k.file f).type with
  | .none | .pipe => .ok (-1, k)
  | .inode | .device => do
    let fs ← k.fs.ilock (k.file f).ip
    let fs ← fs.iunlock (k.file f).ip
    pure (if copied then 0 else -1, { k with fs := fs })

def onFile (k : Kernel) (i : Slot) (fd : I32) (op : Kernel → Fp → Kern (Int × Kernel)) :
    Kern (U64 × Kernel) :=
  match argfd (k.proc i) fd with
  | none => .ok (minusOne, k)
  | some (_, f) =>
    match op k f with
    | .error why => .error why
    | .ok (r, k) => .ok (BitVec.ofInt 64 r, k)

end Kernel

end Xv6Filter
