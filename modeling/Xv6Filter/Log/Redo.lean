import Xv6Filter.Log.Device

namespace Xv6Filter
open Lib

def putBlocks (blk : Block) : Nat → List Nat → Block
  | _, [] => blk
  | i, b :: bs => putBlocks (setWord blk (i + 1) b) (i + 1) bs

/-- What `write_head` makes of the header block: the count, then the block numbers. -/
def putHead (blk : Block) (lh : List Nat) : Block :=
  putBlocks (setWord blk 0 lh.length) 0 lh

/-- What `read_head` copies from the header block. The count is an `int`: a
negative one copies nothing, and one above `logblocks` runs over `log.lh.block`. -/
def getHead (blk : Block) : Option (List Nat) :=
  let n := (BitVec.ofNat 32 (word blk 0)).toInt
  if n > logblocks then none
  else some ((List.range n.toNat).map fun i => word blk (i + 1))

namespace Dev

variable (lru : Lru) (start : Nat)

def slot (start tail : Nat) : Nat := start + tail + 1

def writeLog : Nat → List Nat → Dev → Dev
  | _, [], d => d
  | tail, b :: bs, d =>
    let (_, d) := d.bread lru (slot start tail)
    let (src, d) := d.bread lru b
    let d := (d.fill (slot start tail) src).bwrite (slot start tail)
    writeLog (tail + 1) bs ((d.brelse b).brelse (slot start tail))

def installTrans (recovering : Bool) : Nat → List Nat → Dev → Dev
  | _, [], d => d
  | tail, b :: bs, d =>
    let (src, d) := d.bread lru (slot start tail)
    let (_, d) := d.bread lru b
    let d := (d.fill b src).bwrite b
    let d := if recovering then d else d.bunpin b
    installTrans recovering (tail + 1) bs ((d.brelse (slot start tail)).brelse b)

def readHead (d : Dev) : Option (List Nat × Dev) :=
  let (blk, d) := d.bread lru start
  (getHead blk).map fun lh => (lh, d.brelse start)

def writeHead (lh : List Nat) (d : Dev) : Dev :=
  let (blk, d) := d.bread lru start
  ((d.fill start (putHead blk lh)).bwrite start).brelse start

/-- `recover_from_log`; none when the header runs over `log.lh.block`. -/
def recoverFromLog (d : Dev) : Option Dev :=
  (d.readHead lru start).map fun (lh, d) =>
    (installTrans lru start true 0 lh d).writeHead lru start []

def commit (lh : List Nat) (d : Dev) : Dev :=
  if 0 < lh.length then
    let d := d.writeLog lru start 0 lh
    let d := d.writeHead lru start lh
    let d := d.installTrans lru start false 0 lh
    d.writeHead lru start []
  else d

end Dev

end Xv6Filter
