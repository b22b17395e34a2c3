import Xv6Filter.Fs.Dir
import Xv6Filter.Fs.Layout

namespace Xv6Filter.Mkfs
open Lib Function

/-- mkfs.c runs on a little-endian host, where `xshort` and `xint` change nothing. -/
abbrev ninodes : Nat := 200
abbrev fssize : Nat := 2000
abbrev nbitmap : Nat := fssize / bpb + 1
abbrev ninodeblocks : Nat := ninodes / ipb + 1
abbrev nlog : Nat := logblocks + 1
abbrev nmeta : Nat := 2 + nlog + ninodeblocks + nbitmap
abbrev nblocks : Nat := fssize - nmeta

def sbWords : List Nat :=
  [fsmagic, fssize, nblocks, ninodes, nlog, 2, 2 + nlog, 2 + nlog + ninodeblocks]

abbrev inodestart : Nat := 2 + nlog
abbrev bmapstart : Nat := 2 + nlog + ninodeblocks

/-- The image file, of `len` sectors so far, and the two counters. -/
structure Host where
  sect : Nat → Block
  len : Nat
  freeinode : Nat
  freeblock : Nat

namespace Host

/-- `rsect`: a read beyond the end of the file is short, and mkfs dies. -/
def rsect (h : Host) (sec : Nat) : Option Block :=
  if sec < h.len then some (h.sect sec) else none

/-- `wsect`: a write beyond the end makes the file longer. -/
def wsect (h : Host) (sec : Nat) (buf : Block) : Host :=
  { h with sect := update h.sect sec buf, len := max h.len (sec + 1) }

def iblock (inum : Nat) : Nat := inum / ipb + inodestart

def winode (h : Host) (inum : Nat) (d : Dinode) : Option Host := do
  let buf ← h.rsect (iblock inum)
  pure (h.wsect (iblock inum) (Dinode.put buf (inum % ipb) d))

def rinode (h : Host) (inum : Nat) : Option Dinode := do
  let buf ← h.rsect (iblock inum)
  pure (Dinode.get buf (inum % ipb))

def ialloc (h : Host) (type : Short) : Option (Nat × Host) := do
  let inum := h.freeinode
  let h ← { h with freeinode := inum + 1 }.winode inum { Dinode.zero with type := type, nlink := 1 }
  pure (inum, h)

def allocAddr (h : Host) (din : Dinode) (i : Nat) : Dinode × Host :=
  if din.addrs i = 0 then
    ({ din with addrs := update din.addrs i h.freeblock }, { h with freeblock := h.freeblock + 1 })
  else (din, h)

/-- The entry `j` of the indirect block at `addr`, with a new block if it is 0. -/
def allocEntry (h : Host) (addr j : Nat) : Option (Nat × Host) := do
  let indirect ← h.rsect addr
  if word indirect j = 0 then
    pure (h.freeblock, { h with freeblock := h.freeblock + 1 }.wsect addr (setWord indirect j h.freeblock))
  else pure (word indirect j, h)

/-- The sector of block `fbn` of the file, the first half of a turn of `iappend`. -/
def blockFor (h : Host) (din : Dinode) (fbn : Nat) : Option (Nat × Dinode × Host) :=
  if fbn < ndirect then
    let (din, h) := h.allocAddr din fbn
    some (din.addrs fbn, din, h)
  else do
    let (din, h) := h.allocAddr din ndirect
    let (x, h) ← h.allocEntry (din.addrs ndirect) (fbn - ndirect)
    pure (x, din, h)

def iappendLoop : Nat → Host → Dinode → Nat → List Byte → Option (Host × Dinode × Nat)
  | 0, h, din, off, _ => some (h, din, off)
  | turns + 1, h, din, off, p =>
    if p.length = 0 then some (h, din, off)
    else if off / bsize < maxfile then do
      let (x, din, h) ← h.blockFor din (off / bsize)
      let n1 := min p.length ((off / bsize + 1) * bsize - off)
      let buf ← h.rsect x
      iappendLoop turns (h.wsect x (splice buf (off - off / bsize * bsize) (p.take n1))) din (off + n1)
        (p.drop n1)
    else none

def iappend (h : Host) (inum : Nat) (p : List Byte) : Option Host := do
  let din ← h.rinode inum
  let (h, din, off) ← iappendLoop p.length h din din.size p
  h.winode inum { din with size := off }

def bitmap (used : Nat) : Block :=
  (List.range used).foldl
    (fun buf i => update buf (i / 8) (buf (i / 8) ||| UInt8.ofNat (1 <<< (i % 8)))) fun _ => 0

def balloc (h : Host) (used : Nat) : Option Host :=
  if used < bpb then some (h.wsect bmapstart (bitmap used)) else none

end Host

def dirent (inum : Nat) (name : List Byte) : List Byte :=
  [UInt8.ofNat inum, UInt8.ofNat (inum / 256)] ++ strncpy name dirsiz

/-- An input file: its argument, a C string, and what the calls of `read` give until the one
that gives 0. -/
structure Input where
  path : List Byte
  reads : List (List Byte)
  no_nul : 0 ∉ path
  some_bytes : ∀ c ∈ reads, c ≠ [] ∧ c.length ≤ bsize

def Input.bytes (i : Input) : List Byte := i.reads.flatten

def stripUser (path : List Byte) : List Byte :=
  if strncmp path (bytes ['u', 's', 'e', 'r', '/']) 5 = 0 then path.drop 5 else path

def skipUnderscore (name : List Byte) : List Byte :=
  if name.headD 0 = 95 then name.drop 1 else name

def shortname (path : List Byte) : List Byte := skipUnderscore (stripUser path)

namespace Host

def addFile (h : Host) (i : Input) : Option Host :=
  if Fs.slash ∈ stripUser i.path then none
  else if dirsiz < (shortname i.path).length then none
  else do
    let (inum, h) ← h.ialloc tFile
    let h ← h.iappend rootino (dirent inum (shortname i.path))
    i.reads.foldlM (fun h c => h.iappend inum c) h

def fixRoot (h : Host) : Option Host := do
  let din ← h.rinode rootino
  h.winode rootino { din with size := (din.size / bsize + 1) * bsize }

def blank : Host :=
  Host.wsect ⟨fun _ _ => 0, fssize, 1, nmeta⟩ 1
    (splice (fun _ => 0) 0 (sbWords.flatMap fun w => (List.range 4).map fun k => UInt8.ofNat (w / 256 ^ k)))

def root : Option Host := do
  let (inum, h) ← blank.ialloc tDir
  if inum = rootino then
    let h ← h.iappend inum (dirent inum (bytes ['.']))
    h.iappend inum (dirent inum (bytes ['.', '.']))
  else none

end Host

def mkfs (inputs : List Input) : Option Host := do
  let h ← Host.root
  let h ← inputs.foldlM Host.addFile h
  let h ← h.fixRoot
  h.balloc h.freeblock

end Xv6Filter.Mkfs
