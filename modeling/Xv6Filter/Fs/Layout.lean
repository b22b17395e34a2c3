import Xv6Filter.Fs.Inode

namespace Xv6Filter
open Lib

abbrev fsmagic : Nat := 0x10203040

namespace Dinode

/-- Word `w` of a `struct dinode`: two shorts in each of the first two, then the size and the
addresses. -/
def toWord (d : Dinode) (w : Nat) : Nat :=
  if w = 0 then d.type.toNat + 65536 * d.major.toNat
  else if w = 1 then d.minor.toNat + 65536 * d.nlink.toNat
  else if w = 2 then d.size
  else d.addrs (w - 3)

def get (b : Block) (i : Nat) : Dinode where
  type := BitVec.ofNat 16 (word b (16 * i))
  major := BitVec.ofNat 16 (word b (16 * i) / 65536)
  minor := BitVec.ofNat 16 (word b (16 * i + 1))
  nlink := BitVec.ofNat 16 (word b (16 * i + 1) / 65536)
  size := word b (16 * i + 2)
  addrs := fun j => if j ≤ ndirect then word b (16 * i + 3 + j) else 0

def put (b : Block) (i : Nat) (d : Dinode) : Block :=
  fun k => if k / 64 = i then UInt8.ofNat (d.toWord (k % 64 / 4) / 256 ^ (k % 4)) else b k

end Dinode

/-- `readsb`: the words of block 1 after the magic number, without `nblocks`. -/
def Superblock.get (b : Block) : Superblock :=
  ⟨word b 1, word b 3, word b 4, word b 5, word b 6, word b 7⟩

namespace Fs

def bitmapBit (img : Nat → Block) (sb : Superblock) (b : Nat) : Bool :=
  (img (b / bpb + sb.bmapstart) (b % bpb / 8)).toNat.testBit (b % bpb % 8)

/-- Inode `n` in the blocks before the bitmap; there are none beyond. -/
def diskInode (img : Nat → Block) (sb : Superblock) (n : Nat) : Dinode :=
  if n / ipb + sb.inodestart < sb.bmapstart then Dinode.get (img (n / ipb + sb.inodestart)) (n % ipb)
  else .zero

def ofImage (img : Nat → Block) : Fs where
  sb := .get (img 1)
  used := bitmapBit img (.get (img 1))
  dinode := diskInode img (.get (img 1))
  data := img
  inode := fun _ => ⟨0, 0, 0, false, false, .zero⟩
  logged := []

end Fs

end Xv6Filter
