import Xv6Filter.Kernel.Types
import Xv6Filter.Lib.Bytes
import Mathlib.Tactic.Simps.Basic

namespace Xv6Filter

open Function

/-- `struct superblock`, as far as the kernel reads it after `fsinit`. -/
structure Superblock where
  size : Nat
  ninodes : Nat
  nlog : Nat
  logstart : Nat
  inodestart : Nat
  bmapstart : Nat
  deriving DecidableEq

abbrev tFree : Short := 0
abbrev tDir : Short := 1
abbrev tFile : Short := 2
abbrev tDevice : Short := 3

structure Dinode where
  type : Short
  major : Short
  minor : Short
  nlink : Short
  size : Nat
  addrs : Nat → Nat

def Dinode.zero : Dinode := ⟨0, 0, 0, 0, 0, fun _ => 0⟩

/-- `struct inode`: a table entry with its copy of the disk inode. -/
structure Inode where
  dev : Nat
  inum : Nat
  ref : Int
  locked : Bool
  valid : Bool
  din : Dinode

/-- The file system as its own code sees it through the buffer cache. Inode,
bitmap and data blocks are kept by kind; `logged` lists the block numbers given
to `log_write` since the transaction began. -/
structure Fs where
  sb : Superblock
  used : Nat → Bool
  dinode : Nat → Dinode
  data : Nat → Block
  inode : Ip → Inode
  logged : List Nat

namespace Fs

def iblock (fs : Fs) (inum : Nat) : Nat := inum / ipb + fs.sb.inodestart
def bblock (fs : Fs) (b : Nat) : Nat := b / bpb + fs.sb.bmapstart

def logWrite (fs : Fs) (b : Nat) : Fs :=
  if b ∈ fs.logged then fs else { fs with logged := fs.logged ++ [b] }

@[simps -fullyApplied sb used dinode data inode]
def setUsed (fs : Fs) (b : Nat) (v : Bool) : Fs :=
  { fs with used := update fs.used b v }

@[simps -fullyApplied sb used dinode data inode]
def setData (fs : Fs) (b : Nat) (blk : Block) : Fs :=
  { fs with data := update fs.data b blk }

@[simps -fullyApplied sb used dinode data inode]
def setDinode (fs : Fs) (inum : Nat) (d : Dinode) : Fs :=
  { fs with dinode := update fs.dinode inum d }

@[simps -fullyApplied sb used dinode data inode]
def setInode (fs : Fs) (ip : Ip) (i : Inode) : Fs :=
  { fs with inode := update fs.inode ip i }

def setDin (fs : Fs) (ip : Ip) (d : Dinode) : Fs :=
  fs.setInode ip { fs.inode ip with din := d }

/-- What survives a reboot: the bitmap, the inodes and the data blocks. -/
def persistent (fs : Fs) : (Nat → Bool) × (Nat → Dinode) × (Nat → Block) :=
  (fs.used, fs.dinode, fs.data)

section Fields

variable (fs : Fs)

@[simp] theorem logWrite_sb (b : Nat) : (fs.logWrite b).sb = fs.sb := by
  unfold logWrite; split <;> rfl

@[simp] theorem logWrite_used (b : Nat) : (fs.logWrite b).used = fs.used := by
  unfold logWrite; split <;> rfl

@[simp] theorem logWrite_dinode (b : Nat) : (fs.logWrite b).dinode = fs.dinode := by
  unfold logWrite; split <;> rfl

@[simp] theorem logWrite_data (b : Nat) : (fs.logWrite b).data = fs.data := by
  unfold logWrite; split <;> rfl

@[simp] theorem logWrite_inode (b : Nat) : (fs.logWrite b).inode = fs.inode := by
  unfold logWrite; split <;> rfl

@[simp] theorem setDin_sb (ip : Ip) (d : Dinode) : (fs.setDin ip d).sb = fs.sb := rfl
@[simp] theorem setDin_used (ip : Ip) (d : Dinode) : (fs.setDin ip d).used = fs.used := rfl
@[simp] theorem setDin_dinode (ip : Ip) (d : Dinode) : (fs.setDin ip d).dinode = fs.dinode := rfl
@[simp] theorem setDin_data (ip : Ip) (d : Dinode) : (fs.setDin ip d).data = fs.data := rfl
@[simp] theorem setDin_inode (ip : Ip) (d : Dinode) :
    (fs.setDin ip d).inode = update fs.inode ip { fs.inode ip with din := d } := rfl

end Fields

end Fs

end Xv6Filter
