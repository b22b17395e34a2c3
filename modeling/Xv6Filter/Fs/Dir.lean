import Xv6Filter.Fs.Inode
import Xv6Filter.Kernel.Str

namespace Xv6Filter.Fs
open Lib

structure Dirent where
  inum : Nat
  name : List Byte
  deriving DecidableEq

/-- The 16 bytes of a directory entry; `inum` is a `ushort`. -/
def Dirent.encode (de : Dirent) : List Byte :=
  UInt8.ofNat de.inum :: UInt8.ofNat (de.inum / 256) :: de.name

def Dirent.decode (bs : List Byte) : Dirent :=
  ⟨(bs.getD 0 0).toNat + 256 * (bs.getD 1 0).toNat, bs.drop 2⟩

/-- The number of turns of a loop that runs over the entries of a directory. -/
def entryCount (size : Nat) : Nat := (size + (direntSize - 1)) / direntSize

/-- Reading one entry of a directory; the caller's panic on a short read. -/
def readDirent (msg : Panic) (fs : Fs) (dp : Ip) (off : Nat) : Kern (Dirent × Fs) :=
  match fs.readiKernel dp off direntSize with
  | .error why => .error why
  | .ok (r, bs, fs) =>
    if r = (direntSize : Int) then .ok (Dirent.decode bs, fs) else .error (.panic msg)

/-- The loop of `dirlookup` over the `left` entries from `off` on. -/
def dirlookupLoop (dp : Ip) (name : List Byte) : Nat → Nat → Fs → Kern (Option (Ip × Nat) × Fs)
  | 0, _, fs => .ok (none, fs)
  | left + 1, off, fs =>
    match readDirent .dirlookupRead fs dp off with
    | .error why => .error why
    | .ok (de, fs) =>
      if de.inum ≠ 0 ∧ namecmp name de.name = 0 then
        match fs.iget (fs.inode dp).dev de.inum with
        | .error why => .error why
        | .ok (ip, fs) => .ok (some (ip, off), fs)
      else dirlookupLoop dp name left (off + direntSize) fs

/-- `dirlookup`: the inode a name stands for, with the offset of its entry. -/
def dirlookup (fs : Fs) (dp : Ip) (name : List Byte) : Kern (Option (Ip × Nat) × Fs) :=
  if (fs.inode dp).din.type ≠ tDir then .error (.panic .dirlookupNotDir)
  else dirlookupLoop dp name (entryCount (fs.inode dp).din.size) 0 fs

/-- The search of `dirlink` for an unused entry; its offset is the directory's
end when there is none. -/
def freeEntry (dp : Ip) : Nat → Nat → Fs → Kern (Nat × Fs)
  | 0, off, fs => .ok (off, fs)
  | left + 1, off, fs =>
    match readDirent .dirlinkRead fs dp off with
    | .error why => .error why
    | .ok (de, fs) => if de.inum = 0 then .ok (off, fs) else freeEntry dp left (off + direntSize) fs

/-- `dirlink`: write a new entry; false stands for -1. -/
def dirlink (fs : Fs) (dp : Ip) (name : List Byte) (inum : Nat) : Kern (Bool × Fs) := do
  let (found, fs) ← fs.dirlookup dp name
  match found with
  | some (ip, _) =>
    let fs ← fs.iput ip
    pure (false, fs)
  | none =>
    let (off, fs) ← freeEntry dp (entryCount (fs.inode dp).din.size) 0 fs
    let (r, fs) ← fs.writeiKernel dp (Dirent.encode ⟨inum, strncpy name dirsiz⟩) off
    pure (decide (r = (direntSize : Int)), fs)

def isdiremptyLoop (dp : Ip) : Nat → Nat → Fs → Kern (Bool × Fs)
  | 0, _, fs => .ok (true, fs)
  | left + 1, off, fs =>
    match readDirent .isdiremptyRead fs dp off with
    | .error why => .error why
    | .ok (de, fs) =>
      if de.inum ≠ 0 then .ok (false, fs) else isdiremptyLoop dp left (off + direntSize) fs

def isdirempty (fs : Fs) (dp : Ip) : Kern (Bool × Fs) :=
  isdiremptyLoop dp (entryCount ((fs.inode dp).din.size - 2 * direntSize)) (2 * direntSize) fs

def slash : Byte := 47

/-- `skipelem`: the next path element, cut to `dirsiz` bytes, and the rest of the path. -/
def skipelem (path : List Byte) : Option (List Byte × List Byte) :=
  match path.dropWhile (· = slash) with
  | [] => none
  | c :: cs =>
    some (((c :: cs).takeWhile (· ≠ slash)).take dirsiz,
      ((c :: cs).dropWhile (· ≠ slash)).dropWhile (· = slash))

/-- The loop of `namex`. An element takes at least one byte off the path, so the
path's length bounds the number of turns. -/
def namexLoop (parent : Bool) : Nat → Fs → Ip → List Byte → Kern (Option (Ip × List Byte) × Fs)
  | 0, fs, ip, _ => .ok (some (ip, []), fs)
  | rounds + 1, fs, ip, path =>
    match skipelem path with
    | none =>
      if parent then do
        let fs ← fs.iput ip
        pure (none, fs)
      else .ok (some (ip, []), fs)
    | some (name, rest) => do
      let fs ← fs.ilock ip
      if (fs.inode ip).din.type ≠ tDir then do
        let fs ← fs.iunlockput ip
        pure (none, fs)
      else if parent = true ∧ rest = [] then do
        let fs ← fs.iunlock ip
        pure (some (ip, name), fs)
      else do
        let (next, fs) ← fs.dirlookup ip name
        let fs ← fs.iunlockput ip
        match next with
        | none => pure (none, fs)
        | some (next, _) => namexLoop parent rounds fs next rest

/-- `namex`, with the caller's current directory (a null pointer when it has none). -/
def namex (parent : Bool) (fs : Fs) (cwd : Option Ip) (path : List Byte) :
    Kern (Option (Ip × List Byte) × Fs) := do
  let (ip, fs) ← if path.head? = some slash then fs.iget rootdev rootino
    else match cwd with
      | none => throw (.panic .kerneltrap)
      | some cwd => pure (cwd, fs.idup cwd)
  namexLoop parent (path.length + 1) fs ip path

def namei (fs : Fs) (cwd : Option Ip) (path : List Byte) : Kern (Option Ip × Fs) := do
  let (r, fs) ← namex false fs cwd path
  pure (r.map Prod.fst, fs)

def nameiparent (fs : Fs) (cwd : Option Ip) (path : List Byte) :
    Kern (Option (Ip × List Byte) × Fs) :=
  namex true fs cwd path

end Xv6Filter.Fs
