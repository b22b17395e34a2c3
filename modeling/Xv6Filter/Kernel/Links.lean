import Xv6Filter.Kernel.Sysfile

namespace Xv6Filter

namespace Fs

/-- `sys_link` from its second walk on: the entry for the inode `ip` at the path `new`. -/
def linkInto (fs : Fs) (cwd : Option Ip) (ip : Ip) (new : List Byte) : Kern (Bool × Fs) := do
  let (parent, fs) ← fs.nameiparent cwd new
  match parent with
  | none => pure (false, fs)
  | some (dp, name) =>
    let fs ← fs.ilock dp
    if (fs.inode dp).dev ≠ (fs.inode ip).dev then
      let fs ← fs.iunlockput dp
      pure (false, fs)
    else
      let (ok, fs) ← fs.dirlink dp name (fs.inode ip).inum
      let fs ← fs.iunlockput dp
      pure (ok, fs)

/-- `sys_link` inside its transaction; false stands for -1. -/
def linkPath (fs : Fs) (cwd : Option Ip) (old new : List Byte) : Kern (Bool × Fs) := do
  let (found, fs) ← fs.namei cwd old
  match found with
  | none => pure (false, fs)
  | some ip =>
    let fs ← fs.ilock ip
    let d := (fs.inode ip).din
    if d.type = tDir then
      let fs ← fs.iunlockput ip
      pure (false, fs)
    else
      let fs := (fs.setDin ip { d with nlink := d.nlink + 1 }).iupdate ip
      let fs ← fs.iunlock ip
      let (ok, fs) ← fs.linkInto cwd ip new
      if ok then
        let fs ← fs.iput ip
        pure (true, fs)
      else
        -- bad:
        let fs ← fs.ilock ip
        let d := (fs.inode ip).din
        let fs := (fs.setDin ip { d with nlink := d.nlink - 1 }).iupdate ip
        let fs ← fs.iunlockput ip
        pure (false, fs)

/-- The transaction of `sys_mkdir` and `sys_mknod`; false stands for -1. -/
def makeNode (fs : Fs) (cwd : Option Ip) (path : List Byte) (type major minor : Short) :
    Kern (Bool × Fs) := do
  let (new, fs) ← fs.create cwd path type major minor
  match new with
  | none => pure (false, fs)
  | some ip =>
    let fs ← fs.iunlockput ip
    pure (true, fs)

def mkdirPath (fs : Fs) (cwd : Option Ip) (path : List Byte) : Kern (Bool × Fs) :=
  fs.makeNode cwd path tDir 0 0

def mknodPath (fs : Fs) (cwd : Option Ip) (path : List Byte) (major minor : I32) : Kern (Bool × Fs) :=
  fs.makeNode cwd path tDevice (major.setWidth 16) (minor.setWidth 16)

/-- `sys_chdir` inside its transaction: the new directory, or none for -1. -/
def chdirPath (fs : Fs) (cwd : Option Ip) (path : List Byte) : Kern (Option Ip × Fs) := do
  let (found, fs) ← fs.namei cwd path
  match found with
  | none => pure (none, fs)
  | some ip =>
    let fs ← fs.ilock ip
    if (fs.inode ip).din.type ≠ tDir then
      let fs ← fs.iunlockput ip
      pure (none, fs)
    else
      let fs ← fs.iunlock ip
      match cwd with
      | none => throw (.panic .kerneltrap)
      | some cwd =>
        let fs ← fs.iput cwd
        pure (some ip, fs)

/-- One turn of `ireclaim`: an inode without links that was left behind goes away. -/
def ireclaimStep (fs : Fs) (inum : Nat) : Kern Fs :=
  if (fs.dinode inum).type ≠ tFree ∧ (fs.dinode inum).nlink = 0 then do
    let (ip, fs) ← fs.iget rootdev inum
    let fs ← fs.ilock ip
    let fs ← fs.iunlock ip
    fs.iput ip
  else .ok fs

end Fs

namespace Kernel

def sysChdir (k : Kernel) (i : Slot) (path : List Byte) : Kern (U64 × Kernel) :=
  match k.fs.chdirPath (k.proc i).cwd path with
  | .error why => .error why
  | .ok (none, fs) => .ok (minusOne, { k with fs := fs })
  | .ok (some ip, fs) => .ok (0, { k with fs := fs }.setProc i { k.proc i with cwd := some ip })

end Kernel

end Xv6Filter
