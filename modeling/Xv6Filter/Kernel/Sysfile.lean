import Xv6Filter.Kernel.File
import Xv6Filter.Kernel.Vm
import Xv6Filter.Fs.Dir

namespace Xv6Filter

abbrev oRdonly : I32 := 0x000
abbrev oWronly : I32 := 0x001
abbrev oRdwr : I32 := 0x002
abbrev oCreate : I32 := 0x200
abbrev oTrunc : I32 := 0x400

def dot : List Byte := bytes ['.']
def dotdot : List Byte := bytes ['.', '.']

namespace Fs

/-- The directory entries that `create` makes; false when one cannot be written. -/
def createLinks (fs : Fs) (dp ip : Ip) (name : List Byte) (type : Short) : Kern (Bool × Fs) := do
  let (ok, fs) ← if type = tDir then do
      let (ok, fs) ← fs.dirlink ip dot (fs.inode ip).inum
      if ok then fs.dirlink ip dotdot (fs.inode dp).inum else pure (false, fs)
    else pure (true, fs)
  if ok then fs.dirlink dp name (fs.inode ip).inum else pure (false, fs)

/-- The half of `create` that makes a new inode in the locked directory `dp`. -/
def createNew (fs : Fs) (dp : Ip) (name : List Byte) (type major minor : Short) :
    Kern (Option Ip × Fs) := do
  let (new, fs) ← fs.ialloc (fs.inode dp).dev type
  match new with
  | none =>
    let fs ← fs.iunlockput dp
    pure (none, fs)
  | some ip =>
    let fs ← fs.ilock ip
    let d := (fs.inode ip).din
    let fs := (fs.setDin ip { d with major := major, minor := minor, nlink := 1 }).iupdate ip
    let (ok, fs) ← fs.createLinks dp ip name type
    if ok then
      let d := (fs.inode dp).din
      let fs := if type = tDir then (fs.setDin dp { d with nlink := d.nlink + 1 }).iupdate dp else fs
      let fs ← fs.iunlockput dp
      pure (some ip, fs)
    else
      -- something went wrong: de-allocate the inode
      let fs := (fs.setDin ip { (fs.inode ip).din with nlink := 0 }).iupdate ip
      let fs ← fs.iunlockput ip
      let fs ← fs.iunlockput dp
      pure (none, fs)

def create (fs : Fs) (cwd : Option Ip) (path : List Byte) (type major minor : Short) :
    Kern (Option Ip × Fs) := do
  let (parent, fs) ← fs.nameiparent cwd path
  match parent with
  | none => pure (none, fs)
  | some (dp, name) =>
    let fs ← fs.ilock dp
    let (found, fs) ← fs.dirlookup dp name
    match found with
    | some (ip, _) =>
      let fs ← fs.iunlockput dp
      let fs ← fs.ilock ip
      let t := (fs.inode ip).din.type
      if type = tFile ∧ (t = tFile ∨ t = tDevice) then pure (some ip, fs)
      else
        let fs ← fs.iunlockput ip
        pure (none, fs)
    | none => fs.createNew dp name type major minor

/-- The part of `sys_open` that finds the inode: created, or looked up and locked. -/
def openInode (fs : Fs) (cwd : Option Ip) (path : List Byte) (omode : I32) : Kern (Option Ip × Fs) :=
  if omode &&& oCreate ≠ 0 then fs.create cwd path tFile 0 0
  else do
    let (found, fs) ← fs.namei cwd path
    match found with
    | none => pure (none, fs)
    | some ip =>
      let fs ← fs.ilock ip
      if (fs.inode ip).din.type = tDir ∧ omode ≠ oRdonly then
        let fs ← fs.iunlockput ip
        pure (none, fs)
      else pure (some ip, fs)

end Fs

namespace Kernel

/-- `f->type`, `f->major` and `f->off` by the kind of inode, then `f->ip` and the modes. -/
def openedFile (f : File) (ip : Ip) (d : Dinode) (omode : I32) : File :=
  let f := if d.type = tDevice then { f with type := .device, major := d.major }
    else { f with type := .inode, off := 0 }
  { f with
    ip := ip
    readable := decide (omode &&& oWronly = 0)
    writable := decide (omode &&& oWronly ≠ 0 ∨ omode &&& oRdwr ≠ 0) }

/-- The end of `sys_open`, with the inode locked: install a file and a descriptor. -/
def openInstall (k : Kernel) (i : Slot) (ip : Ip) (omode : I32) : Kern (U64 × Kernel) := do
  let d := (k.fs.inode ip).din
  if d.type = tDevice ∧ (d.major.toInt < 0 ∨ (ndev : Int) ≤ d.major.toInt) then
    let fs ← k.fs.iunlockput ip
    pure (minusOne, { k with fs := fs })
  else match k.filealloc with
    | none =>
      let fs ← k.fs.iunlockput ip
      pure (minusOne, { k with fs := fs })
    | some (f, k) =>
      match k.fdalloc i f with
      | none =>
        let k ← k.fileclose i f
        let fs ← k.fs.iunlockput ip
        pure (minusOne, { k with fs := fs })
      | some (fd, k) =>
        let k := k.setFile f (openedFile (k.file f) ip d omode)
        let fs ← if omode &&& oTrunc ≠ 0 ∧ d.type = tFile then k.fs.itrunc ip else pure k.fs
        let fs ← fs.iunlock ip
        pure (BitVec.ofNat 64 fd, { k with fs := fs })

def openPath (k : Kernel) (i : Slot) (path : List Byte) (omode : I32) : Kern (U64 × Kernel) :=
  match k.fs.openInode (k.proc i).cwd path omode with
  | .error why => .error why
  | .ok (none, fs) => .ok (minusOne, { k with fs := fs })
  | .ok (some ip, fs) => openInstall { k with fs := fs } i ip omode

def toRes : Kern (U64 × Kernel) → Res
  | .error why => .stop why
  | .ok (v, k) => .ret v k

def sysOpen (i : Slot) (k : Kernel) : Res :=
  let p := k.proc i
  match fetchstr p p.trapframe.a0 maxpath with
  | none => .ret minusOne k
  | some path => toRes (k.openPath i path (argint p.trapframe.a1))

/-- `sys_unlink` inside its transaction; false stands for -1. -/
def unlinkPath (fs : Fs) (cwd : Option Ip) (path : List Byte) : Kern (Bool × Fs) := do
  let (parent, fs) ← fs.nameiparent cwd path
  match parent with
  | none => pure (false, fs)
  | some (dp, name) =>
    let fs ← fs.ilock dp
    if namecmp name dot = 0 ∨ namecmp name dotdot = 0 then
      let fs ← fs.iunlockput dp
      pure (false, fs)
    else
      let (found, fs) ← fs.dirlookup dp name
      match found with
      | none =>
        let fs ← fs.iunlockput dp
        pure (false, fs)
      | some (ip, off) =>
        let fs ← fs.ilock ip
        let d := (fs.inode ip).din
        if d.nlink.toInt < 1 then throw (.panic .unlinkNlink)
        let (empty, fs) ← if d.type = tDir then fs.isdirempty ip else pure (true, fs)
        if empty then
          let (r, fs) ← fs.writeiKernel dp (List.replicate direntSize 0) off
          if r ≠ (direntSize : Int) then throw (.panic .unlinkWritei)
          let dd := (fs.inode dp).din
          let fs := if d.type = tDir then (fs.setDin dp { dd with nlink := dd.nlink - 1 }).iupdate dp
            else fs
          let fs ← fs.iunlockput dp
          let d := (fs.inode ip).din
          let fs := (fs.setDin ip { d with nlink := d.nlink - 1 }).iupdate ip
          let fs ← fs.iunlockput ip
          pure (true, fs)
        else
          let fs ← fs.iunlockput ip
          let fs ← fs.iunlockput dp
          pure (false, fs)

def sysUnlink (i : Slot) (k : Kernel) : Res :=
  let p := k.proc i
  match fetchstr p p.trapframe.a0 maxpath with
  | none => .ret minusOne k
  | some path =>
    match unlinkPath k.fs p.cwd path with
    | .error why => .stop why
    | .ok (done, fs) => .ret (if done then 0 else minusOne) { k with fs := fs }

end Kernel

end Xv6Filter
