import Xv6Filter.Kernel.Audit
import Xv6Filter.Kernel.Exec
import Xv6Filter.Kernel.Lifecycle
import Xv6Filter.Kernel.Links
import Xv6Filter.Lib.Run

namespace Xv6Filter

/-- A system call that works on files, directories or processes, with the arguments the
kernel fetched. A path is `none` when `argstr` fails on it; `copied` tells whether results
can be copied out; `other` is the answer of a pipe or a device. -/
inductive Call where
  | opens (path : Option (List Byte)) (omode : I32)
  | dup (fd : I32)
  | close (fd : I32)
  | pipe (page : Option Nat) (copied : Bool)
  | read (fd : I32) (dst : UserBuf) (n : I32) (other : Int)
  | write (fd : I32) (src : UserBuf) (n : I32) (other : Int)
  | fstat (fd : I32) (copied : Bool)
  | link (paths : Option (List Byte × List Byte))
  | unlink (path : Option (List Byte))
  | mkdir (path : Option (List Byte))
  | mknod (path : Option (List Byte)) (major minor : I32)
  | chdir (path : Option (List Byte))
  | exec (path : Option (List Byte)) (mem : ExecMem) (image : Image)
  | fork (mem : Kernel.ForkMem)
  | exit (status : I32)
  | wait (addr : U64) (copied : Bool)
  /-- `audit_log_write` for a refused call -/
  | audit (num : I32)

namespace Kernel

/-- A call that changes the file system and reports success or -1. -/
def onFs (k : Kernel) (r : Kern (Bool × Fs)) : Kern (U64 × Kernel) :=
  match r with
  | .error why => .error why
  | .ok (done, fs) => .ok (if done then 0 else minusOne, { k with fs := fs })

def withArg (k : Kernel) (arg : Option α) (f : α → Kern (U64 × Kernel)) : Kern (U64 × Kernel) :=
  match arg with
  | none => .ok (minusOne, k)
  | some a => f a

def perform (k : Kernel) (i : Slot) : Call → Kern (U64 × Kernel)
  | .opens path omode => k.withArg path fun path => k.openPath i path omode
  | .dup fd => k.sysDup i fd
  | .close fd => k.sysClose i fd
  | .pipe page copied => k.sysPipe i page copied
  | .read fd dst n other => k.onFile i fd fun k f => k.fileread f dst n other
  | .write fd src n other => k.onFile i fd fun k f => k.filewrite f src n.toInt other
  | .fstat fd copied => k.onFile i fd fun k f => k.filestat f copied
  | .link paths => k.withArg paths fun paths =>
      k.onFs (k.fs.linkPath (k.proc i).cwd paths.1 paths.2)
  | .unlink path => k.withArg path fun path => k.onFs (unlinkPath k.fs (k.proc i).cwd path)
  | .mkdir path => k.withArg path fun path => k.onFs (k.fs.mkdirPath (k.proc i).cwd path)
  | .mknod path major minor => k.withArg path fun path =>
      k.onFs (k.fs.mknodPath (k.proc i).cwd path major minor)
  | .chdir path => k.withArg path fun path => k.sysChdir i path
  | .exec path mem image => k.withArg path fun path => k.kexec i path mem image
  | .fork mem => k.kfork i mem
  | .exit status => (k.kexit i status).map fun k => (0, k)
  | .wait addr copied => k.kwait i addr copied
  | .audit num => (k.fs.auditLogWrite (k.proc i).pid num).map fun fs => (0, { k with fs := fs })

def alive (k : Kernel) (i : Slot) : Bool :=
  decide ((k.proc i).state = .runnable ∨ (k.proc i).state = .running)

def Possible (k : Kernel) : Call → Prop
  | .pipe (some page) _ => k.pipe page = none
  | _ => True

instance (k : Kernel) (c : Call) : Decidable (k.Possible c) :=
  match c with
  | .pipe (some page) _ => inferInstanceAs (Decidable (k.pipe page = none))
  | .pipe none _ | .opens .. | .dup _ | .close _ | .read .. | .write .. | .fstat .. | .link _
  | .unlink _ | .mkdir _ | .mknod .. | .chdir _ | .exec .. | .fork _ | .exit _ | .wait .. | .audit _ =>
    inferInstanceAs (Decidable True)

def callStep (k : Kernel) (c : Slot × Call) : Option Kernel :=
  if k.alive c.1 = true ∧ k.Possible c.2 then
    match k.perform c.1 c.2 with
    | .error _ => none
    | .ok (_, k) => some k
  else none

inductive Op where
  | opens (path : List Byte) (omode : I32)
  | mkdir (path : List Byte)
  | mknod (path : List Byte) (major minor : I32)
  | link (old new : List Byte)
  | unlink (path : List Byte)
  | chdir (path : List Byte)
  | exec (path : List Byte) (mem : ExecMem)
  /-- the chunk of `filewrite` after `i` of `n` bytes -/
  | write (f : Fp) (src : UserBuf) (i n : Nat)
  /-- the end of `fileclose`, and of the files part of `kexit` -/
  | close (f : Fp)
  | leave
  | audit (num : I32)

def transact (k : Kernel) (i : Slot) : Op → Kern Fs
  | .opens path omode => (k.openPath i path omode).map fun r => r.2.fs
  | .mkdir path => (k.fs.mkdirPath (k.proc i).cwd path).map Prod.snd
  | .mknod path major minor => (k.fs.mknodPath (k.proc i).cwd path major minor).map Prod.snd
  | .link old new => (k.fs.linkPath (k.proc i).cwd old new).map Prod.snd
  | .unlink path => (unlinkPath k.fs (k.proc i).cwd path).map Prod.snd
  | .chdir path => (k.sysChdir i path).map fun r => r.2.fs
  | .exec path mem => (k.fs.execPath (k.proc i).cwd path mem).map Prod.snd
  | .write f src i n =>
    if (k.file f).writable = true ∧ (k.file f).type = .inode then
      (k.writeChunk f src i (min (n - i) maxWrite)).map fun r => r.2.fs
    else .ok k.fs
  | .close f =>
    if (k.file f).type = .inode ∨ (k.file f).type = .device then k.fs.iput (k.file f).ip else .ok k.fs
  | .leave =>
    match (k.proc i).cwd with
    | none => .ok k.fs
    | some cwd => k.fs.iput cwd
  | .audit num => k.fs.auditLogWrite (k.proc i).pid num

/-- Calls one after another, where a file may be at any offset when a call begins. -/
def seekStep (k : Kernel) : (Slot × Call) ⊕ (Fp × Nat) → Option Kernel
  | .inl c => k.callStep c
  | .inr (f, off) => some (k.setFile f { k.file f with off := off })

end Kernel

end Xv6Filter
