import Xv6Filter.Kernel.Memory

namespace Xv6Filter.Paging

inductive ExecStop where
  | fs (why : Stop)
  | vm (why : VmPanic)
  deriving DecidableEq, Repr

abbrev Loads := Except ExecStop

def onFs (x : Kern α) : Loads α := x.mapError .fs

def onRam (x : Checked α) : Loads α := x.mapError .vm

/-- What `kexec` works on. The page table and the size of the process are those of `space`;
`outstanding` is the one of the log. -/
structure Task where
  kernel : Kernel
  ram : Ram
  space : Space
  outstanding : Nat

namespace Task

def fs (x : Task) : Fs := x.kernel.fs

def setFs (x : Task) (fs : Fs) : Task := { x with kernel := { x.kernel with fs := fs } }

def setRam (x : Task) (m : Ram) : Task := { x with ram := m }

def beginOp (x : Task) : Task := { x with outstanding := x.outstanding + 1 }

def endOp (x : Task) : Task := { x with outstanding := x.outstanding - 1 }

def loadsegLoop (pt : Table) (va : Nat) (ip : Ip) (offset sz : Nat) : Nat → Task → Nat → Loads (Bool × Task)
  | 0, x, _ => .ok (true, x)
  | rounds + 1, x, i =>
    if sz ≤ i then .ok (true, x)
    else match pt.walkaddr (va + i) with
      | none => .error (.vm .loadseg)
      | some f => do
        let n := min (sz - i) pgsize
        let (r, bs, fs) ← onFs (x.fs.readiKernel ip ((offset + i) % 2 ^ 32) n)
        let x := (x.setFs fs).setRam (x.ram.write f 0 bs)
        if r ≠ (n : Int) then .ok (false, x) else loadsegLoop pt va ip offset sz rounds x (i + pgsize)

/-- `loadseg`; true for 0. -/
def loadseg (x : Task) (pt : Table) (va : Nat) (ip : Ip) (offset sz : Nat) : Loads (Bool × Task) :=
  loadsegLoop pt va ip offset sz (sz / pgsize + 1) x 0

/-- The loop of `kexec` over the `left` program headers from offset `off` on, with the size
reached so far. -/
def loadProgram (ip : Ip) : Nat → Task → Table → Nat → Nat → Loads (Bool × Nat × Task × Table)
  | 0, x, pt, sz, _ => .ok (true, sz, x, pt)
  | left + 1, x, pt, sz, off => do
    let (r, ph, fs) ← onFs (x.fs.readiKernel ip off phSize)
    let x := x.setFs fs
    if r ≠ (phSize : Int) then .ok (false, sz, x, pt)
    else if field ph 0 4 ≠ elfProgLoad then loadProgram ip left x pt sz ((off + phSize) % 2 ^ 32)
    else
      let flags := field ph 4 4
      let vaddr := field ph 16 8
      let filesz := field ph 32 8
      let memsz := field ph 40 8
      if memsz < filesz then .ok (false, sz, x, pt)
      else if (vaddr + memsz) % 2 ^ 64 < vaddr then .ok (false, sz, x, pt)
      else if vaddr % pgsize ≠ 0 then .ok (false, sz, x, pt)
      else do
        let (sz1, m, pt) ← onRam (x.ram.uvmalloc pt sz ((vaddr + memsz) % 2 ^ 64) (flags.testBit 1) (flags.testBit 0))
        let x := x.setRam m
        if sz1 = 0 then .ok (false, sz, x, pt)
        else do
          let (loaded, x) ← x.loadseg pt vaddr ip (field ph 8 8 % 2 ^ 32) (filesz % 2 ^ 32)
          if loaded then loadProgram ip left x pt sz1 ((off + phSize) % 2 ^ 32)
          else .ok (false, sz1, x, pt)

/-- `bad:` with the inode locked, and with the new table and its size if there is one. -/
def bad (x : Task) (ip : Ip) (made : Option (Table × Nat)) : Loads Task := do
  let m ← (match made with
    | none => .ok x.ram
    | some (pt, sz) => onRam (x.ram.procFreepagetable pt sz))
  let fs ← onFs (x.fs.iunlockput ip)
  .ok ((x.setRam m).setFs fs).endOp

/-- `kexec` up to `end_op`, in a process with the trapframe at frame `tf`: the entry point, the
size and the table of the program, or `none` after `bad`. -/
def loadImage (x : Task) (i : Slot) (tf : Frame) (path : List Byte) : Loads (Option (Nat × Nat × Table) × Task) := do
  let x := x.beginOp
  let (found, fs) ← onFs (x.fs.namei (x.kernel.proc i).cwd path)
  let x := x.setFs fs
  match found with
  | none => .ok (none, x.endOp)
  | some ip => do
    let fs ← onFs (x.fs.ilock ip)
    let (r, elf, fs) ← onFs (fs.readiKernel ip 0 elfSize)
    let x := x.setFs fs
    if r ≠ (elfSize : Int) ∨ field elf 0 4 ≠ elfMagic then do
      let x ← x.bad ip none
      .ok (none, x)
    else do
      let (made, m) ← onRam (x.ram.procPagetable tf)
      let x := x.setRam m
      match made with
      | none => do
        let x ← x.bad ip none
        .ok (none, x)
      | some pt => do
        let (loaded, sz, x, pt) ← loadProgram ip (field elf 56 2) x pt 0 (field elf 32 8 % 2 ^ 32)
        if loaded = false then do
          let x ← x.bad ip (some (pt, sz))
          .ok (none, x)
        else do
          let fs ← onFs (x.fs.iunlockput ip)
          .ok (some (field elf 24 8, sz, pt), (x.setFs fs).endOp)

/-- `kexec` of a program that is loaded. The result is `argc`, or `none` for -1. -/
def startImage (x : Task) (i : Slot) (path : List Byte) (entry sz : Nat) (pt : Table) (argv : List (List Byte)) :
    Loads (Option Nat × Task) := do
  let (started, m, space) ← onRam (x.ram.startImage x.space sz pt argv)
  let x := { x with ram := m, space := space }
  match started with
  | none => .ok (none, x)
  | some (argc, sp) =>
    let p := x.kernel.proc i
    let a1 := BitVec.ofNat 64 sp
    let p := { p with
      trapframe := { p.trapframe with a1 := a1, epc := BitVec.ofNat 64 entry, sp := a1 }
      name := Kernel.programName path }
    .ok (some argc, { x with kernel := x.kernel.setProc i p })

def kexec (x : Task) (i : Slot) (tf : Frame) (path : List Byte) (argv : List (List Byte)) :
    Loads (Option Nat × Task) := do
  let (loaded, x) ← x.loadImage i tf path
  match loaded with
  | none => .ok (none, x)
  | some (entry, sz, pt) => x.startImage i path entry sz pt argv

end Task

end Xv6Filter.Paging
