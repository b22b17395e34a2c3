import Xv6Filter.Kernel.Proc
import Xv6Filter.Kernel.Sysfile

namespace Xv6Filter
open Lib

abbrev elfSize : Nat := 64
abbrev phSize : Nat := 56
abbrev elfMagic : Nat := 0x464C457F
abbrev elfProgLoad : Nat := 1

/-- A little-endian field of `n` bytes at offset `o` of a structure. -/
def field (bs : List Byte) (o n : Nat) : Nat :=
  ((bs.drop o).take n).foldr (fun b v => b.toNat + 256 * v) 0

/-- What memory management says to `kexec`: whether there is a page table, whether segment
`i` fits, and whether the stack takes the arguments. -/
structure ExecMem where
  pagetable : Bool
  grow : Nat → Bool
  stack : Bool

structure Image where
  sz : U64
  pagetable : PageTable
  sp : U64
  argc : U64

namespace Fs

/-- `loadseg` from offset `i` of the segment on. The pages are there, since `uvmalloc` has
just mapped them. -/
def loadsegLoop (ip : Ip) (offset sz : Nat) : Nat → Nat → Fs → Kern (Bool × Fs)
  | 0, _, fs => .ok (true, fs)
  | rounds + 1, i, fs =>
    if sz ≤ i then .ok (true, fs)
    else
      let n := min (sz - i) pgsize
      match fs.readiKernel ip ((offset + i) % 2 ^ 32) n with
      | .error why => .error why
      | .ok (r, _, fs) =>
        if r ≠ (n : Int) then .ok (false, fs) else loadsegLoop ip offset sz rounds (i + pgsize) fs

def loadseg (fs : Fs) (ip : Ip) (offset sz : Nat) : Kern (Bool × Fs) :=
  loadsegLoop ip offset sz (sz / pgsize + 1) 0 fs

/-- The loop of `kexec` over the `left` program headers from number `i` on. -/
def loadProgram (mem : ExecMem) (ip : Ip) : Nat → Nat → Nat → Fs → Kern (Bool × Fs)
  | 0, _, _, fs => .ok (true, fs)
  | left + 1, i, off, fs =>
    match fs.readiKernel ip off phSize with
    | .error why => .error why
    | .ok (r, ph, fs) =>
      if r ≠ (phSize : Int) then .ok (false, fs)
      else if field ph 0 4 ≠ elfProgLoad then loadProgram mem ip left (i + 1) ((off + phSize) % 2 ^ 32) fs
      else
        let vaddr := field ph 16 8
        let filesz := field ph 32 8
        let memsz := field ph 40 8
        if memsz < filesz ∨ (vaddr + memsz) % 2 ^ 64 < vaddr ∨ vaddr % pgsize ≠ 0 ∨ mem.grow i = false then
          .ok (false, fs)
        else match fs.loadseg ip (field ph 8 8 % 2 ^ 32) (filesz % 2 ^ 32) with
          | .error why => .error why
          | .ok (false, fs) => .ok (false, fs)
          | .ok (true, fs) => loadProgram mem ip left (i + 1) ((off + phSize) % 2 ^ 32) fs

/-- `kexec` between `ilock` and `iunlockput`: the entry point of the program, if it loads. -/
def loadElf (fs : Fs) (ip : Ip) (mem : ExecMem) : Kern (Option Nat × Fs) :=
  match fs.readiKernel ip 0 elfSize with
  | .error why => .error why
  | .ok (r, elf, fs) =>
    if r ≠ (elfSize : Int) ∨ field elf 0 4 ≠ elfMagic ∨ mem.pagetable = false then .ok (none, fs)
    else match loadProgram mem ip (field elf 56 2) 0 (field elf 32 8 % 2 ^ 32) fs with
      | .error why => .error why
      | .ok (ok, fs) => .ok (if ok then some (field elf 24 8) else none, fs)

def execPath (fs : Fs) (cwd : Option Ip) (path : List Byte) (mem : ExecMem) : Kern (Option Nat × Fs) := do
  let (found, fs) ← fs.namei cwd path
  match found with
  | none => pure (none, fs)
  | some ip =>
    let fs ← fs.ilock ip
    let (entry, fs) ← fs.loadElf ip mem
    let fs ← fs.iunlockput ip
    pure (entry, fs)

end Fs

namespace Kernel

/-- The last element of a path, cut to what `safestrcpy` keeps of it. -/
def programName (path : List Byte) : List Byte :=
  ((path.reverse.takeWhile (· ≠ Fs.slash)).reverse).take 15

def kexec (k : Kernel) (i : Slot) (path : List Byte) (mem : ExecMem) (image : Image) :
    Kern (U64 × Kernel) :=
  let p := k.proc i
  match k.fs.execPath p.cwd path mem with
  | .error why => .error why
  | .ok (none, fs) => .ok (minusOne, { k with fs := fs })
  | .ok (some entry, fs) =>
    if mem.stack = false then .ok (minusOne, { k with fs := fs })
    else
      .ok (image.argc, { k with fs := fs }.setProc i
        { p with
          trapframe := { p.trapframe with a1 := image.sp, epc := BitVec.ofNat 64 entry, sp := image.sp }
          name := programName path
          pagetable := image.pagetable
          sz := image.sz })

end Kernel

end Xv6Filter
