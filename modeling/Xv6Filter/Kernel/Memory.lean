import Xv6Filter.Kernel.Paging
import Xv6Filter.Kernel.Exec
import Xv6Filter.Lib.Run

namespace Xv6Filter.Paging

abbrev maxarg : Nat := 32
abbrev userstack : Nat := 1

namespace Ram

/-- `proc_pagetable` for a process whose trapframe is the frame `tf`. -/
def procPagetable (m : Ram) (tf : Frame) : Checked (Option Table × Ram) :=
  match m.uvmcreate with
  | none => .ok (none, m)
  | some (pt, m) => do
    let (mapped, m, pt) ← m.mappages pt trampolineVa pgsize m.trampoline ⟨true, false, true, false⟩
    if mapped = false then do
      let m ← m.uvmfree pt 0
      .ok (none, m)
    else do
      let (mapped, m, pt) ← m.mappages pt trapframeVa pgsize tf ⟨true, true, false, false⟩
      if mapped = false then do
        let (m, pt) ← m.uvmunmap pt trampolineVa 1 false
        let m ← m.uvmfree pt 0
        .ok (none, m)
      else .ok (some pt, m)

def procFreepagetable (m : Ram) (pt : Table) (sz : Nat) : Checked Ram := do
  let (m, pt) ← m.uvmunmap pt trampolineVa 1 false
  let (m, pt) ← m.uvmunmap pt trapframeVa 1 false
  m.uvmfree pt sz

/-- `sz + n` in 64 bits, for an `int n`. -/
def addInt (sz : Nat) (n : I32) : Nat := (sz + (n.signExtend 64).toNat) % 2 ^ 64

/-- `growproc`; true for 0. -/
def growproc (m : Ram) (p : Space) (n : I32) : Checked (Bool × Ram × Space) :=
  if 0 < n.toInt then
    if trapframeVa < addInt p.sz n then .ok (false, m, p)
    else do
      let (sz, m, pt) ← m.uvmalloc p.pagetable p.sz (addInt p.sz n) true false
      if sz = 0 then .ok (false, m, { p with pagetable := pt }) else .ok (true, m, ⟨pt, sz⟩)
  else if n.toInt < 0 then do
    let (sz, m, pt) ← m.uvmdealloc p.pagetable p.sz (addInt p.sz n)
    .ok (true, m, ⟨pt, sz⟩)
  else .ok (true, m, p)

abbrev sbrkEager : I32 := 1

/-- `sys_sbrk(n, t)`: the old size, or `none` for -1. -/
def sysSbrk (m : Ram) (p : Space) (n t : I32) : Checked (Option Nat × Ram × Space) :=
  let addr := p.sz
  if t = sbrkEager ∨ n.toInt < 0 then do
    let (grown, m, p) ← m.growproc p n
    .ok (if grown then some addr else none, m, p)
  else if addInt addr n < addr then .ok (none, m, p)
  else if trapframeVa < addInt addr n then .ok (none, m, p)
  else .ok (some addr, m, { p with sz := addInt addr n })

end Ram

/-- `readi(ip, 0, dst, off, n)` of a file given by its contents: the bytes it copies. -/
def readFile (file : List Byte) (off n : Nat) : List Byte :=
  if file.length < off ∨ (off + n) % 2 ^ 32 < off then [] else (file.drop off).take n

namespace Ram

def loadsegLoop (pt : Table) (va : Nat) (file : List Byte) (offset sz : Nat) :
    Nat → Ram → Nat → Checked (Bool × Ram)
  | 0, m, _ => .ok (true, m)
  | rounds + 1, m, i =>
    if sz ≤ i then .ok (true, m)
    else match pt.walkaddr (va + i) with
      | none => .error .loadseg
      | some f =>
        let n := min (sz - i) pgsize
        let bs := readFile file ((offset + i) % 2 ^ 32) n
        let m := m.write f 0 bs
        if bs.length ≠ n then .ok (false, m) else loadsegLoop pt va file offset sz rounds m (i + pgsize)

def loadseg (m : Ram) (pt : Table) (va : Nat) (file : List Byte) (offset sz : Nat) : Checked (Bool × Ram) :=
  loadsegLoop pt va file offset sz (sz / pgsize + 1) m 0

/-- The loop of `kexec` over the `left` program headers from offset `off` on, with the size
reached so far. -/
def loadProgram (file : List Byte) : Nat → Ram → Table → Nat → Nat → Checked (Bool × Nat × Ram × Table)
  | 0, m, pt, sz, _ => .ok (true, sz, m, pt)
  | left + 1, m, pt, sz, off =>
    let ph := readFile file off phSize
    if ph.length ≠ phSize then .ok (false, sz, m, pt)
    else if field ph 0 4 ≠ elfProgLoad then loadProgram file left m pt sz ((off + phSize) % 2 ^ 32)
    else
      let flags := field ph 4 4
      let vaddr := field ph 16 8
      let filesz := field ph 32 8
      let memsz := field ph 40 8
      if memsz < filesz then .ok (false, sz, m, pt)
      else if (vaddr + memsz) % 2 ^ 64 < vaddr then .ok (false, sz, m, pt)
      else if vaddr % pgsize ≠ 0 then .ok (false, sz, m, pt)
      else do
        let (sz1, m, pt) ← m.uvmalloc pt sz ((vaddr + memsz) % 2 ^ 64) (flags.testBit 1) (flags.testBit 0)
        if sz1 = 0 then .ok (false, sz, m, pt)
        else do
          let (loaded, m) ← m.loadseg pt vaddr file (field ph 8 8 % 2 ^ 32) (filesz % 2 ^ 32)
          if loaded then loadProgram file left m pt sz1 ((off + phSize) % 2 ^ 32)
          else .ok (false, sz1, m, pt)

/-- `sp - n` in 64 bits, then rounded down to 16. -/
def lowerSp (sp n : Nat) : Nat :=
  let sp := (sp + (2 ^ 64 - n)) % 2 ^ 64
  sp - sp % 16

def word (v : Nat) : List Byte := (List.range 8).map fun i => UInt8.ofNat (v / 256 ^ i)

/-- The loop of `kexec` that copies the argument strings to the new stack. With `p` the memory of
the process so far; the result is the stack pointer and the addresses, or `none` for `bad`. -/
def pushArgs (pt : Table) (stackbase : Nat) :
    List (List Byte) → Ram → Space → Nat → List Nat → Checked (Option (Nat × List Nat) × Ram × Space)
  | [], m, p, sp, ustack => .ok (some (sp, ustack), m, p)
  | arg :: argv, m, p, sp, ustack =>
    if maxarg ≤ ustack.length then .ok (none, m, p)
    else
      let sp := lowerSp sp (arg.length + 1)
      if sp < stackbase then .ok (none, m, p)
      else do
        let (copied, m, p) ← m.copyout p (some pt) sp (arg ++ [0])
        if copied then pushArgs pt stackbase argv m p sp (ustack ++ [sp]) else .ok (none, m, p)

/-- The argument strings, then the array of their addresses: the number of arguments with the
stack pointer, or `none` for `bad`. -/
def pushArgv (m : Ram) (p : Space) (pt : Table) (stackbase sz : Nat) (argv : List (List Byte)) :
    Checked (Option (Nat × Nat) × Ram × Space) := do
  let (pushed, m, p) ← m.pushArgs pt stackbase argv p sz []
  match pushed with
  | none => .ok (none, m, p)
  | some (sp, ustack) =>
    -- `ustack[argc] = 0` is outside the array when all its places are taken
    if maxarg ≤ ustack.length then .error .wild
    else
      let sp := lowerSp sp ((ustack.length + 1) * 8)
      if sp < stackbase then .ok (none, m, p)
      else do
        let (copied, m, p) ← m.copyout p (some pt) sp ((ustack ++ [0]).flatMap word)
        .ok (if copied then some (ustack.length, sp) else none, m, p)

/-- `kexec` once the segments are loaded: the stack and the arguments. The result is the number
of arguments and the stack pointer or `none`, with the size of the new table. -/
def buildStack (m : Ram) (p : Space) (pt : Table) (sz : Nat) (argv : List (List Byte)) :
    Checked (Option (Nat × Nat) × Nat × Ram × Space × Table) := do
  let sz := pgroundup sz
  let (sz1, m, pt) ← m.uvmalloc pt sz (sz + (userstack + 1) * pgsize) true false
  if sz1 = 0 then .ok (none, sz, m, p, pt)
  else do
    let sz := sz1
    let pt ← pt.uvmclear (sz - (userstack + 1) * pgsize)
    let (pushed, m, p) ← m.pushArgv p pt (sz - userstack * pgsize) sz argv
    .ok (pushed, sz, m, p, pt)

/-- `kexec` of a file with these contents up to `end_op`: the entry point, the size and the table of
the program, or `none` after `bad`. -/
def loadImage (m : Ram) (tf : Frame) (file : List Byte) : Checked (Option (Nat × Nat × Table) × Ram) :=
  let elf := readFile file 0 elfSize
  if elf.length ≠ elfSize ∨ field elf 0 4 ≠ elfMagic then .ok (none, m)
  else do
    let (made, m) ← m.procPagetable tf
    match made with
    | none => .ok (none, m)
    | some pt =>
      let (loaded, sz, m, pt) ← m.loadProgram file (field elf 56 2) pt 0 (field elf 32 8 % 2 ^ 32)
      if loaded = false then do
        let m ← m.procFreepagetable pt sz
        .ok (none, m)
      else .ok (some (field elf 24 8, sz, pt), m)

/-- `kexec` of a program that is loaded: the stack with the arguments, then the commit. -/
def startImage (m : Ram) (p : Space) (sz : Nat) (pt : Table) (argv : List (List Byte)) :
    Checked (Option (Nat × Nat) × Ram × Space) := do
  let oldsz := p.sz
  let (pushed, sz, m, p, pt) ← m.buildStack p pt sz argv
  match pushed with
  | none =>
    let m ← m.procFreepagetable pt sz
    .ok (none, m, p)
  | some started =>
    let m ← m.procFreepagetable p.pagetable oldsz
    .ok (some started, m, ⟨pt, sz⟩)

/-- `kexec` of a file with these contents, `none` if the path names none, in the process with
memory `p` and trapframe `tf`: the number of arguments, or `none` for -1. -/
def kexec (m : Ram) (p : Space) (tf : Frame) (file : Option (List Byte)) (argv : List (List Byte)) :
    Checked (Option Nat × Ram × Space) :=
  match file with
  | none => .ok (none, m, p)
  | some file => do
    let (image, m) ← m.loadImage tf file
    match image with
    | none => .ok (none, m, p)
    | some (_, sz, pt) =>
      let (started, m, p) ← m.startImage p sz pt argv
      .ok (started.map (·.1), m, p)

/-- The loop of `sys_exec` that fetches the arguments, each into a page of its own; `rounds` is
what is left of `MAXARG`. The pages come with their strings, and true if the list ended. -/
def fetchArgs (uargv : Nat) :
    Nat → Nat → Ram → Space → List (Frame × List Byte) → Checked (Bool × List (Frame × List Byte) × Ram × Space)
  | 0, _, m, p, argv => .ok (false, argv, m, p)
  | rounds + 1, i, m, p, argv => do
    let (uarg, m, p) ← m.fetchaddr p ((uargv + 8 * i) % 2 ^ 64)
    match uarg with
    | none => .ok (false, argv, m, p)
    | some 0 => .ok (true, argv, m, p)
    | some uarg =>
      match m.kalloc with
      | none => .ok (false, argv, m, p)
      | some (f, m) =>
        match m.fetchstr p uarg pgsize with
        | none => .ok (false, argv ++ [(f, [])], m, p)
        | some s => fetchArgs uargv rounds (i + 1) (m.write f 0 (s ++ [0])) p (argv ++ [(f, s)])

def kfreeAll (m : Ram) (fs : List Frame) : Checked Ram := fs.foldlM kfree m

/-- `sys_exec` with the path at `upath` and the argument pointers at `uargv`; `found` is what
the path names. -/
def sysExec (m : Ram) (p : Space) (tf : Frame) (upath uargv : Nat) (found : List Byte → Option (List Byte)) :
    Checked (Option Nat × Ram × Space) :=
  match m.fetchstr p upath maxpath with
  | none => .ok (none, m, p)
  | some path => do
    let (ended, argv, m, p) ← m.fetchArgs uargv maxarg 0 p []
    if ended then do
      let (ret, m, p) ← m.kexec p tf (found path) (argv.map (·.2))
      let m ← m.kfreeAll (argv.map (·.1))
      .ok (ret, m, p)
    else do
      let m ← m.kfreeAll (argv.map (·.1))
      .ok (none, m, p)

end Ram

/-- The fields of `struct proc` that memory management reads and writes. -/
structure MemProc where
  state : ProcState
  parent : Option Slot
  xstate : I32
  trapframe : Option Frame
  pagetable : Option Table
  sz : Nat

structure PipePage where
  frame : Frame
  readopen : Bool
  writeopen : Bool

/-- Who holds the pages of physical memory. The page-table pages of the kernel, its stacks and
the disk's queues are allocated once, at boot. -/
structure System where
  ram : Ram
  proc : Slot → MemProc
  pipes : List PipePage
  kernelPagetable : List Frame
  kstack : List Frame
  virtq : List Frame
  first : Bool

def MemProc.unused : MemProc := ⟨.unused, none, 0, none, none, 0⟩

namespace System

def setProc (s : System) (i : Slot) (p : MemProc) : System := { s with proc := Function.update s.proc i p }

def freeproc (s : System) (i : Slot) : Checked System := do
  let p := s.proc i
  let m ← (match p.trapframe with
    | none => .ok s.ram
    | some tf => s.ram.kfree tf)
  let m ← (match p.pagetable with
    | none => .ok m
    | some pt => m.procFreepagetable pt p.sz)
  .ok ({ s with ram := m }.setProc i .unused)

open Kernel (ForkMem)

/-- `allocproc`: the slot it found UNUSED, if any, and which allocation failed. -/
def allocproc (s : System) : Checked (Option (Slot × ForkMem) × System) :=
  match (List.finRange nproc).find? fun j => decide ((s.proc j).state = .unused) with
  | none => .ok (none, s)
  | some j => do
    let s := s.setProc j { s.proc j with state := .used }
    match s.ram.kalloc with
    | none =>
      let s ← s.freeproc j
      .ok (some (j, .noTrapframe), s)
    | some (tf, m) =>
      let s := { s with ram := m }.setProc j { s.proc j with trapframe := some tf }
      let (made, m) ← s.ram.procPagetable tf
      let s := { s with ram := m }.setProc j { s.proc j with pagetable := made }
      match made with
      | none =>
        let s ← s.freeproc j
        .ok (some (j, .noPagetable), s)
      | some _ => .ok (some (j, .enough), s)

/-- `kfork` by slot `i`, as `allocproc`; it returns -1 unless there was `enough`. -/
def kfork (s : System) (i : Slot) (p : Space) : Checked (Option (Slot × ForkMem) × System) := do
  let (found, s) ← s.allocproc
  match found with
  | some (j, .enough) =>
    match (s.proc j).pagetable with
    | none => .error .wild
    | some new =>
      let (copied, m, new) ← s.ram.uvmcopy p.pagetable new p.sz
      let s := { s with ram := m }.setProc j { s.proc j with pagetable := some new }
      if copied = false then do
        let s ← s.freeproc j
        .ok (some (j, .noCopy), s)
      else .ok (some (j, .enough), s.setProc j { s.proc j with sz := p.sz, parent := some i, state := .runnable })
  | _ => .ok (found, s)

/-- The slot of `initproc`: the first process takes the first slot. -/
def initproc : Slot := 0

def reparent (s : System) (i : Slot) : System :=
  { s with proc := fun j =>
      if (s.proc j).parent = some i then { s.proc j with parent := some initproc } else s.proc j }

/-- `kexit`; the files it closes are events of their own. -/
def kexit (s : System) (i : Slot) (status : I32) : Checked System :=
  if i = initproc then .error .initExiting
  else
    let s := s.reparent i
    .ok (s.setProc i { s.proc i with xstate := status, state := .zombie })

def space (s : System) (i : Slot) : Option Space :=
  if (s.proc i).state = .runnable then (s.proc i).pagetable.map fun pt => ⟨pt, (s.proc i).sz⟩ else none

def setSpace (s : System) (i : Slot) (m : Ram) (p : Space) : System :=
  { s with ram := m }.setProc i { s.proc i with pagetable := some p.pagetable, sz := p.sz }

def int32 (v : I32) : List Byte := (List.range 4).map fun i => UInt8.ofNat (v.toNat / 256 ^ i)

/-- `kwait(addr)`: the slot it freed. Without an exited child it sleeps or fails, and no page moves. -/
def kwait (s : System) (i : Slot) (p : Space) (addr : Nat) : Checked (Option Slot × System) :=
  match (List.finRange nproc).find? fun j =>
      decide ((s.proc j).parent = some i ∧ (s.proc j).state = .zombie) with
  | none => .ok (none, s)
  | some j => do
    let (copied, m, p) ← (if addr = 0 then .ok (true, s.ram, p)
      else s.ram.copyout p none addr (int32 (s.proc j).xstate))
    let s := s.setSpace i m p
    if copied then do
      let s ← s.freeproc j
      .ok (some j, s)
    else .ok (none, s)

/-- `pipeclose` of one end of pipe `n`; a closed end is not closed again, since its file is gone. -/
def pipeclose (s : System) (n : Nat) (writable : Bool) : Checked System :=
  match s.pipes[n]? with
  | none => .ok s
  | some pi =>
    let pi := if writable then { pi with writeopen := false } else { pi with readopen := false }
    if pi.readopen = false ∧ pi.writeopen = false then do
      let m ← s.ram.kfree pi.frame
      .ok { s with ram := m, pipes := s.pipes.eraseIdx n }
    else .ok { s with pipes := s.pipes.set n pi }

/-- `pipealloc`; `files` says whether there are two free `struct file`s. -/
def pipealloc (s : System) (files : Bool) : Bool × System :=
  if files = false then (false, s)
  else match s.ram.kalloc with
    | none => (false, s)
    | some (f, m) => (true, { s with ram := m, pipes := ⟨f, true, true⟩ :: s.pipes })

/-- `sys_pipe(fdarray)`, with the descriptors that `fdalloc` finds. -/
def sysPipe (s : System) (i : Slot) (p : Space) (files : Bool) (fds : Option (I32 × I32)) (fdarray : Nat) :
    Checked (Bool × System) :=
  match s.pipealloc files with
  | (false, s) => .ok (false, s)
  | (true, s) => do
    let (done, s) ← (match fds with
      | none => .ok (false, s)
      | some (fd0, fd1) => do
        let (copied, m, p) ← s.ram.copyout p none fdarray (int32 fd0)
        if copied = false then .ok (false, s.setSpace i m p)
        else do
          let (copied, m, p) ← m.copyout p none ((fdarray + 4) % 2 ^ 64) (int32 fd1)
          .ok (copied, s.setSpace i m p))
    if done then .ok (true, s)
    else do
      let s ← s.pipeclose 0 false
      let s ← s.pipeclose 0 true
      .ok (false, s)

end System

/-- What happens between two points at which no system call is under way. The first argument is
the slot of the process that calls, or whose user code runs. -/
inductive MemEvent where
  | fork (i : Slot)
  | exec (i : Slot) (upath uargv : U64) (found : List Byte → Option (List Byte))
  | exit (i : Slot) (status : I32)
  | wait (i : Slot) (addr : U64)
  | sbrk (i : Slot) (n t : I32)
  | pageFault (i : Slot) (stval : U64)
  | copyin (i : Slot) (srcva len : U64)
  | copyout (i : Slot) (dstva : U64) (src : List Byte)
  | store (i : Slot) (va : U64) (b : Byte)
  | pipe (i : Slot) (files : Bool) (fds : Option (I32 × I32)) (fdarray : U64)
  | pipeclose (n : Nat) (writable : Bool)
  | forkret (init : Option (List Byte))

namespace System

def forSpace (s : System) (i : Slot) (f : Space → Checked System) : Checked System :=
  match s.space i with
  | none => .ok s
  | some p => f p

def userStore (m : Ram) (p : Space) (va : Nat) (b : Byte) : Ram :=
  match p.pagetable.walkaddr va, p.pagetable.leaf va with
  | some f, some l => if l.perm.w then m.write f (va % pgsize) [b] else m
  | _, _ => m

/-- One event. An event of a slot without a running process does not happen. -/
def advance (s : System) : MemEvent → Checked System
  | .fork i => s.forSpace i fun p => (·.2) <$> s.kfork i p
  | .exec i upath uargv found => s.forSpace i fun p =>
    match (s.proc i).trapframe with
    | none => .error .wild
    | some tf => do
      let (_, m, p) ← s.ram.sysExec p tf upath.toNat uargv.toNat found
      .ok (s.setSpace i m p)
  | .exit i status => s.forSpace i fun _ => s.kexit i status
  | .wait i addr => s.forSpace i fun p => (·.2) <$> s.kwait i p addr.toNat
  | .sbrk i n t => s.forSpace i fun p => do
    let (_, m, p) ← s.ram.sysSbrk p n t
    .ok (s.setSpace i m p)
  | .pageFault i stval => s.forSpace i fun p => do
    let (_, m, p) ← s.ram.vmfault p p.pagetable stval.toNat
    .ok (s.setSpace i m p)
  | .copyin i srcva len => s.forSpace i fun p => do
    let (_, _, m, p) ← s.ram.copyin p srcva.toNat len.toNat
    .ok (s.setSpace i m p)
  | .copyout i dstva src => s.forSpace i fun p => do
    let (_, m, p) ← s.ram.copyout p none dstva.toNat src
    .ok (s.setSpace i m p)
  | .store i va b => s.forSpace i fun p => .ok (s.setSpace i (userStore s.ram p va.toNat b) p)
  | .pipe i files fds fdarray => s.forSpace i fun p => (·.2) <$> s.sysPipe i p files fds fdarray.toNat
  | .pipeclose n writable => s.pipeclose n writable
  | .forkret init => s.forSpace initproc fun p =>
    if s.first = false then .ok s
    else match (s.proc initproc).trapframe with
      | none => .error .wild
      | some tf => do
        let (argc, m, p) ← s.ram.kexec p tf init [bytes ['/', 'i', 'n', 'i', 't']]
        if argc = none then .error .exec
        else .ok { s.setSpace initproc m p with first := false }

/-- The events as steps of a transition system; a panic ends the run. -/
def step (s : System) (e : MemEvent) : Option System :=
  match s.advance e with
  | .ok t => some t
  | .error _ => none

end System

namespace Ram

/-- `kinit`: `freerange` pushes the frames after the kernel image in order. The image takes
`image` frames from `KERNBASE` on. -/
def kinit (image : Nat) (trampoline : Frame) : Ram where
  first := kernbase / pgsize + image
  trampoline := trampoline
  free := (List.range' (kernbase / pgsize + image) (physFrames - image)).reverse
  data := fun _ _ => 1

def kallocs : Nat → Ram → Option (List Frame × Ram)
  | 0, m => some ([], m)
  | n + 1, m => do
    let (f, m) ← m.kalloc
    let (fs, m) ← kallocs n m
    some (f :: fs, m)

end Ram

/-- `main` up to the first process: `nodes` page-table pages for the kernel, a stack for each
process, three pages for the disk, then `userinit`. -/
def System.boot (image : Nat) (trampoline : Frame) (nodes : Nat) : Option System := do
  let m := Ram.kinit image trampoline
  let (kernelPagetable, m) ← m.kallocs nodes
  let (kstack, m) ← m.kallocs nproc
  let (virtq, m) ← m.kallocs 3
  match System.allocproc ⟨m, fun _ => .unused, [], kernelPagetable, kstack, virtq, true⟩ with
  | .ok (some (i, .enough), s) => some (s.setProc i { s.proc i with state := .runnable })
  | _ => none

end Xv6Filter.Paging
