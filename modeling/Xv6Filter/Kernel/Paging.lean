import Xv6Filter.Kernel.Vm
import Xv6Filter.Lib.Bytes

namespace Xv6Filter.Paging

open Function Lib

abbrev Frame := Nat

abbrev kernbase : Nat := 0x80000000
abbrev physFrames : Nat := 128 * 1024 * 1024 / pgsize
abbrev physstop : Frame := kernbase / pgsize + physFrames
abbrev trampolineVa : Nat := maxva - pgsize
abbrev trapframeVa : Nat := trampolineVa - pgsize

/-- `PGROUNDUP`, on 64 bits. -/
def pgroundup (sz : Nat) : Nat := (sz + (pgsize - 1)) % 2 ^ 64 / pgsize * pgsize

def pgrounddown (a : Nat) : Nat := a / pgsize * pgsize

/-- The panics of vm.c, kalloc.c and exec.c; `wild` stands for a dereference that the source
does not check. -/
inductive VmPanic where
  | walk
  | mappagesVa
  | mappagesUnaligned
  | mappagesSize
  | remap
  | uvmunmapUnaligned
  | freewalkLeaf
  | uvmclear
  | kfree
  | loadseg
  | initExiting
  | exec
  | wild
  deriving DecidableEq, Repr

abbrev Checked := Except VmPanic

structure Perm where
  r : Bool
  w : Bool
  x : Bool
  u : Bool
  deriving DecidableEq, Repr

structure Leaf where
  frame : Frame
  perm : Perm
  deriving DecidableEq, Repr

/-- A page-table page of the last level. A valid PTE of an upper level is the page-table page it
points to; `none` is a PTE without PTE_V. -/
structure Node0 where
  frame : Frame
  pte : Fin 512 → Option Leaf

structure Node1 where
  frame : Frame
  pte : Fin 512 → Option Node0

structure Table where
  frame : Frame
  pte : Fin 512 → Option Node1

/-- The indices of a page-table page, in order. Irreducible, or proofs would unfold all 512. -/
@[irreducible] def entries : List (Fin 512) := List.finRange 512

def px (level va : Nat) : Fin 512 := ⟨va / 2 ^ (12 + 9 * level) % 512, Nat.mod_lt _ (by decide)⟩

def Table.node (pt : Table) (va : Nat) : Option Node0 := (pt.pte (px 2 va)).bind fun n => n.pte (px 1 va)

/-- `walk(pagetable, va, 0)`: the PTE it points to, `none` for a null pointer. -/
def Table.walk (pt : Table) (va : Nat) : Checked (Option (Option Leaf)) :=
  if maxva ≤ va then .error .walk else .ok ((pt.node va).map fun n => n.pte (px 0 va))

def Table.leaf (pt : Table) (va : Nat) : Option Leaf := (pt.node va).bind fun n => n.pte (px 0 va)

/-- A store to the PTE for `va`, through a pointer that `walk` returned. -/
def Table.setLeaf (pt : Table) (va : Nat) (l : Option Leaf) : Table :=
  match pt.pte (px 2 va) with
  | none => pt
  | some n1 =>
    match n1.pte (px 1 va) with
    | none => pt
    | some n0 =>
      let n0 := { n0 with pte := update n0.pte (px 0 va) l }
      let n1 := { n1 with pte := update n1.pte (px 1 va) (some n0) }
      { pt with pte := update pt.pte (px 2 va) (some n1) }

/-- Physical memory: the frame after the kernel image, the one with the trampoline code, the
free list `kmem.freelist`, and the bytes of each frame. -/
structure Ram where
  first : Frame
  trampoline : Frame
  free : List Frame
  data : Frame → Nat → Byte

namespace Ram

def fill (m : Ram) (f : Frame) (c : Byte) : Ram :=
  { m with data := update m.data f fun _ => c }

def write (m : Ram) (f : Frame) (o : Nat) (bs : List Byte) : Ram :=
  { m with data := update m.data f (splice (m.data f) o bs) }

def read (m : Ram) (f : Frame) (o n : Nat) : List Byte := slice (m.data f) o n

def kfree (m : Ram) (f : Frame) : Checked Ram :=
  if f < m.first ∨ physstop ≤ f then .error .kfree
  else .ok { m.fill f 1 with free := f :: m.free }

def kalloc (m : Ram) : Option (Frame × Ram) :=
  match m.free with
  | [] => none
  | f :: free => some (f, { m with free := free }.fill f 5)

def zalloc (m : Ram) : Option (Frame × Ram) := m.kalloc.map fun (f, m) => (f, m.fill f 0)

/-- One round of the loop of `walk` with allocation: the page-table page a PTE points to, or a
new empty one. -/
def nextLevel (m : Ram) (pte : Option α) (empty : Frame → α) : Option (α × Ram) :=
  match pte with
  | some n => some (n, m)
  | none => m.zalloc.map fun (f, m) => (empty f, m)

/-- `walk(pagetable, va, 1)`: whether there is a PTE for `va` in the end. -/
def walkAlloc (m : Ram) (pt : Table) (va : Nat) : Checked (Bool × Ram × Table) :=
  if maxva ≤ va then .error .walk
  else match m.nextLevel (pt.pte (px 2 va)) (⟨·, fun _ => none⟩) with
    | none => .ok (false, m, pt)
    | some (n1, m) =>
      match m.nextLevel (n1.pte (px 1 va)) (⟨·, fun _ => none⟩) with
      | none => .ok (false, m, { pt with pte := update pt.pte (px 2 va) (some n1) })
      | some (n0, m) =>
        let n1 := { n1 with pte := update n1.pte (px 1 va) (some n0) }
        .ok (true, m, { pt with pte := update pt.pte (px 2 va) (some n1) })

def mapLoop (perm : Perm) : Nat → Ram → Table → Nat → Frame → Checked (Bool × Ram × Table)
  | 0, m, pt, _, _ => .ok (true, m, pt)
  | n + 1, m, pt, a, pa => do
    let (found, m, pt) ← m.walkAlloc pt a
    if found = false then .ok (false, m, pt)
    else match pt.leaf a with
      | some _ => .error .remap
      | none => mapLoop perm n m (pt.setLeaf a (some ⟨pa, perm⟩)) (a + pgsize) (pa + 1)

/-- `mappages`; true for 0. -/
def mappages (m : Ram) (pt : Table) (va size : Nat) (pa : Frame) (perm : Perm) :
    Checked (Bool × Ram × Table) :=
  if va % pgsize ≠ 0 then .error .mappagesVa
  else if size % pgsize ≠ 0 then .error .mappagesUnaligned
  else if size = 0 then .error .mappagesSize
  else mapLoop perm (size / pgsize) m pt va pa

def uvmcreate (m : Ram) : Option (Table × Ram) := m.zalloc.map fun (f, m) => (⟨f, fun _ => none⟩, m)

def unmapLoop (doFree : Bool) : Nat → Ram → Table → Nat → Checked (Ram × Table)
  | 0, m, pt, _ => .ok (m, pt)
  | n + 1, m, pt, a => do
    match ← pt.walk a with
    | some (some l) =>
      let m ← (if doFree then m.kfree l.frame else .ok m)
      unmapLoop doFree n m (pt.setLeaf a none) (a + pgsize)
    | _ => unmapLoop doFree n m pt (a + pgsize)

def uvmunmap (m : Ram) (pt : Table) (va npages : Nat) (doFree : Bool) : Checked (Ram × Table) :=
  if va % pgsize ≠ 0 then .error .uvmunmapUnaligned else unmapLoop doFree npages m pt va

/-- A page count that went through an `int` and back to 64 bits. -/
def intPages (n : Nat) : Nat := ((BitVec.ofNat 32 n).signExtend 64).toNat

def uvmdealloc (m : Ram) (pt : Table) (oldsz newsz : Nat) : Checked (Nat × Ram × Table) :=
  if oldsz ≤ newsz then .ok (oldsz, m, pt)
  else if pgroundup newsz < pgroundup oldsz then do
    let npages := intPages ((pgroundup oldsz - pgroundup newsz) / pgsize)
    let (m, pt) ← m.uvmunmap pt (pgroundup newsz) npages true
    .ok (newsz, m, pt)
  else .ok (newsz, m, pt)

/-- The loop of `uvmalloc` from address `a` on, `n` being at least the rounds left. -/
def allocLoop (oldsz newsz : Nat) (perm : Perm) : Nat → Ram → Table → Nat → Checked (Nat × Ram × Table)
  | 0, m, pt, _ => .ok (newsz, m, pt)
  | n + 1, m, pt, a =>
    if newsz ≤ a then .ok (newsz, m, pt)
    else match m.zalloc with
      | none => do
        let (_, m, pt) ← m.uvmdealloc pt a oldsz
        .ok (0, m, pt)
      | some (mem, m) => do
        let (mapped, m, pt) ← m.mappages pt a pgsize mem perm
        if mapped then allocLoop oldsz newsz perm n m pt (a + pgsize)
        else do
          let m ← m.kfree mem
          let (_, m, pt) ← m.uvmdealloc pt a oldsz
          .ok (0, m, pt)

/-- `uvmalloc` with PTE_R, PTE_U and the bits of `xperm`: the new size, or 0. -/
def uvmalloc (m : Ram) (pt : Table) (oldsz newsz : Nat) (w x : Bool) : Checked (Nat × Ram × Table) :=
  if newsz < oldsz then .ok (oldsz, m, pt)
  else
    let oldsz := pgroundup oldsz
    allocLoop oldsz newsz ⟨true, w, x, true⟩ ((newsz - oldsz) / pgsize + 1) m pt oldsz

/-- `freewalk` of a level-0 page: a valid PTE in it is a leaf, or taken for a pointer. -/
def freewalk0 (m : Ram) (n : Node0) : Checked Ram :=
  match entries.findSome? n.pte with
  | some l => .error (if l.perm.r || l.perm.w || l.perm.x then .freewalkLeaf else .wild)
  | none => m.kfree n.frame

/-- The loop of `freewalk` over a page-table page, `free` being the call for what an entry points to. -/
def freeEntries (free : Ram → α → Checked Ram) (pte : Fin 512 → Option α) (is : List (Fin 512)) (m : Ram) :
    Checked Ram :=
  is.foldlM (fun m i =>
    match pte i with
    | none => .ok m
    | some n => free m n) m

def freewalk1 (m : Ram) (n : Node1) : Checked Ram := do
  let m ← freeEntries freewalk0 n.pte entries m
  m.kfree n.frame

def freewalk (m : Ram) (pt : Table) : Checked Ram := do
  let m ← freeEntries freewalk1 pt.pte entries m
  m.kfree pt.frame

def uvmfree (m : Ram) (pt : Table) (sz : Nat) : Checked Ram := do
  let (m, pt) ← (if 0 < sz then m.uvmunmap pt 0 (pgroundup sz / pgsize) true else .ok (m, pt))
  m.freewalk pt

/-- The loop of `uvmcopy` at address `i`, over `n` more pages; true for 0. -/
def copyLoop (old : Table) : Nat → Ram → Table → Nat → Checked (Bool × Ram × Table)
  | 0, m, new, _ => .ok (true, m, new)
  | n + 1, m, new, i => do
    match ← old.walk i with
    | some (some l) =>
      match m.kalloc with
      | none =>
        let (m, new) ← m.uvmunmap new 0 (i / pgsize) true
        .ok (false, m, new)
      | some (mem, m) =>
        let m := { m with data := update m.data mem (m.data l.frame) }
        let (mapped, m, new) ← m.mappages new i pgsize mem l.perm
        if mapped then copyLoop old n m new (i + pgsize)
        else
          let m ← m.kfree mem
          let (m, new) ← m.uvmunmap new 0 (i / pgsize) true
          .ok (false, m, new)
    | _ => copyLoop old n m new (i + pgsize)

def uvmcopy (m : Ram) (old new : Table) (sz : Nat) : Checked (Bool × Ram × Table) :=
  copyLoop old ((sz + (pgsize - 1)) / pgsize) m new 0

end Ram

def Table.uvmclear (pt : Table) (va : Nat) : Checked Table := do
  match ← pt.walk va with
  | none => .error .uvmclear
  | some none => .ok pt
  | some (some l) => .ok (pt.setLeaf va (some { l with perm := { l.perm with u := false } }))

def Table.walkaddr (pt : Table) (va : Nat) : Option Frame :=
  if maxva ≤ va then none
  else match pt.leaf va with
    | some l => if l.perm.u then some l.frame else none
    | none => none

def Table.ismapped (pt : Table) (va : Nat) : Checked Bool := do
  match ← pt.walk va with
  | some (some _) => .ok true
  | _ => .ok false

/-- The memory of the current process: `p->pagetable` and `p->sz`. -/
structure Space where
  pagetable : Table
  sz : Nat

namespace Ram

/-- `vmfault(pagetable, va, _)` in the process with memory `p`; the lookup is in `pt`, the new
page goes to the process. -/
def vmfault (m : Ram) (p : Space) (pt : Table) (va : Nat) : Checked (Option Frame × Ram × Space) :=
  if p.sz ≤ va then .ok (none, m, p)
  else do
    let va := pgrounddown va
    if ← pt.ismapped va then .ok (none, m, p)
    else match m.zalloc with
      | none => .ok (none, m, p)
      | some (mem, m) => do
        let (mapped, m, own) ← m.mappages p.pagetable va pgsize mem ⟨true, true, false, true⟩
        if mapped then .ok (some mem, m, { p with pagetable := own })
        else do
          let m ← m.kfree mem
          .ok (none, m, { p with pagetable := own })

/-- A user page for the kernel: `walkaddr`, then `vmfault`. The table is `other`, or the
process's own. -/
def userPage (m : Ram) (p : Space) (other : Option Table) (va0 : Nat) :
    Checked (Option Frame × Ram × Space) :=
  let pt := other.getD p.pagetable
  match pt.walkaddr va0 with
  | some f => .ok (some f, m, p)
  | none => m.vmfault p pt va0

/-- The loop of `copyout`; each round takes at least one byte, so the length bounds the rounds. -/
def copyoutLoop (other : Option Table) : Nat → Ram → Space → Nat → List Byte → Checked (Bool × Ram × Space)
  | 0, m, p, _, _ => .ok (true, m, p)
  | n + 1, m, p, dstva, src =>
    if src.length = 0 then .ok (true, m, p)
    else
      let va0 := pgrounddown dstva
      if maxva ≤ va0 then .ok (false, m, p)
      else do
        let (page, m, p) ← m.userPage p other va0
        match page with
        | none => .ok (false, m, p)
        | some f =>
          match ← (other.getD p.pagetable).walk va0 with
          | none => .error .wild
          | some pte =>
            if (pte.any fun l => l.perm.w) = false then .ok (false, m, p)
            else
              let k := min (pgsize - (dstva - va0)) src.length
              let m := m.write f (dstva - va0) (src.take k)
              copyoutLoop other n m p (va0 + pgsize) (src.drop k)

/-- `copyout`; true for 0. -/
def copyout (m : Ram) (p : Space) (other : Option Table) (dstva : Nat) (src : List Byte) :
    Checked (Bool × Ram × Space) :=
  copyoutLoop other src.length m p dstva src

def copyinLoop : Nat → Ram → Space → Nat → Nat → Checked (List Byte × Bool × Ram × Space)
  | 0, m, p, _, _ => .ok ([], true, m, p)
  | n + 1, m, p, srcva, len =>
    if len = 0 then .ok ([], true, m, p)
    else do
      let va0 := pgrounddown srcva
      let (page, m, p) ← m.userPage p none va0
      match page with
      | none => .ok ([], false, m, p)
      | some f =>
        let k := min (pgsize - (srcva - va0)) len
        let bs := m.read f (srcva - va0) k
        let (rest, ok, m, p) ← copyinLoop n m p (va0 + pgsize) (len - k)
        .ok (bs ++ rest, ok, m, p)

def copyin (m : Ram) (p : Space) (srcva len : Nat) : Checked (List Byte × Bool × Ram × Space) :=
  copyinLoop len m p srcva len

/-- User memory as the string functions see it: `copyinstr` does not fault pages in. -/
def view (m : Ram) (pt : Table) : PageTable := fun v =>
  (pt.leaf (v * pgsize)).map fun l => ⟨m.data l.frame, l.perm.r, l.perm.w, l.perm.x, l.perm.u⟩

def fetchstr (m : Ram) (p : Space) (addr max : Nat) : Option (List Byte) :=
  copyinstr (m.view p.pagetable) addr max

def fetchaddr (m : Ram) (p : Space) (addr : Nat) : Checked (Option Nat × Ram × Space) :=
  if p.sz ≤ addr ∨ p.sz < (addr + 8) % 2 ^ 64 then .ok (none, m, p)
  else do
    let (bs, ok, m, p) ← m.copyin p addr 8
    .ok (if ok then some (bs.foldr (fun b v => b.toNat + 256 * v) 0) else none, m, p)

end Ram

end Xv6Filter.Paging
