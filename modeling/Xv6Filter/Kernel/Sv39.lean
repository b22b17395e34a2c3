import Xv6Filter.Kernel.Paging
import Xv6Filter.Lib.Bytes

namespace Xv6Filter.Sv39
open Lib Paging

abbrev pteV : U64 := 1
abbrev pteU : U64 := 16

abbrev pgBytes : U64 := 4096

def pa2pte (pa : U64) : U64 := (pa >>> 12) <<< 10

def pte2pa (pte : U64) : U64 := (pte >>> 10) <<< 12

def pteFlags (pte : U64) : U64 := pte &&& 0x3FF

def px (level : Nat) (va : U64) : U64 := (va >>> (12 + 9 * level)) &&& 0x1FF

def frameOf (pa : U64) : Frame := pa.toNat / pgsize

def pageAddr (f : Frame) : U64 := BitVec.ofNat 64 (f * pgsize)

def load (m : Ram) (a : U64) : U64 := BitVec.ofNat 64 (loadLe (m.data (frameOf a)) (a.toNat % pgsize) 8)

def store (m : Ram) (a v : U64) : Ram :=
  { m with data := Function.update m.data (frameOf a) (storeLe (m.data (frameOf a)) (a.toNat % pgsize) 8 v.toNat) }

def slot (pagetable : U64) (level : Nat) (va : U64) : U64 := pagetable + 8 * px level va

def walkLoop (alloc : Bool) (va : U64) : Nat → Ram → U64 → Option U64 × Ram
  | 0, m, pagetable => (some (slot pagetable 0 va), m)
  | level + 1, m, pagetable =>
    let pte := slot pagetable (level + 1) va
    if load m pte &&& pteV ≠ 0 then walkLoop alloc va level m (pte2pa (load m pte))
    else if alloc = false then (none, m)
    else match m.kalloc with
      | none => (none, m)
      | some (f, m) =>
        let m := m.fill f 0
        let m := store m pte (pa2pte (pageAddr f) ||| pteV)
        walkLoop alloc va level m (pageAddr f)

/-- `walk(pagetable, va, alloc)`; `none` for a null pointer. -/
def walk (m : Ram) (pagetable va : U64) (alloc : Bool) : Checked (Option U64 × Ram) :=
  if maxva ≤ va.toNat then .error .walk else .ok (walkLoop alloc va 2 m pagetable)

theorem lt_maxva_of_walk (h : walk m pagetable va alloc = .ok r) : va.toNat < maxva := by
  unfold walk at h
  split at h
  · cases h
  · omega

theorem toNat_next {a : U64} (h : a.toNat < maxva) : (a + pgBytes).toNat = a.toNat + pgsize := by
  rw [BitVec.toNat_add]
  refine Nat.mod_eq_of_lt (Nat.lt_trans (Nat.add_lt_add_right h _) ?_)
  decide

theorem next_shorter {a : U64} (h : a.toNat < maxva) : 2 ^ 64 - (a + pgBytes).toNat < 2 ^ 64 - a.toNat := by
  rw [toNat_next h]
  have := a.isLt
  simp only [pgsize]
  omega

def walkaddr (m : Ram) (pagetable va : U64) : Checked U64 :=
  if maxva ≤ va.toNat then .ok 0
  else
    match walk m pagetable va false with
    | .error why => .error why
    | .ok (none, _) => .ok 0
    | .ok (some pte, m) =>
      if load m pte &&& pteV = 0 then .ok 0
      else if load m pte &&& pteU = 0 then .ok 0
      else .ok (pte2pa (load m pte))

/-- The loop of `mappages`; true for 0. -/
def mapLoop (pagetable last perm : U64) (m : Ram) (a pa : U64) : Checked (Bool × Ram) :=
  match _h : walk m pagetable a true with
  | .error why => .error why
  | .ok (none, m) => .ok (false, m)
  | .ok (some pte, m) =>
    if load m pte &&& pteV ≠ 0 then .error .remap
    else
      let m := store m pte (pa2pte pa ||| perm ||| pteV)
      if a = last then .ok (true, m)
      else mapLoop pagetable last perm m (a + pgBytes) (pa + pgBytes)
termination_by 2 ^ 64 - a.toNat
decreasing_by exact next_shorter (lt_maxva_of_walk ‹_›)

def mappages (m : Ram) (pagetable va size pa : U64) (perm : I32) : Checked (Bool × Ram) :=
  if va.toNat % pgsize ≠ 0 then .error .mappagesVa
  else if size.toNat % pgsize ≠ 0 then .error .mappagesUnaligned
  else if size = 0 then .error .mappagesSize
  else mapLoop pagetable (va + size - pgBytes) (perm.signExtend 64) m va pa

def unmapLoop (pagetable stop : U64) (doFree : Bool) (m : Ram) (a : U64) : Checked Ram :=
  if a.toNat < stop.toNat then
    match _h : walk m pagetable a false with
    | .error why => .error why
    | .ok (none, m) => unmapLoop pagetable stop doFree m (a + pgBytes)
    | .ok (some pte, m) =>
      if load m pte &&& pteV = 0 then unmapLoop pagetable stop doFree m (a + pgBytes)
      else
        match if doFree then m.kfree (frameOf (pte2pa (load m pte))) else .ok m with
        | .error why => .error why
        | .ok m => unmapLoop pagetable stop doFree (store m pte 0) (a + pgBytes)
  else .ok m
termination_by 2 ^ 64 - a.toNat
decreasing_by all_goals exact next_shorter (lt_maxva_of_walk ‹_›)

def uvmunmap (m : Ram) (pagetable va npages : U64) (doFree : Bool) : Checked Ram :=
  if va.toNat % pgsize ≠ 0 then .error .uvmunmapUnaligned
  else unmapLoop pagetable (va + npages * pgBytes) doFree m va

end Xv6Filter.Sv39
