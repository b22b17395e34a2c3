import Xv6Filter.Proofs.Effects
import Mathlib.Tactic.Tauto

namespace Xv6Filter.Proofs

def aimed (p : Proc) (a : U64) : Proc :=
  { p with trapframe := { p.trapframe with a0 := a } }

/-- Both strings name one directory entry: `nameiparent` ends in the same directory
with the same last name. -/
def SameEntry (fs : Fs) (cwd : Option Ip) (path1 path2 : List Byte) : Prop :=
  ∃ dp1 dp2 name fs1 fs2,
    fs.nameiparent cwd path1 = .ok (some (dp1, name), fs1) ∧
    fs.nameiparent cwd path2 = .ok (some (dp2, name), fs2) ∧
    (fs1.inode dp1).dev = (fs2.inode dp2).dev ∧ (fs1.inode dp1).inum = (fs2.inode dp2).inum

def Guarded (path : List Byte) : Sys → Prop
  | .open => secretName <+: path
  | .exec => path = shName ∨ path = rmName
  | .unlink => binName <+: path ∨ readmeName <+: path ∨ auditName <+: path
  | _ => False

def ForWriting (p : Proc) (s : Sys) : Prop :=
  s = .open ∧ ¬ (argint p.trapframe.a1 &&& oWronly = 0 ∧ argint p.trapframe.a1 &&& oRdwr = 0)

def pathCalls : List Sys := [.open, .exec, .unlink]

/-- What the inspection of a readable path refuses: the guarded spellings and
every open for writing. -/
def Refusable (p : Proc) (s : Sys) (path : List Byte) : Prop := ForWriting p s ∨ Guarded path s

theorem inspectPath_iff {p : Proc} {safe : List Byte → Bool} {path : List Byte} {bad : Prop}
    (hf : fetchstr p p.trapframe.a0 maxpath = some path) (hs : safe path = true ↔ ¬ bad) :
    (inspectPath p safe = .run ↔ ¬ bad) ∧ (inspectPath p safe = .deny ↔ bad) := by
  simp only [inspectPath, hf]
  by_cases hb : bad
  · simp [hs, hb]
  · simp [hs, hb]

theorem inspect_path {p : Proc} {s : Sys} {path : List Byte} (hs : s ∈ pathCalls)
    (hf : fetchstr p p.trapframe.a0 maxpath = some path) :
    (inspect p s = .run ↔ ¬ Refusable p s path) ∧
      (inspect p s = .deny ↔ Refusable p s path) := by
  have h0 := (fetchstr_string hf).1
  simp only [pathCalls, List.mem_cons, List.not_mem_nil, or_false] at hs
  rcases hs with rfl | rfl | rfl
  · have hsecret : strncmp path secretName 6 = 0 ↔ secretName <+: path :=
      strncmp_eq_zero_iff secretName path (by decide)
    refine inspectPath_iff hf ?_
    simp only [decide_eq_true_eq, ne_eq, hsecret, Refusable, ForWriting, Guarded]
    tauto
  · have hsh : strncmp path shName 3 = 0 ↔ path = shName :=
      strncmp_succ_eq_zero_iff shName path (by decide) h0
    have hrm : strncmp path rmName 3 = 0 ↔ path = rmName :=
      strncmp_succ_eq_zero_iff rmName path (by decide) h0
    refine inspectPath_iff hf ?_
    simp [hsh, hrm, Refusable, ForWriting, Guarded]
  · have hbin : strncmp path binName 5 = 0 ↔ binName <+: path :=
      strncmp_eq_zero_iff binName path (by decide)
    have hreadme : strncmp path readmeName 6 = 0 ↔ readmeName <+: path :=
      strncmp_eq_zero_iff readmeName path (by decide)
    have haudit : strncmp path auditName 9 = 0 ↔ auditName <+: path :=
      strncmp_eq_zero_iff auditName path (by decide)
    refine inspectPath_iff hf ?_
    simp [hbin, hreadme, haudit, Refusable, ForWriting, Guarded]

def SameVerdict (p q : Proc) (s : Sys) : Prop :=
  Admits p s ∧ Admits q s ∨ Refuses p ∧ Refuses q

section Verdicts

variable {p : Proc} {s : Sys} (hs : s ∈ pathCalls) (hk : p.killed = 0)
  (hnum : Sys.ofNum (argint p.trapframe.a7) = some s)
  (hm : masked p (argint p.trapframe.a7) = true)
include hs hk hnum hm

theorem aimed_verdict {a : U64} {path : List Byte} (hf : fetchstr p a maxpath = some path) :
    (Admits (aimed p a) s ↔ ¬ Refusable p s path) ∧
      (Refuses (aimed p a) ↔ Refusable p s path) := by
  obtain ⟨hr, hd⟩ := inspect_path (p := aimed p a) hs hf
  constructor
  · exact ⟨fun h => hr.mp (h.2.2 hm), fun h => ⟨hk, hnum, fun _ => hr.mpr h⟩⟩
  · constructor
    · rintro ⟨_, s', hs', _, hi⟩
      obtain rfl : s = s' := Option.some.inj (hnum.symm.trans hs')
      exact hd.mp hi
    · exact fun h => ⟨hk, s, hnum, hm, hd.mpr h⟩

theorem sameVerdict_iff_refusable {a₁ a2 : U64} {path1 path2 : List Byte}
    (h1 : fetchstr p a₁ maxpath = some path1) (h2 : fetchstr p a2 maxpath = some path2) :
    SameVerdict (aimed p a₁) (aimed p a2) s ↔
      (Refusable p s path1 ↔ Refusable p s path2) := by
  obtain ⟨ha1, hr1⟩ := aimed_verdict hs hk hnum hm h1
  obtain ⟨ha2, hr2⟩ := aimed_verdict hs hk hnum hm h2
  rw [SameVerdict, ha1, ha2, hr1, hr2]
  by_cases b1 : Refusable p s path1 <;> by_cases b2 : Refusable p s path2 <;> simp [b1, b2]

end Verdicts

/-- The verdicts on two readable paths agree, with all other arguments equal,
exactly when the call is an open for writing or both strings are guarded spellings
or neither is. What the strings resolve to does not enter. -/
theorem verdicts_agree_iff (p : Proc) (s : Sys) (a₁ a2 : U64) (path1 path2 : List Byte)
    (hs : s ∈ pathCalls) (hk : p.killed = 0) (hnum : Sys.ofNum (argint p.trapframe.a7) = some s)
    (hm : masked p (argint p.trapframe.a7) = true)
    (h1 : fetchstr p a₁ maxpath = some path1) (h2 : fetchstr p a2 maxpath = some path2) :
    SameVerdict (aimed p a₁) (aimed p a2) s ↔
      ForWriting p s ∨ (Guarded path1 s ↔ Guarded path2 s) := by
  rw [sameVerdict_iff_refusable hs hk hnum hm h1 h2, Refusable, Refusable]
  by_cases hw : ForWriting p s <;> simp [hw]

def rootInode : Inode :=
  ⟨rootdev, rootino, 1, false, true, { Dinode.zero with type := tDir, nlink := 1 }⟩

def rootFs : Fs := bareFs.setInode 0 rootInode

def shPage : Nat → Byte := fun n =>
  ((bytes ['s', 'h'] ++ List.replicate 14 0 ++ bytes ['/', 's', 'h']).getD n 0)

def execSh : Proc :=
  { Proc.zero with
    state := .running
    pagetable := fun n => if n = 0 then some ⟨shPage, true, false, false, true⟩ else none
    trapframe := { Trapframe.zero with a7 := 7 }
    cwd := some 0
    syscallMask := 0x80 }

/-- `sh` and `/sh` name one file, and only the first is refused. -/
theorem verdicts_agree_iff_execSh :
    ¬ SameVerdict (aimed execSh 0) (aimed execSh 16) .exec := by
  rw [verdicts_agree_iff execSh .exec 0 16 (bytes ['s', 'h']) (bytes ['/', 's', 'h']) (by decide)
    (by decide) (by decide) (by decide) (by decide) (by decide)]
  simp only [ForWriting, Guarded]
  decide

/-- Both strings name the entry "sh" of the root; one is refused, the other is not. -/
theorem execSh_spelling_decides :
    SameEntry rootFs execSh.cwd (bytes ['s', 'h']) (bytes ['/', 's', 'h']) ∧
      fetchstr execSh 0 maxpath = some (bytes ['s', 'h']) ∧
      fetchstr execSh 16 maxpath = some (bytes ['/', 's', 'h']) ∧
      Refuses (aimed execSh 0) ∧ Admits (aimed execSh 16) .exec :=
  ⟨⟨0, 0, shName, _, _, rfl, rfl, rfl, rfl⟩, by decide, by decide,
    ⟨by decide, .exec, by decide, by decide, by decide⟩, by decide⟩

end Xv6Filter.Proofs
