import Xv6Filter.Fs.Dir
import Xv6Filter.Lib.Texts

namespace Xv6Filter.Paths
open Lib Fs

structure CString where
  bytes : List Byte
  noNul : 0 ∉ bytes

/-- The character at `i`; behind the last one stands the NUL. -/
def CString.at (s : CString) (i : Nat) : Byte := s.bytes.getD i 0

theorem CString.lt_of_at {s : CString} (h : s.at i ≠ 0) : i < s.bytes.length := by
  by_contra hi
  exact h (by simp [CString.at, List.getElem?_eq_none (Nat.le_of_not_lt hi)])

def skipSlashes (s : CString) (path : Nat) : Nat :=
  if s.at path = slash then skipSlashes s (path + 1) else path
termination_by s.bytes.length - path
decreasing_by
  have := CString.lt_of_at (s := s) (i := path) (by simp [*, slash])
  omega

def skipName (s : CString) (path : Nat) : Nat :=
  if s.at path ≠ slash ∧ s.at path ≠ 0 then skipName s (path + 1) else path
termination_by s.bytes.length - path
decreasing_by
  have := CString.lt_of_at (s := s) (i := path) (by simp [*])
  omega

/-- `skipelem`: the pointer behind the next element, or 0, and the buffer with the element. -/
def skipelem (s : CString) (path : Nat) (name : Nat → Byte) : Option Nat × (Nat → Byte) :=
  let path := skipSlashes s path
  if s.at path = 0 then (none, name)
  else
    let start := path
    let path := skipName s path
    let len := path - start
    let name :=
      if len ≥ dirsiz then splice name 0 (slice s.at start dirsiz)
      else Function.update (splice name 0 (slice s.at start len)) len 0
    (some (skipSlashes s path), name)

theorem le_skipSlashes (s : CString) (i : Nat) : i ≤ skipSlashes s i := by
  fun_induction skipSlashes s i with
  | case1 i _ ih => omega
  | case2 => exact Nat.le_refl _

theorem lt_skipName {s : CString} (hs : s.at i ≠ slash) (h0 : s.at i ≠ 0) : i < skipName s i := by
  have hle : ∀ j, j ≤ skipName s j := by
    intro j
    fun_induction skipName s j with
    | case1 j _ ih => omega
    | case2 => exact Nat.le_refl _
  rw [skipName, if_pos ⟨hs, h0⟩]
  exact hle (i + 1)

theorem at_skipSlashes (s : CString) (i : Nat) : s.at (skipSlashes s i) ≠ slash := by
  fun_induction skipSlashes s i with
  | case1 i _ ih => exact ih
  | case2 i h => exact h

theorem skipelem_shorter {s : CString} (h : skipelem s path name = (some rest, name')) :
    s.bytes.length - rest < s.bytes.length - path := by
  unfold skipelem at h
  dsimp only at h
  split at h
  · cases h
  · rename_i h0
    have hrest := congrArg Prod.fst h
    have hstart := le_skipSlashes s path
    have hin := CString.lt_of_at h0
    have hname := lt_skipName (at_skipSlashes s path) h0
    have hend := le_skipSlashes s (skipName s (skipSlashes s path))
    rw [Option.some.inj hrest] at hend
    omega

/-- `skipelem` until it returns 0: what it returns and leaves in the buffer each time. -/
def elements (s : CString) (path : Nat) (name : Nat → Byte) : List (Nat × (Nat → Byte)) :=
  match _h : skipelem s path name with
  | (none, _) => []
  | (some rest, name) => (rest, name) :: elements s rest name
termination_by s.bytes.length - path
decreasing_by exact skipelem_shorter ‹_›

/-- The name in the buffer: what a comparison of `dirsiz` characters looks at. -/
def nameOf (name : Nat → Byte) : List Byte := stringAt name dirsiz 0

def namexLoop (parent : Bool) (s : CString) (fs : Fs) (ip : Ip) (path : Nat) (name : Nat → Byte) :
    Kern (Option Ip × (Nat → Byte) × Fs) :=
  match _h : skipelem s path name with
  | (none, name) =>
    if parent then do
      let fs ← fs.iput ip
      pure (none, name, fs)
    else pure (some ip, name, fs)
  | (some rest, name) => do
    let fs ← fs.ilock ip
    if (fs.inode ip).din.type ≠ tDir then do
      let fs ← fs.iunlockput ip
      pure (none, name, fs)
    else if parent = true ∧ s.at rest = 0 then do
      let fs ← fs.iunlock ip
      pure (some ip, name, fs)
    else do
      let (next, fs) ← fs.dirlookup ip (nameOf name)
      let fs ← fs.iunlockput ip
      match next with
      | none => pure (none, name, fs)
      | some (next, _) => namexLoop parent s fs next rest name
termination_by s.bytes.length - path
decreasing_by exact skipelem_shorter ‹_›

def startOf (fs : Fs) (cwd : Option Ip) (first : Byte) : Kern (Ip × Fs) :=
  if first = slash then fs.iget rootdev rootino
  else match cwd with
    | none => throw (.panic .kerneltrap)
    | some cwd => pure (cwd, fs.idup cwd)

def namex (parent : Bool) (fs : Fs) (cwd : Option Ip) (s : CString) (name : Nat → Byte) :
    Kern (Option Ip × (Nat → Byte) × Fs) := do
  let (ip, fs) ← startOf fs cwd (s.at 0)
  namexLoop parent s fs ip 0 name

end Xv6Filter.Paths
