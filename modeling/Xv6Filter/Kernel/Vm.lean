import Xv6Filter.Kernel.Types

namespace Xv6Filter

/-- `walkaddr`: the page at `va`, if it is mapped and user-accessible. -/
def walkaddr (pt : PageTable) (va : Nat) : Option (Nat → Byte) :=
  if va ≥ maxva then none
  else match pt (va / pgsize) with
    | some pte => if pte.u then some pte.frame else none
    | none => none

/-- The inner loop of `copyinstr`: at most `n` bytes of one page from offset `p`,
and whether a NUL ended them. -/
def copyPage (frame : Nat → Byte) : Nat → Nat → List Byte × Bool
  | _, 0 => ([], false)
  | p, n + 1 =>
    if frame p = 0 then ([], true)
    else ((frame p :: (copyPage frame (p + 1) n).1), (copyPage frame (p + 1) n).2)

/-- The outer loop of `copyinstr`. Each round uses up at least one byte of `max`,
so `max` rounds are enough. -/
def copyinstrLoop (pt : PageTable) : Nat → Nat → Nat → Option (List Byte)
  | 0, _, _ => none
  | rounds + 1, srcva, max =>
    if max = 0 then none
    else
      let va0 := srcva / pgsize * pgsize
      match walkaddr pt va0 with
      | none => none
      | some frame =>
        let n := min (pgsize - (srcva - va0)) max
        match copyPage frame (srcva - va0) n with
        | (s, true) => some s
        | (s, false) => (copyinstrLoop pt rounds (va0 + pgsize) (max - n)).map (s ++ ·)

/-- `copyinstr`: the string at `srcva` without its NUL, or failure. -/
def copyinstr (pt : PageTable) (srcva max : Nat) : Option (List Byte) :=
  copyinstrLoop pt max srcva max

/-- What the outer loop of `copyinstr` stores from `dst` on, and whether it got a NUL. -/
def copyinstrStores (pt : PageTable) : Nat → Nat → Nat → List Byte × Bool
  | 0, _, _ => ([], false)
  | rounds + 1, srcva, max =>
    if max = 0 then ([], false)
    else
      let va0 := srcva / pgsize * pgsize
      match walkaddr pt va0 with
      | none => ([], false)
      | some frame =>
        let n := min (pgsize - (srcva - va0)) max
        match copyPage frame (srcva - va0) n with
        | (s, true) => (s ++ [0], true)
        | (s, false) =>
          let (rest, gotNull) := copyinstrStores pt rounds (va0 + pgsize) (max - n)
          (s ++ rest, gotNull)

/-- `fetchstr(addr, buf, max)`: what it leaves in `buf`, or failure. -/
def fetchstr (p : Proc) (addr : U64) (max : Nat) : Option (List Byte) :=
  copyinstr p.pagetable addr.toNat max

def argint (r : U64) : I32 := r.setWidth 32

theorem copyPage_string (frame : Nat → Byte) (p n : Nat) :
    0 ∉ (copyPage frame p n).1 ∧ (copyPage frame p n).1.length ≤ n ∧
      ((copyPage frame p n).2 = true → (copyPage frame p n).1.length < n) := by
  induction n generalizing p with
  | zero => simp [copyPage]
  | succ n ih =>
    by_cases hz : frame p = 0
    · simp [copyPage, hz]
    · obtain ⟨hn, hl, hg⟩ := ih (p + 1)
      refine ⟨by simp [copyPage, hz, hn, eq_comm], by simpa [copyPage, hz] using hl, ?_⟩
      simpa [copyPage, hz] using hg

/-- A fetched string has no NUL inside and leaves room for its own. -/
theorem copyinstrLoop_string (pt : PageTable) (rounds srcva max : Nat) (s : List Byte)
    (h : copyinstrLoop pt rounds srcva max = some s) : 0 ∉ s ∧ s.length < max := by
  induction rounds generalizing srcva max s with
  | zero => simp [copyinstrLoop] at h
  | succ rounds ih =>
    simp only [copyinstrLoop] at h
    split at h
    · simp at h
    · split at h
      · simp at h
      · rename_i frame _
        obtain ⟨hn, hl, hg⟩ := copyPage_string frame (srcva - srcva / pgsize * pgsize)
          (min (pgsize - (srcva - srcva / pgsize * pgsize)) max)
        split at h
        · rename_i s' he
          rw [he] at hn hl hg
          simp only [Option.some.injEq] at h
          subst h
          have hlt := hg rfl
          dsimp only at hlt
          exact ⟨hn, by omega⟩
        · rename_i s' he
          rw [he] at hn hl
          obtain ⟨t, ht, rfl⟩ := Option.map_eq_some_iff.mp h
          obtain ⟨hz, hlt⟩ := ih _ _ _ ht
          dsimp only at hl hn
          refine ⟨by simp [hn, hz], ?_⟩
          simp only [List.length_append]
          omega

theorem fetchstr_string {p : Proc} {addr : U64} {max : Nat} {s : List Byte}
    (h : fetchstr p addr max = some s) : 0 ∉ s ∧ s.length < max :=
  copyinstrLoop_string _ _ _ _ _ h

end Xv6Filter
