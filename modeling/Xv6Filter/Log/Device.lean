import Xv6Filter.Kernel.Types
import Xv6Filter.Lib.Bytes

namespace Xv6Filter

open Function

/-- A disk behind the buffer cache of bio.c, as one process at a time uses it.
`cache` has the contents of the valid buffers and `issued` the disk writes so far. -/
structure Dev where
  disk : Nat → Block
  cache : Nat → Option Block
  refcnt : Nat → Nat
  issued : List (Nat × Block)

/-- Which block's buffer `bget` recycles when it needs one. -/
abbrev Lru := Dev → Nat → Nat

namespace Dev

def boot (disk : Nat → Block) : Dev := ⟨disk, fun _ => none, fun _ => 0, []⟩

def recycle (d : Dev) (v : Nat) : Dev :=
  if d.refcnt v = 0 then { d with cache := update d.cache v none } else d

def bread (lru : Lru) (d : Dev) (b : Nat) : Block × Dev :=
  match d.cache b with
  | some blk => (blk, { d with refcnt := update d.refcnt b (d.refcnt b + 1) })
  | none =>
    let d := d.recycle (lru d b)
    (d.disk b,
      { d with
        cache := update d.cache b (some (d.disk b))
        refcnt := update d.refcnt b 1 })

def fill (d : Dev) (b : Nat) (blk : Block) : Dev :=
  { d with cache := update d.cache b (some blk) }

def bwrite (d : Dev) (b : Nat) : Dev :=
  match d.cache b with
  | some blk =>
    { d with disk := update d.disk b blk, issued := d.issued ++ [(b, blk)] }
  | none => d

def unref (d : Dev) (b : Nat) : Dev :=
  { d with refcnt := update d.refcnt b (d.refcnt b - 1) }

def brelse (d : Dev) (b : Nat) : Dev := d.unref b
def bunpin (d : Dev) (b : Nat) : Dev := d.unref b

end Dev

end Xv6Filter
