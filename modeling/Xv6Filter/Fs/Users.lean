import Xv6Filter.Fs.Inode
import Xv6Filter.Lib.Run

namespace Xv6Filter

/-- The inode table with any processes `P` at work: `refs` lists the references that open
files, current directories and lookups in progress have. -/
structure InodeUsers (P : Type) where
  fs : Fs
  refs : List (P × Ip)

inductive InodeEvent (P : Type) where
  | iget (p : P) (inum : Nat)
  | idup (p : P) (ip : Ip)
  /-- the end of `iput`, `ip->ref--` -/
  | iput (p : P) (ip : Ip)
  /-- anything that does not touch a `ref` -/
  | work (fs : Fs)

namespace InodeUsers

variable {P : Type} [DecidableEq P]

/-- One section of one process under `itable.lock`, or work outside of it. -/
def step (s : InodeUsers P) : InodeEvent P → Option (InodeUsers P)
  | .iget p inum =>
    match s.fs.iget rootdev inum with
    | .error _ => none
    | .ok (ip, fs) => some ⟨fs, (p, ip) :: s.refs⟩
  | .idup p ip => if ip ∈ s.refs.map Prod.snd then some ⟨s.fs.idup ip, (p, ip) :: s.refs⟩ else none
  | .iput p ip =>
    if (p, ip) ∈ s.refs then
      some ⟨s.fs.setInode ip { s.fs.inode ip with ref := (s.fs.inode ip).ref - 1 }, s.refs.erase (p, ip)⟩
    else none
  | .work fs => if ∀ e, (fs.inode e).ref = (s.fs.inode e).ref then some ⟨fs, s.refs⟩ else none

end InodeUsers

end Xv6Filter
