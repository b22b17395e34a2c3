import Xv6Filter.Proofs.Naming

namespace Xv6Filter.Proofs
open Lib

def Locked (ls : List Ip) (fs : Fs) : Prop := ∀ e, (fs.inode e).locked = true ↔ e ∈ ls

namespace Locked

variable {ls : List Ip} {fs fs' : Fs} {ip : Ip}

theorem unlocked (h : Locked ls fs) (hip : ip ∉ ls) : (fs.inode ip).locked = false := by
  have hiff := h ip
  cases hl : (fs.inode ip).locked with
  | false => rfl
  | true => exact absurd (hiff.mp hl) hip

theorem setInode (h : Locked ls fs) {i : Inode} (hi : i.locked = (fs.inode ip).locked) :
    Locked ls (fs.setInode ip i) := by
  intro e
  by_cases he : e = ip
  · subst he
    rw [Fs.setInode_inode, Function.update_self, hi]
    exact h e
  · rw [Fs.setInode_inode, Function.update_of_ne he]
    exact h e

theorem lock (h : Locked ls fs) {i : Inode} (hi : i.locked = true) : Locked (ip :: ls) (fs.setInode ip i) := by
  intro e
  by_cases he : e = ip
  · subst he
    simp [hi]
  · simp [he, h e]

theorem unlock (h : Locked (ip :: ls) fs) (hip : ip ∉ ls) {i : Inode} (hi : i.locked = false) :
    Locked ls (fs.setInode ip i) := by
  intro e
  by_cases he : e = ip
  · subst he
    simp [hi, hip]
  · simp [he, h e]

theorem iget (h : Locked ls fs) (dev n : Nat) :
    Post (fs.iget dev n) (fun e => e = .panic .igetNoInodes) fun r => Locked ls r.2 := by
  unfold Fs.iget
  split
  · exact h.setInode rfl
  · split
    · exact h.setInode rfl
    · exact rfl

theorem ilock (h : Locked ls fs) (hip : ip ∉ ls) (hr : 0 < (fs.inode ip).ref) :
    Post (fs.ilock ip) (fun e => e = .panic .ilockNoType) fun fs' => Locked (ip :: ls) fs' := by
  unfold Fs.ilock
  dsimp only
  rw [if_neg (by omega), if_neg (by simp [h.unlocked hip])]
  split
  · exact h.lock rfl
  · split
    · exact rfl
    · exact h.lock rfl

theorem iunlock (h : Locked (ip :: ls) fs) (hip : ip ∉ ls) (hr : 0 < (fs.inode ip).ref) :
    Runs (fs.iunlock ip) fun fs' => Locked ls fs' := by
  unfold Fs.iunlock
  have hlocked : (fs.inode ip).locked = true := (h ip).mpr List.mem_cons_self
  rw [if_neg (by simp [hlocked]; omega)]
  exact h.unlock hip rfl

theorem iput (h : Locked ls fs) (hip : ip ∉ ls) (hb : Busy fs0 (⟨ip, n, v⟩ :: hs) fs) :
    Runs (fs.iput ip) fun fs' => Locked ls fs' := by
  rw [iput_eq]
  split
  · rename_i hlast
    obtain ⟨-, hv, -⟩ := hlast
    obtain ⟨fs1, hrun, htr⟩ := (hb.know hv).copy.itrunc hb.sane.acct
    have he := htr.emptied hb.inum_eq
    rw [if_neg (by simp [h.unlocked hip]), hrun]
    dsimp only
    generalize (fs1.setDin ip { (fs1.inode ip).din with type := tFree }).iupdate ip = fs2 at he
    obtain ⟨d, hd⟩ := he.entry
    intro e
    by_cases hx : e = ip
    · subst hx
      simp [hd, h e]
    · simp [hd, hx, h e]
  · exact h.setInode rfl

theorem iunlockput (h : Locked (ip :: ls) fs) (hip : ip ∉ ls) (hb : Busy fs0 (⟨ip, n, v⟩ :: hs) fs) :
    Runs (fs.iunlockput ip) fun fs' => Locked ls fs' := by
  obtain ⟨fs1, hrun, hl⟩ := (h.iunlock hip hb.ref_pos).result
  have hb1 := (hb.iunlock ip).of_ok hrun
  unfold Fs.iunlockput
  rw [hrun, ok_bind]
  exact hl.iput hip hb1.1

theorem dirlookup (h : Locked ls fs) (hb : Busy fs0 (⟨ip, n, true⟩ :: hs) fs) (hdir : (fs.dinode n).type = tDir)
    (name : List Byte) :
    Post (fs.dirlookup ip name) (fun e => e = .panic .igetNoInodes) fun r => Locked ls r.2 := by
  rcases find_first name ((tree fs).ents n) with hno | ⟨i, de, hf⟩
  · rw [hb.dirlookup_absent hdir hno]
    exact h
  · rw [hb.dirlookup_first hdir hf]
    have hget := h.iget rootdev de.inum
    cases hg : fs.iget rootdev de.inum with
    | error e => exact hget.of_error hg
    | ok r => exact hget.of_ok hg

end Locked

/-- The two panics of a path lookup: no entry of the table is unused, or an entry of a directory
names an inode that is free. -/
def Strays (fs0 : Fs) (k : Nat) (t : Tree) (e : Stop) : Prop :=
  e = .panic .igetNoInodes ∧ ninode ≤ inUse fs0 + k ∨ e = .panic .ilockNoType ∧ t.Dangling

theorem Astray.strays {t : Tree} (h : Astray fs0 k t e) (he : e = .panic .igetNoInodes ∨ e = .panic .ilockNoType) :
    Strays fs0 k t e := by
  rcases h with (hp | hi) | hd
  · rcases he with rfl | rfl
    · exact absurd rfl hp.2.2.2
    · exact absurd rfl hp.2.1
  · exact .inl hi
  · exact .inr hd

namespace Busy

variable {fs0 fs fs' : Fs} {hs : List Taken} {ip : Ip} {n : Nat} {v : Bool}

theorem namexLoop_locks (h : Busy fs0 (⟨ip, n, false⟩ :: hs) fs) (hlast : ∀ m, Lasting fs0 hs m fs)
    (hl : Locked [] fs) (parent : Bool) (rounds : Nat) (path : List Byte) :
    Post (Fs.namexLoop parent rounds fs ip path)
      (fun e => e = .panic .igetNoInodes ∨ e = .panic .ilockNoType) fun r => Locked [] r.2 := by
  induction rounds generalizing fs ip n path with
  | zero => exact hl
  | succ rounds ih =>
    unfold Fs.namexLoop
    cases hskip : Fs.skipelem path with
    | none =>
      dsimp only
      cases parent with
      | false => exact hl
      | true =>
        refine (hl.iput List.not_mem_nil h).post.bind ?_
        intro fs1 hl1
        exact hl1
    | some el =>
      obtain ⟨name, rest⟩ := el
      dsimp only
      refine ((h.ilock.and (hl.ilock List.not_mem_nil h.ref_pos)).mono fun _ he => .inr he.2).bind ?_
      rintro fs1 ⟨⟨h1, hd1⟩, hl1⟩
      have hlast1 : ∀ m, Lasting fs0 hs m fs1 := fun m => (hlast m).of_sameDisk hd1
      split
      · refine (hl1.iunlockput List.not_mem_nil h1).post.bind ?_
        intro fs2 hl2
        exact hl2
      · rename_i hdir
        split
        · refine (hl1.iunlock List.not_mem_nil h1.ref_pos).post.bind ?_
          intro fs2 hl2
          exact hl2
        · have hkind : (fs1.dinode n).type = tDir := by
            rw [← h1.copy.same]
            exact not_not.mp hdir
          refine (((h1.dirlookup name).and (hl1.dirlookup h1 hkind name)).mono fun _ he => .inl he.2).bind ?_
          rintro ⟨next, fs2⟩ ⟨⟨-, ⟨hr, -⟩ | ⟨jp, i, de, rfl, -, h2, hd2⟩⟩, hl2⟩
          · cases hr
            refine (hl2.iunlockput List.not_mem_nil h1).post.bind ?_
            intro fs3 hl3
            exact hl3
          · obtain ⟨fs3, hrun, hl3⟩ := (hl2.iunlockput List.not_mem_nil h2.swap).result
            obtain ⟨h3, hd3⟩ := (h2.swap.iunlockput_kept (((hlast1 n).cons _).of_sameDisk hd2)).of_ok hrun
            rw [hrun, ok_bind]
            exact ih h3 (fun m => (hlast m).of_sameDisk ((hd1.trans hd2).trans hd3)) hl3 rest

theorem namei_sure (h : Busy fs0 hs fs) {cwd : Option Ip} (hcwd : ∀ e ∈ cwd, 0 < (fs0.inode e).ref)
    (hsome : cwd.isSome) (hl : Locked [] fs) (path : List Byte) :
    Post (fs.namei cwd path) (Strays fs0 (hs.length + 1) (tree fs)) fun r => Locked [] r.2 ∧ ∃ name,
      Walked fs0 hs ((tree fs).resolve false (cwd.elim 0 fun e => (fs0.inode e).inum) path) fs
        (r.1.map fun ip => (ip, name)) r.2 := by
  have hlocks : Post (fs.namei cwd path) (fun e => e = .panic .igetNoInodes ∨ e = .panic .ilockNoType)
      fun r => Locked [] r.2 := by
    unfold Fs.namei Fs.namex
    refine Post.bind (Q := fun r : Option (Ip × List Byte) × Fs => Locked [] r.2) ?_ ?_
    swap
    · rintro ⟨r, fs1⟩ hr
      exact hr
    split
    · refine (((h.iget (n := rootino) (by decide)).and (hl.iget rootdev rootino)).mono fun _ he => .inl he.2).bind ?_
      rintro ⟨ip, fs1⟩ ⟨⟨h1, hd1⟩, hl1⟩
      exact h1.namexLoop_locks (fun m => (h.lasting m).of_sameDisk hd1) hl1 false _ path
    · obtain ⟨e, rfl⟩ := Option.isSome_iff_exists.mp hsome
      have hd1 : SameDisk fs (fs.idup e) := .setInode _ _ _
      exact (h.idup (hcwd e rfl)).namexLoop_locks (fun m => (h.lasting m).of_sameDisk hd1) (hl.setInode rfl) false _ path
  exact ((h.namei hcwd path).and hlocks).imp (fun _ he => he.1.strays he.2) fun _ hq => ⟨hq.2, hq.1⟩

theorem ilock_file (h : Busy fs0 (⟨ip, n, v⟩ :: hs) fs) (hl : Locked [] fs) (hn : (fs.dinode n).type ≠ tFree) :
    Runs (fs.ilock ip) fun fs' => Locked [ip] fs' ∧ Busy fs0 (⟨ip, n, true⟩ :: hs) fs' ∧ SameDisk fs fs' := by
  have hpost := h.ilock.and (hl.ilock List.not_mem_nil h.ref_pos)
  cases hrun : fs.ilock ip with
  | error e =>
    obtain ⟨hp | ⟨-, -, hfree⟩, rfl⟩ := hpost.of_error hrun
    · exact absurd rfl hp.2.1
    · exact absurd hfree hn
  | ok fs' =>
    obtain ⟨hb, hl'⟩ := hpost.of_ok hrun
    exact ⟨hl', hb⟩

end Busy

end Xv6Filter.Proofs
