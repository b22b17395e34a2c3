import Xv6Filter.Proofs.Directory

namespace Xv6Filter.Proofs
open Lib

namespace Tree

def lookup (t : Tree) (d : Nat) (name : List Byte) : Option Nat :=
  ((t.ents d).find? fun de => decide (Matches name de)).map Fs.Dirent.inum

/-- Following the elements of a path from inode `n` on, to the end or to the last directory. -/
def walk (t : Tree) (parent : Bool) : Nat → Nat → List Byte → Option (Nat × List Byte)
  | 0, n, _ => some (n, [])
  | rounds + 1, n, path =>
    match Fs.skipelem path with
    | none => if parent then none else some (n, [])
    | some (name, rest) =>
      if t.kind n ≠ tDir then none
      else if parent = true ∧ rest = [] then some (n, name)
      else match t.lookup n name with
        | none => none
        | some m => t.walk parent rounds m rest

def resolve (t : Tree) (parent : Bool) (cwd : Nat) (path : List Byte) : Option (Nat × List Byte) :=
  t.walk parent (path.length + 1) (if path.head? = some Fs.slash then rootino else cwd) path

def Dangling (t : Tree) : Prop :=
  t.kind rootino = tFree ∨ ∃ d, ∃ de ∈ t.ents d, de.inum ≠ 0 ∧ t.kind de.inum = tFree

theorem lookup_first {t : Tree} (h : FirstAt name (t.ents d) i de) : t.lookup d name = some de.inum := by
  unfold lookup
  have : (t.ents d).find? (fun de => decide (Matches name de)) = some de := by
    rw [List.find?_eq_some_iff_getElem]
    obtain ⟨hi, hde⟩ := List.getElem?_eq_some_iff.mp h.here
    refine ⟨by simpa using h.found, i, hi, hde, ?_⟩
    intro j hj
    have := h.first j _ hj (List.getElem?_eq_getElem (by omega))
    simpa using this
  rw [this]
  rfl

theorem lookup_absent {t : Tree} (h : ∀ de ∈ t.ents d, ¬ Matches name de) : t.lookup d name = none := by
  unfold lookup
  rw [List.find?_eq_none.mpr]
  · rfl
  · intro de hde
    simpa using h de hde

theorem dangling_of_first {t : Tree} (h : FirstAt name (t.ents d) i de) (hf : t.kind de.inum = tFree) :
    t.Dangling :=
  .inr ⟨d, de, List.mem_of_getElem? h.here, h.found.1, hf⟩

end Tree

/-- The failures of a walk through the tree `t`, in an operation as for `Tight`. -/
def Astray (fs0 : Fs) (k : Nat) (t : Tree) (e : Stop) : Prop :=
  Tight fs0 k e ∨ e = .panic .ilockNoType ∧ t.Dangling

theorem Astray.mono {t : Tree} (h : Astray fs0 k t e) (hk : k ≤ k') : Astray fs0 k' t e :=
  h.imp (fun h => h.mono hk) id

theorem Astray.plain {t : Tree} (h : Plain e) : Astray fs0 k t e := .inl (.inl h)

structure Walked (fs0 : Fs) (hs : List Taken) (res : Option (Nat × List Byte)) (fs : Fs)
    (found : Option (Ip × List Byte)) (fs' : Fs) : Prop where
  disk : SameDisk fs fs'
  none : found = none → res = none ∧ Busy fs0 hs fs'
  some : ∀ ip name, found = some (ip, name) → ∃ n, res = some (n, name) ∧
    Busy fs0 (⟨ip, n, false⟩ :: hs) fs' ∧ ((fs.dinode n).type = tFree → (tree fs).Dangling)

theorem Walked.of_sameDisk (h : Walked fs0 hs res fs1 found fs') (hd : SameDisk fs fs1) :
    Walked fs0 hs res fs found fs' := by
  refine ⟨hd.trans h.disk, h.none, ?_⟩
  intro ip name hf
  have := h.some ip name hf
  rwa [hd.dinode, tree_sameDisk hd] at this

namespace Busy

variable {fs0 fs fs' : Fs} {hs : List Taken} {ip : Ip} {n : Nat} {v : Bool}

theorem ilock_astray (h : Busy fs0 (⟨ip, n, v⟩ :: hs) fs) (k : Nat)
    (hn : v = false → (fs.dinode n).type = tFree → (tree fs).Dangling) :
    Post (fs.ilock ip) (Astray fs0 k (tree fs)) fun fs' =>
      Busy fs0 (⟨ip, n, true⟩ :: hs) fs' ∧ SameDisk fs fs' := by
  refine h.ilock.imp ?_ fun _ hq => hq
  rintro e (he | ⟨he, hv, ht⟩)
  · exact .plain he
  · exact .inr ⟨he, hn hv ht⟩

/-- The loop of `namex` ends where the walk through the tree ends. -/
theorem namexLoop (h : Busy fs0 (⟨ip, n, false⟩ :: hs) fs) (hlast : ∀ m, Lasting fs0 hs m fs)
    (hn : (fs.dinode n).type = tFree → (tree fs).Dangling) (parent : Bool) (rounds : Nat)
    (path : List Byte) :
    Post (Fs.namexLoop parent rounds fs ip path) (Astray fs0 (hs.length + 1) (tree fs)) fun r =>
      Walked fs0 hs ((tree fs).walk parent rounds n path) fs r.1 r.2 := by
  induction rounds generalizing fs ip n path with
  | zero =>
    refine ⟨.refl fs, by simp, ?_⟩
    rintro _ _ ⟨⟩
    exact ⟨n, rfl, h, hn⟩
  | succ rounds ih =>
    unfold Fs.namexLoop Tree.walk
    cases hs' : Fs.skipelem path with
    | none =>
      dsimp only
      cases parent with
      | false =>
        refine ⟨.refl fs, by simp, ?_⟩
        rintro _ _ ⟨⟩
        exact ⟨n, rfl, h, hn⟩
      | true =>
        refine ((h.iput_kept (hlast _)).mono fun _ => .plain).bind ?_
        rintro fs1 ⟨hb, hd⟩
        exact ⟨hd, fun _ => ⟨rfl, hb⟩, by simp⟩
    | some el =>
      obtain ⟨name, rest⟩ := el
      dsimp only
      refine (h.ilock_astray _ fun _ => hn).bind ?_
      rintro fs1 ⟨h1, hd1⟩
      have hlast1 : ∀ m, Lasting fs0 hs m fs1 := fun m => (hlast m).of_sameDisk hd1
      have htree1 := tree_sameDisk hd1
      have hkind : (tree fs).kind n = (fs1.inode ip).din.type := by
        rw [h1.copy.same, hd1.dinode]
        rfl
      rw [hkind]
      by_cases ht : (fs1.inode ip).din.type = tDir
      · simp only [ht, ne_eq, not_true_eq_false, ↓reduceIte]
        by_cases hp : parent = true ∧ rest = []
        · simp only [hp, and_self, ↓reduceIte]
          refine ((h1.iunlock ip).mono fun _ => .plain).bind ?_
          rintro fs2 ⟨h2, hd2⟩
          refine ⟨hd1.trans hd2, by simp, ?_⟩
          rintro _ _ ⟨⟩
          exact ⟨n, rfl, h2.forget, hn⟩
        · simp only [hp, ↓reduceIte]
          refine ((h1.dirlookup name).mono fun _ => .inl).bind ?_
          rintro ⟨next, fs2⟩ ⟨hdir, ⟨hr, hno⟩ | ⟨jp, i, de, rfl, hf, h2, hd2⟩⟩
          · cases hr
            rw [htree1] at hno
            rw [Tree.lookup_absent hno]
            refine ((h1.iunlockput_kept (hlast1 _)).mono fun _ => .plain).bind ?_
            rintro fs3 ⟨h3, hd3⟩
            exact ⟨hd1.trans hd3, fun _ => ⟨rfl, h3⟩, by simp⟩
          · rw [htree1] at hf
            rw [Tree.lookup_first hf]
            refine ((h2.swap.iunlockput_kept (((hlast1 n).cons _).of_sameDisk hd2)).mono fun _ => .plain).bind ?_
            rintro fs3 ⟨h3, hd3⟩
            have hdisk := (hd1.trans hd2).trans hd3
            have htree := tree_sameDisk hdisk
            have hdang : (fs3.dinode de.inum).type = tFree → (tree fs3).Dangling := by
              rw [htree, hdisk.dinode]
              exact fun hfree => Tree.dangling_of_first hf hfree
            have := ih h3 (fun m => (hlast m).of_sameDisk hdisk) hdang rest
            rw [htree] at this
            refine this.imp (fun _ he => he) ?_
            exact fun _ hw => hw.of_sameDisk hdisk
      · simp only [ht, ne_eq, not_false_eq_true, ↓reduceIte]
        refine ((h1.iunlockput_kept (hlast1 _)).mono fun _ => .plain).bind ?_
        rintro fs2 ⟨h2, hd2⟩
        exact ⟨hd1.trans hd2, fun _ => ⟨rfl, h2⟩, by simp⟩

theorem namex (h : Busy fs0 hs fs) {cwd : Option Ip}
    (hcwd : ∀ e ∈ cwd, 0 < (fs0.inode e).ref) (parent : Bool) (path : List Byte) :
    Post (Fs.namex parent fs cwd path) (Astray fs0 (hs.length + 1) (tree fs)) fun r =>
      Walked fs0 hs ((tree fs).resolve parent (cwd.elim 0 fun e => (fs0.inode e).inum) path) fs
        r.1 r.2 := by
  unfold Fs.namex Tree.resolve
  dsimp only
  split
  · refine ((h.iget (n := rootino) (by decide)).imp (fun _ he => .inl (he.mono (Nat.le_succ _))) fun _ hq => hq).bind ?_
    rintro ⟨ip, fs1⟩ ⟨h1, hd1⟩
    have hroot : (fs1.dinode rootino).type = tFree → (tree fs1).Dangling := fun ht => .inl ht
    refine ((h1.namexLoop (fun m => (h.lasting m).of_sameDisk hd1) hroot parent _ path).imp ?_ ?_)
    · rw [tree_sameDisk hd1]
      exact fun _ he => he
    · rw [tree_sameDisk hd1]
      exact fun _ hw => hw.of_sameDisk hd1
  · cases cwd with
    | none => exact .plain (by simp [Plain])
    | some e =>
      have hr := hcwd e rfl
      have hd1 : SameDisk fs (fs.idup e) := .setInode _ _ _
      have htyped : (fs.idup e).dinode (fs0.inode e).inum = fs.dinode (fs0.inode e).inum := rfl
      have hno : ((fs.idup e).dinode (fs0.inode e).inum).type = tFree → (tree (fs.idup e)).Dangling := by
        intro ht
        rw [htyped, h.type e hr] at ht
        exact absurd ht (h.typed e hr)
      refine ((h.idup hr).namexLoop (fun m => (h.lasting m).of_sameDisk hd1) hno parent _ path).imp ?_ ?_
      · rw [tree_sameDisk hd1]
        exact fun _ he => he
      · rw [tree_sameDisk hd1]
        exact fun _ hw => hw.of_sameDisk hd1

theorem namei (h : Busy fs0 hs fs) {cwd : Option Ip}
    (hcwd : ∀ e ∈ cwd, 0 < (fs0.inode e).ref) (path : List Byte) :
    Post (fs.namei cwd path) (Astray fs0 (hs.length + 1) (tree fs)) fun r => ∃ name,
      Walked fs0 hs ((tree fs).resolve false (cwd.elim 0 fun e => (fs0.inode e).inum) path) fs
        (r.1.map fun ip => (ip, name)) r.2 := by
  unfold Fs.namei
  refine (h.namex hcwd false path).bind ?_
  rintro ⟨found, fs1⟩ hw
  cases found with
  | none => exact ⟨[], hw⟩
  | some r => exact ⟨r.2, hw⟩

/-- An operation that looks up the directory of a path and locks it. -/
theorem nameiparent_ilock (h : Busy fs0 hs fs) {cwd : Option Ip}
    (hcwd : ∀ e ∈ cwd, 0 < (fs0.inode e).ref) (path : List Byte)
    {f : Option (Ip × List Byte) × Fs → Kern α} {go : Ip → List Byte → Fs → Kern α} {E : Stop → Prop}
    {Q : α → Prop} (he : ∀ e, Astray fs0 (hs.length + 1) (tree fs) e → E e)
    (hf : ∀ dp name fs', f (some (dp, name), fs') = fs'.ilock dp >>= go dp name)
    (hstop : ∀ fs', (tree fs).resolve true (cwd.elim 0 fun e => (fs0.inode e).inum) path = none →
      Busy fs0 hs fs' → SameDisk fs fs' → Post (f (none, fs')) E Q)
    (hgo : ∀ dp d name fs', (tree fs).resolve true (cwd.elim 0 fun e => (fs0.inode e).inum) path =
      some (d, name) → Busy fs0 (⟨dp, d, true⟩ :: hs) fs' → SameDisk fs fs' →
      Post (go dp name fs') E Q) :
    Post (fs.nameiparent cwd path >>= f) E Q := by
  refine ((h.namex hcwd true path).imp he fun _ hq => hq).bind ?_
  rintro ⟨parent, fs1⟩ hw
  have hd1 : SameDisk fs fs1 := hw.disk
  cases parent with
  | none => exact hstop fs1 (hw.none rfl).1 (hw.none rfl).2 hd1
  | some found =>
    obtain ⟨dp, name⟩ := found
    obtain ⟨d, hres, h1, hd0⟩ := hw.some dp name rfl
    rw [← hd1.dinode, ← tree_sameDisk hd1] at hd0
    have hlock := h1.ilock_astray (hs.length + 1) fun _ => hd0
    rw [tree_sameDisk hd1] at hlock
    rw [hf]
    refine (hlock.imp he fun _ hq => hq).bind ?_
    rintro fs2 ⟨h2, hd2⟩
    exact hgo dp d name fs2 hres h2 (hd1.trans hd2)

/-- A call that looks up a path and locks what it finds is judged by its two continuations. -/
theorem namei_ilock (h : Busy fs0 [] fs) {cwd : Option Ip} (hcwd : ∀ e ∈ cwd, 0 < (fs0.inode e).ref)
    (path : List Byte) {f : Option Ip × Fs → Kern α} {go : Ip → Fs → Kern α} {E : Stop → Prop}
    {Q : α → Prop} (he : ∀ e, Astray fs0 1 (tree fs) e → E e)
    (hf : ∀ ip fs', f (some ip, fs') = fs'.ilock ip >>= go ip)
    (hstop : ∀ fs', (tree fs).resolve false (cwd.elim 0 fun e => (fs0.inode e).inum) path = none →
      Busy fs0 [] fs' → SameDisk fs fs' → Post (f (none, fs')) E Q)
    (hgo : ∀ ip n name fs', (tree fs).resolve false (cwd.elim 0 fun e => (fs0.inode e).inum) path =
      some (n, name) → Busy fs0 [⟨ip, n, true⟩] fs' → SameDisk fs fs' → Post (go ip fs') E Q) :
    Post (fs.namei cwd path >>= f) E Q := by
  refine ((h.namei hcwd path).imp he fun _ hq => hq).bind ?_
  rintro ⟨found, fs1⟩ ⟨name, hw⟩
  have hd1 : SameDisk fs fs1 := hw.disk
  cases found with
  | none => exact hstop fs1 (hw.none rfl).1 (hw.none rfl).2 hd1
  | some ip =>
    obtain ⟨n, hres, h1, hn0⟩ := hw.some ip name rfl
    rw [← hd1.dinode, ← tree_sameDisk hd1] at hn0
    have hlock := h1.ilock_astray 1 fun _ => hn0
    rw [tree_sameDisk hd1] at hlock
    rw [hf]
    refine (hlock.imp he fun _ hq => hq).bind ?_
    rintro fs2 ⟨h2, hd2⟩
    exact hgo ip n name fs2 hres h2 (hd1.trans hd2)

end Busy

end Xv6Filter.Proofs
