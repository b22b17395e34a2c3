import Xv6Filter.Lib.Slots
import Xv6Filter.Proofs.Entries
import Xv6Filter.Proofs.ImageRead

namespace Xv6Filter.Proofs
open Lib Function

def entryKey (de : Fs.Dirent) : Option (List Byte) :=
  if de.inum = 0 then none else some (nameKey de.name)

abbrev NameChanges := List (Slots.Change (List Byte) Nat)

abbrev NamesAre (es : List Fs.Dirent) (past : NameChanges) : Prop :=
  Slots.Reflects entryKey Fs.Dirent.inum es past

theorem matches_iff_entryKey (name : List Byte) (de : Fs.Dirent) :
    Matches name de ↔ entryKey de = some (nameKey name) := by
  rw [matches_iff, entryKey]
  by_cases h0 : de.inum = 0
  · simp [h0]
  · simp [h0, eq_comm]

theorem entryKey_blank : entryKey blankEntry = none := rfl

theorem entryKey_new (hn : n ≠ 0) (name : List Byte) :
    entryKey ⟨n, strncpy name dirsiz⟩ = some (nameKey name) := by
  rw [entryKey, if_neg hn, nameKey_strncpy]

namespace NamesAre

variable {es : List Fs.Dirent} {past : NameChanges} {t : Tree} {name : List Byte} {de : Fs.Dirent}

/-- The first entry in use for a name is what the changes left of it. -/
theorem lookup_eq (h : NamesAre (t.ents d) past) (name : List Byte) :
    t.lookup d name = Slots.latest past (nameKey name) := by
  rw [← h.found, Tree.lookup, Slots.find]
  congr 2
  funext de
  rw [decide_eq_decide, matches_iff_entryKey]

theorem link (h : NamesAre es past) (hn : n ≠ 0) (hno : ∀ de ∈ es, ¬ Matches name de) :
    NamesAre (putFirst es ⟨n, strncpy name dirsiz⟩) (.put (nameKey name) n :: past) := by
  have hkey := entryKey_new hn name
  simp only [matches_iff_entryKey] at hno
  rcases putFirst_cases es ⟨n, strncpy name dirsiz⟩ with hp | ⟨l, r, x, rfl, hx, hp⟩
  · rw [hp]
    exact Slots.Reflects.put (m := []) (by simpa using h) (by simp) hkey (by simpa using hno)
  · rw [hp]
    refine Slots.Reflects.put (m := [x]) (by simpa using h) ?_ hkey ?_
    · intro e he
      rw [List.mem_singleton.mp he, entryKey, if_pos hx]
    · intro e he
      exact hno e (by rcases List.mem_append.mp he with he | he <;> simp [he])

theorem unlink (h : NamesAre es past) (hf : FirstAt name es i de) :
    NamesAre (es.set i blankEntry) (.drop (nameKey name) :: past) := by
  obtain ⟨hi, hde⟩ := List.getElem?_eq_some_iff.mp hf.here
  have hsplit : es = es.take i ++ de :: es.drop (i + 1) := by
    rw [← hde, ← List.drop_eq_getElem_cons hi, List.take_append_drop]
  rw [List.set_eq_take_append_cons_drop, if_pos hi]
  rw [hsplit] at h
  exact Slots.Reflects.drop h ((matches_iff_entryKey name de).mp hf.found) entryKey_blank

end NamesAre

/-- `dirlink` on a directory that somebody has, between the calls that `create` and `link` make
around it. -/
def linkEntry (fs : Fs) (dp : Ip) (name : List Byte) (n : Nat) : Kern (Bool × Fs) := do
  let fs ← (fs.idup dp).ilock dp
  let (ok, fs) ← fs.dirlink dp name n
  let fs ← fs.iunlockput dp
  pure (ok, fs)

def unlinked (d : Nat) (fs : Fs) (cwd : Option Ip) (path : List Byte) (ok : Bool) : NameChanges :=
  match ok, (tree fs).resolve true (cwd.elim 0 fun e => (fs.inode e).inum) path with
  | true, some (d', name) => if d' = d then [.drop (nameKey name)] else []
  | _, _ => []

/-- A run of calls of `dirlink` on entry `dp`, with inode `d`, and of `unlink` anywhere, and what
it did to directory `d`. -/
inductive NameRun (dp : Ip) (d : Nat) (past0 : NameChanges) (fs0 : Fs) : NameChanges → Fs → Prop
  | start : NameRun dp d past0 fs0 past0 fs0
  | link (before : NameRun dp d past0 fs0 past fs) (hpos : 0 < n) (hn : n < 2 ^ 16)
      (hrun : linkEntry fs dp name n = .ok (ok, fs')) :
      NameRun dp d past0 fs0 (if ok then .put (nameKey name) n :: past else past) fs'
  | unlink (before : NameRun dp d past0 fs0 past fs) (hcwd : ∀ e ∈ cwd, 0 < (fs.inode e).ref)
      (hrun : Kernel.unlinkPath fs cwd path = .ok (ok, fs')) :
      NameRun dp d past0 fs0 (unlinked d fs cwd path ok ++ past) fs'

structure Listing (dp : Ip) (d : Nat) (past : NameChanges) (fs : Fs) : Prop where
  settled : Settled fs
  ref : 0 < (fs.inode dp).ref
  inum : (fs.inode dp).inum = d
  dir : (fs.dinode d).type = tDir
  names : NamesAre ((tree fs).ents d) past

namespace Listing

variable {dp : Ip} {d : Nat} {past past' : NameChanges} {fs fs1 fs' : Fs}

section

variable (h : Listing dp d past fs)

include h

/-- What an operation leaves of the directory, when it has given back its references. -/
theorem after (hb : Busy fs [] fs') (hn : NamesAre ((tree fs').ents d) past') : Listing dp d past' fs' := by
  refine ⟨hb.settled nofun, ?_, ?_, ?_, hn⟩
  · rw [hb.refs dp]
    simpa using h.ref
  · rw [hb.inum dp h.ref, h.inum]
  · have := hb.type dp h.ref
    rw [h.inum] at this
    rw [this, h.dir]

theorem not_sole (hs : List Taken) : ¬ Sole fs hs d :=
  fun hsole => hsole.1 dp h.ref h.inum

theorem lock (hl : (fs.idup dp).ilock dp = .ok fs1) : Busy fs [⟨dp, d, true⟩] fs1 ∧ SameDisk fs fs1 := by
  have hb := (Busy.begin h.settled).idup h.ref
  rw [h.inum] at hb
  obtain ⟨hb1, hd1⟩ := hb.ilock.of_ok hl
  exact ⟨hb1, (SameDisk.setInode _ _ _).trans hd1⟩

theorem opens (hfree : (fs.inode dp).locked = false) : ∃ fs1, (fs.idup dp).ilock dp = .ok fs1 := by
  have hr := h.ref
  have ht := h.dir
  unfold Fs.ilock Fs.idup
  simp only [Fs.setInode_inode, update_self, Fs.setInode_dinode, hfree, h.inum, ht, Bool.false_eq_true,
    ↓reduceIte]
  rw [if_neg (by omega)]
  split
  · exact ⟨_, rfl⟩
  · rw [if_neg (by decide)]
    exact ⟨_, rfl⟩

theorem link (hpos : 0 < n) (hn : n < 2 ^ 16) (hrun : linkEntry fs dp name n = .ok (ok, fs')) :
    Listing dp d (if ok then .put (nameKey name) n :: past else past) fs' := by
  unfold linkEntry at hrun
  obtain ⟨fs1, hl, hrun⟩ := bind_eq_ok.mp hrun
  obtain ⟨⟨done, fs2⟩, hlink, hrun⟩ := bind_eq_ok.mp hrun
  obtain ⟨fs3, hput, hrun⟩ := bind_eq_ok.mp hrun
  cases hrun
  obtain ⟨hb1, hd1⟩ := h.lock hl
  obtain ⟨hb2, -, -, hres⟩ := (hb1.dirlink hn name).of_ok hlink
  obtain ⟨hb3, hd3⟩ := hb2.iunlockput.of_ok hput
  have hd3 : SameDisk fs2 fs' := hd3.resolve_right fun ⟨_, _, _, hsole⟩ => h.not_sole _ hsole
  refine h.after hb3 ?_
  rw [tree_sameDisk hd3]
  rw [tree_sameDisk hd1] at hres
  rcases hres with ⟨rfl, ht⟩ | ⟨rfl, hno, ht⟩
  · rw [ht]
    exact h.names
  · rw [ht, Tree.setEnts]
    dsimp only
    rw [update_self]
    exact h.names.link (by omega) hno

end

theorem ents_parted {t t' : Tree} (hp : Parted d' n i name t t') (hk : t'.kind d ≠ tFree) :
    t'.ents d = if d' = d then (t.ents d).set i blankEntry else t.ents d := by
  rw [hp.result.ents hk, Tree.removed, Tree.detached]
  by_cases hd : d' = d
  · subst hd
    split <;> simp [Tree.setNlink, Tree.setEnts]
  · split <;> simp [Tree.setNlink, Tree.setEnts, Ne.symm hd]

theorem unlink (h : Listing dp d past fs) {cwd : Option Ip} (hcwd : ∀ e ∈ cwd, 0 < (fs.inode e).ref)
    (hrun : Kernel.unlinkPath fs cwd path = .ok (ok, fs')) :
    Listing dp d (unlinked d fs cwd path ok ++ past) fs' := by
  obtain ⟨hfin, hfail, hdone⟩ := ((Busy.begin h.settled).unlinkPath_result hcwd path).of_ok hrun
  refine h.after hfin.busy ?_
  cases ok with
  | false =>
    rw [hfail rfl]
    exact h.names
  | true =>
    obtain ⟨d', n, name, i, hres, hp⟩ := hdone rfl
    have hk : (tree fs').kind d ≠ tFree := by
      have := hfin.busy.type dp h.ref
      rw [h.inum] at this
      change (fs'.dinode d).type ≠ tFree
      rw [this, h.dir]
      decide
    have htook : unlinked d fs cwd path true = if d' = d then [.drop (nameKey name)] else [] := by
      simp only [unlinked, hres]
    rw [ents_parted hp hk, htook]
    by_cases hd : d' = d
    · subst hd
      rw [if_pos rfl, if_pos rfl]
      obtain ⟨de, hf, -⟩ := hp.entry
      exact h.names.unlink hf
    · rw [if_neg hd, if_neg hd]
      exact h.names

theorem run (h : Listing dp d past fs) (hrun : NameRun dp d past fs past' fs') : Listing dp d past' fs' := by
  induction hrun with
  | start => exact h
  | link _ hpos hn hrun ih => exact ih.link hpos hn hrun
  | unlink _ hcwd hrun ih => exact ih.unlink hcwd hrun

end Listing

/-- The locked directory answers as the map that the changes left: no two entries are in use for
one name; `dirlookup` gives the inode of a name or nothing; `dirlink` fails exactly on a name that
is there or when space is exhausted, and changes its own name only. -/
structure AnswersAs (dp : Ip) (d : Nat) (past : NameChanges) (fs : Fs) : Prop where
  apart : Slots.Apart entryKey ((tree fs).ents d)
  absent : ∀ name, Slots.latest past (nameKey name) = none → fs.dirlookup dp name = .ok (none, fs)
  present : ∀ name n, Slots.latest past (nameKey name) = some n → ∃ i, fs.dirlookup dp name =
    (fs.iget rootdev n).map fun r => (some (r.1, direntSize * i), r.2)
  linkNew : ∀ name n, 0 < n → n < 2 ^ 16 → Slots.latest past (nameKey name) = none →
    ∃ ok fs', fs.dirlink dp name n = .ok (ok, fs') ∧
      (ok = false ↔ Exhausted d (direntSize * firstFree ((tree fs).ents d)) fs) ∧
      ∀ other, (tree fs').lookup d other =
        if ok = true ∧ nameKey other = nameKey name then some n else Slots.latest past (nameKey other)
  linkOld : ∀ name n ok fs', n < 2 ^ 16 → Slots.latest past (nameKey name) ≠ none →
    fs.dirlink dp name n = .ok (ok, fs') → ok = false ∧
      ∀ other, (tree fs').lookup d other = Slots.latest past (nameKey other)

namespace Listing

variable {dp : Ip} {d : Nat} {past : NameChanges} {fs fs1 : Fs}

theorem absent_iff (h : Listing dp d past fs) (name : List Byte) :
    Slots.latest past (nameKey name) = none ↔ ∀ de ∈ (tree fs).ents d, ¬ Matches name de := by
  rw [← h.names.lookup_eq]
  constructor
  · intro hno de hde hm
    rcases find_first name ((tree fs).ents d) with habs | ⟨i, x, hf⟩
    · exact habs de hde hm
    · rw [Tree.lookup_first hf] at hno
      cases hno
  · exact Tree.lookup_absent

theorem answersAs (h : Listing dp d past fs) (hl : (fs.idup dp).ilock dp = .ok fs1) :
    AnswersAs dp d past fs1 := by
  obtain ⟨hb, hd⟩ := h.lock hl
  have ht := tree_sameDisk hd
  have hdir : (fs1.dinode d).type = tDir := by rw [hd.dinode, h.dir]
  have hnone := h.absent_iff
  have hlook := h.names.lookup_eq
  rw [← ht] at hnone hlook
  refine ⟨ht ▸ h.names.apart, ?_, ?_, ?_, ?_⟩
  · exact fun name hno => hb.dirlookup_absent hdir ((hnone name).mp hno)
  · intro name n hsome
    rcases find_first name ((tree fs1).ents d) with habs | ⟨i, de, hf⟩
    · rw [(hnone name).mpr habs] at hsome
      cases hsome
    · have hde := Tree.lookup_first hf
      rw [hlook, hsome] at hde
      cases hde
      exact ⟨i, hb.dirlookup_first hdir hf⟩
  · intro name n hpos hn hno
    have habs := (hnone name).mp hno
    obtain ⟨ok, fs', hrun, -, -, hent, hres⟩ := hb.dirlink_new hn hdir habs
    refine ⟨ok, fs', hrun, hent.fits, ?_⟩
    intro other
    rcases hres with ⟨rfl, ht'⟩ | ⟨rfl, ht'⟩
    · rw [ht', hlook]
      simp
    · have hnames : NamesAre ((tree fs').ents d) (.put (nameKey name) n :: past) := by
        rw [ht', Tree.setEnts]
        dsimp only
        rw [update_self]
        exact NamesAre.link (ht ▸ h.names) (by omega) habs
      rw [hnames.lookup_eq, Slots.latest]
      simp
  · intro name n ok fs' hn hsome hrun
    obtain ⟨-, -, -, ⟨rfl, ht'⟩ | ⟨-, hno, -⟩⟩ := (hb.dirlink hn name).of_ok hrun
    · exact ⟨rfl, fun other => by rw [ht', hlook]⟩
    · exact absurd ((hnone name).mpr hno) hsome

end Listing

/-- A directory as mkfs or mkdir makes it, with the names they give; `args` are the files that
mkfs was given. -/
inductive BuiltBy : Option (List Mkfs.Input) → Nat → NameChanges → Fs → Prop
  | mkfs (hr : Mkfs.mkfs inputs = some h) :
      BuiltBy (some inputs) rootino
        ((Mkfs.rootEntries inputs).map fun e => .put (nameKey e.2) e.1).reverse (Fs.ofImage h.sect)
  | mkdir (hs : Settled fs) (hcwd : ∀ e ∈ cwd, 0 < (fs.inode e).ref)
      (hres : (tree fs).resolve true (cwd.elim 0 fun e => (fs.inode e).inum) path = some (p, name))
      (hr : fs.mkdirPath cwd path = .ok (true, fs')) (hfree : (fs.dinode d).type = tFree)
      (hdir : (fs'.dinode d).type = tDir) :
      BuiltBy none d [.put (nameKey dotdot) p, .put (nameKey dot) d] fs'

/-- The files given to mkfs have different names, and so many that it makes a consistent image. -/
def SoundArgs (inputs : List Mkfs.Input) : Prop :=
  Mkfs.NamesApart inputs ∧ inputs.length + 2 ≤ Mkfs.ninodes ∧ direntSize * (inputs.length + 2) % bsize ≠ 0

theorem mkfs_names (hr : Mkfs.mkfs inputs = some h) (hs : SoundArgs inputs) :
    ((Fs.ofImage h.sect).dinode rootino).type = tDir ∧ NamesAre ((tree (Fs.ofImage h.sect)).ents rootino)
      ((Mkfs.rootEntries inputs).map fun e => .put (nameKey e.2) e.1).reverse := by
  obtain ⟨hapart, hfew, hpart⟩ := hs
  have hlt : inputs.length + 2 ≤ Mkfs.ninodeslots := Nat.le_trans hfew (by decide)
  obtain ⟨h₀, hh, hf⟩ := Mkfs.mkfs_finished hlt hr
  refine ⟨by rw [hf.ofImage_dinode hh.toLaid, hf.type_eq, hh.root], ?_⟩
  obtain ⟨k, hents⟩ := hf.root_entries hh hlt hpart
  rw [hents]
  refine Slots.Reflects.unused ?_ ?_
  · have hpos : ∀ e ∈ Mkfs.rootEntries inputs, e.1 ≠ 0 := by
      intro e he
      simp only [Mkfs.rootEntries, List.mem_cons, List.mem_map, Prod.exists] at he
      rcases he with rfl | rfl | ⟨i, j, hj, rfl⟩
      · decide
      · decide
      · have := List.le_snd_of_mem_zipIdx hj
        dsimp only
        omega
    have := (Slots.Reflects.of_nodup (f := fun de => nameKey de.name) ?_ ?_ :
      Slots.Reflects entryKey Fs.Dirent.inum
        ((Mkfs.rootEntries inputs).map fun e => ⟨e.1, strncpy e.2 dirsiz⟩) _)
    · simpa only [List.map_map, comp_def, nameKey_strncpy] using this
    · intro de hde
      obtain ⟨e, he, rfl⟩ := List.mem_map.mp hde
      rw [entryKey, if_neg (hpos e he)]
    · simpa only [List.map_map, comp_def, nameKey_strncpy] using
        Mkfs.rootEntries_nodup hapart hh.named
  · intro e he
    rw [List.eq_of_mem_replicate he, entryKey_blank]

theorem mkdir_names {fs fs' : Fs} {cwd : Option Ip} (hs : Settled fs) (hcwd : ∀ e ∈ cwd, 0 < (fs.inode e).ref)
    (hres : (tree fs).resolve true (cwd.elim 0 fun e => (fs.inode e).inum) path = some (p, name))
    (hr : fs.mkdirPath cwd path = .ok (true, fs')) (hfree : (fs.dinode d).type = tFree)
    (hdir : (fs'.dinode d).type = tDir) :
    NamesAre ((tree fs').ents d) [.put (nameKey dotdot) p, .put (nameKey dot) d] := by
  obtain ⟨-, p', n, -, heff⟩ := ((Busy.begin hs).makeNode hs.toSane.firm hcwd path (by decide) (by decide) 0 0).of_ok hr
  have hkind : (tree fs').kind d = tDir := hdir
  have hfree : (tree fs).kind d = tFree := hfree
  rcases heff with hsame | ⟨name', hres', hmade⟩
  · rw [hsame, hfree] at hkind
    cases hkind
  · rw [hres] at hres'
    cases hres'
    have hpd : p ≠ d := by
      rintro rfl
      have := hmade.dir
      rw [hfree] at this
      cases this
    have hp0 : p ≠ 0 := by
      have ht : (fs.dinode p).type ≠ tFree := by
        change (tree fs).kind p ≠ tFree
        rw [hmade.dir]
        decide
      exact Nat.ne_of_gt (hs.numbered p ht).1
    have hnd : n = d := by
      by_contra hne
      rcases hmade.result.kind d with hk | hk
      · rw [hkind, Tree.created, if_pos rfl] at hk
        simp only [Tree.setNlink, Tree.addEntry, Tree.setEnts, Tree.alloc, update_of_ne (Ne.symm hne)] at hk
        rw [hfree] at hk
        cases hk
      · rw [hkind] at hk
        cases hk
    subst hnd
    have hd0 := hmade.nonzero
    rw [hmade.result.ents (by rw [hkind]; decide), Tree.created, if_pos rfl]
    have hents : ((((tree fs).alloc n tDir).addEntry n ⟨n, strncpy dot dirsiz⟩).addEntry n
        ⟨p, strncpy dotdot dirsiz⟩).ents n = [⟨n, strncpy dot dirsiz⟩, ⟨p, strncpy dotdot dirsiz⟩] := by
      simp [Tree.addEntry, Tree.setEnts, Tree.alloc, firstFree, putAt, List.findIdx_cons, hd0]
    have hother : ∀ (t : Tree) de x, ((t.addEntry p de).setNlink p x).ents n = t.ents n := by
      intro t de x
      simp [Tree.addEntry, Tree.setEnts, Tree.setNlink, Ne.symm hpd]
    rw [hother, hents]
    have := (Slots.Reflects.of_nodup (f := fun de => nameKey de.name) ?_ ?_ :
      Slots.Reflects entryKey Fs.Dirent.inum [⟨n, strncpy dot dirsiz⟩, ⟨p, strncpy dotdot dirsiz⟩] _)
    · simpa only [List.map_cons, List.map_nil, nameKey_strncpy, List.reverse_cons, List.reverse_nil,
        List.nil_append, List.singleton_append] using this
    · intro de hde
      rcases List.mem_cons.mp hde with rfl | hde
      · rw [entryKey, if_neg hd0]
      · rw [List.mem_singleton.mp hde, entryKey, if_neg hp0]
    · simp only [List.map_cons, List.map_nil, nameKey_strncpy]
      decide

/-- A directory that mkfs or mkdir built, in an entry of the inode table. -/
theorem BuiltBy.listing (hb : BuiltBy args d past g) (hargs : ∀ inputs ∈ args, SoundArgs inputs)
    (hd : SameDisk g fs) (hs : Settled fs) (hr : 0 < (fs.inode dp).ref) (hn : (fs.inode dp).inum = d) :
    Listing dp d past fs := by
  have hbuilt : (g.dinode d).type = tDir ∧ NamesAre ((tree g).ents d) past := by
    cases hb with
    | mkfs hr => exact mkfs_names hr (hargs _ rfl)
    | mkdir hs hcwd hres hr hfree hdir => exact ⟨hdir, mkdir_names hs hcwd hres hr hfree hdir⟩
  rw [← tree_sameDisk hd, ← hd.dinode] at hbuilt
  exact ⟨hs, hr, hn, hbuilt.1, hbuilt.2⟩

/-- A directory built by mkdir, or by mkfs from files with different names, is a finite map
through every run of `dirlink` and `unlink`. -/
theorem directory_is_map {args : Option (List Mkfs.Input)} {past0 past : NameChanges} {g fs0 fs : Fs} {dp : Ip}
    (hb : BuiltBy args d past0 g) (hargs : ∀ inputs ∈ args, SoundArgs inputs) (hd : SameDisk g fs0)
    (hs : Settled fs0) (hr : 0 < (fs0.inode dp).ref) (hn : (fs0.inode dp).inum = d)
    (hrun : NameRun dp d past0 fs0 past fs) :
    ((fs.inode dp).locked = false → ∃ fs1, (fs.idup dp).ilock dp = .ok fs1) ∧
      ∀ fs1, (fs.idup dp).ilock dp = .ok fs1 → AnswersAs dp d past fs1 := by
  have h := (hb.listing hargs hd hs hr hn).run hrun
  exact ⟨h.opens, fun _ => h.answersAs⟩

def madeNames : NameChanges := [.put (nameKey dotdot) 1, .put (nameKey dot) 2]

def imageNames : NameChanges :=
  [.put (nameKey (bytes ['c', 'a', 't'])) 2, .put (nameKey dotdot) 1, .put (nameKey dot) 1]

def Changed (args : Option (List Mkfs.Input)) (d : Nat) (past0 past : NameChanges) (dp : Ip) (fs : Fs) : Prop :=
  ∃ g fs0, BuiltBy args d past0 g ∧ SameDisk g fs0 ∧ Settled fs0 ∧ 0 < (fs0.inode dp).ref ∧
    (fs0.inode dp).inum = d ∧ NameRun dp d past0 fs0 past fs ∧ (fs.inode dp).locked = false

theorem Settled.opened (hg : Settled g) (hn : n < 2 ^ 16) (hget : g.iget rootdev n = .ok (dp, g1))
    (hlock : g1.ilock dp = .ok g2) (hunlock : g2.iunlock dp = .ok fs0) :
    SameDisk g fs0 ∧ Settled fs0 ∧ 0 < (fs0.inode dp).ref ∧ (fs0.inode dp).inum = n := by
  obtain ⟨hb1, hd1⟩ := ((Busy.begin hg).iget hn).of_ok hget
  obtain ⟨hb2, hd2⟩ := hb1.ilock.of_ok hlock
  obtain ⟨hb3, hd3⟩ := (hb2.iunlock dp).of_ok hunlock
  exact ⟨(hd1.trans hd2).trans hd3, hb3.settled (by simp), hb3.ref_pos, hb3.inum_eq⟩

/-- The directory "a" of a new disk, with one more name for it inside. -/
theorem mkdir_changed : ∃ dp fs, Changed none 2 madeNames
    (.put (nameKey (bytes ['x'])) 2 :: madeNames) dp fs := by
  obtain ⟨k, hboot, hrun⟩ := (by decide +kernel : Runs (bootDisk freshDisk) fun k =>
    Runs (k.fs.mkdirPath (k.proc 0).cwd (bytes ['a'])) fun r => r.1 = true ∧
      (tree k.fs).resolve true ((k.proc 0).cwd.elim 0 fun e => (k.fs.inode e).inum) (bytes ['a']) =
        some (1, bytes ['a']) ∧ (k.fs.dinode 2).type = tFree ∧ (r.2.dinode 2).type = tDir ∧
      Runs (r.2.iget rootdev 2) fun q => Runs (q.2.ilock q.1) fun fs => Runs (fs.iunlock q.1) fun fs0 =>
        Runs (linkEntry fs0 q.1 (bytes ['x']) 2) fun s => s.1 = true ∧ (s.2.inode q.1).locked = false).result
  obtain ⟨⟨ok, g⟩, hmk, rfl, hres, hfree, hdir, hrun⟩ := hrun.result
  obtain ⟨⟨dp, g1⟩, hget, hrun⟩ := hrun.result
  obtain ⟨g2, hlock, hrun⟩ := hrun.result
  obtain ⟨fs0, hunlock, hrun⟩ := hrun.result
  obtain ⟨⟨ok, fs⟩, hlink, rfl, hopen⟩ := hrun.result
  have hk := (freshDisk_wellFormed.started hboot).consistent
  have hg : Settled g := (((Busy.begin hk.inodes.settled).makeNode hk.firm (hk.cwd_ref 0) _ (by decide) (by decide) 0 0).of_ok
    hmk).busy.settled nofun
  obtain ⟨hd, hs, href, hinum⟩ := hg.opened (by decide) hget hlock hunlock
  exact ⟨dp, fs, g, fs0, .mkdir hk.inodes.settled (hk.cwd_ref 0) hres hmk hfree hdir, hd, hs, href, hinum,
    .link .start (by decide) (by decide) hlink, hopen⟩

def CatUnlinked (g : Fs) : Prop :=
  Runs (g.iget rootdev rootino) fun q => Runs (q.2.ilock q.1) fun fs => Runs (fs.iunlock q.1) fun fs0 =>
    (tree fs0).resolve true 0 (bytes ['/', 'c', 'a', 't']) = some (1, bytes ['c', 'a', 't']) ∧
      Runs (Kernel.unlinkPath fs0 none (bytes ['/', 'c', 'a', 't'])) fun r =>
        r.1 = true ∧ (r.2.inode q.1).locked = false

instance (g : Fs) : Decidable (CatUnlinked g) := inferInstanceAs (Decidable (Runs _ _))

/-- The root directory that mkfs made for the file "cat", and the removal of that file. -/
theorem mkfs_changed : ∃ dp fs, Changed (some [Mkfs.catFile]) rootino imageNames
      (.drop (nameKey (bytes ['c', 'a', 't'])) :: imageNames) dp fs := by
  have hruns : ((Mkfs.mkfs [Mkfs.catFile]).any fun h : Mkfs.Host =>
      decide ((((Fs.ofImage h.sect).dinode 1).nlink ≠ 0 ∧ ((Fs.ofImage h.sect).dinode 2).nlink ≠ 0) ∧
        CatUnlinked (Fs.ofImage h.sect))) = true := by decide +kernel
  obtain ⟨h, hr, hruns⟩ := (Option.any_eq_true ..).mp hruns
  obtain ⟨hlinks, hruns⟩ := of_decide_eq_true hruns
  obtain ⟨⟨dp, g1⟩, hget, hruns⟩ := hruns.result
  obtain ⟨g2, hlock, hruns⟩ := hruns.result
  obtain ⟨fs0, hunlock, hruns⟩ := hruns.result
  obtain ⟨hres, hruns⟩ := hruns
  obtain ⟨⟨ok, fs⟩, hunlink, rfl, hopen⟩ := hruns.result
  obtain ⟨h₀, hh, hf⟩ := Mkfs.mkfs_finished (by decide) hr
  have hw := hf.wellFormed hh (by decide) (by decide)
  have hg : Settled (Fs.ofImage h.sect) := by
    refine hw.settled fun n _ ht => ?_
    rw [hf.ofImage_dinode hh.toLaid, hf.type_eq] at ht
    obtain ⟨hpos, hmax⟩ := (hh.born n).mp ht
    rw [hh.count] at hmax
    obtain rfl | rfl : n = 1 ∨ n = 2 := by
      simp only [List.length_singleton] at hmax
      omega
    · exact hlinks.1
    · exact hlinks.2
  obtain ⟨hd, hs, href, hinum⟩ := hg.opened (by decide) hget hlock hunlock
  have hdone : NameRun dp rootino imageNames fs0 _ fs := .unlink .start (by nofun) hunlink
  have hlost : unlinked rootino fs0 none (bytes ['/', 'c', 'a', 't']) true = [.drop (nameKey (bytes ['c', 'a', 't']))] := by
    simp [unlinked, hres]
  rw [hlost] at hdone
  exact ⟨dp, fs, _, fs0, .mkfs hr, hd, hs, href, hinum, hdone, hopen⟩

/-- A directory made by `mkdir` after one more name, and the root of an image after an `unlink`. -/
theorem directory_is_map_changed :
    (∃ dp fs fs1, Changed none 2 madeNames (.put (nameKey (bytes ['x'])) 2 :: madeNames) dp fs ∧
      (fs.idup dp).ilock dp = .ok fs1 ∧ AnswersAs dp 2 (.put (nameKey (bytes ['x'])) 2 :: madeNames) fs1) ∧
    ∃ dp fs fs1, Changed (some [Mkfs.catFile]) rootino imageNames
      (.drop (nameKey (bytes ['c', 'a', 't'])) :: imageNames) dp fs ∧
      (fs.idup dp).ilock dp = .ok fs1 ∧
      AnswersAs dp rootino
        (.drop (nameKey (bytes ['c', 'a', 't'])) :: imageNames) fs1 := by
  constructor
  · obtain ⟨dp, fs, hc⟩ := mkdir_changed
    obtain ⟨g, fs0, hb, hd, hs, href, hinum, hrun, hopen⟩ := id hc
    obtain ⟨hopens, hanswers⟩ := directory_is_map hb nofun hd hs href hinum hrun
    obtain ⟨fs1, hfs1⟩ := hopens hopen
    exact ⟨dp, fs, fs1, hc, hfs1, hanswers fs1 hfs1⟩
  · obtain ⟨dp, fs, hc⟩ := mkfs_changed
    obtain ⟨g, fs0, hb, hd, hs, href, hinum, hrun, hopen⟩ := id hc
    have hargs : SoundArgs [Mkfs.catFile] := by
      refine ⟨⟨by decide, ?_⟩, by decide, by decide⟩
      simp only [List.mem_singleton, forall_eq]
      decide
    obtain ⟨hopens, hanswers⟩ := directory_is_map hb (by simpa using hargs) hd hs href hinum hrun
    obtain ⟨fs1, hfs1⟩ := hopens hopen
    exact ⟨dp, fs, fs1, hc, hfs1, hanswers fs1 hfs1⟩

def twinFiles : List Mkfs.Input :=
  [⟨bytes ['u', 's', 'e', 'r', '/', '_', 'a'], [], by decide, Mkfs.no_reads⟩,
    ⟨bytes ['u', 's', 'e', 'r', '/', 'a'], [], by decide, Mkfs.no_reads⟩]

/-- mkfs gives both the name "a". -/
theorem twinFiles_clash : ∃ past g, BuiltBy (some twinFiles) rootino past g ∧
    ¬ Slots.Apart entryKey ((tree g).ents rootino) := by
  obtain ⟨h, hr⟩ : ∃ h, Mkfs.mkfs twinFiles = some h := Mkfs.mkfs_succeeds (by decide)
    (by simp only [twinFiles, List.mem_cons, List.not_mem_nil, or_false, forall_eq_or_imp, forall_eq,
      Mkfs.NameOk]; decide)
    (by simp [twinFiles, Mkfs.Input.bytes]) (by decide)
  obtain ⟨h₀, hh, hf⟩ := Mkfs.mkfs_finished (by decide) hr
  obtain ⟨k, hents⟩ := hf.root_entries hh (by decide) (by decide)
  refine ⟨_, _, .mkfs hr, ?_⟩
  rw [hents]
  intro hapart
  have hfirst := (List.pairwise_append.mp hapart).1
  exact List.pairwise_iff_getElem.mp hfirst 2 3 (by decide) (by decide) (by decide) (bytes ['a']) (by decide) (by decide)

end Xv6Filter.Proofs
