import Xv6Filter.Proofs.Entries

namespace Xv6Filter.Proofs
open Lib Function

/-- What stays true of the tree whatever is done to it. A directory has one link for its
name and one for every directory in it, and a file has at least as many as it has names. -/
structure Forest (t : Tree) : Prop where
  dots : ∀ d, t.kind d = tDir → d ≠ 0 ∧ Dots d (t.ents d)
  plain : ∀ d, t.kind d ≠ tDir → t.ents d = []
  small : ∀ n, t.kind n ≠ tFree → 0 < n ∧ n < 2 ^ 16
  proper : ∀ d, ∀ de ∈ t.rest d, de.inum ≠ 0 → Tree.Proper de.name
  typed : ∀ d, ∀ de ∈ t.rest d, de.inum ≠ 0 → t.kind de.inum ≠ tFree
  parent : ∀ d, ∀ de ∈ t.rest d, t.kind de.inum = tDir → t.up de.inum = d
  once : ∀ c, t.kind c = tDir → t.named c ≤ 1
  dirs : ∀ c, t.kind c = tDir →
    (t.nlink c).toNat = t.named c + t.subdirs c + if c = rootino then 1 else 0
  files : ∀ n, t.kind n ≠ tFree → t.kind n ≠ tDir → t.named n ≤ (t.nlink n).toNat
  unused : ∀ n, t.kind n = tFree → t.nlink n = 0
  root : t.kind rootino = tDir
  top : t.named rootino = 0 ∧ t.up rootino = rootino


abbrev maxEntries : Nat := maxfile * bsize / direntSize

namespace Forest

variable {t t' : Tree} {d n : Nat}

section

variable (h : Forest t)

include h

theorem dir_of_mem (he : e ∈ t.rest d) : t.kind d = tDir := by
  by_contra hd
  rw [Tree.rest, h.plain d hd] at he
  cases he

theorem lt_of_dir (hd : t.kind d = tDir) : d < 2 ^ 16 :=
  (h.small d (by rw [hd]; decide)).2

theorem kind_zero : t.kind 0 = tFree := by
  by_contra h0
  exact absurd (h.small 0 h0).1 (by omega)

theorem inum_ne_zero {e : Fs.Dirent} (hk : t.kind e.inum = tDir) : e.inum ≠ 0 := by
  intro h0
  rw [h0, h.kind_zero] at hk
  exact absurd hk (by decide)

theorem named_free (hf : t.kind n = tFree) (hn : n ≠ 0) : t.named n = 0 := by
  by_contra h0
  obtain ⟨d, e, he, rfl⟩ := Tree.exists_of_named (Nat.pos_of_ne_zero h0)
  exact h.typed d e he hn hf

/-- A directory never has so many links that one more would not count. -/
theorem nlink_dir_lt (hs : (t.ents d).length ≤ maxEntries) (hd : t.kind d = tDir) :
    (t.nlink d).toNat < 2 ^ 15 - 1 := by
  have h1 := h.dirs d hd
  have h2 := h.once d hd
  have h3 := t.subdirs_le d
  have h4 : (if d = rootino then 1 else 0) ≤ 1 := by split <;> omega
  simp only [maxEntries, maxfile, ndirect, nindirect, bsize, direntSize] at hs
  omega

theorem ne_of_mem (he : e ∈ t.rest d) (hk : t.kind e.inum = tDir)
    (hempty : ∀ de ∈ t.rest e.inum, de.inum = 0) : e.inum ≠ d := by
  intro heq
  have := hempty e (heq ▸ he)
  exact h.inum_ne_zero hk this

end

/-- From `t` to `t'` directory `d` got an entry `e`, for a new inode or for a file that was there. -/
structure Gained (d : Nat) (e : Fs.Dirent) (t t' : Tree) : Prop where
  dir : t.kind d = tDir
  small : e.inum ≠ 0 ∧ e.inum < 2 ^ 16
  proper : Tree.Proper e.name
  kind : ∀ m, m ≠ e.inum → t'.kind m = t.kind m
  typed : t'.kind e.inum ≠ tFree
  file : t.kind e.inum ≠ tDir
  fresh : t'.kind e.inum = tDir → t.kind e.inum = tFree
  dots : ∀ c, t'.kind c = tDir → c ≠ 0 ∧ Dots c (t'.ents c)
  plain : ∀ c, t'.kind c ≠ tDir → t'.ents c = []
  rest : t'.rest = update t.rest d (putFirst (t.rest d) e)
  up : ∀ m, m ≠ e.inum → t'.up m = t.up m
  parent : t'.kind e.inum = tDir → t'.up e.inum = d
  nlink : ∀ m, (t'.nlink m).toNat = (t.nlink m).toNat + (if m = e.inum then 1 else 0) +
    if m = d ∧ t'.kind e.inum = tDir then 1 else 0

namespace Gained

variable {e : Fs.Dirent}

section

variable (h : Gained d e t t')

include h

theorem named (hf : Forest t) (hm : m ≠ 0) : t'.named m = t.named m + if e.inum = m then 1 else 0 :=
  Tree.named_put (hf.lt_of_dir h.dir) h.rest hm

theorem mem_rest (hx : x ∈ t'.rest c) : c = d ∧ x = e ∨ x ∈ t.rest c := by
  rw [h.rest] at hx
  by_cases hc : c = d
  · subst hc
    rw [update_self] at hx
    exact (mem_putFirst hx).imp (fun he => ⟨rfl, he⟩) id
  · rw [update_of_ne hc] at hx
    exact .inr hx

theorem kind_of_mem (hf : Forest t) (hx : x ∈ t.rest c) : t'.kind x.inum = tDir ↔ t.kind x.inum = tDir := by
  by_cases hxe : x.inum = e.inum
  · constructor
    · intro hk
      exact absurd (hxe ▸ h.fresh (hxe ▸ hk)) (hf.typed c x hx (hxe ▸ h.small.1))
    · intro hk
      exact absurd (hxe ▸ hk) h.file
  · rw [h.kind _ hxe]

theorem subdirs (hf : Forest t) (c : Nat) :
    t'.subdirs c = t.subdirs c + if c = d ∧ t'.kind e.inum = tDir then 1 else 0 := by
  by_cases hcd : c = d
  · subst hcd
    have hcount : t'.subdirs c = (putFirst (t.rest c) e).countP fun de => decide (t'.kind de.inum = tDir) := by
      unfold Tree.subdirs
      rw [h.rest, update_self]
    have hzero : t'.kind 0 = tFree := by
      rw [h.kind 0 (Ne.symm h.small.1)]
      exact hf.kind_zero
    rw [hcount, countP_putFirst fun y hy => by rw [hy, hzero]; rfl]
    have hold : (t.rest c).countP (fun de => decide (t'.kind de.inum = tDir)) = t.subdirs c := by
      unfold Tree.subdirs
      apply List.countP_congr
      intro x hx
      simpa using h.kind_of_mem hf hx
    rw [hold]
    simp
  · rw [Tree.subdirs_congr (by rw [h.rest, update_of_ne hcd]) fun x hx => h.kind_of_mem hf hx]
    simp [hcd]

/-- A directory with a new entry is still a tree. -/
theorem forest (hf : Forest t) : Forest t' := by
  have hne : d ≠ e.inum := by
    rintro rfl
    exact h.file h.dir
  have hroot : rootino ≠ e.inum := fun hr => h.file (hr ▸ hf.root)
  refine ⟨h.dots, h.plain, ?_, ?_, ?_, ?_, ?_, ?_, ?_, ?_, ?_, ?_, ?_⟩
  · intro m hm
    by_cases he : m = e.inum
    · exact he ▸ ⟨Nat.pos_of_ne_zero h.small.1, h.small.2⟩
    · exact hf.small m (h.kind m he ▸ hm)
  · intro c x hx h0
    rcases h.mem_rest hx with ⟨-, rfl⟩ | hx
    · exact h.proper
    · exact hf.proper c x hx h0
  · intro c x hx h0
    rcases h.mem_rest hx with ⟨-, rfl⟩ | hx
    · exact h.typed
    · by_cases he : x.inum = e.inum
      · exact he ▸ h.typed
      · rw [h.kind _ he]
        exact hf.typed c x hx h0
  · intro c x hx hk
    rcases h.mem_rest hx with ⟨rfl, rfl⟩ | hx
    · exact h.parent hk
    · have hk' := (h.kind_of_mem hf hx).mp hk
      have he : x.inum ≠ e.inum := fun he => h.file (he ▸ hk')
      rw [h.up _ he]
      exact hf.parent c x hx hk'
  · intro c hc
    have h0 := (h.dots c hc).1
    rw [h.named hf h0]
    by_cases he : c = e.inum
    · subst he
      rw [hf.named_free (h.fresh hc) h0]
      simp
    · rw [h.kind c he] at hc
      have := hf.once c hc
      simp [Ne.symm he, this]
  · intro c hc
    have h0 := (h.dots c hc).1
    rw [h.named hf h0]
    by_cases he : c = e.inum
    · subst he
      have hsub : t'.subdirs e.inum = 0 := by
        have hnil : t.ents e.inum = [] := hf.plain _ h.file
        unfold Tree.subdirs
        rw [h.rest, update_of_ne (Ne.symm hne), Tree.rest, hnil]
        rfl
      rw [hf.named_free (h.fresh hc) h0, hsub, h.nlink, hf.unused _ (h.fresh hc)]
      simp [Ne.symm hroot, Ne.symm hne]
    · rw [h.kind c he] at hc
      rw [h.nlink, hf.dirs c hc, h.subdirs hf c]
      simp only [he, Ne.symm he, ↓reduceIte]
      omega
  · intro m hm hnd
    have h0 : m ≠ 0 := by
      rintro rfl
      rw [h.kind 0 (Ne.symm h.small.1)] at hm
      exact hm hf.kind_zero
    rw [h.named hf h0, h.nlink]
    have hle : t.named m ≤ (t.nlink m).toNat := by
      by_cases he : m = e.inum
      · subst he
        by_cases hfree : t.kind e.inum = tFree
        · rw [hf.named_free hfree h0]
          omega
        · exact hf.files _ hfree h.file
      · rw [h.kind m he] at hm hnd
        exact hf.files m hm hnd
    have hsame : (if e.inum = m then 1 else 0) = if m = e.inum then 1 else 0 := by simp only [eq_comm]
    omega
  · intro m hm
    have he : m ≠ e.inum := by
      rintro rfl
      exact h.typed hm
    have hmd : m ≠ d := by
      rintro rfl
      rw [h.kind m he, h.dir] at hm
      exact absurd hm (by decide)
    have hl := h.nlink m
    rw [h.kind m he] at hm
    rw [hf.unused m hm] at hl
    simp only [he, hmd, false_and, ↓reduceIte] at hl
    exact BitVec.eq_of_toNat_eq hl
  · rw [h.kind _ hroot]
    exact hf.root
  · rw [h.named hf (by decide), hf.top.1]
    simp [Ne.symm hroot]
  · rw [h.up _ hroot]
    exact hf.top.2

end

end Gained

structure Lost (d j : Nat) (e : Fs.Dirent) (t t' : Tree) : Prop where
  entry : (t.rest d)[j]? = some e
  used : e.inum ≠ 0
  kind : t'.kind = t.kind
  ents : t'.ents = update t.ents d ((t.ents d).set (j + 2) blankEntry)
  nlink : ∀ m, (t'.nlink m).toNat + (if m = e.inum then 1 else 0) +
    (if m = d ∧ t.kind e.inum = tDir then 1 else 0) = (t.nlink m).toNat
  empty : t.kind e.inum = tDir → ∀ x ∈ t.rest e.inum, x.inum = 0

namespace Lost

variable {e : Fs.Dirent} {j : Nat}

section

variable (h : Lost d j e t t')

include h

theorem mem : e ∈ t.rest d := List.mem_of_getElem? h.entry

section

variable (hf : Forest t)

include hf

theorem dir : t.kind d = tDir := hf.dir_of_mem h.mem

theorem rest : t'.rest = update t.rest d ((t.rest d).set j blankEntry) := by
  obtain ⟨-, hdrop, -⟩ := (hf.dots d (h.dir hf)).2.take j
  have := t.rest_setEnts d ((t.ents d).set (j + 2) blankEntry)
  rw [hdrop] at this
  rw [← show t.rest d = (t.ents d).drop 2 from rfl] at this
  rw [← this]
  unfold Tree.rest
  rw [h.ents]
  rfl

theorem up : t'.up = t.up := by
  obtain ⟨-, -, hsnd⟩ := (hf.dots d (h.dir hf)).2.take j
  rw [← Tree.up_setEnts hsnd]
  unfold Tree.up
  rw [h.ents]
  rfl

theorem named (hm : m ≠ 0) : (t'.named m + if e.inum = m then 1 else 0) = t.named m :=
  Tree.named_take (hf.lt_of_dir (h.dir hf)) h.entry (h.rest hf) hm

theorem mem_rest (hx : x ∈ t'.rest c) (h0 : x.inum ≠ 0) : x ∈ t.rest c := by
  rw [h.rest hf] at hx
  by_cases hc : c = d
  · subst hc
    rw [update_self] at hx
    rcases mem_take hx with rfl | hx
    · exact absurd rfl h0
    · exact hx
  · rw [update_of_ne hc] at hx
    exact hx

theorem subdirs (c : Nat) : (t'.subdirs c + if c = d ∧ t.kind e.inum = tDir then 1 else 0) = t.subdirs c := by
  unfold Tree.subdirs
  rw [h.kind, h.rest hf]
  by_cases hc : c = d
  · subst hc
    have hone := countP_take (p := fun de => decide (t.kind de.inum = tDir)) h.entry
      (by rw [show blankEntry.inum = 0 from rfl, hf.kind_zero]; rfl)
    simpa using hone
  · simp [hc]

/-- A directory that is taken out is not the root, and its entry was in another directory. -/
theorem dir_entry (hk : t.kind e.inum = tDir) :
    e.inum ≠ d ∧ e.inum ≠ rootino ∧ t.named e.inum = 1 ∧ t.subdirs e.inum = 0 := by
  have hpos := Tree.named_pos (hf.lt_of_dir (h.dir hf)) h.mem
  refine ⟨?_, ?_, ?_, ?_⟩
  · intro heq
    exact h.used (h.empty hk e (heq ▸ h.mem))
  · intro hr
    rw [hr, hf.top.1] at hpos
    omega
  · have := hf.once _ hk
    omega
  · unfold Tree.subdirs
    rw [List.countP_eq_zero]
    intro x hx
    rw [h.empty hk x hx, hf.kind_zero]
    decide

/-- So is one that lost an entry. -/
theorem forest : Forest t' := by
  have hdir := h.dir hf
  refine ⟨?_, ?_, ?_, ?_, ?_, ?_, ?_, ?_, ?_, ?_, ?_, ?_, ?_⟩
  · intro c hc
    rw [h.kind] at hc
    refine ⟨(hf.dots c hc).1, ?_⟩
    rw [h.ents]
    by_cases hcd : c = d
    · subst hcd
      simpa using ((hf.dots c hc).2.take j).1
    · simpa [hcd] using (hf.dots c hc).2
  · intro c hc
    rw [h.kind] at hc
    have hcd : c ≠ d := by
      rintro rfl
      exact hc hdir
    rw [h.ents, update_of_ne hcd]
    exact hf.plain c hc
  · rw [h.kind]
    exact hf.small
  · intro c x hx h0
    exact hf.proper c x (h.mem_rest hf hx h0) h0
  · intro c x hx h0
    rw [h.kind]
    exact hf.typed c x (h.mem_rest hf hx h0) h0
  · intro c x hx hk
    rw [h.kind] at hk
    rw [h.up hf]
    exact hf.parent c x (h.mem_rest hf hx (hf.inum_ne_zero hk)) hk
  · intro c hc
    rw [h.kind] at hc
    have h1 := h.named hf (hf.dots c hc).1
    have h2 := hf.once c hc
    omega
  · intro c hc
    rw [h.kind] at hc
    have h1 := h.named hf (hf.dots c hc).1
    have h2 := h.subdirs hf c
    have h3 := hf.dirs c hc
    have h4 := h.nlink c
    have hsame : (if e.inum = c then 1 else 0) = if c = e.inum then 1 else 0 := by simp only [eq_comm]
    omega
  · intro m hm hnd
    rw [h.kind] at hm hnd
    have h1 := h.named hf (Nat.ne_of_gt (hf.small m hm).1)
    have h2 := hf.files m hm hnd
    have hmd : m ≠ d := by
      rintro rfl
      exact hnd hdir
    have h3 := h.nlink m
    simp only [hmd, false_and, ↓reduceIte, Nat.add_zero] at h3
    have hsame : (if e.inum = m then 1 else 0) = if m = e.inum then 1 else 0 := by simp only [eq_comm]
    omega
  · intro m hm
    rw [h.kind] at hm
    have hl := h.nlink m
    rw [hf.unused m hm] at hl
    have h0 : (0 : Short).toNat = 0 := rfl
    exact BitVec.eq_of_toNat_eq (by omega)
  · rw [h.kind]
    exact hf.root
  · have := h.named hf (m := rootino) (by decide)
    rw [hf.top.1] at this
    omega
  · rw [h.up hf]
    exact hf.top.2

end

end

end Lost

/-- An inode without links is in no directory, and a directory without links has none in it. -/
theorem unlinked (h : Forest t) (hx : t.kind x ≠ tFree) (hz : t.nlink x = 0) :
    t.named x = 0 ∧ x ≠ rootino ∧ ∀ e ∈ t.rest x, t.kind e.inum ≠ tDir := by
  by_cases hd : t.kind x = tDir
  · have hl := h.dirs x hd
    rw [hz, show (0 : Short).toNat = 0 from rfl] at hl
    have hsub : t.subdirs x = 0 := by omega
    refine ⟨by omega, ?_, ?_⟩
    · rintro rfl
      simp at hl
    · intro e he hk
      have := List.countP_eq_zero.mp hsub e he
      simp [hk] at this
  · have hl := h.files x hx hd
    rw [hz] at hl
    refine ⟨by simpa using hl, fun hr => hd (hr ▸ h.root), ?_⟩
    intro e he
    exact absurd (h.dir_of_mem he) hd

structure Pruned (x : Nat) (t t' : Tree) : Prop where
  typed : t.kind x ≠ tFree
  unlinked : t.nlink x = 0
  kind : t'.kind = update t.kind x tFree
  nlink : t'.nlink = update t.nlink x 0
  ents : t'.ents = update t.ents x []

namespace Pruned

section

variable (h : Pruned x t t')

include h

theorem kind_ne (hm : m ≠ x) : t'.kind m = t.kind m := by
  rw [h.kind, update_of_ne hm]

theorem nlink_ne (hm : m ≠ x) : t'.nlink m = t.nlink m := by
  rw [h.nlink, update_of_ne hm]

theorem ne_of_typed (hc : t'.kind c ≠ tFree) : c ≠ x := by
  rintro rfl
  rw [h.kind, update_self] at hc
  exact hc rfl

theorem ne_of_dir (hc : t'.kind c = tDir) : c ≠ x := h.ne_of_typed (by rw [hc]; decide)

theorem rest : t'.rest = update t.rest x [] := by
  funext c
  unfold Tree.rest
  rw [h.ents]
  by_cases hc : c = x
  · subst hc
    simp
  · simp [hc]

theorem mem_rest (he : e ∈ t'.rest c) : c ≠ x ∧ e ∈ t.rest c := by
  rw [h.rest] at he
  by_cases hc : c = x
  · simp [hc] at he
  · exact ⟨hc, by simpa [hc] using he⟩

theorem up (hc : c ≠ x) : t'.up c = t.up c := by
  unfold Tree.up
  rw [h.ents, update_of_ne hc]

theorem not_named (hf : Forest t) (he : e ∈ t.rest c) : e.inum ≠ x := by
  intro hex
  have := Tree.named_pos (hf.lt_of_dir (hf.dir_of_mem he)) he
  rw [hex, (hf.unlinked h.typed h.unlinked).1] at this
  omega

theorem named (hf : Forest t) (m : Nat) :
    (t'.named m + (t.rest x).countP fun de => decide (de.inum = m)) = t.named m :=
  Tree.named_free (hf.small x h.typed).2 h.rest

theorem subdirs (hf : Forest t) (hc : c ≠ x) : t'.subdirs c = t.subdirs c := by
  refine Tree.subdirs_congr (by rw [h.rest, update_of_ne hc]) ?_
  intro e he
  rw [h.kind_ne (h.not_named hf he)]

/-- And the tree without an inode that nothing names. -/
theorem forest (hf : Forest t) : Forest t' := by
  obtain ⟨-, hroot, hsub⟩ := hf.unlinked h.typed h.unlinked
  have hle : ∀ m, t'.named m ≤ t.named m := by
    intro m
    have := h.named hf m
    omega
  refine ⟨?_, ?_, ?_, ?_, ?_, ?_, ?_, ?_, ?_, ?_, ?_, ?_, ?_⟩
  · intro c hc
    have hcx := h.ne_of_dir hc
    rw [h.kind_ne hcx] at hc
    rw [h.ents, update_of_ne hcx]
    exact hf.dots c hc
  · intro c hc
    rw [h.ents]
    by_cases hcx : c = x
    · simp [hcx]
    · rw [h.kind_ne hcx] at hc
      simpa [hcx] using hf.plain c hc
  · intro m hm
    exact hf.small m (h.kind_ne (h.ne_of_typed hm) ▸ hm)
  · intro c e he
    exact hf.proper c e (h.mem_rest he).2
  · intro c e he h0
    have he' := (h.mem_rest he).2
    rw [h.kind_ne (h.not_named hf he')]
    exact hf.typed c e he' h0
  · intro c e he hk
    have he' := (h.mem_rest he).2
    rw [h.kind_ne (h.not_named hf he')] at hk
    rw [h.up (h.not_named hf he')]
    exact hf.parent c e he' hk
  · intro c hc
    rw [h.kind_ne (h.ne_of_dir hc)] at hc
    exact Nat.le_trans (hle c) (hf.once c hc)
  · intro c hc
    have hcx := h.ne_of_dir hc
    rw [h.kind_ne hcx] at hc
    have hzero : (t.rest x).countP (fun de => decide (de.inum = c)) = 0 := by
      rw [List.countP_eq_zero]
      intro e he hec
      exact hsub e he (by rw [of_decide_eq_true hec]; exact hc)
    have hn := h.named hf c
    rw [hzero, Nat.add_zero] at hn
    rw [h.nlink_ne hcx, hf.dirs c hc, h.subdirs hf hcx, hn]
  · intro m hm hnd
    have hmx := h.ne_of_typed hm
    rw [h.kind_ne hmx] at hm hnd
    rw [h.nlink_ne hmx]
    exact Nat.le_trans (hle m) (hf.files m hm hnd)
  · intro m hm
    by_cases hmx : m = x
    · rw [h.nlink, hmx, update_self]
    · rw [h.kind_ne hmx] at hm
      rw [h.nlink_ne hmx]
      exact hf.unused m hm
  · rw [h.kind_ne (Ne.symm hroot)]
    exact hf.root
  · have := hle rootino
    rw [hf.top.1] at this
    omega
  · rw [h.up (Ne.symm hroot)]
    exact hf.top.2

end

end Pruned

end Forest

end Xv6Filter.Proofs
