import Xv6Filter.Proofs.Forest
import Xv6Filter.Proofs.HolderSteps

namespace Xv6Filter.Proofs
open Lib Function

namespace Forest

variable {t t' : Tree} {d n : Nat}

theorem gained_linked (h : Forest t) (hn : t.kind n ≠ tFree) (hfile : t.kind n ≠ tDir)
    (hd : t.kind d = tDir) (habs : ∀ de ∈ t.ents d, ¬ Matches name de) (hmax : t.nlink n ≠ 0xFFFF) :
    Gained d ⟨n, strncpy name dirsiz⟩ t (t.linked d n name) := by
  have hne : d ≠ n := by
    rintro rfl
    exact hfile hd
  obtain ⟨hd0, hdots⟩ := h.dots d hd
  obtain ⟨hadd, hdrop, hsnd⟩ := hdots.add hd0 ⟨n, strncpy name dirsiz⟩
  have hents : (t.linked d n name).ents = update t.ents d (putFirst (t.ents d) ⟨n, strncpy name dirsiz⟩) :=
    rfl
  have hone : (t.nlink n + 1).toNat = (t.nlink n).toNat + 1 := by bv_omega
  refine ⟨hd, ⟨Nat.ne_of_gt (h.small n hn).1, (h.small n hn).2⟩, (hdots.proper_of_absent hd0 habs).strncpy,
    fun _ _ => rfl, hn, hfile, fun hk => absurd hk hfile, ?_, ?_, ?_, ?_, fun hk => absurd hk hfile, ?_⟩
  · intro c hc
    refine ⟨(h.dots c hc).1, ?_⟩
    rw [hents]
    by_cases hcd : c = d
    · subst hcd
      simpa using hadd
    · simpa [hcd] using (h.dots c hc).2
  · intro c hc
    rw [hents]
    have hcd : c ≠ d := by
      rintro rfl
      exact hc hd
    simpa [hcd] using h.plain c hc
  · have := (t.setNlink n (t.nlink n + 1)).rest_setEnts d (putFirst (t.ents d) ⟨n, strncpy name dirsiz⟩)
    rw [hdrop] at this
    exact this
  · intro m _
    exact congrFun (Tree.up_setEnts (t := t.setNlink n (t.nlink n + 1)) hsnd) m
  · intro m
    have hno : (if m = d ∧ (t.linked d n name).kind n = tDir then 1 else 0) = 0 := if_neg fun hk => hfile hk.2
    dsimp only
    rw [hno]
    by_cases hm : m = n
    · subst hm
      have : (t.linked d m name).nlink m = t.nlink m + 1 := update_self _ _ _
      rw [this, hone]
      simp
    · have : (t.linked d n name).nlink m = t.nlink m := update_of_ne hm _ _
      rw [this]
      simp [hm]

theorem gained_file (h : Forest t) (hn : n ≠ 0) (hsm : n < 2 ^ 16) (hf : t.kind n = tFree)
    (hd : t.kind d = tDir) (habs : ∀ de ∈ t.ents d, ¬ Matches name de) (hty : ty ≠ tFree)
    (hfile : ty ≠ tDir) : Gained d ⟨n, strncpy name dirsiz⟩ t (t.created d n ty name) := by
  have hne : d ≠ n := by
    rintro rfl
    rw [hf] at hd
    exact absurd hd (by decide)
  obtain ⟨hd0, hdots⟩ := h.dots d hd
  obtain ⟨hadd, hdrop, hsnd⟩ := hdots.add hd0 ⟨n, strncpy name dirsiz⟩
  have hnil : t.ents n = [] := h.plain n (by rw [hf]; decide)
  have hcreated : t.created d n ty name =
      { kind := update t.kind n ty
        nlink := update t.nlink n 1
        ents := update t.ents d (putFirst (t.ents d) ⟨n, strncpy name dirsiz⟩) } := by
    have hsame : update t.ents n [] = t.ents := by rw [← hnil, update_eq_self]
    unfold Tree.created
    rw [if_neg hfile]
    simp only [Tree.addEntry, Tree.alloc, Tree.setEnts, hsame]
    rfl
  rw [hcreated]
  have hkn : update t.kind n ty n = ty := update_self _ _ _
  refine ⟨hd, ⟨hn, hsm⟩, (hdots.proper_of_absent hd0 habs).strncpy, ?_, ?_, ?_, ?_, ?_, ?_, ?_, ?_, ?_, ?_⟩
  · exact fun m hm => update_of_ne hm _ _
  · simpa using hty
  · rw [hf]
    decide
  · exact fun hk => absurd (hkn.symm.trans hk) hfile
  · intro c hc
    have hcn : c ≠ n := by
      rintro rfl
      exact hfile (hkn.symm.trans hc)
    have hc' : t.kind c = tDir := by simpa [hcn] using hc
    refine ⟨(h.dots c hc').1, ?_⟩
    by_cases hcd : c = d
    · subst hcd
      simpa using hadd
    · simpa [hcd] using (h.dots c hc').2
  · intro c hc
    have hcd : c ≠ d := by
      rintro rfl
      exact hc (by simpa [hne] using hd)
    by_cases hcn : c = n
    · simpa [hcd, hcn, Ne.symm hne] using hnil
    · simpa [hcd] using h.plain c (by simpa [hcn] using hc)
  · have := t.rest_setEnts d (putFirst (t.ents d) ⟨n, strncpy name dirsiz⟩)
    rw [hdrop] at this
    exact this
  · intro m _
    exact congrFun (Tree.up_setEnts (t := t) hsnd) m
  · exact fun hk => absurd (hkn.symm.trans hk) hfile
  · intro m
    have hno : (if m = d ∧ update t.kind n ty n = tDir then 1 else 0) = 0 :=
      if_neg fun hk => hfile (hkn.symm.trans hk.2)
    dsimp only
    rw [hno]
    by_cases hm : m = n
    · subst hm
      simp [h.unused m hf]
    · simp [hm]

/-- `mkdir` gives the tree a directory that knows its parent. -/
theorem gained_dir (h : Forest t) (hn : n ≠ 0) (hsm : n < 2 ^ 16) (hf : t.kind n = tFree)
    (hd : t.kind d = tDir) (habs : ∀ de ∈ t.ents d, ¬ Matches name de)
    (hs : (t.ents d).length ≤ maxEntries) :
    Gained d ⟨n, strncpy name dirsiz⟩ t (t.created d n tDir name) := by
  have hne : d ≠ n := by
    rintro rfl
    rw [hf] at hd
    exact absurd hd (by decide)
  obtain ⟨hd0, hdots⟩ := h.dots d hd
  obtain ⟨hadd, hdrop, hsnd⟩ := hdots.add hd0 ⟨n, strncpy name dirsiz⟩
  have hcreated : t.created d n tDir name =
      { kind := update t.kind n tDir
        nlink := update (update t.nlink n 1) d (t.nlink d + 1)
        ents := update (update t.ents n
          [⟨n, strncpy dot dirsiz⟩, ⟨d, strncpy dotdot dirsiz⟩]) d
          (putFirst (t.ents d) ⟨n, strncpy name dirsiz⟩) } := by
    have htwo : putFirst (putFirst [] ⟨n, strncpy dot dirsiz⟩) ⟨d, strncpy dotdot dirsiz⟩ =
        [⟨n, strncpy dot dirsiz⟩, ⟨d, strncpy dotdot dirsiz⟩] := putFirst_cons hn
    unfold Tree.created
    rw [if_pos rfl]
    simp only [Tree.addEntry, Tree.alloc, Tree.setEnts, Tree.setNlink, update_self,
      update_idem, update_of_ne hne]
    rw [← htwo]
    rfl
  rw [hcreated]
  have hone : (t.nlink d + 1).toNat = (t.nlink d).toNat + 1 := by
    have := h.nlink_dir_lt hs hd
    bv_omega
  have hkn : update t.kind n tDir n = tDir := update_self _ _ _
  refine ⟨hd, ⟨hn, hsm⟩, (hdots.proper_of_absent hd0 habs).strncpy, ?_, ?_, ?_, ?_, ?_, ?_, ?_, ?_, ?_, ?_⟩
  · exact fun m hm => update_of_ne hm _ _
  · simp
  · rw [hf]
    decide
  · exact fun _ => hf
  · intro c hc
    by_cases hcn : c = n
    · subst hcn
      refine ⟨hn, ?_⟩
      simp only [update_of_ne (Ne.symm hne), update_self]
      exact ⟨_, _, [], rfl, rfl, hd0, (by decide : namecmp dot (strncpy dot dirsiz) = 0),
        (by decide : namecmp dotdot (strncpy dotdot dirsiz) = 0)⟩
    · have hc' : t.kind c = tDir := by simpa [hcn] using hc
      refine ⟨(h.dots c hc').1, ?_⟩
      by_cases hcd : c = d
      · subst hcd
        simpa using hadd
      · simpa [hcd, hcn] using (h.dots c hc').2
  · intro c hc
    have hcn : c ≠ n := by
      rintro rfl
      exact hc hkn
    have hc' : t.kind c ≠ tDir := by simpa [hcn] using hc
    have hcd : c ≠ d := by
      rintro rfl
      exact hc' hd
    simpa [hcd, hcn] using h.plain c hc'
  · funext c
    by_cases hcd : c = d
    · subst hcd
      simpa [Tree.rest] using hdrop
    · by_cases hcn : c = n
      · subst hcn
        have hnil : t.ents c = [] := h.plain c (by rw [hf]; decide)
        simp [Tree.rest, hcd, hnil]
      · simp [Tree.rest, hcd, hcn]
  · intro m hm
    have hm : m ≠ n := hm
    by_cases hmd : m = d
    · subst hmd
      simp [Tree.up, hsnd]
    · simp [Tree.up, hmd, hm]
  · intro _
    simp [Tree.up, Ne.symm hne]
  · intro m
    by_cases hmd : m = d
    · subst hmd
      simpa [hne] using hone
    · by_cases hm : m = n
      · subst hm
        simp [h.unused m hf, hmd]
      · simp [hmd, hm]

theorem lost_removed (h : Forest t) (hp : Parted d n i name t t') :
    ∃ j e, i = j + 2 ∧ e.inum = n ∧ Lost d j e t (t.removed d n i) := by
  obtain ⟨e, hfirst, rfl⟩ := hp.entry
  obtain ⟨hd0, hdots⟩ := h.dots d hp.dir
  obtain ⟨j, rfl, hj⟩ := hdots.first_proper hp.proper hfirst
  have hmem : e ∈ t.rest d := List.mem_of_getElem? hj
  have hempty : t.kind e.inum = tDir → ∀ x ∈ t.rest e.inum, x.inum = 0 := hp.empty
  have hlast : 1 ≤ (t.nlink e.inum).toNat := by
    have := hp.linked
    rw [BitVec.toInt_eq_toNat_cond] at this
    split at this <;> omega
  have hdir : t.kind e.inum = tDir → e.inum ≠ d ∧ 1 ≤ (t.nlink d).toNat := by
    intro hk
    have hsub : 0 < t.subdirs d := List.countP_pos_iff.mpr ⟨e, hmem, by simpa using hk⟩
    have := h.dirs d hp.dir
    exact ⟨h.ne_of_mem hmem hk (hempty hk), by omega⟩
  have hkind : (t.removed d e.inum (j + 2)).kind = t.kind := by
    unfold Tree.removed Tree.detached
    dsimp only
    split <;> rfl
  have hents : (t.removed d e.inum (j + 2)).ents =
      update t.ents d ((t.ents d).set (j + 2) blankEntry) := by
    unfold Tree.removed Tree.detached
    dsimp only
    split <;> rfl
  refine ⟨j, e, rfl, rfl, hj, hfirst.found.1, hkind, hents, ?_, hempty⟩
  intro m
  unfold Tree.removed Tree.detached
  by_cases hk : t.kind e.inum = tDir
  · obtain ⟨hne, hpos⟩ := hdir hk
    by_cases hme : m = e.inum
    · subst hme
      simp only [hk, ↓reduceIte, Tree.setNlink, Tree.setEnts, update_of_ne hne,
        update_self, hne, false_and, Nat.add_zero]
      bv_omega
    · by_cases hmd : m = d
      · subst hmd
        simp only [hk, ↓reduceIte, Tree.setNlink, Tree.setEnts, update_of_ne hme,
          update_self, hme, and_self, Nat.add_zero]
        bv_omega
      · simp [hk, Tree.setNlink, Tree.setEnts, hme, hmd]
  · by_cases hme : m = e.inum
    · subst hme
      simp only [hk, ↓reduceIte, Tree.setNlink, Tree.setEnts, update_self, and_false, Nat.add_zero]
      bv_omega
    · simp only [hk, hme, and_false, ↓reduceIte, Tree.setNlink, Tree.setEnts, update_of_ne hme]
      rfl

theorem pruned_free (hx : t.kind x ≠ tFree) (hz : t.nlink x = 0) : Pruned x t (t.free x) :=
  ⟨hx, hz, rfl, rfl, rfl⟩

end Forest

def Call.enters : Call → Option (List Byte)
  | .link (some (_, new)) => some new
  | c => (Call.makes c).map Prod.fst

theorem makes_ne_free (h : Call.makes c = some (path, ty)) : ty ≠ tFree := by
  unfold Call.makes at h
  split at h
  · split at h
    · cases h
      decide
    · cases h
  · cases h
    decide
  · cases h
    decide
  · cases h

def LinkRoom (limit : Short) (t : Tree) (cwd : Nat) : Call → Prop
  | .link (some (old, _)) => ∀ r ∈ t.resolve false cwd old, t.nlink r.1 ≠ limit
  | _ => True

instance (limit : Short) (t : Tree) (cwd : Nat) (c : Call) : Decidable (LinkRoom limit t cwd c) :=
  match c with
  | .link (some (old, _)) =>
    inferInstanceAs (Decidable (∀ r ∈ t.resolve false cwd old, t.nlink r.1 ≠ limit))
  | .link none | .opens .. | .dup _ | .close _ | .pipe .. | .read .. | .write .. | .fstat .. | .unlink _
  | .mkdir _ | .mknod .. | .chdir _ | .exec .. | .fork _ | .exit _ | .wait .. | .audit _ =>
    inferInstanceAs (Decidable True)

namespace Forest

variable {t t' : Tree} {P : Tree → Prop}

theorem reaped (h : Forest t) (hp : P t) (hr : Reaped t t')
    (hpruned : ∀ x u u', Forest u → P u → Pruned x u u' → P u') : Forest t' ∧ P t' := by
  induction hr with
  | refl => exact ⟨h, hp⟩
  | free _ ht hz ih =>
    have hpr := pruned_free ht hz
    exact ⟨hpr.forest ih.1, hpruned _ _ _ ih.1 ih.2 hpr⟩

/-- What a call keeps true of the tree, if it has room for its link: a property that new
entries, lost entries and freed inodes leave true. -/
theorem effect (h : Forest t) (he : TreeEffect t cwd c t') (hs : ∀ d, (t.ents d).length ≤ maxEntries)
    (hroom : LinkRoom 0xFFFF t cwd c) (hp : P t)
    (hgained : ∀ path d name e u, Call.enters c = some path → t.resolve true cwd path = some (d, name) →
      (t.kind e.inum = tFree ∨ ∃ old new nm, c = .link (some (old, new)) ∧
        t.resolve false cwd old = some (e.inum, nm)) → Gained d e t u → P u)
    (hlost : ∀ path d name j e u, c = .unlink (some path) → t.resolve true cwd path = some (d, name) →
      t.lookup d name = some e.inum → Lost d j e t u → P u)
    (hpruned : ∀ x u u', Forest u → P u → Pruned x u u' → P u') : Forest t' ∧ P t' := by
  have hgrow : ∀ path d name e u, Call.enters c = some path → t.resolve true cwd path = some (d, name) →
      (t.kind e.inum = tFree ∨ ∃ old new nm, c = .link (some (old, new)) ∧
        t.resolve false cwd old = some (e.inum, nm)) → Gained d e t u → Reaped u t' → Forest t' ∧ P t' := by
    intro path d name e u hc hres hold hg hr
    exact (hg.forest h).reaped (hgained path d name e u hc hres hold hg) hr hpruned
  cases he with
  | same hr => exact h.reaped hp hr hpruned
  | @made path ty d name n hmk hres hm =>
    have henter : Call.enters c = some path := by
      unfold Call.enters
      split
      · cases hmk
      · rw [hmk]
        rfl
    by_cases hdir : ty = tDir
    · subst hdir
      exact hgrow path d name _ _ henter hres (.inl hm.free)
        (h.gained_dir hm.nonzero hm.small hm.free hm.dir hm.absent (hs d)) hm.result
    · exact hgrow path d name _ _ henter hres (.inl hm.free)
        (h.gained_file hm.nonzero hm.small hm.free hm.dir hm.absent (makes_ne_free hmk) hdir) hm.result
  | @joined old new n nm d name hc hold hres hj =>
    subst hc
    exact hgrow new d name _ _ rfl hres (.inr ⟨old, new, nm, rfl, hold⟩)
      (h.gained_linked hj.typed hj.file hj.dir hj.absent (hroom _ hold)) hj.result
  | @parted path d name n i hc hres hpt =>
    obtain ⟨j, e, -, rfl, hsh⟩ := h.lost_removed hpt
    obtain ⟨de, hfirst, hde⟩ := hpt.entry
    have hlook := Tree.lookup_first hfirst
    rw [hde] at hlook
    exact (hsh.forest h).reaped (hlost path d name j e _ hc hres hlook hsh) hpt.result hpruned

end Forest

end Xv6Filter.Proofs
