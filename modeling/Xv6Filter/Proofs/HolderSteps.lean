import Xv6Filter.Proofs.Holders

namespace Xv6Filter.Proofs
open Lib Function

def Consistent (k : Kernel) : Prop := Coherent (fun _ => 0) k

def Call.makes : Call → Option (List Byte × Short)
  | .opens (some path) omode => if omode &&& oCreate ≠ 0 then some (path, tFile) else none
  | .mkdir (some path) => some (path, tDir)
  | .mknod (some path) _ _ => some (path, tDevice)
  | _ => none

inductive TreeEffect (t : Tree) (cwd : Nat) (c : Call) (t' : Tree) : Prop
  | same : Reaped t t' → TreeEffect t cwd c t'
  | made : Call.makes c = some (path, ty) → t.resolve true cwd path = some (d, name) →
      Made d n ty name t t' → TreeEffect t cwd c t'
  | joined : c = .link (some (old, new)) → t.resolve false cwd old = some (n, nm) →
      t.resolve true cwd new = some (d, name) → Joined d n name t t' → TreeEffect t cwd c t'
  | parted : c = .unlink (some path) → t.resolve true cwd path = some (d, name) →
      Parted d n i name t t' → TreeEffect t cwd c t'

def cwdInum (k : Kernel) (i : Slot) : Nat := (k.proc i).cwd.elim 0 fun e => (k.fs.inode e).inum

structure Called (k : Kernel) (i : Slot) (c : Call) (k' : Kernel) : Prop where
  coherent : Consistent k'
  sb : k'.fs.sb = k.fs.sb
  effect : TreeEffect (tree k.fs) (cwdInum k i) c (tree k'.fs)

def Present (k : Kernel) (i : Slot) : Prop :=
  (k.proc i).state ≠ .unused ∧ (k.proc i).state ≠ .zombie

theorem present_of_alive {k : Kernel} (h : k.alive i = true) : Present k i := by
  unfold Kernel.alive at h
  simp only [decide_eq_true_eq] at h
  rcases h with h | h <;> simp [Present, h]

theorem argfd_some {p : Proc} (h : Kernel.argfd p fd = some (j, f)) : p.ofile j = some f := by
  unfold Kernel.argfd at h
  split at h
  · simp only [Option.map_eq_some_iff, Prod.mk.injEq] at h
    obtain ⟨_, hf, rfl, rfl⟩ := h
    exact hf
  · cases h

theorem FileRefs.setOfile {proc : Slot → Proc} {file : Fp → File} {fx fx' : Fp → Int}
    (h : FileRefs fx proc file) {fd : Fin nofile} {v : Option Fp}
    (hx : ∀ g, fx' g = fx g + (if (proc i).ofile fd = some g then 1 else 0) - if v = some g then 1 else 0) :
    FileRefs fx' (update proc i
      { proc i with ofile := update (proc i).ofile fd v }) file := by
  refine ⟨?_, h.closed, h.opened⟩
  intro g
  have h₁ := h.exact g
  have h2 := slotRefs_update proc i { proc i with ofile := update (proc i).ofile fd v } g
  have h3 := procSlots_update (proc i) fd v g
  have h4 := hx g
  dsimp only at h2 h3 ⊢
  split at h3 <;> split at h3 <;> rename_i ha hb <;> simp only [ha, hb, ↓reduceIte] at h4 <;> omega

theorem Procs.setOfile {proc : Slot → Proc} (h : Procs proc)
    (hp : (proc i).state ≠ .unused ∧ (proc i).state ≠ .zombie) (fd : Fin nofile) (v : Option Fp) :
    Procs (update proc i { proc i with ofile := update (proc i).ofile fd v }) := by
  refine ⟨?_, ?_⟩ <;> intro j <;> by_cases hj : j = i
  · subst hj
    simp [hp.1, hp.2]
  · simpa [hj] using h.gone j
  · subst hj
    simpa using h.home j
  · simpa [hj] using h.home j

namespace Coherent

variable {k k' : Kernel} {fx fx' : Fp → Int} {i : Slot}

section

variable (h : Coherent fx k)

include h

theorem of_eq (he : ∀ g, fx' g = fx g) : Coherent fx' k := by
  rwa [funext he]

/-- A change to the file system by an operation that keeps no reference. -/
theorem setFs (hb : Busy k.fs [] fs') : Coherent fx { k with fs := fs' } :=
  ⟨h.files, h.pipes, h.procs, h.inodes.busy hb⟩

theorem setProc {p : Proc} (ho : p.ofile = (k.proc i).ofile)
    (hc : p.cwd = (k.proc i).cwd) (hs : p.state = (k.proc i).state) : Coherent fx (k.setProc i p) := by
  refine h.calm ⟨?_, ?_, ?_, ?_⟩ rfl rfl rfl <;> intro j <;> by_cases hj : j = i <;>
    simp [hj, ho, hc, hs]

/-- Another file for a descriptor; the reference to the old one is left over. -/
theorem setOfile (hp : Present k i) {fd : Fin nofile} {v : Option Fp}
    (hx : ∀ g, fx' g = fx g + (if (k.proc i).ofile fd = some g then 1 else 0) -
      if v = some g then 1 else 0) : Coherent fx' (k.setOfile i fd v) := by
  refine ⟨h.files.setOfile hx, h.pipes, h.procs.setOfile hp fd v, h.inodes.congr ?_ (fun _ => rfl)
    (fun _ => rfl) fun _ => rfl⟩
  intro j
  by_cases hj : j = i <;> simp [Kernel.setOfile, hj]

theorem fdalloc (hp : Present k i) (hf : k.fdalloc i f = some (fd, k')) :
    Coherent (oneLess fx f) k' ∧ k' = k.setOfile i fd (some f) ∧ (k.proc i).ofile fd = none := by
  unfold Kernel.fdalloc at hf
  split at hf
  · cases hf
  · rename_i fd' hfind
    cases hf
    have hfree := List.find?_some hfind
    rw [Option.isNone_iff_eq_none] at hfree
    refine ⟨h.setOfile hp ?_, rfl, hfree⟩
    intro g
    rw [hfree]
    simp only [oneLess, Option.some.injEq, reduceCtorEq, ↓reduceIte, eq_comm (a := f)]
    omega

theorem filedup (f : Fp) : Post (k.filedup f) Plain fun k' => Coherent (oneMore fx f) k' ∧ k'.fs = k.fs := by
  unfold Kernel.filedup
  split
  · simp [Post, Plain]
  · rename_i hr
    have hopen := h.files.opened f (by omega)
    refine ⟨⟨?_, ?_, h.procs, ?_⟩, rfl⟩
    · refine h.files.setFile ?_ (fun h0 => ?_) fun _ => hopen
      · intro g
        simp only [oneMore]
        split <;> omega
      · simp only at h0
        omega
    · exact h.pipes.setFile fun pi w => Iff.rfl
    · apply h.inodes.congr (fun _ => rfl) <;> intro g <;> by_cases hg : g = f <;> simp [hg]

end

/-- A file that `filealloc` gave and that was not opened is closed without a trace. -/
theorem fileclose_fresh (hc : (k.file f).ref = 0 → (k.file f).type = .none) (hr : (k.file f).ref = 0)
    (i : Slot) : (k.setFile f { k.file f with ref := 1 }).fileclose i f = .ok k := by
  have ht := hc hr
  have hsame : ({ k.file f with ref := 0, type := .none } : File) = k.file f := by
    generalize k.file f = ff at hr ht
    obtain ⟨ty, ref⟩ := ff
    dsimp only at hr ht
    rw [hr, ht]
  have hback : update k.file f { k.file f with ref := 0, type := .none } = k.file := by
    rw [hsame, update_eq_self]
  unfold Kernel.fileclose
  simp only [Kernel.setFile, update_self, ht, update_idem]
  rw [if_neg (by decide), if_neg (by decide)]
  exact congrArg (fun file => Except.ok { k with file := file }) hback

theorem filealloc_some (hf : k.filealloc = some (f, k')) :
    (k.file f).ref = 0 ∧ k' = k.setFile f { k.file f with ref := 1 } := by
  unfold Kernel.filealloc at hf
  split at hf
  · cases hf
  · rename_i g hfind
    cases hf
    exact ⟨by simpa using List.find?_some hfind, rfl⟩

end Coherent

namespace Consistent

variable {k k' : Kernel} {i : Slot}

theorem sysDup (h : Consistent k) (hp : Present k i) (fd : I32) :
    Post (k.sysDup i fd) Plain fun r => Consistent r.2 ∧ r.2.fs = k.fs := by
  unfold Kernel.sysDup
  split
  · exact ⟨h, rfl⟩
  · split
    · exact ⟨h, rfl⟩
    · rename_i _ _ f _ _ new k1 hf
      obtain ⟨h₁, hk1, -⟩ := Coherent.fdalloc h hp hf
      have hdup := h₁.filedup f
      split
      · rename_i why hw
        exact hdup.of_error hw
      · rename_i k2 hw
        obtain ⟨h2, hfs⟩ := hdup.of_ok hw
        rw [oneMore_oneLess] at h2
        exact ⟨h2, hfs.trans (by rw [hk1]; rfl)⟩

theorem sysClose (h : Consistent k) (hp : Present k i) (fd : I32) :
    Post (k.sysClose i fd) Plain fun r => Consistent r.2 ∧ Reaped (tree k.fs) (tree r.2.fs) ∧
      Remaining k.fs r.2.fs ∧ ∃ n, Logs {k.fs.iblock n} 0 k.fs r.2.fs := by
  unfold Kernel.sysClose
  split
  · exact ⟨h, .refl _, .refl _, 0, .refl _ _ _⟩
  · rename_i j f harg
    have h₁ : Coherent (oneMore (fun _ => 0) f) (k.setOfile i j none) := by
      refine Coherent.setOfile h hp ?_
      intro g
      rw [argfd_some harg]
      simp [oneMore, eq_comm (a := f)]
    have hclose := h₁.fileclose i f
    split
    · rename_i why hw
      exact hclose.of_error hw
    · rename_i k2 hw
      obtain ⟨h2, -, hreap, hrem, hlogs⟩ := hclose.of_ok hw
      rw [oneLess_oneMore] at h2
      exact ⟨h2, hreap, hrem, hlogs⟩

end Consistent

def newEnd (ff : File) (pi : Nat) (w : Bool) : File := { Kernel.pipeEnd ff pi w with ref := 1 }

def withPipe (k : Kernel) (f0 f1 : Fp) (pi : Nat) : Kernel :=
  { k with
    file := update (update k.file f0 (newEnd (k.file f0) pi false)) f1
      (newEnd (k.file f1) pi true)
    pipe := update k.pipe pi (some ⟨true, true⟩) }

theorem pipealloc_cases {k : Kernel} (hc : ∀ f, (k.file f).ref = 0 → (k.file f).type = .none)
    (i : Slot) (page : Option Nat) :
    k.pipealloc i page = .ok (none, k) ∨ ∃ f0 f1 pi, f0 ≠ f1 ∧ (k.file f0).ref = 0 ∧ (k.file f1).ref = 0 ∧
      page = some pi ∧ k.pipealloc i page = .ok (some (f0, f1), withPipe k f0 f1 pi) := by
  unfold Kernel.pipealloc
  split
  · exact .inl rfl
  · rename_i f0 k1 h0
    obtain ⟨hr0, rfl⟩ := Coherent.filealloc_some h0
    split
    · left
      rw [Coherent.fileclose_fresh (hc f0) hr0]
      rfl
    · rename_i f1 k2 h1
      obtain ⟨hr1, rfl⟩ := Coherent.filealloc_some h1
      have hne : f1 ≠ f0 := by
        rintro rfl
        simp at hr1
      rw [Kernel.setFile_file, update_of_ne hne] at hr1
      have hcomm : (k.setFile f0 { k.file f0 with ref := 1 }).setFile f1
          { (k.setFile f0 { k.file f0 with ref := 1 }).file f1 with ref := 1 } =
          (k.setFile f1 { k.file f1 with ref := 1 }).setFile f0
            { (k.setFile f1 { k.file f1 with ref := 1 }).file f0 with ref := 1 } := by
        simp only [Kernel.setFile, update_of_ne hne, update_of_ne hne.symm]
        rw [update_comm hne]
      split
      · left
        have hclose : ((k.setFile f1 { k.file f1 with ref := 1 }).setFile f0
            { (k.setFile f1 { k.file f1 with ref := 1 }).file f0 with ref := 1 }).fileclose i f0 =
            .ok (k.setFile f1 { k.file f1 with ref := 1 }) := by
          apply Coherent.fileclose_fresh
          · simpa [hne.symm] using hc f0
          · simpa [hne.symm] using hr0
        rw [hcomm, hclose]
        simp only [bind, Except.bind]
        rw [Coherent.fileclose_fresh (hc f1) hr1]
        rfl
      · rename_i pi
        refine .inr ⟨f0, f1, pi, hne.symm, hr0, hr1, rfl, ?_⟩
        simp only [Kernel.setFile, withPipe, update_of_ne hne, update_of_ne hne.symm,
          update_self]
        have hfile : ∀ x y x' y' : File,
            update (update (update (update k.file f0 x) f1 y) f0 x') f1 y' =
              update (update k.file f0 x') f1 y' := by
          intro x y x' y'
          funext g
          by_cases hg1 : g = f1
          · simp [hg1]
          · by_cases hg0 : g = f0 <;> simp [hg0, hg1, hne.symm]
        rw [hfile]
        rfl

theorem Pipes.create {file : Fp → File} {pipe : Nat → Option Pipe} (h : Pipes file pipe)
    (hpi : pipe pi = none) (hne : f0 ≠ f1) (h0 : (file f0).type = .none) (h1 : (file f1).type = .none) :
    Pipes (update (update file f0 (newEnd (file f0) pi false)) f1
      (newEnd (file f1) pi true)) (update pipe pi (some ⟨true, true⟩)) := by
  have hno : ∀ w f, ¬ IsEnd file pi w f := by
    intro w f hf
    obtain ⟨q, hq, -⟩ := (h.ends pi w).mpr ⟨f, hf⟩
    rw [hpi] at hq
    cases hq
  have hends : ∀ pj w f, IsEnd (update (update file f0 (newEnd (file f0) pi false)) f1
      (newEnd (file f1) pi true)) pj w f ↔ (pj = pi ∧ f = if w then f1 else f0) ∨ IsEnd file pj w f := by
    intro pj w f
    have h0' : ¬ IsEnd file pj w f0 := fun hf => by simp [IsEnd, h0] at hf
    have h1' : ¬ IsEnd file pj w f1 := fun hf => by simp [IsEnd, h1] at hf
    by_cases hf1 : f = f1
    · subst hf1
      simp only [h1', or_false]
      cases w <;> simp [IsEnd, newEnd, Kernel.pipeEnd, hne.symm, eq_comm]
    · by_cases hf0 : f = f0
      · subst hf0
        simp only [h0', or_false]
        cases w <;> simp [IsEnd, newEnd, Kernel.pipeEnd, hne, eq_comm]
      · have hw : ¬ f = if w then f1 else f0 := by
          cases w <;> simp [hf0, hf1]
        simp [IsEnd, hf0, hf1, hw]
  refine ⟨?_, ?_, ?_⟩
  · intro pj w
    simp only [hends]
    by_cases hpj : pj = pi
    · subst hpj
      simp only [update_self, Option.some.injEq, exists_eq_left', true_and]
      constructor
      · exact fun _ => ⟨_, .inl rfl⟩
      · intro _
        cases w <;> rfl
    · simp only [update_of_ne hpj, hpj, false_and, false_or]
      exact h.ends pj w
  · intro pj q
    by_cases hpj : pj = pi
    · subst hpj
      rw [update_self]
      rintro ⟨⟩
      exact .inl rfl
    · rw [update_of_ne hpj]
      exact h.live pj q
  · intro pj w f f' hf hf'
    rcases (hends pj w f).mp hf with ⟨rfl, hfe⟩ | hfe <;> rcases (hends _ w f').mp hf' with ⟨he, hfe'⟩ | hfe'
    · rw [hfe, hfe']
    · exact absurd hfe' (hno w f')
    · exact absurd hfe (he ▸ hno w f)
    · exact h.unique pj w f f' hfe hfe'

namespace Coherent

variable {k k' : Kernel} {i : Slot}

theorem withPipe (h : Consistent k) (hpi : k.pipe pi = none) (hne : f0 ≠ f1) (h0 : (k.file f0).ref = 0)
    (h1 : (k.file f1).ref = 0) :
    Coherent (oneMore (oneMore (fun _ => 0) f0) f1) (withPipe k f0 f1 pi) := by
  have ht0 := h.files.closed f0 h0
  have ht1 := h.files.closed f1 h1
  have hopen : ∀ ff w, (newEnd ff pi w).type ≠ .none := by simp [newEnd, Kernel.pipeEnd]
  refine ⟨?_, h.pipes.create hpi hne ht0 ht1, h.procs, ?_⟩
  · have hf : FileRefs (oneMore (fun _ => 0) f0) k.proc
        (update k.file f0 (newEnd (k.file f0) pi false)) := by
      refine h.files.setFile ?_ (fun hz => absurd hz (by simp [newEnd])) fun _ => hopen _ _
      intro g
      simp [oneMore, newEnd, h0]
    refine hf.setFile ?_ (fun hz => absurd hz (by simp [newEnd])) fun _ => hopen _ _
    intro g
    simp [oneMore, newEnd, update_of_ne hne.symm, h1]
  · have hi : InodeRefs k.proc (update k.file f0 (newEnd (k.file f0) pi false)) k.fs :=
      h.inodes.setFile (by simp [fileUse, newEnd, Kernel.pipeEnd, ht0]) (by simp [newEnd, Kernel.pipeEnd])
    refine hi.setFile ?_ (by simp [newEnd, Kernel.pipeEnd])
    simp [fileUse, newEnd, Kernel.pipeEnd, ht1, update_of_ne hne.symm]

theorem closePipe {f g : Fp} (h : Coherent (oneMore (oneMore (fun _ => 0) f) g) k) :
    Post (k.closePipe i f g) Plain fun r => Consistent r.2 ∧ Reaped (tree k.fs) (tree r.2.fs) ∧
      r.2.fs.sb = k.fs.sb := by
  unfold Kernel.closePipe
  refine (h.fileclose i f).bind ?_
  rintro k1 ⟨h₁, -, hr₁, -, n1, hl1⟩
  refine (h₁.fileclose i g).bind ?_
  rintro k2 ⟨h2, -, hr2, -, n2, hl2⟩
  refine ⟨h2.of_eq ?_, hr₁.trans hr2, hl2.sb.trans hl1.sb⟩
  intro g
  simp only [oneLess, oneMore]
  omega

end Coherent

theorem Present.setOfile {k : Kernel} (h : Present k i) (fd : Fin nofile) (v : Option Fp) :
    Present (k.setOfile i fd v) i := by
  simpa [Present, Kernel.setOfile] using h

namespace Consistent

variable {k k' : Kernel} {i : Slot}

theorem sysPipe (h : Consistent k) (hp : Present k i) {page : Option Nat}
    (hpage : ∀ pi ∈ page, k.pipe pi = none) (copied : Bool) :
    Post (k.sysPipe i page copied) Plain fun r => Consistent r.2 ∧ Reaped (tree k.fs) (tree r.2.fs) ∧
      r.2.fs.sb = k.fs.sb := by
  unfold Kernel.sysPipe
  rcases pipealloc_cases h.files.closed i page with hrun | ⟨f0, f1, pi, hne, h0, h1, rfl, hrun⟩
  · rw [hrun]
    exact ⟨h, .refl _, rfl⟩
  · rw [hrun]
    have hk := Coherent.withPipe h (hpage pi rfl) hne h0 h1
    have hp1 : Present (withPipe k f0 f1 pi) i := hp
    have hfs : (withPipe k f0 f1 pi).fs = k.fs := rfl
    generalize withPipe k f0 f1 pi = k1 at hk hp1 hfs
    rw [← hfs]
    simp only [bind, Except.bind]
    split
    · exact hk.closePipe
    · rename_i fd0 k2 hfd0
      obtain ⟨h2, rfl, hfree0⟩ := hk.fdalloc hp1 hfd0
      have hp2 := hp1.setOfile fd0 (some f0)
      split
      · refine Coherent.closePipe (f := f0) (g := f1) ?_
        refine h2.setOfile hp2 ?_
        intro g
        simp [Kernel.setOfile, oneLess, oneMore, eq_comm (a := f0)]
        omega
      · rename_i fd1 k3 hfd1
        obtain ⟨h3, rfl, hfree1⟩ := h2.fdalloc hp2 hfd1
        have hp3 := hp2.setOfile fd1 (some f1)
        split
        · refine ⟨h3.of_eq ?_, .refl _, rfl⟩
          intro g
          simp only [oneLess, oneMore]
          omega
        · have hfd : fd0 ≠ fd1 := by
            rintro rfl
            simp [Kernel.setOfile] at hfree1
          refine Coherent.closePipe (f := f0) (g := f1) ?_
          have h4 : Coherent (oneMore (oneLess (oneLess (oneMore (oneMore (fun _ => 0) f0) f1) f0) f1) f0)
              (((k1.setOfile i fd0 (some f0)).setOfile i fd1 (some f1)).setOfile i fd0 none) := by
            refine h3.setOfile hp3 ?_
            intro g
            simp [Kernel.setOfile, oneMore, hfd, eq_comm (a := f0)]
          refine h4.setOfile (hp3.setOfile fd0 none) ?_
          intro g
          simp [Kernel.setOfile, oneMore, oneLess, hfd.symm, eq_comm (a := f1)]

end Consistent

end Xv6Filter.Proofs
