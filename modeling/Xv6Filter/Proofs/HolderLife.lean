import Mathlib.Algebra.BigOperators.Fin
import Xv6Filter.Proofs.HolderFiles

namespace Xv6Filter.Proofs
open Lib Function

def dupped (fx : Fp → Int) (ofile : Fin nofile → Option Fp) (l : List (Fin nofile)) : Fp → Int :=
  fun g => fx g + ((l.map fun fd => if ofile fd = some g then 1 else 0).sum : Nat)

theorem FileRefs.of_eq {proc : Slot → Proc} {file : Fp → File} {fx fx' : Fp → Int}
    (h : FileRefs fx proc file) (he : ∀ g, fx' g = fx g) : FileRefs fx' proc file := by
  rwa [funext he]

theorem FileRefs.dupFiles {k : Kernel} {fx : Fp → Int} (h : FileRefs fx k.proc k.file)
    (ofile : Fin nofile → Option Fp) (l : List (Fin nofile)) :
    Post (l.foldlM (fun k fd => match ofile fd with
        | none => .ok k
        | some f => k.filedup f) k) Plain fun k' => ∃ file, k' = { k with file := file } ∧
      FileRefs (dupped fx ofile l) k.proc file ∧ ∀ g, file g = { k.file g with ref := (file g).ref } := by
  induction l generalizing k fx with
  | nil =>
    exact ⟨k.file, rfl, h.of_eq fun g => by simp [dupped], fun g => rfl⟩
  | cons fd l ih =>
    rw [List.foldlM_cons]
    cases hf : ofile fd with
    | none =>
      refine (ih h).imp (fun _ he => he) ?_
      rintro k' ⟨file, rfl, hfile, hsame⟩
      exact ⟨file, rfl, hfile.of_eq fun g => by simp [dupped, hf], hsame⟩
    | some f =>
      dsimp only
      unfold Kernel.filedup
      split
      · simp [Post, Plain, bind, Except.bind]
      · rename_i hr
        have hopen := h.opened f (by omega)
        have h1 : FileRefs (oneMore fx f) k.proc (update k.file f
            { k.file f with ref := (k.file f).ref + 1 }) := by
          refine h.setFile ?_ (fun h0 => ?_) fun _ => hopen
          · intro g
            simp only [oneMore]
            split <;> omega
          · simp only at h0
            omega
        refine (ih (k := k.setFile f { k.file f with ref := (k.file f).ref + 1 }) h1).imp (fun _ he => he) ?_
        rintro k' ⟨file, rfl, hfile, hsame⟩
        refine ⟨file, rfl, ?_, ?_⟩
        · refine hfile.of_eq ?_
          intro g
          simp only [dupped, oneMore, List.map_cons, List.sum_cons, hf, Option.some.injEq, eq_comm (a := f)]
          push_cast
          split
          · simp
            omega
          · simp
        · intro g
          have := hsame g
          by_cases hg : g = f
          · subst hg
            simpa using this
          · simpa [hg] using this

structure Inherits (i j : Slot) (proc proc' : Slot → Proc) : Prop where
  other : ∀ x, x ≠ j → (proc' x).ofile = (proc x).ofile ∧ (proc' x).cwd = (proc x).cwd
  ofile : (proc' j).ofile = (proc i).ofile
  cwd : (proc' j).cwd = (proc i).cwd

namespace Inherits

variable {proc proc' : Slot → Proc} {i j : Slot}

theorem slotRefs_eq (h : Inherits i j proc proc') (hj : ∀ fd, (proc j).ofile fd = none) (f : Fp) :
    slotRefs proc' f = slotRefs proc f + procSlots (proc i) f := by
  have hc : slotRefs proc' = slotRefs (update proc j { proc j with ofile := (proc i).ofile }) := by
    apply slotRefs_congr
    intro x
    by_cases hx : x = j
    · subst hx
      simpa using h.ofile
    · simpa [hx] using (h.other x hx).1
  have h1 := slotRefs_update proc j { proc j with ofile := (proc i).ofile } f
  have h2 : procSlots (proc j) f = 0 := by simp [procSlots, hj]
  have h3 : procSlots { proc j with ofile := (proc i).ofile } f = procSlots (proc i) f := rfl
  rw [hc]
  omega

theorem inodeRefs_eq (h : Inherits i j proc proc') (hj : (proc j).cwd = none) (file : Fp → File) (e : Ip) :
    inodeRefs proc' file e = inodeRefs proc file e + cwdUse (proc i) e := by
  have hc : inodeRefs proc' file =
      inodeRefs (update proc j { proc j with cwd := (proc i).cwd }) file := by
    apply inodeRefs_congr _ (fun _ => rfl) fun _ => rfl
    intro x
    by_cases hx : x = j
    · subst hx
      simpa using h.cwd
    · simpa [hx] using (h.other x hx).2
  have h1 := cwdUse_update proc j { proc j with cwd := (proc i).cwd } e
  have h2 : cwdUse (proc j) e = 0 := by simp [cwdUse, hj]
  have h3 : cwdUse { proc j with cwd := (proc i).cwd } e = cwdUse (proc i) e := rfl
  rw [hc]
  unfold inodeRefs
  omega

end Inherits

namespace Consistent

variable {k k' : Kernel} {i j : Slot}

theorem forked (h : Consistent k) (hun : (k.proc j).state = .unused) (hc : Inherits i j k.proc k'.proc)
    (hst : ∀ x, x ≠ j → (k'.proc x).state = (k.proc x).state)
    (hj : (k'.proc j).state ≠ .unused ∧ (k'.proc j).state ≠ .zombie) (hcwd : (k.proc i).cwd = some e)
    (hfile : FileRefs (fun _ => 0) k'.proc k'.file)
    (hsame : ∀ g, k'.file g = { k.file g with ref := (k'.file g).ref })
    (hpipe : k'.pipe = k.pipe) (hfs : k'.fs = k.fs.idup e) : Consistent k' := by
  obtain ⟨hof, hno⟩ := h.procs.gone j (.inl hun)
  have hpos := h.inodes.cwd_pos hcwd
  have htype : ∀ g, (k'.file g).type = (k.file g).type := fun g => by rw [hsame g]
  have hip : ∀ g, (k'.file g).ip = (k.file g).ip := fun g => by rw [hsame g]
  have hw : ∀ g, (k'.file g).writable = (k.file g).writable := fun g => by rw [hsame g]
  have hq : ∀ g, (k'.file g).pipe = (k.file g).pipe := fun g => by rw [hsame g]
  refine ⟨hfile, ?_, ⟨?_, ?_⟩, ?_⟩
  · rw [hpipe]
    apply h.pipes.congr
    intro pi w g
    unfold IsEnd
    rw [htype, hw, hq]
  · intro x
    by_cases hx : x = j
    · subst hx
      simp [hj.1, hj.2]
    · rw [hst x hx, (hc.other x hx).1, (hc.other x hx).2]
      exact h.procs.gone x
  · intro x
    by_cases hx : x = j
    · subst hx
      exact fun _ _ => ⟨e, hc.cwd.trans hcwd⟩
    · rw [hst x hx, (hc.other x hx).2]
      exact h.procs.home x
  · have hb := (Busy.begin h.inodes.settled).idup hpos
    rw [hfs]
    refine InodeRefs.of_busy hb (by simpa using hpos) ?_ ?_
    · intro x
      have h1 := h.inodes.exact x
      have hfile : inodeRefs k'.proc k'.file = inodeRefs k'.proc k.file :=
        inodeRefs_congr (fun _ => rfl) htype hip
      rw [hfile, hc.inodeRefs_eq hno]
      simp only [cwdUse, hcwd, Option.some.injEq, List.countP_singleton, decide_eq_true_eq]
      omega
    · intro g ht hwr
      rw [htype] at ht
      rw [hw] at hwr
      rw [hip]
      exact .inl ⟨h.inodes.file_pos (.inl ht), h.inodes.plain g ht hwr⟩

theorem inherits_inherit (k : Kernel) (hij : i ≠ j) (hof : ∀ fd, (k.proc j).ofile fd = none) :
    Inherits i j k.proc (((k.allocFound j).inheritFilter i j).inheritRest i j).proc ∧
      (∀ x, x ≠ j → ((((k.allocFound j).inheritFilter i j).inheritRest i j).proc x).state =
        (k.proc x).state) := by
  refine ⟨⟨?_, ?_, ?_⟩, ?_⟩
  · intro x hx
    by_cases hi : x = i
    · subst hi
      simp [Kernel.inheritRest, Kernel.inheritFilter, Kernel.allocFound, hx]
    · simp [Kernel.inheritRest, Kernel.inheritFilter, Kernel.allocFound, hx, hi]
  · funext fd
    simp [Kernel.inheritRest, Kernel.inheritFilter, Kernel.allocFound, hij, hij.symm, hof]
  · simp [Kernel.inheritRest, Kernel.inheritFilter, Kernel.allocFound, hij]
  · intro x hx
    by_cases hi : x = i
    · subst hi
      simp [Kernel.inheritRest, Kernel.inheritFilter, Kernel.allocFound, hx]
    · simp [Kernel.inheritRest, Kernel.inheritFilter, Kernel.allocFound, hx, hi]

/-- `kfork` keeps the counts: the child's references are counted. -/
theorem kfork (h : Consistent k) (hp : Present k i) (mem : Kernel.ForkMem) :
    Post (k.kfork i mem) Plain fun r => Consistent r.2 ∧ SameDisk k.fs r.2.fs ∧ Remaining k.fs r.2.fs := by
  unfold Kernel.kfork
  split
  · exact ⟨h, .refl _, .refl _⟩
  rename_i j hfind
  have hun : (k.proc j).state = .unused := by simpa using List.find?_some hfind
  have hij : i ≠ j := by
    rintro rfl
    exact hp.1 hun
  obtain ⟨hof, hno⟩ := h.procs.gone j (.inl hun)
  obtain ⟨e, hcwd⟩ := h.procs.home i hp.1 hp.2
  unfold Kernel.kforkFound
  dsimp only
  cases mem with
  | noTrapframe | noPagetable =>
    refine ⟨Coherent.calm h ⟨?_, ?_, ?_, ?_⟩ rfl rfl rfl, .refl _, .refl _⟩ <;> intro x <;> by_cases hx : x = j <;>
      simp [Kernel.freeproc, Kernel.allocFound, hx, hun]
  | noCopy =>
    refine ⟨Coherent.calm h ⟨?_, ?_, ?_, ?_⟩ rfl rfl rfl, .refl _, .refl _⟩ <;> intro x <;> by_cases hx : x = j <;>
      by_cases hi : x = i <;>
      simp_all [Kernel.freeproc, Kernel.allocFound, Kernel.inheritFilter]
  | enough =>
    obtain ⟨hcop, hst⟩ := inherits_inherit k hij hof
    have hfiles : FileRefs (fun g => - (procSlots (k.proc i) g : Int))
        (((k.allocFound j).inheritFilter i j).inheritRest i j).proc k.file := by
      refine ⟨?_, h.files.closed, h.files.opened⟩
      intro g
      have := h.files.exact g
      rw [hcop.slotRefs_eq hof]
      push_cast
      omega
    have hdup := FileRefs.dupFiles (k := ((k.allocFound j).inheritFilter i j).inheritRest i j) hfiles
      ((k.allocFound j).proc i).ofile (List.finRange nofile)
    have hofile : ((k.allocFound j).proc i).ofile = (k.proc i).ofile := by
      simp [Kernel.allocFound, hij]
    cases hrun : (((k.allocFound j).inheritFilter i j).inheritRest i j).dupFiles
        ((k.allocFound j).proc i).ofile with
    | error why => exact hdup.of_error hrun
    | ok k1 =>
      obtain ⟨file, rfl, hfile, hsame⟩ := hdup.of_ok hrun
      rw [hofile] at hfile
      have hcwd' : ((((k.allocFound j).inheritFilter i j).inheritRest i j).proc i).cwd = some e :=
        (hcop.other i hij).2.trans hcwd
      simp only [hcwd']
      refine ⟨h.forked (i := i) (j := j) (e := e) hun ⟨?_, ?_, ?_⟩ ?_ ?_ hcwd ?_ hsame rfl rfl,
        .setInode _ _ _, .idup (h.inodes.cwd_pos hcwd)⟩
      · intro x hx
        simpa [hx] using hcop.other x hx
      · simpa using hcop.ofile
      · simpa using hcop.cwd
      · intro x hx
        simpa [hx] using hst x hx
      · simp
      · refine (hfile.congr ?_).of_eq ?_
        · intro x
          by_cases hx : x = j <;> simp [hx]
        · intro g
          simp only [dupped, procSlots, Fin.sum_univ_def]
          omega

theorem closeOpen (h : Consistent k) (hp : Present k i) (fd : Fin nofile) :
    Post (Kernel.closeOpen i k fd) Plain fun k' => Consistent k' ∧ Present k' i ∧
      (Reaped (tree k.fs) (tree k'.fs) ∧ Remaining k.fs k'.fs) ∧ k'.fs.sb = k.fs.sb ∧
      (k'.proc i).ofile fd = none ∧ ∀ fd', (k.proc i).ofile fd' = none → (k'.proc i).ofile fd' = none := by
  unfold Kernel.closeOpen
  split
  · rename_i hnone
    exact ⟨h, hp, ⟨.refl _, .refl _⟩, rfl, hnone, fun _ h' => h'⟩
  · rename_i f hf
    have hclose := Coherent.fileclose h i f
    split
    · rename_i why hw
      exact hclose.of_error hw
    · rename_i k1 hw
      obtain ⟨h1, hc, hreap, hrem, n, hl⟩ := hclose.of_ok hw
      have hp1 : Present k1 i := ⟨fun hs => hp.1 ((hc.unused i).mp hs), fun hs => hp.2 ((hc.zombie i).mp hs)⟩
      refine ⟨h1.setOfile hp1 ?_, hp1.setOfile fd none, ⟨hreap, hrem⟩, hl.sb, by simp [Kernel.setOfile], ?_⟩
      · intro g
        rw [hc.ofile i, hf]
        simp [oneLess, eq_comm (a := f)]
      · intro fd' h'
        by_cases hfd : fd' = fd
        · simp [Kernel.setOfile, hfd]
        · simpa [Kernel.setOfile, hfd, hc.ofile i] using h'

theorem closeAll (h : Consistent k) (hp : Present k i) (l : List (Fin nofile)) :
    Post (l.foldlM (Kernel.closeOpen i) k) Plain fun k' => Consistent k' ∧ Present k' i ∧
      (Reaped (tree k.fs) (tree k'.fs) ∧ Remaining k.fs k'.fs) ∧ k'.fs.sb = k.fs.sb ∧
      (∀ fd ∈ l, (k'.proc i).ofile fd = none) ∧ ∀ fd, (k.proc i).ofile fd = none → (k'.proc i).ofile fd = none := by
  induction l generalizing k with
  | nil => exact ⟨h, hp, ⟨.refl _, .refl _⟩, rfl, by simp, fun _ h' => h'⟩
  | cons fd l ih =>
    rw [List.foldlM_cons]
    refine (h.closeOpen hp fd).bind ?_
    rintro k1 ⟨h1, hp1, hr1, hsb1, hfd1, hkeep1⟩
    refine (ih h1 hp1).imp (fun _ he => he) ?_
    rintro k2 ⟨h2, hp2, hr2, hsb2, hfd2, hkeep2⟩
    refine ⟨h2, hp2, ⟨hr1.1.trans hr2.1, hr1.2.trans hr2.2⟩, hsb2.trans hsb1, ?_, fun fd' h' => hkeep2 fd' (hkeep1 fd' h')⟩
    intro fd' hmem
    rcases List.mem_cons.mp hmem with rfl | hmem
    · exact hkeep2 _ hfd1
    · exact hfd2 fd' hmem

structure Buried (k : Kernel) (i : Slot) (k' : Kernel) : Prop where
  ofile : ∀ x, (k'.proc x).ofile = (k.proc x).ofile
  cwd : ∀ x, (k'.proc x).cwd = (k.proc x).cwd
  unused : ∀ x, x ≠ i → ((k'.proc x).state = .unused ↔ (k.proc x).state = .unused)
  zombie : ∀ x, x ≠ i → ((k'.proc x).state = .zombie ↔ (k.proc x).state = .zombie)
  dead : (k'.proc i).state = .zombie
  file : k'.file = k.file
  pipe : k'.pipe = k.pipe
  fs : k'.fs = k.fs

theorem reparent_calm (k : Kernel) (i : Slot) : Calm k (k.reparent i) := by
  have hadopt : ∀ K : Kernel, (K.proc = fun j => if (k.proc j).parent = some i then
      { k.proc j with parent := some k.initproc } else k.proc j) → Calm k K := by
    intro K hK
    refine ⟨?_, ?_, ?_, ?_⟩ <;> intro x <;> rw [hK] <;> dsimp only <;> split <;> simp
  unfold Kernel.reparent
  dsimp only
  split
  · exact (hadopt _ rfl).trans (.wakeup _ _ _)
  · exact hadopt _ rfl

theorem reparent_tables (k : Kernel) (i : Slot) :
    (k.reparent i).file = k.file ∧ (k.reparent i).pipe = k.pipe ∧ (k.reparent i).fs = k.fs := by
  unfold Kernel.reparent
  dsimp only
  split <;> exact ⟨rfl, rfl, rfl⟩

theorem kexitLocked_buried (k : Kernel) (i : Slot) (status : I32) :
    Buried k i (k.kexitLocked i status) := by
  have hend : ∀ k2 : Kernel, Calm k k2 → k2.file = k.file → k2.pipe = k.pipe → k2.fs = k.fs →
      Buried k i (k2.setProc i { k2.proc i with xstate := status, state := .zombie }) := by
    intro k2 hc hf hp hfs
    refine ⟨?_, ?_, ?_, ?_, by simp, hf, hp, hfs⟩
    · intro x
      by_cases hx : x = i
      · subst hx
        simpa using hc.ofile x
      · simpa [hx] using hc.ofile x
    · intro x
      by_cases hx : x = i
      · subst hx
        simpa using hc.cwd x
      · simpa [hx] using hc.cwd x
    · intro x hx
      simpa [hx] using hc.unused x
    · intro x hx
      simpa [hx] using hc.zombie x
  obtain ⟨hf, hp, hfs⟩ := reparent_tables k i
  unfold Kernel.kexitLocked
  dsimp only
  cases hpar : ((k.reparent i).proc i).parent with
  | none => exact hend _ (reparent_calm k i) hf hp hfs
  | some q => exact hend _ ((reparent_calm k i).trans (.wakeup _ _ _)) hf hp hfs

/-- `kexit` closes everything, and frees only inodes without a name. -/
theorem kexit (h : Consistent k) (hp : Present k i) (status : I32) :
    Post (k.kexit i status) Plain fun k' => Consistent k' ∧ Reaped (tree k.fs) (tree k'.fs) ∧
      Remaining k.fs k'.fs ∧ k'.fs.sb = k.fs.sb := by
  unfold Kernel.kexit
  split
  · simp [Post, Plain]
  refine (h.closeAll hp (List.finRange nofile)).bind ?_
  rintro k1 ⟨h1, hp1, ⟨hr1, hrem1⟩, hsb1, hfd1, -⟩
  obtain ⟨e, hcwd⟩ := h1.procs.home i hp1.1 hp1.2
  rw [hcwd]
  dsimp only
  have hput := ((Busy.begin h1.inodes.settled).lend (h1.inodes.cwd_pos hcwd)).iput
  refine hput.bind ?_
  rintro fs2 ⟨hb, hd⟩
  have hd : SameDisk k1.fs fs2 ∨ ∃ g, SameDisk k1.fs g ∧ Freed (k1.fs.inode e).inum g fs2 ∧
      Sole (lent k1.fs e) [] (k1.fs.inode e).inum := hd.imp id fun hf => ⟨k1.fs, .refl _, hf⟩
  have hin := h1.inodes.moves hcwd hb (p := { k1.proc i with cwd := none }) (by simp [cwdUse])
    (by simp)
  generalize hK : ({ k1 with fs := fs2 } : Kernel).setProc i { k1.proc i with cwd := none } = K
  have hproc : K.proc = update k1.proc i { k1.proc i with cwd := none } := by rw [← hK]; rfl
  have hKfile : K.file = k1.file ∧ K.pipe = k1.pipe ∧ K.fs = fs2 := by
    rw [← hK]
    exact ⟨rfl, rfl, rfl⟩
  have hbur := kexitLocked_buried K i status
  rw [← hproc] at hin
  have hofile : ∀ x, (K.proc x).ofile = (k1.proc x).ofile := by
    intro x
    rw [hproc]
    by_cases hx : x = i <;> simp [hx]
  have hother : ∀ x, x ≠ i → K.proc x = k1.proc x := by
    intro x hx
    rw [hproc, update_of_ne hx]
  have hgone : (K.proc i).cwd = none := by
    rw [hproc]
    simp
  refine ⟨⟨?_, ?_, ⟨?_, ?_⟩, ?_⟩, ?_, ?_, ?_⟩
  · rw [hbur.file, hKfile.1]
    exact h1.files.congr fun x => (hbur.ofile x).trans (hofile x)
  · rw [hbur.file, hbur.pipe, hKfile.1, hKfile.2.1]
    exact h1.pipes
  · intro x
    rw [hbur.ofile, hbur.cwd, hofile]
    by_cases hx : x = i
    · subst hx
      exact fun _ => ⟨fun fd => hfd1 fd (List.mem_finRange fd), hgone⟩
    · rw [hbur.unused x hx, hbur.zombie x hx, hother x hx]
      exact h1.procs.gone x
  · intro x
    rw [hbur.cwd]
    by_cases hx : x = i
    · subst hx
      exact fun _ hne => absurd hbur.dead hne
    · rw [ne_eq, ne_eq, hbur.unused x hx, hbur.zombie x hx, hother x hx]
      exact h1.procs.home x
  · rw [hbur.file, hbur.fs, hKfile.1, hKfile.2.2]
    exact hin.congr hbur.cwd (fun _ => rfl) (fun _ => rfl) fun _ => rfl
  · rw [hbur.fs, hKfile.2.2]
    exact hr1.drop hd
  · rw [hbur.fs, hKfile.2.2]
    exact hrem1.trans hb.remaining_lent
  · rw [hbur.fs, hKfile.2.2]
    exact ((Logs.refl {k1.fs.iblock (k1.fs.inode e).inum} 0 _).drop hd).sb.trans hsb1

theorem called (hk : Consistent k') (hsb : k'.fs.sb = k.fs.sb) (hr : Reaped (tree k.fs) (tree k'.fs)) :
    Called k i c k' := ⟨hk, hsb, .same hr⟩

/-- Every call keeps the tables in agreement, and changes the tree as its arguments say. -/
theorem perform (h : Consistent k) (hp : Present k i) {c : Call} (hc : k.Possible c) :
    Post (k.perform i c) (Failing k.fs (tree k.fs)) fun r => Called k i c r.2 := by
  have hsoft : ∀ e, Plain e → Failing k.fs (tree k.fs) e := fun _ he => .inl (.plain he)
  have hsame : ∀ {g : Kernel}, tree g.fs = tree k.fs → Reaped (tree k.fs) (tree g.fs) := by
    intro g hg
    rw [hg]
    exact .refl _
  have hnone : Called k i c k := called h rfl (.refl _)
  have hb := Busy.begin h.inodes.settled
  cases c with
  | opens path omode =>
    cases path with
    | none => exact hnone
    | some path =>
      refine (h.openPath hp path omode).imp (fun _ he => .inl he) ?_
      rintro r ⟨hk, ⟨_, _, hl⟩, -, hr | ⟨ho, d, n, name, hres, hmade⟩⟩
      · exact called hk hl.sb hr
      · exact ⟨hk, hl.sb, .made (if_pos ho) hres hmade⟩
  | dup fd =>
    refine (h.sysDup hp fd).imp hsoft ?_
    rintro r ⟨hk, hfs⟩
    exact called hk (by rw [hfs]) (hsame (by rw [hfs]))
  | close fd =>
    refine (h.sysClose hp fd).imp hsoft ?_
    rintro r ⟨hk, hr, -, n, hl⟩
    exact called hk hl.sb hr
  | pipe page copied =>
    have hpage : ∀ pi ∈ page, k.pipe pi = none := by
      rintro pi hpi
      cases page with
      | none => cases hpi
      | some _ =>
        cases hpi
        exact hc
    refine (h.sysPipe hp hpage copied).imp hsoft ?_
    rintro r ⟨hk, hr, hsb⟩
    exact called hk hsb hr
  | read fd dst n other =>
    refine (h.onFile fd (fun k f => k.fileread f dst n other) fun f => h.fileread f dst n other).imp hsoft ?_
    rintro r ⟨hk, ht, hsb⟩
    exact called hk hsb (hsame ht)
  | write fd src n other =>
    refine (h.onFile fd (fun k f => k.filewrite f src n.toInt other) fun f => h.filewrite f src n.toInt other).imp hsoft ?_
    rintro r ⟨hk, ht, hsb⟩
    exact called hk hsb (hsame ht)
  | fstat fd copied =>
    refine (h.onFile fd (fun k f => k.filestat f copied) fun f => h.filestat f copied).imp hsoft ?_
    rintro r ⟨hk, ht, hsb⟩
    exact called hk hsb (hsame ht)
  | link paths =>
    cases paths with
    | none => exact hnone
    | some paths =>
      obtain ⟨old, new⟩ := paths
      refine (h.onFs (hb.linkPath (h.cwd_ref i) old new)).imp (fun _ he => .inl he) ?_
      rintro r ⟨hk, hsb, ht | ⟨d, n, nm, name, hold, hnew, hj⟩⟩
      · exact called hk hsb (hsame ht)
      · exact ⟨hk, hsb, .joined rfl hold hnew hj⟩
  | unlink path =>
    cases path with
    | none => exact hnone
    | some path =>
      refine (h.onFs (hb.unlinkPath (h.cwd_ref i) path)).imp (fun _ he => he) ?_
      rintro r ⟨hk, hsb, ht | ⟨d, n, name, j, hres, hpart⟩⟩
      · exact called hk hsb (hsame ht)
      · exact ⟨hk, hsb, .parted rfl hres hpart⟩
  | mkdir path =>
    cases path with
    | none => exact hnone
    | some path =>
      refine (h.onFs (hb.makeNode h.firm (h.cwd_ref i) path (by decide) (by decide) 0 0)).imp
        (fun _ he => .inl he) ?_
      rintro r ⟨hk, hsb, ht | ⟨d, n, name, hres, hmade⟩⟩
      · exact called hk hsb (hsame ht)
      · exact ⟨hk, hsb, .made rfl hres hmade⟩
  | mknod path major minor =>
    cases path with
    | none => exact hnone
    | some path =>
      refine (h.onFs (hb.makeNode h.firm (h.cwd_ref i) path (by decide) (by decide) (major.setWidth 16)
        (minor.setWidth 16))).imp (fun _ he => .inl he) ?_
      rintro r ⟨hk, hsb, ht | ⟨d, n, name, hres, hmade⟩⟩
      · exact called hk hsb (hsame ht)
      · exact ⟨hk, hsb, .made rfl hres hmade⟩
  | chdir path =>
    cases path with
    | none => exact hnone
    | some path =>
      refine (h.sysChdir hp path).imp (fun _ he => .inl he) ?_
      rintro r ⟨hk, ⟨n, hl⟩, hr⟩
      exact called hk hl.sb hr
  | exec path mem image =>
    cases path with
    | none => exact hnone
    | some path =>
      refine (h.kexec path mem image).imp (fun _ he => .inl he) ?_
      rintro r ⟨hk, hd⟩
      exact called hk hd.sb (hsame (tree_sameDisk hd))
  | fork mem =>
    refine (h.kfork hp mem).imp hsoft ?_
    rintro r ⟨hk, hd, -⟩
    exact called hk hd.sb (hsame (tree_sameDisk hd))
  | exit status =>
    refine Post.map ((h.kexit hp status).imp hsoft ?_)
    rintro k1 ⟨hk, hr, -, hsb⟩
    exact called hk hsb hr
  | wait addr copied =>
    refine (h.kwait addr copied).imp hsoft ?_
    rintro r ⟨hk, hfs⟩
    exact called hk (by rw [hfs]) (hsame (by rw [hfs]))
  | audit num =>
    refine Post.map ((hb.auditLogWrite (k.proc i).pid num).imp (fun _ he => .inl he) ?_)
    rintro fs' ⟨hb', ht, n, hl⟩
    exact called (Coherent.setFs h hb') hl.sb (hsame ht)

end Consistent

end Xv6Filter.Proofs
