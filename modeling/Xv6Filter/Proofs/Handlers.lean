import Xv6Filter.Kernel.Handlers
import Xv6Filter.Proofs.Effects
import Xv6Filter.Proofs.Execs
import Mathlib.Logic.Relation

namespace Xv6Filter

def Proc.toPrivate (p : Proc) : Private := ⟨p.sz, p.pagetable, p.trapframe, p.ofile, p.cwd, p.name⟩

namespace Proofs
open Lib

/-- One change by a handler of slot `i`: to its own private fields and to the tables of files, or a
wakeup. -/
inductive Touch (i : Slot) (k : Kernel) : Kernel → Prop where
  | work (v : Private) (fs : Fs) (file : Fp → File) (pipe : Nat → Option Pipe) :
      Touch i k (({ k with fs := fs, file := file, pipe := pipe }).setProc i ((k.proc i).withPrivate v))
  | wakeup (chan : Chan) : Touch i k (k.wakeup i chan)

abbrev Handled (i : Slot) : Kernel → Kernel → Prop := Relation.ReflTransGen (Touch i)

theorem Touch.guard_eq (h : Touch i k k') (j : Slot) : guard (k'.proc j) = guard (k.proc j) := by
  cases h with
  | work v fs file pipe =>
    rw [guard_setProc]
    split
    · rename_i hj
      rw [hj]
      rfl
    · rfl
  | wakeup chan => exact guard_wakeup k i j chan

/-- A handler keeps the filter, the pid and the killed flag of every process. -/
theorem Handled.guard_eq (h : Handled i k k') (j : Slot) : guard (k'.proc j) = guard (k.proc j) := by
  induction h with
  | refl => rfl
  | tail _ ht ih => exact (ht.guard_eq j).trans ih

theorem Touch.state_eq (h : Touch i k k') : (k'.proc i).state = (k.proc i).state := by
  cases h with
  | work v fs file pipe => simp [Kernel.setProc, Proc.withPrivate]
  | wakeup chan => simp [Kernel.wakeup]

theorem Touch.step {m : Machine} (hr : m.running i = true) (hpc : m.pc i = .busy s) (h : Touch i m.k k') :
    ∃ e : Event, m.step e = some (m.setK k') := by
  cases h with
  | work v fs file pipe => exact ⟨.work i v fs file pipe, by simp only [Machine.step, hpc, hr, if_true]⟩
  | wakeup chan => exact ⟨.wakeup i chan, rfl⟩

/-- A handler is a run of the machine by its process alone. -/
theorem Handled.run {m : Machine} (hr : m.running i = true) (hpc : m.pc i = .busy s) (h : Handled i m.k k') :
    ∃ es, Run Machine.step anyEvent m es (m.setK k') ∧ (m.setK k').running i = true := by
  induction h with
  | refl => exact ⟨[], .nil, hr⟩
  | tail _ ht ih =>
    obtain ⟨es, hrun, hr'⟩ := ih
    obtain ⟨e, hstep⟩ := Touch.step (m := m.setK _) hr' hpc ht
    refine ⟨es ++ [e], .snoc hrun trivial hstep, ?_⟩
    simp only [Machine.running, Machine.setK_k, ht.state_eq] at hr' ⊢
    exact hr'

abbrev Leaves (i : Slot) (k : Kernel) (x : Kern α) (of : α → Kernel) : Prop :=
  Post x (fun _ => True) fun r => Handled i k (of r)

theorem Leaves.after {x : Kern α} {f : α → Kern β} (h : ∀ a, Leaves i k (f a) of) : Leaves i k (x >>= f) of := by
  cases x with
  | error e => trivial
  | ok a => exact h a

namespace Handled

variable {k k' : Kernel} {i : Slot}

theorem own {p : Proc} (hp : (k.proc i).withPrivate p.toPrivate = p) (fs : Fs) (file : Fp → File)
    (pipe : Nat → Option Pipe) : Handled i k (({ k with fs := fs, file := file, pipe := pipe }).setProc i p) := by
  rw [← hp]
  exact .single (.work _ fs file pipe)

theorem tables (fs : Fs) (file : Fp → File) (pipe : Nat → Option Pipe) :
    Handled i k { k with fs := fs, file := file, pipe := pipe } := by
  have h := own (k := k) (i := i) (p := k.proc i) rfl fs file pipe
  rw [Kernel.setProc, Function.update_eq_self] at h
  exact h

theorem setFs (fs : Fs) : Handled i k { k with fs := fs } := tables fs k.file k.pipe

theorem setFile (f : Fp) (ff : File) : Handled i k (k.setFile f ff) := tables k.fs _ k.pipe

theorem setOfile (fd : Fin nofile) (f : Option Fp) : Handled i k (k.setOfile i fd f) := own rfl k.fs k.file k.pipe

theorem filealloc (h : k.filealloc = some (f, k')) : Handled i k k' := by
  unfold Kernel.filealloc at h
  split at h
  · cases h
  · cases h
    exact setFile _ _

theorem fdalloc (h : k.fdalloc i f = some (fd, k')) : Handled i k k' := by
  unfold Kernel.fdalloc at h
  split at h
  · cases h
  · cases h
    exact setOfile _ _

theorem pipeclose (pi : Nat) (writable : Bool) : Handled i k (k.pipeclose i pi writable) := by
  unfold Kernel.pipeclose
  split
  · exact .refl
  · dsimp only
    exact (Relation.ReflTransGen.single (.wakeup _)).trans (tables _ _ _)

theorem fileclose (f : Fp) : Leaves i k (k.fileclose i f) id := by
  unfold Kernel.fileclose
  dsimp only
  split
  · trivial
  · split
    · exact setFile _ _
    · split
      · exact setFile _ _
      · exact (setFile _ _).trans (pipeclose _ _)
      all_goals
        split
        · trivial
        · exact tables _ _ k.pipe

theorem filedup (f : Fp) : Leaves i k (k.filedup f) id := by
  unfold Kernel.filedup
  split
  · trivial
  · exact setFile _ _

theorem sysDup (fd : I32) : Leaves i k (k.sysDup i fd) Prod.snd := by
  unfold Kernel.sysDup
  split
  · exact .refl
  · rename_i f _
    split
    · exact .refl
    · rename_i new k1 hnew
      split
      · trivial
      · rename_i k2 hdup
        exact (fdalloc hnew).trans ((filedup f).of_ok hdup)

theorem sysClose (fd : I32) : Leaves i k (k.sysClose i fd) Prod.snd := by
  unfold Kernel.sysClose
  split
  · exact .refl
  · rename_i f _
    split
    · trivial
    · rename_i k1 hclose
      exact (setOfile _ _).trans ((fileclose f).of_ok hclose)

end Handled

theorem Leaves.from {x : Kern α} {of : α → Kernel} (h : Handled i k k1) (hx : Leaves i k1 x of) : Leaves i k x of :=
  Post.imp hx (fun _ => id) fun _ => h.trans

theorem Leaves.bind {x : Kern α} {f : α → Kern β} {of : α → Kernel} (hx : Leaves i k x of)
    (hf : ∀ a, Leaves i (of a) (f a) of') : Leaves i k (x >>= f) of' :=
  Post.bind hx fun a ha => Leaves.from ha (hf a)

namespace Handled

variable {k k' : Kernel} {i : Slot}

theorem pipealloc (page : Option Nat) : Leaves i k (k.pipealloc i page) Prod.snd := by
  unfold Kernel.pipealloc
  split
  · exact .refl
  · rename_i f0 k0 h0
    refine Leaves.from (filealloc h0) ?_
    split
    · exact Leaves.bind (fileclose _) fun _ => .refl
    · rename_i f1 k1 h1
      refine Leaves.from (filealloc h1) ?_
      split
      · exact Leaves.bind (fileclose _) fun _ => Leaves.bind (fileclose _) fun _ => .refl
      · exact tables _ _ _

theorem closePipe (rf wf : Fp) : Leaves i k (k.closePipe i rf wf) Prod.snd :=
  Leaves.bind (fileclose _) fun _ => Leaves.bind (fileclose _) fun _ => .refl

theorem sysPipe (page : Option Nat) (copied : Bool) : Leaves i k (k.sysPipe i page copied) Prod.snd := by
  refine Leaves.bind (pipealloc page) ?_
  rintro ⟨ends, k1⟩
  dsimp only
  split
  · exact .refl
  · split
    · exact closePipe _ _
    · rename_i fd0 k2 h2
      refine Leaves.from (fdalloc h2) ?_
      split
      · exact Leaves.from (setOfile _ _) (closePipe _ _)
      · rename_i fd1 k3 h3
        refine Leaves.from (fdalloc h3) ?_
        split
        · exact .refl
        · exact Leaves.from ((setOfile _ _).trans (setOfile _ _)) (closePipe _ _)

theorem writeChunk (f : Fp) (src : UserBuf) (n n1 : Nat) : Leaves i k (k.writeChunk f src n n1) Prod.snd :=
  Leaves.after fun _ => Leaves.after fun _ => Leaves.after fun _ => tables _ _ k.pipe

theorem filewriteLoop (f : Fp) (src : UserBuf) (rounds n0 n : Nat) :
    Leaves i k (Kernel.filewriteLoop f src rounds k n0 n) Prod.snd := by
  induction rounds generalizing k n0 with
  | zero => exact .refl
  | succ rounds ih =>
    unfold Kernel.filewriteLoop
    dsimp only
    split
    · exact .refl
    · split
      · trivial
      · rename_i r k1 hchunk
        refine Leaves.from ((writeChunk f src _ _).of_ok hchunk) ?_
        split
        · exact .refl
        · exact ih _

theorem filewrite (f : Fp) (src : UserBuf) (n other : Int) : Leaves i k (k.filewrite f src n other) Prod.snd := by
  unfold Kernel.filewrite
  split
  · exact .refl
  · split
    · trivial
    · exact .refl
    · exact .refl
    · split
      · trivial
      · rename_i n1 k1 hloop
        exact (filewriteLoop f src _ _ _).of_ok hloop

theorem fileread (f : Fp) (dst : UserBuf) (n : I32) (other : Int) : Leaves i k (k.fileread f dst n other) Prod.snd := by
  unfold Kernel.fileread
  split
  · exact .refl
  · split
    · trivial
    · exact .refl
    · exact .refl
    · exact Leaves.after fun _ => Leaves.after fun _ => Leaves.after fun _ => tables _ _ k.pipe

theorem filestat (f : Fp) (copied : Bool) : Leaves i k (k.filestat f copied) Prod.snd := by
  unfold Kernel.filestat
  split
  · exact .refl
  · exact .refl
  all_goals exact Leaves.after fun _ => Leaves.after fun _ => setFs _

theorem onFile (op : Kernel → Fp → Kern (Int × Kernel)) (hop : ∀ f, Leaves i k (op k f) Prod.snd) (fd : I32) :
    Leaves i k (k.onFile i fd op) Prod.snd := by
  unfold Kernel.onFile
  split
  · exact .refl
  · rename_i f _
    split
    · trivial
    · rename_i r k1 hrun
      exact (hop f).of_ok hrun

theorem openInstall (ip : Ip) (omode : I32) : Leaves i k (k.openInstall i ip omode) Prod.snd := by
  unfold Kernel.openInstall
  dsimp only
  split
  · exact Leaves.after fun _ => setFs _
  · split
    · exact Leaves.after fun _ => setFs _
    · rename_i f k1 h1
      refine Leaves.from (filealloc h1) ?_
      split
      · exact Leaves.bind (fileclose f) fun _ => Leaves.after fun _ => setFs _
      · rename_i fd k2 h2
        refine Leaves.from (fdalloc h2) ?_
        split <;> exact Leaves.after fun _ => Leaves.after fun _ => tables _ _ k2.pipe

theorem openPath (path : List Byte) (omode : I32) : Leaves i k (k.openPath i path omode) Prod.snd := by
  unfold Kernel.openPath
  split
  · trivial
  · exact setFs _
  · rename_i ip fs _
    exact Leaves.from (setFs fs) (openInstall ip omode)

theorem onFs (x : Kern (Bool × Fs)) : Leaves i k (k.onFs x) Prod.snd := by
  unfold Kernel.onFs
  split
  · trivial
  · exact setFs _

theorem sysChdir (path : List Byte) : Leaves i k (k.sysChdir i path) Prod.snd := by
  unfold Kernel.sysChdir
  split
  · trivial
  · exact setFs _
  · exact own rfl _ k.file k.pipe

/-- `exec` of any file in any memory: the old program goes on, or the process has a new one. -/
theorem kexec (path : List Byte) (mem : ExecMem) (image : Image) : Leaves i k (k.kexec i path mem image) Prod.snd := by
  unfold Kernel.kexec
  dsimp only
  split
  · trivial
  · exact setFs _
  · split
    · exact setFs _
    · exact own rfl _ k.file k.pipe

theorem withArg {f : α → Kern (U64 × Kernel)} (hf : ∀ a, Leaves i k (f a) Prod.snd) (arg : Option α) :
    Leaves i k (k.withArg arg f) Prod.snd := by
  cases arg with
  | none => exact .refl
  | some a => exact hf a

end Handled

/-- Every handler that the machine has as `busy` changes only what the machine lets it change. -/
theorem perform_handled (k : Kernel) (i : Slot) (hc : Call.sys c = some s) : Leaves i k (k.perform i c) Prod.snd := by
  cases c with
  | opens path omode => exact Handled.withArg (fun path => Handled.openPath path omode) path
  | dup fd => exact Handled.sysDup fd
  | close fd => exact Handled.sysClose fd
  | pipe page copied => exact Handled.sysPipe page copied
  | read fd dst n other =>
    exact Handled.onFile (fun k f => k.fileread f dst n other) (fun f => Handled.fileread f dst n other) fd
  | write fd src n other =>
    exact Handled.onFile (fun k f => k.filewrite f src n.toInt other) (fun f => Handled.filewrite f src _ other) fd
  | fstat fd copied => exact Handled.onFile (fun k f => k.filestat f copied) (fun f => Handled.filestat f copied) fd
  | link paths => exact Handled.withArg (fun _ => Handled.onFs _) paths
  | unlink path => exact Handled.withArg (fun _ => Handled.onFs _) path
  | mkdir path => exact Handled.withArg (fun _ => Handled.onFs _) path
  | mknod path major minor => exact Handled.withArg (fun _ => Handled.onFs _) path
  | chdir path => exact Handled.withArg Handled.sysChdir path
  | exec path mem image => exact Handled.withArg (fun path => Handled.kexec path mem image) path
  | fork | exit | wait | audit => cases hc

/-- `exec` on the pages of memory: a failed one keeps the program, and both keep the filter. -/
theorem Handled.kexecPages (h : Kernel.kexecPages k i ram space outstanding tf path argv = .ok (r, k')) :
    Handled i k k' := by
  obtain ⟨⟨argc, x⟩, hrun, h⟩ := bind_eq_ok.mp h
  cases h
  obtain ⟨mem, image, hk⟩ := Paging.kexec_kernel hrun
  exact ((Handled.kexec path mem image).of_ok hk).trans (own rfl x.kernel.fs x.kernel.file x.kernel.pipe)

theorem Handled.sbrkPages (h : Kernel.sbrkPages k i ram space = .ok (r, k')) : Handled i k k' := by
  obtain ⟨_, -, h⟩ := bind_eq_ok.mp h
  cases h
  exact own rfl k.fs k.file k.pipe

theorem handle_run {m m' : Machine} {x : Except ε (U64 × Kernel)} (h : m.handle i s x = some m')
    (hx : ∀ r k', x = .ok (r, k') → Handled i m.k k') :
    (∃ es, Run Machine.step anyEvent m es m') ∧ ∀ j, guardAt m' j = guardAt m j := by
  unfold Machine.handle at h
  split at h
  · rename_i hready
    obtain ⟨r, hr, rfl⟩ := Option.map_eq_some_iff.mp h
    have hh : Handled i m.k r.2 := hx _ _ (toOption_eq_some hr)
    obtain ⟨es, hes, hrunning⟩ := hh.run hready.1 hready.2
    have hdone : (m.setK r.2).step (.done i r.1) = some (m.finish i r) := by
      have hpc : (m.setK r.2).pc i = .busy s := hready.2
      simp only [Machine.step, hpc, hrunning, if_true]
      rfl
    refine ⟨⟨_, .snoc hes trivial hdone⟩, fun j => ?_⟩
    rw [guardAt_finish, hh.guard_eq]
    rfl
  · cases h

/-- Every move is a run of the machine, and a handler keeps the guard of every process. -/
theorem move_run {m m' : Machine} {a : Move} (h : m.move a = some m') :
    (∃ es, Run Machine.step anyEvent m es m') ∧ ((∀ e, a ≠ .step e) → ∀ j, guardAt m' j = guardAt m j) := by
  cases a with
  | step e => exact ⟨⟨[e], .snoc .nil trivial h⟩, fun hne => absurd rfl (hne e)⟩
  | handler i c =>
    obtain ⟨s, hs, h⟩ := Option.bind_eq_some_iff.mp h
    obtain ⟨hrun, hg⟩ := handle_run h fun r k' hx => (perform_handled m.k i hs).of_ok hx
    exact ⟨hrun, fun _ => hg⟩
  | exec i ram space outstanding tf path argv =>
    obtain ⟨hrun, hg⟩ := handle_run h fun r k' hx => Handled.kexecPages hx
    exact ⟨hrun, fun _ => hg⟩
  | sbrk i ram space =>
    obtain ⟨hrun, hg⟩ := handle_run h fun r k' hx => Handled.sbrkPages hx
    exact ⟨hrun, fun _ => hg⟩

end Proofs

end Xv6Filter
