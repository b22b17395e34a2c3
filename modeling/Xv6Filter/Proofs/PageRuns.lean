import Xv6Filter.Proofs.PageOwnership

namespace Xv6Filter.Paging
open Lib

theorem at_sum (f : Frame) (l : List Frame) : (l.map (at_ f)).sum = l.count f := by
  induction l with
  | nil => rfl
  | cons g l ih =>
    rw [List.map_cons, List.sum_cons, ih, List.count_cons]
    simp only [at_, beq_iff_eq]
    omega

theorem mem_kinit (image : Nat) (tr : Frame) (f : Nat) :
    f ∈ (Ram.kinit image tr).free ↔ kernbase / pgsize + image ≤ f ∧ f < physstop := by
  simp only [Ram.kinit, List.mem_reverse, List.mem_range'_1, physstop]
  generalize physFrames = frames
  constructor
  · rintro ⟨hlow, hhigh⟩
    exact ⟨hlow, by omega⟩
  · rintro ⟨hlow, hhigh⟩
    exact ⟨hlow, by omega⟩

/-- `kinit` puts each frame of the range on the free list once, and no other. -/
theorem kinit_weight (image : Nat) (tr f : Frame) :
    (Ram.kinit image tr).weight (at_ f) = if kernbase / pgsize + image ≤ f ∧ f < physstop then 1 else 0 := by
  have hnodup : (Ram.kinit image tr).free.Nodup := List.nodup_reverse.mpr List.nodup_range'
  rw [Ram.weight, at_sum, hnodup.count]
  simp only [mem_kinit]

theorem kinit_stray (image : Nat) (tr : Frame) :
    (Ram.kinit image tr).weight (stray (kernbase / pgsize + image)) = 0 := by
  apply List.sum_eq_zero
  intro x hx
  obtain ⟨f, hf, rfl⟩ := List.mem_map.mp hx
  rw [stray, if_pos ((mem_kinit image tr f).mp hf)]

theorem kinit_few (image : Nat) (tr : Frame) : (Ram.kinit image tr).weight (fun _ => 1) ≤ physFrames := by
  simp [Ram.weight, Ram.kinit]

def MemProc.Alive (tr : Frame) (p : MemProc) : Prop :=
  ∃ pt tf, p.pagetable = some pt ∧ p.trapframe = some tf ∧ Shaped pt (pages p.sz) tr tf ∧ p.sz ≤ trapframeVa

/-- The frames that `kinit` freed are all in the system, and each slot is unused or a process. -/
structure Owned (image : Nat) (tr : Frame) (s : System) : Prop where
  first : s.ram.first = kernbase / pgsize + image
  trampoline : s.ram.trampoline = tr
  weight : ∀ w, s.weight w = (Ram.kinit image tr).weight w
  proc : ∀ i, s.proc i = .unused ∨ (s.proc i).state ≠ .unused ∧ (s.proc i).Alive tr

namespace Owned

section

variable (h : Owned image tr s)

include h

theorem tidy : Tidy s := by
  constructor
  · rw [h.first, h.weight]
    exact kinit_stray image tr
  · intro f
    rw [h.weight, kinit_weight]
    split <;> omega

theorem unused (j : Slot) (hj : (s.proc j).state = .unused) : s.proc j = .unused := by
  rcases h.proc j with hun | ⟨hne, -⟩
  · exact hun
  · exact absurd hj hne

theorem alive (hi : (s.proc i).state ≠ .unused) : (s.proc i).Alive tr := by
  rcases h.proc i with hun | ⟨-, halive⟩
  · exact absurd (congrArg MemProc.state hun) hi
  · exact halive

/-- Frames that move between the free list and one process keep the ledger. -/
theorem put (hfirst : m.first = s.ram.first) (htramp : m.trampoline = s.ram.trampoline)
    (hw : ∀ w, m.weight w + q.weight w = s.ram.weight w + (s.proc j).weight w)
    (hq : q = .unused ∨ q.state ≠ .unused ∧ q.Alive tr) : Owned image tr (s.put m j q) := by
  refine ⟨hfirst.trans h.first, htramp.trans h.trampoline, ?_, ?_⟩
  · intro w
    have hput := s.weight_put w m j q
    have hmoved := hw w
    have hall := h.weight w
    omega
  · intro i
    by_cases hi : i = j
    · subst hi
      rw [System.put_proc_self]
      exact hq
    · rw [System.put_proc_of_ne s m q hi]
      exact h.proc i

theorem fit (hp : s.space i = some p) : ∃ tf, (s.proc i).state = .runnable ∧ (s.proc i).trapframe = some tf ∧
      s.proc i = { s.proc i with pagetable := some p.pagetable, sz := p.sz } ∧ Fit s.ram p tf := by
  simp only [System.space] at hp
  split at hp
  · rename_i hrun
    obtain ⟨pt, hpt, rfl⟩ := Option.map_eq_some_iff.mp hp
    obtain ⟨pt', tf, hpt', htf, hshape, hsz⟩ := h.alive (by rw [hrun]; decide)
    cases hpt.symm.trans hpt'
    refine ⟨tf, hrun, htf, ?_, ⟨h.tidy.sound i hpt, ?_, hsz⟩⟩
    · rw [← hpt]
    · rw [h.trampoline]
      exact hshape
  · cases hp

/-- The memory of a process was changed as a system call changes it. -/
theorem setSpace (hp : s.space i = some p) (htf : (s.proc i).trapframe = some tf)
    (hr : Resized s.ram p tf m' p') : Owned image tr (s.setSpace i m' p') := by
  obtain ⟨-, hrun, -, hself, -⟩ := h.fit hp
  have hpt : (s.proc i).pagetable = some p.pagetable := by rw [hself]
  refine h.put hr.first hr.trampoline ?_ (.inr ⟨?_, p'.pagetable, tf, rfl, htf, ?_, hr.fit.size⟩)
  · intro w
    have hheld := hr.held w
    simp only [held] at hheld
    rw [MemProc.weight_of_pagetable w hpt]
    simp only [MemProc.weight, Option.elim_some]
    omega
  · dsimp only
    rw [hrun]
    decide
  · rw [← h.trampoline, ← hr.trampoline]
    exact hr.fit.shape

theorem few (hp : s.space i = some p) : held (fun _ => 1) s.ram p.pagetable ≤ physFrames := by
  obtain ⟨-, -, -, hself, -⟩ := h.fit hp
  have hpt : (s.proc i).pagetable = some p.pagetable := by rw [hself]
  have hproc := s.proc_le (fun _ => 1) i
  have hall := kinit_few image tr
  rw [MemProc.weight_of_pagetable _ hpt] at hproc
  rw [← h.weight] at hall
  simp only [held]
  omega

theorem refilled (hm : Refilled s.ram m) : Owned image tr { s with ram := m } := by
  refine ⟨hm.first.trans h.first, hm.trampoline.trans h.trampoline, ?_, h.proc⟩
  intro w
  have hall := h.weight w
  have hsame := hm.weight w
  simp only [System.weight] at *
  omega

end

end Owned

def Kept (s t : System) (l : Slot) : Prop :=
  (s.proc l).state = .runnable → (t.proc l).state = .runnable ∧ (t.proc l).sz = (s.proc l).sz

namespace Kept

theorem of_proc (h : t.proc = s.proc) (l : Slot) : Kept s t l := by
  intro hl
  rw [h]
  exact ⟨hl, rfl⟩

theorem put (s : System) (m : Ram) (q : MemProc) (h : l ≠ j) : Kept s (s.put m j q) l := by
  intro hl
  rw [System.put_proc_of_ne s m q h]
  exact ⟨hl, rfl⟩

theorem trans (h : Kept s t l) (h' : Kept t u l) : Kept s u l := by
  intro hl
  obtain ⟨ht, hsz⟩ := h hl
  obtain ⟨hu, hsz'⟩ := h' ht
  exact ⟨hu, hsz'.trans hsz⟩

theorem setSpace (hp : s.space i = some p) (m : Ram) (hsz : p'.sz = p.sz) (l : Slot) :
    Kept s (s.setSpace i m p') l := by
  intro hl
  by_cases he : l = i
  · subst he
    simp only [System.space, hl, if_true] at hp
    obtain ⟨pt, -, rfl⟩ := Option.map_eq_some_iff.mp hp
    have hproc : (s.setSpace l m p').proc l = { s.proc l with pagetable := some p'.pagetable, sz := p'.sz } :=
      System.put_proc_self ..
    rw [hproc]
    exact ⟨hl, hsz⟩
  · exact put s m _ he hl

end Kept

/-- The system after an event: every frame in its place, and the processes that were not `moved`
as they were. -/
structure Stepped (image : Nat) (tr : Frame) (s : System) (moved : Slot → Prop) (t : System) : Prop where
  owned : Owned image tr t
  kept : ∀ l, ¬moved l → Kept s t l

abbrev Calm (image : Nat) (tr : Frame) (s t : System) : Prop := Stepped image tr s (fun _ => False) t

theorem Owned.calm (h : Owned image tr t) (hproc : t.proc = s.proc) : Calm image tr s t :=
  ⟨h, fun l _ => Kept.of_proc hproc l⟩

section

variable (h : Owned image tr s)

include h

theorem Owned.fork (hp : s.space i = some p) : Runs (s.kfork i p) fun r => Calm image tr s r.2 := by
  obtain ⟨tf, -, -, -, hf⟩ := h.fit hp
  refine (kfork_runs h.tidy h.unused i hf).imp ?_
  rintro ⟨found, t⟩ hfork
  dsimp only at hfork ⊢
  split at hfork
  · rename_i j
    obtain ⟨m, new, tf', rfl, hmade⟩ := hfork
    constructor
    · refine h.put hmade.first hmade.trampoline ?_ (.inr ⟨by simp, new, tf', rfl, rfl, ?_, hf.size⟩)
      · intro w
        rw [hmade.unused, MemProc.weight_unused, Nat.add_zero, ← hmade.weight w]
        simp only [MemProc.weight, Option.elim_some]
      · rw [← h.trampoline]
        exact hmade.shape
    · intro l _ hl
      have hne : l ≠ j := by
        rintro rfl
        rw [hmade.unused] at hl
        cases hl
      exact Kept.put s m _ hne hl
  · obtain ⟨m, rfl, hm⟩ := hfork
    exact (h.refilled hm).calm rfl

theorem Owned.freeproc (j : Slot) : Runs (s.freeproc j) fun t => Stepped image tr s (· = j) t := by
  refine (freeproc_runs h.tidy j ?_).imp ?_
  · intro pt hpt
    have hne : (s.proc j).state ≠ .unused := by
      intro hun
      rw [h.unused j hun] at hpt
      cases hpt
    obtain ⟨pt', tf, hpt', -, hshape, hsz⟩ := h.alive hne
    cases hpt.symm.trans hpt'
    exact ⟨hsz, tr, tf, hshape⟩
  · rintro t ⟨m, rfl, hgave, hw⟩
    constructor
    · refine h.put hgave.first hgave.trampoline ?_ (.inl rfl)
      intro w
      rw [hw w, MemProc.weight_unused, Nat.add_zero]
    · intro l hl
      exact Kept.put s m _ hl

theorem Owned.stable (hp : s.space i = some p) (htf : (s.proc i).trapframe = some tf)
    (hf : Fit s.ram p tf) (hs : Stable s.ram p m' p') : Calm image tr s (s.setSpace i m' p') :=
  ⟨h.setSpace hp htf (hs.resized hf), fun l _ => Kept.setSpace hp m' hs.sz l⟩

theorem Owned.wait (hp : s.space i = some p) (addr : Nat) :
    Runs (s.kwait i p addr) fun r => Calm image tr s r.2 := by
  obtain ⟨tf, -, htf, -, hf⟩ := h.fit hp
  unfold System.kwait
  split
  · exact h.calm rfl
  · rename_i j hfind
    have hzombie : (s.proc j).state = .zombie := by
      have hj := List.find?_some hfind
      simp only [decide_eq_true_eq] at hj
      exact hj.2
    have hcopy : Runs (if addr = 0 then .ok (true, s.ram, p)
        else s.ram.copyout p none addr (System.int32 (s.proc j).xstate)) fun r => Stable s.ram p r.2.1 r.2.2 := by
      split
      · exact Stable.refl _ _
      · exact (copyout_runs hf.guarded addr _).imp fun _ hr => hr.copying.stable
    refine hcopy.bind ?_
    rintro ⟨copied, m', p'⟩ hstable
    have hset := h.stable hp htf hf hstable
    cases copied with
    | true =>
      refine (hset.owned.freeproc j).bind ?_
      intro t ht
      refine ⟨ht.owned, ?_⟩
      intro l _ hl
      have hne : l ≠ j := by
        rintro rfl
        rw [hzombie] at hl
        cases hl
      exact (hset.kept l id).trans (ht.kept l hne) hl
    | false => exact hset

theorem Owned.reparent (i : Slot) : Calm image tr s (s.reparent i) := by
  refine ⟨⟨h.first, h.trampoline, ?_, ?_⟩, ?_⟩
  · intro w
    rw [← h.weight w]
    have hsame (j) : ((s.reparent i).proc j).weight w = (s.proc j).weight w := by
      simp only [System.reparent]
      split <;> rfl
    simp only [System.weight, hsame]
    rfl
  · intro j
    simp only [System.reparent]
    split
    · rename_i hparent
      refine .inr ?_
      rcases h.proc j with hun | halive
      · rw [hun] at hparent
        cases hparent
      · exact halive
    · exact h.proc j
  · intro l _ hl
    simp only [System.reparent]
    split <;> exact ⟨hl, rfl⟩

theorem Owned.exit (hp : s.space i = some p) (status : I32) :
    Post (s.kexit i status) (· = .initExiting) (Stepped image tr s (· = i)) := by
  obtain ⟨-, hrun, -⟩ := h.fit hp
  unfold System.kexit
  split
  · rfl
  · have hreparent := h.reparent i
    constructor
    · refine hreparent.owned.put rfl rfl (fun _ => rfl) (.inr ⟨by simp, ?_⟩)
      have hstate := (hreparent.kept i id hrun).1
      exact hreparent.owned.alive (by rw [hstate]; decide)
    · intro l hl
      exact (hreparent.kept l id).trans (Kept.put _ _ _ hl)

end

theorem weightOf_pipe {pipes : List PipePage} (h : pipes[n]? = some pi) (w : Frame → Nat) :
    weightOf w (pipes.map (·.frame)) = w pi.frame + weightOf w ((pipes.eraseIdx n).map (·.frame)) := by
  obtain ⟨hn, rfl⟩ := List.getElem?_eq_some_iff.mp h
  have hperm := ((List.getElem_cons_eraseIdx_perm hn).map fun pi => w pi.frame).sum_eq
  simp only [weightOf, List.map_map, List.map_cons, List.sum_cons] at *
  exact hperm.symm

theorem Owned.pipeclose (h : Owned image tr s) (n : Nat) (writable : Bool) :
    Runs (s.pipeclose n writable) fun t => Calm image tr s t := by
  unfold System.pipeclose
  split
  · exact h.calm rfl
  · rename_i pi hpi
    have hpart := weightOf_pipe hpi
    dsimp only
    generalize hclosed : (if writable then { pi with writeopen := false }
      else { pi with readopen := false } : PipePage) = closed
    have hframe : closed.frame = pi.frame := by
      subst hclosed
      split <;> rfl
    split
    · have hin : stray s.ram.first pi.frame = 0 := by
        have hall := h.tidy.inside
        have hpipes := hpart (stray s.ram.first)
        simp only [System.weight] at hall
        omega
      rw [hframe]
      refine (Ram.kfree_runs hin).bind ?_
      rintro m ⟨hgave, hw, -⟩
      refine Owned.calm ⟨hgave.first.trans h.first, hgave.trampoline.trans h.trampoline, ?_, h.proc⟩ rfl
      intro w
      have hall := h.weight w
      have hfreed := hw w
      have hpipes := hpart w
      simp only [System.weight] at *
      omega
    · refine Owned.calm ⟨h.first, h.trampoline, ?_, h.proc⟩ rfl
      intro w
      have hsame : (s.pipes.set n closed).map (·.frame) = s.pipes.map (·.frame) := by
        obtain ⟨hn, rfl⟩ := List.getElem?_eq_some_iff.mp hpi
        rw [List.map_set, hframe, ← List.getElem_map (fun pi : PipePage => pi.frame) (h := by simpa using hn)]
        exact List.set_getElem_self ..
      rw [← h.weight w]
      simp only [System.weight, hsame]

theorem Owned.pipealloc (h : Owned image tr s) (hk : s.ram.kalloc = some (f, m)) :
    Owned image tr { s with ram := m, pipes := ⟨f, true, true⟩ :: s.pipes } := by
  obtain ⟨hfree, htook⟩ := Ram.kalloc_some hk
  refine ⟨htook.first.trans h.first, htook.trampoline.trans h.trampoline, ?_, h.proc⟩
  intro w
  have hall := h.weight w
  have hmoved := Ram.weight_of_free w hfree
  simp only [System.weight, weightOf, List.map_cons, List.sum_cons] at *
  omega

/-- The two descriptors are copied out, or the copy fails on the way. -/
theorem pipeCopy_runs {s : System} (h : Owned image tr s) (hp : s.space i = some p) (fds : Option (I32 × I32))
    (fdarray : Nat) :
    Runs (match fds with
      | none => .ok (false, s)
      | some (fd0, fd1) => do
        let (copied, m, p) ← s.ram.copyout p none fdarray (System.int32 fd0)
        if copied = false then .ok (false, s.setSpace i m p)
        else do
          let (copied, m, p) ← m.copyout p none ((fdarray + 4) % 2 ^ 64) (System.int32 fd1)
          .ok (copied, s.setSpace i m p)) fun r => Calm image tr s r.2 := by
  obtain ⟨tf, -, htf, -, hf⟩ := h.fit hp
  cases fds with
  | none => exact h.calm rfl
  | some fds =>
    refine (copyout_runs hf.guarded fdarray _).bind ?_
    rintro ⟨copied, m1, p1⟩ ⟨hcopy, -⟩
    have hstable := hcopy.stable
    cases copied with
    | false => exact h.stable hp htf hf hstable
    | true =>
      refine (copyout_runs (hstable.fit hf).guarded _ _).bind ?_
      rintro ⟨copied, m2, p2⟩ ⟨hcopy', -⟩
      exact h.stable hp htf hf (hstable.trans hcopy'.stable)

theorem Owned.pipe (h : Owned image tr s) (hp : s.space i = some p) (files : Bool) (fds : Option (I32 × I32))
    (fdarray : Nat) : Runs (s.sysPipe i p files fds fdarray) fun r => Calm image tr s r.2 := by
  simp only [System.sysPipe, System.pipealloc]
  cases files with
  | false => exact h.calm rfl
  | true =>
    simp only [Bool.true_eq_false, if_false]
    cases hk : s.ram.kalloc with
    | none => exact h.calm rfl
    | some r =>
      obtain ⟨f, m⟩ := r
      refine (pipeCopy_runs (h.pipealloc hk) (i := i) (p := p) hp fds fdarray).bind ?_
      rintro ⟨done, t⟩ ht
      cases done with
      | true => exact ⟨ht.owned, ht.kept⟩
      | false =>
        refine (ht.owned.pipeclose 0 false).bind ?_
        intro t' ht'
        refine (ht'.owned.pipeclose 0 true).bind ?_
        intro t'' ht''
        exact ⟨ht''.owned, fun l _ => ((ht.kept l id).trans (ht'.kept l id)).trans (ht''.kept l id)⟩

theorem userStore_stable (m : Ram) (p : Space) (va : Nat) (b : Byte) :
    Stable m p (System.userStore m p va b) p := by
  unfold System.userStore
  split
  · split
    · exact Stable.write ..
    · exact Stable.refl m p
  · exact Stable.refl m p

theorem Owned.resized (h : Owned image tr s) (hp : s.space i = some p) (htf : (s.proc i).trapframe = some tf)
    (hr : Resized s.ram p tf m' p') : Stepped image tr s (· = i) (s.setSpace i m' p') :=
  ⟨h.setSpace hp htf hr, fun _ hl => Kept.put s m' _ hl⟩

theorem Owned.exec (h : Owned image tr s) (hp : s.space i = some p) (upath uargv : Nat)
    (found : List Byte → Option (List Byte)) (htf : (s.proc i).trapframe = some tf) :
    Runs (s.ram.sysExec p tf upath uargv found) fun r => Stepped image tr s (· = i) (s.setSpace i r.2.1 r.2.2) := by
  obtain ⟨tf', -, htf', -, hf⟩ := h.fit hp
  cases htf.symm.trans htf'
  exact (sysExec_runs hf (h.few hp) upath uargv found).imp fun r hr => h.resized hp htf hr

theorem Owned.forkret (h : Owned image tr s) (hp : s.space i = some p) (init : Option (List Byte))
    (htf : (s.proc i).trapframe = some tf) :
    Runs (s.ram.kexec p tf init [bytes ['/', 'i', 'n', 'i', 't']]) fun r =>
      Stepped image tr s (· = i) { s.setSpace i r.2.1 r.2.2 with first := false } := by
  obtain ⟨tf', -, htf', -, hf⟩ := h.fit hp
  cases htf.symm.trans htf'
  have hfree : s.ram.free.length ≤ physFrames := by
    have hfew := h.few hp
    have hones : s.ram.weight (fun _ => 1) = s.ram.free.length := by simp [Ram.weight]
    simp only [held] at hfew
    omega
  refine (kexec_runs hf hfree init _ (by decide) (by decide)).imp ?_
  rintro r ⟨hr, -⟩
  have hset := h.resized hp htf hr
  exact ⟨⟨hset.owned.first, hset.owned.trampoline, hset.owned.weight, hset.owned.proc⟩, hset.kept⟩

def InitFails (e : VmPanic) : Prop := e = .initExiting ∨ e = .exec

def MemEvent.moves : MemEvent → Slot → Prop
  | .exec i .., l | .exit i .., l | .sbrk i .., l => l = i
  | .forkret _, l => l = System.initproc
  | _, _ => False

theorem Owned.forSpace (h : Owned image tr s) {f : Space → Checked System}
    (hf : ∀ p, s.space i = some p → Post (f p) InitFails (Stepped image tr s moved)) :
    Post (s.forSpace i f) InitFails (Stepped image tr s moved) := by
  unfold System.forSpace
  split
  · exact ⟨h, fun l _ => Kept.of_proc rfl l⟩
  · rename_i p hp
    exact hf p hp

theorem Owned.touched (h : Owned image tr s) (hp : s.space i = some p) {x : Checked α} (out : α → Ram × Space)
    (hx : ∀ tf, Fit s.ram p tf → Runs x fun a => Stable s.ram p (out a).1 (out a).2) :
    Post (x >>= fun a => .ok (s.setSpace i (out a).1 (out a).2)) InitFails (Calm image tr s) := by
  obtain ⟨tf, -, htf, -, hf⟩ := h.fit hp
  apply Runs.post
  refine (hx tf hf).bind ?_
  intro a hs
  exact h.stable hp htf hf hs

/-- Every event keeps the frames in their places and the sizes of other processes, and panics only
over `init`. -/
theorem Owned.advance (h : Owned image tr s) (e : MemEvent) :
    Post (s.advance e) InitFails (Stepped image tr s e.moves) := by
  cases e with
  | fork i => exact h.forSpace fun p hp => (h.fork hp).post.map
  | exec i upath uargv found =>
    refine h.forSpace fun p hp => ?_
    obtain ⟨tf, -, htf, -⟩ := h.fit hp
    rw [htf]
    refine ((h.exec hp upath.toNat uargv.toNat found htf).bind ?_).post
    rintro ⟨ret, m, p⟩ hr
    exact hr
  | exit i status => exact h.forSpace fun p hp => (h.exit hp status).mono fun _ => .inl
  | wait i addr => exact h.forSpace fun p hp => (h.wait hp addr.toNat).post.map
  | sbrk i n t =>
    refine h.forSpace fun p hp => ?_
    obtain ⟨tf, -, htf, -, hf⟩ := h.fit hp
    refine ((sysSbrk_runs hf n t).bind ?_).post
    rintro ⟨ret, m, p⟩ ⟨hr, -⟩
    exact h.resized hp htf hr
  | pageFault i stval =>
    refine h.forSpace fun p hp => h.touched hp (fun r : Option Frame × Ram × Space => (r.2.1, r.2.2)) fun tf hf => ?_
    refine (vmfault_runs hf.guarded stval.toNat).imp ?_
    rintro ⟨got, m, p⟩ hr
    cases got with
    | none => exact NotFaulted.stable hr
    | some f => exact Faulted.stable hr
  | copyin i srcva len =>
    refine h.forSpace fun p hp =>
      h.touched hp (fun r : List Byte × Bool × Ram × Space => (r.2.2.1, r.2.2.2)) fun tf hf => ?_
    exact (copyin_runs hf.guarded srcva.toNat len.toNat).imp fun _ hr => hr.copying.stable
  | copyout i dstva src =>
    refine h.forSpace fun p hp => h.touched hp (fun r : Bool × Ram × Space => (r.2.1, r.2.2)) fun tf hf => ?_
    exact (copyout_runs hf.guarded dstva.toNat src).imp fun _ hr => hr.copying.stable
  | store i va b =>
    refine h.forSpace fun p hp => ?_
    obtain ⟨tf, -, htf, -, hf⟩ := h.fit hp
    exact h.stable hp htf hf (userStore_stable s.ram p va.toNat b)
  | pipe i files fds fdarray => exact h.forSpace fun p hp => (h.pipe hp files fds fdarray.toNat).post.map
  | pipeclose n writable => exact (h.pipeclose n writable).post
  | forkret init =>
    refine h.forSpace fun p hp => ?_
    split
    · exact ⟨h, fun l _ => Kept.of_proc rfl l⟩
    · obtain ⟨tf, -, htf, -⟩ := h.fit hp
      rw [htf]
      refine (h.forkret hp init htf).post.bind ?_
      rintro ⟨argc, m, p⟩ hr
      dsimp only
      split
      · exact .inr rfl
      · exact hr

theorem Owned.step (h : Owned image tr s) (hs : s.step e = some t) : Stepped image tr s e.moves t := by
  have hpost := h.advance e
  simp only [System.step] at hs
  split at hs
  · rename_i t' ht
    cases hs
    exact hpost.of_ok ht
  · cases hs

theorem kallocs_some {m m' : Ram} (h : m.kallocs n = some (fs, m')) :
    Took m m' ∧ ∀ w, m'.weight w + weightOf w fs = m.weight w := by
  induction n generalizing m fs with
  | zero =>
    cases h
    exact ⟨Took.refl _, fun w => rfl⟩
  | succ n ih =>
    simp only [Ram.kallocs, Option.bind_eq_bind, Option.bind_eq_some_iff, Prod.exists] at h
    obtain ⟨f, m1, hk, fs', m2, hks, he⟩ := h
    cases he
    obtain ⟨hfree, htook⟩ := Ram.kalloc_some hk
    obtain ⟨htook', hw⟩ := ih hks
    refine ⟨htook.trans htook', fun w => ?_⟩
    have hrest := hw w
    rw [Ram.weight_of_free w hfree]
    simp only [weightOf, List.map_cons, List.sum_cons] at *
    omega

theorem boot_owned (h : System.boot image tr nodes = some s) : Owned image tr s := by
  simp only [System.boot, Option.bind_eq_bind, Option.bind_eq_some_iff, Prod.exists] at h
  obtain ⟨table, m1, h1, kstack, m2, h2, queues, m3, h3, h⟩ := h
  obtain ⟨htook1, hw1⟩ := kallocs_some h1
  obtain ⟨htook2, hw2⟩ := kallocs_some h2
  obtain ⟨htook3, hw3⟩ := kallocs_some h3
  have htook := htook1.trans (htook2.trans htook3)
  have hbase : Owned image tr ⟨m3, fun _ => .unused, [], table, kstack, queues, true⟩ := by
    refine ⟨htook.first, htook.trampoline, ?_, fun _ => .inl rfl⟩
    intro w
    have hones := hw1 w
    have htwos := hw2 w
    have hthrees := hw3 w
    have hnone : ∑ _i : Slot, MemProc.unused.weight w = 0 := by simp [MemProc.weight_unused]
    have hpipes : weightOf w [] = 0 := rfl
    simp only [System.weight, hnone, List.map_nil, hpipes]
    omega
  have halloc := allocproc_runs hbase.tidy hbase.unused
  split at h
  · rename_i i t ht
    cases h
    rw [ht] at halloc
    obtain ⟨-, m, pt, tf, rfl, hslot⟩ := halloc
    have hput : (System.put ⟨m3, fun _ => .unused, [], table, kstack, queues, true⟩ m i
        (.fresh tf (some pt))).setProc i { MemProc.fresh tf (some pt) with state := .runnable } =
          System.put ⟨m3, fun _ => .unused, [], table, kstack, queues, true⟩ m i
            { MemProc.fresh tf (some pt) with state := .runnable } := by
      simp [System.put, System.setProc]
    rw [System.put_proc_self, hput]
    refine hbase.put hslot.took.first hslot.took.trampoline ?_
      (.inr ⟨by simp, pt, tf, rfl, rfl, ?_, Nat.zero_le _⟩)
    · intro w
      rw [MemProc.weight_unused, Nat.add_zero, ← hslot.weight w]
      simp only [MemProc.weight, MemProc.fresh, Option.elim_some]
    · have hzero : pages 0 = 0 := by decide
      change Shaped pt (pages 0) tr tf
      rw [hzero, ← hbase.trampoline]
      exact hslot.shape
  · cases h

/-- In every reachable state each frame has its owner. -/
theorem run_owned (hb : System.boot image tr nodes = some s0) (hr : Run System.step anyEvent s0 es s) :
    Owned image tr s :=
  hr.invariant (Owned image tr) (boot_owned hb) fun _ _ _ h _ hs => (h.step hs).owned

/-- Physical page ownership: from boot on, each frame of the range is in exactly one place, and no
frame is freed that `kfree` refuses. -/
theorem frame_has_one_place (hb : System.boot image tr nodes = some s0)
    (hr : Run System.step anyEvent s0 es s) :
    (∀ f, kernbase / pgsize + image ≤ f → f < physstop → s.holders f = 1) ∧
      ∀ e, s.advance e ≠ .error .kfree := by
  have howned := run_owned hb hr
  constructor
  · intro f hlow hhigh
    rw [System.holders, howned.weight, kinit_weight, if_pos ⟨hlow, hhigh⟩]
  · intro e he
    rcases (howned.advance e).of_error he with hexit | hexec
    · cases hexit
    · cases hexec

/-- A machine with 200 free frames: the first process grows, faults a page in, forks, and waits
for its child. -/
theorem frame_has_one_place_waited : ∃ s0 s, System.boot 32568 0x80000 1 = some s0 ∧ Run System.step anyEvent s0
      [.sbrk 0 5000 2, .pageFault 0 4096, .fork 0, .exit 1 0, .wait 0 0] s ∧ s.holders 557000 = 1 := by
  have hrun : ((System.boot 32568 0x80000 1).bind fun s0 => replay System.step anyEvent
      [.sbrk 0 5000 2, .pageFault 0 4096, .fork 0, .exit 1 0, .wait 0 0] s0).isSome = true := by
    decide +kernel
  obtain ⟨s, hs⟩ := Option.isSome_iff_exists.mp hrun
  obtain ⟨s0, hb, hr⟩ := Option.bind_eq_some_iff.mp hs
  exact ⟨s0, s, hb, replay_run hr, (frame_has_one_place hb (replay_run hr)).1 557000 (by decide) (by decide)⟩

/-- Nothing is mapped but pages below the size and the two kernel pages, which user code cannot use. -/
structure AddressSpace (pt : Table) (sz : Nat) : Prop where
  size : sz ≤ trapframeVa
  mapped : ∀ va l, va < maxva → pt.leaf va = some l → va < pgroundup sz ∨
    (vpn va = vpn trapframeVa ∨ vpn va = vpn trampolineVa) ∧ l.perm.u = false
  trapframe : ∃ l, pt.leaf trapframeVa = some l ∧ l.perm.u = false
  trampoline : ∃ l, pt.leaf trampolineVa = some l ∧ l.perm.u = false

theorem Shaped.addressSpace (h : Shaped pt (pages sz) tr tf) (hsz : sz ≤ trapframeVa) : AddressSpace pt sz := by
  refine ⟨hsz, ?_, ⟨_, h.trapframe, rfl⟩, ⟨_, h.trampoline, rfl⟩⟩
  intro va l hva hl
  rw [vpn_trampoline, vpn_trapframe]
  by_cases htrap : vpn va = trapframeVpn
  · rw [h.leaf_trapframe htrap] at hl
    cases hl
    exact .inr ⟨.inl htrap, rfl⟩
  by_cases htramp : vpn va = trapframeVpn + 1
  · rw [h.leaf_trampoline htramp] at hl
    cases hl
    exact .inr ⟨.inr htramp, rfl⟩
  have hv : vpn va < 2 ^ 27 := by
    simp only [vpn, maxva, pgsize] at *
    omega
  have hlow : vpn va < pages sz := by
    by_contra hge
    rw [h.user va hv (Nat.not_lt.mp hge) htrap htramp] at hl
    cases hl
  refine .inl ?_
  rw [pgroundup_eq hsz]
  generalize pages sz = n at *
  simp only [vpn, pgsize] at *
  omega

/-- Address-space shape: from boot on, every process has its user pages below its size and the two
kernel pages above them; `sbrk` changes the size by exactly what was asked, and the panics of a
page table out of shape are unreachable. -/
theorem address_space_shape (hb : System.boot image tr nodes = some s0)
    (hr : Run System.step anyEvent s0 es s) :
    (∀ i, (s.proc i).state ≠ .unused → ∃ pt, (s.proc i).pagetable = some pt ∧ AddressSpace pt (s.proc i).sz) ∧
      (∀ i p n t addr m' p', s.space i = some p → s.ram.sysSbrk p n t = .ok (some addr, m', p') →
        addr = p.sz ∧ Grew p.sz n p'.sz) ∧
      ∀ e, s.advance e ≠ .error .remap ∧ s.advance e ≠ .error .freewalkLeaf ∧
        s.advance e ≠ .error .walk ∧ s.advance e ≠ .error .uvmunmapUnaligned := by
  have howned := run_owned hb hr
  refine ⟨?_, ?_, ?_⟩
  · intro i hi
    obtain ⟨pt, tf, hpt, -, hshape, hsz⟩ := howned.alive hi
    exact ⟨pt, hpt, hshape.addressSpace hsz⟩
  · intro i p n t addr m' p' hp hs
    obtain ⟨tf, -, -, -, hf⟩ := howned.fit hp
    have hsbrk := sysSbrk_runs hf n t
    rw [hs] at hsbrk
    exact hsbrk.2
  · intro e
    have hno {x : VmPanic} (hx : ¬InitFails x) : s.advance e ≠ .error x := fun he =>
      hx ((howned.advance e).of_error he)
    exact ⟨hno (by simp [InitFails]), hno (by simp [InitFails]), hno (by simp [InitFails]), hno (by simp [InitFails])⟩

/-- After a lazy growth, a page fault and a shrink to 10 bytes, on a machine with 200 free frames. -/
theorem address_space_shape_shrunk : ∃ s0 s, System.boot 32568 0x80000 1 = some s0 ∧
    Run System.step anyEvent s0 [.sbrk 0 5000 2, .pageFault 0 4096, .sbrk 0 (-4990) 1] s ∧
      ∃ pt, (s.proc 0).pagetable = some pt ∧ AddressSpace pt (s.proc 0).sz := by
  have hrun : ((System.boot 32568 0x80000 1).bind fun s0 => replay System.step anyEvent
      [.sbrk 0 5000 2, .pageFault 0 4096, .sbrk 0 (-4990) 1] s0).any
        (fun s => decide ((s.proc 0).state ≠ .unused)) = true := by
    decide +kernel
  obtain ⟨s, hs, hused⟩ := (Option.any_eq_true ..).mp hrun
  obtain ⟨s0, hb, hr⟩ := Option.bind_eq_some_iff.mp hs
  exact ⟨s0, s, hb, replay_run hr, (address_space_shape hb (replay_run hr)).1 0 (of_decide_eq_true hused)⟩

end Xv6Filter.Paging
