import Xv6Filter.Proofs.ExecImage

namespace Xv6Filter.Paging
open Lib

noncomputable def MemProc.weight (w : Frame → Nat) (p : MemProc) : Nat :=
  p.trapframe.elim 0 w + p.pagetable.elim 0 (Table.weight w)

/-- All the places that hold a frame: the free list, the processes, the pipes, and what the
kernel took at boot. -/
noncomputable def System.weight (w : Frame → Nat) (s : System) : Nat :=
  s.ram.weight w + ∑ i, (s.proc i).weight w + weightOf w (s.pipes.map (·.frame)) +
    (weightOf w s.kernelPagetable + weightOf w s.kstack + weightOf w s.virtq)

noncomputable def System.holders (s : System) (f : Frame) : Nat := s.weight (at_ f)

namespace System

def put (s : System) (m : Ram) (j : Slot) (q : MemProc) : System := { s with ram := m }.setProc j q

@[simp] theorem put_ram (s : System) (m : Ram) (j : Slot) (q : MemProc) : (s.put m j q).ram = m := rfl

@[simp] theorem put_proc_self (s : System) (m : Ram) (j : Slot) (q : MemProc) : (s.put m j q).proc j = q :=
  Function.update_self ..

theorem put_proc_of_ne (s : System) (m : Ram) (q : MemProc) (h : i ≠ j) : (s.put m j q).proc i = s.proc i :=
  Function.update_of_ne h ..

@[simp] theorem put_put (s : System) (m m' : Ram) (j : Slot) (q q' : MemProc) :
    (s.put m j q).put m' j q' = s.put m' j q' := by
  simp [put, setProc]

theorem put_eq_self {s : System} (m : Ram) (h : s.proc j = q) : s.put m j q = { s with ram := m } := by
  subst h
  simp [put, setProc]

theorem weight_put (w : Frame → Nat) (s : System) (m : Ram) (j : Slot) (q : MemProc) :
    (s.put m j q).weight w + (s.ram.weight w + (s.proc j).weight w) = s.weight w + (m.weight w + q.weight w) := by
  have hsum := sum_update (fun _ (q : MemProc) => q.weight w) s.proc j q
  simp only [weight, put, setProc]
  omega

theorem proc_le (w : Frame → Nat) (s : System) (i : Slot) :
    s.ram.weight w + (s.proc i).weight w ≤ s.weight w := by
  have hterm := Finset.single_le_sum (f := fun j => (s.proc j).weight w) (fun _ _ => Nat.zero_le _)
    (Finset.mem_univ i)
  simp only [weight]
  omega

end System

theorem MemProc.weight_unused (w : Frame → Nat) : MemProc.unused.weight w = 0 := rfl

theorem MemProc.weight_of_pagetable {p : MemProc} (w : Frame → Nat) (h : p.pagetable = some pt) :
    p.weight w = p.trapframe.elim 0 w + pt.weight w := by
  simp only [MemProc.weight, h, Option.elim_some]

structure Tidy (s : System) : Prop where
  inside : s.weight (stray s.ram.first) = 0
  single : ∀ f, s.weight (at_ f) ≤ 1

namespace Tidy

theorem sound (h : Tidy s) (i : Slot) (hpt : (s.proc i).pagetable = some pt) : Sound s.ram pt := by
  have hle (w) : held w s.ram pt ≤ s.weight w := by
    have hproc := s.proc_le w i
    rw [MemProc.weight_of_pagetable w hpt] at hproc
    simp only [held]
    omega
  constructor
  · have hheld := hle (stray s.ram.first)
    have hin := h.inside
    omega
  · intro f
    exact Nat.le_trans (hle (at_ f)) (h.single f)

theorem clean (h : Tidy s) : Clean s.ram := by
  have hle (w) : s.ram.weight w ≤ s.weight w := by
    simp only [System.weight]
    omega
  constructor
  · have hram := hle (stray s.ram.first)
    have hin := h.inside
    omega
  · intro f
    exact Nat.le_trans (hle (at_ f)) (h.single f)

theorem trapframe_inside (h : Tidy s) (i : Slot) (htf : (s.proc i).trapframe = some tf) :
    stray s.ram.first tf = 0 := by
  have hproc := s.proc_le (stray s.ram.first) i
  have hin := h.inside
  simp only [MemProc.weight, htf, Option.elim_some] at hproc
  omega

/-- Frames that move between the free list and one slot keep the system tidy. -/
theorem put (h : Tidy s) (hfirst : m.first = s.ram.first)
    (hw : ∀ w, m.weight w + q.weight w = s.ram.weight w + (s.proc j).weight w) : Tidy (s.put m j q) := by
  have hsame (w) : (s.put m j q).weight w = s.weight w := by
    have hput := s.weight_put w m j q
    have hmoved := hw w
    omega
  constructor
  · rw [System.put_ram, hfirst, hsame]
    exact h.inside
  · intro f
    rw [hsame]
    exact h.single f

end Tidy

theorem freeproc_runs {s : System} (h : Tidy s) (j : Slot)
    (hpt : ∀ pt, (s.proc j).pagetable = some pt →
      (s.proc j).sz ≤ trapframeVa ∧ ∃ tr tf, Shaped pt (pages (s.proc j).sz) tr tf) :
    Runs (s.freeproc j) fun t => ∃ m, t = s.put m j .unused ∧ Gave s.ram m ∧
      ∀ w, m.weight w = s.ram.weight w + (s.proc j).weight w := by
  unfold System.freeproc
  dsimp only
  refine Runs.bind (P := fun m => Gave s.ram m ∧
    ∀ w, m.weight w = s.ram.weight w + (s.proc j).trapframe.elim 0 w) ?_ ?_
  · cases htf : (s.proc j).trapframe with
    | none => exact ⟨Gave.refl _, fun _ => rfl⟩
    | some tf =>
      refine (Ram.kfree_runs (h.trapframe_inside j htf)).imp ?_
      rintro m ⟨hgave, hw, -⟩
      exact ⟨hgave, fun w => (hw w).trans (Nat.add_comm ..)⟩
  rintro m1 ⟨hgave1, hw1⟩
  refine Runs.bind (P := fun m => Gave m1 m ∧
    ∀ w, m.weight w = m1.weight w + (s.proc j).pagetable.elim 0 (Table.weight w)) ?_ ?_
  · cases hp : (s.proc j).pagetable with
    | none => exact ⟨Gave.refl _, fun _ => rfl⟩
    | some pt =>
      obtain ⟨hsz, tr, tf, hshape⟩ := hpt pt hp
      have htidy : Tidy (s.put m1 j { s.proc j with trapframe := none }) := by
        apply h.put hgave1.first
        intro w
        have hfreed := hw1 w
        simp only [MemProc.weight, Option.elim_none]
        omega
      have hsound : Sound m1 pt := htidy.sound j (by rw [System.put_proc_self]; exact hp)
      exact procFreepagetable_runs hsound hsz hshape
  rintro m2 ⟨hgave2, hw2⟩
  refine ⟨m2, rfl, hgave1.trans hgave2, ?_⟩
  intro w
  rw [hw2 w, hw1 w, MemProc.weight]
  omega

structure Refilled (m m' : Ram) : Prop where
  first : m'.first = m.first
  trampoline : m'.trampoline = m.trampoline
  weight : ∀ w, m'.weight w = m.weight w
  data : ∀ f, f ∉ m.free → m'.data f = m.data f

theorem Refilled.refl (m : Ram) : Refilled m m := ⟨rfl, rfl, fun _ => rfl, fun _ _ => rfl⟩

theorem Gave.refilled (h : Gave m1 m2) (hfirst : m1.first = m.first) (htramp : m1.trampoline = m.trampoline)
    (hdata : ∀ f, f ∉ m.free → m1.data f = m.data f) (hw : ∀ w, m2.weight w = m.weight w) : Refilled m m2 := by
  refine ⟨h.first.trans hfirst, h.trampoline.trans htramp, hw, ?_⟩
  intro f hf
  rw [h.data f (Ram.not_mem_of_weight hw hf), hdata f hf]

structure SlotMade (s : System) (j : Slot) (m : Ram) (pt : Table) (tf : Frame) : Prop where
  unused : s.proc j = .unused
  took : Took s.ram m
  shape : Shaped pt 0 s.ram.trampoline tf
  weight : ∀ w, m.weight w + (w tf + pt.weight w) = s.ram.weight w

def MemProc.fresh (tf : Frame) (pt : Option Table) : MemProc :=
  { MemProc.unused with state := .used, trapframe := some tf, pagetable := pt }

theorem MemProc.weight_fresh (w : Frame → Nat) (tf : Frame) (pt : Table) :
    (MemProc.fresh tf (some pt)).weight w = w tf + pt.weight w := by
  simp only [MemProc.weight, MemProc.fresh, Option.elim_some]

theorem freeproc_refills {s : System} {m : Ram} (h : Tidy s) (hunused : s.proc j = .unused)
    (hfirst : m.first = s.ram.first) (htramp : m.trampoline = s.ram.trampoline)
    (hdata : ∀ f, f ∉ s.ram.free → m.data f = s.ram.data f)
    (hw : ∀ w, m.weight w + q.weight w = s.ram.weight w)
    (hpt : ∀ pt, q.pagetable = some pt → q.sz ≤ trapframeVa ∧ ∃ tr tf, Shaped pt (pages q.sz) tr tf) :
    Runs ((s.put m j q).freeproc j) fun t => ∃ m', t = { s with ram := m' } ∧ Refilled s.ram m' := by
  have htidy : Tidy (s.put m j q) := by
    apply h.put hfirst
    intro w
    rw [hunused, MemProc.weight_unused, Nat.add_zero]
    exact hw w
  refine (freeproc_runs htidy j (by rw [System.put_proc_self]; exact hpt)).imp ?_
  rintro t ⟨m', rfl, hgave, hw'⟩
  rw [System.put_put, System.put_eq_self m' hunused]
  refine ⟨m', rfl, hgave.refilled hfirst htramp hdata ?_⟩
  intro w
  rw [hw' w, System.put_proc_self, System.put_ram]
  exact hw w

/-- There is no slot for a process, or no memory for its trapframe and its page table. -/
def AllocFails (s : System) : Prop := (∀ j, (s.proc j).state ≠ .unused) ∨ s.ram.free.length < 4

/-- `allocproc` sets up an unused slot, or gives back what it took. -/
theorem allocproc_runs {s : System} (h : Tidy s) (hunused : ∀ j, (s.proc j).state = .unused → s.proc j = .unused) :
    Runs s.allocproc fun r =>
      match r.1 with
      | some (j, .enough) => ¬AllocFails s ∧ ∃ m pt tf, r.2 = s.put m j (.fresh tf (some pt)) ∧ SlotMade s j m pt tf
      | _ => AllocFails s ∧ ∃ m, r.2 = { s with ram := m } ∧ Refilled s.ram m := by
  unfold System.allocproc
  split
  · rename_i hfind
    exact ⟨.inl fun j => by simpa using List.find?_eq_none.mp hfind j (List.mem_finRange j), s.ram, rfl, Refilled.refl _⟩
  · rename_i j hfind
    have hstate : (s.proc j).state = .unused := by simpa using List.find?_some hfind
    have hj : s.proc j = .unused := hunused j hstate
    have hused : s.setProc j { s.proc j with state := .used } = s.put s.ram j { MemProc.unused with state := .used } := by
      rw [hj]
      rfl
    rw [hused]
    simp only [System.put_ram]
    split
    · refine (freeproc_refills h hj rfl rfl (fun _ _ => rfl) (fun _ => rfl) (by intro pt hpt; cases hpt)).bind ?_
      rintro t ⟨m, rfl, hm⟩
      have hfree := Ram.kalloc_none ‹_›
      exact ⟨.inr (by simp [hfree]), m, rfl, hm⟩
    · rename_i tf m hk
      obtain ⟨hfree, htook⟩ := Ram.kalloc_some hk
      have hput (m' : Ram) (made : Option Table) :
          ({ (({ s.put s.ram j { MemProc.unused with state := .used } with ram := m } : System).setProc j
              { (s.put s.ram j { MemProc.unused with state := .used }).proc j with trapframe := some tf })
            with ram := m' } : System).setProc j
              { (({ s.put s.ram j { MemProc.unused with state := .used } with ram := m } : System).setProc j
                { (s.put s.ram j { MemProc.unused with state := .used }).proc j with trapframe := some tf }).proc j
                  with pagetable := made } = s.put m' j (.fresh tf made) := by
        simp [System.put, System.setProc, MemProc.fresh]
      have hclean : Clean m := by
        have htidy : Tidy (s.put m j (.fresh tf none)) := by
          apply h.put htook.first
          intro w
          rw [hj, Ram.weight_of_free w hfree]
          simp only [MemProc.weight, MemProc.fresh, MemProc.unused, Option.elim_some, Option.elim_none]
          omega
        exact htidy.clean
      refine (procPagetable_runs hclean tf).bind ?_
      rintro ⟨made, m'⟩ ⟨hfirst, htramp, hmade⟩
      simp only [hput]
      cases made with
      | none =>
        obtain ⟨hw, hdata, hfew⟩ := hmade
        refine (freeproc_refills h hj (hfirst.trans htook.first) (htramp.trans htook.trampoline) ?_ ?_
          (by intro pt hpt; cases hpt)).bind ?_
        · intro f hf
          rw [hdata f fun hin => hf (htook.mem hin), htook.data f hf]
        · intro w
          rw [hw w, Ram.weight_of_free w hfree]
          simp only [MemProc.weight, MemProc.fresh, Option.elim_some, Option.elim_none]
          omega
        · rintro t ⟨m'', rfl, hm⟩
          exact ⟨.inr (by rw [hfree, List.length_cons]; omega), m'', rfl, hm⟩
      | some pt =>
        obtain ⟨htook', hheld, hshape, hpaid⟩ := hmade
        have hpast : ¬AllocFails s := by
          rintro (hno | hfew)
          · exact hno j hstate
          · rw [hfree, List.length_cons] at hfew
            omega
        refine ⟨hpast, m', pt, tf, rfl, hj, htook.trans htook', by rw [← htook.trampoline]; exact hshape, ?_⟩
        intro w
        have hall := hheld w
        rw [Ram.weight_of_free w hfree]
        simp only [held] at hall
        omega

structure ForkMade (s : System) (p : Space) (j : Slot) (m : Ram) (new : Table) (tf : Frame) : Prop where
  unused : s.proc j = .unused
  first : m.first = s.ram.first
  trampoline : m.trampoline = s.ram.trampoline
  shape : Shaped new (pages p.sz) s.ram.trampoline tf
  weight : ∀ w, m.weight w + (w tf + new.weight w) = s.ram.weight w

theorem Shaped.no_user (h : Shaped pt 0 tr tf) (hlow : vpn va < trapframeVpn) : pt.leaf va = none :=
  h.user va (Nat.lt_trans hlow (by decide)) (Nat.zero_le _) (by omega) (by omega)

/-- `kfork` makes a child with a copy of the memory, or gives back all it took. -/
theorem kfork_runs {s : System} (h : Tidy s) (hunused : ∀ j, (s.proc j).state = .unused → s.proc j = .unused)
    (i : Slot) (hf : Fit s.ram p tf) :
    Runs (s.kfork i p) fun r =>
      match r.1 with
      | some (j, .enough) => ∃ m new tf', r.2 = s.put m j ⟨.runnable, some i, 0, some tf', some new, p.sz⟩ ∧
          ForkMade s p j m new tf'
      | _ => ∃ m, r.2 = { s with ram := m } ∧ Refilled s.ram m := by
  unfold System.kfork
  refine (allocproc_runs h hunused).bind ?_
  rintro ⟨found, t⟩ hmade
  dsimp only at hmade ⊢
  split at hmade
  · rename_i j
    obtain ⟨-, m, pt, tf', rfl, hslot⟩ := hmade
    have htook := hslot.took
    have htidy : Tidy (s.put m j (.fresh tf' (some pt))) := by
      apply h.put htook.first
      intro w
      rw [hslot.unused, MemProc.weight_unused, MemProc.weight_fresh, Nat.add_zero]
      exact hslot.weight w
    have hsound : Sound m pt := htidy.sound j (by rw [System.put_proc_self]; rfl)
    have hput (m' : Ram) (new : Table) : ({ s.put m j (.fresh tf' (some pt)) with ram := m' } : System).setProc j
        { MemProc.fresh tf' (some pt) with pagetable := some new } = s.put m' j (.fresh tf' (some new)) := by
      simp [System.put, System.setProc, MemProc.fresh]
    simp only [System.put_proc_self, System.put_ram]
    refine (uvmcopy_runs hsound hf.size (fun va hva => hslot.shape.no_user hva) ?_).bind ?_
    · intro va l hva hl hin
      exact hf.sound.leaf_not_free hl hva (htook.mem hin)
    · rintro ⟨copied, m', new⟩ hcopy
      simp only [hput]
      rcases hcopy with ⟨hdone, hc⟩ | ⟨hdone, hr⟩
      · dsimp only at hdone hc
        subst hdone
        refine ⟨m', new, tf', ?_, hslot.unused, hc.took.first.trans htook.first,
          hc.took.trampoline.trans htook.trampoline, ?_, ?_⟩
        · simp [System.put, System.setProc, MemProc.fresh, MemProc.unused]
        · refine hslot.shape.congr ?_ ?_ (Nat.zero_le _)
          · intro va hva hhigh
            exact hc.leaf va hva (Nat.le_trans (pages_le hf.size) hhigh)
          · intro va hlow hge
            rw [hc.leaf va (Nat.lt_trans hlow (by decide)) hge]
            exact hslot.shape.no_user hlow
        · intro w
          have hheld := hc.held w
          have hall := hslot.weight w
          simp only [held] at hheld
          omega
      · dsimp only at hdone hr
        subst hdone
        rw [if_pos rfl]
        refine (freeproc_refills h hslot.unused (hr.first.trans htook.first) (hr.trampoline.trans htook.trampoline)
          ?_ ?_ ?_).bind ?_
        · intro f hf
          rw [hr.data f fun hin => hf (htook.mem hin), htook.data f hf]
        · intro w
          have hheld := hr.held w
          have hall := hslot.weight w
          simp only [held] at hheld
          rw [MemProc.weight_fresh]
          omega
        · intro pt' hpt'
          cases hpt'
          refine ⟨Nat.zero_le _, s.ram.trampoline, tf', hslot.shape.congr ?_ ?_ (Nat.zero_le _)⟩
          · intro va hva _
            exact hr.leaf va hva
          · intro va hlow _
            rw [hr.leaf va (Nat.lt_trans hlow (by decide))]
            exact hslot.shape.no_user hlow
        · rintro t ⟨m'', rfl, hm⟩
          exact ⟨m'', rfl, hm⟩
  · rename_i hfailed
    rcases found with _ | ⟨j, _ | _ | _ | _⟩
    · exact hmade.2
    · exact hmade.2
    · exact hmade.2
    · exact hmade.2
    · exact absurd rfl (hfailed j)

end Xv6Filter.Paging
