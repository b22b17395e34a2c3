import Xv6Filter.Proofs.Life

namespace Xv6Filter.Proofs
open Lib Function

@[grind =] def Alive (s : ProcState) : Prop := s ≠ .unused ∧ s ≠ .used ∧ s ≠ .zombie

@[grind =] def Phase.Forking (ph : Phase) (c : Slot) : Prop := ph = .adopt c ∨ ph = .launch c

theorem Phase.Own.not_forking {ph : Phase} (h : ph.Own) (c : Slot) : ¬ ph.Forking c := by
  rcases h with rfl | rfl | ⟨status, rfl⟩ <;> simp [Phase.Forking]

theorem Phase.Own.not_gone {ph : Phase} (h : ph.Own) : ph ≠ .gone := by
  rcases h with rfl | rfl | ⟨status, rfl⟩ <;> simp

@[grind] structure Life.Stands (x : Life) : Prop where
  zombie : x.state = .zombie → x.phase = .gone
  gone : x.phase = .gone → ¬ Alive x.state
  idle : x.state = .unused ∨ x.state = .used → x.phase = .gone ∨ x.phase = .other

namespace Life.Stands

variable {x y : Life}

theorem of_alive (ha : Alive x.state) (hp : x.phase ≠ .gone) : x.Stands := by
  obtain ⟨hu, hd, hz⟩ := ha
  refine ⟨fun h => absurd h hz, fun h => absurd h hp, ?_⟩
  rintro (h | h)
  · exact absurd h hu
  · exact absurd h hd

theorem of_eq (h : x.Stands) (hs : y.state = x.state) (hp : y.phase = x.phase) : y.Stands := by
  refine ⟨?_, ?_, ?_⟩ <;> rw [hs, hp]
  · exact h.zombie
  · exact h.gone
  · exact h.idle

/-- The state changes, but a living process stays alive and any other as it is. -/
theorem state (h : x.Stands) (hp : y.phase = x.phase)
    (hs : y.state = x.state ∨ Alive x.state ∧ Alive y.state) : y.Stands := by
  rcases hs with hs | ⟨h1, h2⟩
  · exact h.of_eq hs hp
  · refine .of_alive h2 ?_
    rw [hp]
    exact fun hg => h.gone hg h1

end Life.Stands

/-- Where the processes stand: the child of a `kfork` is in a slot of its own, in state USED. -/
structure Standing (l : Slot → Life) : Prop where
  stands : ∀ j, (l j).Stands
  child : ∀ i c, (l i).phase.Forking c → (l c).state = .used
  alone : ∀ i i' c, (l i).phase.Forking c → (l i').phase.Forking c → i = i'

namespace Standing

variable {l l' : Slot → Life} {i c : Slot}

section

variable (h : Standing l)

include h

theorem not_forking (hu : (l c).state ≠ .used) (j : Slot) : ¬ (l j).phase.Forking c :=
  fun hf => hu (h.child j c hf)

/-- A step in which nobody begins to fork, nor any child of a `kfork` is launched. -/
theorem quiet (hs : ∀ j, (l' j).Stands)
    (hf : ∀ j c, (l' j).phase.Forking c → (l j).phase.Forking c ∧ (l' c).state = .used) : Standing l' := by
  refine ⟨hs, ?_, ?_⟩
  · intro j c hj
    exact (hf j c hj).2
  · intro j j' c hj hj'
    exact h.alone j j' c (hf j c hj).1 (hf j' c hj').1

/-- Changes of state that keep the phases, the living alive and the others as they are. -/
theorem states (hp : ∀ j, (l' j).phase = (l j).phase)
    (hs : ∀ j, (l' j).state = (l j).state ∨ Alive (l j).state ∧ Alive (l' j).state) : Standing l' := by
  apply h.quiet
  · exact fun j => (h.stands j).state (hp j) (hs j)
  · intro j c hj
    rw [hp] at hj
    have hu := h.child j c hj
    refine ⟨hj, ?_⟩
    rcases hs c with hs | ⟨h1, -⟩
    · rw [hs, hu]
    · exact absurd hu h1.2.1

theorem turn (hs : Alive (l i).state) {ph : Phase} (hn : ph.Own) :
    Standing (update l i { l i with phase := ph }) := by
  apply h.quiet
  · intro j
    by_cases hj : j = i
    · subst hj
      rw [update_self]
      exact .of_alive hs hn.not_gone
    · rw [update_of_ne hj]
      exact h.stands j
  · intro j c hj
    have hne : j ≠ i := by
      rintro rfl
      rw [update_self] at hj
      exact hn.not_forking c hj
    rw [update_of_ne hne] at hj
    refine ⟨hj, ?_⟩
    have hu := h.child j c hj
    by_cases hc : c = i
    · subst hc
      exact absurd hu hs.2.1
    · rw [update_of_ne hc]
      exact hu

section

variable (hs : (l i).state = .running)

include hs

theorem born (hu : (l c).state = .unused) (pid : I32) :
    Standing (update (update l c { l c with state := .used, pid := pid }) i
      { l i with phase := .adopt c }) := by
  have hic : i ≠ c := by
    rintro rfl
    rw [hs] at hu
    cases hu
  have hfree := h.not_forking (c := c) (by simp [hu])
  have hidle := (h.stands c).idle (.inl hu)
  refine ⟨?_, ?_, ?_⟩
  · grind [h.stands]
  · grind [h.child]
  · grind [h.alone]

theorem adopt (hp : (l i).phase = .adopt c) : Standing (update (update l c { l c with parent := some i }) i
      { (update l c { l c with parent := some i } i) with phase := .launch c }) := by
  have hf : (l i).phase.Forking c := .inl hp
  have hu := h.child i c hf
  have hown : ∀ j, (l j).phase.Forking c → j = i := fun j hj => h.alone j i c hj hf
  have hic : i ≠ c := by
    rintro rfl
    rw [hs] at hu
    cases hu
  have hidle := (h.stands c).idle (.inr hu)
  refine ⟨?_, ?_, ?_⟩
  · grind [h.stands]
  · grind [h.child]
  · grind [h.alone]

theorem launch (hp : (l i).phase = .launch c) : Standing (update (update l i { l i with phase := .other }) c
      { l c with state := .runnable, phase := .other }) := by
  have hf : (l i).phase.Forking c := .inr hp
  have hu := h.child i c hf
  have hown : ∀ j, (l j).phase.Forking c → j = i := fun j hj => h.alone j i c hj hf
  have hic : i ≠ c := by
    rintro rfl
    rw [hs] at hu
    cases hu
  apply h.quiet
  · grind [h.stands]
  · grind [h.child]

theorem exited (hp : ∀ j ≠ i, (l' j).phase = (l j).phase)
    (hst : ∀ j ≠ i, (l' j).state = (l j).state ∨ Alive (l j).state ∧ Alive (l' j).state)
    (hpi : (l' i).phase = .gone) (hsi : (l' i).state = .zombie) : Standing l' := by
  apply h.quiet
  · intro j
    by_cases hj : j = i
    · subst hj
      grind
    · exact (h.stands j).state (hp j hj) (hst j hj)
  · grind [h.child]

end

theorem cleared (hd : ¬ Alive (l c).state) (hf : ∀ i, ¬ (l i).phase.Forking c) :
    Standing (update l c (l c).cleared) := by
  have hcs : (l c).cleared.state = .unused := rfl
  have hcp : (l c).cleared.phase = (l c).phase := rfl
  have hst := h.stands c
  apply h.quiet
  · intro j
    by_cases hj : j = c
    · subst hj
      rw [update_self]
      grind
    · rw [update_of_ne hj]
      exact h.stands j
  · grind [h.child]

theorem freed (hs : (l i).state = .running) (hz : (l c).state = .zombie) :
    Standing (update (update l c (l c).cleared) i { l i with phase := .other }) := by
  have hic : i ≠ c := by
    rintro rfl
    rw [hs] at hz
    cases hz
  have hi : update l c (l c).cleared i = l i := update_of_ne hic ..
  have hcl := h.cleared (c := c) (by simp [hz, Alive]) (h.not_forking (by simp [hz]))
  have ht := hcl.turn (i := i) (hi ▸ by simp [hs, Alive]) (.inl rfl : Phase.Own .other)
  rwa [hi] at ht

end

theorem lived {m : Machine} (h : Standing (life m)) (hl : Lived m e l') : Standing l' := by
  cases hl with
  | same => exact h
  | turn i ph hs ho hn => exact h.turn (by simp [hs, Alive]) hn
  | sched i hs =>
    apply h.states
    · grind
    · grind
  | yield i hs =>
    apply h.states
    · grind
    · grind
  | sleep i c hs =>
    apply h.states
    · grind
    · grind
  | waits i hs =>
    apply h.states
    · grind
    · grind
  | woken w hw =>
    apply h.states
    · grind
    · grind
  | born i c hs hp hu => exact h.born hs hu _
  | aborted i c hu => exact h.cleared (by simp [hu, Alive]) (h.not_forking (by simp [hu]))
  | adopt i c hs hp => exact h.adopt hs hp
  | launch i c hs hp => exact h.launch hs hp
  | exit i status hs hp hi =>
    refine h.exited hs ?_ ?_ ?_ ?_
    · intro j hj
      rw [update_of_ne hj]
      rfl
    · intro j hj
      rw [update_of_ne hj]
      simp only [Life.bereaved]
      grind
    · rw [update_self]
    · rw [update_self]
  | freed i c hs hp hz => exact h.freed hs hz

end Standing

/-- The family of processes between two locked sections: every process but init has a living
parent, and nobody sleeps in `kwait` while a child of theirs is a zombie. -/
structure Family (init : Slot) (l : Slot → Life) : Prop extends Standing l where
  init_alive : Alive (l init).state
  launched : ∀ i c, (l i).phase = .launch c → (l c).parent = some i
  parent_alive : ∀ j q, (l j).parent = some q → Alive (l q).state
  has_parent : ∀ j, j ≠ init → Alive (l j).state ∨ (l j).state = .zombie → (l j).parent ≠ none
  waits : ∀ i, (l i).state = .sleeping → (l i).phase = .wait →
    (l i).chan = some (.proc i) ∧ ∀ j, (l j).parent = some i → (l j).state ≠ .zombie

namespace Family

variable {init : Slot} {l l' : Slot → Life} {i c : Slot}

section

variable (h : Family init l)

include h

theorem childless (hq : ¬ Alive (l i).state) (j : Slot) : (l j).parent ≠ some i :=
  fun hj => hq (h.parent_alive j i hj)

/-- A step that changes no parent, begins no launch and ends no life. -/
theorem steady (hc : Standing l') (hp : ∀ j, (l' j).parent = (l j).parent)
    (hs : ∀ j, (l' j).state = (l j).state ∨ Alive (l j).state ∧ Alive (l' j).state)
    (hl : ∀ i c, (l' i).phase = .launch c → (l i).phase = .launch c)
    (hw : ∀ i, (l' i).state = .sleeping → (l' i).phase = .wait →
      (l' i).chan = some (.proc i) ∧ ∀ j, (l j).parent = some i → (l j).state ≠ .zombie) :
    Family init l' := by
  refine ⟨hc, ?_, ?_, ?_, ?_, ?_⟩
  · grind [h.init_alive]
  · intro i c hi
    rw [hp]
    exact h.launched i c (hl i c hi)
  · intro j q hj
    rw [hp] at hj
    have ha := h.parent_alive j q hj
    rcases hs q with hs | ⟨-, h2⟩
    · rw [hs]
      exact ha
    · exact h2
  · intro j hj hs'
    rw [hp]
    refine h.has_parent j hj ?_
    rcases hs j with hs | ⟨h1, -⟩
    · rwa [hs] at hs'
    · exact .inl h1
  · intro i hi hph
    obtain ⟨hch, hz⟩ := hw i hi hph
    refine ⟨hch, ?_⟩
    intro j hj hjz
    rw [hp] at hj
    rcases hs j with hs | ⟨-, h2⟩
    · exact hz j hj (hs ▸ hjz)
    · exact h2.2.2 hjz

theorem born (hs : (l i).state = .running) (hu : (l c).state = .unused) (pid : I32) :
    Family init (update (update l c { l c with state := .used, pid := pid }) i
      { l i with phase := .adopt c }) := by
  have hno := h.childless (i := c) (by simp [hu, Alive])
  have hic : i ≠ c := by
    rintro rfl
    rw [hs] at hu
    cases hu
  refine ⟨h.toStanding.born hs hu pid, ?_, ?_, ?_, ?_, ?_⟩
  · grind [h.init_alive]
  · intro j d hj
    have hd := h.child j d
    grind [h.launched]
  · grind [h.parent_alive]
  · grind [h.has_parent]
  · grind [h.waits]

theorem cleared (hd : ¬ Alive (l c).state) (hu : (l c).state ≠ .used) :
    Family init (update l c (l c).cleared) := by
  have hno := h.childless hd
  have hf := h.not_forking hu
  have hcs : (l c).cleared.state = .unused := rfl
  have hcq : (l c).cleared.parent = none := rfl
  have hcp : (l c).cleared.phase = (l c).phase := rfl
  refine ⟨h.toStanding.cleared hd hf, ?_, ?_, ?_, ?_, ?_⟩
  · grind [h.init_alive]
  · intro j d hj
    have hd := hf j
    grind [h.launched]
  · grind [h.parent_alive]
  · grind [h.has_parent]
  · grind [h.waits]

theorem adopt (hs : (l i).state = .running) (hp : (l i).phase = .adopt c) :
    Family init (update (update l c { l c with parent := some i }) i
      { (update l c { l c with parent := some i } i) with phase := .launch c }) := by
  have hu := h.child i c (.inl hp)
  have hic : i ≠ c := by
    rintro rfl
    rw [hs] at hu
    cases hu
  have hown : ∀ j, (l j).phase.Forking c → j = i := fun j hj => h.alone j i c hj (.inl hp)
  refine ⟨h.toStanding.adopt hs hp, ?_, ?_, ?_, ?_, ?_⟩
  · grind [h.init_alive]
  · grind [h.launched]
  · grind [h.parent_alive]
  · grind [h.has_parent]
  · grind [h.waits]

theorem launch (hs : (l i).state = .running) (hp : (l i).phase = .launch c) :
    Family init (update (update l i { l i with phase := .other }) c
      { l c with state := .runnable, phase := .other }) := by
  have hpar := h.launched i c hp
  have hu := h.child i c (.inr hp)
  have hic : i ≠ c := by
    rintro rfl
    rw [hs] at hu
    cases hu
  refine ⟨h.toStanding.launch hs hp, ?_, ?_, ?_, ?_, ?_⟩
  · grind [h.init_alive]
  · grind [h.launched]
  · grind [h.parent_alive]
  · grind [h.has_parent]
  · grind [h.waits]

theorem turn (hs : Alive (l i).state) (hns : (l i).state ≠ .sleeping) {ph : Phase}
    (hn : ph.Own) : Family init (update l i { l i with phase := ph }) := by
  have hnl : ∀ c, ph ≠ .launch c := fun c hc => hn.not_forking c (.inr hc)
  apply h.steady (h.toStanding.turn hs hn)
  · grind
  · grind
  · grind
  · grind [h.waits]

theorem freed (hs : (l i).state = .running) (hz : (l c).state = .zombie) :
    Family init (update (update l c (l c).cleared) i { l i with phase := .other }) := by
  have hic : i ≠ c := by
    rintro rfl
    rw [hs] at hz
    cases hz
  have hcl := h.cleared (c := c) (by simp [hz, Alive]) (by simp [hz])
  have hi : update l c (l c).cleared i = l i := update_of_ne hic ..
  have ht := hcl.turn (i := i) (hi ▸ by simp [hs, Alive]) (hi ▸ by simp [hs]) (.inl rfl : Phase.Own .other)
  rwa [hi] at ht

end

section Exit

variable {q : Option Slot} {kids : Bool} {status : I32}

/-- `kexit` leaves every process with a parent that lives. -/
theorem exited (h : Family init l) (hs : (l i).state = .running) (hi : i ≠ init)
    (hq : q = if (l i).parent = some i then some init else (l i).parent)
    (hk : ∀ j, (l j).parent = some i → kids = true)
    (hc : Standing l') (hlo : ∀ j ≠ i, l' j = (l j).bereaved i init q kids)
    (hli : l' i = { l i with state := .zombie, xstate := status, phase := .gone, parent := q }) :
    Family init l' := by
  have hst : ∀ j ≠ i, Alive (l j).state → Alive (l' j).state := by
    intro j hj
    rw [hlo j hj]
    simp only [Life.bereaved]
    grind
  have hpar : ∀ j, (l' j).parent = if (l j).parent = some i then some init else (l j).parent := by
    intro j
    by_cases hj : j = i
    · subst hj
      rw [hli]
      exact hq
    · rw [hlo j hj]
      rfl
  have hinit := hst init hi.symm h.init_alive
  refine ⟨hc, hinit, ?_, ?_, ?_, ?_⟩
  · intro j c hj
    have hji : j ≠ i := by
      rintro rfl
      rw [hli] at hj
      cases hj
    rw [hlo j hji] at hj
    have hcj := h.launched j c hj
    rw [hpar, hcj, if_neg (fun he => hji (Option.some.inj he))]
  · intro j p hj
    rw [hpar] at hj
    split at hj
    · cases hj
      exact hinit
    · rename_i hne
      refine hst p ?_ (h.parent_alive j p hj)
      rintro rfl
      exact hne hj
  · intro j hj hs'
    rw [hpar]
    split
    · simp
    · refine h.has_parent j hj ?_
      by_cases hji : j = i
      · subst hji
        rw [hs]
        exact .inl (by simp [Alive])
      · rw [hlo j hji] at hs'
        simp only [Life.bereaved] at hs'
        grind
  · intro a ha hph
    have hai : a ≠ i := by
      rintro rfl
      rw [hli] at ha
      cases ha
    rw [hlo a hai] at ha hph ⊢
    simp only [Life.bereaved] at ha hph ⊢
    have hasleep : (l a).state = .sleeping ∧
        ¬ (kids = true ∧ (l a).chan = some (.proc init) ∨ ∃ p, q = some p ∧ (l a).chan = some (.proc p)) := by
      grind
    obtain ⟨hchan, hz⟩ := h.waits a hasleep.1 hph
    refine ⟨hchan, ?_⟩
    intro j hj hjz
    rw [hpar] at hj
    have hnot := hasleep.2
    rw [hchan] at hnot
    by_cases hji : j = i
    · subst hji
      exact hnot (.inr ⟨a, hq ▸ hj, rfl⟩)
    · split at hj
      · rename_i hkid
        cases hj
        exact hnot (.inl ⟨hk j hkid, rfl⟩)
      · refine hz j hj ?_
        rw [hlo j hji] at hjz
        simp only [Life.bereaved] at hjz
        grind

end Exit

/-- Every step does. -/
theorem lived {m : Machine} (h : Family m.k.initproc (life m)) (hl : Lived m e l') :
    Family m.k.initproc l' := by
  have hc := h.toStanding.lived hl
  cases hl with
  | same => exact h
  | turn i ph hs ho hn => exact h.turn (by simp [hs, Alive]) (by simp [hs]) hn
  | sched i hs =>
    apply h.steady hc
    · grind
    · grind
    · grind
    · grind [h.waits]
  | yield i hs =>
    apply h.steady hc
    · grind
    · grind
    · grind
    · grind [h.waits]
  | sleep i c hs ho hp =>
    apply h.steady hc
    · grind
    · grind
    · grind
    · grind [h.waits]
  | waits i hs hp hz =>
    apply h.steady hc
    · grind
    · grind
    · grind
    · grind [h.waits]
  | woken w hw =>
    apply h.steady hc
    · grind
    · grind
    · grind
    · grind [h.waits]
  | born i c hs hp hu => exact h.born hs hu _
  | aborted i c hu => exact h.cleared (by simp [hu, Alive]) (by simp [hu])
  | adopt i c hs hp => exact h.adopt hs hp
  | launch i c hs hp => exact h.launch hs hp
  | exit i status hs hp hi =>
    apply h.exited hs hi rfl _ hc (fun j hj => update_of_ne hj ..) (update_self ..)
    intro j hj
    rw [List.any_eq_true]
    exact ⟨j, List.mem_finRange j, by simpa using hj⟩
  | freed i c hs hp hz => exact h.freed hs hz

end Family
end Xv6Filter.Proofs
