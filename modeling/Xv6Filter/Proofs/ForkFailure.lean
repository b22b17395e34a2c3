import Xv6Filter.Proofs.PageRuns
import Xv6Filter.Kernel.Host
import Xv6Filter.Kernel.Machine

namespace Xv6Filter.Paging
open Lib
open Kernel (ForkMem childMask)

/-- The slot that `allocproc` found was unused; it copies no memory. -/
theorem allocproc_slot {s : System} (h : s.allocproc = .ok (some (j, mem), t)) :
    (s.proc j).state = .unused ∧ mem ≠ .noCopy := by
  unfold System.allocproc at h
  split at h
  · cases h
  · rename_i j' hfind
    have hj : (s.proc j').state = .unused := by simpa using List.find?_some hfind
    dsimp only at h
    split at h
    · obtain ⟨s', -, h⟩ := bind_eq_ok.mp h
      cases h
      exact ⟨hj, by simp⟩
    · obtain ⟨⟨made, m⟩, -, h⟩ := bind_eq_ok.mp h
      dsimp only at h
      split at h
      · obtain ⟨s', -, h⟩ := bind_eq_ok.mp h
        cases h
        exact ⟨hj, by simp⟩
      · cases h
        exact ⟨hj, by simp⟩

theorem kfork_cases {s : System} (htidy : Tidy s) (hunused : ∀ l, (s.proc l).state = .unused → s.proc l = .unused)
    (h : s.kfork i p = .ok (found, t)) :
    (found = none ∧ AllocFails s) ∨
      ∃ j mem, found = some (j, mem) ∧ (s.proc j).state = .unused ∧
        (mem = .noCopy ∨ mem = .enough ↔ ¬AllocFails s) := by
  obtain ⟨⟨alloc, s'⟩, ha, h⟩ := bind_eq_ok.mp h
  have halloc := allocproc_runs htidy hunused
  rw [ha] at halloc
  simp only [Runs] at halloc
  dsimp only at h
  split at h
  · rename_i j
    have hpast : ¬AllocFails s := halloc.1
    refine .inr ⟨j, ?_⟩
    split at h
    · cases h
    · obtain ⟨⟨copied, m, new⟩, -, h⟩ := bind_eq_ok.mp h
      dsimp only at h
      split at h
      · obtain ⟨s'', -, h⟩ := bind_eq_ok.mp h
        cases h
        exact ⟨.noCopy, rfl, (allocproc_slot ha).1, by simp [hpast]⟩
      · cases h
        exact ⟨.enough, rfl, (allocproc_slot ha).1, by simp [hpast]⟩
  · rename_i hother
    cases h
    have hfails : AllocFails s := by
      split at halloc
      · exact absurd rfl (hother _)
      · exact halloc.1
    cases found with
    | none => exact .inl ⟨rfl, hfails⟩
    | some r =>
      obtain ⟨j, mem⟩ := r
      obtain ⟨hj, hmem⟩ := allocproc_slot ha
      refine .inr ⟨j, mem, rfl, hj, ?_⟩
      have hnot : mem ≠ .enough := by
        rintro rfl
        exact hother j rfl
      simp [hfails, hmem, hnot]

/-- Nothing is left of a `fork` by slot `i` with memory `p`: the caller with its memory, the unused
slots and the free pages are as they were, and another `fork` would give the same mask. -/
structure NoTrace (x : Host) (i : Slot) (p : Space) (x' : Host) : Prop where
  caller : x'.kernel.proc i = x.kernel.proc i
  space : x'.memory.proc i = x.memory.proc i
  seen : ∀ v, x'.memory.ram.seen p v = x.memory.ram.seen p v
  unused : ∀ l, (x.memory.proc l).state = .unused → (x'.memory.proc l).state = .unused
  slot : ∀ l, (x.kernel.proc l).state = .unused → (x'.kernel.proc l).state = .unused
  free : ∀ f, f ∈ x'.memory.ram.free ↔ f ∈ x.memory.ram.free
  retry : childMask (x'.kernel.proc i) = childMask (x.kernel.proc i)

theorem Refilled.mem_free (h : Refilled m m') (f : Frame) : f ∈ m'.free ↔ f ∈ m.free := by
  constructor
  · intro hin
    by_contra hout
    exact Ram.not_mem_of_weight h.weight hout hin
  · intro hin
    by_contra hout
    exact Ram.not_mem_of_weight (fun w => (h.weight w).symm) hout hin

/-- The process table after a failure: only `uvmcopy` fails after the child mask was cleared. -/
theorem kforkFound_failed {k : Kernel} (hne : i ≠ j) (h : k.kforkFound i j mem = .ok (false, k')) :
    mem ≠ .enough ∧
      k'.proc i = (if mem = .noCopy then { k.proc i with childSyscallMask := 0 } else k.proc i) ∧
      ∀ l, (k.proc l).state = .unused → (k'.proc l).state = .unused := by
  cases mem with
  | enough =>
    simp only [Kernel.kforkFound] at h
    split at h
    · cases h
    · split at h
      · cases h
      · cases h
  | noTrapframe | noPagetable =>
    cases h
    refine ⟨by simp, ?_, ?_⟩
    · simp [Kernel.allocFound, Kernel.freeproc, Kernel.setProc, hne]
    · intro l hl
      by_cases he : l = j
      · subst he
        simp [Kernel.freeproc, Kernel.setProc]
      · simpa [Kernel.allocFound, Kernel.freeproc, Kernel.setProc, he] using hl
  | noCopy =>
    cases h
    refine ⟨by simp, ?_, ?_⟩
    · simp [Kernel.allocFound, Kernel.inheritFilter, Kernel.freeproc, Kernel.setProc, hne]
    · intro l hl
      by_cases he : l = j
      · subst he
        simp [Kernel.freeproc, Kernel.setProc]
      · by_cases hi : l = i
        · subst hi
          simpa [Kernel.allocFound, Kernel.inheritFilter, Kernel.freeproc, Kernel.setProc, he] using hl
        · simpa [Kernel.allocFound, Kernel.inheritFilter, Kernel.freeproc, Kernel.setProc, he, hi] using hl

theorem Owned.kfork_refills (h : Owned image tr s) (hp : s.space i = some p)
    (hk : s.kfork i p = .ok (found, t)) (hfail : ∀ j, found ≠ some (j, .enough)) :
    ∃ m, t = { s with ram := m } ∧ Refilled s.ram m := by
  obtain ⟨tf, -, -, -, hf⟩ := h.fit hp
  have hruns := kfork_runs h.tidy h.unused i hf
  rw [hk] at hruns
  simp only [Runs] at hruns
  exact hruns

/-- The parts of `NoTrace` that every failure has, and the one that clearing the child mask breaks. -/
theorem noTrace_iff {x x' : Host} (h : Owned image tr x.memory) (hp : x.memory.space i = some p)
    (hm : ∃ m, x'.memory = { x.memory with ram := m } ∧ Refilled x.memory.ram m)
    (hslot : ∀ l, (x.kernel.proc l).state = .unused → (x'.kernel.proc l).state = .unused) :
    NoTrace x i p x' ↔ x'.kernel.proc i = x.kernel.proc i := by
  obtain ⟨tf, -, -, -, hf⟩ := h.fit hp
  obtain ⟨m, hmem, hre⟩ := hm
  constructor
  · intro hno
    exact hno.caller
  · intro hcaller
    refine ⟨hcaller, ?_, ?_, ?_, hslot, ?_, by rw [hcaller]⟩
    · rw [hmem]
    · intro v
      rw [hmem]
      exact hf.guarded.seen_congr rfl rfl hre.data
    · intro l hl
      rw [hmem]
      exact hl
    · intro f
      rw [hmem]
      exact hre.mem_free f

/-- A `fork` that fails leaves no trace exactly when the caller has no mask set for its child, or when
it fails before that mask is used up: for want of a slot, or of four frames. -/
theorem failed_fork_iff {x x' : Host} (hb : System.boot image tr nodes = some s0)
    (hr : Run System.step anyEvent s0 es x.memory) (hp : x.memory.space i = some p)
    (hfail : x.kfork i p = some (false, x')) :
    NoTrace x i p x' ↔ (x.kernel.proc i).childSyscallMask = 0 ∨ AllocFails x.memory := by
  have howned := run_owned hb hr
  obtain ⟨-, hrun, -⟩ := howned.fit hp
  simp only [Host.kfork, Option.bind_eq_bind, Option.bind_eq_some_iff, Prod.exists] at hfail
  obtain ⟨found, t, hk, hfail⟩ := hfail
  have hk := toOption_eq_some hk
  rcases kfork_cases howned.tidy howned.unused hk with ⟨rfl, halloc⟩ | ⟨j, mem, rfl, hj, hpast⟩
  · cases hfail
    have hm := howned.kfork_refills hp hk (by simp)
    have htrace : NoTrace x i p ⟨x.kernel, t⟩ ↔ x.kernel.proc i = x.kernel.proc i :=
      noTrace_iff howned hp hm fun l hl => hl
    simp [htrace, halloc]
  · simp only [Option.bind_eq_some_iff, Prod.exists] at hfail
    obtain ⟨done, k', hfound, hfail⟩ := hfail
    cases hfail
    have hfound := toOption_eq_some hfound
    have hne : i ≠ j := by
      rintro rfl
      rw [hrun] at hj
      cases hj
    obtain ⟨hmem, hcaller, hslot⟩ := kforkFound_failed hne hfound
    have hm := howned.kfork_refills hp hk (by simp [hmem])
    have htrace : NoTrace x i p ⟨k', t⟩ ↔ k'.proc i = x.kernel.proc i := noTrace_iff howned hp hm hslot
    rw [htrace, hcaller]
    by_cases hcopy : mem = .noCopy
    · have hnot : ¬AllocFails x.memory := hpast.mp (.inl hcopy)
      rw [if_pos hcopy]
      constructor
      · intro he
        rw [← he]
        exact .inl rfl
      · rintro (hzero | hno)
        · rw [← hzero]
        · exact absurd hno hnot
    · have hfails : AllocFails x.memory := by
        by_contra hno
        rcases hpast.mpr hno with hc | he
        · exact hcopy hc
        · exact hmem he
      rw [if_neg hcopy]
      simp [hfails]

/-- The first process has grown by a page, and memory has four free frames left: enough for the
trapframe and the page table of a child, not for a copy of that page. -/
def lastFrames : Option System :=
  (System.boot 32689 0x80000 1).bind (replay System.step anyEvent [.sbrk 0 100 1])

def asking (mask : U64) : Kernel :=
  let k := (boot bareFs bareFiles).k
  k.setProc 0 { k.proc 0 with childSyscallMask := mask }

def lastFork (mask : U64) : Option (System × Space × Bool × Host) := do
  let s ← lastFrames
  let p ← s.space 0
  let (done, x) ← (⟨asking mask, s⟩ : Host).kfork 0 p
  some (s, p, done, x)

theorem lastFork_some (h : lastFork mask = some (s, p, done, x)) :
    (∃ s0, System.boot 32689 0x80000 1 = some s0 ∧ Run System.step anyEvent s0 [.sbrk 0 100 1] s) ∧
      s.space 0 = some p ∧ (⟨asking mask, s⟩ : Host).kfork 0 p = some (done, x) := by
  simp only [lastFork, lastFrames, Option.bind_eq_bind, Option.bind_eq_some_iff, Prod.exists] at h
  obtain ⟨s', ⟨s0, hb, hr⟩, p', hp, done', x', hk, he⟩ := h
  cases he
  exact ⟨⟨s0, hb, replay_run hr⟩, hp, hk⟩

/-- A `fork` without a pending mask that runs out of memory leaves no trace. -/
theorem failed_fork_iff_unmasked : ∃ s p x, lastFork 0 = some (s, p, false, x) ∧ NoTrace ⟨asking 0, s⟩ 0 p x := by
  have hfork : (lastFork 0).any (fun r => r.2.2.1 = false) = true := by decide +kernel
  obtain ⟨⟨s, p, done, x⟩, hlast, hdone⟩ := (Option.any_eq_true ..).mp hfork
  have hdone : done = false := by simpa using hdone
  subst hdone
  obtain ⟨⟨s0, hb, hr⟩, hp, hk⟩ := lastFork_some hlast
  exact ⟨s, p, x, hlast, (failed_fork_iff hb hr hp hk).mpr (.inl rfl)⟩

/-- With a mask set for the child, the failed `fork` has used it up: the next child gets the
parent's own mask. -/
theorem failed_fork_drops_mask : ∃ s p x, lastFork 0x1000 = some (s, p, false, x) ∧
    childMask ((asking 0x1000).proc 0) = 0x1000 ∧ childMask (x.kernel.proc 0) = 0 ∧
      ¬NoTrace ⟨asking 0x1000, s⟩ 0 p x := by
  have hfork : (lastFork 0x1000).any (fun r => r.2.2.1 = false ∧ childMask (r.2.2.2.kernel.proc 0) = 0) = true := by
    decide +kernel
  obtain ⟨⟨s, p, done, x⟩, hlast, hdone⟩ := (Option.any_eq_true ..).mp hfork
  simp only [decide_eq_true_eq] at hdone
  obtain ⟨rfl, hmask⟩ := hdone
  have hbefore : childMask ((asking 0x1000).proc 0) = 0x1000 := by decide
  refine ⟨s, p, x, hlast, hbefore, hmask, ?_⟩
  intro hno
  have hretry := hno.retry
  rw [hmask, hbefore] at hretry
  cases hretry

end Xv6Filter.Paging
