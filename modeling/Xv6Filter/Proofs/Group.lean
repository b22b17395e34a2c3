import Mathlib.Data.List.Basic
import Mathlib.Data.List.Nodup
import Xv6Filter.Log.Group
import Xv6Filter.Proofs.Bcache

namespace Xv6Filter.Proofs
open Lib Function

variable {P : Type} [DecidableEq P] {m : Group P}

/-- The buffers a committing process has in hand, with the block each should cache. -/
def refsAt (start : Nat) (lh : List Nat) : Lpc → List (Bp × Nat)
  | .log t (.one l) | .log t (.last l) | .install t (.one l) => [(l, Dev.slot start t)]
  | .log t (.both l h) | .log t (.drop l h) | .install t (.both l h) | .unpin t l h
  | .install t (.drop l h) => [(h, lh.getD t 0), (l, Dev.slot start t)]
  | .install t (.last h) => [(h, lh.getD t 0)]
  | .head (.held i) | .head (.written i) | .clear (.held i) | .clear (.written i) => [(i, start)]
  | _ => []

def progress (n : Nat) : Lpc → Nat × Nat × Nat
  | .log t (.drop _ _) | .log t (.last _) => (t + 1, 0, 0)
  | .log t _ => (t, 0, 0)
  | .head _ => (n, 0, 0)
  | .unpin t _ _ => (n, t + 1, t)
  | .install t (.drop _ _) | .install t (.last _) => (n, t + 1, t + 1)
  | .install t _ => (n, t, t)
  | .erase => (n, n, n)
  | _ => (0, 0, 0)

def InRange (n : Nat) : Lpc → Prop
  | .log t .start | .install t .start => t ≤ n
  | .log t _ | .install t _ | .unpin t _ _ => t < n
  | .clear _ | .finish => n = 0
  | _ => True

structure Written (lh logged installed released : List Nat) (n : Nat × Nat × Nat) : Prop where
  logged : logged = lh.take n.1
  installed : installed = lh.take n.2.1
  released : released = lh.take n.2.2

/-- Process `p` at place `c` holds its buffers, and they cache the right blocks. -/
structure InHand (start : Nat) (lh : List Nat) (cache : Bcache) (holds : List (P × Bp)) (p : P)
    (c : Lpc) : Prop where
  held : ((refsAt start lh c).map fun x => (p, x.1)).Subperm holds
  caches : ∀ x ∈ refsAt start lh c, Caches cache x.1 x.2

structure Placed (start : Nat) (m : Group P) (p : P) (c : Lpc) : Prop where
  range : InRange m.lh.length c
  written : Written m.lh m.logged m.installed m.released (progress m.lh.length c)
  inHand : InHand start m.lh m.cache m.holds p c

/-- Operations and the commit exclude each other, and at most one process commits. -/
structure Control (outstanding : Int) (committing : Bool) (pc : P → Lpc) (active : List P) :
    Prop where
  nodup : active.Nodup
  member : ∀ p, p ∈ active ↔ ∃ op, pc p = .inOp op
  count : outstanding = active.length
  busy : ∀ p, (pc p).committing = true → committing = true
  owner : committing = true → ∃ p, (pc p).committing = true
  alone : ∀ p q, (pc p).committing = true → (pc q).committing = true → p = q
  settled : committing = true → active = []

def Exactly (blocks : List Nat) (recorded : List (OpId × Nat)) : Prop :=
  blocks.Nodup ∧ ∀ b, b ∈ blocks ↔ ∃ op, (op, b) ∈ recorded

structure Complete (e : Nat) (c : Commit) : Prop where
  logged : Exactly c.logged c.recorded
  installed : Exactly c.installed c.recorded
  epoch : ∀ x ∈ c.recorded, x.1.epoch = e

/-- The header against the history: all records since the last commit come from
operations that began after it. -/
structure Recorded (lh : List Nat) (recorded : List (OpId × Nat)) (done : List Commit)
    (pc : P → Lpc) : Prop where
  exactly : Exactly lh recorded
  current : ∀ x ∈ recorded, x.1.epoch = done.length
  running : ∀ p op, pc p = .inOp op → op.epoch = done.length
  complete : ∀ e c, done[e]? = some c → Complete e c

def pins (m : Group P) (b : Nat) : Bool := decide (b ∈ m.lh ∧ b ∉ m.released)

structure GroupOk (start : Nat) (m : Group P) : Prop where
  control : Control m.outstanding m.committing m.pc m.active
  counted : Counted m.cache m.holds (pins m)
  recorded : Recorded m.lh m.recorded m.done m.pc
  quiet : m.committing = false → m.logged = [] ∧ m.installed = [] ∧ m.released = []
  placed : ∀ p, (m.pc p).committing = true → Placed start m p (m.pc p)
  panics : m.halted ≠ some .committing ∧ m.halted ≠ some .outsideTrans

theorem take_snoc {l : List Nat} (ht : t < l.length) (d : Nat) :
    l.take t ++ [l.getD t d] = l.take (t + 1) := by
  rw [List.take_add_one, List.getD_eq_getElem?_getD, List.getElem?_eq_getElem ht]
  rfl

theorem getD_mem {l : List Nat} (ht : t < l.length) (d : Nat) : l.getD t d ∈ l := by
  rw [List.getD_eq_getElem?_getD, List.getElem?_eq_getElem ht]
  exact List.getElem_mem ht

theorem getD_notMem_take {l : List Nat} (hn : l.Nodup) (ht : t < l.length) (d : Nat) :
    l.getD t d ∉ l.take t := by
  rw [List.getD_eq_getElem?_getD, List.getElem?_eq_getElem ht]
  intro hmem
  obtain ⟨j, hj, he⟩ := List.mem_take_iff_getElem.mp hmem
  have := hn.getElem_inj_iff.mp he
  omega

namespace InHand

variable {holds : List (P × Bp)} {p : P}

omit [DecidableEq P] in
theorem mem_holds (hp : InHand start lh cache holds p c) (hx : (i, b) ∈ refsAt start lh c) :
    (p, i) ∈ holds :=
  hp.held.subset (List.mem_map.mpr ⟨_, hx, rfl⟩)

omit [DecidableEq P] in
theorem keep (hp : InHand start lh cache holds p c)
    (hh : ((refsAt start lh c).map fun x => (p, x.1)).Subperm holds')
    (hk : ∀ i b, (p, i) ∈ holds → Caches cache i b → Caches cache' i b) :
    InHand start lh cache' holds' p c :=
  ⟨hh, fun x hx => hk x.1 x.2 (hp.mem_holds hx) (hp.caches x hx)⟩

theorem keep_erase (hp : InHand start lh cache holds p c) (hq : p ≠ q) (i : Bp) :
    ((refsAt start lh c).map fun x => (p, x.1)).Subperm (holds.erase (q, i)) := by
  have h := hp.held.erase (q, i)
  rwa [List.erase_of_not_mem (by simp [hq])] at h

end InHand

structure Onward (n : Nat) (c next : Lpc) : Prop where
  committing : next.committing = c.committing
  inOp : ∀ op, next = .inOp op ↔ c = .inOp op
  range : c.committing = true → InRange n next

theorem Onward.refl (hc : c.committing = false) : Onward n c c :=
  ⟨rfl, fun _ => .rfl, fun h => by simp [hc] at h⟩

/-- What an action of process `p` says about the place before and after it. Reads
and releases outside a commit are such actions too. -/
inductive Fits (start : Nat) (m : Group P) (p : P) (c : Lpc) : Act → Prop where
  | goto (ho : Onward m.lh.length c next)
      (hg : progress m.lh.length next = progress m.lh.length c)
      (hr : refsAt start m.lh next = refsAt start m.lh c) : Fits start m p c (.goto next)
  | bread (ho : ∀ i, Onward m.lh.length c (next i))
      (hg : ∀ i, progress m.lh.length (next i) = progress m.lh.length c)
      (hr : c.committing = true → ∀ i,
        refsAt start m.lh (next i) = (i, b) :: refsAt start m.lh c) :
      Fits start m p c (.bread b next)
  | brelse (ho : Onward m.lh.length c next)
      (hg : progress m.lh.length next = progress m.lh.length c)
      (hh : (p, i) ∈ m.holds)
      (hr : c.committing = true →
        (refsAt start m.lh c).Perm ((i, b) :: refsAt start m.lh next)) :
      Fits start m p c (.brelse i next)
  | writeLog (hb : c.committing = true) (ho : Onward m.lh.length c next) (ht : t < m.lh.length)
      (hc : Caches m.cache h (m.lh.getD t 0))
      (hg : progress m.lh.length c = (t, 0, 0))
      (hg' : progress m.lh.length next = (t + 1, 0, 0))
      (hr : refsAt start m.lh next = refsAt start m.lh c) : Fits start m p c (.writeLog h next)
  | writeHome (hb : c.committing = true) (ho : Onward m.lh.length c next) (ht : t < m.lh.length)
      (hc : Caches m.cache h (m.lh.getD t 0))
      (hg : progress m.lh.length c = (m.lh.length, t, t))
      (hg' : progress m.lh.length next = (m.lh.length, t + 1, t))
      (hr : refsAt start m.lh next = refsAt start m.lh c) : Fits start m p c (.writeHome h next)
  | bunpin (hb : c.committing = true) (ho : Onward m.lh.length c next) (ht : t < m.lh.length)
      (hc : Caches m.cache h (m.lh.getD t 0))
      (hg : progress m.lh.length c = (m.lh.length, t + 1, t))
      (hg' : progress m.lh.length next = (m.lh.length, t + 1, t + 1))
      (hr : refsAt start m.lh next = refsAt start m.lh c) : Fits start m p c (.bunpin h next)
  | erase (hc : c = .erase) : Fits start m p c (.erase (.clear .start))
  | finish (hc : c = .finish) : Fits start m p c (.finish .idle)

theorem onward (hc : c.committing = true) (hn : next.committing = true) (hr : InRange n next) :
    Onward n c next := by
  refine ⟨hn.trans hc.symm, ?_, fun _ => hr⟩
  intro op
  constructor <;> rintro rfl <;> contradiction

omit [DecidableEq P] in
/-- What `commit` does next fits the buffers and the header it has. -/
theorem act_fits (hp : Placed start m p c) (ha : c.act start m.lh = some a) :
    Fits start m p c a := by
  have hheld := fun i b => hp.inHand.mem_holds (i := i) (b := b)
  have hcaches := hp.inHand.caches
  have hrange := hp.range
  cases c with
  | idle | inOp => cases ha
  | commit =>
    cases ha
    split
    · exact .goto (onward rfl rfl (Nat.zero_le _)) rfl rfl
    · exact .goto (onward rfl rfl (by simp only [InRange]; omega)) rfl rfl
  | log t turn =>
    cases turn with
    | start =>
      simp only [Lpc.act] at ha
      split at ha <;> cases ha
      · exact .bread (fun _ => onward rfl rfl ‹_›) (fun _ => rfl) (fun _ _ => rfl)
      · have : t = m.lh.length := by simp only [InRange] at hrange; omega
        exact .goto (onward rfl rfl trivial) (by simp [progress, this]) rfl
    | one l =>
      cases ha
      exact .bread (fun _ => onward rfl rfl hrange) (fun _ => rfl) (fun _ _ => rfl)
    | both l h =>
      cases ha
      exact .writeLog rfl (onward rfl rfl hrange) hrange (hcaches _ (.head _)) rfl rfl rfl
    | drop l h =>
      cases ha
      exact .brelse (onward rfl rfl hrange) rfl (hheld h _ (.head _)) (fun _ => .refl _)
    | last l =>
      cases ha
      exact .brelse (onward rfl rfl hrange) rfl (hheld l _ (.head _)) (fun _ => .refl _)
  | head touch =>
    cases touch with
    | start =>
      cases ha
      exact .bread (fun _ => onward rfl rfl trivial) (fun _ => rfl) (fun _ _ => rfl)
    | held i =>
      cases ha
      exact .goto (onward rfl rfl trivial) rfl rfl
    | written i =>
      cases ha
      exact .brelse (onward rfl rfl (Nat.zero_le _)) rfl (hheld i _ (.head _)) (fun _ => .refl _)
  | install t turn =>
    cases turn with
    | start =>
      simp only [Lpc.act] at ha
      split at ha <;> cases ha
      · exact .bread (fun _ => onward rfl rfl ‹_›) (fun _ => rfl) (fun _ _ => rfl)
      · have : t = m.lh.length := by simp only [InRange] at hrange; omega
        exact .goto (onward rfl rfl trivial) (by simp [progress, this]) rfl
    | one l =>
      cases ha
      exact .bread (fun _ => onward rfl rfl hrange) (fun _ => rfl) (fun _ _ => rfl)
    | both l h =>
      cases ha
      exact .writeHome rfl (onward rfl rfl hrange) hrange (hcaches _ (.head _)) rfl rfl rfl
    | drop l h =>
      cases ha
      exact .brelse (onward rfl rfl hrange) rfl (hheld l _ (.tail _ (.head _)))
        (fun _ => .swap _ _ _)
    | last h =>
      cases ha
      exact .brelse (onward rfl rfl hrange) rfl (hheld h _ (.head _)) (fun _ => .refl _)
  | unpin t l h =>
    cases ha
    exact .bunpin rfl (onward rfl rfl hrange) hrange (hcaches _ (.head _)) rfl rfl rfl
  | erase =>
    cases ha
    exact .erase rfl
  | clear touch =>
    cases touch with
    | start =>
      cases ha
      exact .bread (fun _ => onward rfl rfl hrange) (fun _ => rfl) (fun _ _ => rfl)
    | held i =>
      cases ha
      exact .goto (onward rfl rfl hrange) rfl rfl
    | written i =>
      cases ha
      exact .brelse (onward rfl rfl hrange) rfl (hheld i _ (.head _)) (fun _ => .refl _)
  | finish =>
    cases ha
    exact .finish rfl

theorem Onward.kinds {pc : P → Lpc} (ho : Onward n (pc p) next) (q : P) :
    (update pc p next q).committing = (pc q).committing ∧
      ∀ op, update pc p next q = .inOp op ↔ pc q = .inOp op := by
  by_cases hq : q = p
  · subst hq
    simpa using ⟨ho.committing, ho.inOp⟩
  · simp [hq]

namespace Control

variable {out : Int} {pc : P → Lpc} {active : List P}

theorem onward (hc : Control out com pc active) (ho : Onward n (pc p) next) :
    Control out com (update pc p next) active := by
  refine ⟨hc.nodup, ?_, hc.count, ?_, ?_, ?_, hc.settled⟩
  · intro q
    simp only [hc.member, ho.kinds]
  · intro q hq
    exact hc.busy q ((ho.kinds q).1 ▸ hq)
  · intro h
    obtain ⟨q, hq⟩ := hc.owner h
    exact ⟨q, (ho.kinds q).1.trans hq⟩
  · intro q r hq hr
    exact hc.alone q r ((ho.kinds q).1 ▸ hq) ((ho.kinds r).1 ▸ hr)

omit [DecidableEq P] in
theorem nobody (hc : Control out true pc active) (p : P) (op : OpId) : pc p ≠ .inOp op := by
  intro h
  have : p ∈ active := (hc.member p).mpr ⟨op, h⟩
  simp [hc.settled rfl] at this

omit [DecidableEq P] in
theorem idle_of_inOp (hc : Control out com pc active) (hp : pc p = .inOp op) : com = false := by
  cases com with
  | false => rfl
  | true => exact absurd hp (hc.nobody p op)

omit [DecidableEq P] in
theorem none_commits (hc : Control out false pc active) (q : P) : (pc q).committing = false := by
  by_contra h
  exact absurd (hc.busy q (by simpa using h)) (by simp)

omit [DecidableEq P] in
theorem of_none_commits (hn : active.Nodup) (hm : ∀ p, p ∈ active ↔ ∃ op, pc p = .inOp op)
    (ho : out = active.length) (hk : ∀ q, (pc q).committing = false) :
    Control out false pc active :=
  ⟨hn, hm, ho, fun q hq => absurd hq (by simp [hk]), nofun,
    fun q _ hq => absurd hq (by simp [hk]), nofun⟩

theorem begin (hc : Control out false pc active) (hp : pc p = .idle) (op : OpId) :
    Control (out + 1) false (update pc p (.inOp op)) (p :: active) := by
  apply of_none_commits
  · refine List.nodup_cons.mpr ⟨?_, hc.nodup⟩
    simp [hc.member, hp]
  · intro q
    by_cases hq : q = p
    · subst hq
      simp
    · simp [hq, hc.member]
  · simp [hc.count]
  · intro q
    by_cases hq : q = p
    · subst hq
      simp [Lpc.committing]
    · simp [hq, hc.none_commits]

theorem leave (hc : Control out com pc active) (hp : pc p = .inOp op) :
    Control (out - 1) false (update pc p .idle) (active.erase p) := by
  obtain rfl := hc.idle_of_inOp hp
  have hmem : p ∈ active := (hc.member p).mpr ⟨op, hp⟩
  apply of_none_commits (hc.nodup.erase p)
  · intro q
    rw [hc.nodup.mem_erase_iff, hc.member]
    by_cases h : q = p
    · subst h
      simp
    · simp [h]
  · rw [List.length_erase_of_mem hmem, hc.count]
    have := List.length_pos_of_mem hmem
    omega
  · intro q
    by_cases hq : q = p
    · subst hq
      simp [Lpc.committing]
    · simp [hq, hc.none_commits]

theorem commit (hc : Control 0 false pc active) (hp : pc p = .idle) :
    Control 0 true (update pc p .commit) active := by
  have hnil : active = [] := List.length_eq_zero_iff.mp (by have := hc.count; omega)
  have hp' : ∀ q, (update pc p Lpc.commit q).committing = true → q = p := by
    intro q hq
    by_contra h
    rw [update_of_ne h, hc.none_commits] at hq
    cases hq
  refine ⟨hc.nodup, ?_, hc.count, fun _ _ => rfl, ?_, ?_, fun _ => hnil⟩
  · intro q
    by_cases h : q = p
    · subst h
      simp [hnil]
    · simp [h, hc.member]
  · exact fun _ => ⟨p, by simp [Lpc.committing]⟩
  · intro q r hq hr
    rw [hp' q hq, hp' r hr]

theorem finish (hc : Control out com pc active) (hp : (pc p).committing = true) :
    Control out false (update pc p .idle) active := by
  have hnil : active = [] := hc.settled (hc.busy p hp)
  apply of_none_commits hc.nodup _ hc.count
  · intro q
    by_cases h : q = p
    · subst h
      simp [Lpc.committing]
    · rw [update_of_ne h]
      by_contra hq
      exact h (hc.alone q p (by simpa using hq) hp)
  · intro q
    by_cases h : q = p
    · subst h
      simp [hnil]
    · simp [h, hc.member]

end Control

end Xv6Filter.Proofs
