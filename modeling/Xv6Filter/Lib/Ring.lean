import Mathlib.Data.List.Induction
import Mathlib.Data.List.Nodup
import Mathlib.Logic.Function.Basic

namespace Xv6Filter.Lib

open Function

variable {ι : Type} [DecidableEq ι]

/-- The `next` and `prev` pointers of a doubly linked list. Nodes are `some i`;
`none` is the node that stands at both ends. -/
structure Links (ι : Type) where
  next : Option ι → Option ι
  prev : Option ι → Option ι

namespace Links

def setNext (s : Links ι) (a b : Option ι) : Links ι := { s with next := update s.next a b }

def setPrev (s : Links ι) (a b : Option ι) : Links ι := { s with prev := update s.prev a b }

def empty : Links ι := ⟨fun _ => none, fun _ => none⟩

def unlink (s : Links ι) (b : ι) : Links ι :=
  let s := s.setPrev (s.next (some b)) (s.prev (some b))
  s.setNext (s.prev (some b)) (s.next (some b))

def pushFront (s : Links ι) (b : ι) : Links ι :=
  let s := s.setNext (some b) (s.next none)
  let s := s.setPrev (some b) none
  let s := s.setPrev (s.next none) (some b)
  s.setNext none (some b)

/-- Following the pointers `go` from a node to the first that satisfies `p`, until
the head comes again or `fuel` nodes were seen. -/
def scan (go : Option ι → Option ι) (p : ι → Bool) : Nat → Option ι → Option ι
  | 0, _ => none
  | _ + 1, none => none
  | fuel + 1, some b => if p b then some b else scan go p fuel (go (some b))

def Seg (s : Links ι) : Option ι → List ι → Option ι → Prop
  | a, [], z => s.next a = z ∧ s.prev z = a
  | a, b :: l, z => s.next a = some b ∧ s.prev (some b) = a ∧ Seg s (some b) l z

/-- The pointers form one circle: the head, then the nodes of the list, each once. -/
structure Ring (s : Links ι) (l : List ι) : Prop where
  seg : Seg s none l none
  nodup : l.Nodup

namespace Seg

variable {s s' : Links ι} {a z : Option ι} {b : ι} {l xs ys : List ι}

omit [DecidableEq ι]

theorem split : Seg s a (xs ++ b :: ys) z ↔ Seg s a xs (some b) ∧ Seg s (some b) ys z := by
  induction xs generalizing a with
  | nil => simp [Seg, and_assoc]
  | cons x xs ih => simp [Seg, ih, and_assoc]

theorem congr (h : Seg s a l z) (hn : ∀ x, x = a ∨ (∃ i ∈ l, x = some i) → s'.next x = s.next x)
    (hp : ∀ x, x = z ∨ (∃ i ∈ l, x = some i) → s'.prev x = s.prev x) : Seg s' a l z := by
  induction l generalizing a with
  | nil => exact ⟨(hn a (.inl rfl)).trans h.1, (hp z (.inl rfl)).trans h.2⟩
  | cons b l ih =>
    obtain ⟨h1, h2, h3⟩ := h
    refine ⟨(hn a (.inl rfl)).trans h1, (hp _ (.inr ⟨b, by simp, rfl⟩)).trans h2, ih h3 ?_ ?_⟩
    · rintro x (rfl | ⟨i, hi, rfl⟩)
      · exact hn _ (.inr ⟨b, by simp, rfl⟩)
      · exact hn _ (.inr ⟨i, by simp [hi], rfl⟩)
    · rintro x (rfl | ⟨i, hi, rfl⟩)
      · exact hp _ (.inl rfl)
      · exact hp _ (.inr ⟨i, by simp [hi], rfl⟩)

theorem prev_end (h : Seg s a l z) : s.prev z = a ∨ ∃ i ∈ l, s.prev z = some i := by
  induction l generalizing a with
  | nil => exact .inl h.2
  | cons b l ih =>
    rcases ih h.2.2 with hb | ⟨i, hi, he⟩
    · exact .inr ⟨b, by simp, hb⟩
    · exact .inr ⟨i, by simp [hi], he⟩

theorem next_start (h : Seg s a l z) : s.next a = z ∨ ∃ i ∈ l, s.next a = some i := by
  cases l with
  | nil => exact .inl h.1
  | cons b l => exact .inr ⟨b, by simp, h.1⟩

end Seg

variable {s : Links ι} {a : Option ι} {b : ι} {l xs ys : List ι}

theorem Seg.join (hx : Seg s a xs (some b)) (hy : Seg s (some b) ys none) (hb : b ∉ xs)
    (hby : b ∉ ys) (hxy : ∀ x ∈ xs, x ∉ ys) (hnx : xs.Nodup) (hny : ys.Nodup)
    (hax : ∀ i, a = some i → i ∉ xs ∧ i ∉ ys ∧ i ≠ b) : Seg (s.unlink b) a (xs ++ ys) none := by
  have hne : some b ≠ s.next (some b) := by
    rcases hy.next_start with h | ⟨i, hi, h⟩ <;> rw [h]
    · exact Option.some_ne_none b
    · rintro ⟨⟩
      exact hby hi
  have hprev : (s.unlink b).prev = update s.prev (s.next (some b)) (s.prev (some b)) := rfl
  have hnext : (s.unlink b).next = update s.next (s.prev (some b)) (s.next (some b)) := by
    simp [unlink, setNext, setPrev, hne]
  induction xs generalizing a with
  | nil =>
    have ha : s.prev (some b) = a := hx.2
    rw [ha] at hprev hnext
    cases ys with
    | nil => exact ⟨by simp [hnext, hy.1], by simp [hprev, hy.1]⟩
    | cons c ys =>
      obtain ⟨hc, _, hrest⟩ := hy
      rw [hc] at hprev hnext
      have hc' := List.nodup_cons.mp hny
      refine ⟨by simp [hnext], by simp [hprev], hrest.congr ?_ ?_⟩
      · intro x hxs
        rw [hnext, update_of_ne]
        rintro rfl
        rcases hxs with h | ⟨i, hi, h⟩
        · exact (hax c h).2.1 (by simp)
        · exact (hax i h).2.1 (by simp [hi])
      · intro x hxs
        rw [hprev, update_of_ne]
        rintro rfl
        rcases hxs with h | ⟨i, hi, h⟩
        · cases h
        · cases h
          exact hc'.1 hi
  | cons x xs ih =>
    obtain ⟨h1, h2, h3⟩ := hx
    have hx' := List.nodup_cons.mp hnx
    have hrest := ih h3 (by simp_all) (by simp_all) hx'.2 (by
      intro i hi
      cases hi
      exact ⟨hx'.1, hxy x (by simp), by rintro rfl; simp at hb⟩)
    refine ⟨?_, ?_, hrest⟩
    · rw [hnext, update_of_ne, h1]
      rintro rfl
      rcases h3.prev_end with h | ⟨i, hi, h⟩
      · exact (hax x h).1 (by simp)
      · exact (hax i h).1 (by simp [hi])
    · rw [hprev, update_of_ne, h2]
      intro he
      rcases hy.next_start with h | ⟨i, hi, h⟩ <;> rw [h] at he
      · cases he
      · cases he
        exact hxy _ (by simp) hi

namespace Ring

omit [DecidableEq ι] in
theorem empty : Ring (Links.empty (ι := ι)) [] := ⟨⟨rfl, rfl⟩, List.nodup_nil⟩

theorem unlink (h : Ring s l) (hb : b ∈ l) : Ring (s.unlink b) (l.erase b) := by
  obtain ⟨xs, ys, rfl⟩ := List.append_of_mem hb
  obtain ⟨hx, hy⟩ := Seg.split.mp h.seg
  have hn := h.nodup
  obtain ⟨hnx, hnb, hdis⟩ := List.nodup_append.mp hn
  obtain ⟨hby, hny⟩ := List.nodup_cons.mp hnb
  have hbx : b ∉ xs := fun hm => hdis b hm b (by simp) rfl
  have herase : (xs ++ b :: ys).erase b = xs ++ ys := by
    rw [List.erase_append_right _ hbx, List.erase_cons_head]
  refine ⟨?_, hn.erase b⟩
  rw [herase]
  exact hx.join hy hbx hby (fun x hm hy' => hdis x hm x (by simp [hy']) rfl) hnx hny (by simp)

theorem pushFront (h : Ring s l) (hb : b ∉ l) : Ring (s.pushFront b) (b :: l) := by
  refine ⟨?_, List.nodup_cons.mpr ⟨hb, h.nodup⟩⟩
  cases l with
  | nil =>
    obtain ⟨h1, h2⟩ := h.seg
    simp [Seg, Links.pushFront, setNext, setPrev, h1]
  | cons c l =>
    obtain ⟨h1, h2, h3⟩ := h.seg
    have hc := List.nodup_cons.mp h.nodup
    have hbc : b ≠ c := by
      rintro rfl
      simp at hb
    refine ⟨by simp [Links.pushFront, setNext], ?_, ?_, ?_, ?_⟩
    · simp [Links.pushFront, setNext, setPrev, h1, hbc]
    · simp [Links.pushFront, setNext, setPrev, h1]
    · simp [Links.pushFront, setNext, setPrev, h1]
    · have hout : ∀ i, i = c ∨ i ∈ l → i ≠ b := by
        rintro i hi rfl
        exact hb (by simpa using hi)
      apply h3.congr
      · rintro x (rfl | ⟨i, hi, rfl⟩)
        · simp [Links.pushFront, setNext, setPrev, hout c (.inl rfl)]
        · simp [Links.pushFront, setNext, setPrev, hout i (.inr hi)]
      · rintro x (rfl | ⟨i, hi, rfl⟩)
        · simp [Links.pushFront, setNext, setPrev, h1]
        · have hic : i ≠ c := by
            rintro rfl
            exact hc.1 hi
          simp [Links.pushFront, setNext, setPrev, h1, hout i (.inr hi), hic]

end Ring

omit [DecidableEq ι] in
theorem Seg.scan_next (h : Seg s a l none) (p : ι → Bool) (hf : l.length ≤ fuel) :
    scan s.next p fuel (s.next a) = l.find? p := by
  induction l generalizing a fuel with
  | nil =>
    rw [h.1]
    cases fuel <;> rfl
  | cons b l ih =>
    obtain ⟨h1, _, h3⟩ := h
    cases fuel with
    | zero => simp at hf
    | succ fuel =>
      rw [h1, scan, List.find?_cons, ih h3 (by simpa using hf)]
      cases p b <;> rfl

omit [DecidableEq ι] in
theorem Seg.scan_prev (h : Seg s none l a) (p : ι → Bool) (hf : l.length ≤ fuel) :
    scan s.prev p fuel (s.prev a) = l.reverse.find? p := by
  induction l using List.reverseRecOn generalizing a fuel with
  | nil =>
    rw [h.2]
    cases fuel <;> rfl
  | append_singleton l b ih =>
    obtain ⟨hl, hb⟩ := Seg.split.mp h
    cases fuel with
    | zero => simp at hf
    | succ fuel =>
      rw [hb.2, scan, ih hl (by simpa using hf)]
      simp only [List.reverse_append, List.reverse_singleton, List.singleton_append, List.find?_cons]
      cases p b <;> rfl

end Links

end Xv6Filter.Lib
