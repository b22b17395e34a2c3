import Mathlib.Data.List.FinRange
import Xv6Filter.Log.Bio
import Xv6Filter.Proofs.Bcache

namespace Xv6Filter.Proofs
open Lib

structure Carries (c : Bio) (l : Bcache) : Prop where
  buf : c.buf = l.buf
  ring : c.links.Ring l.order
  listed : ∀ i, i ∈ l.order

namespace Carries

variable {c : Bio} {l : Bcache}

section

variable (h : Carries c l)

include h

theorem perm : l.order.Perm (List.finRange nbuf) := by
  rw [List.perm_ext_iff_of_nodup h.ring.nodup (List.nodup_finRange _)]
  simp [h.listed]

theorem length_le : l.order.length ≤ nbuf := by
  simp [h.perm.length_eq]

theorem cached (dev b : Nat) : c.cached dev b = l.cached dev b := by
  unfold Bio.cached Bcache.cached
  rw [h.ring.seg.scan_next _ h.length_le, h.buf]

theorem victim : c.victim = l.victim := by
  unfold Bio.victim Bcache.victim
  rw [h.ring.seg.scan_prev _ h.length_le, h.buf]

theorem set (i : Bp) (b : Buf) : Carries (c.set i b) (l.set i b) :=
  ⟨by simp [h.buf], h.ring, h.listed⟩

theorem bget (dev b : Nat) :
    Option.Rel (fun x y => x.1 = y.1 ∧ Carries x.2 y.2) (c.bget dev b) (l.bget dev b) := by
  unfold Bio.bget Bcache.bget
  rw [h.cached, h.victim, h.buf]
  cases l.cached dev b with
  | some i => exact .some ⟨rfl, h.set i _⟩
  | none =>
    cases l.victim with
    | some i => exact .some ⟨rfl, h.set i _⟩
    | none => exact .none

theorem bpin (i : Bp) : Carries (c.bpin i) (l.bpin i) := by
  unfold Bio.bpin Bcache.bpin
  rw [h.buf]
  exact h.set i _

theorem bunpin (i : Bp) : Carries (c.bunpin i) (l.bunpin i) := by
  unfold Bio.bunpin Bcache.bunpin
  rw [h.buf]
  exact h.set i _

theorem brelse (i : Bp) : Carries (c.brelse i) (l.brelse i) := by
  have hu := h.bunpin i
  unfold Bio.brelse Bcache.brelse
  simp only [hu.buf]
  split
  · refine ⟨rfl, (hu.ring.unlink (hu.listed i)).pushFront hu.ring.nodup.not_mem_erase, ?_⟩
    intro j
    by_cases hj : j = i
    · simp [hj]
    · simpa [hj] using hu.listed j
  · exact hu

end

end Carries

theorem ring_foldl_pushFront {s : Links Bp} {l : List Bp} (h : s.Ring l) (bs : List Bp)
    (hn : bs.Nodup) (hd : ∀ b ∈ bs, b ∉ l) :
    (bs.foldl (fun s b => s.pushFront b) s).Ring (bs.reverse ++ l) := by
  induction bs generalizing s l with
  | nil => exact h
  | cons b bs ih =>
    obtain ⟨hb, hn⟩ := List.nodup_cons.mp hn
    have := ih (h.pushFront (hd b (by simp))) hn (by
      intro b' hb' hmem
      rcases List.mem_cons.mp hmem with rfl | hmem
      · exact hb hb'
      · exact hd b' (by simp [hb']) hmem)
    simpa using this

theorem carries_binit : Carries Bio.binit Bcache.init where
  buf := rfl
  ring := by
    have := ring_foldl_pushFront (.empty (ι := Bp)) (List.finRange nbuf) (List.nodup_finRange _)
      (by simp)
    rwa [List.append_nil] at this
  listed i := by simp [Bcache.init]

variable {P : Type} [DecidableEq P] {s s' : Users P}

/-- From head to tail the buffers were released later; those never released stand last. -/
def Recency (stamp : Bp → Nat) (i j : Bp) : Prop := stamp j < stamp i ∨ stamp i = 0 ∧ stamp j = 0

structure UsersOk (s : Users P) (l : Bcache) : Prop where
  carries : Carries s.bio l
  once : ∀ i j b, Caches l i b → Caches l j b → i = j
  count : ∀ i, (l.buf i).refcnt = s.calls.countP (fun x => x.2.1 = i) + s.pins.countP (fun x => x.2 = i)
  sorted : l.order.Pairwise (Recency s.stamp)
  past : ∀ i, s.stamp i ≤ s.clock

omit [DecidableEq P] in
theorem init_usersOk : UsersOk (Users.init (P := P)) Bcache.init where
  carries := carries_binit
  once i _ _ hi _ := by simp [Caches, Bcache.init, rootdev] at hi
  count i := by simp [Users.init, Bcache.init]
  sorted := List.pairwise_of_forall fun _ _ => .inr ⟨rfl, rfl⟩
  past _ := Nat.le_refl 0

namespace UsersOk

variable {l : Bcache}

theorem countP_advance {calls : List (P × Bp × Hold)} (h : (p, i, a) ∈ calls) (a' : Hold) (j : Bp) :
    ((p, i, a') :: calls.erase (p, i, a)).countP (fun x => x.2.1 = j) =
      calls.countP (fun x => x.2.1 = j) := by
  rw [(List.perm_cons_erase h).countP_eq, List.countP_cons, List.countP_cons]

theorem advance (h : UsersOk s l) (hc : (p, i, a) ∈ s.calls) (a' : Hold) : UsersOk (s.advance p i a a') l :=
  ⟨h.carries, h.once, fun j => by rw [h.count j, Users.advance, countP_advance hc], h.sorted, h.past⟩

omit [DecidableEq P] in
theorem got {i : Bp} {c : Bio} {l' : Bcache} (h : UsersOk s l) (hg : Got l b i l') (hc : Carries c l') (p : P) :
    UsersOk { s with bio := c, calls := (p, i, .waiting) :: s.calls } l' where
  carries := hc
  once _ _ _ hj hk := Counted.got_once hg h.carries.listed h.once hj hk
  count := by
    intro j
    rw [List.countP_cons]
    by_cases hj : j = i
    · subst hj
      rw [hg.refcnt, h.count]
      simp
      omega
    · rw [hg.other j hj, h.count]
      simp [Ne.symm hj]
  sorted := hg.order ▸ h.sorted
  past := h.past

omit [DecidableEq P] in
theorem recount {i : Bp} {l' : Bcache} (h : UsersOk s l) (hr : Counted.Recounted l i n l')
    (hc : Carries s'.bio l')
    (hn : n = s'.calls.countP (fun x => x.2.1 = i) + s'.pins.countP (fun x => x.2 = i))
    (ho : ∀ j, j ≠ i → s'.calls.countP (fun x => x.2.1 = j) + s'.pins.countP (fun x => x.2 = j) =
      s.calls.countP (fun x => x.2.1 = j) + s.pins.countP (fun x => x.2 = j))
    (hs : l'.order.Pairwise (Recency s'.stamp)) (hp : ∀ i, s'.stamp i ≤ s'.clock) :
    UsersOk s' l' where
  carries := hc
  once j k b hj hk := h.once j k b ((hr.tags j b).mp hj) ((hr.tags k b).mp hk)
  count := by
    intro j
    rw [hr.refcnt]
    by_cases hj : j = i
    · rw [if_pos hj, hj, hn]
    · rw [if_neg hj, h.count j, ho j hj]
  sorted := hs
  past := hp

omit [DecidableEq P] in
theorem bpin (h : UsersOk s l) (p : P) (i : Bp) :
    UsersOk { s with bio := s.bio.bpin i, pins := (p, i) :: s.pins } (l.bpin i) := by
  refine h.recount (Counted.recounted_set l i _) (h.carries.bpin i) ?_ ?_ h.sorted h.past
  · rw [h.count]
    simp
    omega
  · intro j hj
    simp [Ne.symm hj]

theorem bunpin (h : UsersOk s l) {p : P} {i : Bp} (hp : (p, i) ∈ s.pins) :
    UsersOk { s with bio := s.bio.bunpin i, pins := s.pins.erase (p, i) } (l.bunpin i) := by
  have hcount := countP_erase_pos (p := fun x => decide (x.2 = i)) hp (by simp)
  refine h.recount (Counted.recounted_set l i _) (h.carries.bunpin i) ?_ ?_ h.sorted h.past
  · rw [h.count]
    dsimp only
    omega
  · intro j hj
    dsimp only
    rw [countP_erase_neg (by simp [Ne.symm hj])]

theorem sorted_front {stamp : Bp → Nat} {order : List Bp} (hs : order.Pairwise (Recency stamp))
    (hn : order.Nodup) (hp : ∀ i, stamp i ≤ clock) (i : Bp) :
    (i :: order.erase i).Pairwise (Recency (Function.update stamp i (clock + 1))) := by
  refine List.pairwise_cons.mpr ⟨?_, (hs.sublist List.erase_sublist).imp_of_mem ?_⟩
  · intro j hj
    have hji := (hn.mem_erase_iff.mp hj).1
    left
    simpa [hji] using Nat.lt_succ_of_le (hp j)
  · intro j k hj hk hjk
    simpa [Recency, (hn.mem_erase_iff.mp hj).1, (hn.mem_erase_iff.mp hk).1] using hjk

theorem brelse (h : UsersOk s l) {p : P} {i : Bp} (hc : (p, i, .leaving) ∈ s.calls) :
    UsersOk (s.brelse p i) (l.brelse i) := by
  have hone := countP_erase_pos (p := fun x => decide (x.2.1 = i)) hc (by simp)
  have hcar := h.carries.brelse i
  have hrec := Counted.recounted_brelse l i
  have hcount : (l.buf i).refcnt - 1 = (s.calls.erase (p, i, .leaving)).countP
      (fun x => decide (x.2.1 = i)) + s.pins.countP (fun x => decide (x.2 = i)) := by
    rw [h.count]
    omega
  have hother : ∀ j, j ≠ i → (s.calls.erase (p, i, .leaving)).countP (fun x => decide (x.2.1 = j)) +
      s.pins.countP (fun x => decide (x.2 = j)) =
        s.calls.countP (fun x => decide (x.2.1 = j)) + s.pins.countP (fun x => decide (x.2 = j)) := by
    intro j hj
    rw [countP_erase_neg (by simp [Ne.symm hj])]
  have hlast : ((s.bio.brelse i).buf i).refcnt = 0 ↔ ((l.bunpin i).buf i).refcnt = 0 := by
    rw [hcar.buf, hrec.refcnt]
    simp [Bcache.bunpin]
  unfold Users.brelse
  dsimp only
  split
  · rename_i hz
    have horder : (l.brelse i).order = i :: l.order.erase i := by
      rw [Bcache.brelse, if_pos (hlast.mp hz)]
      rfl
    refine h.recount hrec hcar hcount hother ?_ ?_
    · rw [horder]
      exact sorted_front h.sorted h.carries.ring.nodup h.past i
    · intro j
      by_cases hj : j = i
      · simp [hj]
      · simpa [hj] using Nat.le_succ_of_le (h.past j)
  · rename_i hz
    have horder : (l.brelse i).order = l.order := by
      rw [Bcache.brelse, if_neg (fun hc => hz (hlast.mpr hc))]
      rfl
    refine h.recount hrec hcar hcount hother ?_ h.past
    rw [horder]
    exact h.sorted

/-- Every section keeps the invariant, and no buffer with a reference changes its block. -/
theorem step (h : UsersOk s l) (hs : s.step e = some s') : ∃ l', UsersOk s' l' ∧ ∀ i, 0 < (l.buf i).refcnt →
      (l'.buf i).dev = (l.buf i).dev ∧ (l'.buf i).blockno = (l.buf i).blockno := by
  have recounted : ∀ {i n l'}, Counted.Recounted l i n l' → ∀ j, 0 < (l.buf j).refcnt →
      (l'.buf j).dev = (l.buf j).dev ∧ (l'.buf j).blockno = (l.buf j).blockno :=
    fun hr j _ => ⟨hr.dev j, hr.blockno j⟩
  cases e with
  | bget p b =>
    obtain ⟨⟨i, c⟩, hg, rfl⟩ := Option.map_eq_some_iff.mp hs
    have hrel := h.carries.bget rootdev b
    rw [hg] at hrel
    generalize hl : l.bget rootdev b = r at hrel
    cases hrel with
    | some hrel =>
      rename_i y
      obtain ⟨j, l'⟩ := y
      obtain ⟨rfl, hcar⟩ := hrel
      have hgot := bget_got hl
      refine ⟨l', h.got hgot hcar p, fun k hk => ?_⟩
      by_cases hki : k = i
      · subst hki
        rcases hgot.before with hb | ⟨hz, _⟩
        · exact ⟨hgot.caches.1.trans hb.1.symm, hgot.caches.2.trans hb.2.symm⟩
        · dsimp only at hz
          omega
      · rw [hgot.other k hki]
        exact ⟨rfl, rfl⟩
  | acquiresleep p i =>
    simp only [Users.step] at hs
    split at hs
    · rename_i hc
      cases hs
      exact ⟨l, h.advance hc.1 _, fun _ _ => ⟨rfl, rfl⟩⟩
    · cases hs
  | releasesleep p i =>
    simp only [Users.step] at hs
    split at hs
    · rename_i hc
      cases hs
      exact ⟨l, h.advance hc _, fun _ _ => ⟨rfl, rfl⟩⟩
    · cases hs
  | brelse p i =>
    simp only [Users.step] at hs
    split at hs
    · rename_i hc
      cases hs
      exact ⟨_, h.brelse hc, recounted (Counted.recounted_brelse l i)⟩
    · cases hs
  | bpin p i =>
    cases hs
    exact ⟨_, h.bpin p i, recounted (Counted.recounted_set l i _)⟩
  | bunpin p i =>
    simp only [Users.step] at hs
    split at hs
    · rename_i hc
      cases hs
      exact ⟨_, h.bunpin (List.contains_iff_mem.mp hc), recounted (Counted.recounted_set l i _)⟩
    · cases hs

omit [DecidableEq P] in
/-- The buffer that `bget` recycles: no references, and no other such buffer was
released longer ago. -/
theorem victim_oldest (h : UsersOk s l) (hv : s.bio.victim = some i) :
    (s.bio.buf i).refcnt = 0 ∧ ∀ j, (s.bio.buf j).refcnt = 0 → s.stamp i ≤ s.stamp j := by
  rw [h.carries.victim] at hv
  rw [h.carries.buf]
  obtain ⟨hz, as, bs, hl, has⟩ := List.find?_eq_some_iff_append.mp hv
  refine ⟨by simpa using hz, fun j hj => ?_⟩
  have horder : l.order = bs.reverse ++ i :: as.reverse := by
    rw [← List.reverse_reverse l.order, hl]
    simp
  have hs := h.sorted
  have hmem := h.carries.listed j
  rw [horder] at hs hmem
  rcases List.mem_append.mp hmem with hm | hm
  · have := (List.pairwise_append.mp hs).2.2 j hm i (by simp)
    unfold Recency at this
    omega
  · rcases List.mem_cons.mp hm with rfl | hm
    · exact Nat.le_refl _
    · have := has j (List.mem_reverse.mp hm)
      simp [hj] at this

end UsersOk

structure BufferCache (s : Users P) : Prop where
  /-- The pointers form one circle of head and all buffers, the last released first. -/
  circle : ∃ order, s.bio.links.Ring order ∧ order.Perm (List.finRange nbuf) ∧
    order.Pairwise (Recency s.stamp)
  once : ∀ i j, (s.bio.buf i).dev = rootdev → (s.bio.buf j).dev = rootdev →
    (s.bio.buf i).blockno = (s.bio.buf j).blockno → i = j
  refcnt : ∀ i, (s.bio.buf i).refcnt =
    s.calls.countP (fun x => x.2.1 = i) + s.pins.countP (fun x => x.2 = i)
  kept : ∀ e s', s.step e = some s' → ∀ i, 0 < (s.bio.buf i).refcnt →
    (s'.bio.buf i).dev = (s.bio.buf i).dev ∧ (s'.bio.buf i).blockno = (s.bio.buf i).blockno
  /-- A block that is not cached goes to the unreferenced buffer released longest ago. -/
  recycles : ∀ b i bio, s.bio.cached rootdev b = none → s.bio.bget rootdev b = some (i, bio) →
    (s.bio.buf i).refcnt = 0 ∧ ∀ j, (s.bio.buf j).refcnt = 0 → s.stamp i ≤ s.stamp j

/-- In every run, of any processes, the buffer cache keeps its structure. -/
theorem buffer_cache_structure (hr : Run Users.step anyEvent (Users.init (P := P)) es s) : BufferCache s := by
  obtain ⟨l, h⟩ := hr.invariant (fun s => ∃ l, UsersOk s l) ⟨_, init_usersOk⟩
    (fun t e u ⟨l, ht⟩ _ hs => (ht.step hs).imp fun _ h => h.1)
  refine ⟨⟨l.order, h.carries.ring, h.carries.perm, h.sorted⟩, ?_, ?_, ?_, ?_⟩
  · intro i j hi hj hb
    rw [h.carries.buf] at hi hj hb
    exact h.once i j _ ⟨hi, rfl⟩ ⟨hj, hb.symm⟩
  · intro i
    rw [h.carries.buf]
    exact h.count i
  · intro e s' hs i hpos
    obtain ⟨l', h', hk⟩ := h.step hs
    rw [h.carries.buf] at hpos ⊢
    rw [h'.carries.buf]
    exact hk i hpos
  · intro b i bio hmiss hg
    simp only [Bio.bget, hmiss] at hg
    obtain ⟨j, hv, he⟩ := Option.map_eq_some_iff.mp hg
    cases he
    exact h.victim_oldest hv

def sharedBlock : List (BioEvent Bool) :=
  [.bget false 40, .acquiresleep false 0, .bget true 40, .bpin false 0, .releasesleep false 0,
    .brelse false 0, .acquiresleep true 0, .bunpin false 0, .releasesleep true 0, .brelse true 0,
    .bget true 41]

/-- Two processes have used one block, and one of them reads another in a second buffer. -/
theorem buffer_cache_structure_sharedBlock : ∃ s : Users Bool,
    Run Users.step anyEvent Users.init sharedBlock s ∧
      ((s.bio.buf 0).refcnt = 0 ∧ (s.bio.buf 1).blockno = 41 ∧ s.stamp 0 = 1) ∧ BufferCache s := by
  obtain ⟨s, hr, hs⟩ : ∃ s : Users Bool, Run Users.step anyEvent Users.init sharedBlock s ∧
      ((s.bio.buf 0).refcnt = 0 ∧ (s.bio.buf 1).blockno = 41 ∧ s.stamp 0 = 1) :=
    replay_reaches (by decide +kernel)
  exact ⟨s, hr, hs, buffer_cache_structure hr⟩

end Xv6Filter.Proofs
