import Xv6Filter.Proofs.Device

namespace Xv6Filter.Proofs
open Lib Dev Function

structure Wrote (d : Dev) (ws : List (Nat × Block)) (d' : Dev) : Prop where
  sound : Sound d'
  view : view d' = applyWrites ws (view d)
  disk : d'.disk = applyWrites ws d.disk
  issued : d'.issued = d.issued ++ ws

theorem Wrote.nil {d : Dev} (h : Sound d) : Wrote d [] d :=
  ⟨h, rfl, rfl, (List.append_nil _).symm⟩

theorem Wrote.append {d e f : Dev} {ws vs : List (Nat × Block)} (h : Wrote d ws e)
    (h' : Wrote e vs f) : Wrote d (ws ++ vs) f where
  sound := h'.sound
  view := by rw [h'.view, h.view, applyWrites_append]
  disk := by rw [h'.disk, h.disk, applyWrites_append]
  issued := by rw [h'.issued, h.issued, List.append_assoc]

/-- Dropping a reference to a buffer that is held twice or clean writes nothing. -/
theorem Wrote.unref {d e : Dev} {ws : List (Nat × Block)} (h : Wrote d ws e) {b : Nat}
    (hb : 2 ≤ e.refcnt b ∨ Proofs.view e b = e.disk b) : Wrote d ws (e.unref b) :=
  ⟨h.sound.unref hb, h.view, h.disk, h.issued⟩

/-- A block that was not written and is held once more than before can be let go. -/
theorem Wrote.release {d e : Dev} {ws : List (Nat × Block)} (h : Sound d) (hw : Wrote d ws e)
    {b : Nat} (hb : b ∉ ws.map Prod.fst) (hr : e.refcnt b = d.refcnt b + 1) :
    2 ≤ e.refcnt b ∨ Proofs.view e b = e.disk b := by
  by_cases hz : d.refcnt b = 0
  · right
    rw [hw.view, hw.disk, applyWrites_other _ hb, applyWrites_other _ hb]
    exact h.clean b hz
  · left
    omega

structure HoldsTwo (d : Dev) (x y : Nat) (e : Dev) : Prop where
  sound : Sound e
  view : view e = view d
  disk : e.disk = d.disk
  issued : e.issued = d.issued
  refcnt : ∀ a, e.refcnt a = d.refcnt a + if a = x ∨ a = y then 1 else 0

theorem hold_two (lru : Lru) {d : Dev} (h : Sound d) {x y : Nat} (hne : x ≠ y) :
    let r1 := d.bread lru x
    let r2 := r1.2.bread lru y
    r1.1 = view d x ∧ r2.1 = view d y ∧ HoldsTwo d x y r2.2 := by
  obtain ⟨hx, h1⟩ := bread_spec lru h x
  obtain ⟨hy, h2⟩ := bread_spec lru h1.sound y
  refine ⟨hx, hy.trans (congrFun h1.view y), h2.sound, h2.view.trans h1.view,
    h2.disk.trans h1.disk, h2.issued.trans h1.issued, ?_⟩
  intro a
  rw [h2.refcnt, h1.refcnt]
  by_cases hay : a = y
  · subst hay
    simp [hne.symm]
  · by_cases hax : a = x
    · subst hax
      simp [hay]
    · simp [hax, hay]

theorem HoldsTwo.copy {d e : Dev} {x y : Nat} (h : HoldsTwo d x y e) {dst : Nat}
    (hd : dst = x ∨ dst = y) (src : Nat) :
    let e' := (e.fill dst (Proofs.view d src)).bwrite dst
    Wrote d [(dst, Proofs.view d src)] e' ∧ e'.refcnt = e.refcnt ∧
      Proofs.view e' dst = e'.disk dst := by
  have hheld : 1 ≤ e.refcnt dst := by
    rw [h.refcnt, if_pos hd]
    omega
  obtain ⟨hs', hv', hd', hi', hr'⟩ := write_through h.sound hheld (Proofs.view d src)
  refine ⟨⟨hs', ?_, ?_, ?_⟩, hr', ?_⟩
  · rw [hv', h.view]; rfl
  · rw [hd', h.disk]; rfl
  · rw [hi', h.issued]
  · rw [hv', hd', update_self, update_self]

/-- One turn of `write_log`: the cached block `b` goes to its place `s` in the log. -/
theorem writeLog_turn (lru : Lru) {d : Dev} (h : Sound d) {s b : Nat} (hne : b ≠ s) :
    let r := (d.bread lru s).2.bread lru b
    Wrote d [(s, view d b)] ((((r.2.fill s r.1).bwrite s).brelse b).brelse s) := by
  obtain ⟨_, hb, h2⟩ := hold_two lru h hne.symm
  dsimp only
  rw [hb]
  obtain ⟨hw, hr, hc⟩ := h2.copy (.inl rfl) b
  have hlet := hw.release h (b := b) (by simpa using hne) (by rw [hr, h2.refcnt]; simp)
  exact (hw.unref hlet).unref (.inr hc)

/-- One turn of `install_trans`: the log's block `s` goes home to `b`. -/
theorem installTrans_turn (lru : Lru) (recovering : Bool) {d : Dev} (h : Sound d) {s b : Nat}
    (hne : b ≠ s) :
    let r := d.bread lru s
    let e := ((r.2.bread lru b).2.fill b r.1).bwrite b
    Wrote d [(b, view d s)] (((if recovering then e else e.bunpin b).brelse s).brelse b) := by
  obtain ⟨hs, _, h2⟩ := hold_two lru h hne.symm
  dsimp only
  rw [hs]
  obtain ⟨hw, hr, hc⟩ := h2.copy (.inr rfl) s
  have hlet := hw.release h (b := s) (by simpa using hne.symm) (by rw [hr, h2.refcnt]; simp)
  generalize (((d.bread lru s).2.bread lru b).2.fill b (view d s)).bwrite b = e at *
  cases recovering with
  | true => exact (hw.unref hlet).unref (.inr hc)
  | false =>
    have hkeep : 2 ≤ (e.bunpin b).refcnt s ∨ view (e.bunpin b) s = (e.bunpin b).disk s := by
      have hcount : (e.bunpin b).refcnt s = e.refcnt s :=
        update_of_ne hne.symm _ _
      rw [hcount]
      exact hlet
    exact ((hw.unref (.inr hc)).unref hkeep).unref (.inr hc)

theorem writeHead_wrote (lru : Lru) {d : Dev} (h : Sound d) (start : Nat) (lh : List Nat) :
    Wrote d [(start, putHead (view d start) lh)] (d.writeHead lru start lh) := by
  obtain ⟨hb, h1⟩ := bread_spec lru h start
  have hheld : 1 ≤ (d.bread lru start).2.refcnt start := by
    rw [h1.refcnt, update_self]
    omega
  obtain ⟨hs, hv, hd, hi, hr⟩ := write_through h1.sound hheld (putHead (view d start) lh)
  unfold Dev.writeHead
  dsimp only
  rw [hb]
  refine ⟨hs.unref (.inr ?_), ?_, ?_, ?_⟩
  · rw [hv, hd, update_self, update_self]
  · exact hv.trans (by rw [h1.view]; rfl)
  · exact hd.trans (by rw [h1.disk]; rfl)
  · exact hi.trans (by rw [h1.issued])

def logWrites (start : Nat) (new : Nat → Block) : Nat → List Nat → List (Nat × Block)
  | _, [] => []
  | tail, b :: bs => (slot start tail, new b) :: logWrites start new (tail + 1) bs

def Copied (start : Nat) (contents new : Nat → Block) : Nat → List Nat → Prop
  | _, [] => True
  | tail, b :: bs =>
    contents (slot start tail) = new b ∧ Copied start contents new (tail + 1) bs

def Outside (start : Nat) (b : Nat) : Prop := b < start ∨ start + logblocks < b

theorem Outside.ne_slot {start b : Nat} (h : Outside start b) {i : Nat} (ht : i < logblocks) :
    b ≠ slot start i := by
  simp only [Outside, slot] at *
  omega

theorem logWrites_congr {start : Nat} {new new' : Nat → Block} {bs : List Nat}
    (h : ∀ b ∈ bs, new b = new' b) (tail : Nat) :
    logWrites start new tail bs = logWrites start new' tail bs := by
  induction bs generalizing tail with
  | nil => rfl
  | cons b bs ih =>
    simp only [logWrites, h b (by simp), ih (fun c hc => h c (by simp [hc]))]

theorem writeLog_wrote (lru : Lru) (start : Nat) {bs : List Nat} {tail : Nat} {d : Dev}
    (h : Sound d) (hl : tail + bs.length ≤ logblocks) (ho : ∀ b ∈ bs, Outside start b) :
    Wrote d (logWrites start (view d) tail bs) (d.writeLog lru start tail bs) := by
  induction bs generalizing tail d with
  | nil => exact .nil h
  | cons b bs ih =>
    simp only [List.length_cons] at hl
    have hne : ∀ c ∈ b :: bs, c ≠ slot start tail := fun c hc => (ho c hc).ne_slot (by omega)
    have hw := writeLog_turn lru h (hne b (by simp))
    have hl' : tail + 1 + bs.length ≤ logblocks := by omega
    have hws := ih hw.sound hl' (fun c hc => ho c (by simp [hc]))
    have hsame : ∀ c ∈ bs, applyWrites [(slot start tail, view d b)] (view d) c = view d c := by
      intro c hc
      exact update_of_ne (hne c (by simp [hc])) _ _
    rw [hw.view, logWrites_congr hsame] at hws
    exact hw.append hws

theorem Copied.congr {start : Nat} {contents contents' new : Nat → Block} {bs : List Nat}
    {tail : Nat} (hl : tail + bs.length ≤ logblocks)
    (he : ∀ i, i < logblocks → contents (slot start i) = contents' (slot start i))
    (hc : Copied start contents new tail bs) : Copied start contents' new tail bs := by
  induction bs generalizing tail with
  | nil => trivial
  | cons b bs ih =>
    simp only [List.length_cons] at hl
    exact ⟨(he tail (by omega)).symm.trans hc.1, ih (by omega) hc.2⟩

/-- The writes of `install_trans` are the new contents, if the log has them. -/
theorem installTrans_wrote (lru : Lru) (start : Nat) (recovering : Bool) {new : Nat → Block}
    {bs : List Nat} {tail : Nat} {d : Dev} (h : Sound d) (hl : tail + bs.length ≤ logblocks)
    (ho : ∀ b ∈ bs, Outside start b) (hc : Copied start (view d) new tail bs) :
    Wrote d (bs.map fun b => (b, new b)) (d.installTrans lru start recovering tail bs) := by
  induction bs generalizing tail d with
  | nil => exact .nil h
  | cons b bs ih =>
    simp only [List.length_cons] at hl
    have hout := ho b (by simp)
    have hw := installTrans_turn lru recovering h (hout.ne_slot (i := tail) (by omega))
    have hl' : tail + 1 + bs.length ≤ logblocks := by omega
    have hsame : ∀ i, i < logblocks → view d (slot start i) =
        applyWrites [(b, view d (slot start tail))] (view d) (slot start i) := by
      intro i hi
      exact (update_of_ne (hout.ne_slot hi).symm _ _).symm
    have hc' := hc.2.congr hl' hsame
    rw [← hw.view] at hc'
    have hws := ih hw.sound hl' (fun c hm => ho c (by simp [hm])) hc'
    rw [hc.1] at hw
    exact hw.append hws

theorem word_putBlocks_before {i j : Nat} (blk : Block) (bs : List Nat) (h : j ≤ i) :
    word (putBlocks blk i bs) j = word blk j := by
  induction bs generalizing blk i with
  | nil => rfl
  | cons b bs ih =>
    rw [putBlocks, ih _ (by omega), word_setWord_ne _ _ (by omega)]

theorem words_putBlocks (blk : Block) (i : Nat) {bs : List Nat} (hb : ∀ b ∈ bs, b < 2 ^ 32) :
    (List.range bs.length).map (fun k => word (putBlocks blk i bs) (i + k + 1)) = bs := by
  induction bs generalizing blk i with
  | nil => rfl
  | cons b bs ih =>
    have hfirst : word (putBlocks (setWord blk (i + 1) b) (i + 1) bs) (i + 1) = b := by
      rw [word_putBlocks_before _ _ (Nat.le_refl _), word_setWord]
      exact Nat.mod_eq_of_lt (hb b (by simp))
    have hrest := ih (setWord blk (i + 1) b) (i + 1) (fun c hc => hb c (by simp [hc]))
    rw [List.length_cons, List.range_succ_eq_map, List.map_cons, List.map_map, putBlocks]
    congr 1
    refine Eq.trans ?_ hrest
    apply List.map_congr_left
    intro k _
    simp only [Function.comp_apply]
    congr 1
    omega

theorem getHead_putHead (blk : Block) {lh : List Nat} (hl : lh.length ≤ logblocks)
    (hb : ∀ b ∈ lh, b < 2 ^ 32) : getHead (putHead blk lh) = some lh := by
  have hn : word (putHead blk lh) 0 = lh.length := by
    rw [putHead, word_putBlocks_before _ _ (Nat.le_refl _), word_setWord]
    simp only [logblocks, maxopblocks] at hl
    omega
  have hint : (BitVec.ofNat 32 lh.length).toInt = lh.length := by
    simp only [logblocks, maxopblocks] at hl
    rw [BitVec.toInt_eq_toNat_of_lt]
    · simp
      omega
    · simp
      omega
  have hwords := words_putBlocks (setWord blk 0 lh.length) 0 hb
  simp only [Nat.zero_add] at hwords
  unfold getHead
  rw [hn, hint]
  simp only [gt_iff_lt, Int.toNat_natCast]
  rw [if_neg (by omega)]
  exact congrArg some hwords

theorem getHead_empty {blk : Block} (h : word blk 0 = 0) : getHead blk = some [] := by
  simp [getHead, h]

end Xv6Filter.Proofs
