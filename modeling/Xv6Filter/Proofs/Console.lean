import Xv6Filter.Kernel.Console
import Xv6Filter.Lib.Monitor

namespace Xv6Filter.Proofs
open Lib Function

structure Mirrors (c : Cons) (ed : Editor) : Prop where
  unread : between c.buf c.r c.w = ed.committed.drop ed.taken
  line : between c.buf c.w c.e = ed.line
  fits : gap c.r c.w + gap c.w c.e ≤ inputBufSize
  full : gap c.r c.w + gap c.w c.e = inputBufSize → c.w = c.e
  plain : lineFeed ∉ ed.line
  taken : ed.taken ≤ ed.committed.length

namespace Mirrors

variable {c : Cons} {ed : Editor} {ch : Byte}

section

variable (h : Mirrors c ed)

include h

theorem gap_e : gap c.r c.e = gap c.r c.w + gap c.w c.e := by
  have hf := h.fits
  refine gap_trans c.r c.e c.w ?_
  simp only [inputBufSize] at hf
  omega

theorem held : ed.held = gap c.r c.e := by
  have hu := congrArg List.length h.unread
  have hl := congrArg List.length h.line
  rw [length_between, List.length_drop] at hu
  rw [length_between] at hl
  rw [Editor.held, h.gap_e, hu, hl]

theorem erase (hne : c.e ≠ c.w) : Mirrors { c with e := c.e - 1 } { ed with line := ed.line.dropLast } := by
  have hp := between_pred c.buf c.w c.e (Ne.symm hne)
  have ha := gap_pred c.w c.e (Ne.symm hne)
  have hf := h.fits
  have hline : between c.buf c.w (c.e - 1#32) = ed.line.dropLast := by
    rw [← h.line, hp, List.dropLast_concat]
  refine ⟨h.unread, hline, ?_, ?_, ?_, h.taken⟩
  · change gap c.r c.w + gap c.w (c.e - 1#32) ≤ inputBufSize
    omega
  · intro hfull
    change gap c.r c.w + gap c.w (c.e - 1#32) = inputBufSize at hfull
    omega
  · exact fun hm => h.plain (List.dropLast_subset _ hm)

theorem kill : Mirrors { c with e := c.w } { ed with line := [] } := by
  have hf := h.fits
  refine ⟨h.unread, between_self c.buf c.w, ?_, fun _ => rfl, List.not_mem_nil, h.taken⟩
  change gap c.r c.w + gap c.w c.w ≤ inputBufSize
  rw [gap_self]
  omega

theorem put (ch : Byte) (hlt : gap c.r c.e < inputBufSize) :
    between (c.put ch).buf c.r c.w = ed.committed.drop ed.taken ∧
      between (c.put ch).buf c.w (c.put ch).e = ed.line ++ [ch] ∧
      gap c.w (c.put ch).e = gap c.w c.e + 1 ∧ gap c.r (c.put ch).e = gap c.r c.e + 1 := by
  have hd : inputBufSize ∣ 2 ^ 32 := by decide
  have he := h.gap_e
  have hlt' := hlt
  simp only [inputBufSize] at hlt'
  refine ⟨?_, ?_, ?_, ?_⟩
  · rw [← h.unread]
    exact between_write hd c.buf c.r c.w c.e ch (by omega) hlt
  · rw [← h.line]
    exact between_push c.buf c.w c.e hd ch (by omega) (by omega)
  · exact gap_succ c.w c.e (by omega)
  · exact gap_succ c.r c.e (by omega)

theorem insert (hlt : gap c.r c.e < inputBufSize) :
    Mirrors (if ch = lineFeed ∨ ch = ctrl 'D' ∨ gap (c.put ch).r (c.put ch).e = inputBufSize then
      { c.put ch with w := (c.put ch).e } else c.put ch) (ed.insert ch) := by
  obtain ⟨hu, hl, haw, har⟩ := h.put ch hlt
  have he := h.gap_e
  have hheld : ({ ed with line := ed.line ++ [ch] } : Editor).held = gap c.r (c.put ch).e := by
    have hh := h.held
    simp only [Editor.held, List.length_append, List.length_singleton] at hh ⊢
    omega
  unfold Editor.insert
  dsimp only
  rw [hheld]
  change Mirrors (if ch = lineFeed ∨ ch = ctrl 'D' ∨ gap c.r (c.put ch).e = inputBufSize then
    { c.put ch with w := (c.put ch).e } else c.put ch) _
  split
  · have hsum : gap c.r c.w + gap c.w (c.put ch).e < 2 ^ 32 := by
      simp only [inputBufSize] at hlt
      omega
    refine ⟨?_, between_self _ _, ?_, fun _ => rfl, List.not_mem_nil, ?_⟩
    · change between (c.put ch).buf c.r (c.put ch).e = _
      rw [between_append _ c.r (c.put ch).e c.w hsum, hu, hl, List.drop_append_of_le_length h.taken]
    · change gap c.r (c.put ch).e + gap (c.put ch).e (c.put ch).e ≤ inputBufSize
      rw [gap_self]
      omega
    · rw [List.length_append]
      exact Nat.le_add_right_of_le h.taken
  · rename_i hno
    rw [not_or, not_or] at hno
    refine ⟨hu, hl, ?_, ?_, ?_, h.taken⟩
    · change gap c.r c.w + gap c.w (c.put ch).e ≤ inputBufSize
      omega
    · intro hfull
      change gap c.r c.w + gap c.w (c.put ch).e = inputBufSize at hfull
      omega
    · rw [List.mem_append, List.mem_singleton, not_or]
      exact ⟨h.plain, Ne.symm hno.1⟩

theorem pop (hne : c.r ≠ c.w) : Mirrors { c with r := c.r + 1 } (ed.edit .taken) ∧
      ed.committed.take (ed.taken + 1) = ed.committed.take ed.taken ++ [c.front] := by
  have hc := between_cons c.buf c.r c.w hne
  have ha := gap_pop c.r c.w hne
  have hf := h.fits
  rw [h.unread] at hc
  have htail : between c.buf (c.r + 1#32) c.w = ed.committed.drop (ed.taken + 1) := by
    rw [← List.tail_drop, hc, List.tail_cons]
  refine ⟨⟨htail, h.line, ?_, ?_, h.plain, ?_⟩, ?_⟩
  · change gap (c.r + 1#32) c.w + gap c.w c.e ≤ inputBufSize
    omega
  · intro hfull
    change gap (c.r + 1#32) c.w + gap c.w c.e = inputBufSize at hfull
    omega
  · have hlen := congrArg List.length hc
    rw [List.length_drop, List.length_cons] at hlen
    change ed.taken + 1 ≤ ed.committed.length
    omega
  · rw [List.take_add_one]
    congr 1
    have h0 : (ed.committed.drop ed.taken)[0]? = some c.front := by rw [hc]; rfl
    rw [List.getElem?_drop, Nat.add_zero] at h0
    rw [h0]
    rfl

end

end Mirrors

/-- The loop of Control-U goes back to the last committed character. -/
theorem killLine_eq {n : Nat} {c : Cons} (hn : gap c.w c.e = n) (hp : lineFeed ∉ between c.buf c.w c.e) :
    c.killLine n = { c with e := c.w } := by
  induction n generalizing c with
  | zero =>
    have he : c.w = c.e := (gap_eq_zero c.w c.e).mp hn
    cases c
    cases he
    rfl
  | succ n ih =>
    have hne : c.w ≠ c.e := by
      intro he
      rw [he, gap_self] at hn
      cases hn
    have hpred := between_pred c.buf c.w c.e hne
    rw [hpred, List.mem_append, List.mem_singleton, not_or] at hp
    have ha := gap_pred c.w c.e hne
    rw [Cons.killLine, if_pos ⟨Ne.symm hne, Ne.symm hp.2⟩]
    refine ih (c := { c with e := c.e - 1 }) ?_ hp.1
    change gap c.w (c.e - 1#32) = n
    omega

/-- `consoleintr` does to the ring what the key does to the line editor. -/
theorem Mirrors.intr {c : Cons} {ed : Editor} (h : Mirrors c ed) (ch : Byte) :
    Mirrors (c.intr ch).1 (ed.edit (.key ch)) := by
  unfold Cons.intr Editor.edit
  dsimp only
  by_cases hP : ch = ctrl 'P'
  · rw [if_pos hP, if_pos (.inl hP)]
    exact h
  rw [if_neg hP]
  by_cases hU : ch = ctrl 'U'
  · have h0 : ch ≠ 0 := by
      rw [hU]
      decide
    rw [if_pos hU, if_neg (not_or.mpr ⟨hP, h0⟩), if_pos hU]
    dsimp only
    rw [killLine_eq rfl (h.line ▸ h.plain)]
    exact h.kill
  rw [if_neg hU]
  by_cases hH : ch = ctrl 'H' ∨ ch = delete
  · have h0 : ch ≠ 0 := by
      rcases hH with rfl | rfl <;> decide
    rw [if_pos hH, if_neg (not_or.mpr ⟨hP, h0⟩), if_neg hU, if_pos hH]
    split
    · rename_i hne
      exact h.erase hne
    · rename_i he
      have hw : c.e = c.w := Decidable.of_not_not he
      have hl := h.line
      rw [hw, between_self] at hl
      have hed : { ed with line := ed.line.dropLast } = ed := by
        rw [← hl]
        cases ed
        cases hl
        rfl
      rw [hed]
      exact h
  rw [if_neg hH]
  by_cases h0 : ch = 0
  · rw [if_neg (fun hc : ch ≠ 0 ∧ _ => hc.1 h0), if_pos (.inr h0)]
    exact h
  rw [if_neg (not_or.mpr ⟨hP, h0⟩), if_neg hU, if_neg hH, h.held]
  by_cases hlt : gap c.r c.e < inputBufSize
  · rw [if_pos ⟨h0, hlt⟩, if_pos hlt]
    generalize (if ch = '\r'.toUInt8 then lineFeed else ch) = ch'
    rw [apply_ite Prod.fst]
    exact h.insert hlt
  · rw [if_neg (fun hc => hlt hc.2), if_neg hlt]
    exact h

section Readers

variable {ι : Type} [DecidableEq ι]

inductive Consoled (s : ConsSys ι) : ConsEvent ι → ConsSys ι → Prop where
  | intr (ch : Byte) (hl : s.lock = none) (asleep : ι → Bool) :
      Consoled s (.intr ch) { s with cons := (s.cons.intr ch).1, asleep := asleep }
  | read (p : ι) (n : I32) (hl : s.lock = none) (hp : s.pc p = .out) :
      Consoled s (.read p n) { s.goto p (.test n.toInt n.toInt) with lock := some p }
  | resume (p : ι) (n t : Int) (hl : s.lock = none) (hp : s.pc p = .wait n t) :
      Consoled s (.resume p) { s.goto p (.test n t) with lock := some p }
  | finish (p : ι) (n t : Int) (hl : s.lock = some p) (hp : s.pc p = .test n t) (hn : n ≤ 0) :
      Consoled s (.go p good) (s.leave p)
  | dry (p : ι) (n t : Int) (hl : s.lock = some p) (hp : s.pc p = .test n t) (hn : 0 < n) :
      Consoled s (.go p good) (s.goto p (.killed n t))
  | input (p : ι) (n t : Int) (hl : s.lock = some p) (hp : s.pc p = .test n t) (hn : 0 < n)
      (hne : s.cons.r ≠ s.cons.w) : Consoled s (.go p good) (s.goto p (.take n t))
  | dead (p : ι) (n t : Int) (hl : s.lock = some p) (hp : s.pc p = .killed n t) (hk : s.killed p = true) :
      Consoled s (.go p good) (s.leave p)
  | tired (p : ι) (n t : Int) (hl : s.lock = some p) (hp : s.pc p = .killed n t) (hk : s.killed p = false) :
      Consoled s (.go p good) (s.goto p (.sleep n t))
  | sleep (p : ι) (n t : Int) (hl : s.lock = some p) (hp : s.pc p = .sleep n t) (asleep : ι → Bool) :
      Consoled s (.go p good) { s.goto p (.wait n t) with lock := none, asleep := asleep }
  /-- end of file after data: it stays for the next read -/
  | eofLater (p : ι) (n t : Int) (hl : s.lock = some p) (hp : s.pc p = .take n t)
      (hD : s.cons.front = ctrl 'D') (hn : n < t) : Consoled s (.go p good) (s.leave p)
  | eof (p : ι) (n t : Int) (hl : s.lock = some p) (hp : s.pc p = .take n t) (hD : s.cons.front = ctrl 'D')
      (hn : t ≤ n) : Consoled s (.go p good) (s.popped.leave p)
  | lost (p : ι) (n t : Int) (hl : s.lock = some p) (hp : s.pc p = .take n t)
      (hD : s.cons.front ≠ ctrl 'D') : Consoled s (.go p false) (s.popped.leave p)
  | lineEnd (p : ι) (n t : Int) (hl : s.lock = some p) (hp : s.pc p = .take n t)
      (hD : s.cons.front ≠ ctrl 'D') (hf : s.cons.front = lineFeed) :
      Consoled s (.go p true) (s.popped.leave p)
  | byte (p : ι) (n t : Int) (hl : s.lock = some p) (hp : s.pc p = .take n t)
      (hD : s.cons.front ≠ ctrl 'D') (hf : s.cons.front ≠ lineFeed) :
      Consoled s (.go p true) (s.popped.goto p (.test (n - 1) t))
  | kill (p : ι) (killed asleep : ι → Bool) : Consoled s (.kill p) { s with killed := killed, asleep := asleep }

omit [DecidableEq ι] in
theorem unpopped_popped (s : ConsSys ι) : s.popped.unpopped = s := by
  have hr : s.cons.r + 1 - 1 = s.cons.r := BitVec.add_sub_cancel ..
  simp only [ConsSys.unpopped, ConsSys.popped, ConsSys.setCons, hr]

theorem takeChar_consoled {s : ConsSys ι} {p : ι} {n t : Int} (good : Bool) (hl : s.lock = some p)
    (hp : s.pc p = .take n t) : Consoled s (.go p good) (s.takeChar p n t good).1 := by
  unfold ConsSys.takeChar
  dsimp only
  split
  · rename_i hD
    split
    · rename_i hn
      rw [unpopped_popped]
      exact .eofLater p n t hl hp hD hn
    · rename_i hn
      exact .eof p n t hl hp hD (by omega)
  · rename_i hD
    cases good with
    | false => exact .lost p n t hl hp hD
    | true =>
      rw [if_neg (by simp)]
      split
      · rename_i hf
        exact .lineEnd p n t hl hp hD hf
      · rename_i hf
        exact .byte p n t hl hp hD hf

theorem advance_consoled {s : ConsSys ι} {p : ι} {good : Bool} {x : ConsSys ι × Option Int} (hl : s.lock = some p)
    (h : s.advance p good = some x) : Consoled s (.go p good) x.1 := by
  unfold ConsSys.advance at h
  split at h
  · rename_i n t hp
    split at h
    · rename_i hn
      split at h
      · cases h
        exact .dry p n t hl hp hn
      · rename_i hne
        cases h
        exact .input p n t hl hp hn hne
    · rename_i hn
      cases h
      exact .finish p n t hl hp (by omega)
  · rename_i n t hp
    split at h
    · rename_i hk
      cases h
      exact .dead p n t hl hp hk
    · rename_i hk
      cases h
      exact .tired p n t hl hp (by simpa using hk)
  · rename_i n t hp
    cases h
    exact .sleep p n t hl hp _
  · rename_i n t hp
    cases h
    exact takeChar_consoled good hl hp
  · cases h
  · cases h

theorem step_consoled {s s' : ConsSys ι} {e : ConsEvent ι} (h : s.step e = some s') : Consoled s e s' := by
  cases e with
  | intr ch =>
    simp only [ConsSys.step, Option.ite_none_right_eq_some, Option.some.injEq] at h
    obtain ⟨hl, rfl⟩ := h
    exact .intr ch hl _
  | read p n =>
    simp only [ConsSys.step, Option.ite_none_right_eq_some, Option.some.injEq] at h
    obtain ⟨⟨hl, hp⟩, rfl⟩ := h
    exact .read p n hl hp
  | go p good =>
    simp only [ConsSys.step, Option.ite_none_right_eq_some, Option.map_eq_some_iff] at h
    obtain ⟨hl, x, hx, rfl⟩ := h
    exact advance_consoled hl hx
  | resume p =>
    simp only [ConsSys.step] at h
    split at h
    · rename_i n t hp
      simp only [Option.ite_none_right_eq_some, Option.some.injEq] at h
      obtain ⟨⟨hl, -⟩, rfl⟩ := h
      exact .resume p n t hl hp
    · cases h
  | kill p =>
    cases h
    exact .kill p _ _

def Sees (c : Cons) : ConsPc → Prop
  | .take _ _ => c.r ≠ c.w
  | _ => True

/-- A reader never has more left to read than it asked for, and takes a character only when it
has something left to read. -/
def Bounded : ConsPc → Prop
  | .out => True
  | .test n t => n ≤ t ∧ (0 ≤ n ∨ n = t)
  | .killed n t | .sleep n t | .wait n t | .take n t => n ≤ t ∧ 0 < n

structure Reading (s : ConsSys ι) : Prop where
  locked : Exclusive ConsPc.inside (Sees s.cons) s.lock s.pc
  bounded : ∀ p, Bounded (s.pc p)

namespace Reading

variable {s : ConsSys ι} {p : ι}

theorem bounded_update (h : Reading s) {c : ConsPc} (hb : Bounded c) (q : ι) : Bounded (update s.pc p c q) := by
  by_cases hq : q = p
  · subst hq
    rwa [update_self]
  · rw [update_of_ne hq]
    exact h.bounded q

omit [DecidableEq ι] in
theorem bounded_at (h : Reading s) {c : ConsPc} (hp : s.pc p = c) : Bounded c := hp ▸ h.bounded p

theorem leave (h : Reading s) (hl : s.lock = some p) (c : Cons) : Reading ((s.setCons c).leave p) :=
  ⟨h.locked.release hl rfl, h.bounded_update trivial⟩

theorem goto (h : Reading s) (hl : s.lock = some p) {c : ConsPc} (d : Cons) (hc : c.inside = true) (hs : Sees d c)
    (hb : Bounded c) : Reading ((s.setCons d).goto p c) :=
  ⟨h.locked.goto hl hc hs, h.bounded_update hb⟩

theorem acquire (h : Reading s) (hl : s.lock = none) {n t : Int} (hb : n ≤ t ∧ (0 ≤ n ∨ n = t)) :
    Reading { s.goto p (.test n t) with lock := some p } := by
  have hx := h.locked
  rw [hl] at hx
  exact ⟨hx.acquire rfl trivial, h.bounded_update hb⟩

theorem step {s' : ConsSys ι} {e : ConsEvent ι} (h : Reading s) (hs : Consoled s e s') : Reading s' := by
  cases hs with
  | intr ch hl asleep =>
    have hx := h.locked
    rw [hl] at hx
    exact ⟨(congrArg (Exclusive _ _ · s.pc) hl).mpr hx.free, h.bounded⟩
  | read p n hl hp => exact h.acquire hl ⟨Int.le_refl _, .inr rfl⟩
  | resume p n t hl hp =>
    have hb : n ≤ t ∧ 0 < n := h.bounded_at hp
    exact h.acquire hl ⟨hb.1, .inl (by omega)⟩
  | finish p n t hl hp | dead p n t hl hp | eofLater p n t hl hp => exact h.leave hl s.cons
  | eof p n t hl hp | lost p n t hl hp | lineEnd p n t hl hp => exact h.leave hl _
  | dry p n t hl hp hn =>
    have hb : n ≤ t ∧ (0 ≤ n ∨ n = t) := h.bounded_at hp
    exact h.goto hl s.cons rfl trivial ⟨hb.1, hn⟩
  | tired p n t hl hp =>
    have hb : n ≤ t ∧ 0 < n := h.bounded_at hp
    exact h.goto hl s.cons rfl trivial hb
  | input p n t hl hp hn hne =>
    have hb : n ≤ t ∧ (0 ≤ n ∨ n = t) := h.bounded_at hp
    exact h.goto hl s.cons rfl hne ⟨hb.1, hn⟩
  | sleep p n t hl hp asleep =>
    have hb : n ≤ t ∧ 0 < n := h.bounded_at hp
    exact ⟨h.locked.release hl rfl, h.bounded_update hb⟩
  | byte p n t hl hp =>
    have hb : n ≤ t ∧ 0 < n := h.bounded_at hp
    exact h.goto hl _ rfl trivial (by simp only [Bounded]; omega)
  | kill p killed asleep => exact ⟨h.locked, h.bounded⟩

omit [DecidableEq ι] in
theorem init (killed : ι → Bool) : Reading (ConsSys.init killed) := by
  refine ⟨⟨?_, nofun⟩, fun _ => trivial⟩
  intro p
  simp [ConsSys.init, ConsPc.inside]

end Reading

theorem Editor.key_committed (ed : Editor) (ch : Byte) :
    (ed.edit (.key ch)).taken = ed.taken ∧ ∃ l, (ed.edit (.key ch)).committed = ed.committed ++ l := by
  have hsame : ∃ l, ed.committed = ed.committed ++ l := ⟨[], (List.append_nil _).symm⟩
  have hins : ∀ c, (ed.insert c).taken = ed.taken ∧ ∃ l, (ed.insert c).committed = ed.committed ++ l := by
    intro c
    unfold Editor.insert
    dsimp only
    split
    · exact ⟨rfl, _, rfl⟩
    · exact ⟨rfl, hsame⟩
  simp only [Editor.edit]
  split
  · exact ⟨rfl, hsame⟩
  · split
    · exact ⟨rfl, hsame⟩
    · split
      · exact ⟨rfl, hsame⟩
      · split
        · exact hins _
        · exact ⟨rfl, hsame⟩

def follow (ed : Editor) (s : ConsSys ι) (e : ConsEvent ι) : Editor := (s.edits e).foldl Editor.edit ed

structure Keeps (ed : Editor) (s : ConsSys ι) (e : ConsEvent ι) (s' : ConsSys ι) : Prop where
  mirrors : Mirrors s'.cons (follow ed s e)
  consumed : (follow ed s e).committed.take (follow ed s e).taken = ed.committed.take ed.taken ++ s.consumed e

theorem Keeps.quiet {ed : Editor} {s s' : ConsSys ι} {e : ConsEvent ι} (h : Mirrors s.cons ed)
    (hi : ∀ ch, e ≠ .intr ch) (hc : s.consumed e = []) (hs : s'.cons = s.cons) : Keeps ed s e s' := by
  have he : s.edits e = [] := by
    unfold ConsSys.edits
    split
    · exact absurd rfl (hi _)
    · rw [hc]
      rfl
  have hf : follow ed s e = ed := by rw [follow, he]; rfl
  refine ⟨?_, ?_⟩
  · rw [hf, hs]
    exact h
  · rw [hf, hc, List.append_nil]

theorem Keeps.take {ed : Editor} {s s' : ConsSys ι} {p : ι} {good : Bool} (h : Mirrors s.cons ed)
    (hne : s.cons.r ≠ s.cons.w) (hc : s.consumed (.go p good) = [s.cons.front])
    (hs : s'.cons = { s.cons with r := s.cons.r + 1 }) : Keeps ed s (.go p good) s' := by
  obtain ⟨hm, ht⟩ := h.pop hne
  have hf : follow ed s (.go p good) = ed.edit .taken := by
    simp only [follow, ConsSys.edits, hc]
    rfl
  refine ⟨?_, ?_⟩
  · rw [hf, hs]
    exact hm
  · rw [hf, hc]
    exact ht

theorem Consoled.keeps {ed : Editor} {s s' : ConsSys ι} {e : ConsEvent ι} (hs : Consoled s e s') (hr : Reading s)
    (h : Mirrors s.cons ed) : Keeps ed s e s' := by
  cases hs with
  | intr ch hl asleep =>
    have hf : follow ed s (.intr ch) = ed.edit (.key ch) := by
      simp only [follow, ConsSys.edits, if_pos hl]
      rfl
    obtain ⟨ht, l, hcm⟩ := Editor.key_committed ed ch
    refine ⟨?_, ?_⟩
    · rw [hf]
      exact h.intr ch
    · rw [hf, ht, hcm, List.take_append_of_le_length h.taken]
      exact (List.append_nil _).symm
  | read | resume | kill => exact .quiet h nofun rfl rfl
  | finish p n t hl hp | dry p n t hl hp | input p n t hl hp | dead p n t hl hp | tired p n t hl hp
  | sleep p n t hl hp =>
    refine .quiet h nofun ?_ rfl
    simp only [ConsSys.consumed, hp]
  | eofLater p n t hl hp hD hn =>
    refine .quiet h nofun ?_ rfl
    simp only [ConsSys.consumed, hp, if_pos hl]
    rw [if_pos ⟨hD, hn⟩]
  | eof p n t hl hp hD hn =>
    refine .take h (hr.locked.fact_at hl hp) ?_ rfl
    simp only [ConsSys.consumed, hp, if_pos hl]
    rw [if_neg (by omega)]
  | lost p n t hl hp hD | lineEnd p n t hl hp hD | byte p n t hl hp hD =>
    refine .take h (hr.locked.fact_at hl hp) ?_ rfl
    simp only [ConsSys.consumed, hp, if_pos hl]
    rw [if_neg (fun hc => hD hc.1)]

def GoodCopy (_ : ConsSys ι) : ConsEvent ι → Prop
  | .go _ good => good = true
  | _ => True

instance (s : ConsSys ι) (e : ConsEvent ι) : Decidable (GoodCopy s e) :=
  match e with
  | .go _ good => inferInstanceAs (Decidable (good = true))
  | .intr _ | .read _ _ | .resume _ | .kill _ => .isTrue trivial

/-- What leaves the buffer is delivered, except for an end of file. -/
theorem delivered_eq (s : ConsSys ι) (e : ConsEvent ι) (hg : GoodCopy s e) :
    s.delivered e = (s.consumed e).filter (· ≠ ctrl 'D') := by
  cases e with
  | go p good =>
    cases hg
    simp only [ConsSys.delivered, ConsSys.consumed]
    split
    · rename_i n t hp
      by_cases hl : s.lock = some p
      · by_cases hD : s.cons.front = ctrl 'D'
        · by_cases hn : n < t <;> simp [hl, hD, hn]
        · simp [hl, hD]
      · simp [hl]
    · rfl
  | _ => rfl

def editorOf (s0 : ConsSys ι) (es : List (ConsEvent ι)) : Editor :=
  Editor.run (observe ConsSys.step ConsSys.edits es s0)

theorem editorOf_snoc {ok : ConsSys ι → ConsEvent ι → Prop} {s0 s : ConsSys ι} (hr : Run ConsSys.step ok s0 es s)
    (e : ConsEvent ι) : editorOf s0 (es ++ [e]) = follow (editorOf s0 es) s e := by
  rw [editorOf, hr.observe_snoc, Editor.run, List.foldl_append]
  rfl

theorem run_reading {ok : ConsSys ι → ConsEvent ι → Prop} {killed : ι → Bool}
    (hr : Run ConsSys.step ok (.init killed) es s) : Reading s :=
  hr.invariant Reading (.init killed) fun _ _ _ h _ hs => h.step (step_consoled hs)

theorem run_mirrors {ok : ConsSys ι → ConsEvent ι → Prop} {killed : ι → Bool}
    (hr : Run ConsSys.step ok (.init killed) es s) :
    Mirrors s.cons (editorOf (.init killed) es) ∧
      observe ConsSys.step ConsSys.consumed es (.init killed) =
        (editorOf (.init killed) es).committed.take (editorOf (.init killed) es).taken := by
  induction hr with
  | nil =>
    refine ⟨⟨between_self _ _, between_self _ _, ?_, fun _ => rfl, List.not_mem_nil, Nat.le_refl _⟩, rfl⟩
    exact (congrArg₂ (· + ·) (gap_self _) (gap_self _)).trans_le (Nat.zero_le _)
  | @snoc es t e u run _ next ih =>
    have hk := (step_consoled next).keeps (run_reading run) ih.1
    rw [editorOf_snoc run e, run.observe_snoc, ih.2, hk.consumed]
    exact ⟨hk.mirrors, rfl⟩

theorem run_delivered {killed : ι → Bool} (hr : Run ConsSys.step GoodCopy (.init killed) es s) :
    observe ConsSys.step ConsSys.delivered es (.init killed) =
      (observe ConsSys.step ConsSys.consumed es (.init killed)).filter (· ≠ ctrl 'D') := by
  induction hr with
  | nil => rfl
  | snoc run meets next ih =>
    rw [run.observe_snoc, run.observe_snoc, ih, List.filter_append, delivered_eq _ _ meets]

/-- At an end of file a read ends: with what it has, leaving the end of file for the next read,
or with nothing. -/
theorem read_at_eof {s s' : ConsSys ι} {p : ι} {n t : Int} {good : Bool} (hs : s.step (.go p good) = some s')
    (hp : s.pc p = .take n t) (hD : s.cons.front = ctrl 'D') :
    s.returned (.go p good) = some (t, t - n) ∧ s'.pc p = .out ∧
      (n < t → s.consumed (.go p good) = [] ∧ s'.cons = s.cons) ∧
      (t ≤ n → s.consumed (.go p good) = [ctrl 'D']) := by
  have hl : s.lock = some p := by
    by_contra hl
    simp [ConsSys.step, hl] at hs
  have hret : s.returned (.go p good) = some (t, t - n) := by
    simp only [ConsSys.returned, hp, if_pos hl, ConsSys.advance, ConsSys.takeChar, if_pos hD]
    split <;> rfl
  refine ⟨hret, ?_, ?_, ?_⟩
  · cases step_consoled hs with
    | eofLater | eof => simp [ConsSys.leave, ConsSys.goto]
    | lost _ _ _ _ _ hne | lineEnd _ _ _ _ _ hne | byte _ _ _ _ _ hne => exact absurd hD hne
    | finish _ _ _ _ hq | dry _ _ _ _ hq | input _ _ _ _ hq | dead _ _ _ _ hq | tired _ _ _ _ hq
    | sleep _ _ _ _ hq =>
      rw [hp] at hq
      cases hq
  · intro hn
    simp only [ConsSys.consumed, hp, if_pos hl]
    rw [if_pos ⟨hD, hn⟩]
    refine ⟨rfl, ?_⟩
    simp only [ConsSys.step, if_pos hl, ConsSys.advance, hp, ConsSys.takeChar, if_pos hD, if_pos hn,
      unpopped_popped, Option.map_some, Option.some.injEq] at hs
    rw [← hs]
    rfl
  · intro hn
    simp only [ConsSys.consumed, hp, if_pos hl]
    rw [if_neg (by omega), hD]

/-- A read of more than nothing that returns nothing took an end of file. -/
theorem empty_read {s s' : ConsSys ι} {e : ConsEvent ι} {t : Int} (hr : Reading s) (hs : s.step e = some s')
    (hg : GoodCopy s e) (ht : 0 < t) (h0 : s.returned e = some (t, 0)) : s.consumed e = [ctrl 'D'] := by
  cases step_consoled hs with
  | intr | read | resume | kill => cases h0
  | finish p n t' hl hp hn =>
    have hlt : ¬ 0 < n := by omega
    simp only [ConsSys.returned, hp, if_pos hl, ConsSys.advance, if_neg hlt, Option.bind_some, Option.map_some,
      Option.some.injEq, Prod.mk.injEq] at h0
    omega
  | dry p n t' hl hp hn =>
    simp only [ConsSys.returned, hp, if_pos hl, ConsSys.advance, if_pos hn] at h0
    split at h0 <;> cases h0
  | input p n t' hl hp hn hne =>
    simp only [ConsSys.returned, hp, if_pos hl, ConsSys.advance, if_pos hn] at h0
    split at h0 <;> cases h0
  | dead p n t' hl hp hk =>
    simp only [ConsSys.returned, hp, if_pos hl, ConsSys.advance, if_pos hk] at h0
    cases h0
  | tired p n t' hl hp hk =>
    simp [ConsSys.returned, hp, hl, ConsSys.advance, hk] at h0
  | sleep p n t' hl hp =>
    simp only [ConsSys.returned, hp] at h0
    cases h0
  | eofLater p n t' hl hp hD hn =>
    rw [(read_at_eof hs hp hD).1, Option.some.injEq, Prod.mk.injEq] at h0
    omega
  | eof p n t' hl hp hD hn => exact (read_at_eof hs hp hD).2.2.2 hn
  | lost => cases hg
  | lineEnd p n t' hl hp hD hf =>
    have hb : n ≤ t' := (hr.bounded_at hp).1
    simp only [ConsSys.returned, hp, if_pos hl, ConsSys.advance, ConsSys.takeChar, if_neg hD, if_pos hf,
      Bool.true_eq_false, if_false, Option.bind_some, Option.map_some, Option.some.injEq, Prod.mk.injEq] at h0
    omega
  | byte p n t' hl hp hD hf =>
    simp [ConsSys.returned, hp, hl, ConsSys.advance, ConsSys.takeChar, hD, hf] at h0

/-- Console line discipline, in every run of keys and of readers with writable buffers: the indices
stay in order and within the size of the buffer, a full buffer is all committed, and the ring is
the line editor's: what was taken out, what is still to be read and the line being edited are the
editor's, the bytes delivered are what was taken out apart from the ends of file, an end of file
ends a read, after data by staying for the next one, and nothing else makes a read empty. -/
theorem console_is_line_editor {killed : ι → Bool} (hr : Run ConsSys.step GoodCopy (.init killed) es s) :
    ((s.cons.w - s.cons.r).toNat ≤ (s.cons.e - s.cons.r).toNat ∧
      (s.cons.e - s.cons.r).toNat ≤ inputBufSize) ∧
    ((s.cons.e - s.cons.r).toNat = inputBufSize → s.cons.w = s.cons.e) ∧
    (observe ConsSys.step ConsSys.consumed es (.init killed) =
        (editorOf (.init killed) es).committed.take (editorOf (.init killed) es).taken ∧
      between s.cons.buf s.cons.r s.cons.w =
        (editorOf (.init killed) es).committed.drop (editorOf (.init killed) es).taken ∧
      between s.cons.buf s.cons.w s.cons.e = (editorOf (.init killed) es).line) ∧
    observe ConsSys.step ConsSys.delivered es (.init killed) =
      ((editorOf (.init killed) es).committed.take (editorOf (.init killed) es).taken).filter (· ≠ ctrl 'D') ∧
    (∀ p n t good s', s.step (.go p good) = some s' → s.pc p = .take n t → s.cons.front = ctrl 'D' →
      s.returned (.go p good) = some (t, t - n) ∧ s'.pc p = .out ∧
        (n < t → s.consumed (.go p good) = [] ∧ s'.cons = s.cons) ∧
        (t ≤ n → s.consumed (.go p good) = [ctrl 'D'])) ∧
    (∀ e s' t, s.step e = some s' → GoodCopy s e → 0 < t → s.returned e = some (t, 0) →
      s.consumed e = [ctrl 'D']) := by
  obtain ⟨hm, hc⟩ := run_mirrors hr
  have he := hm.gap_e
  have hf := hm.fits
  refine ⟨⟨?_, ?_⟩, ?_, ⟨hc, hm.unread, hm.line⟩, ?_, ?_, ?_⟩
  · change gap s.cons.r s.cons.w ≤ gap s.cons.r s.cons.e
    omega
  · change gap s.cons.r s.cons.e ≤ inputBufSize
    omega
  · intro hfull
    change gap s.cons.r s.cons.e = inputBufSize at hfull
    exact hm.full (by omega)
  · rw [run_delivered hr, hc]
  · exact fun p n t good s' hs hp hD => read_at_eof hs hp hD
  · exact fun e s' t hs hg ht h0 => empty_read (run_reading hr) hs hg ht h0

def typeAndRead : List (ConsEvent Unit) :=
  [.intr 97, .intr 98, .intr (ctrl 'H'), .intr 99, .intr (ctrl 'D'), .read () 10,
    .go () true, .go () true, .go () true, .go () true, .go () true, .go () true]

/-- A line with a correction, ended by control-D and read by one process. -/
theorem console_is_line_editor_typeAndRead :
    ∃ s, Run ConsSys.step GoodCopy (.init fun _ => false) typeAndRead s ∧ s.pc () = .out ∧
      observe ConsSys.step ConsSys.delivered typeAndRead (.init fun _ => false) = [97, 99] ∧
      observe ConsSys.step ConsSys.consumed typeAndRead (.init fun _ => false) =
        (editorOf (.init fun _ => false) typeAndRead).committed.take
          (editorOf (.init fun _ => false) typeAndRead).taken ∧
      between s.cons.buf s.cons.r s.cons.w = [ctrl 'D'] := by
  obtain ⟨s, hr, hp, hb⟩ : ∃ s, Run ConsSys.step GoodCopy (.init fun _ => false) typeAndRead s ∧
      s.pc () = .out ∧ between s.cons.buf s.cons.r s.cons.w = [ctrl 'D'] :=
    replay_reaches (by decide)
  obtain ⟨-, -, ⟨hc, -⟩, -⟩ := console_is_line_editor hr
  exact ⟨s, hr, hp, by decide, hc, hb⟩

end Readers

end Xv6Filter.Proofs
