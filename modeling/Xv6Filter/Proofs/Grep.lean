import Xv6Filter.User.Grep
import Mathlib.Data.List.Basic

namespace Xv6Filter.Grep
open Lib Function

def terminated : List Byte → List (List Byte)
  | [] => []
  | b :: bs => if b = newline then [] :: terminated bs else (terminated bs).modifyHead (b :: ·)

def unterminated : List Byte → List Byte
  | [] => []
  | b :: bs => if newline ∈ b :: bs then unterminated bs else b :: bs

def shown (pattern : List Byte) (ls : List (List Byte)) : List Byte :=
  (ls.filter (matchText pattern)).flatMap (· ++ [newline])

theorem terminated_none (h : newline ∉ bs) : terminated bs = [] := by
  induction bs with
  | nil => rfl
  | cons b bs ih =>
    obtain ⟨hb, hbs⟩ := not_or.mp (mt List.mem_cons.mpr h)
    rw [terminated, if_neg (Ne.symm hb), ih hbs]
    rfl

theorem terminated_line (h : newline ∉ l) (bs : List Byte) :
    terminated (l ++ newline :: bs) = l :: terminated bs := by
  induction l with
  | nil => simp [terminated]
  | cons b l ih =>
    obtain ⟨hb, hl⟩ := not_or.mp (mt List.mem_cons.mpr h)
    rw [List.cons_append, terminated, if_neg (Ne.symm hb), ih hl]
    rfl

theorem unterminated_none (h : newline ∉ bs) : unterminated bs = bs := by
  cases bs with
  | nil => rfl
  | cons b bs => rw [unterminated, if_neg h]

theorem unterminated_line (l bs : List Byte) : unterminated (l ++ newline :: bs) = unterminated bs := by
  induction l with
  | nil => simp [unterminated]
  | cons b l ih => rw [List.cons_append, unterminated, if_pos (by simp), ih]

theorem unterminated_suffix (bs : List Byte) : unterminated bs <:+ bs := by
  induction bs with
  | nil => exact List.suffix_refl _
  | cons b bs ih =>
    rw [unterminated]
    split
    · exact ih.trans (List.suffix_cons b bs)
    · exact List.suffix_refl _

theorem not_mem_unterminated (bs : List Byte) : newline ∉ unterminated bs := by
  induction bs with
  | nil => simp [unterminated]
  | cons b bs ih =>
    rw [unterminated]
    split
    · exact ih
    · assumption

theorem line_cases (bs : List Byte) :
    newline ∉ bs ∨ ∃ l r, bs = l ++ newline :: r ∧ newline ∉ l := by
  by_cases h : newline ∈ bs
  · obtain ⟨l, r, heq, hl⟩ := List.eq_append_cons_of_mem h
    exact .inr ⟨l, r, heq, hl⟩
  · exact .inl h

/-- Lines found in the first part, and the rest of the lines with what the first part left over. -/
theorem terminated_append (us vs : List Byte) :
    terminated (us ++ vs) = terminated us ++ terminated (unterminated us ++ vs) := by
  induction hn : us.length using Nat.strongRecOn generalizing us with
  | _ n ih =>
    rcases line_cases us with hno | ⟨l, r, rfl, hl⟩
    · rw [terminated_none hno, unterminated_none hno, List.nil_append]
    · rw [List.append_assoc, List.cons_append, terminated_line hl, terminated_line hl, unterminated_line,
        ih r.length (by simp at hn; omega) r rfl, List.cons_append]

theorem shown_append (pattern : List Byte) (ls ls' : List (List Byte)) :
    shown pattern (ls ++ ls') = shown pattern ls ++ shown pattern ls' := by
  simp [shown]

theorem shown_eq_nil (pattern : List Byte) (ls : List (List Byte)) :
    shown pattern ls = [] ↔ ∀ l ∈ ls, matchText pattern l = false := by
  simp [shown, List.flatMap_eq_nil_iff, List.mem_filter]

theorem strchr_none {buf : Nat → Byte} (h : Text buf p bs) (h0 : 0 ∉ bs) (hn : newline ∉ bs)
    (hend : buf (p + bs.length) = 0) : strchr buf newline k p = none := by
  induction bs generalizing p k with
  | nil =>
    cases k with
    | zero => rfl
    | succ k => rw [strchr, if_pos (by simpa using hend)]
  | cons b bs ih =>
    cases k with
    | zero => rfl
    | succ k =>
      obtain ⟨hb0, h0⟩ := not_or.mp (mt List.mem_cons.mpr h0)
      obtain ⟨hbn, hn⟩ := not_or.mp (mt List.mem_cons.mpr hn)
      rw [strchr, h.1, if_neg (Ne.symm hb0), if_neg (Ne.symm hbn)]
      refine ih h.2 h0 hn ?_
      rw [← hend, List.length_cons]
      congr 1
      omega

theorem strchr_some {buf : Nat → Byte} (h : Text buf p (l ++ newline :: bs)) (h0 : 0 ∉ l) (hn : newline ∉ l)
    (hk : l.length < k) : strchr buf newline k p = some (p + l.length) := by
  induction l generalizing p k with
  | nil =>
    obtain ⟨k, rfl⟩ : ∃ n, k = n + 1 := ⟨k - 1, by omega⟩
    rw [strchr, h.1, if_neg (by decide), if_pos rfl]
    rfl
  | cons b l ih =>
    obtain ⟨k, rfl⟩ : ∃ n, k = n + 1 := ⟨k - 1, by omega⟩
    obtain ⟨hb0, h0⟩ := not_or.mp (mt List.mem_cons.mpr h0)
    obtain ⟨hbn, hn⟩ := not_or.mp (mt List.mem_cons.mpr hn)
    rw [List.length_cons] at hk
    rw [strchr, h.1, if_neg (Ne.symm hb0), if_neg (Ne.symm hbn), ih h.2 h0 hn (by omega), List.length_cons]
    congr 1
    omega

theorem copyUp_below (buf : Nat → Byte) (h : k < dst) : copyUp buf dst src n k = buf k := by
  induction n generalizing buf dst src with
  | zero => rfl
  | succ n ih =>
    rw [copyUp, ih _ (by omega), update_of_ne (by omega)]

theorem copyUp_text {buf : Nat → Byte} (h : Text buf src bs) (hlt : dst < src) :
    Text (copyUp buf dst src bs.length) dst bs := by
  induction bs generalizing buf dst src with
  | nil => trivial
  | cons b bs ih =>
    rw [List.length_cons, copyUp]
    refine ⟨?_, ?_⟩
    · rw [copyUp_below _ (Nat.lt_succ_self dst), update_self]
      exact h.1
    · refine ih (h.2.congr fun i hi _ => ?_) (by omega)
      rw [update_of_ne (by omega)]

theorem copyDown_at (buf : Nat → Byte) (hle : src ≤ dst) (hi : i < n) :
    copyDown buf dst src n (dst + i) = buf (src + i) := by
  have habove : ∀ (n : Nat) (buf : Nat → Byte) k, dst + n ≤ k → copyDown buf dst src n k = buf k := by
    intro n
    induction n with
    | zero => exact fun _ _ _ => rfl
    | succ n ih =>
      intro buf k hk
      rw [copyDown, ih _ _ (by omega), update_of_ne (by omega)]
  induction n generalizing buf with
  | zero => omega
  | succ n ih =>
    rw [copyDown]
    by_cases hin : i = n
    · rw [hin, habove n _ _ (Nat.le_refl _), update_self]
    · rw [ih _ (by omega), update_of_ne (by omega)]

theorem memmove_text {buf : Nat → Byte} (h : Text buf src bs) : Text (memmove buf dst src bs.length) dst bs := by
  unfold memmove
  split
  · rename_i hlt
    exact copyUp_text h hlt
  · rename_i hle
    refine text_of_getElem fun i hi => ?_
    have hslice := congrArg (fun l => l[i]?) h.slice
    simp only [Lib.slice, List.getElem?_map, List.getElem?_range hi, Option.map_some, hi,
      List.getElem?_eq_getElem, Option.some.injEq] at hslice
    rw [copyDown_at buf (by omega) hi]
    exact hslice

/-- A line in the buffer is written if it matches, and the texts behind it stay. -/
theorem Scan.line_spec (pattern : List Byte) {s : Scan} (h : Text s.buf s.p (l ++ newline :: bs)) (h0 : 0 ∉ l)
    (hk : s.p + l.length < bufsize) :
    (s.line pattern (s.p + l.length)).p = s.p + l.length + 1 ∧
      (s.line pattern (s.p + l.length)).out = s.out ++ shown pattern [l] ∧
      ∀ i, s.p + l.length < i → (s.line pattern (s.p + l.length)).buf i = s.buf i := by
  obtain ⟨hl, hnl, hbs⟩ : Text s.buf s.p l ∧ s.buf (s.p + l.length) = newline ∧
    Text s.buf (s.p + l.length + 1) bs := text_append.mp h
  have hcut : Text (update s.buf (s.p + l.length) 0) s.p l :=
    hl.congr fun i _ hi => update_of_ne (by omega) _ _
  have hstring : stringAt (update s.buf (s.p + l.length) 0) (bufsize - s.p) s.p = l :=
    stringAt_eq hcut h0 (update_self _ _ _) (by omega)
  unfold Scan.line
  dsimp only
  rw [hstring]
  by_cases hm : matchText pattern l = true
  · rw [if_pos hm]
    have hback : update (update s.buf (s.p + l.length) 0) (s.p + l.length) newline = s.buf := by
      rw [update_idem, ← hnl, update_eq_self]
    have htext : Text s.buf s.p (l ++ [newline]) := text_append.mpr ⟨hl, hnl, trivial⟩
    rw [hback]
    refine ⟨rfl, ?_, fun _ _ => rfl⟩
    dsimp only
    rw [show s.p + l.length + 1 - s.p = (l ++ [newline]).length by simp; omega, htext.slice]
    simp [shown, hm]
  · rw [if_neg hm]
    refine ⟨rfl, ?_, fun i hi => update_of_ne (by omega) _ _⟩
    simp [shown, hm]

/-- The inner loop writes the lines of the text in the buffer that match. -/
theorem Scan.lines_spec (pattern : List Byte) {s : Scan} (h : Text s.buf s.p bs) (h0 : 0 ∉ bs) (hend : s.buf (s.p + bs.length) = 0)
    (hk : s.p + bs.length < bufsize) (hf : bs.length < fuel) :
    (Scan.lines pattern fuel s).out = s.out ++ shown pattern (terminated bs) ∧
      (Scan.lines pattern fuel s).p + (unterminated bs).length = s.p + bs.length ∧
      Text (Scan.lines pattern fuel s).buf (Scan.lines pattern fuel s).p (unterminated bs) := by
  induction fuel generalizing s bs with
  | zero => omega
  | succ fuel ih =>
    rw [Scan.lines]
    rcases line_cases bs with hno | ⟨l, r, rfl, hl⟩
    · rw [strchr_none h h0 hno hend, terminated_none hno, unterminated_none hno]
      exact ⟨by simp [shown], rfl, h⟩
    · have h0l : 0 ∉ l := fun hm => h0 (List.mem_append_left _ hm)
      have h0r : 0 ∉ r := fun hm => h0 (List.mem_append_right _ (List.mem_cons_of_mem _ hm))
      rw [List.length_append, List.length_cons] at hend hk hf
      rw [strchr_some h h0l hl (by omega)]
      obtain ⟨hp, hout, hbuf⟩ := Scan.line_spec pattern h h0l (by omega)
      have htext := (text_append.mp h).2.2
      dsimp only
      generalize s.line pattern (s.p + l.length) = s' at hp hout hbuf ⊢
      have hp' : s'.p + r.length = s.p + (l.length + (r.length + 1)) := by omega
      obtain ⟨h1, h2, h3⟩ := ih (s := s')
        (show Text s'.buf s'.p r by rw [hp]; exact htext.congr fun i hi _ => hbuf i (by omega)) h0r
        (by rw [hp', hbuf _ (by omega)]; exact hend) (by omega) (by omega)
      refine ⟨?_, ?_, ?_⟩
      · rw [h1, hout, terminated_line hl, List.append_assoc, ← shown_append]
        rfl
      · rw [unterminated_line, h2, List.length_append, List.length_cons]
        exact hp'
      · rw [unterminated_line]
        exact h3

def Fits (l : List Byte) : Bool := decide (l.length + 1 < bufsize)

theorem terminated_fits {bs : List Byte} (hl : bs.length < bufsize) : ∀ l ∈ terminated bs, Fits l = true := by
  induction hn : bs.length using Nat.strongRecOn generalizing bs with
  | _ n ih =>
    rcases line_cases bs with hno | ⟨l, r, rfl, hl'⟩
    · simp [terminated_none hno]
    · rw [terminated_line hl']
      rw [List.length_append, List.length_cons] at hl hn
      intro l' hmem
      rcases List.mem_cons.mp hmem with rfl | hmem
      · simp only [Fits, decide_eq_true_eq]
        omega
      · exact ih r.length (by omega) (by omega) rfl l' hmem

/-- The outer loop writes the lines that match, up to the first that does not fit. -/
theorem grepLoop_spec {buf : Nat → Byte} (h : Text buf 0 t) (hm : t.length < bufsize) (hn : newline ∉ t)
    (h0 : 0 ∉ t ++ rest) (hf : rest.length < fuel) :
    grepLoop pattern chunk fuel i buf t.length rest out =
      some (out ++ shown pattern ((terminated (t ++ rest)).takeWhile Fits)) := by
  induction fuel generalizing i buf t rest out with
  | zero => omega
  | succ fuel ih =>
    rw [grepLoop]
    dsimp only
    split
    · rename_i hpos
      generalize hcount : readCount (chunk i) (bufsize - t.length - 1) rest.length = n at hpos
      have hle : n ≤ rest.length ∧ t.length + n < bufsize := by
        unfold readCount at hcount
        omega
      have hlen : (t ++ rest.take n).length = t.length + n := by
        rw [List.length_append, List.length_take, Nat.min_eq_left hle.1]
      have htext : Text (update (splice buf t.length (rest.take n)) (t.length + n) 0) 0
          (t ++ rest.take n) := by
        refine Text.congr (text_append.mpr ⟨?_, ?_⟩ : Text (splice buf t.length (rest.take n)) 0 _) ?_
        · exact h.congr fun j _ hj => splice_before _ _ (by omega)
        · rw [Nat.zero_add]
          exact text_splice _ _ _
        · intro j _ hj
          rw [hlen] at hj
          exact update_of_ne (by omega) _ _
      have h0' : 0 ∉ t ++ rest.take n := fun hmem => h0 (by
        rcases List.mem_append.mp hmem with ht | hr
        · exact List.mem_append_left _ ht
        · exact List.mem_append_right _ (List.mem_of_mem_take hr))
      have hsplit : t ++ rest = (t ++ rest.take n) ++ rest.drop n := by
        rw [List.append_assoc, List.take_append_drop]
      obtain ⟨hout, hp, htail⟩ := Scan.lines_spec pattern
        (s := ⟨update (splice buf t.length (rest.take n)) (t.length + n) 0, 0, out⟩) htext h0'
        (by rw [hlen, Nat.zero_add]; exact update_self _ _ _) (by dsimp only; rw [hlen]; omega)
        (show _ < bufsize by rw [hlen]; omega)
      dsimp only at hout hp
      generalize Scan.lines pattern bufsize
        ⟨update (splice buf t.length (rest.take n)) (t.length + n) 0, 0, out⟩ = s at hout hp htail ⊢
      rw [if_pos (by omega)]
      have hleft : t.length + n - s.p = (unterminated (t ++ rest.take n)).length := by
        rw [hlen] at hp
        omega
      rw [hleft, ih (memmove_text htail) ?_ (not_mem_unterminated _) ?_ ?_, hout]
      · rw [hsplit, terminated_append (t ++ rest.take n), List.takeWhile_append_of_pos
          (terminated_fits (by omega)), shown_append, List.append_assoc]
      · omega
      · intro hmem
        rw [hsplit] at h0
        rcases List.mem_append.mp hmem with hu | hd
        · exact h0 (List.mem_append_left _ ((unterminated_suffix _).mem hu))
        · exact h0 (List.mem_append_right _ hd)
      · rw [List.length_drop]
        omega
    · rename_i hzero
      have hnone : (terminated (t ++ rest)).takeWhile Fits = [] := by
        rcases Nat.eq_zero_or_pos rest.length with hrest | hrest
        · rw [List.length_eq_zero_iff.mp hrest, List.append_nil, terminated_none hn]
          rfl
        · have hfull : t.length + 1 = bufsize := by
            unfold readCount at hzero
            omega
          rcases line_cases rest with hno | ⟨l, r, rfl, hl⟩
          · rw [terminated_none fun hmem => (List.mem_append.mp hmem).elim hn hno]
            rfl
          · rw [← List.append_assoc, terminated_line fun hmem => (List.mem_append.mp hmem).elim hn hl]
            refine List.takeWhile_cons_of_neg ?_
            simp only [Fits, List.length_append, decide_eq_true_eq]
            omega
      rw [hnone]
      simp [shown]

/-- `grep` of a file without NUL bytes returns, whatever the chunks, and what it has written does not
depend on them. -/
theorem grep_eq (h0 : 0 ∉ content) (chunk : Nat → Nat) (hf : content.length < fuel) :
    grep pattern chunk fuel content = some (shown pattern ((terminated content).takeWhile Fits)) := by
  have hloop : grepLoop pattern chunk fuel 0 (fun _ => 0) 0 content [] =
      some ([] ++ shown pattern ((terminated ([] ++ content)).takeWhile Fits)) :=
    grepLoop_spec (t := []) trivial (by decide) (by simp) (by simpa using h0) hf
  simpa [grep] using hloop

/-- What `grep` prints of a file without NUL bytes, whatever the chunks it reads. It is all the lines
that match exactly if none of them comes at or after the first line that does not fit the buffer with
its newline. -/
theorem grep_prints_iff (pattern : List Byte) (chunk : Nat → Nat) (h0 : 0 ∉ content) :
    ∃ out, (∀ fuel, content.length < fuel → grep pattern chunk fuel content = some out) ∧
      (out = shown pattern (terminated content) ↔
        ∀ l ∈ (terminated content).dropWhile Fits, matchText pattern l = false) := by
  refine ⟨_, fun fuel hf => grep_eq h0 chunk hf, ?_⟩
  rw [← shown_eq_nil]
  have hsplit := shown_append pattern ((terminated content).takeWhile Fits) ((terminated content).dropWhile Fits)
  rw [List.takeWhile_append_dropWhile] at hsplit
  rw [hsplit]
  exact ⟨fun he => List.self_eq_append_right.mp he, fun he => by rw [he, List.append_nil]⟩

/-- The lines "ab" and "cb" of a file read in chunks of two, and the pattern "^c". -/
theorem grep_prints_iff_two : ∃ out,
    (∀ fuel, 6 < fuel → grep [94, 99] (fun _ => 2) fuel [97, 98, 10, 99, 98, 10] = some out) ∧
      out = [99, 98, 10] := by
  obtain ⟨out, hrun, hiff⟩ := grep_prints_iff [94, 99] (fun _ => 2)
    (by decide : 0 ∉ ([97, 98, 10, 99, 98, 10] : List Byte))
  exact ⟨out, hrun, (hiff.mpr (by decide)).trans (by decide)⟩

def longLine (n : Nat) : List Byte := List.replicate n 97 ++ newline :: [98, newline]

theorem terminated_longLine (n : Nat) : terminated (longLine n) = [List.replicate n 97, [98]] := by
  have hno : newline ∉ List.replicate n 97 := fun h => absurd (List.eq_of_mem_replicate h) (by decide)
  rw [longLine, terminated_line hno]
  rfl

theorem shown_longLine (n : Nat) : shown [98] (terminated (longLine n)) = [98, newline] := by
  have hno : matchText [98] (List.replicate n 97) = false := by
    change matchAny [98] (List.replicate n 97) = false
    induction n with
    | zero => rfl
    | succ n ih =>
      rw [List.replicate_succ, matchAny, ih]
      rfl
  rw [terminated_longLine, shown, List.filter_cons_of_neg (by simp [hno])]
  rfl

theorem grep_longLine (hn : bufsize ≤ n + 1) (chunk : Nat → Nat) :
    grep [98] chunk (n + 4) (longLine n) = some [] := by
  have h0 : 0 ∉ longLine n := by
    intro h
    rcases List.mem_append.mp h with h | h
    · exact absurd (List.eq_of_mem_replicate h) (by decide)
    · revert h
      decide
  have hlong : Fits (List.replicate n 97) = false := by
    rw [Fits, List.length_replicate, decide_eq_false_iff_not]
    omega
  rw [grep_eq h0 chunk (by rw [longLine, List.length_append, List.length_replicate]; simp), terminated_longLine,
    List.takeWhile_cons_of_neg (by rw [hlong]; decide)]
  rfl

/-- A line of 1023 bytes fills the buffer before its newline is read, and `read` of no bytes ends the
loop: nothing of the file is printed. -/
theorem grep_stops_at_long_line :
    grep [98] (fun _ => bufsize) 1027 (longLine 1023) = some [] ∧
      shown [98] (terminated (longLine 1023)) = [98, newline] :=
  ⟨grep_longLine (by decide) _, shown_longLine 1023⟩

end Xv6Filter.Grep
