import Mathlib.Algebra.BigOperators.Group.Finset.Basic
import Xv6Filter.Kernel.Writers
import Xv6Filter.Proofs.FileBytes
import Xv6Filter.Proofs.Locks

namespace Xv6Filter.Proofs
open Lib Function

def UserBuf.Given (b : UserBuf) (n : Nat) : Prop := ∀ t m, t + m ≤ n → m ≤ b.reach t m

theorem UserBuf.Given.readable {b : UserBuf} (h : UserBuf.Given b n) (hlen : i + len ≤ n) :
    Readable (b.copyin i) len := by
  intro _ t m ht
  exact decide_eq_true (h (i + t) m (by omega))

theorem Locked.stored (h : Locked ls fs) (hst : Stored n ip g off d stop fs fs') : Locked ls fs' := by
  intro e
  rw [hst.entry]
  by_cases he : e = ip
  · subst he
    rw [update_self]
    exact h e
  · rw [update_of_ne he]
    exact h e

def overwrite (a : Nat) (t c : List Byte) : List Byte := t.take a ++ c ++ t.drop (a + c.length)

theorem overwrite_append {t : List Byte} (ha : a ≤ t.length) (c bs : List Byte) :
    overwrite (a + c.length) (overwrite a t c) bs = overwrite a t (c ++ bs) := by
  have hlen : (t.take a ++ c).length = a + c.length := by
    rw [List.length_append, List.length_take, Nat.min_eq_left ha]
  have htake : (overwrite a t c).take (a + c.length) = t.take a ++ c := List.take_left' hlen
  have hdrop : (overwrite a t c).drop (a + c.length + bs.length) = t.drop (a + (c ++ bs).length) := by
    have hskip : a + c.length + bs.length = (t.take a ++ c).length + bs.length := by rw [hlen]
    rw [overwrite, hskip, List.drop_length_add_append, List.drop_drop, Nat.add_assoc, ← List.length_append]
  rw [overwrite, htake, hdrop, overwrite, List.append_assoc (t.take a)]

structure SharedFile (f : Fp) (n limit : Nat) (k : Kernel) : Prop where
  consistent : Consistent k
  unlocked : Locked [] k.fs
  type : (k.file f).type = .inode
  writable : (k.file f).writable = true
  inum : (k.fs.inode (k.file f).ip).inum = n
  within : (k.file f).off ≤ (k.fs.dinode n).size
  room : need k.fs.data (k.fs.dinode n) (placesFor limit) ≤ freeBlocks k.fs
  small : limit ≤ maxfile * bsize

/-- One transaction of `filewrite` stores all its bytes at the offset and advances it. -/
theorem SharedFile.writeChunk (h : SharedFile f n limit k) {src : UserBuf} (hsrc : UserBuf.Given src count)
    (hi : i + len ≤ count) (hlen : len < 2 ^ 32) (hfit : (k.file f).off + len ≤ limit) :
    ∃ k', k.writeChunk f src i len = .ok ((len : Int), k') ∧ SharedFile f n limit k' ∧
      (k'.file f).off = (k.file f).off + len ∧
      fileText k'.fs n = overwrite (k.file f).off (fileText k.fs n) (slice src.byte i len) := by
  have hk := h.consistent
  have hpos := hk.inodes.file_pos (.inl h.type)
  have hlock := (hk.lockFile (.inl h.type)).and (h.unlocked.ilock List.not_mem_nil hpos)
  have hchunk := hk.writeChunk h.type h.writable src i hlen
  unfold Kernel.writeChunk at hchunk ⊢
  cases hrun : k.fs.ilock (k.file f).ip with
  | error e =>
    obtain ⟨hp, rfl⟩ := hlock.of_error hrun
    exact absurd rfl hp.2.1
  | ok fs1 =>
    obtain ⟨⟨hb, hd⟩, hl1⟩ := hlock.of_ok hrun
    rw [h.inum] at hb
    have hwithin := h.within
    rw [← hd.dinode] at hwithin
    have hroom : need fs1.data (fs1.dinode n) (placesFor limit) ≤ freeBlocks fs1 := by
      have := h.room
      simp only [freeBlocks, hd.data, hd.dinode, hd.used, hd.sb] at this ⊢
      exact this
    have hread := hsrc.readable hi
    rcases hb.copy.writei hb.sane.acct (copies_user src i len) hlen () (k.file f).off with
      ⟨-, hwhy⟩ | ⟨d, stop, _, fs2, hwrite, hd', -, -, -, hst, hclean, hlogs, hcount, hfull⟩
    · have := h.small
      omega
    obtain rfl := hclean (.inr hread)
    have hplaces : placesFor ((k.file f).off + len) ≤ placesFor limit := placesFor_mono hfit
    have hbalance := hcount (placesFor limit) hplaces (placesFor_le h.small)
    obtain rfl : d = len := by
      by_contra hne
      obtain ⟨hmiss, hzero⟩ := (hfull hread (by omega)).1
      have hlt : ((k.file f).off + d) / bsize * bsize < limit := by
        have := Nat.div_mul_le_self ((k.file f).off + d) bsize
        omega
      have := need_pos (slotOf_lt_placesFor hlt) hmiss
      omega
    have hn : (fs1.dinode n).type ≠ tDir := by
      rw [hd.dinode, ← h.inum]
      exact hk.inodes.plain f h.type h.writable
    have hb2 := hb.stored hst hlogs.sb fun hdir => absurd hdir hn
    obtain ⟨fs3, hunlock, hl3⟩ := ((hl1.stored hst).iunlock List.not_mem_nil hb2.ref_pos).result
    obtain ⟨hb3, hd3⟩ := (hb2.iunlock (k.file f).ip).of_ok hunlock
    rw [hrun, ok_bind, hwrite, ok_bind] at hchunk
    rw [ok_bind, hwrite, ok_bind]
    dsimp only at hchunk ⊢
    rw [hunlock] at hchunk ⊢
    have hfile : (if (0 : Int) < (d : Int) then { k.file f with off := (k.file f).off + (d : Int).toNat } else k.file f) =
        { k.file f with off := (k.file f).off + d } := by
      split
      · rfl
      · obtain rfl : d = 0 := by omega
        rfl
    rw [hfile] at hchunk ⊢
    rw [ok_bind] at hchunk ⊢
    obtain ⟨hk', -⟩ := hchunk
    refine ⟨_, rfl, ⟨hk', hl3, ?_, ?_, ?_, ?_, ?_, h.small⟩, ?_, ?_⟩
    · simp [h.type]
    · simp [h.writable]
    · simp [hb3.inum_eq]
    · simp only [Kernel.setFile_file, update_self, Kernel.setFile_fs, hd3.dinode]
      rw [hst.shape]
      exact Nat.le_max_right ..
    · simp only [Kernel.setFile_fs]
      have hsame : need fs3.data (fs3.dinode n) (placesFor limit) = need fs2.data (fs2.dinode n) (placesFor limit) := by
        rw [hd3.data, hd3.dinode]
      have hfree : freeBlocks fs3 = freeBlocks fs2 := by
        simp only [freeBlocks, hd3.used, hd3.sb]
      omega
    · simp
    · have htext := hst.fileText_eq hwithin
      simp only [Kernel.setFile_fs]
      have hold : fileText fs1 n = fileText k.fs n := by
        simp only [fileText, hd.data, hd.dinode]
      have hnew : fileText fs3 n = fileText fs2 n := by
        simp only [fileText, hd3.data, hd3.dinode]
      rw [hnew, htext, hold, overwrite, length_slice]
      congr 2
      apply List.map_congr_left
      intro j _
      dsimp only
      congr 1
      omega

theorem SharedFile.filewriteLoop (h : SharedFile f n limit k) {src : UserBuf} (hsrc : UserBuf.Given src count)
    (hcount : count < 2 ^ 32) (hi : i ≤ count) (hfit : (k.file f).off + (count - i) ≤ limit) (rounds : Nat)
    (hrounds : count - i ≤ rounds) :
    ∃ k', Kernel.filewriteLoop f src rounds k i count = .ok (count, k') ∧
      (k'.file f).off = (k.file f).off + (count - i) ∧
      fileText k'.fs n = overwrite (k.file f).off (fileText k.fs n) (slice src.byte i (count - i)) := by
  have hnone : fileText k.fs n = overwrite (k.file f).off (fileText k.fs n) (slice src.byte i 0) := by
    simp [overwrite, slice]
  induction rounds generalizing k i with
  | zero =>
    obtain rfl : i = count := by omega
    rw [Nat.sub_self]
    exact ⟨k, rfl, rfl, hnone⟩
  | succ rounds ih =>
    unfold Kernel.filewriteLoop
    by_cases hmore : count ≤ i
    · obtain rfl : i = count := by omega
      rw [if_pos hmore, Nat.sub_self]
      exact ⟨k, rfl, rfl, hnone⟩
    · rw [if_neg hmore]
      dsimp only
      have hpos : 0 < Kernel.maxWrite := by decide
      generalize hc : min (count - i) Kernel.maxWrite = c
      obtain ⟨k1, hrun, h1, hoff1, htext1⟩ := h.writeChunk hsrc (show i + c ≤ count by omega) (by omega) (by omega)
      rw [hrun]
      dsimp only
      rw [if_neg (by simp)]
      obtain ⟨k2, hrun2, hoff2, htext2⟩ := ih h1 (i := i + c) (by omega) (by omega) (by omega) (by simp [overwrite, slice])
      have hlen : (slice src.byte i c).length = c := length_slice ..
      have hstart : (k.file f).off ≤ (fileText k.fs n).length := by
        rw [length_fileText]
        exact h.within
      have happ := overwrite_append hstart (slice src.byte i c) (slice src.byte (i + c) (count - (i + c)))
      rw [hlen, ← slice_add] at happ
      refine ⟨k2, hrun2, by omega, ?_⟩
      rw [htext2, hoff1, htext1, happ]
      congr 2
      omega

section Writers

variable {ι : Type} [DecidableEq ι]

def joined (cs : List (ι × List Byte)) : List Byte := cs.flatMap Prod.snd

omit [DecidableEq ι] in
@[simp] theorem joined_append (cs ds : List (ι × List Byte)) : joined (cs ++ ds) = joined cs ++ joined ds :=
  List.flatMap_append

def chunksOf (p : ι) (cs : List (ι × List Byte)) : List (ι × List Byte) := cs.filter fun c => c.1 = p

def unwritten (s : Writers ι) (p : ι) : List Byte := (s.pc p).elim [] Writing.rest

def PlainWrites (_ : Writers ι) : WriteEvent ι → Prop
  | .call _ src n => 0 ≤ n.toInt ∧ UserBuf.Given src n.toInt.toNat
  | .turn _ => True

/-- After the events `es` with the chunks `cs`: the file holds the chunks from the first offset on, in
the order they were written, and each process's chunks are what it was asked to write so far. -/
structure Interleaved [Fintype ι] (f : Fp) (n limit off0 : Nat) (text0 : List Byte) (es : List (WriteEvent ι))
    (cs : List (ι × List Byte)) (s : Writers ι) : Prop where
  file : SharedFile f n limit s.kernel
  off : (s.kernel.file f).off = off0 + (joined cs).length
  text : fileText s.kernel.fs n = overwrite off0 text0 (joined cs)
  order : ∀ p, joined (chunksOf p cs) ++ unwritten s p =
    (WriteEvent.calls p es).flatMap fun c => slice c.1.byte 0 c.2
  sum : (joined cs).length + ∑ p, (unwritten s p).length = WriteEvent.total es
  ready : ∀ p w, s.pc p = some w → w.i ≤ w.n ∧ w.n < 2 ^ 31 ∧ UserBuf.Given w.src w.n

namespace Interleaved

variable [Fintype ι] {f : Fp} {n limit off0 : Nat} {text0 : List Byte} {es : List (WriteEvent ι)}
  {cs : List (ι × List Byte)} {s : Writers ι} {p : ι}

/-- Process `p` moves on: `ds` are the chunks then, and `asked` the bytes it was asked to write in this step. -/
theorem sum_goto (h : (joined cs).length + ∑ q, (unwritten s q).length = total) (p : ι) (k : Kernel) (w : Option Writing)
    (ds : List (ι × List Byte)) (asked : Nat)
    (hw : (joined ds).length + (w.elim [] Writing.rest).length = (joined cs).length + (unwritten s p).length + asked) :
    (joined ds).length + ∑ q, (unwritten ({ s with kernel := k }.goto p w) q).length = total + asked := by
  have hsplit (g : ι → Nat) : ∑ q, g q = g p + ∑ q ∈ Finset.univ.erase p, g q :=
    (Finset.add_sum_erase _ _ (Finset.mem_univ p)).symm
  have hother : ∑ q ∈ Finset.univ.erase p, (unwritten ({ s with kernel := k }.goto p w) q).length =
      ∑ q ∈ Finset.univ.erase p, (unwritten s q).length := by
    apply Finset.sum_congr rfl
    intro q hq
    simp only [unwritten, Writers.goto, update_of_ne (Finset.ne_of_mem_erase hq)]
  have hhere : (unwritten ({ s with kernel := k }.goto p w) p).length = (w.elim [] Writing.rest).length := by
    simp only [unwritten, Writers.goto, update_self]
  rw [hsplit] at h ⊢
  omega

theorem unwritten_le (h : Interleaved f n limit off0 text0 es cs s) (p : ι) :
    (joined cs).length + (unwritten s p).length ≤ WriteEvent.total es := by
  have hsum := h.sum
  have hle : (unwritten s p).length ≤ ∑ q, (unwritten s q).length :=
    Finset.single_le_sum (f := fun q => (unwritten s q).length) (fun _ _ => Nat.zero_le _) (Finset.mem_univ p)
  omega

theorem call (h : Interleaved f n limit off0 text0 es cs s) (hp : s.pc p = none) {src : UserBuf} {count : I32}
    (hpos : 0 ≤ count.toInt) (hsrc : UserBuf.Given src count.toInt.toNat) :
    Interleaved f n limit off0 text0 (es ++ [.call p src count]) cs (s.goto p (some ⟨src, count.toInt.toNat, 0⟩)) := by
  have hidle : unwritten s p = [] := by
    rw [unwritten, hp]
    rfl
  refine ⟨h.file, h.off, h.text, ?_, ?_, ?_⟩
  · intro q
    have hq := h.order q
    by_cases hqp : q = p
    · subst hqp
      rw [hidle, List.append_nil] at hq
      simp [hq, unwritten, Writers.goto, WriteEvent.calls, Writing.rest]
    · have hne : p ≠ q := fun heq => hqp heq.symm
      simp only [unwritten, Writers.goto, update_of_ne hqp, WriteEvent.calls, List.filterMap_append,
        List.filterMap_cons, List.filterMap_nil, if_neg hne, List.append_nil] at hq ⊢
      exact hq
  · have hgo := sum_goto h.sum p s.kernel (some ⟨src, count.toInt.toNat, 0⟩) cs count.toInt.toNat
      (by simp [Writing.rest, hidle])
    simpa [WriteEvent.total] using hgo
  · intro q w hw
    by_cases hqp : q = p
    · subst hqp
      simp only [Writers.goto, update_self, Option.some.injEq] at hw
      subst hw
      have hlt := BitVec.toInt_lt (x := count)
      exact ⟨Nat.zero_le _, by dsimp only; omega, hsrc⟩
    · simp only [Writers.goto, update_of_ne hqp] at hw
      exact h.ready q w hw

theorem rest_split (w : Writing) :
    slice w.src.byte w.i w.chunk ++ Writing.rest { w with i := w.i + w.chunk } = w.rest := by
  have hle : w.chunk ≤ w.n - w.i := Nat.min_le_left ..
  simp only [Writing.rest]
  rw [← slice_add]
  congr 1
  omega

omit [Fintype ι] in
theorem calls_turn (p q : ι) (es : List (WriteEvent ι)) :
    WriteEvent.calls q (es ++ [.turn p]) = WriteEvent.calls q es := by
  simp [WriteEvent.calls]

omit [DecidableEq ι] [Fintype ι] in
theorem total_turn (p : ι) (es : List (WriteEvent ι)) : WriteEvent.total (es ++ [.turn p]) = WriteEvent.total es := by
  simp [WriteEvent.total]

theorem finish (h : Interleaved f n limit off0 text0 es cs s) (hp : s.pc p = some w) (hdone : w.n ≤ w.i) :
    Interleaved f n limit off0 text0 (es ++ [.turn p]) cs (s.goto p none) := by
  have hrest : unwritten s p = [] := by
    rw [unwritten, hp]
    simp [Writing.rest, Nat.sub_eq_zero_of_le hdone, slice]
  refine ⟨h.file, h.off, h.text, ?_, ?_, ?_⟩
  · intro q
    rw [calls_turn, ← h.order q]
    by_cases hqp : q = p
    · subst hqp
      rw [hrest]
      simp [unwritten, Writers.goto]
    · simp only [unwritten, Writers.goto, update_of_ne hqp]
  · have hgo := sum_goto h.sum p s.kernel none cs 0 (by simp [hrest])
    rw [total_turn]
    exact hgo
  · intro q w' hw'
    by_cases hqp : q = p
    · subst hqp
      simp [Writers.goto] at hw'
    · simp only [Writers.goto, update_of_ne hqp] at hw'
      exact h.ready q w' hw'

theorem chunk (h : Interleaved f n limit off0 text0 es cs s) (hstart : off0 ≤ text0.length)
    (hlimit : off0 + WriteEvent.total es ≤ limit) (hp : s.pc p = some w) (hmore : w.i < w.n) :
    ∃ k, s.kernel.writeChunk f w.src w.i w.chunk = .ok ((w.chunk : Int), k) ∧
      Interleaved f n limit off0 text0 (es ++ [.turn p]) (cs ++ [(p, slice w.src.byte w.i w.chunk)])
        ({ s with kernel := k }.goto p (some { w with i := w.i + w.chunk })) := by
  obtain ⟨hi, hsmall, hsrc⟩ := h.ready p w hp
  have hle : w.chunk ≤ w.n - w.i := Nat.min_le_left ..
  have hunwritten : unwritten s p = w.rest := by
    rw [unwritten, hp]
    rfl
  have hroom := h.unwritten_le p
  have hrest : w.rest.length = w.n - w.i := length_slice ..
  rw [hunwritten, hrest] at hroom
  have hoff := h.off
  obtain ⟨k, hrun, hfile, hoff', htext⟩ := h.file.writeChunk hsrc (show w.i + w.chunk ≤ w.n by omega) (by omega)
    (by omega)
  have hbytes : joined [(p, slice w.src.byte w.i w.chunk)] = slice w.src.byte w.i w.chunk := by simp [joined]
  have hlen : (slice w.src.byte w.i w.chunk).length = w.chunk := length_slice ..
  refine ⟨k, hrun, hfile, ?_, ?_, ?_, ?_, ?_⟩
  · simp only [Writers.goto, hoff', hoff, joined_append, List.length_append, hbytes, hlen, Nat.add_assoc]
  · simp only [Writers.goto, joined_append, hbytes]
    rw [htext, hoff, h.text]
    exact overwrite_append hstart (joined cs) _
  · intro q
    rw [calls_turn, ← h.order q]
    by_cases hqp : q = p
    · subst hqp
      rw [hunwritten, ← rest_split w]
      simp [chunksOf, unwritten, Writers.goto, joined]
    · have hne : p ≠ q := fun heq => hqp heq.symm
      simp [chunksOf, unwritten, Writers.goto, update_of_ne hqp, hne]
  · have hsplit := congrArg List.length (rest_split w)
    rw [List.length_append] at hsplit
    rw [total_turn]
    refine sum_goto h.sum p k _ _ 0 ?_
    rw [joined_append, List.length_append, hbytes, Option.elim_some, hunwritten]
    omega
  · intro q w' hw'
    by_cases hqp : q = p
    · subst hqp
      simp only [Writers.goto, update_self, Option.some.injEq] at hw'
      subst hw'
      exact ⟨by dsimp only; omega, hsmall, hsrc⟩
    · simp only [Writers.goto, update_of_ne hqp] at hw'
      exact h.ready q w' hw'

theorem step {s' : Writers ι} {e : WriteEvent ι} (h : Interleaved f n limit off0 text0 es cs s)
    (hstart : off0 ≤ text0.length) (hlimit : off0 + WriteEvent.total es ≤ limit) (hok : PlainWrites s e)
    (hs : Writers.step f s e = some s') :
    Interleaved f n limit off0 text0 (es ++ [e]) (cs ++ s.chunks e) s' := by
  cases e with
  | call p src count =>
    simp only [Writers.step, Option.ite_none_right_eq_some, Option.some.injEq, Option.isNone_iff_eq_none] at hs
    obtain ⟨hp, rfl⟩ := hs
    rw [Writers.chunks, List.append_nil]
    exact h.call hp hok.1 hok.2
  | turn p =>
    obtain ⟨w, hp, hs⟩ := Option.bind_eq_some_iff.mp hs
    simp only [Writers.chunks, hp]
    by_cases hdone : w.n ≤ w.i
    · simp only [Writers.turn, if_pos hdone] at hs
      cases hs
      rw [if_pos hdone, List.append_nil]
      exact h.finish hp hdone
    · obtain ⟨k, hrun, hnext⟩ := h.chunk hstart hlimit hp (Nat.not_le.mp hdone)
      simp only [Writers.turn, if_neg hdone, hrun, ne_eq, not_true_eq_false, if_false] at hs
      cases hs
      rw [if_neg hdone]
      exact hnext

theorem run {k : Kernel} (h : SharedFile f n limit k)
    (hr : Run (Writers.step f) PlainWrites ⟨k, fun _ => none⟩ es s)
    (hfit : (k.file f).off + WriteEvent.total es ≤ limit) :
    Interleaved f n limit (k.file f).off (fileText k.fs n) es
      (observe (Writers.step f) Writers.chunks es ⟨k, fun _ => none⟩) s := by
  have hstart : (k.file f).off ≤ (fileText k.fs n).length := by
    rw [length_fileText]
    exact h.within
  induction hr with
  | nil =>
    refine ⟨h, by simp [observe, joined], by simp [observe, joined, overwrite], ?_, ?_, by simp⟩
    · intro p
      simp [observe, joined, chunksOf, unwritten, WriteEvent.calls]
    · simp [observe, joined, unwritten, WriteEvent.total]
  | @snoc es t e u run meets next ih =>
    have hle : WriteEvent.total es ≤ WriteEvent.total (es ++ [e]) := by
      simp [WriteEvent.total]
    rw [run.observe_snoc]
    exact (ih (by omega)).step hstart (by omega) meets next

/-- A `filewrite` in progress can always go on: it writes its next chunk, or returns its count. -/
theorem progress (h : Interleaved f n limit off0 text0 es cs s) (hstart : off0 ≤ text0.length)
    (hlimit : off0 + WriteEvent.total es ≤ limit) (hp : s.pc p = some w) :
    ∃ s', Writers.step f s (.turn p) = some s' ∧
      if w.i < w.n then s'.pc p = some { w with i := w.i + w.chunk } ∧ 0 < w.chunk ∧
        Writers.returned f s (.turn p) = none
      else s'.pc p = none ∧ Writers.returned f s (.turn p) = some (w.n, (w.n : Int)) := by
  by_cases hmore : w.i < w.n
  · obtain ⟨k, hrun, -⟩ := h.chunk hstart hlimit hp hmore
    have hturn : s.turn f p w = .ok ({ s with kernel := k }.goto p (some { w with i := w.i + w.chunk }), none) := by
      simp only [Writers.turn, if_neg (Nat.not_le.mpr hmore), hrun, ne_eq, not_true_eq_false, if_false]
    have hpos : 0 < w.chunk := by
      have : 0 < Kernel.maxWrite := by decide
      simp only [Writing.chunk]
      omega
    refine ⟨_, by rw [Writers.step, hp, Option.bind_some, hturn]; rfl, ?_⟩
    rw [if_pos hmore, Writers.returned, hp, Option.bind_some, hturn]
    exact ⟨by simp [Writers.goto], hpos, rfl⟩
  · have hturn : s.turn f p w = .ok (s.goto p none, some (w.n : Int)) := by
      simp only [Writers.turn, if_pos (Nat.not_lt.mp hmore)]
    refine ⟨_, by rw [Writers.step, hp, Option.bind_some, hturn]; rfl, ?_⟩
    rw [if_neg hmore, Writers.returned, hp, Option.bind_some, hturn]
    exact ⟨by simp [Writers.goto], rfl⟩

end Interleaved

/-- Writes of several processes through one offset, in any interleaving of their transactions: the
chunks stand in the file one after the other from the first offset on, the offset is behind the last
one, the chunks of a process are what it was asked to write, in order, and no write stops before
its end. A write on its own stores its bytes and returns their number. -/
theorem shared_writes_keep_all [Fintype ι] {k : Kernel} (h : SharedFile f n limit k)
    (hr : Run (Writers.step f) PlainWrites (⟨k, fun _ => none⟩ : Writers ι) es s)
    (hfit : (k.file f).off + WriteEvent.total es ≤ limit) :
    (∃ cs, cs = observe (Writers.step f) Writers.chunks es ⟨k, fun _ => none⟩ ∧
      (s.kernel.file f).off = (k.file f).off + (joined cs).length ∧
      fileText s.kernel.fs n = overwrite (k.file f).off (fileText k.fs n) (joined cs) ∧
      (∀ p, joined (chunksOf p cs) ++ unwritten s p = (WriteEvent.calls p es).flatMap fun c => slice c.1.byte 0 c.2) ∧
      (joined cs).length + ∑ p, (unwritten s p).length = WriteEvent.total es) ∧
    (∀ p w, s.pc p = some w → ∃ s', Writers.step f s (.turn p) = some s' ∧
      if w.i < w.n then s'.pc p = some { w with i := w.i + w.chunk } ∧ 0 < w.chunk ∧
        Writers.returned f s (.turn p) = none
      else s'.pc p = none ∧ Writers.returned f s (.turn p) = some (w.n, (w.n : Int))) ∧
    ∀ (src : UserBuf) (count : I32) other, 0 ≤ count.toInt → UserBuf.Given src count.toInt.toNat →
      (k.file f).off + count.toInt.toNat ≤ limit →
      Runs (k.filewrite f src count.toInt other) fun r => r.1 = count.toInt ∧
        (r.2.file f).off = (k.file f).off + count.toInt.toNat ∧
        fileText r.2.fs n = overwrite (k.file f).off (fileText k.fs n) (slice src.byte 0 count.toInt.toNat) := by
  have hstart : (k.file f).off ≤ (fileText k.fs n).length := by
    rw [length_fileText]
    exact h.within
  have hall := Interleaved.run h hr hfit
  refine ⟨⟨_, rfl, hall.off, hall.text, hall.order, hall.sum⟩, fun p w hp => hall.progress hstart hfit hp, ?_⟩
  intro src count other hpos hsrc hroom
  have hlt := BitVec.toInt_lt (x := count)
  obtain ⟨k', hrun, hoff, htext⟩ := h.filewriteLoop hsrc (i := 0) (by omega) (Nat.zero_le _) (by omega) count.toInt.toNat
    (by omega)
  unfold Kernel.filewrite
  rw [if_neg (by simp [h.writable]), h.type]
  dsimp only
  rw [hrun]
  dsimp only
  rw [if_pos (by omega)]
  exact ⟨rfl, hoff, htext⟩

end Writers

def newFile : List (Slot × Call) := [(0, .opens (some (bytes ['x'])) 0x202)]

def SharesFirst (n limit : Nat) (k : Kernel) : Prop :=
  (∀ e, (k.fs.inode e).locked = false) ∧ (k.file 0).type = .inode ∧ (k.file 0).writable = true ∧
    (k.fs.inode (k.file 0).ip).inum = n ∧ (k.file 0).off ≤ (k.fs.dinode n).size ∧
    need k.fs.data (k.fs.dinode n) (placesFor limit) ≤ freeBlocks k.fs ∧ (k.file 0).off = 0

instance (n limit : Nat) (k : Kernel) : Decidable (SharesFirst n limit k) := inferInstanceAs (Decidable (_ ∧ _))

def filledBuf (b : Byte) : UserBuf := ⟨fun _ => b, fun _ m => m⟩

theorem filledBuf_given (b : Byte) (n : Nat) : UserBuf.Given (filledBuf b) n := fun _ m _ => Nat.le_refl m

def twoWrites : List (WriteEvent Bool) := [.call true (filledBuf 7) 5000] ++ [.call false (filledBuf 8) 3]

theorem Writers.turn_other [DecidableEq ι] {s s' : Writers ι} (h : Writers.step f s (.turn p) = some s') (hq : q ≠ p) :
    s'.pc q = s.pc q := by
  obtain ⟨w, -, h⟩ := Option.bind_eq_some_iff.mp h
  obtain ⟨⟨t, r⟩, ht, rfl⟩ := Option.map_eq_some_iff.mp h
  have ht := toOption_eq_some ht
  unfold Writers.turn at ht
  split at ht
  · cases ht
    exact Function.update_of_ne hq _ _
  · split at ht
    · cases ht
    · split at ht <;> cases ht <;> exact Function.update_of_ne hq _ _

/-- Two processes write 5000 and 3 bytes, a chunk each so far; and a write of 4000 bytes on its own. -/
theorem shared_writes_keep_all_twoChunks : ∃ k k', ∃ s : Writers Bool, bootDisk freshDisk = .ok k ∧
    Run Kernel.callStep anyEvent k newFile k' ∧
      Run (Writers.step 0) PlainWrites ⟨k', fun _ => none⟩ (twoWrites ++ [.turn true] ++ [.turn false]) s ∧
      (∃ cs : List (Bool × List Byte), (s.kernel.file 0).off = (joined cs).length ∧
        (joined cs).length + ∑ p, (unwritten s p).length = 5003 ∧
        fileText s.kernel.fs 2 = overwrite 0 (fileText k'.fs 2) (joined cs)) ∧
      Runs (k'.filewrite 0 (filledBuf 9) 4000 0) fun r => r.1 = 4000 := by
  obtain ⟨k, k', hb, hr, hunlocked, htype, hw, hn, hoff, hroom, hzero⟩ : ∃ k k', bootDisk freshDisk = .ok k ∧
      Run Kernel.callStep anyEvent k newFile k' ∧ SharesFirst 2 6000 k' := boot_replay (by decide +kernel)
  have hk := (freshDisk_wellFormed.started hb).consistent.run hr
  have hl : Locked [] k'.fs := fun e => by simp [hunlocked e]
  have hfile : SharedFile 0 2 6000 k' := ⟨hk, hl, htype, hw, hn, hoff, hroom, by decide⟩
  have hfirst : Run (Writers.step 0) PlainWrites (⟨k', fun _ => none⟩ : Writers Bool)
      ([] ++ [.call true (filledBuf 7) 5000]) _ := .snoc .nil ⟨by decide, filledBuf_given 7 _⟩ rfl
  have hcalls : Run (Writers.step 0) PlainWrites (⟨k', fun _ => none⟩ : Writers Bool) twoWrites _ :=
    .snoc hfirst ⟨by decide, filledBuf_given 8 _⟩ rfl
  have hfits : ∀ {es : List (WriteEvent Bool)}, WriteEvent.total es = 5003 →
      (k'.file 0).off + WriteEvent.total es ≤ 6000 := by
    intro es he
    omega
  obtain ⟨s1, hs1, -⟩ := (shared_writes_keep_all hfile hcalls (hfits rfl)).2.1 true _ rfl
  have hone := hcalls.snoc (by exact trivial) hs1
  obtain ⟨s2, hs2, -⟩ := (shared_writes_keep_all hfile hone (hfits rfl)).2.1 false _ (Writers.turn_other hs1 (by decide))
  have htwo := hone.snoc (by exact trivial) hs2
  obtain ⟨⟨cs, -, hend, htext, -, hsum⟩, -, halone⟩ := shared_writes_keep_all hfile htwo (hfits rfl)
  rw [hzero, Nat.zero_add] at hend
  rw [hzero] at htext
  refine ⟨k, k', s2, hb, hr, htwo, ⟨cs, hend, hsum, htext⟩, ?_⟩
  exact (halone (filledBuf 9) 4000 0 (by decide) (filledBuf_given 9 _) (by rw [hzero]; decide)).imp fun _ hq => hq.1

end Xv6Filter.Proofs
