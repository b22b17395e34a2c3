import Xv6Filter.Proofs.Console
import Xv6Filter.Proofs.FileBytes
import Xv6Filter.Proofs.Locks
import Xv6Filter.Proofs.Pipe

namespace Xv6Filter.Proofs
open Lib Function

/-- A loop that looks at its destination through `g` does what the loop on the destination does. -/
theorem readiLoop_view {copyout : M → Nat → List Byte → M × Bool} {copyout' : M' → Nat → List Byte → M' × Bool}
    {g : M → M'} (hg : ∀ mem t bs, copyout' (g mem) t bs = (g (copyout mem t bs).1, (copyout mem t bs).2)) (ip : Ip)
    (rounds : Nat) (fs : Fs) (mem : M) (off tot n : Nat) :
    Fs.readiLoop copyout' ip rounds fs (g mem) off tot n =
      (Fs.readiLoop copyout ip rounds fs mem off tot n).map fun r => (r.1, g r.2.1, r.2.2) := by
  induction rounds generalizing fs mem off tot with
  | zero => rfl
  | succ rounds ih =>
    unfold Fs.readiLoop
    split
    · rfl
    · split
      · rfl
      · dsimp only
        split
        · rfl
        · rename_i addr fs' _ _
          rw [hg]
          generalize copyout mem tot (slice (fs'.data addr) (off % bsize) (min (n - tot) (bsize - off % bsize))) = res
          obtain ⟨mem', ok⟩ := res
          cases ok with
          | false => rfl
          | true => exact ih fs' mem' _ _

theorem readi_view {copyout : M → Nat → List Byte → M × Bool} {copyout' : M' → Nat → List Byte → M' × Bool}
    {g : M → M'} (hg : ∀ mem t bs, copyout' (g mem) t bs = (g (copyout mem t bs).1, (copyout mem t bs).2)) (fs : Fs)
    (mem : M) (ip : Ip) (off n : Nat) :
    fs.readi copyout' (g mem) ip off n = (fs.readi copyout mem ip off n).map fun r => (r.1, g r.2.1, r.2.2) := by
  unfold Fs.readi
  dsimp only
  split
  · rfl
  · exact readiLoop_view hg ip _ fs mem off 0 _

/-- `fileread` of an inode does what the version that keeps its stores does. -/
theorem fileread_stores {k : Kernel} {f : Fp} (hr : (k.file f).readable = true) (hf : (k.file f).type = .inode)
    (dst : UserBuf) (n : I32) (other : Int) :
    k.fileread f dst n other = (k.filereadStores f dst n).map fun r => (r.1, r.2.2) := by
  unfold Kernel.fileread Kernel.filereadStores
  rw [if_neg (by simp [hr]), hf]
  dsimp only
  cases hl : k.fs.ilock (k.file f).ip with
  | error e => rfl
  | ok fs =>
    rw [ok_bind, ok_bind]
    have hview : fs.readi dst.copyout () (k.file f).ip (k.file f).off n.toNat =
        (fs.readi dst.store [] (k.file f).ip (k.file f).off n.toNat).map fun r => (r.1, (), r.2.2) :=
      readi_view (g := fun _ => ()) (fun _ _ _ => rfl) fs [] (k.file f).ip (k.file f).off n.toNat
    rw [hview]
    cases hrun : fs.readi dst.store [] (k.file f).ip (k.file f).off n.toNat with
    | error e => rfl
    | ok r =>
      obtain ⟨r, stored, fs'⟩ := r
      dsimp only [Except.map]
      rw [ok_bind, ok_bind]
      dsimp only
      cases fs'.iunlock (k.file f).ip with
      | error e => rfl
      | ok fs'' => rfl

def StoredBelow (n : Nat) (stored : List (Byte × Nat)) : Prop := ∀ x ∈ stored, x.2 < n

theorem StoredBelow.store (h : StoredBelow n stored) (dst : UserBuf) (hn : t + bs.length ≤ n) :
    StoredBelow n (dst.store stored t bs).1 := by
  intro x hx
  rcases List.mem_append.mp hx with hx | hx
  · exact h x hx
  · have hlt := (List.mem_zipIdx hx).2.1
    rw [List.length_take] at hlt
    omega

/-- The loop of `readi` stores and returns no more than the count it has. -/
theorem readiLoop_below (dst : UserBuf) (ip : Ip) (rounds : Nat) {fs : Fs} (hs : StoredBelow n stored) (ht : tot ≤ n)
    (hrun : Fs.readiLoop dst.store ip rounds fs stored off tot n = .ok (r, stored', fs')) :
    r ≤ n ∧ StoredBelow n stored' := by
  induction rounds generalizing fs stored off tot with
  | zero =>
    cases hrun
    exact ⟨by omega, hs⟩
  | succ rounds ih =>
    unfold Fs.readiLoop at hrun
    split at hrun
    · cases hrun
      exact ⟨by omega, hs⟩
    · split at hrun
      · cases hrun
      · rename_i addr fs1 _
        dsimp only at hrun
        split at hrun
        · cases hrun
          exact ⟨by omega, hs⟩
        · have hnext := hs.store dst (show tot + (slice (fs1.data addr) (off % bsize)
            (min (n - tot) (bsize - off % bsize))).length ≤ n by rw [length_slice]; omega)
          split at hrun
          · rename_i mem heq
            rw [heq] at hnext
            cases hrun
            exact ⟨by omega, hnext⟩
          · rename_i mem heq
            rw [heq] at hnext
            exact ih hnext (by omega) hrun

theorem readiLoop_keeps (dst : UserBuf) (ip : Ip) (rounds : Nat) {fs : Fs} (hx : x ∈ stored)
    (hrun : Fs.readiLoop dst.store ip rounds fs stored off tot n = .ok (r, stored', fs')) : x ∈ stored' := by
  induction rounds generalizing fs stored off tot with
  | zero =>
    cases hrun
    exact hx
  | succ rounds ih =>
    unfold Fs.readiLoop at hrun
    split at hrun
    · cases hrun
      exact hx
    · split at hrun
      · cases hrun
      · rename_i addr fs1 _
        dsimp only at hrun
        split at hrun
        · cases hrun
          exact hx
        · have hnext : x ∈ (dst.store stored tot
              (slice (fs1.data addr) (off % bsize) (min (n - tot) (bsize - off % bsize)))).1 :=
            List.mem_append_left _ hx
          split at hrun
          · rename_i mem heq
            rw [heq] at hnext
            cases hrun
            exact hnext
          · rename_i mem heq
            rw [heq] at hnext
            exact ih hnext hrun

def FitsCount (n : I32) (r : Int) (stored : List (Byte × Nat)) : Prop :=
  r ≤ max n.toInt 0 ∧ ∀ x ∈ stored, (x.2 : Int) < max n.toInt 0

/-- When a read of `n` bytes at `off` from a file of `size` bytes keeps to its count: `n` is not
negative, or `off + n` wraps, or there is nothing to read or nowhere to put the first byte. -/
def CountKept (dst : UserBuf) (size off : Nat) (n : I32) : Prop :=
  0 ≤ n.toInt ∨ -n.toInt ≤ off ∨ size ≤ off ∨ dst.reach 0 (min (size - off) (bsize - off % bsize)) = 0

theorem toInt_cases (n : I32) : 0 ≤ n.toInt ∧ n.toInt = n.toNat ∨ n.toInt < 0 ∧ n.toInt + 2 ^ 32 = n.toNat ∧ 2 ^ 31 ≤ n.toNat := by
  have hcond := BitVec.toInt_eq_toNat_cond n
  have hlt := n.isLt
  split at hcond <;> omega

theorem readiLoop_first {fs : Fs} {ip : Ip} (hd : Dense fs.data (fs.inode ip).din size) (hoff : off < size) (dst : UserBuf)
    (hrun : Fs.readiLoop dst.store ip (size - off) fs [] off 0 (size - off) = .ok (r, stored, fs')) :
    if dst.reach 0 (min (size - off) (bsize - off % bsize)) = 0 then r = -1 ∧ stored = [] else ∃ x ∈ stored, x.2 = 0 := by
  have hblk : off / bsize * bsize < size := by
    have := Nat.div_mul_le_self off bsize
    omega
  obtain ⟨hlt, h0⟩ := hd _ hblk
  have hpos : 0 < bsize - off % bsize := Nat.sub_pos_of_lt (Nat.mod_lt _ (by decide))
  obtain ⟨rounds, hrounds⟩ := Nat.exists_eq_succ_of_ne_zero (n := size - off) (by omega)
  rw [hrounds, Nat.succ_eq_add_one] at hrun
  unfold Fs.readiLoop at hrun
  rw [if_neg (by omega), bmap_present hlt h0] at hrun
  dsimp only at hrun
  rw [if_neg h0, ← Nat.succ_eq_add_one, ← hrounds, Nat.sub_zero] at hrun
  generalize hm : min (size - off) (bsize - off % bsize) = m at hrun ⊢
  generalize hbs : slice (fs.data (slotAddr fs.data (fs.inode ip).din (slotOf (off / bsize)))) (off % bsize) m = bs at hrun
  have hlen : bs.length = m := by rw [← hbs, length_slice]
  have hm0 : 0 < m := by omega
  by_cases hreach : dst.reach 0 m = 0
  · rw [if_pos hreach]
    have hstore : dst.store [] 0 bs = ([], false) := by
      simp only [UserBuf.store, hlen, hreach, List.take_zero, List.zipIdx_nil, List.append_nil, Prod.mk.injEq, true_and,
        decide_eq_false_iff_not]
      omega
    rw [hstore] at hrun
    cases hrun
    exact ⟨rfl, rfl⟩
  · rw [if_neg hreach]
    obtain ⟨b, bs', rfl⟩ := List.exists_cons_of_ne_nil (List.ne_nil_of_length_pos (by omega : 0 < bs.length))
    have hin : (b, 0) ∈ (dst.store [] 0 (b :: bs')).1 := by
      obtain ⟨j, hj⟩ := Nat.exists_eq_succ_of_ne_zero hreach
      simp only [UserBuf.store, hlen, hj, List.take_succ_cons, List.zipIdx_cons, List.nil_append]
      exact List.mem_cons_self
    refine ⟨(b, 0), ?_, rfl⟩
    generalize dst.store [] 0 (b :: bs') = res at hrun hin
    obtain ⟨mem, ok⟩ := res
    cases ok with
    | false =>
      cases hrun
      exact hin
    | true => exact readiLoop_keeps dst ip _ hin hrun

theorem readi_fits_iff {fs : Fs} {ip : Ip} (hd : Dense fs.data (fs.inode ip).din (fs.inode ip).din.size) (dst : UserBuf)
    (n : I32) (hrun : fs.readi dst.store [] ip off n.toNat = .ok (r, stored, fs')) :
    FitsCount n r stored ↔ CountKept dst (fs.inode ip).din.size off n := by
  have hcases := toInt_cases n
  unfold Fs.readi at hrun
  dsimp only at hrun
  generalize (fs.inode ip).din.size = size at hd hrun ⊢
  have hsize := hd.size_le
  have hmax : maxfile * bsize < 2 ^ 31 := by decide
  have hnone : FitsCount n 0 [] := ⟨by omega, by simp⟩
  split at hrun
  · rename_i hwhy
    cases hrun
    refine iff_of_true hnone ?_
    unfold CountKept
    omega
  · rename_i hwhy
    rw [not_or] at hwhy
    by_cases hpos : 0 ≤ n.toInt
    · refine iff_of_true ?_ (.inl hpos)
      obtain ⟨hr, hbelow⟩ := readiLoop_below dst ip _ (by simp [StoredBelow]) (Nat.zero_le _) hrun
      have hle : (if size < off + n.toNat then size - off else n.toNat) ≤ n.toNat := by
        split <;> omega
      refine ⟨by omega, ?_⟩
      intro x hx
      have := hbelow x hx
      omega
    · rw [if_pos (by omega)] at hrun
      by_cases hoff : off < size
      · have hfirst := readiLoop_first hd hoff dst hrun
        by_cases hreach : dst.reach 0 (min (size - off) (bsize - off % bsize)) = 0
        · rw [if_pos hreach] at hfirst
          obtain ⟨rfl, rfl⟩ := hfirst
          exact iff_of_true ⟨by omega, by simp⟩ (.inr (.inr (.inr hreach)))
        · rw [if_neg hreach] at hfirst
          obtain ⟨x, hx, hx0⟩ := hfirst
          refine iff_of_false ?_ ?_
          · rintro ⟨-, hall⟩
            have := hall x hx
            omega
          · rintro (h | h | h | h)
            · exact hpos h
            · omega
            · omega
            · exact hreach h
      · have hzero : size - off = 0 := by omega
        rw [hzero] at hrun
        cases hrun
        exact iff_of_true hnone (.inr (.inr (.inl (by omega))))

/-- `fileread` of an inode that nobody has locked returns, and keeps to its count in the cases of
`CountKept`. -/
theorem filereadStores_fits_iff {k : Kernel} (hk : Consistent k) (hl : Locked [] k.fs) (hf : (k.file f).type = .inode)
    (dst : UserBuf) (n : I32) :
    Runs (k.filereadStores f dst n) fun r => FitsCount n r.1 r.2.1 ↔
      CountKept dst (k.fs.dinode (k.fs.inode (k.file f).ip).inum).size (k.file f).off n := by
  have hpos := hk.inodes.file_pos (.inl hf)
  have hlock := (hk.lockFile (.inl hf)).and (hl.ilock List.not_mem_nil hpos)
  unfold Kernel.filereadStores
  cases hrun : k.fs.ilock (k.file f).ip with
  | error e =>
    obtain ⟨hp, rfl⟩ := hlock.of_error hrun
    exact absurd rfl hp.2.1
  | ok fs1 =>
    obtain ⟨⟨hb, hd⟩, hl1⟩ := hlock.of_ok hrun
    obtain ⟨r, stored, hread⟩ := hb.readi dst.store [] (k.file f).off n.toNat
    obtain ⟨fs2, hunlock, -⟩ := (hl1.iunlock List.not_mem_nil hb.ref_pos).result
    rw [ok_bind, hread, ok_bind]
    dsimp only
    rw [hunlock, ok_bind]
    have hdense : Dense fs1.data (fs1.inode (k.file f).ip).din (fs1.inode (k.file f).ip).din.size := by
      rw [hb.copy.same]
      exact hb.sane.acct.dense _ hb.copy.typed
    have hiff := readi_fits_iff hdense dst n hread
    rw [hb.copy.same, hd.dinode] at hiff
    exact hiff

section Pipe

variable {ι : Type} [DecidableEq ι]

def ReadWithin : PipePc → Prop
  | .rCopy n i => (i : Int) ≤ max n.toInt 0
  | .rEnd n r => r ≤ max n.toInt 0
  | _ => True

theorem ReadWithin.step {s s' : PipeSys ι} {e : PipeEvent ι} (h : ∀ p, ReadWithin (s.pc p)) (hs : Piped s e s') (q : ι) :
    ReadWithin (s'.pc q) := by
  have hgoto {p : ι} {c : PipePc} (hc : ReadWithin c) : ReadWithin (update s.pc p c q) := by
    by_cases hq : q = p
    · subst hq
      rwa [update_self]
    · rw [update_of_ne hq]
      exact h q
  cases hs with
  | write | read | wResume | rResume | broken | more | wrote | blocked | badIn | put | wDone | dry | dead | tired | sleep
  | rDone => exact hgoto trivial
  | wet p n hl hp he => exact hgoto (by simp only [ReadWithin]; omega)
  | drained p n i hl hp he =>
    have hi := h p
    rw [hp] at hi
    exact hgoto hi
  | badOut p n i hl hp he =>
    have hi : (i : Int) ≤ max n.toInt 0 := by
      have := h p
      rwa [hp] at this
    refine hgoto ?_
    simp only [ReadWithin]
    split <;> omega
  | take p n i ch hl hp hi he => exact hgoto (by simp only [ReadWithin]; omega)
  | close p writable hf hp =>
    cases writable with
    | false => exact h q
    | true => exact h q
  | kill p => exact h q

def PipeFits (s : PipeSys ι) : Prop :=
  (∀ p n r, s.pc p = .rEnd n r → r ≤ max n.toInt 0) ∧
    ∀ e ch, ch ∈ s.delivered e → ∃ p user n i, e = .go p user ∧ s.pc p = .rCopy n i ∧ (i : Int) < n.toInt

theorem run_pipeFits {data : Fin pipesize → Byte} {killed : ι → Bool}
    (hr : Run PipeSys.step anyEvent (.alloc data killed) es s) : PipeFits s := by
  have hw : ∀ p, ReadWithin (s.pc p) := by
    refine hr.invariant (fun s => ∀ p, ReadWithin (s.pc p)) ?_ fun _ _ _ h _ hs => ReadWithin.step h (step_piped hs)
    intro p
    exact trivial
  constructor
  · intro p n r hp
    have := hw p
    rwa [hp] at this
  · intro e ch hch
    unfold PipeSys.delivered at hch
    split at hch
    · rename_i p b
      split at hch
      · rename_i n i hp
        split at hch
        · rename_i hcond
          exact ⟨p, some b, n, i, rfl, hp, hcond.2.1⟩
        · cases hch
      · cases hch
    · cases hch

/-- What `consoleread` stores and returns are within its count; `t - n` is the offset of the byte. -/
def ConsFits (s : ConsSys ι) : Prop :=
  (∀ e t r, s.returned e = some (t, r) → r ≤ max t 0) ∧
    ∀ e ch, ch ∈ s.delivered e → ∃ p good n t, e = .go p good ∧ s.pc p = .take n t ∧ 0 ≤ t - n ∧ t - n < t

theorem run_consFits {killed : ι → Bool} (hr : Run ConsSys.step anyEvent (.init killed) es s) : ConsFits s := by
  have hreading := run_reading hr
  constructor
  · intro e t r hret
    cases e with
    | intr | read | resume | kill => cases hret
    | go p good =>
      unfold ConsSys.returned at hret
      dsimp only at hret
      split at hret
      · rename_i n t' hp
        have hb : n ≤ t' ∧ (0 ≤ n ∨ n = t') := hreading.bounded_at hp
        simp only [ConsSys.advance, hp] at hret
        grind
      · rename_i n t' hp
        simp only [ConsSys.advance, hp] at hret
        grind
      · rename_i n t' hp
        have hb : n ≤ t' ∧ 0 < n := hreading.bounded_at hp
        simp only [ConsSys.advance, hp, ConsSys.takeChar] at hret
        grind
      · cases hret
  · intro e ch hch
    unfold ConsSys.delivered at hch
    split at hch
    · rename_i p good
      split at hch
      · rename_i n t hp
        have hb : n ≤ t ∧ 0 < n := hreading.bounded_at hp
        exact ⟨p, good, n, t, rfl, hp, by omega, by omega⟩
      · cases hch
    · cases hch

end Pipe

/-- `fileread` and its count. A read of an inode keeps to it exactly in the cases of `CountKept`;
a read of a pipe or of the console always does. -/
theorem read_keeps_count_iff {ι : Type} [DecidableEq ι] (k : Kernel) (f : Fp) (dst : UserBuf) (n : I32)
    (data : Fin pipesize → Byte) (killed : ι → Bool) :
    (Consistent k → Locked [] k.fs → (k.file f).readable = true → (k.file f).type = .inode →
      (∀ other, k.fileread f dst n other = (k.filereadStores f dst n).map fun r => (r.1, r.2.2)) ∧
      Runs (k.filereadStores f dst n) fun r => FitsCount n r.1 r.2.1 ↔
        CountKept dst (k.fs.dinode (k.fs.inode (k.file f).ip).inum).size (k.file f).off n) ∧
    (∀ es s, Run PipeSys.step anyEvent (.alloc data killed) es s → PipeFits s) ∧
    ∀ es s, Run ConsSys.step anyEvent (.init killed) es s → ConsFits s :=
  ⟨fun hk hl hr hf => ⟨fileread_stores hr hf dst n, filereadStores_fits_iff hk hl hf dst n⟩,
    fun _ _ h => run_pipeFits h, fun _ _ h => run_consFits h⟩

instance (n : I32) (r : Int) (stored : List (Byte × Nat)) : Decidable (FitsCount n r stored) :=
  inferInstanceAs (Decidable (_ ∧ _))

def openBuf : UserBuf := ⟨fun _ => 0, fun _ n => n⟩

def OpenedRoot (k : Kernel) : Prop :=
  (∀ e, (k.fs.inode e).locked = false) ∧ (k.file 0).readable = true ∧ (k.file 0).type = .inode

instance (k : Kernel) : Decidable (OpenedRoot k) := inferInstanceAs (Decidable (_ ∧ _))

/-- Five bytes of the root directory. -/
theorem read_keeps_count_iff_five : ∃ k k', bootDisk freshDisk = .ok k ∧
    Run Kernel.callStep anyEvent k [(0, .opens (some (bytes ['/'])) 0)] k' ∧
      Runs (k'.filereadStores 0 openBuf 5) fun r => FitsCount 5 r.1 r.2.1 := by
  obtain ⟨k, k', hb, hr, hunlocked, hread, hfile⟩ : ∃ k k', bootDisk freshDisk = .ok k ∧
      Run Kernel.callStep anyEvent k [(0, .opens (some (bytes ['/'])) 0)] k' ∧ OpenedRoot k' :=
    boot_replay (by decide +kernel)
  have hk := (freshDisk_wellFormed.started hb).consistent.run hr
  have hl : Locked [] k'.fs := fun e => by simp [hunlocked e]
  have hall := ((read_keeps_count_iff k' 0 openBuf 5 (fun _ => 0) fun _ : Unit => false).1 hk hl hread hfile).2
  exact ⟨k, k', hb, hr, hall.imp fun _ hiff => hiff.mpr (.inl (by decide))⟩

/-- `read(fd, buf, -1)` at the start of a file delivers all of it. -/
theorem read_minus_one_delivers : ∃ k k', bootDisk freshDisk = .ok k ∧
    Run Kernel.callStep anyEvent k [(0, .opens (some (bytes ['/'])) 0)] k' ∧
      (Runs (k'.fileread 0 openBuf (-1) 0) fun r => r.1 = 1024) ∧
      Runs (k'.filereadStores 0 openBuf (-1)) fun r => r.2.1.length = 1024 ∧ ¬ FitsCount (-1) r.1 r.2.1 :=
  boot_replay (by decide +kernel)

end Xv6Filter.Proofs
