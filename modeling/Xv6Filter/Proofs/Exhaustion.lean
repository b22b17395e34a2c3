import Xv6Filter.Fs.Users
import Xv6Filter.Proofs.BufferList
import Xv6Filter.Proofs.Runs

namespace Xv6Filter.Proofs
open Lib Function

section Interleaved

variable {P : Type} [DecidableEq P] {s s' : InodeUsers P}

def RefsExact (s : InodeUsers P) : Prop :=
  ∀ e, (s.fs.inode e).ref = (s.refs.countP fun r => decide (r.2 = e) : Nat)

omit [DecidableEq P] in
theorem RefsExact.add {fs : Fs} {ip : Ip} {i : Inode} (h : RefsExact s) (hf : fs = s.fs.setInode ip i)
    (hi : i.ref = (s.fs.inode ip).ref + 1) (p : P) : RefsExact ⟨fs, (p, ip) :: s.refs⟩ := by
  intro e
  have he := h e
  subst hf
  by_cases hne : e = ip
  · subst hne
    simp only [Fs.setInode_inode, update_self, hi, List.countP_cons, decide_true, if_true]
    omega
  · simpa [hne, Ne.symm hne] using he

theorem RefsExact.step (h : RefsExact s) {e : InodeEvent P} (hs : s.step e = some s') : RefsExact s' := by
  cases e with
  | iget p inum =>
    simp only [InodeUsers.step, Fs.iget] at hs
    split at hs
    · cases hs
    · rename_i ip fs hget
      cases hs
      split at hget
      · cases hget
        exact h.add rfl rfl p
      · split at hget
        · rename_i j hfind
          cases hget
          have hz := List.find?_some hfind
          simp only [decide_eq_true_eq] at hz
          exact h.add rfl (by simp [hz]) p
        · cases hget
  | idup p ip =>
    simp only [InodeUsers.step] at hs
    split at hs
    · cases hs
      exact h.add rfl rfl p
    · cases hs
  | iput p ip =>
    simp only [InodeUsers.step] at hs
    split at hs
    · rename_i hm
      cases hs
      intro e
      have he := h e
      by_cases hne : e = ip
      · subst hne
        have hc := countP_erase_pos (p := fun r : P × Ip => decide (r.2 = e)) hm (by simp)
        simp only [Fs.setInode_inode, update_self]
        omega
      · have hc := countP_erase_neg (l := s.refs) (a := (p, ip)) (p := fun r : P × Ip => decide (r.2 = e))
          (by simpa using Ne.symm hne)
        simp only [Fs.setInode_inode, update_of_ne hne, hc]
        exact he
    · cases hs
  | work fs =>
    simp only [InodeUsers.step] at hs
    split at hs
    · rename_i hsame
      cases hs
      intro e
      rw [hsame e]
      exact h e
    · cases hs

omit [DecidableEq P] in
theorem RefsExact.iget_ok (h : RefsExact s) (hlt : s.refs.length < ninode) (n : Nat) :
    s.fs.iget rootdev n ≠ .error (.panic .igetNoInodes) := by
  unfold Fs.iget
  split
  · nofun
  split
  · nofun
  rename_i hz
  obtain ⟨e, he⟩ := exists_not_mem (m := s.refs.map Prod.snd) (by rwa [List.length_map])
  have hnone : s.refs.countP (fun r => decide (r.2 = e)) = 0 := by
    rw [List.countP_eq_zero]
    intro r hm hre
    exact he (List.mem_map.mpr ⟨r, hm, by simpa using hre⟩)
  have hne := List.find?_eq_none.mp hz e (List.mem_finRange e)
  have hr := h e
  rw [hnone] at hr
  exact absurd (by simpa using hr) hne

end Interleaved

/-- With fewer calls and pins than buffers there is a buffer to take. -/
theorem UsersOk.bget_some {P : Type} [DecidableEq P] {s : Users P} {l : Bcache} (h : UsersOk s l)
    (hlt : s.calls.length + s.pins.length < nbuf) (p : P) (b : Nat) : s.step (.bget p b) ≠ none := by
  obtain ⟨i, hi⟩ := exists_not_mem (m := s.calls.map (fun x => x.2.1) ++ s.pins.map Prod.snd)
    (by rwa [List.length_append, List.length_map, List.length_map])
  rw [List.mem_append, not_or] at hi
  have hcalls : s.calls.countP (fun x => x.2.1 = i) = 0 := by
    rw [List.countP_eq_zero]
    intro x hx hxi
    exact hi.1 (List.mem_map.mpr ⟨x, hx, by simpa using hxi⟩)
  have hpins : s.pins.countP (fun x => x.2 = i) = 0 := by
    rw [List.countP_eq_zero]
    intro x hx hxi
    exact hi.2 (List.mem_map.mpr ⟨x, hx, by simpa using hxi⟩)
  have hfree : (l.buf i).refcnt = 0 := by
    rw [h.count i, hcalls, hpins]
  have hv : l.victim ≠ none := by
    intro hnone
    have := List.find?_eq_none.mp hnone i (List.mem_reverse.mpr (h.carries.listed i))
    simp [hfree] at this
  have hget : s.bio.bget rootdev b ≠ none := by
    unfold Bio.bget
    rw [h.carries.victim]
    split
    · nofun
    · simpa using hv
  simpa [Users.step] using hget

def heldInodes (k : Kernel) : Nat :=
  (List.finRange ninode).countP fun e => decide (0 < inodeRefs k.proc k.file e)

theorem Consistent.inUse_eq (h : Consistent k) : inUse k.fs = heldInodes k := by
  apply List.countP_congr
  intro e _
  have he := h.inodes.exact e
  generalize inodeRefs k.proc k.file e = n at he ⊢
  rw [he, decide_eq_true_iff, decide_eq_true_iff]
  omega

/-- No system call needs more than three entries of the inode table. -/
theorem calls_suffice (hw : WellFormed fs) (hb : bootDisk fs = .ok k) (hr : Run Kernel.callStep anyEvent k cs k')
    (hroom : heldInodes k' + 2 < ninode) (hi : k'.alive i = true) (hc : k'.Possible c) :
    k'.perform i c ≠ .error (.panic .igetNoInodes) := by
  intro hrun
  have hk := (hw.started hb).consistent.run hr
  have hfull := Failing.full ((hk.perform (present_of_alive hi) hc).of_error hrun)
  rw [hk.inUse_eq] at hfull
  omega

section
variable {P : Type} [DecidableEq P]

theorem igets_suffice {u : InodeUsers P} (hw : WellFormed fs) (hr : Run InodeUsers.step anyEvent ⟨fs, []⟩ us u)
    (hrefs : u.refs.length < ninode) (n : Nat) : u.fs.iget rootdev n ≠ .error (.panic .igetNoInodes) := by
  have hinit : RefsExact (⟨fs, []⟩ : InodeUsers P) := fun e => hw.unread e
  have hs := hr.invariant RefsExact hinit fun _ _ _ ht _ hs => ht.step hs
  exact hs.iget_ok hrefs n

theorem bgets_suffice {v : Users P} (hr : Run Users.step anyEvent Users.init vs v)
    (hbufs : v.calls.length + v.pins.length < nbuf) (p : P) (b : Nat) : v.step (.bget p b) ≠ none := by
  obtain ⟨l, h⟩ := hr.invariant (fun s => ∃ l, UsersOk s l) ⟨_, init_usersOk⟩
    (fun t e u ⟨l, ht⟩ _ hs => (ht.step hs).imp fun _ h => h.1)
  exact h.bget_some hbufs p b

/-- The tables suffice while enough of them is free. No system call panics in `iget` when open
files and current directories refer to at most `NINODE` - 3 inodes before it; and in any interleaving
no `iget` panics while fewer than `NINODE` references are held, and no `bget` while fewer than `NBUF`
calls and pins hold buffers. -/
theorem tables_suffice :
    (∀ fs k cs k', WellFormed fs → bootDisk fs = .ok k → Run Kernel.callStep anyEvent k cs k' →
      heldInodes k' + 2 < ninode → ∀ i c, k'.alive i = true → k'.Possible c →
        k'.perform i c ≠ .error (.panic .igetNoInodes)) ∧
    (∀ fs us (u : InodeUsers P), WellFormed fs → Run InodeUsers.step anyEvent ⟨fs, []⟩ us u →
      u.refs.length < ninode → ∀ n, u.fs.iget rootdev n ≠ .error (.panic .igetNoInodes)) ∧
    ∀ vs (v : Users P), Run Users.step anyEvent Users.init vs v →
      v.calls.length + v.pins.length < nbuf → ∀ p b, v.step (.bget p b) ≠ none :=
  ⟨fun _ _ _ _ hw hb hr hroom _ _ hi hc => calls_suffice hw hb hr hroom hi hc,
    fun _ _ _ hw hr hrefs n => igets_suffice hw hr hrefs n, fun _ _ hr hbufs p b => bgets_suffice hr hbufs p b⟩

end

/-- A file made, a lookup of two inodes, a block read. -/
theorem tables_suffice_fewUsers :
    ∃ k k' u v, bootDisk freshDisk = .ok k ∧
      Run Kernel.callStep anyEvent k [(0, .opens (some (bytes ['f'])) 0x202)] k' ∧
      Run (InodeUsers.step (P := Unit)) anyEvent ⟨freshDisk, []⟩ [.iget () 1, .iget () 2] u ∧
      Run (Users.step (P := Unit)) anyEvent Users.init [.bget () 40] v ∧
      k'.perform 0 (.opens (some (bytes ['g'])) 0x202) ≠ .error (.panic .igetNoInodes) ∧
      u.fs.iget rootdev 3 ≠ .error (.panic .igetNoInodes) ∧ v.step (.bget () 41) ≠ none := by
  obtain ⟨k, k', hb, hr, hroom, ha⟩ : ∃ k k', bootDisk freshDisk = .ok k ∧
      Run Kernel.callStep anyEvent k [(0, .opens (some (bytes ['f'])) 0x202)] k' ∧
      (heldInodes k' + 2 < ninode ∧ k'.alive 0 = true) := boot_replay (by decide +kernel)
  obtain ⟨u, hu, hrefs⟩ : ∃ u : InodeUsers Unit,
      Run InodeUsers.step anyEvent ⟨freshDisk, []⟩ [.iget () 1, .iget () 2] u ∧ u.refs.length < ninode :=
    replay_reaches (by decide +kernel)
  obtain ⟨v, hv, hbufs⟩ : ∃ v : Users Unit, Run Users.step anyEvent Users.init [.bget () 40] v ∧
      v.calls.length + v.pins.length < nbuf := replay_reaches (by decide +kernel)
  obtain ⟨h1, h2, h3⟩ := tables_suffice (P := Unit)
  exact ⟨k, k', u, v, hb, hr, hu, hv, h1 _ _ _ _ freshDisk_wellFormed hb hr hroom 0 _ ha trivial,
    h2 _ _ _ freshDisk_wellFormed hu hrefs 3, h3 _ _ hv hbufs () 41⟩

def shelfEntry (i : Nat) : Fs.Dirent :=
  if i = 0 then ⟨rootino, strncpy dot dirsiz⟩
  else if i = 1 then ⟨rootino, strncpy dotdot dirsiz⟩
  else ⟨i, strncpy [UInt8.ofNat (60 + i)] dirsiz⟩

def shelfDisk : Fs where
  sb := ⟨40, 54, 4, 2, 6, 10⟩
  used := fun b => decide (b ≤ 11)
  dinode := fun n =>
    if n = rootino then ⟨tDir, 0, 0, 1, 54 * direntSize, fun i => if i = 0 then 11 else 0⟩
    else if 2 ≤ n ∧ n < 54 then ⟨tFile, 0, 0, 1, 0, fun _ => 0⟩
    else .zero
  data := fun b =>
    if b = 11 then fun o => (shelfEntry (o / direntSize)).encode.getD (o % direntSize) 0 else fun _ => 0
  inode := fun _ => ⟨0, 0, 0, false, false, .zero⟩
  logged := []

theorem shelfDisk_wellFormed : WellFormed shelfDisk := by
  refine (by decide +kernel : SmallImage shelfDisk).wellFormed (fun n hn => ?_) fun _ => rfl
  have hn : 54 ≤ n := hn
  have h1 : n ≠ rootino := by
    simp only [rootino]
    omega
  simp [shelfDisk, h1, Nat.not_lt.mpr hn, Dinode.zero]

def opensFrom (p : Slot) (n m : Nat) : List (Slot × Call) :=
  (List.range m).map fun i => (p, .opens (some [UInt8.ofNat (62 + n + i)]) 0)

def openShelf : List (Slot × Call) :=
  [(0, .fork .enough), (0, .fork .enough), (0, .fork .enough)] ++ opensFrom 0 0 16 ++ opensFrom 1 16 16 ++
    opensFrom 2 32 16 ++ opensFrom 3 48 1

def readersAtOnce : List (BioEvent Nat) := (List.range 30).map fun p => .bget p (100 + p)

/-- Fifty inodes in use, or thirty blocks being read: the next process panics the kernel. -/
theorem tables_exhausted :
    (WellFormed shelfDisk ∧ ∃ k k', bootDisk shelfDisk = .ok k ∧ Run Kernel.callStep anyEvent k openShelf k' ∧
      k'.alive 3 = true ∧ k'.perform 3 (.opens (some [111]) 0) = .error (.panic .igetNoInodes)) ∧
    ∃ s : Users Nat, Run Users.step anyEvent Users.init readersAtOnce s ∧ s.step (.bget 30 130) = none := by
  constructor
  · obtain ⟨k, k', hb, hr, ha, hp⟩ : ∃ k k', bootDisk shelfDisk = .ok k ∧
        Run Kernel.callStep anyEvent k openShelf k' ∧ (k'.alive 3 = true ∧
        Fails (k'.perform 3 (.opens (some [111]) 0)) (· = .panic .igetNoInodes)) :=
      boot_replay (by decide +kernel)
    exact ⟨shelfDisk_wellFormed, k, k', hb, hr, ha, hp.reason⟩
  · obtain ⟨s, hr, hs⟩ : ∃ s : Users Nat, Run Users.step anyEvent Users.init readersAtOnce s ∧
        (s.step (.bget 30 130)).isNone = true := replay_reaches (by decide +kernel)
    exact ⟨s, hr, Option.isNone_iff_eq_none.mp hs⟩

end Xv6Filter.Proofs
