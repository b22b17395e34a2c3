import Xv6Filter.Fs.Dir
import Xv6Filter.Lib.Result

namespace Xv6Filter.Proofs
open Lib Function

def NoHoles (fs : Fs) (d : Dinode) : Prop :=
  ∀ bn, bn * bsize < d.size →
    (bn < ndirect ∧ d.addrs bn ≠ 0) ∨
      (ndirect ≤ bn ∧ bn - ndirect < nindirect ∧ d.addrs ndirect ≠ 0 ∧
        word (fs.data (d.addrs ndirect)) (bn - ndirect) ≠ 0)

/-- What the kernel keeps true of its inodes between two operations: references
count up from 0 and are to the one device, an inode that nobody has locked agrees
with its disk copy, an inode without links is in use, and directories have no holes. -/
structure FsOk (fs : Fs) : Prop where
  counted : ∀ e, 0 ≤ (fs.inode e).ref
  dev : ∀ e, 1 ≤ (fs.inode e).ref → (fs.inode e).dev = rootdev
  agrees : ∀ e, 1 ≤ (fs.inode e).ref → (fs.inode e).locked = false → (fs.inode e).valid = true →
    (fs.inode e).din = fs.dinode (fs.inode e).inum
  linked : ∀ n, (fs.dinode n).type ≠ tFree → (fs.dinode n).nlink = 0 →
    ∃ e, 1 ≤ (fs.inode e).ref ∧ (fs.inode e).inum = n
  dense : ∀ n, (fs.dinode n).type = tDir → NoHoles fs (fs.dinode n)

/-- An entry that was in use before keeps its identity, its lock if another process
holds it, and otherwise its agreement with the disk. -/
structure UsedAs (fs0 : Fs) (e : Ip) (i : Inode) : Prop where
  dev : i.dev = (fs0.inode e).dev
  inum : i.inum = (fs0.inode e).inum
  locked : (fs0.inode e).locked = true → i.locked = true
  agrees : (fs0.inode e).locked = false → i.valid = true → i.din = fs0.dinode i.inum

structure FreshAs (fs0 : Fs) (i : Inode) : Prop where
  dev : i.dev = rootdev
  alone : ∀ e, 1 ≤ (fs0.inode e).ref → (fs0.inode e).inum ≠ i.inum
  agrees : i.valid = true → i.din = fs0.dinode i.inum ∧ (fs0.dinode i.inum).type ≠ tFree

/-- From `fs0` to `fs` only the inode table changed, with `h e` more references to
entry `e`. -/
structure Kept (fs0 : Fs) (h : Ip → Nat) (fs : Fs) : Prop where
  disk : fs.persistent = fs0.persistent
  ref : ∀ e, (fs.inode e).ref = (fs0.inode e).ref + h e
  used : ∀ e, 1 ≤ (fs0.inode e).ref → UsedAs fs0 e (fs.inode e)
  fresh : ∀ e, (fs0.inode e).ref = 0 → 1 ≤ h e → FreshAs fs0 (fs.inode e)

namespace Kept

variable {fs0 fs fs' : Fs} {h : Ip → Nat}

theorem refl (hok : FsOk fs0) : Kept fs0 (fun _ => 0) fs0 where
  disk := rfl
  ref := by simp
  used := fun e he => ⟨rfl, rfl, id, hok.agrees e he⟩
  fresh := by
    intro e _ hh
    omega

theorem dinode (hk : Kept fs0 h fs) : fs.dinode = fs0.dinode :=
  congrArg (fun p => p.2.1) hk.disk

theorem data (hk : Kept fs0 h fs) : fs.data = fs0.data :=
  congrArg (fun p => p.2.2) hk.disk

theorem set (hk : Kept fs0 h fs) {e : Ip} {i : Inode} {n : Nat}
    (hr : i.ref = (fs0.inode e).ref + n) (hu : 1 ≤ (fs0.inode e).ref → UsedAs fs0 e i)
    (hf : (fs0.inode e).ref = 0 → 1 ≤ n → FreshAs fs0 i) :
    Kept fs0 (update h e n) (fs.setInode e i) where
  disk := hk.disk
  ref := by
    intro a
    by_cases ha : a = e
    · subst ha
      simpa using hr
    · simpa [ha] using hk.ref a
  used := by
    intro a h1
    by_cases ha : a = e
    · subst ha
      simpa using hu h1
    · simpa [ha] using hk.used a h1
  fresh := by
    intro a h0 hh
    by_cases ha : a = e
    · subst ha
      simpa using hf h0 (by simpa using hh)
    · simpa [ha] using hk.fresh a h0 (by simpa [ha] using hh)

section Operations

variable (hok : FsOk fs0) (hk : Kept fs0 h fs)
include hok hk

theorem cases_held {e : Ip} (he : 1 ≤ (fs.inode e).ref) :
    1 ≤ (fs0.inode e).ref ∧ UsedAs fs0 e (fs.inode e) ∨
      (fs0.inode e).ref = 0 ∧ 1 ≤ h e ∧ FreshAs fs0 (fs.inode e) := by
  have hr := hk.ref e
  have h0 := hok.counted e
  by_cases hz : (fs0.inode e).ref = 0
  · exact .inr ⟨hz, by omega, hk.fresh e hz (by omega)⟩
  · exact .inl ⟨by omega, hk.used e (by omega)⟩

theorem dev_eq {e : Ip} (he : 1 ≤ (fs.inode e).ref) : (fs.inode e).dev = rootdev := by
  rcases cases_held hok hk he with ⟨h1, hu⟩ | ⟨_, _, hf⟩
  · rw [hu.dev]
    exact hok.dev e h1
  · exact hf.dev

omit hok in
/-- One more reference to an entry that has one: `idup`, and `iget` on a hit. -/
theorem again {e : Ip} (he : 1 ≤ (fs.inode e).ref) :
    Kept fs0 (update h e (h e + 1))
      (fs.setInode e { fs.inode e with ref := (fs.inode e).ref + 1 }) := by
  have hr := hk.ref e
  refine hk.set (by simp only [hr]; omega) ?_ ?_
  · intro h1
    obtain ⟨hd, hi, hl, ha⟩ := hk.used e h1
    exact ⟨hd, hi, hl, ha⟩
  · intro h0 _
    obtain ⟨hd, hn, ha⟩ := hk.fresh e h0 (by omega)
    exact ⟨hd, hn, ha⟩

theorem iget {inum : Nat} {ip : Ip} (hg : fs.iget rootdev inum = .ok (ip, fs')) :
    Kept fs0 (update h ip (h ip + 1)) fs' := by
  unfold Fs.iget at hg
  split at hg
  · rename_i e hfind
    cases hg
    have hp := List.find?_some hfind
    simp only [decide_eq_true_eq] at hp
    exact again hk (by omega)
  · rename_i hmiss
    split at hg
    · rename_i e hfind
      cases hg
      have hz := List.find?_some hfind
      simp only [decide_eq_true_eq] at hz
      have hr := hk.ref ip
      have h0 := hok.counted ip
      have hh : h ip = 0 := by omega
      refine hk.set (by simp only [hh]; omega) (by omega) ?_
      intro _ _
      refine ⟨rfl, ?_, by simp⟩
      intro e he hi
      have hu := hk.used e he
      have hre := hk.ref e
      have hnot := List.find?_eq_none.mp hmiss e (List.mem_finRange e)
      simp only [decide_eq_true_eq, not_and] at hnot
      exact hnot (by omega) (hu.dev.trans (hok.dev e he)) (hu.inum.trans hi)
    · cases hg

def Mine (fs0 : Fs) (e : Ip) : Prop := 1 ≤ (fs0.inode e).ref → (fs0.inode e).locked = false

/-- A lock is only taken from nobody, and the inode is then as on disk. -/
theorem ilock {ip : Ip} (hl : fs.ilock ip = .ok fs') :
    Kept fs0 h fs' ∧ Mine fs0 ip ∧ 1 ≤ (fs'.inode ip).ref ∧
      (fs'.inode ip).din = fs0.dinode (fs'.inode ip).inum := by
  unfold Fs.ilock at hl
  dsimp only at hl
  split at hl
  · cases hl
  rename_i href
  split at hl
  · cases hl
  rename_i hlock
  have hlock : (fs.inode ip).locked = false := by simpa using hlock
  have hmine : Mine fs0 ip := by
    intro h1
    by_contra hc
    have := (hk.used ip h1).locked (by simpa using hc)
    rw [hlock] at this
    cases this
  have hheld := cases_held hok hk (e := ip) (by omega)
  have hself : Kept fs0 (update h ip (h ip)) fs' → Kept fs0 h fs' := by
    rw [update_eq_self]
    exact id
  split at hl
  · rename_i hv
    cases hl
    refine ⟨hself (hk.set (hk.ref ip) ?_ ?_), hmine, by simp; omega, ?_⟩
    · intro h1
      obtain ⟨hd, hi, _, ha⟩ := hk.used ip h1
      exact ⟨hd, hi, fun _ => rfl, ha⟩
    · intro h0 hh
      obtain ⟨hd, hn, ha⟩ := hk.fresh ip h0 hh
      exact ⟨hd, hn, ha⟩
    · rcases hheld with ⟨h1, hu⟩ | ⟨_, _, hf⟩
      · simpa using hu.agrees (hmine h1) hv
      · simpa using (hf.agrees hv).1
  · split at hl
    · cases hl
    · rename_i htype
      cases hl
      rw [hk.dinode] at htype
      refine ⟨hself (hk.set (hk.ref ip) ?_ ?_), hmine, by simp; omega, by simp [hk.dinode]⟩
      · intro h1
        obtain ⟨hd, hi, _, _⟩ := hk.used ip h1
        exact ⟨hd, hi, fun _ => rfl, fun _ _ => by rw [hk.dinode]⟩
      · intro h0 hh
        obtain ⟨hd, hn, _⟩ := hk.fresh ip h0 hh
        exact ⟨hd, hn, fun _ => ⟨by rw [hk.dinode], htype⟩⟩

omit hok in
theorem iunlock {ip : Ip} (hm : Mine fs0 ip) (hl : fs.iunlock ip = .ok fs') : Kept fs0 h fs' := by
  unfold Fs.iunlock at hl
  split at hl
  · cases hl
  cases hl
  rw [← update_eq_self ip h]
  refine hk.set (hk.ref ip) ?_ ?_
  · intro h1
    obtain ⟨hd, hi, _, ha⟩ := hk.used ip h1
    refine ⟨hd, hi, fun hc => ?_, ha⟩
    rw [hm h1] at hc
    cases hc
  · intro h0 hh
    obtain ⟨hd, hn, ha⟩ := hk.fresh ip h0 hh
    exact ⟨hd, hn, ha⟩

/-- Giving back a reference never frees an inode: somebody else still has it, or it
has links. -/
theorem iput {ip : Ip} (hh : 1 ≤ h ip) (hp : fs.iput ip = .ok fs') :
    Kept fs0 (update h ip (h ip - 1)) fs' := by
  have hr := hk.ref ip
  have h0 := hok.counted ip
  have hstay : ¬ ((fs.inode ip).ref = 1 ∧ (fs.inode ip).valid = true ∧ (fs.inode ip).din.nlink = 0) := by
    rintro ⟨h1, hv, hn⟩
    have hz : (fs0.inode ip).ref = 0 := by omega
    have hf := hk.fresh ip hz hh
    obtain ⟨hd, ht⟩ := hf.agrees hv
    rw [hd] at hn
    obtain ⟨e, he, hi⟩ := hok.linked _ ht hn
    exact hf.alone e he hi
  unfold Fs.iput at hp
  simp only [hstay, ↓reduceIte, bind, Except.bind, pure, Except.pure, Except.ok.injEq] at hp
  subst hp
  refine hk.set (by simp only; omega) ?_ ?_
  · intro h1
    obtain ⟨hd, hi, hl, ha⟩ := hk.used ip h1
    exact ⟨hd, hi, hl, ha⟩
  · intro hz _
    obtain ⟨hd, hn, ha⟩ := hk.fresh ip hz hh
    exact ⟨hd, hn, ha⟩

theorem iunlockput {ip : Ip} (hm : Mine fs0 ip) (hh : 1 ≤ h ip)
    (hp : fs.iunlockput ip = .ok fs') : Kept fs0 (update h ip (h ip - 1)) fs' := by
  obtain ⟨fs1, h₁, h2⟩ := bind_eq_ok.mp hp
  exact iput hok (iunlock hk hm h₁) hh h2

end Operations

end Kept

theorem bmap_dense {fs : Fs} {ip : Ip} {bn : Nat} (hd : NoHoles fs (fs.inode ip).din)
    (hb : bn * bsize < (fs.inode ip).din.size) :
    ∃ addr, addr ≠ 0 ∧ fs.bmap ip bn = .ok (addr, fs) := by
  rcases hd bn hb with ⟨hlt, ha⟩ | ⟨hge, hlt, hi, ha⟩
  · exact ⟨_, ha, by simp [Fs.bmap, Fs.bmapDirect, hlt, ha]⟩
  · refine ⟨_, ha, ?_⟩
    have hn : ¬ bn < ndirect := by omega
    simp [Fs.bmap, Fs.bmapDirect, Fs.bmapIndirect, hn, hlt, hi, ha]

theorem readiLoop_dense {copyout : M → Nat → List Byte → M × Bool} {ip : Ip} {fs fs' : Fs}
    (hd : NoHoles fs (fs.inode ip).din) {rounds : Nat} {mem mem' : M} {off tot n : Nat} {r : Int}
    (hn : off + (n - tot) ≤ (fs.inode ip).din.size)
    (h : Fs.readiLoop copyout ip rounds fs mem off tot n = .ok (r, mem', fs')) : fs' = fs := by
  induction rounds generalizing mem off tot with
  | zero =>
    cases h
    rfl
  | succ rounds ih =>
    unfold Fs.readiLoop at h
    split at h
    · cases h
      rfl
    · rename_i hmore
      have hb : off / bsize * bsize < (fs.inode ip).din.size := by
        have := Nat.div_mul_le_self off bsize
        omega
      obtain ⟨addr, ha, hm⟩ := bmap_dense hd hb
      simp only [hm, ha, ↓reduceIte] at h
      split at h
      · cases h
        rfl
      · exact ih (by omega) h

theorem readi_dense {copyout : M → Nat → List Byte → M × Bool} {ip : Ip} {fs fs' : Fs}
    (hd : NoHoles fs (fs.inode ip).din) {mem mem' : M} {off n : Nat} {r : Int}
    (h : fs.readi copyout mem ip off n = .ok (r, mem', fs')) : fs' = fs := by
  unfold Fs.readi at h
  dsimp only at h
  split at h
  · cases h
    rfl
  · rename_i hoff
    refine readiLoop_dense hd ?_ h
    split <;> omega

theorem readDirent_dense {msg : Panic} {fs fs' : Fs} {dp : Ip} {off : Nat} {de : Fs.Dirent}
    (hd : NoHoles fs (fs.inode dp).din) (h : Fs.readDirent msg fs dp off = .ok (de, fs')) :
    fs' = fs := by
  unfold Fs.readDirent at h
  split at h
  · cases h
  · rename_i hr
    split at h
    · cases h
      exact readi_dense hd hr
    · cases h

def plus (h : Ip → Nat) : Option Ip → Ip → Nat
  | none => h
  | some ip => update h ip (h ip + 1)

abbrev only (found : Option Ip) : Ip → Nat := plus (fun _ => 0) found

theorem only_self (ip : Ip) : only (some ip) ip = 1 := by simp [plus]

theorem only_drop (ip : Ip) :
    update (only (some ip)) ip (only (some ip) ip - 1) = only none := by
  funext e
  by_cases he : e = ip <;> simp [plus, he]

theorem only_move (ip next : Ip) :
    update (plus (only (some ip)) (some next)) ip
      (plus (only (some ip)) (some next) ip - 1) = only (some next) := by
  funext e
  by_cases hn : next = ip
  · subst hn
    by_cases he : e = next <;> simp [plus, he]
  · by_cases he : e = ip
    · subst he
      simp [plus, Ne.symm hn]
    · by_cases he' : e = next <;> simp [plus, he, he', hn]

namespace Kept

variable {fs0 fs fs' : Fs} {h : Ip → Nat} (hok : FsOk fs0)
include hok

/-- A search finds an inode and takes a reference, or leaves everything. -/
theorem dirlookupLoop (hk : Kept fs0 h fs) {dp : Ip} (hr : 1 ≤ (fs.inode dp).ref)
    (hd : NoHoles fs (fs.inode dp).din) {name : List Byte} {left off : Nat}
    {found : Option (Ip × Nat)} (hl : Fs.dirlookupLoop dp name left off fs = .ok (found, fs')) :
    Kept fs0 (plus h (found.map Prod.fst)) fs' := by
  induction left generalizing off with
  | zero =>
    cases hl
    exact hk
  | succ left ih =>
    unfold Fs.dirlookupLoop at hl
    split at hl
    · cases hl
    · rename_i de fs1 hread
      obtain rfl := readDirent_dense hd hread
      split at hl
      · rw [dev_eq hok hk hr] at hl
        split at hl
        · cases hl
        · rename_i ip fs2 hget
          cases hl
          exact iget hok hk hget
      · exact ih hl

theorem dirlookup (hk : Kept fs0 h fs) {dp : Ip} (hr : 1 ≤ (fs.inode dp).ref)
    (hdin : (fs.inode dp).din = fs0.dinode (fs.inode dp).inum) {name : List Byte}
    {found : Option (Ip × Nat)} (hl : fs.dirlookup dp name = .ok (found, fs')) :
    Kept fs0 (plus h (found.map Prod.fst)) fs' := by
  unfold Fs.dirlookup at hl
  split at hl
  · cases hl
  · rename_i ht
    have hdense : NoHoles fs (fs.inode dp).din := by
      rw [hdin] at ht ⊢
      have := hok.dense _ (by simpa using ht)
      simpa [NoHoles, hk.data] using this
    exact dirlookupLoop hok hk hr hdense hl

/-- A walk ends with a reference to what it found, and with none if it fails. -/
theorem namexLoop {parent : Bool} {rounds : Nat} {ip : Ip} {path : List Byte}
    {found : Option (Ip × List Byte)} (hk : Kept fs0 (only (some ip)) fs)
    (hl : Fs.namexLoop parent rounds fs ip path = .ok (found, fs')) :
    Kept fs0 (only (found.map Prod.fst)) fs' := by
  induction rounds generalizing fs ip path with
  | zero =>
    cases hl
    exact hk
  | succ rounds ih =>
    unfold Fs.namexLoop at hl
    split at hl
    · split at hl
      · obtain ⟨fs1, h₁, hl⟩ := bind_eq_ok.mp hl
        cases hl
        have := iput hok hk (Nat.le_of_eq (only_self ip).symm) h₁
        rwa [only_drop] at this
      · cases hl
        exact hk
    · rename_i name rest _
      obtain ⟨fs1, h₁, hl⟩ := bind_eq_ok.mp hl
      obtain ⟨hk1, hm, hr, hdin⟩ := ilock hok hk h₁
      have drop : ∀ {fs2}, fs1.iunlockput ip = .ok fs2 → Kept fs0 (only none) fs2 := by
        intro fs2 h2
        have := iunlockput hok hk1 hm (Nat.le_of_eq (only_self ip).symm) h2
        rwa [only_drop] at this
      split at hl
      · obtain ⟨fs2, h2, hl⟩ := bind_eq_ok.mp hl
        cases hl
        exact drop h2
      · split at hl
        · obtain ⟨fs2, h2, hl⟩ := bind_eq_ok.mp hl
          cases hl
          exact iunlock hk1 hm h2
        · obtain ⟨⟨next, fs2⟩, h2, hl⟩ := bind_eq_ok.mp hl
          obtain ⟨fs3, h3, hl⟩ := bind_eq_ok.mp hl
          have hk2 := dirlookup hok hk1 hr hdin h2
          cases next with
          | none =>
            cases hl
            have := iunlockput hok hk2 hm (Nat.le_of_eq (only_self ip).symm) h3
            rwa [Option.map_none, plus, only_drop] at this
          | some next =>
            have hheld : 1 ≤ plus (only (some ip)) (some next.1) ip := by
              by_cases hn : ip = next.1 <;> simp [plus, hn]
            have := iunlockput hok hk2 hm hheld h3
            rw [Option.map_some, only_move] at this
            exact ih this hl

theorem namex {parent : Bool} {cwd : Option Ip} {path : List Byte}
    {found : Option (Ip × List Byte)} (hcwd : ∀ e ∈ cwd, 1 ≤ (fs0.inode e).ref)
    (hl : Fs.namex parent fs0 cwd path = .ok (found, fs')) :
    Kept fs0 (only (found.map Prod.fst)) fs' := by
  unfold Fs.namex at hl
  dsimp only at hl
  split at hl
  · obtain ⟨⟨ip, fs1⟩, hget, hl⟩ := bind_eq_ok.mp hl
    exact namexLoop hok (iget hok (refl hok) hget) hl
  · cases cwd with
    | none => cases hl
    | some e => exact namexLoop hok (again (refl hok) (hcwd e rfl)) hl

end Kept

end Xv6Filter.Proofs
