import Xv6Filter.Proofs.Truncate

namespace Xv6Filter.Proofs
open Lib Function

structure Orderly (fs : Fs) : Prop where
  acct : Acct fs.sb fs.used fs.data fs.dinode
  counted : ∀ e, 0 ≤ (fs.inode e).ref
  unique : ∀ e e', 0 < (fs.inode e).ref → 0 < (fs.inode e').ref →
    (fs.inode e).inum = (fs.inode e').inum → e = e'
  dev : ∀ e, 0 < (fs.inode e).ref → (fs.inode e).dev = rootdev
  inum : ∀ e, 0 < (fs.inode e).ref → (fs.inode e).inum < 2 ^ 16
  copies : ∀ e, 0 < (fs.inode e).ref → (fs.inode e).valid = true →
    (fs.inode e).din = fs.dinode (fs.inode e).inum ∧ (fs.dinode (fs.inode e).inum).type ≠ tFree
  aligned : ∀ n, (fs.dinode n).type = tDir → (fs.dinode n).size % direntSize = 0
  numbered : ∀ n, (fs.dinode n).type ≠ tFree → 0 < n ∧ n < fs.sb.ninodes
  few : fs.sb.ninodes ≤ 2 ^ 16

/-- What the file system code keeps true wherever one of its functions returns: an inode
without links is in the table. -/
structure Sane (fs : Fs) : Prop extends Orderly fs where
  held : ∀ n, (fs.dinode n).type ≠ tFree → (fs.dinode n).nlink = 0 →
    ∃ e, 0 < (fs.inode e).ref ∧ (fs.inode e).inum = n ∧ (fs.inode e).valid = true

structure SameDisk (fs fs' : Fs) : Prop where
  sb : fs'.sb = fs.sb
  used : fs'.used = fs.used
  dinode : fs'.dinode = fs.dinode
  data : fs'.data = fs.data
  logged : fs'.logged = fs.logged

namespace SameDisk

theorem refl (fs : Fs) : SameDisk fs fs := ⟨rfl, rfl, rfl, rfl, rfl⟩

theorem trans (h : SameDisk fs fs1) (h' : SameDisk fs1 fs') : SameDisk fs fs' :=
  ⟨h'.sb.trans h.sb, h'.used.trans h.used, h'.dinode.trans h.dinode, h'.data.trans h.data,
    h'.logged.trans h.logged⟩

theorem setInode (fs : Fs) (ip : Ip) (i : Inode) : SameDisk fs (fs.setInode ip i) :=
  ⟨rfl, rfl, rfl, rfl, rfl⟩

theorem logs (h : SameDisk fs fs') : Logs T k fs fs' := .of_eq h.sb h.logged

end SameDisk

/-- A reference that the running operation has: the table entry, its inode, and whether
the inode has been read. -/
structure Taken where
  ip : Ip
  inum : Nat
  read : Bool

/-- The operation began in `fs0` and has the references `hs`. Entries that others have
references to keep their inode. -/
structure Busy (fs0 : Fs) (hs : List Taken) (fs : Fs) : Prop where
  sane : Sane fs
  start : ∀ e, 0 ≤ (fs0.inode e).ref
  refs : ∀ e, (fs.inode e).ref = (fs0.inode e).ref + (hs.countP fun h => decide (h.ip = e) : Nat)
  holds : ∀ h ∈ hs, (fs.inode h.ip).inum = h.inum ∧ (h.read = true → (fs.inode h.ip).valid = true)
  inum : ∀ e, 0 < (fs0.inode e).ref → (fs.inode e).inum = (fs0.inode e).inum
  valid : ∀ e, 0 < (fs0.inode e).ref → (fs0.inode e).valid = true → (fs.inode e).valid = true
  type : ∀ e, 0 < (fs0.inode e).ref →
    (fs.dinode (fs0.inode e).inum).type = (fs0.dinode (fs0.inode e).inum).type
  typed : ∀ e, 0 < (fs0.inode e).ref → (fs0.dinode (fs0.inode e).inum).type ≠ tFree

/-- Between two operations: whoever has a reference has it to an allocated inode. -/
structure Settled (fs : Fs) : Prop extends Sane fs where
  typed : ∀ e, 0 < (fs.inode e).ref → (fs.dinode (fs.inode e).inum).type ≠ tFree

def Plain (e : Stop) : Prop :=
  e ≠ .panic .freeingFreeBlock ∧ e ≠ .panic .ilockNoType ∧ e ≠ .panic .unlinkNlink ∧
    e ≠ .panic .igetNoInodes

def inUse (fs : Fs) : Nat := (List.finRange ninode).countP fun e => decide (0 < (fs.inode e).ref)

/-- The failures of an operation that began in `fs0` and needs an entry when it has `k`. -/
def Tight (fs0 : Fs) (k : Nat) (e : Stop) : Prop :=
  Plain e ∨ e = .panic .igetNoInodes ∧ ninode ≤ inUse fs0 + k

theorem Tight.mono (h : Tight fs0 k e) (hk : k ≤ k') : Tight fs0 k' e := by
  rcases h with he | ⟨he, hn⟩
  · exact .inl he
  · exact .inr ⟨he, by omega⟩

namespace Orderly

variable {fs fs' : Fs} {ip : Ip} {i : Inode}

theorem setInode (h : Orderly fs) (hc : 0 ≤ i.ref) (hd : 0 < i.ref → i.dev = rootdev)
    (hi : 0 < i.ref → i.inum < 2 ^ 16)
    (hu : 0 < i.ref → ∀ e, e ≠ ip → 0 < (fs.inode e).ref → (fs.inode e).inum ≠ i.inum)
    (hv : 0 < i.ref → i.valid = true →
      i.din = fs.dinode i.inum ∧ (fs.dinode i.inum).type ≠ tFree) :
    Orderly (fs.setInode ip i) where
  acct := h.acct
  counted := by
    intro e
    by_cases he : e = ip
    · subst he
      simpa using hc
    · simpa [he] using h.counted e
  unique := by
    intro e e' hr hr' hn
    by_cases he : e = ip <;> by_cases he' : e' = ip
    · rw [he, he']
    · subst he
      simp only [Fs.setInode_inode, update_self, update_of_ne he'] at hr hr' hn
      exact absurd hn.symm (hu hr e' he' hr')
    · subst he'
      simp only [Fs.setInode_inode, update_self, update_of_ne he] at hr hr' hn
      exact absurd hn (hu hr' e he hr)
    · simp only [Fs.setInode_inode, update_of_ne he, update_of_ne he'] at hr hr' hn
      exact h.unique e e' hr hr' hn
  dev := by
    intro e hr
    by_cases he : e = ip
    · subst he
      simp only [Fs.setInode_inode, update_self] at hr ⊢
      exact hd hr
    · simp only [Fs.setInode_inode, update_of_ne he] at hr ⊢
      exact h.dev e hr
  inum := by
    intro e hr
    by_cases he : e = ip
    · subst he
      simp only [Fs.setInode_inode, update_self] at hr ⊢
      exact hi hr
    · simp only [Fs.setInode_inode, update_of_ne he] at hr ⊢
      exact h.inum e hr
  copies := by
    intro e hr
    by_cases he : e = ip
    · subst he
      simp only [Fs.setInode_inode, update_self] at hr ⊢
      exact hv hr
    · simp only [Fs.setInode_inode, update_of_ne he] at hr ⊢
      exact h.copies e hr
  aligned := h.aligned
  numbered := h.numbered
  few := h.few

theorem full (h : Orderly fs)
    (hz : (List.finRange ninode).find? (fun e => decide ((fs.inode e).ref = 0)) = none) : ninode ≤ inUse fs := by
  have hall : inUse fs = (List.finRange ninode).length := by
    rw [inUse, List.countP_eq_length]
    intro e he
    have hne := List.find?_eq_none.mp hz e he
    have hc := h.counted e
    simp only [decide_eq_true_eq] at hne ⊢
    omega
  rw [hall, List.length_finRange]

theorem claim (h : Orderly fs) (hn : n < 2 ^ 16) (hmiss : ∀ e, 0 < (fs.inode e).ref → (fs.inode e).inum ≠ n) :
    Orderly (fs.setInode ip { fs.inode ip with dev := rootdev, inum := n, ref := 1, valid := false }) :=
  h.setInode (by simp) (fun _ => rfl) (fun _ => hn) (fun _ e _ => hmiss e) fun _ hv => by cases hv

theorem touch (h : Orderly fs) (hr : 0 < (fs.inode ip).ref) (hi : 0 ≤ i.ref)
    (hd : i.dev = (fs.inode ip).dev) (hn : i.inum = (fs.inode ip).inum)
    (hdin : i.valid = true → i.din = fs.dinode i.inum ∧ (fs.dinode i.inum).type ≠ tFree) :
    Orderly (fs.setInode ip i) := by
  refine h.setInode hi (fun _ => hd.trans (h.dev ip hr)) (fun _ => hn ▸ h.inum ip hr) ?_
    fun _ => hdin
  intro _ e he hre heq
  exact he (h.unique e ip hre hr (heq.trans hn))

/-- The table stays in order when one entry and its inode on disk change together. -/
theorem change (h : Orderly fs) (hr : 0 < (fs.inode ip).ref) (hn : (fs.inode ip).inum = n)
    (hacct : Acct fs'.sb fs'.used fs'.data fs'.dinode) (hsb : fs'.sb = fs.sb)
    (hother : ∀ m, m ≠ n → fs'.dinode m = fs.dinode m)
    (hin : fs'.inode = update fs.inode ip i) (hi : 0 ≤ i.ref)
    (hd : i.dev = (fs.inode ip).dev) (hin' : i.inum = n)
    (hv : 0 < i.ref → i.valid = true → i.din = fs'.dinode n ∧ (fs'.dinode n).type ≠ tFree)
    (hal : (fs'.dinode n).type = tDir → (fs'.dinode n).size % direntSize = 0)
    (hty : (fs'.dinode n).type ≠ tFree → (fs.dinode n).type ≠ tFree) :
    Orderly fs' where
  acct := hacct
  counted := by
    intro e
    rw [hin]
    by_cases he : e = ip
    · simpa [he] using hi
    · simpa [he] using h.counted e
  unique := by
    intro e e'
    rw [hin]
    by_cases he : e = ip <;> by_cases he' : e' = ip
    · intro _ _ _
      rw [he, he']
    · simp only [he, update_self, update_of_ne he', hin']
      exact fun _ hr' hn' => h.unique ip e' hr hr' (hn.trans hn')
    · simp only [he', update_self, update_of_ne he, hin']
      exact fun hr' _ hn' => h.unique e ip hr' hr (hn'.trans hn.symm)
    · simp only [update_of_ne he, update_of_ne he']
      exact h.unique e e'
  dev := by
    intro e
    rw [hin]
    by_cases he : e = ip
    · simpa [he, hd] using fun _ => h.dev ip hr
    · simpa [he] using h.dev e
  inum := by
    intro e
    rw [hin]
    by_cases he : e = ip
    · simpa [he, hin', ← hn] using fun _ => h.inum ip hr
    · simpa [he] using h.inum e
  copies := by
    intro e
    rw [hin]
    by_cases he : e = ip
    · simpa [he, hin'] using hv
    · simp only [update_of_ne he]
      intro hre hva
      have hne : (fs.inode e).inum ≠ n := fun h' => he (h.unique e ip hre hr (h'.trans hn.symm))
      rw [hother _ hne]
      exact h.copies e hre hva
  aligned := by
    intro m
    by_cases hm : m = n
    · exact hm ▸ hal
    · rw [hother m hm]
      exact h.aligned m
  numbered := by
    intro m
    rw [hsb]
    by_cases hm : m = n
    · exact fun ht => h.numbered m (hm ▸ hty (hm ▸ ht))
    · rw [hother m hm]
      exact h.numbered m
  few := by
    rw [hsb]
    exact h.few

end Orderly

namespace Sane

variable {fs fs' : Fs} {ip : Ip} {i : Inode}

theorem setInode (h : Sane fs) (hord : Orderly (fs.setInode ip i))
    (hh : 0 < (fs.inode ip).ref → (fs.inode ip).valid = true →
      (fs.dinode (fs.inode ip).inum).nlink = 0 →
      0 < i.ref ∧ i.inum = (fs.inode ip).inum ∧ i.valid = true) : Sane (fs.setInode ip i) where
  toOrderly := hord
  held := by
    intro n ht hn
    obtain ⟨e, hr, rfl, hva⟩ := h.held n ht hn
    by_cases he : e = ip
    · subst he
      obtain ⟨h₁, h2, h3⟩ := hh hr hva hn
      exact ⟨e, by simpa using h₁, by simpa using h2, by simpa using h3⟩
    · exact ⟨e, by simpa [he] using hr, by simp [he], by simpa [he] using hva⟩

theorem touch (h : Sane fs) (hr : 0 < (fs.inode ip).ref) (hi : 0 < i.ref)
    (hd : i.dev = (fs.inode ip).dev) (hn : i.inum = (fs.inode ip).inum)
    (hv : (fs.inode ip).valid = true → i.valid = true)
    (hdin : i.valid = true → i.din = fs.dinode i.inum ∧ (fs.dinode i.inum).type ≠ tFree) :
    Sane (fs.setInode ip i) :=
  h.setInode (h.toOrderly.touch hr (by omega) hd hn hdin) fun _ hva _ => ⟨hi, hn, hv hva⟩

theorem change (h : Sane fs) (hr : 0 < (fs.inode ip).ref) (hn : (fs.inode ip).inum = n)
    (hacct : Acct fs'.sb fs'.used fs'.data fs'.dinode) (hsb : fs'.sb = fs.sb)
    (hother : ∀ m, m ≠ n → fs'.dinode m = fs.dinode m)
    (hin : fs'.inode = update fs.inode ip i) (hi : 0 ≤ i.ref)
    (hd : i.dev = (fs.inode ip).dev) (hin' : i.inum = n)
    (hv : 0 < i.ref → i.valid = true → i.din = fs'.dinode n ∧ (fs'.dinode n).type ≠ tFree)
    (hal : (fs'.dinode n).type = tDir → (fs'.dinode n).size % direntSize = 0)
    (hty : (fs'.dinode n).type ≠ tFree → (fs.dinode n).type ≠ tFree)
    (hh : (fs'.dinode n).type ≠ tFree → (fs'.dinode n).nlink = 0 → 0 < i.ref ∧ i.valid = true) :
    Sane fs' where
  toOrderly := h.toOrderly.change hr hn hacct hsb hother hin hi hd hin' hv hal hty
  held := by
    intro m
    rw [hin]
    by_cases hm : m = n
    · rw [hm]
      intro ht hz
      obtain ⟨h₁, h2⟩ := hh ht hz
      exact ⟨ip, by simpa using h₁, by simpa using hin', by simpa using h2⟩
    · rw [hother m hm]
      intro ht hz
      obtain ⟨e, h₁, h2, h3⟩ := h.held m ht hz
      have he : e ≠ ip := by
        rintro rfl
        exact hm (h2.symm.trans hn)
      exact ⟨e, by simpa [he] using h₁, by simpa [he] using h2, by simpa [he] using h3⟩

end Sane

namespace Busy

variable {fs0 fs fs' : Fs} {hs : List Taken} {ip : Ip} {n : Nat} {v : Bool}

/-- An operation begins without references. -/
theorem begin (h : Settled fs0) : Busy fs0 [] fs0 where
  sane := h.toSane
  start := h.counted
  refs := by simp
  holds := by simp
  inum := fun _ _ => rfl
  valid := fun _ _ hv => hv
  type := fun _ _ => rfl
  typed := h.typed

theorem pos (h : Busy fs0 hs fs) (hm : t ∈ hs) : 0 < (fs.inode t.ip).ref := by
  have hr := h.refs t.ip
  have h0 := h.start t.ip
  have : 0 < hs.countP fun x => decide (x.ip = t.ip) :=
    List.countP_pos_iff.mpr ⟨t, hm, by simp⟩
  omega

theorem ref_le (h : Busy fs0 hs fs) (e : Ip) : (fs0.inode e).ref ≤ (fs.inode e).ref := by
  have := h.refs e
  omega

theorem perm (h : Busy fs0 hs fs) (hp : List.Perm hs hs') : Busy fs0 hs' fs :=
  { h with
    refs := fun e => by rw [h.refs e, hp.countP_eq]
    holds := fun t ht => h.holds t (hp.mem_iff.mpr ht) }

theorem swap (h : Busy fs0 (a :: b :: hs) fs) : Busy fs0 (b :: a :: hs) fs := h.perm (.swap _ _ _)

section

variable (h : Busy fs0 (⟨ip, n, v⟩ :: hs) fs)

include h

theorem inum_eq : (fs.inode ip).inum = n :=
  (h.holds ⟨ip, n, v⟩ (by simp)).1

theorem forget : Busy fs0 (⟨ip, n, false⟩ :: hs) fs :=
  { h with
    refs := fun e => h.refs e
    holds := by
      intro t ht
      rcases List.mem_cons.mp ht with rfl | ht
      · exact ⟨h.inum_eq, by simp⟩
      · exact h.holds t (by simp [ht]) }

theorem ref_pos : 0 < (fs.inode ip).ref :=
  h.pos (t := ⟨ip, n, v⟩) (by simp)

end

theorem copy (h : Busy fs0 (⟨ip, n, true⟩ :: hs) fs) : Copy n ip fs := by
  obtain ⟨hi, hv⟩ := h.holds ⟨ip, n, true⟩ (by simp)
  obtain ⟨hd, ht⟩ := h.sane.copies ip h.ref_pos (hv rfl)
  simp only at hi
  rw [hi] at hd ht
  exact ⟨hi, hd, ht⟩

theorem entry_eq (h : Busy fs0 (⟨ip, n, v⟩ :: hs) fs) (he : 0 < (fs.inode e).ref)
    (hn : (fs.inode e).inum = n) : e = ip :=
  h.sane.unique e ip he h.ref_pos (hn.trans h.inum_eq.symm)

section

variable (h : Busy fs0 hs fs)

include h

/-- Changing the entry `ip`, with the references in `hs'` after it. -/
theorem setInode {i : Inode} (hsane : Sane (fs.setInode ip i))
    (href : i.ref = (fs0.inode ip).ref + (hs'.countP fun t => decide (t.ip = ip) : Nat))
    (hcount : ∀ e, e ≠ ip → (hs'.countP fun t => decide (t.ip = e)) = hs.countP fun t => decide (t.ip = e))
    (hmem : ∀ t ∈ hs', t.ip ≠ ip → t ∈ hs)
    (hhold : ∀ t ∈ hs', t.ip = ip → i.inum = t.inum ∧ (t.read = true → i.valid = true))
    (hinum : 0 < (fs0.inode ip).ref → i.inum = (fs0.inode ip).inum)
    (hvalid : 0 < (fs0.inode ip).ref → (fs0.inode ip).valid = true → i.valid = true) :
    Busy fs0 hs' (fs.setInode ip i) where
  sane := hsane
  start := h.start
  refs := by
    intro e
    by_cases he : e = ip
    · subst he
      simpa using href
    · simpa [he, hcount e he] using h.refs e
  holds := by
    intro t ht
    by_cases he : t.ip = ip
    · simpa [he] using hhold t ht he
    · simpa [he] using h.holds t (hmem t ht he)
  inum := by
    intro e hr
    by_cases he : e = ip
    · subst he
      simpa using hinum hr
    · simpa [he] using h.inum e hr
  valid := by
    intro e hr hv
    by_cases he : e = ip
    · subst he
      simpa using hvalid hr hv
    · simpa [he] using h.valid e hr hv
  type := h.type
  typed := h.typed

/-- One more reference to an entry that has one: `idup`, and `iget` on a hit. -/
theorem again (hr : 0 < (fs.inode ip).ref) (hn : (fs.inode ip).inum = n) :
    Busy fs0 (⟨ip, n, false⟩ :: hs) (fs.setInode ip { fs.inode ip with ref := (fs.inode ip).ref + 1 }) := by
  have hrefs := h.refs ip
  refine h.setInode (h.sane.touch hr (by simp only; omega) rfl rfl id (h.sane.copies ip hr)) ?_ ?_ ?_ ?_
    (h.inum ip) (h.valid ip)
  · simp only [hrefs, List.countP_cons, decide_true, ↓reduceIte]
    omega
  · intro e he
    simp [Ne.symm he]
  · intro t ht he
    rcases List.mem_cons.mp ht with rfl | ht
    · exact absurd rfl he
    · exact ht
  · intro t ht he
    rcases List.mem_cons.mp ht with rfl | ht
    · exact ⟨hn, by simp⟩
    · have := h.holds t ht
      rwa [he] at this

theorem idup (hr : 0 < (fs0.inode ip).ref) : Busy fs0 (⟨ip, (fs0.inode ip).inum, false⟩ :: hs) (fs.idup ip) :=
  h.again (Int.lt_of_lt_of_le hr (h.ref_le ip)) (h.inum ip hr)

theorem inUse_le : inUse fs ≤ inUse fs0 + hs.length := by
  have hsplit : inUse fs ≤ inUse fs0 +
      (List.finRange ninode).countP (fun e => decide (e ∈ hs.map Taken.ip)) := by
    apply countP_le_add
    intro e _ hr
    have hrefs := h.refs e
    simp only [decide_eq_true_eq] at hr ⊢
    by_cases hin : e ∈ hs.map Taken.ip
    · exact .inr hin
    · have hz : hs.countP (fun t => decide (t.ip = e)) = 0 := by
        rw [List.countP_eq_zero]
        intro t ht hte
        exact hin (List.mem_map.mpr ⟨t, ht, by simpa using hte⟩)
      rw [hz] at hrefs
      left
      omega
  have hmem := countP_mem_le (m := hs.map Taken.ip) (List.nodup_finRange ninode)
  rw [List.length_map] at hmem
  omega

/-- `iget` gives a reference, unless the table is full. -/
theorem iget (hn : n < 2 ^ 16) : Post (fs.iget rootdev n) (Tight fs0 hs.length) fun r =>
      Busy fs0 (⟨r.1, n, false⟩ :: hs) r.2 ∧ SameDisk fs r.2 := by
  unfold Fs.iget
  split
  · rename_i ip hfind
    have hp := List.find?_some hfind
    simp only [decide_eq_true_eq] at hp
    exact ⟨h.again hp.1 hp.2.2, .setInode _ _ _⟩
  · rename_i hmiss
    split
    · rename_i ip hfind
      have hz := List.find?_some hfind
      simp only [decide_eq_true_eq] at hz
      have hrefs := h.refs ip
      have h0 := h.start ip
      refine ⟨h.setInode ?_ ?_ ?_ ?_ ?_ (by omega) (by omega), .setInode _ _ _⟩
      · refine h.sane.setInode (h.sane.toOrderly.claim hn ?_) fun hr => by omega
        intro e hr he
        have hnot := List.find?_eq_none.mp hmiss e (List.mem_finRange e)
        simp only [decide_eq_true_eq, not_and] at hnot
        exact hnot hr (h.sane.dev e hr) he
      · simp only [List.countP_cons, decide_true, ↓reduceIte]
        omega
      · intro e he
        simp [Ne.symm he]
      · intro t ht he
        rcases List.mem_cons.mp ht with rfl | ht
        · exact absurd rfl he
        · exact ht
      · intro t ht he
        rcases List.mem_cons.mp ht with rfl | ht
        · exact ⟨rfl, by simp⟩
        · have := h.pos ht
          rw [he] at this
          omega
    · rename_i hz
      exact .inr ⟨rfl, Nat.le_trans (h.sane.full hz) h.inUse_le⟩

end

/-- `ilock` fails on an inode that is free on disk, and else has it read. -/
theorem ilock (h : Busy fs0 (⟨ip, n, v⟩ :: hs) fs) : Post (fs.ilock ip)
      (fun e => Plain e ∨ e = .panic .ilockNoType ∧ v = false ∧ (fs.dinode n).type = tFree)
      fun fs' => Busy fs0 (⟨ip, n, true⟩ :: hs) fs' ∧ SameDisk fs fs' := by
  have hr := h.ref_pos
  have hn := h.inum_eq
  have hset : ∀ i : Inode, i.ref = (fs.inode ip).ref → i.dev = (fs.inode ip).dev →
      i.inum = (fs.inode ip).inum → i.valid = true → i.din = fs.dinode (fs.inode ip).inum →
      (fs.dinode (fs.inode ip).inum).type ≠ tFree →
      Busy fs0 (⟨ip, n, true⟩ :: hs) (fs.setInode ip i) := by
    intro i h₁ h2 h3 h4 h5 h6
    refine h.setInode (h.sane.touch hr (by omega) h2 h3 (fun _ => h4) fun _ => ?_) ?_ ?_ ?_ ?_ ?_ ?_
    · rw [h3]
      exact ⟨h5, h6⟩
    · rw [h₁]
      exact h.refs ip
    · exact fun e _ => rfl
    · intro t ht he
      rcases List.mem_cons.mp ht with rfl | ht
      · exact absurd rfl he
      · exact List.mem_cons_of_mem _ ht
    · intro t ht he
      refine ⟨?_, fun _ => h4⟩
      rcases List.mem_cons.mp ht with rfl | ht
      · exact h3.trans hn
      · have := (h.holds t (List.mem_cons_of_mem _ ht)).1
        rw [he] at this
        exact h3.trans this
    · exact fun h0 => h3.trans (h.inum ip h0)
    · exact fun _ _ => h4
  unfold Fs.ilock
  dsimp only
  split
  · simp [Post, Plain]
  split
  · simp [Post, Plain]
  split
  · rename_i hva
    obtain ⟨hd, ht⟩ := h.sane.copies ip hr hva
    exact ⟨hset _ rfl rfl rfl hva hd ht, .setInode _ _ _⟩
  split
  · rename_i hva ht
    refine .inr ⟨rfl, ?_, hn ▸ ht⟩
    by_contra hv
    exact hva ((h.holds ⟨ip, n, v⟩ (by simp)).2 (by simpa using hv))
  · rename_i ht
    exact ⟨hset _ rfl rfl rfl rfl rfl ht, .setInode _ _ _⟩

theorem iunlock (h : Busy fs0 hs fs) (ip : Ip) :
    Post (fs.iunlock ip) Plain fun fs' => Busy fs0 hs fs' ∧ SameDisk fs fs' := by
  unfold Fs.iunlock
  split
  · simp [Post, Plain]
  · rename_i hl
    have hr : 0 < (fs.inode ip).ref := by omega
    refine ⟨h.setInode (h.sane.touch hr (by simpa using hr) rfl rfl id (h.sane.copies ip hr)) (h.refs ip)
      (fun _ _ => rfl) (fun _ ht _ => ht) ?_ (h.inum ip) (h.valid ip), .setInode _ _ _⟩
    intro t ht he
    have := h.holds t ht
    rwa [he] at this

/-- Changing inode `n` on disk and in its entry, with the references as they are. -/
theorem change (h : Busy fs0 (⟨ip, n, v⟩ :: hs) fs) (hsane : Sane fs')
    (hother : ∀ m, m ≠ n → fs'.dinode m = fs.dinode m)
    (htype : (fs'.dinode n).type = (fs.dinode n).type) {d : Dinode}
    (hin : fs'.inode = update fs.inode ip { fs.inode ip with din := d }) :
    Busy fs0 (⟨ip, n, v⟩ :: hs) fs' where
  sane := hsane
  start := h.start
  refs := by
    intro e
    rw [← h.refs e, hin]
    by_cases he : e = ip <;> simp [he]
  holds := by
    intro t ht
    have := h.holds t ht
    rw [hin]
    by_cases he : t.ip = ip <;> simpa [he] using this
  inum := by
    intro e hr
    rw [← h.inum e hr, hin]
    by_cases he : e = ip <;> simp [he]
  valid := by
    intro e hr hv
    have := h.valid e hr hv
    rw [hin]
    by_cases he : e = ip
    · subst he
      simpa using this
    · simpa [he] using this
  type := by
    intro e hr
    rw [← h.type e hr]
    by_cases hm : (fs0.inode e).inum = n
    · rw [hm, htype]
    · rw [hother _ hm]
  typed := h.typed

end Busy

def Sole (fs0 : Fs) (hs : List Taken) (n : Nat) : Prop :=
  (∀ e, 0 < (fs0.inode e).ref → (fs0.inode e).inum ≠ n) ∧ ∀ t ∈ hs, t.inum ≠ n

def Lasting (fs0 : Fs) (hs : List Taken) (n : Nat) (fs : Fs) : Prop :=
  (fs.dinode n).type ≠ tFree → (fs.dinode n).nlink = 0 → ¬ Sole fs0 hs n

def Firm (fs0 fs : Fs) : Prop :=
  ∀ n, (fs.dinode n).type ≠ tFree → (fs.dinode n).nlink = 0 →
    ∃ e, 0 < (fs0.inode e).ref ∧ (fs0.inode e).inum = n

theorem Lasting.of_sameDisk (h : Lasting fs0 hs n fs) (hd : SameDisk fs fs') : Lasting fs0 hs n fs' := by
  unfold Lasting
  rw [hd.dinode]
  exact h

theorem Lasting.cons (h : Lasting fs0 hs n fs) (t : Taken) : Lasting fs0 (t :: hs) n fs := by
  rintro ht hz ⟨hbase, hown⟩
  exact h ht hz ⟨hbase, fun x hx => hown x (List.mem_cons_of_mem _ hx)⟩

theorem Firm.lasting (h : Firm fs0 fs) (hs : List Taken) (n : Nat) : Lasting fs0 hs n fs := by
  rintro ht hz ⟨hb, -⟩
  obtain ⟨e, hr, hn⟩ := h n ht hz
  exact hb e hr hn

theorem Firm.of_sameDisk (h : Firm fs0 fs) (hd : SameDisk fs fs') : Firm fs0 fs' := by
  unfold Firm
  rw [hd.dinode]
  exact h

theorem Sane.firm (h : Sane fs) : Firm fs fs := by
  intro n ht hz
  obtain ⟨e, hr, hn, -⟩ := h.held n ht hz
  exact ⟨e, hr, hn⟩

structure Cleared (d d' : Dinode) : Prop where
  type : d'.type = tFree
  major : d'.major = d.major
  minor : d'.minor = d.minor
  nlink : d'.nlink = d.nlink
  size : d'.size = 0
  addrs : ∀ i, d'.addrs i = if i ≤ ndirect then 0 else d.addrs i

structure Freed (n : Nat) (fs fs' : Fs) : Prop where
  typed : (fs.dinode n).type ≠ tFree
  unlinked : (fs.dinode n).nlink = 0
  cleared : Cleared (fs.dinode n) (fs'.dinode n)
  other : ∀ m, m ≠ n → fs'.dinode m = fs.dinode m
  data : fs'.data = fs.data
  logs : Logs {fs.iblock n} 0 fs fs'

/-- From `fs` to `fs'` inode `n` in entry `ip` was truncated and marked free on disk. -/
structure Emptied (n : Nat) (ip : Ip) (fs fs' : Fs) : Prop where
  acct : Acct fs'.sb fs'.used fs'.data fs'.dinode
  other : ∀ m, m ≠ n → fs'.dinode m = fs.dinode m
  cleared : Cleared (fs.dinode n) (fs'.dinode n)
  data : fs'.data = fs.data
  entry : ∃ d, fs'.inode = update fs.inode ip { fs.inode ip with din := d }
  logs : Logs {fs.iblock n} 0 fs fs'

/-- A truncated inode that is marked free holds nothing any more. -/
theorem Truncated.emptied (h : Truncated n ip fs fs1) (hn : (fs.inode ip).inum = n) :
    Emptied n ip fs ((fs1.setDin ip { (fs1.inode ip).din with type := tFree }).iupdate ip) := by
  have hdin : (fs1.inode ip).din = fs1.dinode n := by
    rw [h.entry]
    simp
  have hinum : (fs1.inode ip).inum = n := by
    rw [h.entry]
    simpa using hn
  refine ⟨?_, ?_, ?_, ?_, ⟨{ fs1.dinode n with type := tFree }, ?_⟩, ?_⟩
  · obtain ⟨⟨hex, hres, hsm⟩, hd⟩ := h.acct
    simp only [Fs.iupdate, Fs.logWrite_sb, Fs.setDinode_sb, Fs.setDin_sb, Fs.logWrite_used,
      Fs.setDinode_used, Fs.setDin_used, Fs.logWrite_data, Fs.setDinode_data, Fs.setDin_data,
      Fs.logWrite_dinode, Fs.setDinode_dinode, Fs.setDin_dinode, Fs.setDin_inode, update_self,
      hinum, hdin]
    refine ⟨⟨hex.congr ?_, hres, hsm⟩, ?_⟩
    · rintro ⟨m, s⟩
      by_cases hm : m = n
      · subst hm
        simp [placed, h.bare]
      · apply placed_congr <;> simp [update_of_ne hm]
    · intro m ht
      by_cases hm : m = n
      · subst hm
        simp at ht
      · rw [update_of_ne hm] at ht ⊢
        exact hd m ht
  · intro m hm
    simp [Fs.iupdate, hinum, hm, h.dinode]
  · have hnew : (((fs1.setDin ip { (fs1.inode ip).din with type := tFree }).iupdate ip).dinode n) =
        { fs1.dinode n with type := tFree } := by
      simp [Fs.iupdate, hinum, hdin]
    rw [hnew, h.shape]
    refine ⟨rfl, rfl, rfl, rfl, rfl, ?_⟩
    intro i
    simp only [without, List.mem_range, Nat.lt_succ_iff]
  · simp [Fs.iupdate, h.data]
  · simp only [Fs.iupdate, Fs.logWrite_inode, Fs.setDinode_inode, Fs.setDin_inode]
    rw [h.entry]
    simp
  · refine h.logs.tail (Logs.update ?_ _)
    simp [hinum, Fs.iblock, h.logs.sb]

theorem Freed.free (h : Freed n fs fs') : (fs'.dinode n).type = tFree := h.cleared.type

theorem Freed.nlink (h : Freed n fs fs') : (fs'.dinode n).nlink = 0 := h.cleared.nlink.trans h.unlinked

namespace Emptied

theorem free (h : Emptied n ip fs fs') : (fs'.dinode n).type = tFree := h.cleared.type

theorem setInode (h : Emptied n ip fs fs') (i : Inode) : (fs'.setInode ip i).inode = update fs.inode ip i := by
  obtain ⟨d, hd⟩ := h.entry
  rw [Fs.setInode_inode, hd, update_idem]

theorem inode (h : Emptied n ip fs fs') : ∃ d, fs'.inode ip = { fs.inode ip with din := d } := by
  obtain ⟨d, hd⟩ := h.entry
  exact ⟨d, by rw [hd, update_self]⟩

theorem orderly (h : Emptied n ip fs fs') (ho : Orderly fs) (hr : 0 < (fs.inode ip).ref)
    (hn : (fs.inode ip).inum = n) :
    Orderly (fs'.setInode ip { fs'.inode ip with valid := false, ref := 0 }) := by
  obtain ⟨d, hd⟩ := h.inode
  refine ho.change hr hn h.acct h.logs.sb h.other (h.setInode _) (by simp) (by simp [hd])
    (by simp [hd, hn]) (by simp) ?_ ?_
  · exact fun ht => absurd (h.free.symm.trans ht) (by decide)
  · exact fun ht => absurd h.free ht

end Emptied

theorem Emptied.freed (h : Emptied n ip fs fs') (ht : (fs.dinode n).type ≠ tFree)
    (hz : (fs.dinode n).nlink = 0) (i : Inode) : Freed n fs (fs'.setInode ip i) where
  typed := ht
  unlinked := hz
  cleared := h.cleared
  other := h.other
  data := h.data
  logs := h.logs.tail (.of_eq rfl rfl)

theorem iput_eq (fs : Fs) (ip : Ip) : fs.iput ip =
    if (fs.inode ip).ref = 1 ∧ (fs.inode ip).valid = true ∧ (fs.inode ip).din.nlink = 0 then
      if (fs.inode ip).locked then .error .blocked
      else match fs.itrunc ip with
        | .error why => .error why
        | .ok fs1 =>
          let fs2 := (fs1.setDin ip { (fs1.inode ip).din with type := tFree }).iupdate ip
          .ok (fs2.setInode ip { fs2.inode ip with valid := false, ref := (fs2.inode ip).ref - 1 })
    else .ok (fs.setInode ip { fs.inode ip with ref := (fs.inode ip).ref - 1 }) := by
  unfold Fs.iput
  dsimp only
  split
  · split
    · rfl
    · cases fs.itrunc ip with
      | error why => rfl
      | ok fs1 => simp [pure, Except.pure, bind, Except.bind, Fs.setInode]
  · rfl

namespace Busy

variable {fs0 fs fs' : Fs} {hs : List Taken} {ip : Ip} {n : Nat} {v : Bool}

section

variable (h : Busy fs0 (⟨ip, n, v⟩ :: hs) fs)

include h

theorem drop (hstay : ¬ ((fs.inode ip).ref = 1 ∧ (fs.inode ip).valid = true ∧ (fs.inode ip).din.nlink = 0)) :
    Busy fs0 hs (fs.setInode ip { fs.inode ip with ref := (fs.inode ip).ref - 1 }) := by
  have hr := h.ref_pos
  have hrefs := h.refs ip
  simp only [List.countP_cons, decide_true, ↓reduceIte] at hrefs
  have h0 := h.start ip
  refine h.setInode ?_ (by simp only; omega) ?_ (fun t ht _ => List.mem_cons_of_mem _ ht) ?_ (h.inum ip)
    (h.valid ip)
  · refine h.sane.setInode (h.sane.toOrderly.touch hr (by simp only; omega) rfl rfl (h.sane.copies ip hr)) ?_
    intro _ hva hz
    rw [← (h.sane.copies ip hr hva).1] at hz
    refine ⟨?_, rfl, hva⟩
    have : (fs.inode ip).ref ≠ 1 := fun h1 => hstay ⟨h1, hva, hz⟩
    simp only
    omega
  · intro e he
    simp [Ne.symm he]
  · intro t ht he
    have := h.holds t (List.mem_cons_of_mem _ ht)
    rwa [he] at this

theorem know (hv : (fs.inode ip).valid = true) : Busy fs0 (⟨ip, n, true⟩ :: hs) fs :=
  { h with
    refs := fun e => h.refs e
    holds := by
      intro t ht
      rcases List.mem_cons.mp ht with rfl | ht
      · exact ⟨h.inum_eq, fun _ => hv⟩
      · exact h.holds t (by simp [ht]) }

theorem sole (h1 : (fs.inode ip).ref = 1) : Sole fs0 hs n := by
  have hrefs := h.refs ip
  simp only [List.countP_cons, decide_true, ↓reduceIte] at hrefs
  have h0 := h.start ip
  constructor
  · intro e hr he
    have := h.entry_eq (Int.lt_of_lt_of_le hr (h.ref_le e)) ((h.inum e hr).trans he)
    subst this
    omega
  · intro t ht he
    have hm := List.mem_cons_of_mem (⟨ip, n, v⟩ : Taken) ht
    have := h.entry_eq (h.pos hm) ((h.holds t hm).1.trans he)
    have : 0 < hs.countP fun x => decide (x.ip = ip) := List.countP_pos_iff.mpr ⟨t, ht, by simp [this]⟩
    omega

end

theorem free (h : Busy fs0 (⟨ip, n, true⟩ :: hs) fs) (h1 : (fs.inode ip).ref = 1) (he : Emptied n ip fs fs2) :
    Busy fs0 hs (fs2.setInode ip { fs2.inode ip with valid := false, ref := 0 }) := by
  have hn := h.inum_eq
  have hrefs := h.refs ip
  simp only [List.countP_cons, decide_true, ↓reduceIte] at hrefs
  have h0 := h.start ip
  have hnone : hs.countP (fun t => decide (t.ip = ip)) = 0 := by omega
  have hz : (fs0.inode ip).ref = 0 := by omega
  have hsole := h.sole h1
  have hnot : ∀ t ∈ hs, t.ip ≠ ip := by
    intro t ht
    have := List.countP_eq_zero.mp hnone t ht
    simpa using this
  have hbase : ∀ e, 0 < (fs0.inode e).ref → e ≠ ip := by
    rintro e hr rfl
    omega
  refine ⟨⟨he.orderly h.sane.toOrderly h.ref_pos hn, ?_⟩, h.start, ?_, ?_, ?_, ?_, ?_, h.typed⟩
  · intro m ht hl
    have hm : m ≠ n := by
      rintro rfl
      exact ht he.free
    rw [Fs.setInode_dinode, he.other m hm] at ht hl
    obtain ⟨e, h₁, h2, h3⟩ := h.sane.held m ht hl
    have hne : e ≠ ip := by
      rintro rfl
      exact hm (h2.symm.trans hn)
    rw [he.setInode]
    exact ⟨e, by simpa [hne] using h₁, by simpa [hne] using h2, by simpa [hne] using h3⟩
  · intro e
    rw [he.setInode]
    by_cases hx : e = ip
    · subst hx
      simp [hz, hnone]
    · simpa [hx, Ne.symm hx] using h.refs e
  · intro t ht
    rw [he.setInode]
    simpa [hnot t ht] using h.holds t (List.mem_cons_of_mem _ ht)
  · intro e hr
    rw [he.setInode]
    simpa [hbase e hr] using h.inum e hr
  · intro e hr hv
    rw [he.setInode]
    simpa [hbase e hr] using h.valid e hr hv
  · intro e hr
    rw [Fs.setInode_dinode, he.other _ (hsole.1 e hr)]
    exact h.type e hr

/-- `iput` drops the reference, and frees the inode if it was the last and there are no links. -/
theorem iput (h : Busy fs0 (⟨ip, n, v⟩ :: hs) fs) : Post (fs.iput ip) Plain fun fs' =>
      Busy fs0 hs fs' ∧ (SameDisk fs fs' ∨ Freed n fs fs' ∧ Sole fs0 hs n) := by
  rw [iput_eq]
  split
  · rename_i hlast
    obtain ⟨h1, hv, hz⟩ := hlast
    split
    · simp [Post, Plain]
    · have hk := h.know hv
      obtain ⟨fs1, hrun, htr⟩ := hk.copy.itrunc h.sane.acct
      have he := htr.emptied h.inum_eq
      rw [hk.copy.same] at hz
      rw [hrun]
      dsimp only
      generalize (fs1.setDin ip { (fs1.inode ip).din with type := tFree }).iupdate ip = fs2 at he
      have href : (fs2.inode ip).ref - 1 = 0 := by
        obtain ⟨d, hd⟩ := he.inode
        simp [hd, h1]
      rw [href]
      exact ⟨hk.free h1 he, .inr ⟨he.freed hk.copy.typed hz _, h.sole h1⟩⟩
  · rename_i hstay
    exact ⟨h.drop hstay, .inl (.setInode _ _ _)⟩

/-- An inode without links is in other hands too, so that `iput` does not free it. -/
theorem lasting (h : Busy fs0 hs fs) (n : Nat) : Lasting fs0 hs n fs := by
  rintro ht hz ⟨hbase, hown⟩
  obtain ⟨e, hr, hn, -⟩ := h.sane.held n ht hz
  by_cases h0 : 0 < (fs0.inode e).ref
  · exact hbase e h0 ((h.inum e h0).symm.trans hn)
  · have hrefs := h.refs e
    have hpos : 0 < hs.countP fun t => decide (t.ip = e) := by omega
    obtain ⟨t, ht, he⟩ := List.countP_pos_iff.mp hpos
    simp only [decide_eq_true_eq] at he
    exact hown t ht ((h.holds t ht).1.symm.trans (by rw [he, hn]))

section

variable (h : Busy fs0 (⟨ip, n, v⟩ :: hs) fs)

include h

/-- Giving back a reference to an inode that has links or that others have too. -/
theorem iput_kept (hstay : Lasting fs0 hs n fs) :
    Post (fs.iput ip) Plain fun fs' => Busy fs0 hs fs' ∧ SameDisk fs fs' := by
  refine h.iput.imp (fun _ he => he) ?_
  rintro fs' ⟨hb, hd | ⟨hf, ha⟩⟩
  · exact ⟨hb, hd⟩
  · exact absurd ha (hstay hf.typed hf.unlinked)

theorem iunlockput : Post (fs.iunlockput ip) Plain fun fs' =>
      Busy fs0 hs fs' ∧ (SameDisk fs fs' ∨ ∃ fs1, SameDisk fs fs1 ∧ Freed n fs1 fs' ∧ Sole fs0 hs n) := by
  refine (h.iunlock ip).bind ?_
  rintro fs1 ⟨h₁, hd1⟩
  refine h₁.iput.imp (fun _ he => he) ?_
  rintro fs' ⟨hb, hd | ⟨hf, ha⟩⟩
  · exact ⟨hb, .inl (hd1.trans hd)⟩
  · exact ⟨hb, .inr ⟨fs1, hd1, hf, ha⟩⟩

theorem iunlockput_kept (hstay : Lasting fs0 hs n fs) :
    Post (fs.iunlockput ip) Plain fun fs' => Busy fs0 hs fs' ∧ SameDisk fs fs' := by
  refine (h.iunlock ip).bind ?_
  rintro fs1 ⟨h₁, hd1⟩
  refine (h₁.iput_kept (hstay.of_sameDisk hd1)).imp (fun _ he => he) ?_
  rintro fs' ⟨hb, hd⟩
  exact ⟨hb, hd1.trans hd⟩

end

end Busy

end Xv6Filter.Proofs
