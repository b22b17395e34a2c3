import Xv6Filter.Kernel.Boot
import Xv6Filter.Proofs.TreeChanges

namespace Xv6Filter.Proofs
open Lib

/-- From `fs` to `fs'` inode `n` was freed if it had no links and nobody had it. The table
keeps its references. -/
structure Reclaimed (n : Nat) (fs fs' : Fs) : Prop where
  orderly : Orderly fs'
  refs : ∀ e, (fs'.inode e).ref = (fs.inode e).ref
  locked : ∀ e, (fs'.inode e).locked = true → (fs.inode e).locked = true
  keeps : ∀ e, 0 < (fs.inode e).ref → (fs'.inode e).inum = (fs.inode e).inum ∧
    ((fs.inode e).valid = true → (fs'.inode e).valid = true)
  held : (fs'.dinode n).type ≠ tFree → (fs'.dinode n).nlink = 0 →
    ∃ e, 0 < (fs'.inode e).ref ∧ (fs'.inode e).inum = n ∧ (fs'.inode e).valid = true
  disk : SameDisk fs fs' ∨ Freed n fs fs' ∧ ∀ e, 0 < (fs.inode e).ref → (fs.inode e).inum ≠ n

def reread (fs : Fs) (n : Nat) (i : Inode) : Inode :=
  { i with locked := false, valid := true, din := fs.dinode n }

/-- What can keep `ireclaim` from going on: somebody has an inode locked, or no entry of the
table is unused. -/
def Hindered (fs : Fs) (e : Stop) : Prop :=
  e = .blocked ∧ (∃ x, (fs.inode x).locked = true) ∨ e = .panic .igetNoInodes ∧ ninode ≤ inUse fs

theorem ilock_iunlock {fs : Fs} {i : Inode} (hn : i.inum = n) (ht : (fs.dinode n).type ≠ tFree)
    (hv : i.valid = true → i.din = fs.dinode n) (hr : 0 < i.ref) (hi : i.locked = (fs.inode ip).locked)
    (go : Fs → Kern Fs) {Q : Fs → Prop} (hgo : Runs (go (fs.setInode ip (reread fs n i))) Q) :
    Post (do
      let fs ← (fs.setInode ip i).ilock ip
      let fs ← fs.iunlock ip
      go fs) (Hindered fs) Q := by
  have hr : ¬ i.ref < 1 := by omega
  by_cases hl : i.locked = true
  · have hblocked : (fs.setInode ip i).ilock ip = .error .blocked := by simp [Fs.ilock, hr, hl]
    rw [hblocked]
    exact .inl ⟨rfl, ip, hi ▸ hl⟩
  have hdone : Post (go (fs.setInode ip (reread fs n i))) (Hindered fs) Q := hgo.post
  unfold reread at hdone
  by_cases hva : i.valid = true
  · rw [← hv hva] at hdone
    simpa [Fs.ilock, Fs.iunlock, hr, hl, hva, bind, Except.bind, Fs.setInode] using hdone
  · have ht : ¬ (fs.dinode n).type = 0#16 := ht
    simpa [Fs.ilock, Fs.iunlock, hr, hl, hva, hn, ht, bind, Except.bind, Fs.setInode] using hdone

section Step

variable {fs : Fs} {ip : Ip} {n : Nat}

theorem Orderly.reclaim_had (h : Orderly fs) (ht : (fs.dinode n).type ≠ tFree)
    (hr : 0 < (fs.inode ip).ref) (hn : (fs.inode ip).inum = n) :
    Runs ((fs.setInode ip (reread fs n { fs.inode ip with ref := (fs.inode ip).ref + 1 })).iput ip)
      (Reclaimed n fs) := by
  have hone : ¬ (fs.inode ip).ref + 1 = 1 := by omega
  have hput : (fs.setInode ip (reread fs n { fs.inode ip with ref := (fs.inode ip).ref + 1 })).iput ip =
      .ok (fs.setInode ip (reread fs n (fs.inode ip))) := by
    rw [iput_eq, if_neg (by simp [reread, hone])]
    simp [Fs.setInode, reread]
  rw [hput]
  refine ⟨h.touch hr (by simpa [reread] using Int.le_of_lt hr) rfl rfl fun _ => ?_, ?_, ?_, ?_, ?_,
    .inl (.setInode _ _ _)⟩
  · simpa [reread, hn] using ht
  · intro e
    by_cases he : e = ip <;> simp [he, reread]
  · intro e
    by_cases he : e = ip <;> simp [he, reread]
  · intro e _
    by_cases he : e = ip <;> simp [he, reread]
  · intro _ _
    exact ⟨ip, by simpa [reread] using hr, by simpa [reread] using hn, by simp [reread]⟩

/-- `ireclaim` frees an inode without links that no process has. -/
theorem Orderly.reclaim_lost (h : Orderly fs) (hn : n < 2 ^ 16) (ht : (fs.dinode n).type ≠ tFree)
    (hl : (fs.dinode n).nlink = 0) (hz : (fs.inode ip).ref = 0)
    (hmiss : ∀ e, 0 < (fs.inode e).ref → (fs.inode e).inum ≠ n) {i : Inode}
    (hi : i = { fs.inode ip with dev := rootdev, inum := n, ref := 1, valid := false }) :
    Runs ((fs.setInode ip (reread fs n i)).iput ip) (Reclaimed n fs) := by
  generalize hg : fs.setInode ip (reread fs n i) = g
  have hip : g.inode ip = reread fs n i := by
    rw [← hg]
    simp
  have hd : SameDisk fs g := by
    rw [← hg]
    exact .setInode _ _ _
  have hg1 : Orderly g := by
    have hset : g = (fs.setInode ip i).setInode ip (reread fs n i) := by
      rw [← hg]
      simp [Fs.setInode]
    rw [hset]
    refine Orderly.touch (hi ▸ h.claim hn hmiss) (by simp [hi]) (by simp [reread, hi])
      (by simp [reread]) (by simp [reread]) fun _ => ?_
    simpa [reread, hi] using ht
  have hinum : (g.inode ip).inum = n := by simp [hip, reread, hi]
  have hcopy : Copy n ip g := ⟨hinum, by simp [hip, reread, hd.dinode], by rwa [hd.dinode]⟩
  obtain ⟨fs1, hrun, htr⟩ := hcopy.itrunc hg1.acct
  have he := htr.emptied hinum
  rw [iput_eq, if_pos (by simp [hip, reread, hi, hl]), if_neg (by simp [hip, reread]), hrun]
  dsimp only
  generalize (fs1.setDin ip { (fs1.inode ip).din with type := tFree }).iupdate ip = fs2 at he
  have href : (fs2.inode ip).ref - 1 = 0 := by
    obtain ⟨d, hd⟩ := he.inode
    simp [hd, hip, reread, hi]
  rw [href]
  have hfreed := he.freed hcopy.typed (by rw [hd.dinode]; exact hl)
    { fs2.inode ip with valid := false, ref := 0 }
  have hother : ∀ e, e ≠ ip → (fs2.setInode ip { fs2.inode ip with valid := false, ref := 0 }).inode e =
      fs.inode e := by
    intro e hne
    rw [he.setInode, Function.update_of_ne hne, ← hg]
    simp [hne]
  refine ⟨he.orderly hg1 (by simp [hip, reread, hi]) hinum, ?_, ?_, ?_, ?_, .inr ⟨?_, hmiss⟩⟩
  · intro e
    by_cases hx : e = ip
    · subst hx
      simp [hz]
    · rw [hother e hx]
  · intro e
    by_cases hx : e = ip
    · subst hx
      obtain ⟨d, hd⟩ := he.inode
      simp [hd, hip, reread]
    · rw [hother e hx]
      exact id
  · intro e hr
    have hx : e ≠ ip := by
      rintro rfl
      omega
    rw [hother e hx]
    exact ⟨rfl, id⟩
  · exact fun hne => absurd hfreed.free hne
  · obtain ⟨f1, f2, f3, f4, f5, f6⟩ := hfreed
    rw [hd.dinode] at f1 f2 f3 f4
    refine ⟨f1, f2, f3, f4, f5.trans hd.data, hd.logs.tail ?_⟩
    simpa [Fs.iblock, hd.sb] using f6

/-- One turn of `ireclaim` frees inode `n` if nothing names it. -/
theorem Orderly.ireclaimStep (h : Orderly fs) (hn : n < 2 ^ 16) :
    Post (fs.ireclaimStep n) (Hindered fs) (Reclaimed n fs) := by
  unfold Fs.ireclaimStep
  split
  · rename_i hlost
    obtain ⟨ht, hl⟩ := hlost
    unfold Fs.iget
    split
    · rename_i ip hfind
      have hp := List.find?_some hfind
      simp only [decide_eq_true_eq] at hp
      obtain ⟨hr, -, hin⟩ := hp
      refine ilock_iunlock (i := { fs.inode ip with ref := (fs.inode ip).ref + 1 }) hin ht (fun hv => ?_)
        (Int.lt_add_one_of_le (Int.le_of_lt hr)) rfl (fun fs => fs.iput ip) (h.reclaim_had ht hr hin)
      rw [(h.copies ip hr hv).1, hin]
    · rename_i hmiss
      split
      · rename_i ip hfind
        have hz := List.find?_some hfind
        simp only [decide_eq_true_eq] at hz
        refine ilock_iunlock
          (i := { fs.inode ip with dev := rootdev, inum := n, ref := 1, valid := false }) rfl ht
          (fun hv => by cases hv) Int.one_pos rfl (fun fs => fs.iput ip) (h.reclaim_lost hn ht hl hz ?_ rfl)
        intro e hr he
        have hnot := List.find?_eq_none.mp hmiss e (List.mem_finRange e)
        simp only [decide_eq_true_eq, not_and] at hnot
        exact hnot hr (h.dev e hr) he
      · rename_i hz
        exact .inr ⟨rfl, h.full hz⟩
  · rename_i hlinked
    exact ⟨h, fun _ => rfl, fun _ => id, fun _ _ => ⟨rfl, id⟩, fun ht hl => absurd ⟨ht, hl⟩ hlinked, .inl (.refl _)⟩

end Step

structure Swept (l : List Nat) (fs fs' : Fs) : Prop where
  orderly : Orderly fs'
  refs : ∀ e, (fs'.inode e).ref = (fs.inode e).ref
  keeps : ∀ e, 0 < (fs.inode e).ref → (fs'.inode e).inum = (fs.inode e).inum ∧
    ((fs.inode e).valid = true → (fs'.inode e).valid = true) ∧
    fs'.dinode (fs.inode e).inum = fs.dinode (fs.inode e).inum
  left : ∀ n, (fs'.dinode n).type ≠ tFree → fs'.dinode n = fs.dinode n
  held : ∀ n ∈ l, (fs'.dinode n).type ≠ tFree → (fs'.dinode n).nlink = 0 →
    ∃ e, 0 < (fs'.inode e).ref ∧ (fs'.inode e).inum = n ∧ (fs'.inode e).valid = true
  tree : Reaped (tree fs) (tree fs')
  sb : fs'.sb = fs.sb

theorem Reclaimed.swept (h : Reclaimed n fs fs1) (h' : Swept l fs1 fs') : Swept (n :: l) fs fs' := by
  have hpos : ∀ e, 0 < (fs.inode e).ref → 0 < (fs1.inode e).ref := fun e hr => h.refs e ▸ hr
  refine ⟨h'.orderly, fun e => (h'.refs e).trans (h.refs e), ?_, ?_, ?_, ?_, ?_⟩
  · intro e hr
    obtain ⟨hi, hv⟩ := h.keeps e hr
    obtain ⟨hi', hv', hd'⟩ := h'.keeps e (hpos e hr)
    rw [hi] at hd'
    refine ⟨hi'.trans hi, fun hva => hv' (hv hva), hd'.trans ?_⟩
    rcases h.disk with hd | ⟨hf, hne⟩
    · rw [hd.dinode]
    · exact hf.other _ (hne e hr)
  · intro m ht
    have hm := h'.left m ht
    rw [hm] at ht ⊢
    rcases h.disk with hd | ⟨hf, -⟩
    · rw [hd.dinode]
    · exact hf.other m fun he => ht (he ▸ hf.free)
  · intro m hm ht hl
    rcases List.mem_cons.mp hm with rfl | hm
    · have hsame := h'.left m ht
      rw [hsame] at ht hl
      obtain ⟨e, hr, hn, hv⟩ := h.held ht hl
      obtain ⟨hi', hv', -⟩ := h'.keeps e hr
      exact ⟨e, by rw [h'.refs]; exact hr, hi'.trans hn, hv' hv⟩
    · exact h'.held m hm ht hl
  · have hstep : Reaped (Proofs.tree fs) (Proofs.tree fs1) :=
      (Reaped.refl _).drop (h.disk.imp id fun hf => ⟨fs, .refl _, hf⟩)
    exact hstep.trans h'.tree
  · rcases h.disk with hd | ⟨hf, -⟩
    · exact h'.sb.trans hd.sb
    · exact h'.sb.trans hf.logs.sb

theorem Hindered.before (h : Hindered fs1 e) (hr : Reclaimed n fs fs1) : Hindered fs e := by
  have hsame : inUse fs1 = inUse fs := by simp only [inUse, hr.refs]
  rcases h with ⟨he, x, hx⟩ | ⟨he, hfull⟩
  · exact .inl ⟨he, x, hr.locked x hx⟩
  · exact .inr ⟨he, hsame ▸ hfull⟩

theorem Orderly.ireclaim_loop {fs : Fs} (h : Orderly fs) {l : List Nat} (hl : ∀ n ∈ l, n < 2 ^ 16) :
    Post (l.foldlM Fs.ireclaimStep fs) (Hindered fs) (Swept l fs) := by
  induction l generalizing fs with
  | nil => exact ⟨h, fun _ => rfl, fun _ _ => ⟨rfl, id, rfl⟩, fun _ _ => rfl, by simp, .refl _, rfl⟩
  | cons n l ih =>
    rw [List.foldlM_cons]
    refine (h.ireclaimStep (hl n (by simp))).bind ?_
    intro fs1 h1
    refine (ih h1.orderly fun m hm => hl m (by simp [hm])).imp (fun e he => he.before h1) fun _ h' => h1.swept h'

theorem Orderly.ahead (h : Orderly fs) (ht : (fs.dinode n).type ≠ tFree) :
    n ∈ (List.range fs.sb.ninodes).drop 1 := by
  obtain ⟨h0, hlt⟩ := h.numbered n ht
  exact List.mem_drop_iff_getElem.mpr ⟨n - 1, by simp; omega, by simp; omega⟩

theorem Orderly.inums (h : Orderly fs) (hn : n ∈ (List.range fs.sb.ninodes).drop 1) : n < 2 ^ 16 :=
  Nat.lt_of_lt_of_le (List.mem_range.mp (List.mem_of_mem_drop hn)) h.few

theorem Orderly.ireclaim {fs : Fs} (h : Orderly fs) :
    Post fs.ireclaim (Hindered fs) fun fs' => Sane fs' ∧ Swept ((List.range fs.sb.ninodes).drop 1) fs fs' := by
  refine (h.ireclaim_loop fun n hn => ?_).imp (fun _ he => he) fun fs' hs => ⟨⟨hs.orderly, ?_⟩, hs⟩
  · exact h.inums hn
  · exact fun n ht hl => hs.held n (h.ahead (hs.left n ht ▸ ht)) ht hl

end Xv6Filter.Proofs
