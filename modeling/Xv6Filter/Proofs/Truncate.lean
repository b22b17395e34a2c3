import Xv6Filter.Lib.Result
import Xv6Filter.Proofs.Storing

namespace Xv6Filter.Proofs
open Lib

structure Released (fs fs' : Fs) : Prop where
  data : fs'.data = fs.data
  dinode : fs'.dinode = fs.dinode
  sb : fs'.sb = fs.sb
  logs : ∀ b ∈ fs'.logged, b ∈ fs.logged ∨ InBitmap fs.sb b

namespace Released

variable {fs fs1 fs' : Fs}

theorem refl (fs : Fs) : Released fs fs := ⟨rfl, rfl, rfl, fun _ => .inl⟩

theorem trans (h : Released fs fs1) (h' : Released fs1 fs') : Released fs fs' where
  data := h'.data.trans h.data
  dinode := h'.dinode.trans h.dinode
  sb := h'.sb.trans h.sb
  logs := by
    intro b hb
    rcases h'.logs b hb with hb | hb
    · exact h.logs b hb
    · exact .inr (h.sb ▸ hb)

end Released

theorem Cover.remove (h : Cover sb used own) (hi : own i ≠ 0) (hb : own' i = 0)
    (ho : ∀ j, j ≠ i → own' j = own j) : Cover sb (Function.update used (own i) false) own' := by
  refine ⟨h.exact.remove hi rfl hb ho, ?_, h.small⟩
  intro b hlt
  have hne : b ≠ own i := by
    rintro rfl
    exact Nat.not_le.mpr hlt (h.exact.inside i hi).1
  rw [Function.update_of_ne hne]
  exact h.reserved b hlt

theorem Cover.bfree {fs : Fs} (h : Cover fs.sb fs.used own) (hi : own i ≠ 0) :
    ∃ fs', fs.bfree (own i) = .ok fs' ∧ fs'.used = Function.update fs.used (own i) false ∧
      fs'.inode = fs.inode ∧ Released fs fs' := by
  have hu := h.exact.marked i hi
  refine ⟨_, if_neg (by simp [hu]), by simp, by simp, by simp, by simp, by simp, ?_⟩
  intro b hb
  rcases mem_logWrite.mp hb with hb | rfl
  · exact .inl hb
  · exact .inr ⟨own i, (h.exact.inside i hi).2, rfl⟩

def without (d : Dinode) (l : List Nat) : Dinode :=
  { d with addrs := fun i => if i ∈ l then 0 else d.addrs i }

theorem without_cons (d : Dinode) (i : Nat) (l : List Nat) :
    without d (i :: l) = without { d with addrs := Function.update d.addrs i 0 } l := by
  unfold without
  congr 1
  funext j
  by_cases hj : j = i <;> simp [hj]

section Itrunc

variable {fs : Fs} {ip : Ip} {n : Nat} {l : List Nat}

theorem itruncDirect_loop (hc : Cover fs.sb fs.used
      (placed fs.data (Function.update fs.dinode n (fs.inode ip).din)))
    (ht : (fs.inode ip).din.type ≠ tFree) (hl : ∀ i ∈ l, i < ndirect) :
    ∃ fs', l.foldlM (Fs.itruncDirect ip) fs = .ok fs' ∧ Released fs fs' ∧
      fs'.inode = Function.update fs.inode ip { fs.inode ip with din := without (fs.inode ip).din l } ∧
      Cover fs'.sb fs'.used (placed fs'.data (Function.update fs'.dinode n (fs'.inode ip).din)) := by
  induction l generalizing fs with
  | nil =>
    refine ⟨fs, rfl, .refl fs, ?_, hc⟩
    simp [without]
  | cons i l ih =>
    have hi : i < ndirect := hl i (by simp)
    have hl' : ∀ j ∈ l, j < ndirect := fun j hj => hl j (by simp [hj])
    rw [List.foldlM_cons]
    by_cases h0 : (fs.inode ip).din.addrs i = 0
    · obtain ⟨fs', hrun, hrel, hin, hc'⟩ := ih hc ht hl'
      refine ⟨fs', ?_, hrel, ?_, hc'⟩
      · simp [Fs.itruncDirect, h0, bind, Except.bind, hrun]
      · rw [hin, without_cons, ← h0, Function.update_eq_self]
    · have hown : placed fs.data (Function.update fs.dinode n (fs.inode ip).din) (n, i) =
          (fs.inode ip).din.addrs i := by
        rw [placed_pos (by simp only [nslots]; omega) (by simpa using ht), Function.update_self, slotAddr,
          if_pos (by omega)]
      obtain ⟨fs1, hfree, hused, hinode, hrel1⟩ := hc.bfree (i := (n, i)) (by rwa [hown])
      rw [hown] at hfree hused
      generalize hd : { (fs.inode ip).din with
        addrs := Function.update (fs.inode ip).din.addrs i 0 } = d at *
      have hstep : Fs.itruncDirect ip fs i = .ok (fs1.setDin ip d) := by
        unfold Fs.itruncDirect
        dsimp only
        rw [if_neg h0, hfree, hd]
      have hc1 : Cover (fs1.setDin ip d).sb (fs1.setDin ip d).used (placed (fs1.setDin ip d).data
          (Function.update (fs1.setDin ip d).dinode n ((fs1.setDin ip d).inode ip).din)) := by
        have hn : ndirect ≠ i := by omega
        simp only [Fs.setDin_sb, Fs.setDin_used, Fs.setDin_data, Fs.setDin_dinode, Fs.setDin_inode,
          Function.update_self, hrel1.sb, hrel1.data, hrel1.dinode, hused, ← hown]
        apply hc.remove (i := (n, i)) (by rwa [hown])
        · rw [placed_pos (by simp only [nslots]; omega) (by simpa [← hd] using ht), Function.update_self,
            slotAddr, if_pos (by omega), ← hd]
          simp
        · rintro ⟨m, s⟩ hne
          by_cases hmn : m = n
          · subst hmn
            have hs : s ≠ i := fun he => hne (he ▸ rfl)
            apply placed_congr <;> simp only [Function.update_self]
            · rw [← hd]
            · intro _ _
              simp [slotAddr, ← hd, hs, hn]
          · apply placed_congr <;> simp [Function.update_of_ne hmn]
      obtain ⟨fs', hrun, hrel, hin, hc'⟩ := ih hc1 (by simpa [← hd] using ht) hl'
      refine ⟨fs', ?_, ?_, ?_, hc'⟩
      · simp only [hstep, bind, Except.bind]
        exact hrun
      · exact hrel1.trans ⟨hrel.data, hrel.dinode, hrel.sb, hrel.logs⟩
      · rw [hin]
        simp only [Fs.setDin_inode, hinode, Function.update_self, Function.update_idem, without_cons, hd]

/-- The indirect loop of `itrunc` gives back the entries of the block. -/
theorem itruncIndirect_loop {a : Block} {own : Nat × Nat → Nat} (hc : Cover fs.sb fs.used own)
    (hl : l.Nodup) (ha : ∀ j ∈ l, own (n, ndirect + 1 + j) = word a j) :
    ∃ fs' own', l.foldlM (Fs.itruncIndirect a) fs = .ok fs' ∧ Released fs fs' ∧ fs'.inode = fs.inode ∧
      Cover fs'.sb fs'.used own' ∧ (∀ j ∈ l, own' (n, ndirect + 1 + j) = 0) ∧
      (∀ x, (∀ j ∈ l, x ≠ (n, ndirect + 1 + j)) → own' x = own x) := by
  induction l generalizing fs own with
  | nil => exact ⟨fs, own, rfl, .refl fs, rfl, hc, by simp, by simp⟩
  | cons j l ih =>
    obtain ⟨hj, hl⟩ := List.nodup_cons.mp hl
    have hat := ha j (by simp)
    rw [List.foldlM_cons]
    by_cases h0 : word a j = 0
    · obtain ⟨fs', own', hrun, hrel, hin, hc', hz, hk⟩ := ih hc hl fun i hi => ha i (by simp [hi])
      refine ⟨fs', own', ?_, hrel, hin, hc', ?_, ?_⟩
      · simp [Fs.itruncIndirect, h0, bind, Except.bind, hrun]
      · intro i hi
        rcases List.mem_cons.mp hi with rfl | hi
        · rw [hk _ fun i' hi' he => hj (by simp at he; exact he ▸ hi'), hat, h0]
        · exact hz i hi
      · exact fun x hx => hk x fun i hi => hx i (by simp [hi])
    · obtain ⟨fs1, hfree, hused, hinode, hrel1⟩ := hc.bfree (i := (n, ndirect + 1 + j)) (by rwa [hat])
      have hc1 := hc.remove (by rwa [hat]) (Function.update_self (n, ndirect + 1 + j) 0 own)
        fun x hx => Function.update_of_ne hx _ _
      rw [← hused, ← hrel1.sb] at hc1
      rw [hat] at hfree
      obtain ⟨fs', own', hrun, hrel, hin, hc', hz, hk⟩ := ih hc1 hl fun i hi => by
        have hij : i ≠ j := fun he => hj (he ▸ hi)
        rw [Function.update_of_ne (by simp [hij])]
        exact ha i (by simp [hi])
      refine ⟨fs', own', ?_, hrel1.trans hrel, hin.trans hinode, hc', ?_, ?_⟩
      · simp [Fs.itruncIndirect, h0, bind, Except.bind, hfree, hrun]
      · intro i hi
        rcases List.mem_cons.mp hi with rfl | hi
        · rw [hk _ fun i' hi' he => hj (by simp at he; exact he ▸ hi'), Function.update_self]
        · exact hz i hi
      · intro x hx
        rw [hk x fun i hi => hx i (by simp [hi]), Function.update_of_ne (hx j (by simp))]

/-- The indirect half of `itrunc`: the entries go, and then the block itself. -/
theorem itrunc_indirect (hc : Cover fs.sb fs.used
      (placed fs.data (Function.update fs.dinode n (fs.inode ip).din)))
    (ht : (fs.inode ip).din.type ≠ tFree) (hind : (fs.inode ip).din.addrs ndirect = ind)
    (h0 : ind ≠ 0) :
    ∃ fs1 fs2, (List.range nindirect).foldlM (Fs.itruncIndirect (fs.data ind)) fs = .ok fs1 ∧
      fs1.bfree ind = .ok fs2 ∧ Released fs fs2 ∧ fs2.inode = fs.inode ∧
      Cover fs2.sb fs2.used (placed fs2.data (Function.update fs2.dinode n
        { (fs.inode ip).din with addrs := Function.update (fs.inode ip).din.addrs ndirect 0 })) := by
  have hown : ∀ s, s < nslots → placed fs.data (Function.update fs.dinode n (fs.inode ip).din) (n, s) =
      slotAddr fs.data (fs.inode ip).din s := by
    intro s hs
    rw [placed_pos hs (by simpa using ht), Function.update_self]
  obtain ⟨fs1, own1, hrun, hrel1, hin1, hc1, hz, hk⟩ := itruncIndirect_loop (n := n)
    (l := List.range nindirect) (a := fs.data ind) hc List.nodup_range fun j hj => by
      have hlt := List.mem_range.mp hj
      rw [hown _ (by simp only [nslots]; omega), slotAddr_entry hind h0]
  have hat : own1 (n, ndirect) = ind := by
    rw [hk _ (by simp; omega), hown _ (by decide), slotAddr_ndirect, hind]
  obtain ⟨fs2, hfree, hused, hin2, hrel2⟩ := hc1.bfree (i := (n, ndirect)) (by rwa [hat])
  rw [hat] at hfree
  refine ⟨fs1, fs2, hrun, hfree, hrel1.trans hrel2, hin2.trans hin1, ?_⟩
  rw [hrel2.sb, hused, hrel2.data, hrel2.dinode, hrel1.data, hrel1.dinode]
  have hgone : ∀ s, ndirect ≤ s → slotAddr fs.data { (fs.inode ip).din with
      addrs := Function.update (fs.inode ip).din.addrs ndirect 0 } s = 0 := by
    intro s hs
    rcases Nat.eq_or_lt_of_le hs with rfl | hs
    · simp [slotAddr]
    · simp [slotAddr, Nat.not_le.mpr hs]
  have hplace : ∀ s, s < nslots → placed fs.data (Function.update fs.dinode n { (fs.inode ip).din with
      addrs := Function.update (fs.inode ip).din.addrs ndirect 0 }) (n, s) =
      slotAddr fs.data { (fs.inode ip).din with
        addrs := Function.update (fs.inode ip).din.addrs ndirect 0 } s := by
    intro s hs
    rw [placed_pos hs (by simpa using ht), Function.update_self]
  apply hc1.remove (i := (n, ndirect)) (by rwa [hat])
  · rw [hplace _ (by decide), hgone _ (Nat.le_refl _)]
  · rintro ⟨m, s⟩ hne
    by_cases hmn : m = n
    · subst hmn
      have hs : s ≠ ndirect := fun he => hne (he ▸ rfl)
      by_cases hlt : s < nslots
      · rw [hplace s hlt]
        by_cases hle : s < ndirect
        · rw [hk _ (by simp; omega), hown s hlt]
          simp [slotAddr, Nat.le_of_lt hle, hs]
        · obtain ⟨j, rfl⟩ : ∃ j, s = ndirect + 1 + j := ⟨s - (ndirect + 1), by omega⟩
          rw [hgone _ (by omega), hz j (List.mem_range.mpr (by simp only [nslots] at hlt; omega))]
      · rw [hk _ (by simp only [nslots] at hlt; simp; omega)]
        simp [placed, hlt]
    · rw [hk _ (by simp [hmn])]
      apply placed_congr <;> simp [Function.update_of_ne hmn]

end Itrunc

structure Truncated (n : Nat) (ip : Ip) (fs fs' : Fs) : Prop where
  acct : Acct fs'.sb fs'.used fs'.data fs'.dinode
  entry : fs'.inode = Function.update fs.inode ip { fs.inode ip with din := fs'.dinode n }
  dinode : ∀ m, m ≠ n → fs'.dinode m = fs.dinode m
  shape : fs'.dinode n = { without (fs.dinode n) (List.range (ndirect + 1)) with size := 0 }
  bare : ∀ s, slotAddr fs'.data (fs'.dinode n) s = 0
  data : fs'.data = fs.data
  logs : Logs {fs.iblock n} 0 fs fs'

theorem slotAddr_without (data : Nat → Block) (d : Dinode) (s : Nat) :
    slotAddr data (without d (List.range (ndirect + 1))) s = 0 := by
  unfold slotAddr without
  dsimp only
  split
  · rw [if_pos (List.mem_range.mpr (by omega))]
  · rw [if_pos (if_pos (List.mem_range.mpr (Nat.lt_succ_self _)))]

theorem truncated_of_released {fs fs1 : Fs} {ip : Ip} (hc : Copy n ip fs)
    (ha : Acct fs.sb fs.used fs.data fs.dinode) (hrel : Released fs fs1)
    (hin : fs1.inode = Function.update fs.inode ip
      { fs.inode ip with din := without (fs.inode ip).din (List.range (ndirect + 1)) })
    (hcov : Cover fs1.sb fs1.used (placed fs1.data (Function.update fs1.dinode n (fs1.inode ip).din))) :
    Truncated n ip fs ((fs1.setDin ip { (fs1.inode ip).din with size := 0 }).iupdate ip) := by
  have hdin : (fs1.inode ip).din = without (fs.dinode n) (List.range (ndirect + 1)) := by
    rw [hin, ← hc.same]
    simp
  have hinum : (fs1.inode ip).inum = n := by
    rw [hin]
    simpa using hc.inum
  refine ⟨⟨?_, ?_⟩, ?_, ?_, ?_, ?_, ?_, ?_⟩
  · simp only [Fs.iupdate, Fs.logWrite_sb, Fs.setDinode_sb, Fs.setDin_sb, Fs.logWrite_used,
      Fs.setDinode_used, Fs.setDin_used, Fs.logWrite_data, Fs.setDinode_data, Fs.setDin_data,
      Fs.logWrite_dinode, Fs.setDinode_dinode, Fs.setDin_dinode, Fs.setDin_inode, Function.update_self,
      hinum]
    refine ⟨hcov.exact.congr ?_, hcov.reserved, hcov.small⟩
    rintro ⟨m, s⟩
    by_cases hmn : m = n
    · subst hmn
      apply placed_congr <;> simp only [Function.update_self]
      exact fun _ _ => rfl
    · apply placed_congr <;> simp [Function.update_of_ne hmn]
  · intro m hm
    by_cases hmn : m = n
    · subst hmn
      intro bn hbn
      simp [Fs.iupdate, hinum] at hbn
    · simp only [Fs.iupdate, Fs.setDin_inode, Function.update_self, hinum, Fs.logWrite_dinode,
        Fs.setDinode_dinode, Fs.setDin_dinode, Fs.logWrite_data, Fs.setDinode_data, Fs.setDin_data,
        Function.update_of_ne hmn, hrel.dinode, hrel.data] at hm ⊢
      exact ha.dense m hm
  · simp only [Fs.iupdate, Fs.logWrite_inode, Fs.setDinode_inode, Fs.setDin_inode,
      Function.update_self, Fs.logWrite_dinode, Fs.setDinode_dinode, hinum]
    rw [hin]
    simp [hc.inum]
  · intro m hm
    simp [Fs.iupdate, hinum, hm, hrel.dinode]
  · simp [Fs.iupdate, hinum, hdin, without]
  · intro s
    have := slotAddr_without fs.data (fs.dinode n) s
    simpa [Fs.iupdate, hinum, hdin, hrel.data, slotAddr] using this
  · simp [Fs.iupdate, hrel.data]
  · have hbits : Logs {fs.iblock n} 0 fs fs1 := by
      refine ⟨hrel.sb, ∅, by simp, ?_⟩
      intro b hb
      rcases hrel.logs b hb with hb | hb
      · exact .inl hb
      · exact .inr (.inl hb)
    refine hbits.trans (Logs.update ?_ _)
    simp [hinum, Fs.iblock, hrel.sb]

/-- `itrunc` returns, with every block of the inode free. -/
theorem Copy.itrunc {fs : Fs} {ip : Ip} (hc : Copy n ip fs)
    (ha : Acct fs.sb fs.used fs.data fs.dinode) :
    ∃ fs', fs.itrunc ip = .ok fs' ∧ Truncated n ip fs fs' := by
  have hw := hc.working ha
  obtain ⟨fs1, hrun, hrel, hin, hc1⟩ := itruncDirect_loop (l := List.range ndirect) hw.acct.cover
    hw.typed fun i hi => List.mem_range.mp hi
  have hind : (fs1.inode ip).din.addrs ndirect = (fs.inode ip).din.addrs ndirect := by
    rw [hin]
    simp [without]
  have hlast : without (fs.inode ip).din (List.range (ndirect + 1)) =
      { (fs1.inode ip).din with addrs := Function.update (fs1.inode ip).din.addrs ndirect 0 } := by
    rw [hin]
    unfold without
    simp only [Function.update_self]
    congr 1
    funext j
    by_cases hj : j = ndirect
    · simp [hj]
    · have : j < ndirect + 1 ↔ j < ndirect := by omega
      simp [hj, List.mem_range, this]
  unfold Fs.itrunc
  simp only [hrun, bind, Except.bind]
  by_cases h0 : (fs1.inode ip).din.addrs ndirect = 0
  · rw [if_pos h0]
    refine ⟨_, rfl, truncated_of_released hc ha hrel ?_ hc1⟩
    rw [hlast, ← h0, Function.update_eq_self, hin]
    simp
  · rw [if_neg h0]
    have htyped : (fs1.inode ip).din.type ≠ tFree := by
      rw [hin]
      simpa [without] using hw.typed
    obtain ⟨fs2, fs3, hloop, hfree, hrel3, hin3, hc3⟩ := itrunc_indirect hc1 htyped rfl h0
    simp only [hloop, hfree, pure, Except.pure]
    refine ⟨_, rfl, @truncated_of_released _ _ (fs3.setDin ip _) _ hc ha ?_ ?_ ?_⟩
    · exact ⟨hrel3.data.trans hrel.data, hrel3.dinode.trans hrel.dinode, hrel3.sb.trans hrel.sb,
        (hrel.trans hrel3).logs⟩
    · rw [hlast]
      simp only [Fs.setDin_inode, hin3]
      rw [hin]
      simp
    · simpa [hin3] using hc3

end Xv6Filter.Proofs
