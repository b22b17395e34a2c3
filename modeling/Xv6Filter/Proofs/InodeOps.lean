import Xv6Filter.Proofs.Itable

namespace Xv6Filter.Proofs
open Lib

structure Renewed (n : Nat) (d : Dinode) (fs fs' : Fs) : Prop where
  dinode : fs'.dinode = Function.update fs.dinode n d
  data : fs'.data = fs.data
  used : fs'.used = fs.used
  logs : Logs {fs.iblock n} 0 fs fs'

/-- The accounts look at the type, the size and the addresses of an inode only. -/
theorem Acct.renew {used : Nat → Bool} {data : Nat → Block} {inodes : Nat → Dinode} {d : Dinode}
    (h : Acct sb used data inodes) (ht : d.type = (inodes n).type) (hs : d.size = (inodes n).size)
    (ha : d.addrs = (inodes n).addrs) : Acct sb used data (Function.update inodes n d) := by
  have hslot : ∀ s, slotAddr data d s = slotAddr data (inodes n) s := by
    intro s
    unfold slotAddr
    rw [ha]
  refine ⟨⟨h.cover.exact.congr ?_, h.cover.reserved, h.cover.small⟩, ?_⟩
  · rintro ⟨m, s⟩
    by_cases hm : m = n
    · subst hm
      apply placed_congr <;> simp only [Function.update_self]
      · exact ht
      · exact fun _ _ => hslot s
    · apply placed_congr <;> simp [Function.update_of_ne hm]
  · intro m hty
    by_cases hm : m = n
    · subst hm
      rw [Function.update_self] at hty ⊢
      rw [hs]
      exact (h.dense m (ht ▸ hty)).grow fun s _ h0 => by rwa [hslot]
    · rw [Function.update_of_ne hm] at hty ⊢
      exact h.dense m hty

theorem Acct.create {used : Nat → Bool} {data : Nat → Block} {inodes : Nat → Dinode} {d : Dinode}
    (h : Acct sb used data inodes) (ht : (inodes n).type = tFree) (hs : d.size = 0)
    (ha : d.addrs = fun _ => 0) : Acct sb used data (Function.update inodes n d) := by
  refine ⟨⟨h.cover.exact.congr ?_, h.cover.reserved, h.cover.small⟩, ?_⟩
  · rintro ⟨m, s⟩
    by_cases hm : m = n
    · subst hm
      simp [placed, ht, slotAddr, ha]
    · apply placed_congr <;> simp [Function.update_of_ne hm]
  · intro m hty
    by_cases hm : m = n
    · subst hm
      rw [Function.update_self, hs]
      intro bn hbn
      omega
    · rw [Function.update_of_ne hm] at hty ⊢
      exact h.dense m hty

namespace Busy

variable {fs0 fs fs' : Fs} {hs : List Taken} {ip : Ip} {n : Nat} {v : Bool}

theorem relog (h : Busy fs0 hs fs) (hsb : fs'.sb = fs.sb) (hu : fs'.used = fs.used)
    (hd : fs'.dinode = fs.dinode) (hdata : fs'.data = fs.data) (hi : fs'.inode = fs.inode) :
    Busy fs0 hs fs' := by
  obtain ⟨sb, used, dinode, data, inode, logged⟩ := fs'
  dsimp only at hsb hu hd hdata hi
  subst hsb hu hd hdata hi
  have hs := h.sane
  exact ⟨⟨⟨hs.acct, hs.counted, hs.unique, hs.dev, hs.inum, hs.copies, hs.aligned, hs.numbered, hs.few⟩, hs.held⟩,
    h.start, h.refs, h.holds, h.inum, h.valid, h.type, h.typed⟩

section

variable (h : Busy fs0 (⟨ip, n, true⟩ :: hs) fs)

include h

theorem update {d : Dinode} (ht : d.type = (fs.dinode n).type) (hsz : d.size = (fs.dinode n).size)
    (ha : d.addrs = (fs.dinode n).addrs) :
    Busy fs0 (⟨ip, n, true⟩ :: hs) ((fs.setDin ip d).iupdate ip) ∧
      Renewed n d fs ((fs.setDin ip d).iupdate ip) := by
  have hn := h.inum_eq
  have hcopy := h.copy
  have hv : (fs.inode ip).valid = true := (h.holds ⟨ip, n, true⟩ (by simp)).2 rfl
  have hdinode : ((fs.setDin ip d).iupdate ip).dinode = Function.update fs.dinode n d := by
    simp [Fs.iupdate, hn]
  have hother : ∀ m, m ≠ n → ((fs.setDin ip d).iupdate ip).dinode m = fs.dinode m := by
    intro m hm
    rw [hdinode, Function.update_of_ne hm]
  have hself : ((fs.setDin ip d).iupdate ip).dinode n = d := by
    rw [hdinode, Function.update_self]
  refine ⟨h.change (d := d) ?_ hother (by rw [hself, ht]) (by simp [Fs.iupdate]), hdinode,
    by simp [Fs.iupdate], by simp [Fs.iupdate], Logs.update (by simp [hn]) d⟩
  refine h.sane.change h.ref_pos hn ?_ (by simp [Fs.iupdate]) hother
    (i := { fs.inode ip with din := d }) (by simp [Fs.iupdate]) (h.sane.counted ip) rfl hn ?_ ?_ ?_ ?_
  · rw [hdinode]
    simpa [Fs.iupdate] using h.sane.acct.renew ht hsz ha
  · rw [hself, ht]
    exact fun _ _ => ⟨rfl, hcopy.typed⟩
  · rw [hself, ht, hsz]
    exact h.sane.aligned n
  · exact fun _ => hcopy.typed
  · exact fun _ _ => ⟨h.ref_pos, hv⟩

/-- A `writei` that leaves the size of a directory a number of entries. -/
theorem stored (hst : Stored n ip f off d stop fs fs') (hsb : fs'.sb = fs.sb)
    (hal : (fs.dinode n).type = tDir → max (fs.dinode n).size (off + d) % direntSize = 0) :
    Busy fs0 (⟨ip, n, true⟩ :: hs) fs' := by
  have hn := h.inum_eq
  have hv : (fs.inode ip).valid = true := (h.holds ⟨ip, n, true⟩ (by simp)).2 rfl
  have htype : (fs'.dinode n).type = (fs.dinode n).type := by rw [hst.shape]
  refine h.change ?_ hst.dinode htype hst.entry
  refine h.sane.change h.ref_pos hn hst.acct hsb hst.dinode hst.entry (h.sane.counted ip) rfl hn ?_ ?_ ?_
    ?_
  · exact fun _ _ => ⟨rfl, htype ▸ h.copy.typed⟩
  · rw [htype, hst.shape]
    exact hal
  · exact fun _ => h.copy.typed
  · exact fun _ _ => ⟨h.ref_pos, hv⟩

theorem truncated (htr : Truncated n ip fs fs') : Busy fs0 (⟨ip, n, true⟩ :: hs) fs' := by
  have hn := h.inum_eq
  have hv : (fs.inode ip).valid = true := (h.holds ⟨ip, n, true⟩ (by simp)).2 rfl
  have htype : (fs'.dinode n).type = (fs.dinode n).type := by
    rw [htr.shape]
    rfl
  refine h.change ?_ htr.dinode htype htr.entry
  refine h.sane.change h.ref_pos hn htr.acct htr.logs.sb htr.dinode htr.entry (h.sane.counted ip) rfl hn
    ?_ ?_ ?_ ?_
  · exact fun _ _ => ⟨rfl, htype ▸ h.copy.typed⟩
  · rw [htr.shape]
    simp
  · exact fun _ => h.copy.typed
  · exact fun _ _ => ⟨h.ref_pos, hv⟩

end

theorem fresh (h : Busy fs0 hs fs) (hf : (fs.dinode n).type = tFree)
    (hin : 0 < n ∧ n < fs.sb.ninodes) {d : Dinode} (hsz : d.size = 0) (ha : d.addrs = fun _ => 0) (hl : d.nlink ≠ 0) :
    Busy fs0 hs (fs.setDinode n d) := by
  have hunread : ∀ e, 0 < (fs.inode e).ref → (fs.inode e).valid = true → (fs.inode e).inum ≠ n := by
    intro e hr hv he
    exact (h.sane.copies e hr hv).2 (he ▸ hf)
  have hsane : Sane (fs.setDinode n d) := by
    refine { h.sane with acct := h.sane.acct.create hf hsz ha, copies := ?_, aligned := ?_, numbered := ?_, held := ?_ }
    · intro e hr hv
      have := h.sane.copies e hr hv
      rwa [← Function.update_of_ne (hunread e hr hv) d fs.dinode] at this
    · intro m
      by_cases hm : m = n
      · simp [hm, hsz]
      · simpa [hm] using h.sane.aligned m
    · intro m
      by_cases hm : m = n
      · exact fun _ => hm ▸ hin
      · simpa [hm] using h.sane.numbered m
    · intro m
      by_cases hm : m = n
      · simpa [hm] using fun _ hz => absurd hz hl
      · simpa [hm] using h.sane.held m
  refine { h with sane := hsane, type := ?_ }
  intro e hr
  have hne : (fs0.inode e).inum ≠ n := by
    intro he
    have := h.type e hr
    rw [he, hf] at this
    exact h.typed e hr (by rw [he, ← this])
  simp only [Fs.setDinode_dinode, Function.update_of_ne hne]
  exact h.type e hr

end Busy

theorem iget_table {f g : Fs} (h : f.inode = g.inode) (dev n : Nat) :
    f.iget dev n = (g.iget dev n).map fun r => (r.1, { f with inode := r.2.inode }) := by
  unfold Fs.iget
  rw [h]
  split
  · simp [Fs.setInode, Except.map, h]
  · split
    · simp [Fs.setInode, Except.map, h]
    · rfl

/-- What `iget` gives for an inode that nobody has read is not read. -/
theorem iget_unread {fs fs' : Fs} (h : fs.iget dev n = .ok (ip, fs'))
    (hno : ∀ e, 0 < (fs.inode e).ref → (fs.inode e).inum = n → (fs.inode e).valid = false) :
    (fs'.inode ip).valid = false := by
  unfold Fs.iget at h
  split at h
  · rename_i e hfind
    cases h
    have hp := List.find?_some hfind
    simp only [decide_eq_true_eq] at hp
    simpa using hno ip hp.1 hp.2.2
  · split at h
    · cases h
      simp
    · cases h

def NoFreeInode (fs : Fs) : Prop := ∀ n, 0 < n → n < fs.sb.ninodes → (fs.dinode n).type ≠ tFree

structure Born (fs0 : Fs) (hs : List Taken) (ty : Short) (ip : Ip) (n : Nat) (fs fs' : Fs) : Prop where
  inside : 0 < n ∧ n < fs.sb.ninodes
  free : (fs.dinode n).type = tFree
  dinode : fs'.dinode = Function.update fs.dinode n { Dinode.zero with type := ty }
  data : fs'.data = fs.data
  used : fs'.used = fs.used
  logs : Logs {fs.iblock n} 0 fs fs'
  unread : (fs'.inode ip).valid = false
  busy : ∀ d : Dinode, d.size = 0 → (d.addrs = fun _ => 0) → d.nlink ≠ 0 →
    Busy fs0 (⟨ip, n, false⟩ :: hs) (fs'.setDinode n d)

namespace Busy

variable {fs0 fs fs' : Fs} {hs : List Taken} {ip : Ip} {n : Nat}

/-- `ialloc` takes a free inode, or there is none. -/
theorem ialloc (h : Busy fs0 hs fs) (ty : Short) : Post (fs.ialloc rootdev ty) (Tight fs0 hs.length) fun r =>
      r = (none, fs) ∧ NoFreeInode fs ∨ ∃ ip n, r.1 = some ip ∧ Born fs0 hs ty ip n fs r.2 := by
  unfold Fs.ialloc
  split
  · rename_i hnone
    refine .inl ⟨rfl, fun n h0 hn => ?_⟩
    have hm : n ∈ (List.range fs.sb.ninodes).drop 1 := by
      rw [List.drop_one, List.range_eq_range', List.tail_range', List.mem_range'_1]
      omega
    simpa using List.find?_eq_none.mp hnone n hm
  · rename_i n hfind
    have hf := List.find?_some hfind
    simp only [decide_eq_true_eq] at hf
    have hin : 0 < n ∧ n < fs.sb.ninodes := by
      have hm := List.mem_of_find?_eq_some hfind
      rw [List.drop_one, List.range_eq_range', List.tail_range', List.mem_range'_1] at hm
      omega
    have hsmall : n < 2 ^ 16 := Nat.lt_of_lt_of_le hin.2 h.sane.few
    dsimp only
    generalize hfs1 : ((fs.setDinode n { Dinode.zero with type := ty }).logWrite (fs.iblock n)) = fs1
    have hdinode : fs1.dinode = Function.update fs.dinode n { Dinode.zero with type := ty } := by
      simp [← hfs1]
    have hinode : fs1.inode = fs.inode := by simp [← hfs1]
    have hdata : fs1.data = fs.data := by simp [← hfs1]
    have hused : fs1.used = fs.used := by simp [← hfs1]
    have hlogs : Logs {fs.iblock n} 0 fs fs1 := by
      refine ⟨by simp [← hfs1], ∅, by simp, ?_⟩
      intro b hb
      rw [← hfs1] at hb
      rcases mem_logWrite.mp hb with hb | hb
      · exact .inl hb
      · exact .inr (.inr (.inl (by simp [hb])))
    cases hget : fs1.iget rootdev n with
    | error e =>
      have := h.iget hsmall
      rw [iget_table hinode.symm, hget] at this
      exact this
    | ok r =>
      obtain ⟨ip, fs'⟩ := r
      have hfs' : fs' = { fs1 with inode := fs'.inode } := by
        rw [iget_table hinode] at hget
        cases hg : fs.iget rootdev n with
        | error e => rw [hg] at hget; cases hget
        | ok r => rw [hg] at hget; cases hget; rfl
      refine .inr ⟨ip, n, rfl, hin, hf, ?_, ?_, ?_, ?_, ?_, ?_⟩
      · rw [hfs']
        exact hdinode
      · rw [hfs']
        exact hdata
      · rw [hfs']
        exact hused
      · refine hlogs.tail (.of_eq ?_ ?_) <;> rw [hfs']
      · refine iget_unread hget ?_
        intro e hr he
        rw [hinode] at hr he ⊢
        by_contra hv
        have := (h.sane.copies e hr (by simpa using hv)).2
        rw [he] at this
        exact this hf
      · intro d hsz ha hl
        have hb : Busy fs0 hs (fs1.setDinode n d) := by
          refine (h.fresh hf hin hsz ha hl).relog ?_ ?_ ?_ ?_ ?_ <;> simp [← hfs1]
        have hg := hb.iget hsmall
        rw [iget_table (f := fs1.setDinode n d) (g := fs1) rfl, hget] at hg
        have := hg.1
        rw [hfs']
        exact this

theorem ilock_born (h : Born fs0 hs ty ip n fs fs1) (ht : ty ≠ tFree) (major minor : Short) :
    Post (fs1.ilock ip) Plain fun fs2 =>
      Busy fs0 (⟨ip, n, true⟩ :: hs) ((fs2.setDin ip { (fs2.inode ip).din with
        major := major, minor := minor, nlink := 1 }).iupdate ip) ∧
      Renewed n ⟨ty, major, minor, 1, 0, fun _ => 0⟩ fs ((fs2.setDin ip { (fs2.inode ip).din with
        major := major, minor := minor, nlink := 1 }).iupdate ip) := by
  have hone : (1 : Short) ≠ 0 := by decide
  have hg := h.busy ⟨ty, major, minor, 1, 0, fun _ => 0⟩ rfl rfl hone
  have hn : (fs1.inode ip).inum = n := hg.inum_eq
  have hdin : fs1.dinode n = { Dinode.zero with type := ty } := by
    rw [h.dinode]
    simp
  have hlock := hg.ilock
  unfold Fs.ilock at hlock ⊢
  simp only [Fs.setDinode_inode, Fs.setDinode_dinode, hn, Function.update_self, h.unread, hdin, ht,
    Bool.false_eq_true, ↓reduceIte] at hlock ⊢
  split at hlock
  · rename_i hr
    rw [if_pos hr]
    simp [Post, Plain]
  rename_i hr
  rw [if_neg hr]
  split at hlock
  · rename_i hl
    rw [if_pos hl]
    simp [Post, Plain]
  rename_i hl
  rw [if_neg hl]
  refine ⟨hlock.1.relog ?_ ?_ ?_ ?_ ?_, ?_, ?_, ?_, ?_⟩
  · simp [Fs.iupdate]
  · simp [Fs.iupdate]
  · simp [Fs.iupdate, Dinode.zero]
  · simp [Fs.iupdate]
  · simp [Fs.iupdate, Dinode.zero]
  · simp [Fs.iupdate, Dinode.zero, h.dinode]
  · simp [Fs.iupdate, h.data]
  · simp [Fs.iupdate, h.used]
  · have h1 : ∀ i, Logs {fs.iblock n} 0 fs1 (fs1.setInode ip i) := fun _ => .of_eq rfl rfl
    refine (h.logs.trans (h1 _)).tail (Logs.update ?_ _)
    simp [Fs.iblock, h.logs.sb]

end Busy

end Xv6Filter.Proofs
