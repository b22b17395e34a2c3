import Xv6Filter.Kernel.Descriptor
import Xv6Filter.Kernel.Exec
import Xv6Filter.Proofs.Unlinking

namespace Xv6Filter.Proofs
open Lib Function

def lent (fs : Fs) (e : Ip) : Fs := fs.setInode e { fs.inode e with ref := (fs.inode e).ref - 1 }

def Remaining (fs fs' : Fs) : Prop :=
  ∀ e, 0 < (fs'.inode e).ref → 0 < (fs.inode e).ref ∧ (fs'.inode e).inum = (fs.inode e).inum ∧
    (fs'.dinode (fs.inode e).inum).type = (fs.dinode (fs.inode e).inum).type

theorem Remaining.refl (fs : Fs) : Remaining fs fs := fun _ hr => ⟨hr, rfl, rfl⟩

theorem Remaining.trans (h : Remaining fs1 fs2) (h' : Remaining fs2 fs3) : Remaining fs1 fs3 := by
  intro e hr
  obtain ⟨hr2, hn2, ht2⟩ := h' e hr
  obtain ⟨hr1, hn1, ht1⟩ := h e hr2
  exact ⟨hr1, hn2.trans hn1, by rw [← hn1, ht2, hn1, ht1]⟩

theorem Remaining.idup (hr : 0 < (fs.inode e).ref) : Remaining fs (fs.idup e) := by
  intro x hx
  by_cases hxe : x = e
  · subst hxe
    exact ⟨hr, by simp [Fs.idup, Fs.setInode], rfl⟩
  · simp only [Fs.idup, Fs.setInode, update_of_ne hxe] at hx ⊢
    exact ⟨hx, trivial, trivial⟩

namespace Busy

variable {fs0 fs fs' : Fs} {hs : List Taken} {ip e : Ip} {n : Nat}

theorem remaining (h : Busy fs0 [] fs) : Remaining fs0 fs := by
  intro e hr
  have hr0 : 0 < (fs0.inode e).ref := by simpa [h.refs e] using hr
  exact ⟨hr0, h.inum e hr0, h.type e hr0⟩

theorem remaining_lent (h : Busy (lent fs0 e) [] fs) : Remaining fs0 fs := by
  intro x hr
  obtain ⟨hr0, hn, ht⟩ := h.remaining x hr
  by_cases hx : x = e
  · subst hx
    simp only [lent, Fs.setInode_inode, update_self, Fs.setInode_dinode] at hr0 hn ht
    exact ⟨by omega, hn, ht⟩
  · simp only [lent, Fs.setInode_inode, update_of_ne hx, Fs.setInode_dinode] at hr0 hn ht
    exact ⟨hr0, hn, ht⟩

/-- A reference of the process counts as one of the operation while it uses the inode. -/
theorem lend (h : Busy fs0 hs fs) (hr : 0 < (fs0.inode e).ref) :
    Busy (lent fs0 e) (⟨e, (fs0.inode e).inum, false⟩ :: hs) fs := by
  have hbase : ∀ x, 0 < ((lent fs0 e).inode x).ref → 0 < (fs0.inode x).ref ∧
      ((lent fs0 e).inode x).inum = (fs0.inode x).inum ∧
      ((lent fs0 e).inode x).valid = (fs0.inode x).valid := by
    intro x hx
    by_cases he : x = e
    · subst he
      exact ⟨hr, by simp [lent], by simp [lent]⟩
    · rw [lent, Fs.setInode_inode, update_of_ne he] at hx ⊢
      exact ⟨hx, rfl, rfl⟩
  refine ⟨h.sane, ?_, ?_, ?_, ?_, ?_, ?_, ?_⟩
  · intro x
    by_cases he : x = e
    · simp only [lent, Fs.setInode_inode, he, update_self]
      omega
    · simpa [lent, he] using h.start x
  · intro x
    have := h.refs x
    by_cases he : x = e
    · subst he
      simp only [lent, Fs.setInode_inode, update_self, List.countP_cons, decide_true,
        ↓reduceIte]
      omega
    · simpa [lent, he, Ne.symm he] using this
  · intro t ht
    rcases List.mem_cons.mp ht with rfl | ht
    · exact ⟨h.inum e hr, by simp⟩
    · exact h.holds t ht
  · intro x hx
    obtain ⟨hx, hn, -⟩ := hbase x hx
    rw [hn]
    exact h.inum x hx
  · intro x hx
    obtain ⟨hx, -, hv⟩ := hbase x hx
    rw [hv]
    exact h.valid x hx
  · intro x hx
    obtain ⟨hx, hn, -⟩ := hbase x hx
    rw [hn]
    exact h.type x hx
  · intro x hx
    obtain ⟨hx, hn, -⟩ := hbase x hx
    rw [hn]
    exact h.typed x hx

/-- The end of an operation that keeps only references to inodes it has read, or that others
have too. -/
theorem settled (h : Busy fs0 hs fs) (hread : ∀ t ∈ hs, t.read = true ∨ 0 < (fs0.inode t.ip).ref) :
    Settled fs := by
  refine ⟨h.sane, ?_⟩
  intro e hr
  by_cases h0 : 0 < (fs0.inode e).ref
  · rw [h.inum e h0, h.type e h0]
    exact h.typed e h0
  · have hrefs := h.refs e
    have hpos : 0 < hs.countP fun t => decide (t.ip = e) := by omega
    obtain ⟨t, ht, he⟩ := List.countP_pos_iff.mp hpos
    simp only [decide_eq_true_eq] at he
    rcases hread t ht with hread | hbase
    · have hv := (h.holds t ht).2 hread
      rw [he] at hv
      exact (h.sane.copies e hr hv).2
    · exact absurd (he ▸ hbase) h0

/-- `chdir` gives up the old directory for the new one, or leaves everything. -/
theorem chdirPath (h : Busy fs0 [] fs) (hr : 0 < (fs0.inode e).ref) (path : List Byte) :
    Post (fs.chdirPath (some e) path) (Astray fs0 2 (tree fs)) fun r =>
      (∃ m, Logs {fs.iblock m} 0 fs r.2) ∧
      (r.1 = none ∧ Busy fs0 [] r.2 ∧ tree r.2 = tree fs ∨
        ∃ ip n, r.1 = some ip ∧ Busy (lent fs0 e) [⟨ip, n, true⟩] r.2 ∧ (r.2.dinode n).type = tDir ∧
          Reaped (tree fs) (tree r.2)) := by
  have hcwd : ∀ x ∈ some e, 0 < (fs0.inode x).ref := by
    rintro x ⟨⟩
    exact hr
  unfold Fs.chdirPath
  refine h.namei_ilock hcwd path (fun _ he => he.mono (by decide)) (fun _ _ => rfl) ?_ ?_
  · exact fun fs1 _ h1 hd1 => ⟨⟨0, hd1.logs⟩, .inl ⟨rfl, h1, tree_sameDisk hd1⟩⟩
  · intro ip n nm fs2 _ h2 hd2'
    by_cases hdir : (fs2.inode ip).din.type = tDir
    · rw [if_neg fun hne => hne hdir]
      refine ((h2.iunlock ip).mono fun _ => .plain).bind ?_
      rintro fs3 ⟨h3, hd3⟩
      have hd3' : SameDisk fs fs3 := hd2'.trans hd3
      refine ((h3.lend hr).iput.mono fun _ => .plain).bind ?_
      rintro fs4 ⟨h4, hd4⟩
      have hd4 : SameDisk fs3 fs4 ∨ ∃ g, SameDisk fs3 g ∧ Freed (fs0.inode e).inum g fs4 ∧
          Sole (lent fs0 e) [⟨ip, n, true⟩] (fs0.inode e).inum :=
        hd4.imp id fun hf => ⟨fs3, .refl _, hf⟩
      have hreap : Reaped (tree fs) (tree fs4) := by
        have := (Reaped.refl (tree fs3)).drop hd4
        rwa [tree_sameDisk hd3'] at this
      refine ⟨⟨(fs0.inode e).inum, hd3'.logs.drop hd4⟩, .inr ⟨ip, n, rfl, h4, ?_, hreap⟩⟩
      have hkind : (tree fs).kind n = tDir := by
        rw [← tree_sameDisk hd2', ← h2.tree_kind_eq]
        exact hdir
      rcases hreap.kind n with hk | hk
      · exact hk.trans hkind
      · exact absurd hk h4.copy.typed
    · rw [if_pos hdir]
      refine ((h2.iunlockput_kept ((h.lasting n).of_sameDisk hd2')).mono fun _ => .plain).bind ?_
      rintro fs3 ⟨h3, hd3⟩
      have hd3' := hd2'.trans hd3
      exact ⟨⟨0, hd3'.logs⟩, .inl ⟨rfl, h3, tree_sameDisk hd3'⟩⟩

/-- The inode of `open`: none, one that was there, or a new file. A directory comes only
with the mode for reading. -/
theorem openInode (h : Busy fs0 [] fs) (hfirm : Firm fs0 fs) {cwd : Option Ip}
    (hcwd : ∀ e ∈ cwd, 0 < (fs0.inode e).ref) (path : List Byte) (omode : I32) :
    Post (fs.openInode cwd path omode) (Astray fs0 2 (tree fs)) fun r =>
      ∃ d n, Logs {fs.iblock d, fs.iblock n} 6 fs r.2 ∧
      Tried (omode &&& oCreate ≠ 0 → CannotMake (cwd.elim 0 fun e => (fs0.inode e).inum) path fs) r.1 fs r.2 ∧
      (r.1 = none ∧ Busy fs0 [] r.2 ∧ tree r.2 = tree fs ∨
        ∃ ip, r.1 = some ip ∧ Busy fs0 [⟨ip, n, true⟩] r.2 ∧
          ((r.2.dinode n).type = tDir → omode = oRdonly) ∧
          (tree r.2 = tree fs ∨ omode &&& oCreate ≠ 0 ∧ ∃ name,
            (tree fs).resolve true (cwd.elim 0 fun e => (fs0.inode e).inum) path = some (d, name) ∧
            Made d n tFile name (tree fs) (tree r.2))) := by
  unfold Fs.openInode
  by_cases hc : omode &&& oCreate ≠ 0
  · rw [if_pos hc]
    refine (h.create hfirm hcwd path (by decide) 0 0).imp (fun _ he => he) ?_
    rintro r ⟨d, n, hl, htried, hcase⟩
    have htried' : Tried (omode &&& oCreate ≠ 0 →
        CannotMake (cwd.elim 0 fun e => (fs0.inode e).inum) path fs) r.1 fs r.2 := by
      rw [forall_prop_of_true hc]
      exact htried (by decide)
    rcases hcase with hnone | ⟨ip, hr, h1, ⟨ht, -, hk⟩ | ⟨name, hres, hmade⟩⟩
    · exact ⟨d, n, hl, htried', .inl hnone⟩
    · refine ⟨d, n, hl, htried', .inr ⟨ip, hr, h1, fun hdir => ?_, .inl ht⟩⟩
      rw [← ht] at hk
      have hk' : (tree r.2).kind n = tDir := hdir
      rw [hk'] at hk
      exact absurd hk (by decide)
    · refine ⟨d, n, hl, htried', .inr ⟨ip, hr, h1, fun hdir => ?_, .inr ⟨hc, name, hres, hmade⟩⟩⟩
      have hk' : (tree r.2).kind n = tDir := hdir
      have hfile : ((tree fs).created d n tFile name).kind n = tFile := by
        simp [Tree.created, Tree.addEntry, Tree.setEnts, Tree.alloc]
      rcases hmade.result.kind n with hk | hk
      · rw [hk', hfile] at hk
        exact absurd hk (by decide)
      · rw [hk'] at hk
        exact absurd hk (by decide)
  · rw [if_neg hc]
    refine h.namei_ilock hcwd path (fun _ he => he.mono (by decide)) (fun _ _ => rfl) ?_ ?_
    · exact fun fs1 _ h1 hd1 => ⟨0, 0, hd1.logs,
        ⟨fun _ => ⟨fun _ hyes => absurd hyes hc, fun _ => hd1.filesKept⟩, fun _ he => absurd he (by simp)⟩,
        .inl ⟨rfl, h1, tree_sameDisk hd1⟩⟩
    · intro ip n nm fs2 _ h2 hd2'
      by_cases hdir : (fs2.inode ip).din.type = tDir ∧ omode ≠ oRdonly
      · rw [if_pos hdir]
        refine ((h2.iunlockput_kept ((h.lasting n).of_sameDisk hd2')).mono fun _ => .plain).bind ?_
        rintro fs3 ⟨h3, hd3⟩
        have hd3' := hd2'.trans hd3
        exact ⟨0, 0, hd3'.logs, ⟨fun _ => ⟨fun _ hyes => absurd hyes hc, fun _ => hd3'.filesKept⟩,
          fun _ he => absurd he (by simp)⟩,
          .inl ⟨rfl, h3, tree_sameDisk hd3'⟩⟩
      · rw [if_neg hdir]
        refine ⟨0, n, hd2'.logs, ⟨fun he => absurd he (by simp), fun _ _ => .inl ⟨hd2', fun hyes => absurd hyes hc⟩⟩, .inr ⟨ip, rfl, h2, fun hk => ?_, .inl (tree_sameDisk hd2')⟩⟩
        by_contra hne
        rw [h2.copy.same] at hdir
        exact hdir ⟨hk, hne⟩

end Busy

theorem readiLoop_present {M : Type} {copyout : M → Nat → List Byte → M × Bool} {fs : Fs} {ip : Ip}
    (hd : Dense fs.data (fs.inode ip).din size) (hfit : off + (len - tot) ≤ size) (rounds : Nat) (mem : M) :
    ∃ r mem', Fs.readiLoop copyout ip rounds fs mem off tot len = .ok (r, mem', fs) := by
  induction rounds generalizing mem off tot with
  | zero => exact ⟨_, _, rfl⟩
  | succ rounds ih =>
    unfold Fs.readiLoop
    by_cases hmore : len ≤ tot
    · rw [if_pos hmore]
      exact ⟨_, _, rfl⟩
    · have hblk : off / bsize * bsize < size := by
        have := Nat.div_mul_le_self off bsize
        omega
      obtain ⟨hlt, h0⟩ := hd _ hblk
      rw [if_neg hmore, bmap_present hlt h0]
      dsimp only
      rw [if_neg h0]
      generalize copyout mem tot _ = res
      obtain ⟨mem', ok⟩ := res
      cases ok with
      | false => exact ⟨_, _, rfl⟩
      | true => exact ih (by omega) mem'

namespace Busy

variable {fs0 fs fs' : Fs} {hs : List Taken} {ip : Ip} {n : Nat}

theorem readi (h : Busy fs0 (⟨ip, n, true⟩ :: hs) fs) {M : Type}
    (copyout : M → Nat → List Byte → M × Bool) (mem : M) (off len : Nat) :
    ∃ r mem', fs.readi copyout mem ip off len = .ok (r, mem', fs) := by
  unfold Fs.readi
  dsimp only
  split
  · exact ⟨_, _, rfl⟩
  · rename_i hno
    rw [not_or] at hno
    refine readiLoop_present h.dense_copy ?_ _ mem
    split <;> omega

theorem writei (h : Busy fs0 (⟨ip, n, true⟩ :: hs) fs) (hn : (fs.dinode n).type ≠ tDir) {M : Type}
    {copyin : M → Nat → Nat → M × List Byte × Bool} {src : Nat → Byte} (hsrc : Copies copyin src len)
    (hlen : len < 2 ^ 32) (mem : M) (off : Nat) :
    ∃ r mem' fs', fs.writei copyin mem ip off len = .ok (r, mem', fs') ∧
      Busy fs0 (⟨ip, n, true⟩ :: hs) fs' ∧ Logs {fs.iblock n} (2 * spanned off len) fs fs' ∧
      tree fs' = tree fs := by
  rcases h.copy.writei h.sane.acct hsrc hlen mem off with
    ⟨hrun, -⟩ | ⟨d, stop, mem', fs', hrun, -, -, -, -, hst, -, hlogs, -⟩
  · exact ⟨-1, mem, fs, hrun, h, .refl _ _ _, rfl⟩
  · exact ⟨d, mem', fs', hrun, h.stored hst hlogs.sb fun hk => absurd hk hn, hlogs,
      hst.tree_eq fun hk => absurd hk hn⟩

theorem auditMsg_length (h : auditMsg pid num = some (len, msg)) : len < 64 := by
  unfold auditMsg at h
  simp only [Option.bind_eq_bind, Option.bind_eq_some_iff, Option.pure_def, Option.some.injEq,
    Prod.mk.injEq] at h
  obtain ⟨_, -, ⟨_, _⟩, -, ⟨_, _⟩, -, _, -, ⟨len', _⟩, -, m, -, m', hst, rfl, -⟩ := h
  unfold store at hst
  split at hst
  · assumption
  · cases hst

/-- An audit record changes no name and no link, and logs four blocks at most besides the bitmap. -/
theorem auditLogWrite (h : Busy fs0 [] fs) (pid num : I32) :
    Post (fs.auditLogWrite pid num) (Astray fs0 2 (tree fs)) fun fs' =>
      Busy fs0 [] fs' ∧ tree fs' = tree fs ∧ ∃ n, Logs {fs.iblock n} 4 fs fs' := by
  unfold Fs.auditLogWrite
  split
  · exact .plain (by simp [Plain])
  · rename_i len msg hmsg
    have hlen := auditMsg_length hmsg
    refine h.namei_ilock (by simp) auditPath (fun _ he => he.mono (by decide)) (fun _ _ => rfl) ?_ ?_
    · exact fun fs1 _ h1 hd1 => ⟨h1, tree_sameDisk hd1, 0, hd1.logs⟩
    · intro ip n nm fs2 _ h2 hd2
      have happ : ∃ fs3, fs2.auditAppend ip (slice msg 0 len) = .ok fs3 ∧
          Busy fs0 [⟨ip, n, true⟩] fs3 ∧ Logs {fs.iblock n} 4 fs fs3 ∧ tree fs3 = tree fs := by
        unfold Fs.auditAppend
        split
        · rename_i hfile
          have hn : (fs2.dinode n).type ≠ tDir := by
            rw [← h2.copy.same, hfile]
            decide
          obtain ⟨r, _, fs3, hrun, h3, hl3, ht3⟩ := h2.writei hn (copies_kernel (slice msg 0 len))
            (by rw [length_slice]; omega) () (fs2.inode ip).din.size
          unfold Fs.writeiKernel
          rw [hrun]
          refine ⟨fs3, rfl, h3, ?_, ht3.trans (tree_sameDisk hd2)⟩
          have hl2 := hd2.logs (T := {fs.iblock n}) (k := 0)
          rw [hl2.iblock_sb] at hl3
          refine (hl2.trans hl3).mono (Finset.Subset.refl _) ?_
          have hspan : spanned (fs2.inode ip).din.size (slice msg 0 len).length ≤ 2 := by
            rw [length_slice]
            simp only [spanned, bsize]
            split <;> omega
          omega
        · exact ⟨fs2, rfl, h2, hd2.logs, tree_sameDisk hd2⟩
      obtain ⟨fs3, hrun, h3, hl3, ht3⟩ := happ
      rw [hrun]
      have hlast : Lasting fs0 [] n fs3 := (h.lasting n).of_tree (by rw [ht3]) (by rw [ht3])
      refine (h3.iunlockput_kept hlast).imp (fun _ he => .plain he) ?_
      rintro fs4 ⟨h4, hd4⟩
      exact ⟨h4, (tree_sameDisk hd4).trans ht3, n, hl3.tail hd4.logs⟩

section

variable (h : Busy fs0 (⟨ip, n, true⟩ :: hs) fs)

include h

theorem loadsegLoop (offset sz rounds i : Nat) :
    ∃ ok, Fs.loadsegLoop ip offset sz rounds i fs = .ok (ok, fs) := by
  induction rounds generalizing i with
  | zero => exact ⟨true, rfl⟩
  | succ rounds ih =>
    unfold Fs.loadsegLoop
    split
    · exact ⟨true, rfl⟩
    · obtain ⟨r, bs, hrun⟩ := h.readi (fun mem _ bs => (mem ++ bs, true)) [] ((offset + i) % 2 ^ 32)
        (min (sz - i) pgsize)
      unfold Fs.readiKernel
      dsimp only
      rw [hrun]
      dsimp only
      split
      · exact ⟨false, rfl⟩
      · exact ih _

theorem loadProgram (mem : ExecMem) (left i off : Nat) :
    ∃ ok, Fs.loadProgram mem ip left i off fs = .ok (ok, fs) := by
  induction left generalizing i off with
  | zero => exact ⟨true, rfl⟩
  | succ left ih =>
    obtain ⟨r, ph, hrun⟩ := h.readi (fun mem _ bs => (mem ++ bs, true)) [] off phSize
    unfold Fs.loadProgram Fs.readiKernel
    rw [hrun]
    dsimp only
    split
    · exact ⟨false, rfl⟩
    split
    · exact ih _ _
    split
    · exact ⟨false, rfl⟩
    obtain ⟨ok, hseg⟩ := h.loadsegLoop (field ph 8 8 % 2 ^ 32) (field ph 32 8 % 2 ^ 32)
      (field ph 32 8 % 2 ^ 32 / pgsize + 1) 0
    unfold Fs.loadseg
    rw [hseg]
    cases ok with
    | false => exact ⟨false, rfl⟩
    | true => exact ih _ _

theorem loadElf (mem : ExecMem) : ∃ entry, fs.loadElf ip mem = .ok (entry, fs) := by
  obtain ⟨r, elf, hrun⟩ := h.readi (fun mem _ bs => (mem ++ bs, true)) [] 0 elfSize
  unfold Fs.loadElf Fs.readiKernel
  rw [hrun]
  dsimp only
  split
  · exact ⟨none, rfl⟩
  · obtain ⟨ok, hload⟩ := h.loadProgram mem (field elf 56 2) 0 (field elf 32 8 % 2 ^ 32)
    rw [hload]
    exact ⟨_, rfl⟩

end

theorem execPath (h : Busy fs0 [] fs) {cwd : Option Ip} (hcwd : ∀ e ∈ cwd, 0 < (fs0.inode e).ref)
    (path : List Byte) (mem : ExecMem) :
    Post (fs.execPath cwd path mem) (Astray fs0 2 (tree fs)) fun r =>
      Busy fs0 [] r.2 ∧ SameDisk fs r.2 := by
  unfold Fs.execPath
  refine h.namei_ilock hcwd path (fun _ he => he.mono (by decide)) (fun _ _ => rfl) (fun _ _ h1 hd1 => ⟨h1, hd1⟩) ?_
  intro ip n nm fs2 _ h2 hd2
  obtain ⟨entry, hload⟩ := h2.loadElf mem
  rw [hload]
  refine ((h2.iunlockput_kept ((h.lasting n).of_sameDisk hd2)).mono fun _ => .plain).bind ?_
  rintro fs3 ⟨h3, hd3⟩
  exact ⟨h3, hd2.trans hd3⟩

end Busy

end Xv6Filter.Proofs
