import Xv6Filter.Proofs.AuditWhole
import Xv6Filter.Proofs.Crash
import Xv6Filter.Proofs.Laid

namespace Xv6Filter.Proofs
open Lib

def Orphan (fs : Fs) (n : Nat) : Prop := (fs.dinode n).type ≠ tFree ∧ (fs.dinode n).nlink = 0

instance (fs : Fs) (n : Nat) : Decidable (Orphan fs n) := inferInstanceAs (Decidable (_ ∧ _))

def HasBlock (fs : Fs) (n b : Nat) : Prop := b ≠ 0 ∧ ∃ s, placed fs.data fs.dinode (n, s) = b

def OnlyRoot (fs : Fs) : Prop :=
  ∃ root : Ip, (fs.inode root).inum = rootino ∧ ∀ e, (fs.inode e).ref = if e = root then 1 else 0

theorem OnlyRoot.inUse (h : OnlyRoot fs) : inUse fs = 1 := by
  obtain ⟨root, -, href⟩ := h
  have hcount : Proofs.inUse fs = (List.finRange ninode).count root := by
    unfold Proofs.inUse List.count
    congr 1
    funext e
    by_cases he : e = root <;> simp [href, he]
  rw [hcount]
  exact List.count_eq_one_of_mem (List.nodup_finRange ninode) (List.mem_finRange root)

theorem OnlyRoot.inum (h : OnlyRoot fs) (hr : 0 < (fs.inode e).ref) : (fs.inode e).inum = rootino := by
  obtain ⟨root, hroot, href⟩ := h
  have he : e = root := by
    by_contra hne
    simp [href, hne] at hr
  rw [he]
  exact hroot

structure Reclaiming (img fs : Fs) : Prop where
  orderly : Orderly fs
  unlocked : ∀ e, (fs.inode e).locked = false
  table : OnlyRoot fs
  sb : fs.sb = img.sb
  data : ∀ b, InData img.sb b → fs.data b = img.data b
  dinode : ∀ n, fs.dinode n = img.dinode n ∨ Orphan img n ∧ Cleared (img.dinode n) (fs.dinode n)

namespace Reclaiming

variable {img fs fs' : Fs}

section

variable (h : Reclaiming img fs)

include h

theorem kept (ht : (fs.dinode n).type ≠ tFree) : fs.dinode n = img.dinode n := by
  rcases h.dinode n with hsame | ⟨-, hc⟩
  · exact hsame
  · exact absurd hc.type ht

theorem orphan (ho : Orphan fs n) : Orphan img n := by
  unfold Orphan
  rw [← h.kept ho.1]
  exact ho

theorem step (hroot : (img.dinode rootino).nlink ≠ 0) (hr : Reclaimed n fs fs') :
    Reclaiming img fs' ∧ ¬ Orphan fs' n ∧ ∀ m, Orphan fs' m → Orphan fs m := by
  have htable : OnlyRoot fs' := by
    obtain ⟨root, hinum, href⟩ := h.table
    exact ⟨root, ((hr.keeps root (by simp [href])).1).trans hinum, fun e => (hr.refs e).trans (href e)⟩
  have hre : Reclaiming img fs' := by
    refine ⟨hr.orderly, ?_, htable, ?_, ?_, ?_⟩
    · intro e
      by_contra hl
      have hlocked := hr.locked e (by simpa using hl)
      rw [h.unlocked e] at hlocked
      cases hlocked
    · rcases hr.disk with hd | ⟨hf, -⟩
      · exact hd.sb.trans h.sb
      · exact hf.logs.sb.trans h.sb
    · intro b hb
      rcases hr.disk with hd | ⟨hf, -⟩
      · rw [hd.data]
        exact h.data b hb
      · rw [hf.data]
        exact h.data b hb
    · intro m
      rcases hr.disk with hd | ⟨hf, -⟩
      · rw [hd.dinode]
        exact h.dinode m
      by_cases hm : m = n
      · subst hm
        have hsame := h.kept hf.typed
        exact .inr ⟨h.orphan ⟨hf.typed, hf.unlinked⟩, hsame ▸ hf.cleared⟩
      · rw [hf.other m hm]
        exact h.dinode m
  refine ⟨hre, ?_, ?_⟩
  · intro ho
    obtain ⟨e, hpos, hinum, -⟩ := hr.held ho.1 ho.2
    rw [htable.inum hpos] at hinum
    exact hroot (hinum ▸ (hre.orphan ho).2)
  · intro m ho
    rcases hr.disk with hd | ⟨hf, -⟩
    · unfold Orphan
      rw [← hd.dinode]
      exact ho
    · have hm : m ≠ n := by
        rintro rfl
        exact ho.1 hf.free
      unfold Orphan
      rw [← hf.other m hm]
      exact ho

theorem not_hindered : ¬ Hindered fs e := by
  rintro (⟨-, x, hx⟩ | ⟨-, hfull⟩)
  · rw [h.unlocked x] at hx
    cases hx
  · rw [h.table.inUse] at hfull
    exact absurd hfull (by decide)

theorem ireclaimStep (hroot : (img.dinode rootino).nlink ≠ 0) (hn : n < 2 ^ 16) :
    Runs (fs.ireclaimStep n) fun fs' =>
      Reclaiming img fs' ∧ ¬ Orphan fs' n ∧ ∀ m, Orphan fs' m → Orphan fs m := by
  have hpost := h.orderly.ireclaimStep (n := n) hn
  cases hrun : fs.ireclaimStep n with
  | error e => exact absurd (hpost.of_error hrun) h.not_hindered
  | ok fs' => exact h.step hroot (hpost.of_ok hrun)

theorem loop (hroot : (img.dinode rootino).nlink ≠ 0) {l : List Nat}
    (hl : ∀ n ∈ l, n < 2 ^ 16) (ho : ∀ n, Orphan fs n → n ∈ l) :
    Runs (l.foldlM Fs.ireclaimStep fs) fun fs' => Reclaiming img fs' ∧ ∀ n, ¬ Orphan fs' n := by
  induction l generalizing fs with
  | nil => exact ⟨h, fun n hn => by simpa using ho n hn⟩
  | cons n l ih =>
    rw [List.foldlM_cons]
    refine (h.ireclaimStep hroot (hl n (by simp))).bind ?_
    rintro fs1 ⟨h1, hdone, hfewer⟩
    refine ih h1 (fun m hm => hl m (by simp [hm])) fun m hm => ?_
    rcases List.mem_cons.mp (ho m (hfewer m hm)) with rfl | hmem
    · exact absurd hm hdone
    · exact hmem

theorem placed_eq (ha : Acct img.sb img.used img.data img.dinode) (hn : fs.dinode n = img.dinode n) (s : Nat) :
    placed fs.data fs.dinode (n, s) = placed img.data img.dinode (n, s) := by
  refine placed_congr (by rw [hn]) fun _ ht => ?_
  rw [hn]
  exact ha.slotAddr_agree h.data ht s

/-- The bitmap marks what it did on the image, without the blocks of the inodes freed. -/
theorem used_iff (ha : Acct img.sb img.used img.data img.dinode) (hb : b < img.sb.size) : fs.used b = true ↔
      img.used b = true ∧ ∀ n, Orphan img n → (fs.dinode n).type = tFree → ¬ HasBlock img n b := by
  have hexact := ha.cover.exact
  have hexact' := h.orderly.acct.cover.exact
  rw [h.sb] at hexact'
  by_cases hdata : dataStart img.sb ≤ b
  · have harea : InData img.sb b := ⟨hdata, hb⟩
    have hb0 : b ≠ 0 := by
      rintro rfl
      exact hexact.proper harea
    constructor
    · intro hu
      obtain ⟨⟨n, s⟩, hp⟩ := hexact'.owned b harea hu
      have ht : (fs.dinode n).type ≠ tFree := by
        intro hfree
        simp only [placed, hfree, ne_eq, not_true_eq_false, and_false, if_false] at hp
        exact hb0 hp.symm
      rw [h.placed_eq ha (h.kept ht)] at hp
      refine ⟨hp ▸ hexact.marked (n, s) (hp ▸ hb0), ?_⟩
      rintro m ho hfree ⟨-, s', hp'⟩
      have hsame := hexact.inj (n, s) (m, s') (hp ▸ hb0) (hp.trans hp'.symm)
      obtain ⟨rfl, -⟩ := Prod.mk.inj hsame
      exact ht hfree
    · rintro ⟨hu, hnot⟩
      obtain ⟨⟨n, s⟩, hp⟩ := hexact.owned b harea hu
      have hkept : fs.dinode n = img.dinode n := by
        rcases h.dinode n with hsame | ⟨ho, hc⟩
        · exact hsame
        · exact absurd ⟨hb0, s, hp⟩ (hnot n ho hc.type)
      rw [← h.placed_eq ha hkept] at hp
      exact hp ▸ hexact'.marked (n, s) (hp ▸ hb0)
  · have hlow : b < dataStart img.sb := Nat.lt_of_not_le hdata
    refine iff_of_true (h.orderly.acct.cover.reserved b (h.sb ▸ hlow))
      ⟨ha.cover.reserved b hlow, ?_⟩
    rintro n - - ⟨hb0, s, hp⟩
    exact hdata (hp ▸ (hexact.inside (n, s) (hp ▸ hb0)).1)

end

end Reclaiming

/-- What `ireclaim` is for: from `img` to `fs` every orphan was freed with exactly its blocks,
and the rest of the disk is as it was. -/
structure OrphansFreed (img fs : Fs) : Prop where
  freed : ∀ n, Orphan img n → Cleared (img.dinode n) (fs.dinode n)
  kept : ∀ n, ¬ Orphan img n → fs.dinode n = img.dinode n
  used : ∀ b, b < img.sb.size →
    (fs.used b = true ↔ img.used b = true ∧ ∀ n, Orphan img n → ¬ HasBlock img n b)
  data : ∀ b, InData img.sb b → fs.data b = img.data b
  sb : fs.sb = img.sb

theorem Reclaiming.freed (h : Reclaiming img fs) (ha : Acct img.sb img.used img.data img.dinode)
    (hnone : ∀ n, ¬ Orphan fs n) : OrphansFreed img fs := by
  have hfreed : ∀ n, Orphan img n → Cleared (img.dinode n) (fs.dinode n) := by
    intro n ho
    rcases h.dinode n with hsame | ⟨-, hc⟩
    · refine absurd ?_ (hnone n)
      unfold Orphan
      rw [hsame]
      exact ho
    · exact hc
  refine ⟨hfreed, ?_, ?_, h.data, h.sb⟩
  · intro n hno
    rcases h.dinode n with hsame | ⟨ho, -⟩
    · exact hsame
    · exact absurd ho hno
  · intro b hb
    rw [h.used_iff ha hb]
    refine and_congr_right fun _ => forall₂_congr fun n ho => ?_
    simp [(hfreed n ho).type]

structure PartsApart (sb : Superblock) : Prop where
  log : 1 < sb.logstart
  inodes : sb.logstart + logblocks < sb.inodestart
  bitmap : sb.inodestart ≤ sb.bmapstart
  data : dataStart sb ≤ sb.size

structure OnDisk (disk : Nat → Block) (fs : Fs) : Prop where
  sb : Superblock.get (disk 1) = fs.sb
  used : ∀ b, b < fs.sb.size → Fs.bitmapBit disk fs.sb b = fs.used b
  dinode : ∀ n, Fs.diskInode disk fs.sb n = fs.dinode n
  data : ∀ b, InData fs.sb b → disk b = fs.data b

theorem OnDisk.ofImage (h : SameDisk (Fs.ofImage disk) fs) : OnDisk disk fs where
  sb := h.sb.symm
  used b _ := by
    rw [h.sb, h.used]
    rfl
  dinode n := by
    rw [h.sb, h.dinode]
    rfl
  data b _ := by
    rw [h.data]
    rfl

theorem OnDisk.congr (h : OnDisk disk fs) (ha : PartsApart fs.sb)
    (hsame : ∀ b, Outside fs.sb.logstart b → disk' b = disk b) : OnDisk disk' fs := by
  obtain ⟨hlog, hinodes, hbitmap, -⟩ := ha
  have hmap : fs.sb.logstart + logblocks < fs.sb.bmapstart := Nat.lt_of_lt_of_le hinodes hbitmap
  refine ⟨?_, ?_, ?_, ?_⟩
  · rw [hsame 1 (.inl hlog)]
    exact h.sb
  · intro b hb
    rw [← h.used b hb]
    unfold Fs.bitmapBit
    rw [hsame _ (.inr (Nat.lt_of_lt_of_le hmap (Nat.le_add_left _ _)))]
  · intro n
    rw [← h.dinode n]
    unfold Fs.diskInode
    rw [hsame (n / ipb + fs.sb.inodestart) (.inr (Nat.lt_of_lt_of_le hinodes (Nat.le_add_left _ _)))]
  · intro b hb
    rw [← h.data b hb]
    have hlow : fs.sb.bmapstart ≤ dataStart fs.sb := by
      unfold dataStart
      exact Nat.le_trans (Nat.le_add_right _ _) (Nat.le_succ _)
    exact hsame b (.inr (Nat.lt_of_lt_of_le hmap (Nat.le_trans hlow hb.1)))

/-- What the disk can hold once the power failed while the inodes `l` were still to be looked at,
and the log was recovered: the turn under way is one transaction. -/
inductive Survives (fs : Fs) : List Nat → (Nat → Block) → Prop where
  | idle (holds : OnDisk disk fs) : Survives fs l disk
  | commit (run : fs.ireclaimStep n = .ok fs') (ready : Ready fs.sb.logstart lh d)
      (old : OnDisk d.disk fs) (new : OnDisk (view d) fs')
      (fails : Reboots fs.sb.logstart (applyWrites ((commitWrites lru fs.sb.logstart lh d).take k) d.disk) e)
      (recovered : (Dev.boot e).recoverFromLog lru' fs.sb.logstart = some r) : Survives fs (n :: l) r.disk

theorem Survives.holds (h : Survives fs l disk) (ha : PartsApart fs.sb)
    (hsb : ∀ n ∈ l, ∀ fs', fs.ireclaimStep n = .ok fs' → fs'.sb = fs.sb) :
    OnDisk disk fs ∨ ∃ n l' fs', l = n :: l' ∧ fs.ireclaimStep n = .ok fs' ∧ OnDisk disk fs' := by
  cases h with
  | idle holds => exact .inl holds
  | commit run ready old new fails recovered =>
    have hcrash := ready.crashState fails
    obtain ⟨r', hr', -, -, hq⟩ := recover_crashState _ ready.size ready.outside hcrash
    cases hr'.symm.trans recovered
    rcases hq with hq | hq
    · exact .inl (old.congr ha hq.home)
    · refine .inr ⟨_, _, _, rfl, run, ?_⟩
      have hlog := hsb _ List.mem_cons_self _ run
      refine new.congr (hlog ▸ ha) ?_
      intro b hout
      rw [hlog] at hout
      rw [hq.home b hout, ready.installed]

/-- States of the machine while it reclaims the orphans of `img`, with the inodes that are still to be
looked at. After a crash it boots from what the disk holds and starts over. -/
inductive Reclaims (img : Fs) : Fs → List Nat → Prop where
  | boot (up : img.namei none rootPath = .ok (root, fs)) :
      Reclaims img fs ((List.range fs.sb.ninodes).drop 1)
  | turn (before : Reclaims img fs (n :: l)) (run : fs.ireclaimStep n = .ok fs') : Reclaims img fs' l
  | crash (before : Reclaims img fs l) (survives : Survives fs l disk)
      (up : (Fs.ofImage disk).namei none rootPath = .ok (root, fs')) :
      Reclaims img fs' ((List.range fs'.sb.ninodes).drop 1)

theorem Rooted.reclaiming (hr : Rooted img root fs) (hl : ∀ e, (img.inode e).locked = false) :
    Reclaiming img fs where
  orderly := hr.orderly
  unlocked := fun e => (hr.locked e).trans (hl e)
  table := ⟨root, hr.inum, hr.refs⟩
  sb := hr.disk.sb
  data := fun b _ => by rw [hr.disk.data]
  dinode := fun n => .inl (by rw [hr.disk.dinode])

theorem Reclaiming.reboot (hw : WellFormed img) (hparts : PartsApart img.sb)
    (hroot : (img.dinode rootino).nlink ≠ 0) (h : Reclaiming img fs) (hd : OnDisk disk fs)
    (up : (Fs.ofImage disk).namei none rootPath = .ok (root, fs')) : Reclaiming img fs' := by
  have hsb : (Fs.ofImage disk).sb = fs.sb := hd.sb
  have hdin : (Fs.ofImage disk).dinode = fs.dinode := by
    funext n
    rw [← hd.dinode n, ← hd.sb]
    rfl
  have hacct : Acct fs.sb (Fs.ofImage disk).used disk fs.dinode := by
    refine h.orderly.acct.agree (h.sb ▸ hparts.data) (fun b hb => ?_) hd.data
    rw [← hd.used b hb, ← hd.sb]
    rfl
  have hwell : WellFormed (Fs.ofImage disk) := by
    refine ⟨?_, ?_, ?_, ?_, ?_, fun _ => rfl⟩
    · rw [hsb, hdin]
      exact hacct
    · rw [hdin]
      exact h.orderly.aligned
    · rw [hdin, hsb]
      exact h.orderly.numbered
    · rw [hsb]
      exact h.orderly.few
    · rw [hdin]
      rcases h.dinode rootino with hsame | ⟨ho, -⟩
      · rw [hsame]
        exact hw.root
      · exact absurd ho.2 hroot
  obtain ⟨ip, -, hr⟩ := hwell.rooted up
  refine ⟨hr.orderly, hr.locked, ⟨ip, hr.inum, hr.refs⟩, ?_, ?_, ?_⟩
  · rw [hr.disk.sb, hsb, h.sb]
  · intro b hb
    rw [hr.disk.data, ← h.data b hb]
    exact hd.data b (h.sb ▸ hb)
  · intro n
    rw [hr.disk.dinode, hdin]
    exact h.dinode n

section Machine

variable {img : Fs} (hw : WellFormed img) (hroot : (img.dinode rootino).nlink ≠ 0)
  (hfree : ∀ e, (img.inode e).locked = false) (hparts : PartsApart img.sb)
include hw hroot hfree hparts

/-- In every state of the machine the orphans that are left are still to be looked at. -/
theorem Reclaims.invariant (h : Reclaims img fs l) :
    Reclaiming img fs ∧ (∀ n ∈ l, n < 2 ^ 16) ∧ ∀ n, Orphan fs n → n ∈ l := by
  induction h with
  | boot up =>
    obtain ⟨ip, -, hr⟩ := hw.rooted up
    exact ⟨hr.reclaiming hfree, fun n => hr.orderly.inums, fun n ho => hr.orderly.ahead ho.1⟩
  | turn before run ih =>
    obtain ⟨hre, hl, ho⟩ := ih
    obtain ⟨fs1, hrun, h1, hdone, hfewer⟩ := (hre.ireclaimStep hroot (hl _ List.mem_cons_self)).result
    cases hrun.symm.trans run
    refine ⟨h1, fun m hm => hl m (by simp [hm]), fun m hm => ?_⟩
    rcases List.mem_cons.mp (ho m (hfewer m hm)) with rfl | hmem
    · exact absurd hm hdone
    · exact hmem
  | crash before survives up ih =>
    obtain ⟨hre, hl, -⟩ := ih
    rename_i fs l disk root fs'
    have hturn : ∀ n ∈ l, ∀ fs1, fs.ireclaimStep n = .ok fs1 → Reclaiming img fs1 := by
      intro n hn fs1 run
      obtain ⟨fs2, hrun, h2, -⟩ := (hre.ireclaimStep hroot (hl n hn)).result
      cases hrun.symm.trans run
      exact h2
    have hheld : ∃ fs1, Reclaiming img fs1 ∧ OnDisk disk fs1 := by
      have hsb := fun n hn fs1 run => (hturn n hn fs1 run).sb.trans hre.sb.symm
      rcases survives.holds (hre.sb ▸ hparts) hsb with hold | ⟨n, l', fs1, rfl, run, hold⟩
      · exact ⟨_, hre, hold⟩
      · exact ⟨fs1, hturn n List.mem_cons_self fs1 run, hold⟩
    obtain ⟨fs1, h1, hold⟩ := hheld
    have h2 := h1.reboot hw hparts hroot hold up
    exact ⟨h2, fun n => h2.orderly.inums, fun n ho => h2.orderly.ahead ho.1⟩

/-- Reclaiming the orphans of an image. Booting frees every inode that was allocated without
links, gives back exactly the blocks it had, changes no other inode and no block of the data area,
and leaves init's reference to the root the only one. The loop gets to that same end from every
state that crashes, in a turn or between turns, and reboots can lead to. -/
theorem orphans_reclaimed : (Runs (bootDisk img) fun k => OrphansFreed img k.fs ∧ OnlyRoot k.fs) ∧
      ∀ fs l, Reclaims img fs l →
        Runs (l.foldlM Fs.ireclaimStep fs) fun fs' => OrphansFreed img fs' ∧ OnlyRoot fs' := by
  have hloop : ∀ fs l, Reclaims img fs l →
      Runs (l.foldlM Fs.ireclaimStep fs) fun fs' => OrphansFreed img fs' ∧ OnlyRoot fs' := by
    intro fs l h
    obtain ⟨hre, hl, ho⟩ := h.invariant hw hroot hfree hparts
    exact (hre.loop hroot hl ho).imp fun fs' hend => ⟨hend.1.freed hw.acct hend.2, hend.1.table⟩
  refine ⟨?_, hloop⟩
  unfold bootDisk
  refine (namei_rootPath_runs hw.unread).bind ?_
  rintro ⟨root, fs⟩ up
  refine (hloop fs _ (.boot up)).bind ?_
  exact fun fs' hend => hend

end Machine

/-- The disk of 60 blocks: the root directory has block 36, and a file of ten bytes that no directory
has is in block 37. -/
def orphanImage (b : Nat) : Block :=
  if b = 1 then fun o => UInt8.ofNat ([fsmagic, 60, 24, 16, 31, 2, 33, 35].getD (o / 4) 0 / 256 ^ (o % 4))
  else if b = 33 then
    Dinode.put (Dinode.put (fun _ => 0) 1 ⟨tDir, 0, 0, 1, 2 * direntSize, fun i => if i = 0 then 36 else 0⟩) 2
      ⟨tFile, 0, 0, 0, 10, fun i => if i = 0 then 37 else 0⟩
  else if b = 35 then Mkfs.Host.bitmap 38
  else if b = 36 then fun o => (logEntry (o / direntSize)).encode.getD (o % direntSize) 0
  else fun _ => 0

def orphanDisk : Fs := .ofImage orphanImage

theorem orphanDisk_sb : orphanDisk.sb = ⟨60, 16, 31, 2, 33, 35⟩ := by decide +kernel

theorem orphanDisk_dinode (n : Nat) : orphanDisk.dinode n = Fs.diskInode orphanImage orphanDisk.sb n := rfl

theorem orphanDisk_typed (ht : (orphanDisk.dinode n).type ≠ tFree) : n = rootino ∨ n = 2 := by
  have hall : ∀ n, n < 32 → (orphanDisk.dinode n).type ≠ tFree → n = rootino ∨ n = 2 := by decide +kernel
  by_cases hn : n < 32
  · exact hall n hn ht
  · have hout : ¬ n / ipb + orphanDisk.sb.inodestart < orphanDisk.sb.bmapstart := by
      rw [orphanDisk_sb]
      simp only [ipb, bsize]
      omega
    rw [orphanDisk_dinode, Fs.diskInode, if_neg hout] at ht
    exact absurd rfl ht

theorem orphanDisk_small : SmallImage orphanDisk := by decide +kernel

theorem orphanDisk_out (hn : orphanDisk.sb.ninodes ≤ n) : (orphanDisk.dinode n).type = tFree := by
  by_contra ht
  rcases orphanDisk_typed ht with rfl | rfl <;> exact absurd hn (by decide +kernel)

theorem orphanDisk_wellFormed : WellFormed orphanDisk :=
  orphanDisk_small.wellFormed (fun _ => orphanDisk_out) fun _ => rfl

/-- The buffers when the turn for inode 2 is to be committed: its inode block and the bitmap. -/
def turnDev (fs : Fs) : Dev where
  disk := orphanImage
  cache := Function.update
    (Function.update (fun _ => none) 33 (some (Dinode.put (orphanImage 33) 2 (fs.dinode 2)))) 35
    (some (Mkfs.Host.bitmap 37))
  refcnt := fun b => if b = 33 ∨ b = 35 then 1 else 0
  issued := []

theorem turnDev_ready (fs : Fs) : Ready 2 [35, 33] (turnDev fs) := by
  refine .of_cached (word_zero 0) (by decide) (by decide) (by decide) ?_ ?_ fun b hb => ?_
  · simp [Outside, logblocks, maxopblocks]
  · simp [turnDev]
  · simp only [List.mem_cons, List.not_mem_nil, or_false, not_or] at hb
    simp [turnDev, hb]

/-- Those buffers hold the file system after the turn. -/
theorem turnDev_holds (h : Reclaiming orphanDisk fs) (ho : ¬ Orphan fs 2)
    (hu : ∀ b, b < 60 → fs.used b = decide (b < 37)) : OnDisk (view (turnDev fs)) fs := by
  have hsb := h.sb.trans orphanDisk_sb
  have hview : ∀ b, b ≠ 33 → b ≠ 35 → view (turnDev fs) b = orphanImage b := by
    intro b h33 h35
    simp [view, turnDev, h33, h35]
  have hnode : view (turnDev fs) 33 = Dinode.put (orphanImage 33) 2 (fs.dinode 2) := by simp [view, turnDev]
  have hcleared : Cleared (orphanDisk.dinode 2) (fs.dinode 2) := by
    rcases h.dinode 2 with hsame | ⟨-, hc⟩
    · refine absurd ?_ ho
      unfold Orphan
      rw [hsame]
      decide +kernel
    · exact hc
  have hfits : (fs.dinode 2).Fits := by
    have horig : (orphanDisk.dinode 2).Fits := Dinode.get_fits _ _
    refine ⟨by rw [hcleared.size]; decide, fun j => ?_, fun j hj => ?_⟩
    · rw [hcleared.addrs]
      split
      · decide
      · exact horig.addr j
    · rw [hcleared.addrs, if_neg (by omega)]
      exact horig.ends j hj
  refine ⟨?_, fun b hb => ?_, fun n => ?_, fun b hb => ?_⟩
  · rw [hview 1 (by decide) (by decide), h.sb]
    rfl
  · rw [hsb] at hb ⊢
    have hlt : b < bpb := Nat.lt_trans hb (by decide)
    have hmap : view (turnDev fs) 35 = Mkfs.Host.bitmap 37 := by simp [view, turnDev]
    rw [hu b hb, Fs.bitmapBit, Nat.div_eq_of_lt hlt, Nat.mod_eq_of_lt hlt, Nat.zero_add, hmap,
      Mkfs.Host.bitmap_testBit]
  · by_cases hn : n = 2
    · subst hn
      rw [hsb]
      rw [Fs.diskInode, if_pos (by decide), show 2 / ipb + 33 = 33 by decide, hnode]
      exact Dinode.get_put hfits
    · have hsame : fs.dinode n = orphanDisk.dinode n := by
        rcases h.dinode n with hsame | ⟨horphan, -⟩
        · exact hsame
        · rcases orphanDisk_typed horphan.1 with rfl | rfl
          · exact absurd horphan.2 (by decide +kernel)
          · exact absurd rfl hn
      rw [hsame, orphanDisk_dinode, h.sb, orphanDisk_sb]
      unfold Fs.diskInode
      by_cases hblock : n / ipb = 0
      · have hmod : n % ipb ≠ 2 := by
          simp only [ipb, bsize] at *
          omega
        rw [hblock, Nat.zero_add, hnode, Dinode.get_put_ne hmod]
      · split
        · rename_i hlt
          dsimp only at hlt ⊢
          rw [hview _ (by omega) (by omega)]
        · rfl
  · rw [h.data b (h.sb ▸ hb)]
    have hlow := hb.1
    rw [hsb] at hlow
    simp only [dataStart, bpb, bsize] at hlow
    exact hview b (by omega) (by omega)

def TwoFreed (fs : Fs) : Prop :=
  (fs.dinode 2).type = tFree ∧ (fs.dinode 2).size = 0 ∧ fs.used 37 = false ∧ fs.used 36 = true

theorem OrphansFreed.two (h : OrphansFreed orphanDisk fs) : TwoFreed fs := by
  have htwo := h.freed 2 (by decide +kernel)
  have hused := h.used
  rw [orphanDisk_sb] at hused
  refine ⟨htwo.type, htwo.size, ?_, ?_⟩
  · have := (hused 37 (by decide)).not.mpr fun hb => hb.2 2 (by decide +kernel) ⟨by decide, 0, by decide +kernel⟩
    simpa using this
  · refine (hused 36 (by decide)).mpr ⟨by decide +kernel, ?_⟩
    rintro n ho ⟨-, s, hp⟩
    obtain ⟨-, -, -, he⟩ := orphanDisk_small.placed (fun _ => orphanDisk_out) (x := (n, s)) (by rw [hp]; decide)
    have he : 36 = (orphanDisk.dinode n).addrs 0 := hp.symm.trans he
    rcases orphanDisk_typed ho.1 with rfl | rfl
    · exact absurd ho (by decide +kernel)
    · exact absurd he (by decide +kernel)

/-- The disk after a power failure in the commit of the turn that led to `fs`, with the group in the
log and none of it installed. -/
def cutOff (fs : Fs) : Nat → Block :=
  applyWrites ((commitWrites (fun _ _ => 0) 2 [35, 33] (turnDev fs)).take 3) orphanImage

/-- The boot that gets through, and one after the turn for inode 2 was cut off. -/
theorem orphans_reclaimed_cutOff : (Runs (bootDisk orphanDisk) fun k => TwoFreed k.fs) ∧
    ∃ fs1 l fs2 r root fs3, Reclaims orphanDisk fs1 (2 :: l) ∧ Orphan fs1 2 ∧ fs1.ireclaimStep 2 = .ok fs2 ∧
      (Dev.boot (cutOff fs2)).recoverFromLog (fun _ _ => 0) 2 = some r ∧
      (Fs.ofImage r.disk).namei none rootPath = .ok (root, fs3) ∧
      Runs (((List.range fs3.sb.ninodes).drop 1).foldlM Fs.ireclaimStep fs3) TwoFreed := by
  have hroot : (orphanDisk.dinode rootino).nlink ≠ 0 := by decide +kernel
  have hparts : PartsApart orphanDisk.sb := by
    rw [orphanDisk_sb]
    exact ⟨by decide, by decide, by decide, by decide⟩
  obtain ⟨hboot, hloop⟩ := orphans_reclaimed orphanDisk_wellFormed hroot (fun _ => rfl) hparts
  refine ⟨hboot.imp fun k hend => hend.1.two, ?_⟩
  obtain ⟨⟨root1, fs1⟩, hup, ho, hrun⟩ := (by decide +kernel : Runs (orphanDisk.namei none rootPath) fun r =>
    Orphan r.2 2 ∧ Runs (r.2.ireclaimStep 2) fun fs => ∀ b, b < 60 → fs.used b = decide (b < 37)).result
  obtain ⟨fs2, hturn, hused⟩ := hrun.result
  obtain ⟨ip, -, hrooted⟩ := orphanDisk_wellFormed.rooted hup
  have hlinked : ¬ Orphan orphanDisk 1 := by decide +kernel
  have hbefore : Reclaims orphanDisk fs1 (2 :: (List.range 16).drop 3) := by
    have hfirst := Reclaims.boot hup
    rw [hrooted.disk.sb, orphanDisk_sb] at hfirst
    refine .turn hfirst ?_
    rw [Fs.ireclaimStep, hrooted.disk.dinode]
    exact if_neg hlinked
  obtain ⟨hre, -, -⟩ := hbefore.invariant orphanDisk_wellFormed hroot (fun _ => rfl) hparts
  obtain ⟨fs, hrun, hre2, hgone, -⟩ := (hre.ireclaimStep hroot (n := 2) (by decide)).result
  cases hrun.symm.trans hturn
  have hready := turnDev_ready fs2
  have hfails : Reboots 2 (applyWrites ((commitWrites (fun _ _ => 0) 2 [35, 33] (turnDev fs2)).take 3)
      (turnDev fs2).disk) (cutOff fs2) := .first
  obtain ⟨r, hrec⟩ : ∃ r, (Dev.boot (cutOff fs2)).recoverFromLog (fun _ _ => 0) 2 = some r :=
    (recover_crashState _ hready.size hready.outside (hready.crashState hfails)).imp fun _ hr => hr.1
  have hstart : fs1.sb.logstart = 2 := by rw [hrooted.disk.sb, orphanDisk_sb]
  have hsurvives : Survives fs1 (2 :: (List.range 16).drop 3) r.disk := by
    rw [← hstart] at hready hfails hrec
    exact .commit hturn hready (.ofImage hrooted.disk) (turnDev_holds hre2 hgone hused) hfails hrec
  have hunread : ∀ e, ((Fs.ofImage r.disk).inode e).ref = 0 := fun _ => rfl
  obtain ⟨⟨root3, fs3⟩, hup3, -⟩ := (namei_rootPath_runs hunread).result
  exact ⟨fs1, _, fs2, r, root3, fs3, hbefore, ho, hturn, hrec, hup3,
    (hloop fs3 _ (.crash hbefore hsurvives hup3)).imp fun _ hend => hend.1.two⟩

end Xv6Filter.Proofs
