import Xv6Filter.Proofs.Redo

namespace Xv6Filter.Proofs
open Lib Dev Function

section Crash

variable (start : Nat) (lh : List Nat) (old new : Nat → Block)

structure Quiet (home disk : Nat → Block) : Prop where
  head : word (disk start) 0 = 0
  home : ∀ b, Outside start b → disk b = home b

/-- The disk has the group `lh` in its log; the home blocks of the group may have
any contents. -/
structure Logged (disk : Nat → Block) : Prop where
  head : getHead (disk start) = some lh
  copied : Copied start disk new 0 lh
  others : ∀ b, Outside start b → b ∉ lh → disk b = old b

def installed (b : Nat) : Block := if b ∈ lh then new b else old b

def CrashState (disk : Nat → Block) : Prop :=
  Quiet start old disk ∨ Logged start lh old new disk ∨ Quiet start (installed lh old new) disk

variable {start lh old new}

theorem slot_ne_start (i : Nat) : slot start i ≠ start := by
  simp only [slot]
  omega

theorem not_outside_start : ¬ Outside start start := by
  simp only [Outside]
  omega

theorem Quiet.clear {home disk : Nat → Block} (h : ∀ b, Outside start b → disk b = home b)
    (blk : Block) : Quiet start home (update disk start (putHead blk [])) where
  head := by
    rw [update_self]
    exact word_setWord blk 0 0
  home := by
    intro b hb
    have hne : b ≠ start := by
      rintro rfl
      exact not_outside_start hb
    rw [update_of_ne hne]
    exact h b hb

theorem Quiet.slot_write {home disk : Nat → Block} (h : Quiet start home disk) {i : Nat}
    (hi : i < logblocks) (blk : Block) :
    Quiet start home (update disk (slot start i) blk) where
  head := by
    rw [update_of_ne (slot_ne_start i).symm]
    exact h.head
  home := by
    intro b hb
    rw [update_of_ne (hb.ne_slot hi)]
    exact h.home b hb

theorem mem_logWrites {w : Nat × Block} {tail : Nat} {bs : List Nat}
    (hl : tail + bs.length ≤ logblocks) (hw : w ∈ logWrites start new tail bs) :
    ∃ i, tail ≤ i ∧ i < logblocks ∧ w.1 = slot start i := by
  induction bs generalizing tail with
  | nil => simp [logWrites] at hw
  | cons b bs ih =>
    simp only [List.length_cons] at hl
    rcases List.mem_cons.mp hw with rfl | hw
    · exact ⟨tail, Nat.le_refl _, by omega, rfl⟩
    · obtain ⟨i, hi, hn, he⟩ := ih (by omega) hw
      exact ⟨i, by omega, hn, he⟩

theorem logWrites_copied {tail : Nat} {bs : List Nat} (hl : tail + bs.length ≤ logblocks)
    (disk : Nat → Block) :
    Copied start (applyWrites (logWrites start new tail bs) disk) new tail bs := by
  induction bs generalizing tail disk with
  | nil => trivial
  | cons b bs ih =>
    simp only [List.length_cons] at hl
    refine ⟨?_, ih (by omega) _⟩
    have hother : slot start tail ∉ (logWrites start new (tail + 1) bs).map Prod.fst := by
      intro hm
      obtain ⟨w, hw, he⟩ := List.mem_map.mp hm
      obtain ⟨i, hi, _, hs⟩ := mem_logWrites (by omega) hw
      simp only [slot] at *
      omega
    exact (applyWrites_other _ hother).trans (update_self ..)

theorem Logged.commit {disk : Nat → Block} (hq : Quiet start old disk)
    (hc : Copied start disk new 0 lh) (hl : lh.length ≤ logblocks) (hb : ∀ b ∈ lh, b < 2 ^ 32)
    (blk : Block) : Logged start lh old new (update disk start (putHead blk lh)) where
  head := by
    rw [update_self]
    exact getHead_putHead blk hl hb
  copied := by
    refine hc.congr (by omega) ?_
    intro i _
    rw [update_of_ne (slot_ne_start i)]
  others := by
    intro b hob _
    have hne : b ≠ start := by
      rintro rfl
      exact not_outside_start hob
    rw [update_of_ne hne]
    exact hq.home b hob

theorem Logged.install {disk : Nat → Block} (h : Logged start lh old new disk)
    (hl : lh.length ≤ logblocks) {b : Nat} (hb : b ∈ lh) (ho : Outside start b) (blk : Block) :
    Logged start lh old new (update disk b blk) where
  head := by
    have hne : start ≠ b := by
      rintro rfl
      exact not_outside_start ho
    rw [update_of_ne hne]
    exact h.head
  copied := by
    refine h.copied.congr (by omega) ?_
    intro i hi
    rw [update_of_ne (ho.ne_slot hi).symm]
  others := by
    intro c hoc hc
    have hne : c ≠ b := by
      rintro rfl
      exact hc hb
    rw [update_of_ne hne]
    exact h.others c hoc hc

/-- From a logged group on, through the installation and the clearing of the
header, the disk is recoverable, and in the end the group is in place. -/
theorem Logged.finish {disk : Nat → Block} (h : Logged start lh old new disk)
    (hl : lh.length ≤ logblocks) (ho : ∀ b ∈ lh, Outside start b) (blk : Block) :
    let ws := (lh.map fun b => (b, new b)) ++ [(start, putHead blk [])]
    Throughout (CrashState start lh old new) ws disk ∧
      Quiet start (installed lh old new) (applyWrites ws disk) := by
  have hinst : Throughout (Logged start lh old new) (lh.map fun b => (b, new b)) disk := by
    refine .of_step h ?_
    intro w hw e he
    obtain ⟨b, hb, rfl⟩ := List.mem_map.mp hw
    exact he.install hl hb (ho b hb) (new b)
  have hhome : ∀ b, Outside start b →
      applyWrites (lh.map fun b => (b, new b)) disk b = installed lh old new b := by
    intro b hob
    rw [applyWrites_map, installed]
    split
    · rfl
    · rename_i hb
      exact h.others b hob hb
  have hquiet := Quiet.clear hhome blk
  refine ⟨?_, ?_⟩
  · exact (hinst.mono fun _ hd => .inr (.inl hd)).append
      (.single (.inr (.inl hinst.last)) (.inr (.inr hquiet)))
  · rw [applyWrites_append]
    exact hquiet

end Crash

section Recovery

variable (lru : Lru) {start : Nat}

theorem boot_sound (disk : Nat → Block) : Sound (.boot disk) :=
  ⟨fun _ _ => rfl, fun _ _ => rfl⟩

theorem readHead_wrote {disk : Nat → Block} {lh : List Nat} (hh : getHead (disk start) = some lh) :
    ∃ d, (Dev.boot disk).readHead lru start = some (lh, d) ∧ Wrote (.boot disk) [] d := by
  obtain ⟨hb, h1⟩ := bread_spec lru (boot_sound disk) start
  have hhead : getHead ((Dev.boot disk).bread lru start).1 = some lh := by
    rw [hb]
    exact hh
  refine ⟨((Dev.boot disk).bread lru start).2.brelse start, ?_, ?_⟩
  · simp [Dev.readHead, hhead]
  · refine ⟨h1.sound.unref (.inr ?_), h1.view, h1.disk, by rw [List.append_nil]; exact h1.issued⟩
    rw [h1.view, h1.disk]
    rfl

/-- `recover_from_log` installs what the header lists and clears it. -/
theorem recover_wrote {disk new : Nat → Block} {lh : List Nat}
    (hh : getHead (disk start) = some lh) (hl : lh.length ≤ logblocks)
    (ho : ∀ b ∈ lh, Outside start b) (hc : Copied start disk new 0 lh) :
    ∃ r blk, (Dev.boot disk).recoverFromLog lru start = some r ∧
      Wrote (.boot disk) ((lh.map fun b => (b, new b)) ++ [(start, putHead blk [])]) r := by
  obtain ⟨d, hd, hw⟩ := readHead_wrote lru hh
  have hl' : 0 + lh.length ≤ logblocks := by omega
  have hc' : Copied start (view d) new 0 lh := by
    rw [hw.view]
    exact hc
  have hi := installTrans_wrote lru start true hw.sound hl' ho hc'
  have hf := writeHead_wrote lru hi.sound start []
  refine ⟨(d.installTrans lru start true 0 lh).writeHead lru start [], _, ?_,
    (hw.append hi).append hf⟩
  simp [Dev.recoverFromLog, hd]

/-- Recovery from any crash state ends quiet, with the old or the new contents, and
passes only through crash states. -/
theorem recover_crashState {disk old new : Nat → Block} {lh : List Nat}
    (hl : lh.length ≤ logblocks) (ho : ∀ b ∈ lh, Outside start b)
    (h : CrashState start lh old new disk) :
    ∃ r, (Dev.boot disk).recoverFromLog lru start = some r ∧
      r.disk = applyWrites r.issued disk ∧
      Throughout (CrashState start lh old new) r.issued disk ∧
      (Quiet start old r.disk ∨ Quiet start (installed lh old new) r.disk) := by
  have quiet : ∀ home, Quiet start home disk →
      ∃ r, (Dev.boot disk).recoverFromLog lru start = some r ∧
        r.disk = applyWrites r.issued disk ∧ Throughout (Quiet start home) r.issued disk := by
    intro home hq
    have hc : Copied start disk disk 0 [] := trivial
    obtain ⟨r, blk, hr, hw⟩ := recover_wrote lru (getHead_empty hq.head) (by simp) (by simp) hc
    have hi : r.issued = [(start, putHead blk [])] := hw.issued
    refine ⟨r, hr, by rw [hi]; exact hw.disk, ?_⟩
    rw [hi]
    exact .single hq (.clear hq.home blk)
  rcases h with hq | hg | hq
  · obtain ⟨r, hr, hd, ht⟩ := quiet old hq
    refine ⟨r, hr, hd, ht.mono fun _ hp => .inl hp, .inl ?_⟩
    rw [hd]
    exact ht.last
  · obtain ⟨r, blk, hr, hw⟩ := recover_wrote lru hg.head hl ho hg.copied
    obtain ⟨ht, hf⟩ := hg.finish hl ho blk
    have hi : r.issued = _ := hw.issued
    refine ⟨r, hr, by rw [hi]; exact hw.disk, by rw [hi]; exact ht, .inr ?_⟩
    rw [hw.disk]
    exact hf
  · obtain ⟨r, hr, hd, ht⟩ := quiet _ hq
    refine ⟨r, hr, hd, ht.mono fun _ hp => .inr (.inr hp), .inr ?_⟩
    rw [hd]
    exact ht.last

end Recovery

/-- What is known when `commit` starts: the log on disk is empty, the recorded
blocks are distinct, fit and lie outside the log, and a buffer that differs from the
disk is one of theirs and pinned. -/
structure Ready (start : Nat) (lh : List Nat) (d : Dev) : Prop where
  head : word (d.disk start) 0 = 0
  size : lh.length ≤ logblocks
  range : ∀ b ∈ lh, b < 2 ^ 32
  distinct : lh.Nodup
  outside : ∀ b ∈ lh, Outside start b
  held : ∀ b, d.cache b = none → d.refcnt b = 0
  pinned : ∀ b ∈ lh, 1 ≤ d.refcnt b
  clean : ∀ b, b ∉ lh → ∀ blk, d.cache b = some blk → blk = d.disk b

/-- Over an empty log, buffers of exactly the recorded blocks will do, each of them pinned. -/
theorem Ready.of_cached {start : Nat} {lh : List Nat} {d : Dev} (hhead : word (d.disk start) 0 = 0)
    (hsize : lh.length ≤ logblocks) (hrange : ∀ b ∈ lh, b < 2 ^ 32) (hdistinct : lh.Nodup)
    (hout : ∀ b ∈ lh, Outside start b) (hin : ∀ b ∈ lh, d.cache b ≠ none ∧ 1 ≤ d.refcnt b)
    (hnot : ∀ b, b ∉ lh → d.cache b = none ∧ d.refcnt b = 0) : Ready start lh d where
  head := hhead
  size := hsize
  range := hrange
  distinct := hdistinct
  outside := hout
  held := fun b hb => (hnot b fun hmem => (hin b hmem).1 hb).2
  pinned := fun b hb => (hin b hb).2
  clean := by
    intro b hb blk hc
    simp [(hnot b hb).1] at hc

theorem Ready.sound {start : Nat} {lh : List Nat} {d : Dev} (h : Ready start lh d) : Sound d where
  held := h.held
  clean := by
    intro b hb
    have hn : b ∉ lh := by
      intro hm
      have := h.pinned b hm
      omega
    cases hc : d.cache b with
    | none => simp [view, hc]
    | some blk => simp [view, hc, h.clean b hn blk hc]

def commitWrites (lru : Lru) (start : Nat) (lh : List Nat) (d : Dev) : List (Nat × Block) :=
  (d.commit lru start lh).issued.drop d.issued.length

/-- The writes of a commit in order: the log copies, the header, the home blocks,
the empty header. -/
theorem commit_wrote (lru : Lru) {start : Nat} {lh : List Nat} {d : Dev} (h : Ready start lh d)
    (hn : 0 < lh.length) :
    ∃ blk blk', Wrote d (logWrites start (view d) 0 lh ++ [(start, putHead blk lh)] ++
      ((lh.map fun b => (b, view d b)) ++ [(start, putHead blk' [])])) (d.commit lru start lh) := by
  have hl : 0 + lh.length ≤ logblocks := by
    have := h.size
    omega
  have h1 := writeLog_wrote lru start h.sound hl h.outside
  have h2 := h1.append (writeHead_wrote lru h1.sound start lh)
  generalize view (d.writeLog lru start 0 lh) start = blk at h2
  have hc : Copied start (view ((d.writeLog lru start 0 lh).writeHead lru start lh)) (view d) 0 lh := by
    rw [h2.view, applyWrites_snoc]
    refine (logWrites_copied hl (view d)).congr hl ?_
    intro i _
    rw [update_of_ne (slot_ne_start i)]
  have h3 := installTrans_wrote lru start false h2.sound hl h.outside hc
  have h4 := h3.append (writeHead_wrote lru h3.sound start [])
  rw [Dev.commit, if_pos hn]
  exact ⟨blk, _, h2.append h4⟩

theorem commit_crashState (lru : Lru) {start : Nat} {lh : List Nat} {d : Dev}
    (h : Ready start lh d) :
    Throughout (CrashState start lh d.disk (view d)) (commitWrites lru start lh d) d.disk := by
  have hquiet : Quiet start d.disk d.disk := ⟨h.head, fun _ _ => rfl⟩
  by_cases hn : 0 < lh.length
  · obtain ⟨blk, blk', hw⟩ := commit_wrote lru h hn
    have hl : 0 + lh.length ≤ logblocks := by
      have := h.size
      omega
    rw [commitWrites, hw.issued, List.drop_left]
    have hlog : Throughout (Quiet start d.disk) (logWrites start (view d) 0 lh) d.disk := by
      refine .of_step hquiet ?_
      intro w hm e he
      obtain ⟨i, _, hi, hs⟩ := mem_logWrites hl hm
      rw [hs]
      exact he.slot_write hi w.2
    have hcommit := Logged.commit hlog.last (logWrites_copied hl d.disk) h.size h.range blk
    have hhead : Throughout (CrashState start lh d.disk (view d)) [(start, putHead blk lh)]
        (applyWrites (logWrites start (view d) 0 lh) d.disk) :=
      .single (.inl hlog.last) (.inr (.inl hcommit))
    have hfinish := (hcommit.finish h.size h.outside blk').1
    rw [← applyWrites_snoc] at hfinish
    exact ((hlog.mono fun _ hd => .inl hd).append hhead).append hfinish
  · rw [commitWrites, Dev.commit, if_neg hn, List.drop_length]
    exact .of_step (.inl hquiet) (by simp)

/-- The disk after any number of crashes of `recover_from_log`, each after any
number of its writes. -/
inductive Reboots (start : Nat) (disk : Nat → Block) : (Nat → Block) → Prop where
  | first : Reboots start disk disk
  | crash (before : Reboots start disk e) (lru : Lru)
      (run : (Dev.boot e).recoverFromLog lru start = some r) (k : Nat) :
      Reboots start disk (applyWrites (r.issued.take k) e)

/-- However often recovery was cut off, a crash state is what it left. -/
theorem Ready.crashState (h : Ready start lh d)
    (hr : Reboots start (applyWrites ((commitWrites lru start lh d).take k) d.disk) e) :
    CrashState start lh d.disk (view d) e := by
  induction hr with
  | first => exact commit_crashState lru h k
  | crash before lru1 run k1 ih =>
    obtain ⟨r, hr, _, ht, _⟩ := recover_crashState lru1 h.size h.outside ih
    cases hr.symm.trans run
    exact ht k1

theorem Ready.installed (h : Ready start lh d) (b : Nat) : installed lh d.disk (view d) b = view d b := by
  unfold Proofs.installed
  split
  · rfl
  · rename_i hb
    unfold view
    cases hc : d.cache b with
    | none => rfl
    | some blk => exact (h.clean b hb blk hc).symm

/-- A commit is atomic across crashes. Cut it off after any number of its disk
writes, let recovery be cut off any number of times: the recovery that gets through
leaves all of the group old or all of it new, nothing else outside the log changed,
and an empty header. -/
theorem commit_crash_atomic (lru lru' : Lru) (h : Ready start lh d) (k : Nat)
    (hr : Reboots start (applyWrites ((commitWrites lru start lh d).take k) d.disk) e) :
    ∃ r, (Dev.boot e).recoverFromLog lru' start = some r ∧
      r.disk = applyWrites r.issued e ∧
      ((∀ b ∈ lh, r.disk b = d.disk b) ∨ (∀ b ∈ lh, r.disk b = view d b)) ∧
      (∀ b, Outside start b → b ∉ lh → r.disk b = d.disk b) ∧
      word (r.disk start) 0 = 0 := by
  have hcrash := h.crashState hr
  obtain ⟨r, hr, hd, _, hq⟩ := recover_crashState lru' h.size h.outside hcrash
  refine ⟨r, hr, hd, ?_⟩
  rcases hq with hq | hq
  · exact ⟨.inl fun b hb => hq.home b (h.outside b hb), fun b ho _ => hq.home b ho, hq.head⟩
  · refine ⟨.inr fun b hb => ?_, fun b ho hb => ?_, hq.head⟩
    · exact (hq.home b (h.outside b hb)).trans (if_pos hb)
    · exact (hq.home b ho).trans (if_neg hb)

def twoChanged : Dev where
  disk := fun _ _ => 0
  cache := update (update (fun _ => none) 40 (some fun _ => 1)) 41 (some fun _ => 2)
  refcnt := update (update (fun _ => 0) 40 1) 41 1
  issued := []

theorem twoChanged_ready : Ready 2 [40, 41] twoChanged := by
  refine .of_cached (word_zero 0) (by decide) (by decide) (by decide) ?_ ?_ fun b hb => ?_
  · simp [Outside, logblocks, maxopblocks]
  · simp [twoChanged]
  · simp only [List.mem_cons, List.not_mem_nil, or_false, not_or] at hb
    simp [twoChanged, hb]

/-- The power fails when one of the two blocks is installed, and again after the first write of the
recovery. -/
theorem commit_crash_atomic_twoChanged :
    ∃ e, Reboots 2
        (applyWrites ((commitWrites (fun _ _ => 0) 2 [40, 41] twoChanged).take 4) twoChanged.disk) e ∧
      ∃ r, (Dev.boot e).recoverFromLog (fun _ _ => 0) 2 = some r ∧
        ((∀ b ∈ [40, 41], r.disk b = fun _ => 0) ∨ (r.disk 40 = fun _ => 1) ∧ r.disk 41 = fun _ => 2) ∧
        word (r.disk 2) 0 = 0 := by
  obtain ⟨r1, h1, _⟩ := commit_crash_atomic (fun _ _ => 0) (fun _ _ => 0) twoChanged_ready 4 .first
  have hcrash := Reboots.crash .first (fun _ _ => 0) h1 1
  obtain ⟨r, hr, _, hgroup, _, hhead⟩ :=
    commit_crash_atomic (fun _ _ => 0) (fun _ _ => 0) twoChanged_ready 4 hcrash
  refine ⟨_, hcrash, r, hr, ?_, hhead⟩
  rcases hgroup with hold | hnew
  · exact .inl hold
  · exact .inr ⟨hnew 40 (by simp), hnew 41 (by simp)⟩

end Xv6Filter.Proofs
