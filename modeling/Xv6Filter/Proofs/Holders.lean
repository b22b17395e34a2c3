import Xv6Filter.Kernel.Calls
import Xv6Filter.Proofs.FileOps

namespace Xv6Filter.Proofs
open Lib Function

def procSlots (p : Proc) (f : Fp) : Nat := ∑ fd, if p.ofile fd = some f then 1 else 0

def slotRefs (proc : Slot → Proc) (f : Fp) : Nat := ∑ i, procSlots (proc i) f

def fileUse (ff : File) (e : Ip) : Nat :=
  if (ff.type = .inode ∨ ff.type = .device) ∧ ff.ip = e then 1 else 0

def cwdUse (p : Proc) (e : Ip) : Nat := if p.cwd = some e then 1 else 0

def inodeRefs (proc : Slot → Proc) (file : Fp → File) (e : Ip) : Nat :=
  ∑ f, fileUse (file f) e + ∑ i, cwdUse (proc i) e

/-- Every file counts the descriptors that stand for it, and `fx` references more. -/
structure FileRefs (fx : Fp → Int) (proc : Slot → Proc) (file : Fp → File) : Prop where
  exact : ∀ f, (file f).ref = slotRefs proc f + fx f
  closed : ∀ f, (file f).ref = 0 → (file f).type = .none
  opened : ∀ f, 0 < (file f).ref → (file f).type ≠ .none

def IsEnd (file : Fp → File) (pi : Nat) (writable : Bool) (f : Fp) : Prop :=
  (file f).type = .pipe ∧ (file f).pipe = pi ∧ (file f).writable = writable

/-- A pipe has an end marked open exactly when there is a file for it, and is there as long
as it has one. -/
structure Pipes (file : Fp → File) (pipe : Nat → Option Pipe) : Prop where
  ends : ∀ pi w, (∃ q, pipe pi = some q ∧ (if w then q.writeopen else q.readopen) = true) ↔
    ∃ f, IsEnd file pi w f
  live : ∀ pi q, pipe pi = some q → q.readopen = true ∨ q.writeopen = true
  unique : ∀ pi w f f', IsEnd file pi w f → IsEnd file pi w f' → f = f'

/-- A slot without a process has nothing open, and a process has a current directory. -/
structure Procs (proc : Slot → Proc) : Prop where
  gone : ∀ i, (proc i).state = .unused ∨ (proc i).state = .zombie →
    (∀ fd, (proc i).ofile fd = none) ∧ (proc i).cwd = none
  home : ∀ i, (proc i).state ≠ .unused → (proc i).state ≠ .zombie → ∃ e, (proc i).cwd = some e

/-- Every inode entry counts the files and directories that are it, and no directory is open
for writing. -/
structure InodeRefs (proc : Slot → Proc) (file : Fp → File) (fs : Fs) : Prop where
  settled : Settled fs
  exact : ∀ e, (fs.inode e).ref = inodeRefs proc file e
  plain : ∀ f, (file f).type = .inode → (file f).writable = true →
    (fs.dinode (fs.inode (file f).ip).inum).type ≠ tDir

/-- The tables of the kernel agree, up to the file references `fx` that a running call has. -/
structure Coherent (fx : Fp → Int) (k : Kernel) : Prop where
  files : FileRefs fx k.proc k.file
  pipes : Pipes k.file k.pipe
  procs : Procs k.proc
  inodes : InodeRefs k.proc k.file k.fs

def oneMore (fx : Fp → Int) (f : Fp) : Fp → Int := fun g => fx g + if g = f then 1 else 0
def oneLess (fx : Fp → Int) (f : Fp) : Fp → Int := fun g => fx g - if g = f then 1 else 0

theorem oneLess_oneMore (fx : Fp → Int) (f : Fp) : oneLess (oneMore fx f) f = fx := by
  funext g
  simp [oneLess, oneMore]

theorem oneMore_oneLess (fx : Fp → Int) (f : Fp) : oneMore (oneLess fx f) f = fx := by
  funext g
  simp [oneLess, oneMore]

section Counting

variable {proc proc' : Slot → Proc} {file file' : Fp → File}

theorem slotRefs_congr (h : ∀ i, (proc' i).ofile = (proc i).ofile) : slotRefs proc' = slotRefs proc := by
  funext f
  unfold slotRefs procSlots
  simp only [h]

theorem inodeRefs_congr (hc : ∀ i, (proc' i).cwd = (proc i).cwd)
    (ht : ∀ f, (file' f).type = (file f).type) (hi : ∀ f, (file' f).ip = (file f).ip) :
    inodeRefs proc' file' = inodeRefs proc file := by
  funext e
  unfold inodeRefs fileUse cwdUse
  simp only [hc, ht, hi]

theorem slotRefs_update (proc : Slot → Proc) (i : Slot) (p : Proc) (f : Fp) :
    slotRefs (update proc i p) f + procSlots (proc i) f = slotRefs proc f + procSlots p f :=
  sum_update (fun _ p => procSlots p f) proc i p

theorem procSlots_update (p : Proc) (fd : Fin nofile) (v : Option Fp) (f : Fp) :
    procSlots { p with ofile := update p.ofile fd v } f + (if p.ofile fd = some f then 1 else 0) =
      procSlots p f + if v = some f then 1 else 0 :=
  sum_update (fun _ x => if x = some f then 1 else 0) p.ofile fd v

theorem fileUse_update (file : Fp → File) (f : Fp) (ff : File) (e : Ip) :
    ∑ g, fileUse (update file f ff g) e + fileUse (file f) e =
      ∑ g, fileUse (file g) e + fileUse ff e :=
  sum_update (fun _ ff => fileUse ff e) file f ff

theorem cwdUse_update (proc : Slot → Proc) (i : Slot) (p : Proc) (e : Ip) :
    ∑ j, cwdUse (update proc i p j) e + cwdUse (proc i) e =
      ∑ j, cwdUse (proc j) e + cwdUse p e :=
  sum_update (fun _ p => cwdUse p e) proc i p

theorem fileUse_pos (h : (file f).type = .inode ∨ (file f).type = .device) :
    0 < ∑ g, fileUse (file g) (file f).ip :=
  Finset.sum_pos' (fun _ _ => Nat.zero_le _) ⟨f, Finset.mem_univ f, by simp [fileUse, h]⟩

theorem cwdUse_pos (h : (proc i).cwd = some e) : 0 < ∑ j, cwdUse (proc j) e :=
  Finset.sum_pos' (fun _ _ => Nat.zero_le _) ⟨i, Finset.mem_univ i, by simp [cwdUse, h]⟩

end Counting

namespace FileRefs

variable {proc proc' : Slot → Proc} {file : Fp → File} {fx : Fp → Int}

theorem congr (h : FileRefs fx proc file) (ho : ∀ i, (proc' i).ofile = (proc i).ofile) :
    FileRefs fx proc' file := by
  refine ⟨?_, h.closed, h.opened⟩
  rw [slotRefs_congr ho]
  exact h.exact

/-- A change to one file and to the references beside the descriptors. -/
theorem setFile (h : FileRefs fx proc file) {ff : File}
    (hx : ∀ g, fx' g = fx g + if g = f then ff.ref - (file f).ref else 0)
    (hc : ff.ref = 0 → ff.type = .none) (ho : 0 < ff.ref → ff.type ≠ .none) :
    FileRefs fx' proc (update file f ff) := by
  refine ⟨?_, ?_, ?_⟩ <;> intro g <;> by_cases hg : g = f
  · subst hg
    have h1 := h.exact g
    have h2 := hx g
    simp only [update_self, ↓reduceIte] at h2 ⊢
    omega
  · rw [update_of_ne hg, hx g, if_neg hg, add_zero]
    exact h.exact g
  · subst hg
    simpa using hc
  · simpa [hg] using h.closed g
  · subst hg
    simpa using ho
  · simpa [hg] using h.opened g

end FileRefs

def leftOpen (q : Pipe) : Option Pipe := if q.readopen = false ∧ q.writeopen = false then none else some q

namespace Pipes

variable {file file' : Fp → File} {pipe : Nat → Option Pipe}

theorem congr (h : Pipes file pipe) (he : ∀ pi w f, IsEnd file' pi w f ↔ IsEnd file pi w f) :
    Pipes file' pipe := by
  refine ⟨?_, h.live, ?_⟩
  · intro pi w
    simp only [he, h.ends]
  · intro pi w f f'
    rw [he, he]
    exact h.unique pi w f f'

/-- A change to a file that keeps it the pipe end that it is, or no pipe end. -/
theorem setFile (h : Pipes file pipe) {ff : File}
    (hff : ∀ pi w, (ff.type = .pipe ∧ ff.pipe = pi ∧ ff.writable = w) ↔ IsEnd file pi w f) :
    Pipes (update file f ff) pipe := by
  apply h.congr
  intro pi w g
  by_cases hg : g = f
  · subst hg
    unfold IsEnd
    rw [update_self]
    exact hff pi w
  · unfold IsEnd
    rw [update_of_ne hg]

/-- The ends of the pipes are right when one has been closed. -/
theorem close (h : Pipes file pipe) (hend : IsEnd file pi w f) {ff : File} (hff : ff.type = .none)
    (hq : pipe pi = some q) {q' : Pipe}
    (hq' : q' = if w then { q with writeopen := false } else { q with readopen := false }) :
    Pipes (update file f ff) (update pipe pi (leftOpen q')) := by
  have hne : ∀ pj v g, IsEnd (update file f ff) pj v g ↔ IsEnd file pj v g ∧ g ≠ f := by
    intro pj v g
    by_cases hg : g = f
    · subst hg
      simp [IsEnd, hff]
    · simp [IsEnd, hg]
  have hflag : ∀ v, (if v then q'.writeopen else q'.readopen) =
      ((if v then q.writeopen else q.readopen) && decide (v ≠ w)) := by
    intro v
    cases v <;> cases w <;> simp [hq']
  refine ⟨?_, ?_, ?_⟩
  · intro pj v
    simp only [hne]
    by_cases hpj : pj = pi
    · subst hpj
      rw [update_self]
      have hopen := h.ends pj v
      simp only [hq, Option.some.injEq, exists_eq_left'] at hopen
      have hkeep : (∃ q'', leftOpen q' = some q'' ∧
          (if v then q''.writeopen else q''.readopen) = true) ↔
          (if v then q'.writeopen else q'.readopen) = true := by
        unfold leftOpen
        split
        · rename_i hboth
          cases v <;> simp [hboth.1, hboth.2]
        · simp
      rw [hkeep, hflag, Bool.and_eq_true, hopen, decide_eq_true_eq]
      constructor
      · rintro ⟨⟨g, hg⟩, hv⟩
        refine ⟨g, hg, ?_⟩
        rintro rfl
        exact hv (hg.2.2.symm.trans hend.2.2)
      · rintro ⟨g, hg, hgf⟩
        refine ⟨⟨g, hg⟩, ?_⟩
        rintro rfl
        exact hgf (h.unique pj v g f hg hend)
    · rw [update_of_ne hpj, h.ends]
      constructor
      · rintro ⟨g, hg⟩
        refine ⟨g, hg, ?_⟩
        rintro rfl
        exact hpj (hg.2.1.symm.trans hend.2.1)
      · rintro ⟨g, hg, -⟩
        exact ⟨g, hg⟩
  · intro pj q''
    by_cases hpj : pj = pi
    · subst hpj
      rw [update_self]
      unfold leftOpen
      split
      · simp
      · rename_i hboth
        rintro ⟨⟩
        by_contra hno
        rw [not_or, Bool.not_eq_true, Bool.not_eq_true] at hno
        exact hboth hno
    · rw [update_of_ne hpj]
      exact h.live pj q''
  · intro pj v g g' hg hg'
    exact h.unique pj v g g' ((hne pj v g).mp hg).1 ((hne pj v g').mp hg').1

end Pipes

structure Calm (k k' : Kernel) : Prop where
  ofile : ∀ i, (k'.proc i).ofile = (k.proc i).ofile
  cwd : ∀ i, (k'.proc i).cwd = (k.proc i).cwd
  unused : ∀ i, (k'.proc i).state = .unused ↔ (k.proc i).state = .unused
  zombie : ∀ i, (k'.proc i).state = .zombie ↔ (k.proc i).state = .zombie

namespace Calm

variable {k k1 k' : Kernel}

theorem of_proc (h : k'.proc = k.proc) : Calm k k' :=
  ⟨by simp [h], by simp [h], by simp [h], by simp [h]⟩

theorem trans (h : Calm k k1) (h' : Calm k1 k') : Calm k k' :=
  ⟨fun i => (h'.ofile i).trans (h.ofile i), fun i => (h'.cwd i).trans (h.cwd i),
    fun i => (h'.unused i).trans (h.unused i), fun i => (h'.zombie i).trans (h.zombie i)⟩

theorem wakeup (k : Kernel) (i : Slot) (chan : Chan) : Calm k (k.wakeup i chan) := by
  refine ⟨?_, ?_, ?_, ?_⟩ <;> intro j <;> unfold Kernel.wakeup <;> dsimp only <;> split <;>
    rename_i hj <;> simp [hj]

theorem of_wakeup (h : k1.proc = k.proc) (i : Slot) (chan : Chan) : Calm k (k1.wakeup i chan) :=
  (of_proc h).trans (wakeup k1 i chan)

theorem procs (h : Calm k k') (hp : Procs k.proc) : Procs k'.proc := by
  refine ⟨?_, ?_⟩
  · intro i
    rw [h.unused, h.zombie, h.ofile, h.cwd]
    exact hp.gone i
  · intro i
    rw [ne_eq, ne_eq, h.unused, h.zombie, h.cwd]
    exact hp.home i

end Calm

/-- `pipeclose` on a pipe that is there; the wakeup can as well come last. -/
theorem pipeclose_eq {k : Kernel} (i : Slot) (hq : k.pipe pi = some q) (w : Bool) {q' : Pipe}
    (hq' : q' = if w then { q with writeopen := false } else { q with readopen := false }) :
    k.pipeclose i pi w = Kernel.wakeup { k with pipe := update k.pipe pi (leftOpen q') } i
      (if w then .nread pi else .nwrite pi) := by
  subst hq'
  unfold Kernel.pipeclose
  rw [hq]
  rfl

namespace InodeRefs

variable {proc proc' : Slot → Proc} {file file' : Fp → File} {fs fs0 fs' : Fs}

section

variable (h : InodeRefs proc file fs)

include h

theorem congr (hc : ∀ i, (proc' i).cwd = (proc i).cwd)
    (ht : ∀ f, (file' f).type = (file f).type) (hi : ∀ f, (file' f).ip = (file f).ip)
    (hw : ∀ f, (file' f).writable = (file f).writable) : InodeRefs proc' file' fs := by
  refine ⟨h.settled, ?_, ?_⟩
  · rw [inodeRefs_congr hc ht hi]
    exact h.exact
  · intro f
    rw [ht, hi, hw]
    exact h.plain f

theorem setFile {ff : File} (hu : ∀ e, fileUse ff e = fileUse (file f) e)
    (hp : ff.type = .inode → ff.writable = true → (fs.dinode (fs.inode ff.ip).inum).type ≠ tDir) :
    InodeRefs proc (update file f ff) fs := by
  refine ⟨h.settled, ?_, ?_⟩
  · intro e
    have h1 := h.exact e
    have h2 := fileUse_update file f ff e
    have h3 := hu e
    unfold inodeRefs at h1 ⊢
    omega
  · intro g
    by_cases hg : g = f
    · subst hg
      simpa using hp
    · simpa [hg] using h.plain g

theorem file_pos (hf : (file f).type = .inode ∨ (file f).type = .device) : 0 < (fs.inode (file f).ip).ref := by
  have h1 := h.exact (file f).ip
  have h2 := fileUse_pos hf
  unfold inodeRefs at h1
  omega

theorem cwd_pos (hc : (proc i).cwd = some e) : 0 < (fs.inode e).ref := by
  have h1 := h.exact e
  have h2 := cwdUse_pos hc
  unfold inodeRefs at h1
  omega

end

theorem of_busy (hb : Busy fs0 hs fs') (hread : ∀ t ∈ hs, t.read = true ∨ 0 < (fs0.inode t.ip).ref)
    (hexact : ∀ e, (fs0.inode e).ref + (hs.countP fun t => decide (t.ip = e) : Nat) =
      inodeRefs proc file e)
    (hplain : ∀ f, (file f).type = .inode → (file f).writable = true →
      (0 < (fs0.inode (file f).ip).ref ∧ (fs0.dinode (fs0.inode (file f).ip).inum).type ≠ tDir) ∨
        (fs'.dinode (fs'.inode (file f).ip).inum).type ≠ tDir) : InodeRefs proc file fs' := by
  refine ⟨hb.settled hread, ?_, ?_⟩
  · intro e
    rw [hb.refs e, hexact e]
  · intro f ht hw
    rcases hplain f ht hw with ⟨hr, hk⟩ | hk
    · rw [hb.inum _ hr, hb.type _ hr]
      exact hk
    · exact hk

section

variable (h : InodeRefs proc file fs)

include h

theorem busy (hb : Busy fs [] fs') : InodeRefs proc file fs' := by
  refine of_busy hb (by simp) (fun e => ?_) fun f ht hw => .inl ⟨h.file_pos (.inl ht), h.plain f ht hw⟩
  rw [h.exact e, List.countP_nil]
  omega

theorem borrow (hb : Busy (lent fs e) [⟨e, n, true⟩] fs')
    (hk : ∀ f, (file f).type = .inode → (file f).writable = true → (file f).ip = e →
      (fs'.dinode n).type ≠ tDir) : InodeRefs proc file fs' := by
  refine of_busy hb (by simp) ?_ ?_
  · intro x
    have := h.exact x
    by_cases hx : x = e
    · subst hx
      simp only [lent, Fs.setInode_inode, update_self, List.countP_singleton, decide_true,
        ↓reduceIte]
      omega
    · have hno : ¬ e = x := Ne.symm hx
      simp only [lent, Fs.setInode_inode, update_of_ne hx, List.countP_singleton, hno, decide_false,
        Bool.false_eq_true, ↓reduceIte]
      omega
  · intro f ht hw
    by_cases he : (file f).ip = e
    · right
      rw [he, hb.inum_eq]
      exact hk f ht hw he
    · left
      have h1 := h.file_pos (.inl ht)
      have h2 := h.plain f ht hw
      simpa [lent, he] using ⟨h1, h2⟩

theorem close (hf : (file f).type = .inode ∨ (file f).type = .device)
    {ff : File} (hff : ff.type = .none) (hb : Busy (lent fs (file f).ip) [] fs') :
    InodeRefs proc (update file f ff) fs' := by
  have hbase : ∀ e, ((lent fs (file f).ip).inode e).ref = inodeRefs proc (update file f ff) e := by
    intro e
    have h1 := h.exact e
    have h2 := fileUse_update file f ff e
    have h3 : fileUse ff e = 0 := by simp [fileUse, hff]
    unfold inodeRefs at h1 ⊢
    unfold lent
    by_cases he : e = (file f).ip
    · have h4 : fileUse (file f) e = 1 := by simp [fileUse, hf, he]
      simp only [he, Fs.setInode_inode, update_self] at h1 h2 h3 h4 ⊢
      omega
    · have h4 : fileUse (file f) e = 0 := by simp [fileUse, Ne.symm he]
      simp only [Fs.setInode_inode, update_of_ne he]
      omega
  refine of_busy hb (by simp) (fun e => by rw [hbase e, List.countP_nil]; omega) ?_
  intro g ht hw
  have hg : g ≠ f := by
    rintro rfl
    rw [update_self, hff] at ht
    cases ht
  have hpos : 0 < ((lent fs (file f).ip).inode (update file f ff g).ip).ref := by
    have := fileUse_pos (f := g) (.inl ht)
    rw [hbase]
    unfold inodeRefs
    omega
  refine .inl ⟨hpos, ?_⟩
  rw [update_of_ne hg] at ht hw ⊢
  have := h.plain g ht hw
  by_cases he : (file g).ip = (file f).ip
  · simpa [lent, he] using he ▸ this
  · simpa [lent, he] using this

theorem opens (hn : (file f).type = .none) {ff : File}
    (hff : ff.type = .inode ∨ ff.type = .device) (hip : ff.ip = ip)
    (hb : Busy fs [⟨ip, n, true⟩] fs')
    (hw : ff.type = .inode → ff.writable = true → (fs'.dinode n).type ≠ tDir) :
    InodeRefs proc (update file f ff) fs' := by
  refine of_busy hb (by simp) ?_ ?_
  · intro e
    have h1 := h.exact e
    have h2 := fileUse_update file f ff e
    have h3 : fileUse (file f) e = 0 := by simp [fileUse, hn]
    have h4 : fileUse ff e = if ip = e then 1 else 0 := by simp [fileUse, hff, hip]
    have h5 : ([⟨ip, n, true⟩] : List Taken).countP (fun t => decide (t.ip = e)) = if ip = e then 1 else 0 := by
      simp [List.countP_singleton]
    unfold inodeRefs at h1 ⊢
    rw [h5]
    omega
  · intro g ht hwr
    by_cases hg : g = f
    · subst hg
      rw [update_self] at ht hwr ⊢
      right
      rw [hip, hb.inum_eq]
      exact hw ht hwr
    · rw [update_of_ne hg] at ht hwr ⊢
      exact .inl ⟨h.file_pos (.inl ht), h.plain g ht hwr⟩

theorem moves (hc : (proc i).cwd = some e) (hb : Busy (lent fs e) hs fs')
    {p : Proc} (hp : ∀ x, cwdUse p x = hs.countP fun t => decide (t.ip = x))
    (hread : ∀ t ∈ hs, t.read = true) : InodeRefs (update proc i p) file fs' := by
  have hcwd : ∀ x, cwdUse (proc i) x = if x = e then 1 else 0 := by
    intro x
    simp [cwdUse, hc, eq_comm]
  refine of_busy hb (fun t ht => .inl (hread t ht)) ?_ ?_
  · intro x
    have h1 := h.exact x
    have h2 := cwdUse_update proc i p x
    have h3 := hcwd x
    have h4 := hp x
    unfold inodeRefs at h1 ⊢
    unfold lent
    by_cases hx : x = e
    · rw [if_pos hx] at h3
      simp only [hx, Fs.setInode_inode, update_self] at h1 h2 h3 h4 ⊢
      omega
    · rw [if_neg hx] at h3
      simp only [Fs.setInode_inode, update_of_ne hx]
      omega
  · intro f ht hw
    have hk := h.plain f ht hw
    left
    by_cases hx : (file f).ip = e
    · have h1 := h.exact e
      have h2 := fileUse_pos (f := f) (.inl ht)
      have h3 := cwdUse_pos hc
      rw [hx] at h2
      unfold inodeRefs at h1
      refine ⟨?_, by simpa [lent, hx] using hx ▸ hk⟩
      simp only [lent, hx, Fs.setInode_inode, update_self]
      omega
    · simpa [lent, hx] using ⟨h.file_pos (.inl ht), hk⟩

end

end InodeRefs

namespace Coherent

variable {k k' : Kernel} {fx : Fp → Int}

theorem calm (h : Coherent fx k) (hc : Calm k k') (hf : k'.file = k.file) (hp : k'.pipe = k.pipe)
    (hfs : k'.fs = k.fs) : Coherent fx k' := by
  refine ⟨?_, ?_, hc.procs h.procs, ?_⟩
  · rw [hf]
    exact h.files.congr hc.ofile
  · rw [hf, hp]
    exact h.pipes
  · rw [hf, hfs]
    exact h.inodes.congr hc.cwd (fun _ => rfl) (fun _ => rfl) fun _ => rfl

theorem woken (h : Coherent fx k) (i : Slot) (chan : Chan) : Coherent fx (k.wakeup i chan) :=
  h.calm (.wakeup k i chan) rfl rfl rfl

/-- `fileclose` takes one reference off the file, and the inode or the pipe end with the last one. -/
theorem fileclose (h : Coherent fx k) (i : Slot) (f : Fp) :
    Post (k.fileclose i f) Plain fun k' => Coherent (oneLess fx f) k' ∧ Calm k k' ∧
      Reaped (tree k.fs) (tree k'.fs) ∧ Remaining k.fs k'.fs ∧ ∃ n, Logs {k.fs.iblock n} 0 k.fs k'.fs := by
  unfold Kernel.fileclose
  dsimp only
  split
  · simp [Post, Plain]
  rename_i hr
  have hopen := h.files.opened f (by omega)
  split
  · rename_i hmore
    refine ⟨⟨?_, ?_, h.procs, ?_⟩, .of_proc rfl, .refl _, .refl _, 0, .refl _ _ _⟩
    · refine h.files.setFile ?_ (fun h0 => ?_) fun _ => hopen
      · intro g
        simp only [oneLess]
        split <;> omega
      · simp only at h0
        omega
    · exact h.pipes.setFile fun pi w => Iff.rfl
    · apply h.inodes.congr (fun _ => rfl) <;> intro g <;> by_cases hg : g = f <;> simp [hg]
  · rename_i hlast
    have hone : (k.file f).ref = 1 := by omega
    have hfiles : FileRefs (oneLess fx f) k.proc (update k.file f
        { k.file f with ref := 0, type := .none }) := by
      refine h.files.setFile ?_ (fun _ => rfl) fun h0 => absurd h0 (by simp)
      intro g
      simp only [oneLess, hone]
      split <;> omega
    split
    · rename_i ht
      exact absurd ht hopen
    · rename_i ht
      have hend : IsEnd k.file (k.file f).pipe (k.file f).writable f := ⟨ht, rfl, rfl⟩
      obtain ⟨q, hq, -⟩ := (h.pipes.ends _ _).mpr ⟨f, hend⟩
      generalize hff : ({ k.file f with ref := 0, type := .none } : File) = ff at hfiles ⊢
      generalize hq' : (if (k.file f).writable then { q with writeopen := false }
        else { q with readopen := false } : Pipe) = q'
      rw [pipeclose_eq (k := k.setFile f ff) i hq (k.file f).writable hq'.symm]
      have hnone : ff.type = .none := by rw [← hff]
      have hmid : Coherent (oneLess fx f) { k.setFile f ff with
          pipe := update k.pipe (k.file f).pipe (leftOpen q') } := by
        refine ⟨hfiles, h.pipes.close hend hnone hq hq'.symm, h.procs, h.inodes.setFile ?_ ?_⟩
        · simp [fileUse, ht, hnone]
        · simp [hnone]
      exact ⟨hmid.woken i _, Calm.of_wakeup (by rfl) i _, .refl _, .refl _, 0, .refl _ _ _⟩
    all_goals
      rename_i ht
      have hty : (k.file f).type = .inode ∨ (k.file f).type = .device := by simp [ht]
      have hpos := h.inodes.file_pos hty
      have hput := ((Busy.begin h.inodes.settled).lend hpos).iput
      simp only [Kernel.setFile]
      split
      · rename_i why hw
        exact hput.of_error hw
      · rename_i fs' hw
        obtain ⟨hb, hd⟩ := hput.of_ok hw
        have hd : SameDisk k.fs fs' ∨ ∃ g, SameDisk k.fs g ∧ Freed (k.fs.inode (k.file f).ip).inum g fs' ∧
            Sole (lent k.fs (k.file f).ip) [] (k.fs.inode (k.file f).ip).inum :=
          hd.imp id fun hf => ⟨k.fs, .refl _, hf⟩
        refine ⟨⟨hfiles, ?_, h.procs, h.inodes.close hty rfl hb⟩, .of_proc rfl, (Reaped.refl _).drop hd,
          hb.remaining_lent, (k.fs.inode (k.file f).ip).inum, (Logs.refl _ 0 _).drop hd⟩
        exact h.pipes.setFile fun pi w => by simp [IsEnd, ht]

end Coherent

end Xv6Filter.Proofs
