import Xv6Filter.Kernel.Loader
import Xv6Filter.Lib.Result

namespace Xv6Filter.Paging
open Lib

structure Loaded (x x' : Task) : Prop where
  kernel : x'.kernel = { x.kernel with fs := x'.fs }
  space : x'.space = x.space

theorem Loaded.refl (x : Task) : Loaded x x := ⟨rfl, rfl⟩

theorem Loaded.trans (h : Loaded x y) (h' : Loaded y z) : Loaded x z := by
  refine ⟨?_, h'.space.trans h.space⟩
  rw [h'.kernel, h.kernel]

theorem Loaded.changed (x : Task) (fs : Fs) (m : Ram) : Loaded x ((x.setFs fs).setRam m) := ⟨rfl, rfl⟩

theorem onFs_ok {x : Kern α} (h : onFs x = .ok a) : x = .ok a := by
  cases x with
  | error e => cases h
  | ok b => cases h; rfl

theorem onRam_ok {x : Checked α} (h : onRam x = .ok a) : x = .ok a := by
  cases x with
  | error e => cases h
  | ok b => cases h; rfl

def ReadsAs (fs : Fs) (ip : Ip) (file : List Byte) : Prop :=
  ∀ off n, fs.readiKernel ip off n = .ok (((readFile file off n).length : Int), readFile file off n, fs)

theorem ReadsAs.onFs {fs : Fs} (hf : ReadsAs fs ip file) (off n : Nat) :
    onFs (fs.readiKernel ip off n) = .ok (((readFile file off n).length : Int), readFile file off n, fs) := by
  rw [hf off n]
  rfl

theorem onRam_bind (x : Checked α) (f : α → Checked β) : onRam (x >>= f) = onRam x >>= fun a => onRam (f a) := by
  cases x <;> rfl

/-- For a file with known contents the page loop of `loadseg` is the one on the pages. -/
theorem loadsegLoop_eq {x : Task} (hf : ReadsAs x.fs ip file) :
    Task.loadsegLoop pt va ip offset sz rounds x i =
      onRam (Ram.loadsegLoop pt va file offset sz rounds x.ram i) >>= fun r => .ok (r.1, x.setRam r.2) := by
  induction rounds generalizing x i with
  | zero => rfl
  | succ rounds ih =>
    unfold Task.loadsegLoop Ram.loadsegLoop
    split
    · rfl
    cases pt.walkaddr (va + i) with
    | none => rfl
    | some f =>
      dsimp only
      rw [hf.onFs, ok_bind]
      simp only [ne_eq, Int.ofNat_inj]
      split
      · rfl
      · exact ih hf

/-- So is the loop over the program headers. -/
theorem loadProgram_eq {x : Task} (hf : ReadsAs x.fs ip file) :
    Task.loadProgram ip left x pt sz off = onRam (x.ram.loadProgram file left pt sz off) >>= fun r =>
      .ok (r.1, r.2.1, x.setRam r.2.2.1, r.2.2.2) := by
  induction left generalizing x pt sz off with
  | zero => rfl
  | succ left ih =>
    unfold Task.loadProgram Ram.loadProgram
    rw [hf.onFs, ok_bind]
    simp only [ne_eq, Int.ofNat_inj]
    split
    · rfl
    split
    · exact ih hf
    split
    · rfl
    split
    · rfl
    split
    · rfl
    rw [onRam_bind, bind_assoc]
    congr 1
    funext r
    obtain ⟨sz1, m, pt1⟩ := r
    dsimp only
    split
    · rfl
    rw [onRam_bind, bind_assoc, Task.loadseg, loadsegLoop_eq (x := (x.setFs x.fs).setRam m) hf, bind_assoc]
    congr 1
    funext r
    obtain ⟨loaded, m'⟩ := r
    cases loaded with
    | true => exact ih hf
    | false => rfl

/-- The page loop of `loadseg` does to the file system what the loop on the file system does. -/
theorem loadsegLoop_views {x x' : Task} {ip : Ip} (h : Task.loadsegLoop pt va ip offset sz rounds x i = .ok (ok, x')) :
    Fs.loadsegLoop ip offset sz rounds i x.fs = .ok (ok, x'.fs) ∧ Loaded x x' := by
  induction rounds generalizing x i with
  | zero => cases h; exact ⟨rfl, .refl _⟩
  | succ rounds ih =>
    unfold Task.loadsegLoop at h
    unfold Fs.loadsegLoop
    split at h
    · rename_i hend
      cases h
      exact ⟨if_pos hend, .refl _⟩
    · rename_i hmore
      simp only [if_neg hmore]
      split at h
      · cases h
      · obtain ⟨⟨r, bs, fs⟩, hread, h⟩ := bind_eq_ok.mp h
        simp only [onFs_ok hread]
        dsimp only at h
        split at h
        · rename_i hshort
          cases h
          exact ⟨if_pos hshort, .changed x fs _⟩
        · rename_i hfull
          obtain ⟨hrun, hl⟩ := ih h
          exact ⟨(if_neg hfull).trans hrun, (Loaded.changed x fs _).trans hl⟩

/-- The loop over the program headers, for a memory that says of each segment what happened here. -/
theorem loadProgram_views {x x' : Task} {ip : Ip} (h : Task.loadProgram ip left x pt sz off = .ok (ok, sz', x', pt'))
    (i : Nat) :
    (∃ grow : Nat → Bool, ∀ mem : ExecMem, (∀ j, i ≤ j → mem.grow j = grow j) →
      Fs.loadProgram mem ip left i off x.fs = .ok (ok, x'.fs)) ∧ Loaded x x' := by
  induction left generalizing x pt sz off i with
  | zero => cases h; exact ⟨⟨fun _ => true, fun _ _ => rfl⟩, .refl _⟩
  | succ left ih =>
    unfold Task.loadProgram at h
    obtain ⟨⟨r, ph, fs⟩, hread, h⟩ := bind_eq_ok.mp h
    have hset : Loaded x (x.setFs fs) := ⟨rfl, rfl⟩
    simp only [Fs.loadProgram, onFs_ok hread]
    dsimp only at h
    split at h
    · rename_i hshort
      cases h
      exact ⟨⟨fun _ => true, fun _ _ => if_pos hshort⟩, hset⟩
    rename_i hfull
    simp only [if_neg hfull]
    split at h
    · rename_i hskip
      obtain ⟨⟨grow, hg⟩, hl⟩ := ih h (i + 1)
      refine ⟨⟨grow, fun mem hm => ?_⟩, hset.trans hl⟩
      rw [if_pos hskip]
      exact hg mem fun j hj => hm j (by omega)
    rename_i hload
    simp only [if_neg hload]
    split at h
    · rename_i hmemsz
      cases h
      exact ⟨⟨fun _ => true, fun _ _ => if_pos (.inl hmemsz)⟩, hset⟩
    rename_i hmemsz
    split at h
    · rename_i hwrap
      cases h
      exact ⟨⟨fun _ => true, fun _ _ => if_pos (.inr (.inl hwrap))⟩, hset⟩
    rename_i hwrap
    split at h
    · rename_i hal
      cases h
      exact ⟨⟨fun _ => true, fun _ _ => if_pos (.inr (.inr (.inl hal)))⟩, hset⟩
    rename_i hal
    obtain ⟨⟨sz1, m, pt1⟩, -, h⟩ := bind_eq_ok.mp h
    dsimp only at h
    split at h
    · cases h
      exact ⟨⟨fun _ => false, fun mem hm => if_pos (.inr (.inr (.inr (hm i (Nat.le_refl i)))))⟩, .changed x fs m⟩
    obtain ⟨⟨loaded, x1⟩, hseg, h⟩ := bind_eq_ok.mp h
    obtain ⟨hsegfs, hl1⟩ := loadsegLoop_views hseg
    have hx1 := (Loaded.changed x fs m).trans hl1
    have hsegfs : Fs.loadseg fs ip (field ph 8 8 % 2 ^ 32) (field ph 32 8 % 2 ^ 32) = .ok (loaded, x1.fs) := hsegfs
    have hgo (mem : ExecMem) (hm : mem.grow i = true) : ¬ (field ph 40 8 < field ph 32 8 ∨
        (field ph 16 8 + field ph 40 8) % 2 ^ 64 < field ph 16 8 ∨ field ph 16 8 % pgsize ≠ 0 ∨ mem.grow i = false) := by
      rw [hm]
      simp only [hmemsz, hwrap, hal, or_self, Bool.true_eq_false, not_false_iff]
    rw [hsegfs]
    cases loaded with
    | false =>
      cases h
      exact ⟨⟨fun _ => true, fun mem hm => if_neg (hgo mem (hm i (Nat.le_refl i)))⟩, hx1⟩
    | true =>
      obtain ⟨⟨grow, hg⟩, hl⟩ := ih h (i + 1)
      refine ⟨⟨Function.update grow i true, fun mem hm => ?_⟩, hx1.trans hl⟩
      rw [if_neg (hgo mem ((hm i (Nat.le_refl i)).trans (Function.update_self ..)))]
      refine hg mem fun j hj => ?_
      rw [hm j (by omega), Function.update_of_ne (by omega)]

theorem bad_views {x x' : Task} {ip : Ip} (h : x.bad ip made = .ok x') :
    x.fs.iunlockput ip = .ok x'.fs ∧ Loaded x x' := by
  obtain ⟨m, -, h⟩ := bind_eq_ok.mp h
  obtain ⟨fs, hput, h⟩ := bind_eq_ok.mp h
  cases h
  exact ⟨onFs_ok hput, ⟨rfl, rfl⟩⟩

theorem bad_eq (x : Task) (ip : Ip) (made : Option (Table × Nat)) :
    (x.bad ip made >>= fun x => .ok ((none : Option α), x)) =
      made.elim (.ok x.ram) (fun r => onRam (x.ram.procFreepagetable r.1 r.2)) >>= fun m =>
        onFs (x.fs.iunlockput ip) >>= fun fs => .ok (none, ((x.setRam m).setFs fs).endOp) := by
  simp only [Task.bad, bind_assoc]
  cases made <;> rfl

theorem execPath_found {fs fs1 fs2 fs3 fs4 : Fs} {cwd : Option Ip} (hnamei : fs.namei cwd path = .ok (some ip, fs1))
    (hlock : fs1.ilock ip = .ok fs2) (hload : fs2.loadElf ip mem = .ok (entry, fs3))
    (hput : fs3.iunlockput ip = .ok fs4) : fs.execPath cwd path mem = .ok (entry, fs4) := by
  unfold Fs.execPath
  rw [hnamei, ok_bind]
  dsimp only
  rw [hlock, ok_bind, hload, ok_bind]
  dsimp only
  rw [hput]
  rfl

def FileText (x : Task) (i : Slot) (path : List Byte) (file : Option (List Byte)) : Prop :=
  ∀ found fs1, x.fs.namei (x.kernel.proc i).cwd path = .ok (found, fs1) →
    found.elim (file = none) fun ip => ∃ bs, file = some bs ∧ ∀ fs2, fs1.ilock ip = .ok fs2 → ReadsAs fs2 ip bs

/-- For a file with known contents the transaction of `kexec` is the loading on the pages, and `iunlockput`. -/
theorem loadImage_eq {x : Task} (hnamei : x.fs.namei (x.kernel.proc i).cwd path = .ok (some ip, fs1))
    (hlock : fs1.ilock ip = .ok fs2) (hf : ReadsAs fs2 ip file) :
    x.loadImage i tf path = onRam (x.ram.loadImage tf file) >>= fun r =>
      onFs (fs2.iunlockput ip) >>= fun fs => .ok (r.1, (x.setFs fs).setRam r.2) := by
  have hnamei : onFs (x.beginOp.fs.namei (x.beginOp.kernel.proc i).cwd path) = .ok (some ip, fs1) := congrArg onFs hnamei
  have hlock : onFs ((x.beginOp.setFs fs1).fs.ilock ip) = .ok fs2 := congrArg onFs hlock
  unfold Task.loadImage Ram.loadImage
  dsimp only
  rw [hnamei, ok_bind]
  dsimp only
  rw [hlock, ok_bind, hf.onFs, ok_bind]
  simp only [ne_eq, Int.ofNat_inj]
  split
  · exact bad_eq ..
  rw [onRam_bind, bind_assoc]
  congr 1
  funext r
  obtain ⟨made, m⟩ := r
  cases made with
  | none => exact bad_eq ..
  | some pt =>
    dsimp only
    have hf : ReadsAs (((x.beginOp.setFs fs1).setFs fs2).setRam m).fs ip file := hf
    rw [loadProgram_eq hf, bind_assoc, onRam_bind, bind_assoc]
    congr 1
    funext r
    obtain ⟨loaded, sz, m, pt⟩ := r
    cases loaded with
    | false =>
      rw [ok_bind]
      dsimp only
      rw [if_pos rfl, if_pos rfl, bad_eq, onRam_bind, bind_assoc]
      rfl
    | true => rfl

/-- The transaction of `kexec` on the file system, for a memory that behaves as it did here. -/
theorem loadImage_views {x x' : Task} (h : x.loadImage i tf path = .ok (image, x')) :
    (∃ pagetable grow, ∀ stack, x.fs.execPath (x.kernel.proc i).cwd path ⟨pagetable, grow, stack⟩ =
      .ok (image.map (·.1), x'.fs)) ∧ Loaded x x' := by
  obtain ⟨⟨found, fs1⟩, hnamei, h⟩ := bind_eq_ok.mp h
  have hnamei : x.fs.namei (x.kernel.proc i).cwd path = .ok (found, fs1) := onFs_ok hnamei
  dsimp only at h
  cases found with
  | none =>
    cases h
    refine ⟨⟨true, fun _ => true, fun stack => ?_⟩, ⟨rfl, rfl⟩⟩
    unfold Fs.execPath
    rw [hnamei]
    rfl
  | some ip =>
    obtain ⟨fs2, hlock, h⟩ := bind_eq_ok.mp h
    have hlock : fs1.ilock ip = .ok fs2 := onFs_ok hlock
    obtain ⟨⟨r, elf, fs3⟩, hread, h⟩ := bind_eq_ok.mp h
    have hread := onFs_ok hread
    have hset : Loaded x ((x.beginOp.setFs fs1).setFs fs3) := ⟨rfl, rfl⟩
    have hmem (m : Ram) : Loaded x (((x.beginOp.setFs fs1).setFs fs3).setRam m) := ⟨rfl, rfl⟩
    dsimp only at h
    split at h
    · rename_i hno
      obtain ⟨x1, hbad, h⟩ := bind_eq_ok.mp h
      cases h
      obtain ⟨hput, hl⟩ := bad_views hbad
      refine ⟨⟨true, fun _ => true, fun stack => execPath_found hnamei hlock ?_ hput⟩, hset.trans hl⟩
      unfold Fs.loadElf
      rw [hread]
      exact if_pos (hno.imp_right .inl)
    rename_i helf
    obtain ⟨⟨made, m⟩, -, h⟩ := bind_eq_ok.mp h
    dsimp only at h
    cases made with
    | none =>
      obtain ⟨x1, hbad, h⟩ := bind_eq_ok.mp h
      cases h
      obtain ⟨hput, hl⟩ := bad_views hbad
      refine ⟨⟨false, fun _ => true, fun stack => execPath_found hnamei hlock ?_ hput⟩, (hmem m).trans hl⟩
      unfold Fs.loadElf
      rw [hread]
      exact if_pos (.inr (.inr rfl))
    | some pt =>
      obtain ⟨⟨loaded, sz, x3, pt3⟩, hprog, h⟩ := bind_eq_ok.mp h
      obtain ⟨⟨grow, hg⟩, hl3⟩ := loadProgram_views hprog 0
      have hprogram (stack : Bool) : Fs.loadProgram ⟨true, grow, stack⟩ ip (field elf 56 2) 0
          (field elf 32 8 % 2 ^ 32) fs3 = .ok (loaded, x3.fs) := hg _ fun _ _ => rfl
      have hload (stack : Bool) : fs2.loadElf ip ⟨true, grow, stack⟩ =
          .ok (if loaded then some (field elf 24 8) else none, x3.fs) := by
        unfold Fs.loadElf
        rw [hread]
        dsimp only
        rw [if_neg (by simpa using helf), hprogram]
      cases loaded with
      | false =>
        obtain ⟨x4, hbad, h⟩ := bind_eq_ok.mp h
        cases h
        obtain ⟨hput, hl⟩ := bad_views hbad
        exact ⟨⟨true, grow, fun stack => execPath_found hnamei hlock (hload stack) hput⟩,
          ((hmem m).trans hl3).trans hl⟩
      | true =>
        obtain ⟨fs4, hput, h⟩ := bind_eq_ok.mp h
        cases h
        have hend : Loaded x3 (x3.setFs fs4).endOp := ⟨rfl, rfl⟩
        exact ⟨⟨true, grow, fun stack => execPath_found hnamei hlock (hload stack) (onFs_ok hput)⟩,
          ((hmem m).trans hl3).trans hend⟩

/-- `kexec` on the pages of memory does to the process table and the file system what `kexec` does
for the answers that memory gave; the table has the page table and the size of the process in `space`. -/
theorem kexec_kernel {x x' : Task} (h : x.kexec i tf path argv = .ok (argc, x')) :
    ∃ mem image, x.kernel.kexec i path mem image = .ok (argc.elim minusOne (BitVec.ofNat 64), x'.kernel) := by
  obtain ⟨⟨image, x1⟩, hload, h⟩ := bind_eq_ok.mp h
  obtain ⟨⟨pagetable, grow, hpath⟩, ⟨hk, -⟩⟩ := loadImage_views hload
  have hpath (stack : Bool) : x.kernel.fs.execPath (x.kernel.proc i).cwd path ⟨pagetable, grow, stack⟩ =
      .ok (image.map (·.1), x1.fs) := hpath stack
  let p := x.kernel.proc i
  cases image with
  | none =>
    cases h
    refine ⟨⟨pagetable, grow, true⟩, ⟨p.sz, p.pagetable, 0, 0⟩, ?_⟩
    simp only [Kernel.kexec, hpath, Option.map_none, hk]
    rfl
  | some image =>
    obtain ⟨entry, sz, pt⟩ := image
    obtain ⟨⟨started, m, space⟩, -, h⟩ := bind_eq_ok.mp h
    cases started with
    | none =>
      cases h
      refine ⟨⟨pagetable, grow, false⟩, ⟨p.sz, p.pagetable, 0, 0⟩, ?_⟩
      simp only [Kernel.kexec, hpath, Option.map_some, if_true, hk]
      rfl
    | some r =>
      cases h
      refine ⟨⟨pagetable, grow, true⟩, ⟨p.sz, p.pagetable, BitVec.ofNat 64 r.2, BitVec.ofNat 64 r.1⟩, ?_⟩
      simp only [Kernel.kexec, hpath, Option.map_some, Bool.true_eq_false, if_false]
      rw [hk]
      rfl

/-- `kexec` of a file with known contents does to the pages what `kexec` on the pages does. -/
theorem kexec_ram {x x' : Task} (h : x.kexec i tf path argv = .ok (argc, x')) (hf : FileText x i path file) :
    x.ram.kexec x.space tf file argv = .ok (argc, x'.ram, x'.space) := by
  obtain ⟨⟨image, x1⟩, hload, h⟩ := bind_eq_ok.mp h
  obtain ⟨⟨found, fs1⟩, hnamei, hload'⟩ := bind_eq_ok.mp hload
  have hnamei : x.fs.namei (x.kernel.proc i).cwd path = .ok (found, fs1) := onFs_ok hnamei
  cases found with
  | none =>
    cases hload'
    cases h
    obtain rfl : file = none := hf _ _ hnamei
    rfl
  | some ip =>
    obtain ⟨fs2, hlock, -⟩ := bind_eq_ok.mp hload'
    have hlock : fs1.ilock ip = .ok fs2 := onFs_ok hlock
    obtain ⟨bs, rfl, hr⟩ := hf _ _ hnamei
    rw [loadImage_eq hnamei hlock (hr fs2 hlock)] at hload
    obtain ⟨⟨made, m⟩, hram, hload⟩ := bind_eq_ok.mp hload
    obtain ⟨fs, -, hload⟩ := bind_eq_ok.mp hload
    cases hload
    unfold Ram.kexec
    dsimp only
    rw [onRam_ok hram, ok_bind]
    cases made with
    | none =>
      cases h
      rfl
    | some image =>
      obtain ⟨⟨started, m', space⟩, hstart, h⟩ := bind_eq_ok.mp h
      have hstart : m.startImage x.space image.2.1 image.2.2 argv = .ok (started, m', space) := onRam_ok hstart
      dsimp only
      rw [hstart]
      cases started with
      | none =>
        cases h
        rfl
      | some r =>
        cases h
        rfl

end Xv6Filter.Paging
