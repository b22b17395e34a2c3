import Xv6Filter.Proofs.ExecMemory

namespace Xv6Filter.Paging
open Lib Function

theorem Sound.mono (h : Sound m pt) (hfirst : m'.first = m.first) (hle : ∀ w, held w m' pt' ≤ held w m pt) :
    Sound m' pt' := by
  constructor
  · have hin := h.inside
    have hless := hle (stray m.first)
    rw [hfirst]
    omega
  · intro f
    exact Nat.le_trans (hle (at_ f)) (h.single f)

/-- Other pages may come and go: what holds frames elsewhere is none of the process's business. -/
theorem Fit.of_ram (hf : Fit m p tf) (hfirst : m'.first = m.first) (htramp : m'.trampoline = m.trampoline)
    (hle : ∀ w, m'.weight w ≤ m.weight w) : Fit m' p tf := by
  refine ⟨hf.sound.mono hfirst fun w => Nat.add_le_add_right (hle w) _, ?_, hf.size⟩
  rw [htramp]
  exact hf.shape

theorem Built.replace {m : Ram} {p : Space} (hb : Built m sz tf m' pt) (hf : Fit m p tf) :
    Runs (m'.procFreepagetable p.pagetable p.sz) fun m'' =>
      Resized m p tf m'' ⟨pt, sz⟩ ∧ ∀ f, f ∉ m''.free → m''.data f = m'.data f := by
  have hless (w) : m'.weight w ≤ m.weight w := by
    have := hb.held w
    simp only [Paging.held] at this
    omega
  have hold := hf.of_ram hb.first hb.trampoline hless
  refine (procFreepagetable_runs hold.sound hf.size hold.shape).imp ?_
  rintro m'' ⟨hgave, hw⟩
  have hheld (w) : Paging.held w m'' pt = Paging.held w m p.pagetable := by
    have := hb.held w
    have := hw w
    simp only [Paging.held] at *
    omega
  have hfirst := hgave.first.trans hb.first
  have htramp := hgave.trampoline.trans hb.trampoline
  refine ⟨⟨hfirst, htramp, hheld, hf.sound.congr hfirst hheld, ?_, hb.size⟩, hgave.data⟩
  rw [htramp]
  exact hb.shape

/-- The arguments as a program with memory `s` of size `sz` finds them: the array of the addresses
`as` at `sp`, and the strings above it, in the stack page on top of the guard page. -/
structure ArgumentsAt (s : Seen) (sz : Nat) (argv : List (List Byte)) (as : List Nat) (sp : Nat) : Prop where
  count : as.length = argv.length
  array : s.load ((argv.length + 1) * 8) sp = ((as ++ [0]).flatMap Ram.word, true)
  strings : ∀ (i : Nat) arg a, argv[i]? = some arg → as[i]? = some a → s.load (arg.length + 1) a = (arg ++ [0], true)
  aligned : sp % 16 = 0
  base : (userstack + 1) * pgsize ≤ sz ∧ sz - userstack * pgsize ≤ sp
  inside : sp + (argv.length + 1) * 8 ≤ sz
  above : ∀ (i : Nat) arg a, argv[i]? = some arg → as[i]? = some a →
    sp + (argv.length + 1) * 8 ≤ a ∧ a + (arg.length + 1) ≤ sz
  apart : ∀ (i j : Nat) arg a b, i < j → as[i]? = some a → as[j]? = some b → argv[j]? = some arg → b + (arg.length + 1) ≤ a
  guard : s (vpn (sz - (userstack + 1) * pgsize)) = none

theorem Seen.load_within {s : Seen} (hs : s (vpn base) = some (perm, d)) (hal : base % pgsize = 0) (hlow : base ≤ a)
    (hhigh : a + n ≤ base + pgsize) : s.load n a = (slice d (a - base) n, true) := by
  have hpage : a = vpn base * pgsize + (a - base) := by
    have := split_address base
    omega
  have hload := Seen.load_page hs n 0 (o := a - base) (by omega)
  rw [← hpage, Nat.add_zero, Seen.load, List.append_nil] at hload
  exact hload

/-- The arguments that `kexec` pushed are still there when the old memory has been freed. -/
theorem Stacked.argumentsAt {m m' : Ram} (h : Stacked m0 base tf f m pt) (hfit : Fit m' ⟨pt, base + pgsize⟩ tf)
    (hdata : ∀ g, g ∉ m'.free → m'.data g = m.data g) (hp : ArgsPlaced m f base argv as sp) :
    ArgumentsAt (m'.seen ⟨pt, base + pgsize⟩) (base + pgsize) argv as sp := by
  obtain ⟨sp', hstrings, hsp⟩ := hp.strings
  obtain ⟨hcount, -, -, hal⟩ := hstrings.space
  have hlow := hp.low
  have haligned := h.aligned
  have hroom := h.room
  have hsize := h.size
  have hround : (argv.length + 1) * 8 ≤ room16 ((argv.length + 1) * 8) ∧ room16 ((argv.length + 1) * 8) % 16 = 0 := by
    simp only [room16]
    omega
  have hal := hal (by simp only [pgsize] at *; omega)
  have hdown : sp' ≤ base + pgsize := (hstrings.kept (.refl f base sp' m) (Nat.le_refl _)).2
  obtain ⟨l, hl, rfl, hu, -⟩ := h.stack
  obtain ⟨g, hg, hgu⟩ := h.guard
  have hbase : vpn base * pgsize = base := by
    have := split_address base
    omega
  have hguard : vpn (base - pgsize) * pgsize = base - pgsize := by
    have hsplit := split_address (base - pgsize)
    have hmod : (base - pgsize) % pgsize = 0 := by
      simp only [pgsize] at haligned hroom ⊢
      omega
    rw [hmod, Nat.add_zero] at hsplit
    exact hsplit.symm
  have hmax : base < maxva := by
    have : trapframeVa < maxva := by decide
    omega
  have hv : vpn base < trapframeVpn := by
    simp only [vpn, trapframeVpn, trapframeVa, trampolineVa, maxva, pgsize] at hsize ⊢
    omega
  have hseen : m'.seen ⟨pt, base + pgsize⟩ (vpn base) = some (l.perm, m.data l.frame) := by
    rw [Ram.seen_leaf (by rw [hbase]; exact hmax) (by rw [hbase]; exact hl), if_pos hu,
      hdata _ (hfit.sound.leaf_not_free hl hv)]
  have hread (a n : Nat) (ha : base ≤ a) (hn : a + n ≤ base + pgsize) :
      Seen.load (m'.seen ⟨pt, base + pgsize⟩) n a = (m.read l.frame (a - base) n, true) :=
    Seen.load_within hseen haligned ha hn
  have htwo : (userstack + 1) * pgsize = pgsize + pgsize := by decide
  have hone : userstack * pgsize = pgsize := by decide
  refine ⟨hcount, ?_, ?_, by omega, by omega, by omega, ?_, ?_, ?_⟩
  · rw [hread sp _ hlow (by omega), hp.array]
  · intro i arg a harg ha
    obtain ⟨ha', hup, -, hr⟩ := hstrings.get harg ha
    rw [hread a _ ha' hup, hr]
  · intro i arg a harg ha
    obtain ⟨-, hup, hab, -⟩ := hstrings.get harg ha
    exact ⟨by omega, hup⟩
  · intro i j arg a b hij ha hb harg
    exact hstrings.descends hij ha hb harg
  · have hdiff : base + pgsize - (userstack + 1) * pgsize = base - pgsize := by omega
    rw [hdiff, Ram.seen_leaf (by rw [hguard]; omega) (by rw [hguard]; exact hg), hgu]
    rfl

def ImageLoaded (m : Ram) (tf : Frame) (image : Option (Nat × Nat × Table)) (m' : Ram) : Prop :=
  match image with
  | none => Returned m m'
  | some (_, sz, pt) => Loading m sz tf m' pt

/-- Loading a program leaves it in pages that were free, or gives back what it took. -/
theorem loadImage_runs {m : Ram} (hc : Clean m) (hfew : m.free.length ≤ physFrames) (tf : Frame) (file : List Byte) :
    Runs (m.loadImage tf file) fun r => ImageLoaded m tf r.1 r.2 := by
  unfold Ram.loadImage
  dsimp only
  split
  · exact Returned.refl m
  refine (procPagetable_runs hc tf).bind ?_
  rintro ⟨made, m1⟩ ⟨hfirst, htramp, hmade⟩
  cases made with
  | none => exact ⟨hfirst, htramp, hmade.1, hmade.2.1⟩
  | some pt1 =>
    obtain ⟨htook, hheld, hshape, -⟩ := hmade
    have hloading : Loading m 0 tf m1 pt1 := by
      refine ⟨⟨hfirst, htramp, hheld, hshape, Nat.zero_le _, htook.data⟩, ?_⟩
      intro va hlt
      exact absurd hlt (Nat.not_lt_zero _)
    refine (hloading.loadProgram_runs hc hfew _ _ _).bind ?_
    rintro ⟨loaded, sz, m2, pt2⟩ hloading2
    dsimp only at hloading2 ⊢
    cases loaded with
    | false => exact (hloading2.free_runs hc).bind fun m3 hret => hret
    | true => exact hloading2

/-- What `kexec` made of the program loaded in `m`: the process has it in place of its memory and
finds the arguments, or keeps its memory because there is too little of it or no room for them. -/
def ImageStarted (m0 m : Ram) (p : Space) (tf : Frame) (argv : List (List Byte)) (started : Option (Nat × Nat))
    (m' : Ram) (p' : Space) : Prop :=
  match started with
  | none => p' = p ∧ Returned m0 m' ∧ (pgsize < argSpace argv ∨ m.free.length < 3 * (userstack + 1))
  | some (argc, sp) => Resized m0 p tf m' p' ∧ argc = argv.length ∧ argSpace argv ≤ pgsize ∧
      ∃ as, ArgumentsAt (m'.seen p') p'.sz argv as sp

/-- Starting a loaded program replaces the memory of the process, or frees the program. -/
theorem startImage_runs {p : Space} (h : Loading m0 sz tf m pt) (hf : Fit m0 p tf) (hfew : m0.free.length ≤ physFrames)
    (argv : List (List Byte)) (hargs : ∀ arg ∈ argv, arg.length < pgsize) (hmany : argv.length < maxarg) :
    Runs (m.startImage p sz pt argv) fun r => ImageStarted m0 m p tf argv r.1 r.2.1 r.2.2 := by
  have hc : Clean m0 := hf.sound.clean
  unfold Ram.startImage
  refine (buildStack_runs h hc hfew p argv hargs hmany).bind ?_
  rintro ⟨pushed, sz', m1, p1, pt'⟩ ⟨rfl, hbuilt, hmade, -⟩
  dsimp only at hbuilt hmade ⊢
  cases pushed with
  | none => exact (hbuilt.free_runs hc).bind fun m' hret => ⟨rfl, hret, hmade⟩
  | some started =>
    obtain ⟨argc, sp⟩ := started
    obtain ⟨hargc, -, f, as, hstacked, hplaced⟩ := hmade
    refine (hbuilt.replace hf).bind ?_
    rintro m' ⟨hres, hdata⟩
    have htop : sz' - pgsize + pgsize = sz' := by
      have hroom := hstacked.room
      simp only [pgsize] at *
      omega
    have hfit : Fit m' ⟨pt', sz' - pgsize + pgsize⟩ tf := by
      rw [htop]
      exact hres.fit
    have hfound := hstacked.argumentsAt hfit hdata hplaced
    rw [htop] at hfound
    refine ⟨hres, hargc, ?_, as, hfound⟩
    obtain ⟨sp', hstrings, hsp⟩ := hplaced.strings
    have hdown := hstrings.space.2.1
    have hlow := hplaced.low
    simp only [argSpace]
    omega

theorem Returned.resized (h : Returned m m') (hf : Fit m p tf) : Resized m p tf m' p := by
  refine ⟨h.first, h.trampoline, fun w => ?_, hf.of_ram h.first h.trampoline fun w => Nat.le_of_eq (h.weight w)⟩
  simp only [held, h.weight]

/-- `kexec`: a new address space in place of the old one, or the old one as it was. -/
theorem kexec_runs {m : Ram} {p : Space} (hf : Fit m p tf) (hfew : m.free.length ≤ physFrames)
    (file : Option (List Byte)) (argv : List (List Byte)) (hargs : ∀ arg ∈ argv, arg.length < pgsize)
    (hmany : argv.length < maxarg) :
    Runs (m.kexec p tf file argv) fun r => Resized m p tf r.2.1 r.2.2 ∧ (r.1 = none → r.2.2 = p ∧ Returned m r.2.1) := by
  unfold Ram.kexec
  split
  · exact ⟨.refl hf, fun _ => ⟨rfl, .refl m⟩⟩
  refine (loadImage_runs hf.sound.clean hfew tf _).bind ?_
  rintro ⟨image, m1⟩ hloaded
  cases image with
  | none => exact ⟨Returned.resized hloaded hf, fun _ => ⟨rfl, hloaded⟩⟩
  | some image =>
    refine (startImage_runs hloaded hf hfew argv hargs hmany).bind ?_
    rintro ⟨started, m2, p2⟩ hstarted
    cases started with
    | none =>
      obtain ⟨rfl, hret, -⟩ := hstarted
      exact ⟨hret.resized hf, fun _ => ⟨rfl, hret⟩⟩
    | some started => exact ⟨hstarted.1, nofun⟩

abbrev weightOf (w : Frame → Nat) (fs : List Frame) : Nat := (fs.map w).sum

theorem kfreeAll_runs {m : Ram} (fs : List Frame) (hin : weightOf (stray m.first) fs = 0) :
    Runs (m.kfreeAll fs) fun m' => Gave m m' ∧ ∀ w, m'.weight w = m.weight w + weightOf w fs := by
  induction fs generalizing m with
  | nil => exact ⟨Gave.refl m, fun _ => rfl⟩
  | cons f fs ih =>
    simp only [weightOf, List.map_cons, List.sum_cons] at hin
    unfold Ram.kfreeAll
    rw [List.foldlM_cons]
    refine (Ram.kfree_runs (by omega)).bind ?_
    rintro m1 ⟨hgave1, hw1, -⟩
    refine (ih (by rw [hgave1.first]; simp only [weightOf]; omega)).imp ?_
    rintro m' ⟨hgave, hw⟩
    refine ⟨hgave1.trans hgave, fun w => ?_⟩
    rw [hw w, hw1 w]
    simp only [weightOf, List.map_cons, List.sum_cons]
    omega

structure Fetching (m0 : Ram) (p0 : Space) (argv : List (Frame × List Byte)) (m : Ram) (p : Space) : Prop where
  sz : p.sz = p0.sz
  first : m.first = m0.first
  trampoline : m.trampoline = m0.trampoline
  held : ∀ w, held w m p.pagetable + weightOf w (argv.map (·.1)) = held w m0 p0.pagetable
  leaf : ∀ va, vpn va < 2 ^ 27 → pages p0.sz ≤ vpn va → p.pagetable.leaf va = p0.pagetable.leaf va
  short : ∀ a ∈ argv, a.2.length < pgsize

namespace Fetching

theorem fit (h : Fetching m0 p0 argv m p) (hf : Fit m0 p0 tf) : Fit m p tf := by
  have hbound := pages_le hf.size
  refine ⟨hf.sound.mono h.first fun w => ?_, ?_, by rw [h.sz]; exact hf.size⟩
  · have := h.held w
    omega
  · rw [h.sz, h.trampoline]
    refine hf.shape.congr ?_ ?_ hbound
    · intro va hva hhigh
      exact h.leaf va hva (by omega)
    · intro va hlow hge
      have hva : vpn va < 2 ^ 27 := Nat.lt_trans hlow (by decide)
      rw [h.leaf va hva hge]
      exact hf.shape.user va hva hge (by omega) (by omega)

theorem stable (h : Fetching m0 p0 argv m p) (hs : Stable m p m' p') : Fetching m0 p0 argv m' p' := by
  refine ⟨hs.sz.trans h.sz, hs.first.trans h.first, hs.trampoline.trans h.trampoline, ?_, ?_, h.short⟩
  · intro w
    rw [hs.held w]
    exact h.held w
  · intro va hva hge
    rw [hs.leaf va hva (by rw [h.sz]; exact hge)]
    exact h.leaf va hva hge

theorem snoc (h : Fetching m0 p0 argv m p) (hk : m.kalloc = some (f, m')) (hs : s.length < pgsize) :
    Fetching m0 p0 (argv ++ [(f, s)]) m' p := by
  obtain ⟨hfree, htook⟩ := Ram.kalloc_some hk
  refine ⟨h.sz, htook.first.trans h.first, htook.trampoline.trans h.trampoline, ?_, h.leaf, ?_⟩
  · intro w
    have hmoved := Ram.weight_of_free w hfree
    have hbefore := h.held w
    simp only [Paging.held, weightOf, List.map_append, List.map_cons, List.map_nil, List.sum_append, List.sum_cons,
      List.sum_nil] at *
    omega
  · intro a ha
    rcases List.mem_append.mp ha with hold | hnew
    · exact h.short a hold
    · rw [List.mem_singleton.mp hnew]
      exact hs

theorem fetchArgs_runs (hf : Fit m0 p0 tf) (h : Fetching m0 p0 argv m p) (uargv rounds i : Nat)
    (hrounds : argv.length + rounds = maxarg) :
    Runs (Ram.fetchArgs uargv rounds i m p argv) fun r =>
      Fetching m0 p0 r.2.1 r.2.2.1 r.2.2.2 ∧ (r.1 = true → r.2.1.length < maxarg) := by
  induction rounds generalizing i m p argv with
  | zero => exact ⟨h, by simp⟩
  | succ rounds ih =>
    unfold Ram.fetchArgs
    refine (fetchaddr_runs (h.fit hf).guarded _).bind ?_
    rintro ⟨uarg, m1, p1⟩ ⟨hcopy, -⟩
    have h1 := h.stable hcopy.stable
    dsimp only
    split
    · exact ⟨h1, by simp⟩
    · exact ⟨h1, fun _ => by dsimp only; omega⟩
    · split
      · exact ⟨h1, by simp⟩
      · rename_i f m2 hk
        split
        · exact ⟨h1.snoc hk (by decide), by simp⟩
        · rename_i s hs
          have hlen := (copyinstrLoop_string _ _ _ _ _ hs).2
          refine ih ((h1.snoc hk hlen).stable (Stable.write _ _ _ _ _)) _ ?_
          rw [List.length_append, List.length_singleton]
          omega

theorem freed (h : Fetching m0 p0 argv m p) (hf : Fit m0 p0 tf) (hr : Resized m p tf m' p') :
    Runs (m'.kfreeAll (argv.map (·.1))) fun m'' => Resized m0 p0 tf m'' p' := by
  have hfirst := hr.first.trans h.first
  have hheld (w) : Paging.held w m' p'.pagetable + weightOf w (argv.map (·.1)) = Paging.held w m0 p0.pagetable := by
    rw [hr.held w]
    exact h.held w
  have hin : weightOf (stray m'.first) (argv.map (·.1)) = 0 := by
    have hzero := hf.sound.inside
    have hsum := hheld (stray m0.first)
    rw [hfirst]
    omega
  refine (kfreeAll_runs _ hin).imp ?_
  rintro m'' ⟨hgave, hw⟩
  have hfirst' := hgave.first.trans hfirst
  have htramp' := hgave.trampoline.trans (hr.trampoline.trans h.trampoline)
  have hback (w) : Paging.held w m'' p'.pagetable = Paging.held w m0 p0.pagetable := by
    have hsum := hheld w
    have hthen := hw w
    simp only [Paging.held] at *
    omega
  refine ⟨hfirst', htramp', hback, hf.sound.congr hfirst' hback, ?_, hr.fit.size⟩
  rw [hgave.trampoline]
  exact hr.fit.shape

end Fetching

theorem sysExec_runs {m : Ram} {p : Space} (hf : Fit m p tf) (hfew : held (fun _ => 1) m p.pagetable ≤ physFrames)
    (upath uargv : Nat) (found : List Byte → Option (List Byte)) :
    Runs (m.sysExec p tf upath uargv found) fun r => Resized m p tf r.2.1 r.2.2 := by
  unfold Ram.sysExec
  split
  · exact Resized.refl hf
  · have hstart : Fetching m p [] m p := ⟨rfl, rfl, rfl, by simp [weightOf], fun _ _ _ => rfl, by simp⟩
    refine (Fetching.fetchArgs_runs hf hstart uargv maxarg 0 rfl).bind ?_
    rintro ⟨ended, argv, m1, p1⟩ ⟨h, hcount⟩
    dsimp only at h hcount ⊢
    cases ended with
    | false =>
      refine (h.freed hf (Resized.refl (h.fit hf))).bind ?_
      intro m2 hr
      exact hr
    | true =>
      rw [if_pos rfl]
      have hfew1 : m1.free.length ≤ physFrames := by
        have hone := h.held fun _ => 1
        rw [← Ram.weight_one]
        simp only [held] at *
        omega
      have hargs : ∀ arg ∈ argv.map (·.2), arg.length < pgsize := by
        intro arg harg
        obtain ⟨a, ha, rfl⟩ := List.mem_map.mp harg
        exact h.short a ha
      refine (kexec_runs (h.fit hf) hfew1 _ _ hargs (by rw [List.length_map]; exact hcount rfl)).bind ?_
      rintro ⟨ret, m2, p2⟩ ⟨hr, -⟩
      refine (h.freed hf hr).bind ?_
      intro m3 hr'
      exact hr'

end Xv6Filter.Paging
