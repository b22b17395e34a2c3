import Xv6Filter.Proofs.Umalloc

namespace Xv6Filter.Umalloc
open Lib Function

namespace Heap

theorem find_mono {h : Heap} (hf : h.find bp fuel p = some q) (hle : fuel ≤ fuel') :
    h.find bp fuel' p = some q := by
  induction fuel generalizing p fuel' with
  | zero => cases hf
  | succ fuel ih =>
    obtain ⟨fuel', rfl⟩ : ∃ n, fuel' = n + 1 := ⟨fuel' - 1, by omega⟩
    rw [find_succ] at hf ⊢
    by_cases hgap : InGap p (h.ptr p) bp
    · rwa [if_pos hgap] at hf ⊢
    · rw [if_neg hgap] at hf ⊢
      exact ih hf (by omega)

theorem free_mono {h : Heap} (hf : h.free fuel ap = some h') (hle : fuel ≤ fuel') :
    h.free fuel' ap = some h' := by
  obtain ⟨p, hp, hlink⟩ := Option.map_eq_some_iff.mp hf
  rw [free, find_mono hp hle]
  exact congrArg some hlink

theorem morecore_mono {h : Heap} (hf : h.morecore env fuel n = some r) (hle : fuel ≤ fuel') :
    h.morecore env fuel' n = some r := by
  unfold morecore at hf ⊢
  cases hq : env.sbrk h.asked (coreBytes n) with
  | none =>
    rw [hq] at hf
    exact hf
  | some q =>
    rw [hq] at hf
    obtain ⟨h', hfree, hr⟩ := Option.map_eq_some_iff.mp hf
    dsimp only
    rw [free_mono hfree hle]
    exact congrArg some hr

theorem search_mono {h : Heap} (hf : h.search env n fuel prevp p = some r) (hle : fuel ≤ fuel') :
    h.search env n fuel' prevp p = some r := by
  induction fuel generalizing h prevp p fuel' with
  | zero => cases hf
  | succ fuel ih =>
    obtain ⟨fuel', rfl⟩ : ∃ n, fuel' = n + 1 := ⟨fuel' - 1, by omega⟩
    rw [search] at hf ⊢
    by_cases hlarge : h.size p ≥ n
    · rwa [if_pos hlarge] at hf ⊢
    rw [if_neg hlarge] at hf ⊢
    by_cases hlast : p = h.freep
    · rw [if_pos hlast] at hf ⊢
      cases hm : h.morecore env fuel n with
      | none =>
        rw [hm] at hf
        cases hf
      | some core =>
        rw [hm] at hf
        rw [morecore_mono hm (by omega)]
        dsimp only at hf ⊢
        by_cases hnull : core.1 = 0
        · rwa [if_pos hnull] at hf ⊢
        · rw [if_neg hnull] at hf ⊢
          exact ih hf (by omega)
    · rw [if_neg hlast] at hf ⊢
      exact ih hf (by omega)

end Heap

def Client.blocks (c : Client) : Finset Nat := (c.live.map fun b => b.1 - hdrsize).toFinset

/-- The heap of a program after its first `malloc`, with the lengths of its blocks as it asked for them. -/
structure Tended (env : Env) (c : Client) (free : Finset Nat) (len : Nat → Nat) : Prop where
  shaped : Shaped env c.heap free c.blocks len
  lens : ∀ b ∈ c.live, hdrsize ≤ b.1 ∧ len (b.1 - hdrsize) = hdrsize * b.2
  distinct : (c.live.map Prod.fst).Nodup

/-- What every program keeps that frees only what it has and stores only to its blocks. -/
def Tidy (env : Env) (c : Client) : Prop :=
  Pristine c.heap ∧ c.live = [] ∨ ∃ free len, Tended env c free len

def ModestRequest (_ : Client) : Event → Prop
  | .malloc nbytes _ => nbytes.toNat ≤ 2 ^ 31 - 32
  | _ => True

instance (c : Client) (e : Event) : Decidable (ModestRequest c e) :=
  match e with
  | .malloc nbytes _ => inferInstanceAs (Decidable (nbytes.toNat ≤ _))
  | .free _ _ => .isTrue trivial
  | .store _ _ => .isTrue trivial

section Steps

variable {env : Env} {c c' : Client}

theorem Tidy.malloc_runs (ht : Tidy env c) (he : Honest env) {nbytes : BitVec 32}
    (hn : nbytes.toNat ≤ 2 ^ 31 - 32) :
    ∃ r h' n0, (∀ fuel, n0 ≤ fuel → c.heap.malloc env fuel nbytes = some (r, h')) ∧
      ∃ len, Outcome env (Heap.unitsOf nbytes) c.blocks len h' r ∧
        (∀ b ∈ c.live, hdrsize ≤ b.1 ∧ len (b.1 - hdrsize) = hdrsize * b.2) ∧ (c.live.map Prod.fst).Nodup := by
  rcases ht with ⟨hp, hlive⟩ | ⟨free, len, ht⟩
  · obtain ⟨r, h', n0, ho, hrun⟩ := hp.malloc_runs he (fun _ => 0) hn
    have hblocks : c.blocks = ∅ := by simp [Client.blocks, hlive]
    refine ⟨r, h', n0, hrun, fun _ => 0, ?_, ?_, ?_⟩
    · rw [hblocks]
      exact ho
    · simp [hlive]
    · simp [hlive]
  · obtain ⟨r, h', n0, ho, hrun⟩ := ht.shaped.malloc_runs he hn
    exact ⟨r, h', n0, hrun, len, ho, ht.lens, ht.distinct⟩

theorem mem_blocks (hb : b ∈ c.live) : b.1 - hdrsize ∈ c.blocks :=
  List.mem_toFinset.mpr (List.mem_map_of_mem hb)

theorem Tidy.malloc (ht : Tidy env c) (he : Honest env) {nbytes : BitVec 32} (hn : nbytes.toNat ≤ 2 ^ 31 - 32)
    (hstep : c.step env (.malloc nbytes fuel) = some c') : Tidy env c' := by
  obtain ⟨r, h', n0, hrun, len, ho, hlens, hdistinct⟩ := ht.malloc_runs he hn
  obtain ⟨⟨ap, h1⟩, hcall, hc'⟩ := Option.bind_eq_some_iff.mp hstep
  have hsame : (ap, h1) = (r, h') := by
    have hlong := Heap.search_mono hcall (Nat.le_max_left fuel n0)
    exact Option.some.inj (hlong.symm.trans (hrun _ (Nat.le_max_right fuel n0)))
  cases hsame
  refine .inr ?_
  cases ho with
  | null shaped kept =>
    cases hc'
    refine ⟨_, _, shaped, fun b hb => ?_, hdistinct⟩
    rw [kept _ (mem_blocks hb)]
    exact hlens b hb
  | @block free p len' shaped fresh size kept =>
    have hnull : p + hdrsize ≠ 0 := by simp
    dsimp only at hc'
    rw [if_neg hnull] at hc'
    cases hc'
    have hblocks : Client.blocks ⟨h', (p + hdrsize, Heap.unitsOf nbytes) :: c.live⟩ = insert p c.blocks := by
      simp [Client.blocks]
    refine ⟨free, len', hblocks ▸ shaped, ?_, ?_⟩
    · intro b hb
      rcases List.mem_cons.mp hb with rfl | hb
      · simpa using size
      · rw [kept _ (mem_blocks hb)]
        exact hlens b hb
    · refine List.nodup_cons.mpr ⟨fun hmem => ?_, hdistinct⟩
      obtain ⟨b, hb, he⟩ := List.mem_map.mp hmem
      have := mem_blocks hb
      rw [he, Nat.add_sub_cancel] at this
      exact fresh this

theorem Tended.free_runs (ht : Tended env c free len) (he : Honest env) (hap : ap ∈ c.live.map Prod.fst) :
    ∃ h' free' len' n0, (∀ fuel, n0 ≤ fuel → c.heap.free fuel ap = some h') ∧
      Shaped env h' free' (c.blocks.erase (ap - hdrsize)) len' ∧
      ∀ a ∈ c.blocks.erase (ap - hdrsize), len' a = len a := by
  obtain ⟨b, hb, rfl⟩ := List.mem_map.mp hap
  obtain ⟨h', free', len', hrun, hs', hkept, -⟩ := ht.shaped.free_runs he.base_lt (mem_blocks hb)
  rw [Nat.sub_add_cancel (ht.lens b hb).1] at hrun
  exact ⟨h', free', len', _, hrun, hs', hkept⟩

theorem Tidy.free (ht : Tidy env c) (he : Honest env) (hstep : c.step env (.free ap fuel) = some c') :
    Tidy env c' := by
  rw [Client.step] at hstep
  by_cases hap : ap ∈ c.live.map Prod.fst
  · rw [if_pos hap] at hstep
    obtain ⟨h1, hcall, hc'⟩ := Option.bind_eq_some_iff.mp hstep
    cases hc'
    rcases ht with ⟨-, hlive⟩ | ⟨free, len, ht⟩
    · rw [hlive] at hap
      cases hap
    obtain ⟨h', free', len', n0, hrun, hs', hkept⟩ := ht.free_runs he hap
    have hsame : h1 = h' := by
      have hlong := Heap.free_mono hcall (Nat.le_max_left fuel n0)
      exact Option.some.inj (hlong.symm.trans (hrun _ (Nat.le_max_right fuel n0)))
    subst hsame
    have hmin : ∀ x, x ∈ c.live.map Prod.fst → hdrsize ≤ x := by
      intro x hx
      obtain ⟨b, hb, rfl⟩ := List.mem_map.mp hx
      exact (ht.lens b hb).1
    have hblocks : Client.blocks ⟨h1, c.live.filter fun b => decide (b.1 ≠ ap)⟩ =
        c.blocks.erase (ap - hdrsize) := by
      ext x
      simp only [Client.blocks, List.mem_toFinset, List.mem_map, List.mem_filter, Finset.mem_erase,
        decide_eq_true_eq]
      constructor
      · rintro ⟨b, ⟨hb, hne⟩, rfl⟩
        refine ⟨?_, b, hb, rfl⟩
        have h1 := hmin ap hap
        have h2 := hmin b.1 (List.mem_map_of_mem hb)
        omega
      · rintro ⟨hne, b, hb, rfl⟩
        exact ⟨b, ⟨hb, fun he => hne (by rw [he])⟩, rfl⟩
    refine .inr ⟨free', len', hblocks ▸ hs', fun b hb => ?_, ?_⟩
    · have hmem : b.1 - hdrsize ∈ c.blocks.erase (ap - hdrsize) := by
        rw [← hblocks]
        exact mem_blocks (c := ⟨h1, _⟩) hb
      rw [hkept _ hmem]
      exact ht.lens b (List.mem_of_mem_filter hb)
    · exact ht.distinct.sublist (List.filter_sublist.map _)
  · rw [if_neg hap] at hstep
    cases hstep

theorem Tidy.store (ht : Tidy env c) (hstep : c.step env (.store x v) = some c') : Tidy env c' := by
  rw [Client.step] at hstep
  by_cases hx : c.MayUse x
  · rw [if_pos hx] at hstep
    cases hstep
    obtain ⟨b, hb, hlow, hhigh⟩ := hx
    rcases ht with ⟨-, hlive⟩ | ⟨free, len, ht⟩
    · rw [hlive] at hb
      cases hb
    have hs := ht.shaped
    obtain ⟨hmin, hlen⟩ := ht.lens b hb
    have hub : b.1 - hdrsize ∈ free ∪ c.blocks := Finset.mem_union_right _ (mem_blocks hb)
    have hout : ∀ a ∈ insert env.base (free ∪ c.blocks), x < a ∨ a + hdrsize ≤ x := by
      intro a ha
      have hbelow := hs.above hub
      have hlong := hs.hdrsize_le hub
      have hin : b.1 - hdrsize + hdrsize ≤ x ∧ x < b.1 - hdrsize + len (b.1 - hdrsize) := by
        rw [hlen] at hlong ⊢
        simp only [hdrsize] at hlow hhigh hmin hlong ⊢
        omega
      rcases Finset.mem_insert.mp ha with rfl | ha
      · omega
      have hla := hs.hdrsize_le ha
      rcases Nat.lt_trichotomy a (b.1 - hdrsize) with hlt | he | hlt
      · have := hs.tiles.apart a ha _ hub hlt
        omega
      · omega
      · have := hs.tiles.apart _ hub a ha hlt
        omega
    have hsame : ∀ a ∈ insert env.base (free ∪ c.blocks),
        ({ c.heap with mem := update c.heap.mem x v } : Heap).ptr a = c.heap.ptr a ∧
        ({ c.heap with mem := update c.heap.mem x v } : Heap).size a = c.heap.size a := by
      intro a ha
      have := hout a ha
      simp only [hdrsize] at this
      constructor
      · refine loadLe_congr fun k hk hk' => update_of_ne ?_ _ _
        omega
      · refine loadLe_congr fun k hk hk' => update_of_ne ?_ _ _
        omega
    have hsub : insert env.base free ⊆ insert env.base (free ∪ c.blocks) :=
      Finset.insert_subset_insert _ Finset.subset_union_left
    refine .inr ⟨free, len, ⟨hs.toLayout.congr ?_ ?_, hs.freep, ?_⟩, ht.lens, ht.distinct⟩
    · exact fun a ha => (hsame a (hsub ha)).1
    · exact fun a ha => (hsame a ha).2
    · intro hsmall a ha
      rw [(hsame a (hsub (Finset.mem_insert_of_mem ha))).1]
      exact hs.coalesced hsmall a ha
  · rw [if_neg hx] at hstep
    cases hstep

theorem run_tidy (he : Honest env) (hr : Run (Client.step env) ModestRequest (Client.start mem) es c) :
    Tidy env c := by
  refine hr.invariant (Tidy env) (.inl ⟨⟨rfl, rfl⟩, rfl⟩) ?_
  intro t e u ht hm hstep
  cases e with
  | malloc nbytes fuel => exact ht.malloc he hm hstep
  | free ap fuel => exact ht.free he hstep
  | store x v => exact ht.store hstep

end Steps

/-- `malloc` returns memory it owns. In every state that modest requests lead to, a modest request
returns, with a null pointer or with a block whose header gives it at least the bytes asked for and
which lies inside what `sbrk` added. -/
theorem malloc_owns_block (he : Honest env)
    (hr : Run (Client.step env) ModestRequest (Client.start mem) es c) (hn : nbytes.toNat ≤ 2 ^ 31 - 32) :
    ∃ ap h' n0, (∀ fuel, n0 ≤ fuel → c.heap.malloc env fuel nbytes = some (ap, h')) ∧
      (ap = 0 ∨ nbytes.toNat ≤ hdrsize * (h'.size (headerOf ap) - 1) ∧
        ∀ x, headerOf ap ≤ x → x < headerOf ap + hdrsize * h'.size (headerOf ap) → Owned h'.asked x) := by
  obtain ⟨ap, h', n0, hrun, len, ho, -, -⟩ := (run_tidy he hr).malloc_runs he hn
  refine ⟨ap, h', n0, hrun, ?_⟩
  cases ho with
  | null shaped kept => exact .inl rfl
  | @block free p len' shaped fresh size kept =>
    have hmem : p ∈ insert p c.blocks := Finset.mem_insert_self _ _
    have hup : p ∈ free ∪ insert p c.blocks := Finset.mem_union_right _ hmem
    have hheader : headerOf (p + hdrsize) = p := by
      have := shaped.cell_lt he.base_lt (Finset.mem_insert_of_mem hup)
      simp only [headerOf, hdrsize]
      omega
    have hsize := (shaped.size_live p hmem).1
    have hunits : h'.size p = Heap.unitsOf nbytes := by
      rw [size] at hsize
      exact Nat.eq_of_mul_eq_mul_left (by decide) hsize
    refine .inr ?_
    rw [hheader]
    refine ⟨?_, fun x hlow hhigh => ?_⟩
    · rw [hunits]
      exact (unitsOf_spec nbytes).2
    · rw [hsize] at hhigh
      exact shaped.owned x ⟨p, hup, hlow, hhigh⟩

def topOf : Asked → Nat
  | [] => 0x4000
  | (n, some q) :: asked => max (q + n.toNat) (topOf asked)
  | (_, none) :: asked => topOf asked

def smallEnv : Env where
  base := 0x2000
  sbrk := fun asked n => if 0 ≤ n ∧ topOf asked + n.toNat ≤ 2 ^ 27 then some (topOf asked) else none

theorem Owned.lt_top (h : Owned asked x) : x < topOf asked := by
  obtain ⟨n, q, hmem, hlow, hhigh⟩ := h
  induction asked with
  | nil => cases hmem
  | cons call asked ih =>
    rcases List.mem_cons.mp hmem with rfl | hmem
    · simp only [topOf]
      omega
    · have := ih hmem
      obtain ⟨m, _ | r⟩ := call <;> simp only [topOf] <;> omega

theorem topOf_ge (asked : Asked) : 0x4000 ≤ topOf asked := by
  induction asked with
  | nil => exact Nat.le_refl _
  | cons call asked ih => obtain ⟨m, _ | r⟩ := call <;> simp only [topOf] <;> omega

theorem smallEnv_honest : Honest smallEnv where
  base_pos := by decide
  base_lt := by decide
  adds := by
    intro asked n p hs _
    simp only [smallEnv] at hs
    split at hs
    · rename_i hok
      cases hs
      have hge := topOf_ge asked
      refine ⟨?_, ?_, fun x hlow _ hown => ?_⟩
      · simp only [smallEnv, hdrsize]
        omega
      · simp only [maxva]
        omega
      · have := hown.lt_top
        omega
    · cases hs

def blankMem : Nat → UInt8 := fun _ => 0

/-- A block is taken and given back, then 5000 bytes are asked for. -/
theorem malloc_owns_block_second : ∃ c, Run (Client.step smallEnv) ModestRequest (Client.start blankMem)
      [.malloc 100 10, .free 0x13f90 10] c ∧
    ∃ ap h' n0, (∀ fuel, n0 ≤ fuel → c.heap.malloc smallEnv fuel 5000 = some (ap, h')) ∧
      (ap = 0 ∨ 5000 ≤ hdrsize * (h'.size (headerOf ap) - 1) ∧
        ∀ x, headerOf ap ≤ x → x < headerOf ap + hdrsize * h'.size (headerOf ap) → Owned h'.asked x) := by
  obtain ⟨c, hc⟩ : ∃ c, replay (Client.step smallEnv) ModestRequest [.malloc 100 10, .free 0x13f90 10]
      (Client.start blankMem) = some c := Option.isSome_iff_exists.mp (by decide +kernel)
  exact ⟨c, replay_run hc, malloc_owns_block smallEnv_honest (replay_run hc) (by decide)⟩

/-- A request for all but one of `2 ^ 32` bytes asks `sbrk` for 16 and gets a block of `2 ^ 28 + 1`
units. -/
theorem malloc_past_end : ∃ h', (Client.start blankMem).heap.malloc smallEnv 10 0xffffffff = some (0x4010, h') ∧
    h'.size (headerOf 0x4010) = 2 ^ 28 + 1 ∧ h'.asked = [(16, some 0x4000)] ∧ ¬ Owned h'.asked 0x4010 := by
  obtain ⟨⟨ap, h'⟩, hrun, hr⟩ := Option.map_eq_some_iff.mp (show
    ((Client.start blankMem).heap.malloc smallEnv 10 0xffffffff).map (fun r =>
      (r.1, r.2.size (headerOf 0x4010), r.2.asked)) = some (0x4010, 2 ^ 28 + 1, [(16, some 0x4000)]) by
      decide +kernel)
  obtain ⟨rfl, hsize, hasked⟩ : ap = 0x4010 ∧ h'.size (headerOf 0x4010) = 2 ^ 28 + 1 ∧
      h'.asked = [(16, some 0x4000)] := by simpa using hr
  refine ⟨h', hrun, hsize, hasked, ?_⟩
  rintro ⟨n, q, hmem, hlow, hhigh⟩
  rw [hasked] at hmem
  cases List.mem_singleton.mp hmem
  omega

/-- The heap of a program as the headers show it, with the free blocks `free`: around `base` and them
the pointers lead upwards and back once, free blocks and the program's own are as long as their
headers say, do not overlap and are all the memory there is, no two free ones touch, and the blocks of
the program have the size they were given. -/
structure Disciplined (env : Env) (c : Client) (free : Finset Nat) : Prop where
  listed : c.heap.freep ∈ insert env.base free
  circle : Circle (insert env.base free) c.heap.ptr
  sentinel : c.heap.size env.base = 0
  tiles : Tiles (free ∪ c.blocks) fun a => hdrsize * c.heap.size a
  split : Disjoint free c.blocks
  tiled : ∀ x, Covered (free ∪ c.blocks) (fun a => hdrsize * c.heap.size a) x ↔ Owned c.heap.asked x
  coalesced : ∀ a ∈ free, ∀ b ∈ free, a + hdrsize * c.heap.size a ≠ b
  headers : ∀ b ∈ c.live, c.heap.size (headerOf b.1) = b.2
  distinct : (c.live.map Prod.fst).Nodup

theorem Tended.disciplined (ht : Tended env c free len) (he : Honest env)
    (hsmall : obtained c.heap.asked < 2 ^ 36) : Disciplined env c free := by
  have hs := ht.shaped
  have hlen : ∀ a ∈ free ∪ c.blocks, hdrsize * c.heap.size a = len a := by
    intro a ha
    rcases Finset.mem_union.mp ha with hf | hl
    · exact hs.exact hsmall hf
    · exact (hs.size_live a hl).1
  refine ⟨hs.freep, hs.circle, hs.base_size, hs.tiles.congr hlen, hs.split, fun x => ?_, ?_, ?_, ht.distinct⟩
  · rw [covered_congr hlen]
    exact ⟨hs.owned x, hs.tiled hsmall x⟩
  · intro a ha b hb hab
    rw [hlen a (Finset.mem_union_left _ ha)] at hab
    have hlinked := hs.linked ha hb hab
    exact hs.coalesced hsmall a ha (hab.trans hlinked.symm)
  · intro b hb
    obtain ⟨hmin, hunits⟩ := ht.lens b hb
    have hub : b.1 - hdrsize ∈ free ∪ c.blocks := Finset.mem_union_right _ (mem_blocks hb)
    have hheader : headerOf b.1 = b.1 - hdrsize := by
      have := hs.cell_lt he.base_lt (Finset.mem_insert_of_mem hub)
      simp only [headerOf, hdrsize] at this hmin ⊢
      omega
    rw [hheader]
    have hsize := hlen _ hub
    rw [hunits] at hsize
    exact Nat.eq_of_mul_eq_mul_left (by decide) hsize

/-- The discipline of the free list. In every state that modest requests lead to while less than
`2 ^ 36` bytes were added, there is no list yet or it is disciplined, and the loops of `malloc` and
`free` end. -/
theorem free_list_disciplined (he : Honest env)
    (hr : Run (Client.step env) ModestRequest (Client.start mem) es c)
    (hsmall : obtained c.heap.asked < 2 ^ 36) :
    (c.heap.freep = 0 ∧ c.heap.asked = [] ∧ c.live = [] ∨ ∃ free, Disciplined env c free) ∧
      (∀ nbytes : BitVec 32, nbytes.toNat ≤ 2 ^ 31 - 32 →
        ∃ n0, ∀ fuel, n0 ≤ fuel → (c.heap.malloc env fuel nbytes).isSome) ∧
      ∀ ap ∈ c.live.map Prod.fst, ∃ n0, ∀ fuel, n0 ≤ fuel → (c.heap.free fuel ap).isSome := by
  have ht := run_tidy he hr
  refine ⟨?_, ?_, ?_⟩
  · rcases ht with ⟨hp, hlive⟩ | ⟨free, len, ht⟩
    · exact .inl ⟨hp.freep, hp.asked, hlive⟩
    · exact .inr ⟨free, ht.disciplined he hsmall⟩
  · intro nbytes hn
    obtain ⟨ap, h', n0, hrun, -⟩ := ht.malloc_runs he hn
    exact ⟨n0, fun fuel hle => by rw [hrun fuel hle]; rfl⟩
  · intro ap hap
    rcases ht with ⟨-, hlive⟩ | ⟨free, len, ht⟩
    · rw [hlive] at hap
      cases hap
    · obtain ⟨h', -, -, n0, hrun, -⟩ := ht.free_runs he hap
      exact ⟨n0, fun fuel hle => by rw [hrun fuel hle]; rfl⟩

/-- Two blocks are taken and the first is given back. -/
theorem free_list_disciplined_three : ∃ c free, Run (Client.step smallEnv) ModestRequest (Client.start blankMem)
      [.malloc 100 10, .malloc 20 10, .free 0x13f90 10] c ∧ c.live = [(0x13f60, 3)] ∧
    Disciplined smallEnv c free := by
  obtain ⟨c, hc, hp⟩ := Option.map_eq_some_iff.mp (show (replay (Client.step smallEnv) ModestRequest
    [.malloc 100 10, .malloc 20 10, .free 0x13f90 10] (Client.start blankMem)).map
      (fun c => (c.live, decide (c.heap.freep = 0), decide (obtained c.heap.asked < 2 ^ 36))) =
    some ([(0x13f60, 3)], false, true) by decide +kernel)
  obtain ⟨hlive, hfreep, hsmall⟩ : c.live = [(0x13f60, 3)] ∧ ¬ c.heap.freep = 0 ∧
      obtained c.heap.asked < 2 ^ 36 := by simpa using hp
  rcases (free_list_disciplined smallEnv_honest (replay_run hc) hsmall).1 with ⟨h0, -⟩ | ⟨free, hd⟩
  · exact absurd h0 hfreep
  · exact ⟨c, free, replay_run hc, hlive, hd⟩

/-- After one request for all but one of `2 ^ 32` bytes the block of the program is larger than all
the memory that was added. -/
theorem huge_request_undisciplined : ∃ c, Run (Client.step smallEnv) anyEvent (Client.start blankMem)
      [.malloc 0xffffffff 10] c ∧ c.heap.freep ≠ 0 ∧ obtained c.heap.asked = 16 ∧
    ∀ free, ¬ Disciplined smallEnv c free := by
  obtain ⟨c, hc, hp⟩ := Option.map_eq_some_iff.mp (show (replay (Client.step smallEnv) anyEvent
    [.malloc 0xffffffff 10] (Client.start blankMem)).map
      (fun c => (c.live, c.heap.freep, c.heap.size 0x4000, decide (c.heap.asked = [(16, some 0x4000)]))) =
    some ([(0x4010, 2 ^ 28 + 1)], 0x2000, 2 ^ 28 + 1, true) by decide +kernel)
  obtain ⟨hlive, hfreep, hsize, hasked⟩ : c.live = [(0x4010, 2 ^ 28 + 1)] ∧ c.heap.freep = 0x2000 ∧
      c.heap.size 0x4000 = 2 ^ 28 + 1 ∧ c.heap.asked = [(16, some 0x4000)] := by simpa using hp
  refine ⟨c, replay_run hc, by rw [hfreep]; decide, by rw [hasked]; rfl, fun free hd => ?_⟩
  have hmem : 0x4000 ∈ free ∪ c.blocks := by
    refine Finset.mem_union_right _ ?_
    simp [Client.blocks, hlive, hdrsize]
  have hcovered : Covered (free ∪ c.blocks) (fun a => hdrsize * c.heap.size a) 0x4010 := by
    refine ⟨0x4000, hmem, by decide, ?_⟩
    dsimp only
    rw [hsize]
    decide
  obtain ⟨n, q, hin, hlow, hhigh⟩ := (hd.tiled 0x4010).mp hcovered
  rw [hasked] at hin
  cases List.mem_singleton.mp hin
  omega

end Xv6Filter.Umalloc
