import Xv6Filter.Proofs.PageRuns

namespace Xv6Filter.Paging
open Lib

def userByte (pt : PageTable) (va : Nat) : Option Byte := (Xv6Filter.walkaddr pt va).map fun frame => frame (va % pgsize)

/-- The inner loop of `copyinstr` copies up to a NUL or to the end of its bytes. -/
theorem copyPage_bytes (frame : Nat → Byte) (o n : Nat) :
    (∀ i, i < (copyPage frame o n).1.length → (copyPage frame o n).1[i]? = some (frame (o + i))) ∧
      ((copyPage frame o n).2 = true → frame (o + (copyPage frame o n).1.length) = 0) ∧
      ((copyPage frame o n).2 = false → (copyPage frame o n).1.length = n) := by
  induction n generalizing o with
  | zero => simp [copyPage]
  | succ n ih =>
    by_cases hz : frame o = 0
    · simp [copyPage, hz]
    · obtain ⟨hbytes, hnul, hall⟩ := ih (o + 1)
      simp only [copyPage, hz, if_false, List.length_cons]
      refine ⟨?_, ?_, ?_⟩
      · intro i hi
        cases i with
        | zero => rfl
        | succ i =>
          rw [List.getElem?_cons_succ, hbytes i (by omega)]
          congr 2
          omega
      · intro he
        have hlast := hnul he
        rw [Nat.add_right_comm] at hlast
        exact hlast
      · intro he
        rw [hall he]

/-- What `copyinstr` stored: bytes of user pages, ending in their first NUL, or without one up to
`max` or to a page that is not there. -/
structure StringCopy (pt : PageTable) (srcva max : Nat) (bs : List Byte) (gotNull : Bool) : Prop where
  within : bs.length ≤ max
  bytes : ∀ i, i < bs.length → userByte pt (srcva + i) = bs[i]?
  ended : gotNull = true → ∃ s, bs = s ++ [0] ∧ 0 ∉ s
  cut : gotNull = false → 0 ∉ bs ∧ (bs.length = max ∨ userByte pt (srcva + bs.length) = none)

theorem userByte_page {pt : PageTable} (h : Xv6Filter.walkaddr pt (v * pgsize) = some frame) (ho : o < pgsize) :
    userByte pt (v * pgsize + o) = some (frame o) := by
  have hlow : v * pgsize < maxva := by
    by_contra hge
    rw [Xv6Filter.walkaddr, if_pos (Nat.not_lt.mp hge)] at h
    cases h
  have hmax : ¬v * pgsize + o ≥ maxva := by
    simp only [maxva, pgsize] at *
    omega
  have hpage : Xv6Filter.walkaddr pt (v * pgsize + o) = Xv6Filter.walkaddr pt (v * pgsize) := by
    have hfirst : ¬v * pgsize ≥ maxva := Nat.not_le.mpr hlow
    have hdiv : (v * pgsize + o) / pgsize = v := vpn_add ho
    have hdiv' : v * pgsize / pgsize = v := vpn_page v
    simp only [Xv6Filter.walkaddr, if_neg hmax, if_neg hfirst, hdiv, hdiv']
  rw [userByte, hpage, h, mod_add ho]
  rfl

theorem userByte_beyond {pt : PageTable} (h : Xv6Filter.walkaddr pt (vpn va * pgsize) = none) : userByte pt va = none := by
  have hpage : Xv6Filter.walkaddr pt va = none := by
    simp only [Xv6Filter.walkaddr] at h ⊢
    split
    · rfl
    · rename_i hlow
      have hfirst : ¬vpn va * pgsize ≥ maxva := fun hge => hlow (Nat.le_trans hge (Nat.div_mul_le_self ..))
      have hdiv : vpn va * pgsize / pgsize = va / pgsize := vpn_page _
      rw [if_neg hfirst, hdiv] at h
      exact h
  rw [userByte, hpage]
  rfl

theorem StringCopy.cons {pt : PageTable} {max : Nat} (hpage : Xv6Filter.walkaddr pt (vpn srcva * pgsize) = some frame)
    (hk : k = min (pgsize - srcva % pgsize) max) (hs : copyPage frame (srcva % pgsize) k = (s, false))
    (h : StringCopy pt (vpn srcva * pgsize + pgsize) (max - k) rest gotNull) :
    StringCopy pt srcva max (s ++ rest) gotNull := by
  have hmod := mod_lt_page srcva
  obtain ⟨hbytes, -, hall⟩ := copyPage_bytes frame (srcva % pgsize) k
  obtain ⟨hzero, -, -⟩ := copyPage_string frame (srcva % pgsize) k
  rw [hs] at hbytes hall hzero
  dsimp only at hbytes hall hzero
  have hlength := hall rfl
  have hwithin := h.within
  have hnext : 0 < max - k → ∀ i, srcva + (k + i) = vpn srcva * pgsize + pgsize + i := by
    have := split_address srcva
    omega
  refine ⟨?_, ?_, ?_, ?_⟩
  · rw [List.length_append]
    omega
  · intro i hi
    rw [List.length_append] at hi
    by_cases hin : i < k
    · have hat : srcva + i = vpn srcva * pgsize + (srcva % pgsize + i) := by
        have := split_address srcva
        omega
      rw [List.getElem?_append_left (by omega), hbytes i (by omega), hat]
      exact userByte_page hpage (by omega)
    · obtain ⟨j, rfl⟩ := Nat.exists_eq_add_of_le (Nat.not_lt.mp hin)
      rw [List.getElem?_append_right (by omega), hnext (by omega), hlength, Nat.add_sub_cancel_left]
      exact h.bytes j (by omega)
  · intro hgot
    obtain ⟨t, rfl, ht⟩ := h.ended hgot
    exact ⟨s ++ t, (List.append_assoc ..).symm, by simp [hzero, ht]⟩
  · intro hgot
    obtain ⟨hrest, hend⟩ := h.cut hgot
    refine ⟨by simp [hzero, hrest], ?_⟩
    rw [List.length_append, hlength]
    rcases hend with hfull | hnone
    · left
      omega
    · by_cases hmore : 0 < max - k
      · right
        rw [hnext hmore]
        exact hnone
      · left
        omega

theorem copyinstrStores_copy (pt : PageTable) {max rounds : Nat} (hr : max ≤ rounds) (srcva : Nat) :
    StringCopy pt srcva max (copyinstrStores pt rounds srcva max).1 (copyinstrStores pt rounds srcva max).2 := by
  induction rounds generalizing srcva max with
  | zero => exact ⟨Nat.zero_le _, by simp [copyinstrStores], by simp [copyinstrStores], by simp [copyinstrStores]; omega⟩
  | succ rounds ih =>
    have hoff : srcva - srcva / pgsize * pgsize = srcva % pgsize := sub_page srcva
    simp only [copyinstrStores, hoff]
    split
    · rename_i hzero
      exact ⟨Nat.zero_le _, by simp, by simp, by simp [hzero]⟩
    · rename_i hmax
      split
      · rename_i hnone
        exact ⟨Nat.zero_le _, by simp, by simp, fun _ => ⟨by simp, .inr (userByte_beyond hnone)⟩⟩
      · rename_i frame hpage
        have hmod := mod_lt_page srcva
        split
        · rename_i s hs
          obtain ⟨hbytes, hnul, -⟩ := copyPage_bytes frame (srcva % pgsize) (min (pgsize - srcva % pgsize) max)
          obtain ⟨hzero, -, hlt⟩ := copyPage_string frame (srcva % pgsize) (min (pgsize - srcva % pgsize) max)
          rw [hs] at hbytes hnul hzero hlt
          dsimp only at hbytes hnul hzero hlt
          have hlt := hlt rfl
          refine ⟨by rw [List.length_append, List.length_singleton]; omega, ?_, fun _ => ⟨s, rfl, hzero⟩, by simp⟩
          intro i hi
          rw [List.length_append, List.length_singleton] at hi
          have hat : srcva + i = vpn srcva * pgsize + (srcva % pgsize + i) := by
            have := split_address srcva
            omega
          rw [hat, userByte_page hpage (by omega)]
          by_cases hin : i < s.length
          · rw [List.getElem?_append_left hin, hbytes i hin]
          · have he : i = s.length := by omega
            subst he
            rw [List.getElem?_concat_length, hnul rfl]
        · rename_i s hs
          exact StringCopy.cons hpage rfl hs (ih (by omega) _)

theorem copyinstrLoop_stores (pt : PageTable) (rounds srcva max : Nat) :
    (copyinstrLoop pt rounds srcva max).map (· ++ [0]) =
      if (copyinstrStores pt rounds srcva max).2 then some (copyinstrStores pt rounds srcva max).1 else none := by
  induction rounds generalizing srcva max with
  | zero => rfl
  | succ rounds ih =>
    simp only [copyinstrLoop, copyinstrStores]
    split
    · rfl
    · split
      · rfl
      · split
        · rfl
        · have hrest := ih (srcva / pgsize * pgsize + pgsize)
            (max - min (pgsize - (srcva - srcva / pgsize * pgsize)) max)
          split at hrest
          · rename_i hgot
            obtain ⟨t, ht, he⟩ := Option.map_eq_some_iff.mp hrest
            simp [ht, hgot, ← he]
          · rename_i hgot
            simp [Option.map_eq_none_iff.mp hrest, hgot]

/-- A string copy got a NUL when there is one within `max` bytes, all in user pages up to it. -/
theorem StringCopy.gotNull_iff {max : Nat} (h : StringCopy pt srcva max bs gotNull) :
    gotNull = true ↔ ∃ k, k < max ∧ userByte pt (srcva + k) = some 0 ∧ ∀ j, j < k → (userByte pt (srcva + j)).isSome := by
  have hwithin := h.within
  constructor
  · intro hgot
    obtain ⟨s, rfl, -⟩ := h.ended hgot
    rw [List.length_append, List.length_singleton] at hwithin
    have hlength : s.length < (s ++ [0]).length := by simp
    refine ⟨s.length, hwithin, ?_, ?_⟩
    · rw [h.bytes _ hlength, List.getElem?_concat_length]
    · intro j hj
      rw [h.bytes j (Nat.lt_trans hj hlength), List.getElem?_append_left hj, List.getElem?_eq_getElem hj]
      rfl
  · rintro ⟨k, hk, hzero, hall⟩
    cases gotNull with
    | true => rfl
    | false =>
      obtain ⟨hno, hend⟩ := h.cut rfl
      by_cases hin : k < bs.length
      · rw [h.bytes k hin] at hzero
        exact absurd (List.mem_of_getElem? hzero) hno
      · rcases hend with hfull | hnone
        · omega
        · rcases Nat.lt_or_eq_of_le (Nat.not_lt.mp hin) with hlt | he
          · have hthere := hall _ hlt
            rw [hnone] at hthere
            cases hthere
          · rw [he, hzero] at hnone
            cases hnone

/-- `copyout` to another table than the process's own, which has the pages below the process's
size: it writes as if that table were the process's. -/
theorem copyoutLoop_foreign {m : Ram} {p : Space} {pt : Table} {dstva : Nat} {src : List Byte}
    (hthere : ∀ v ∈ pagesOf dstva src.length, v * pgsize < p.sz → (pt.leaf (v * pgsize)).isSome)
    (h : Ram.copyoutLoop none n m ⟨pt, 0⟩ dstva src = .ok (ok, m', p')) :
    p' = ⟨pt, 0⟩ ∧ Ram.copyoutLoop (some pt) n m p dstva src = .ok (ok, m', p) := by
  induction n generalizing m dstva src with
  | zero =>
    cases h
    exact ⟨rfl, rfl⟩
  | succ n ih =>
    unfold Ram.copyoutLoop at h ⊢
    by_cases hlen : src.length = 0
    · rw [if_pos hlen] at h ⊢
      cases h
      exact ⟨rfl, rfl⟩
    · obtain ⟨hpages, -⟩ := pagesOf_step dstva (Nat.pos_of_ne_zero hlen) rfl
      rw [if_neg hlen] at h ⊢
      dsimp only at h ⊢
      rw [pgrounddown_eq, sub_page] at h ⊢
      by_cases hmax : maxva ≤ vpn dstva * pgsize
      · rw [if_pos hmax] at h ⊢
        cases h
        exact ⟨rfl, rfl⟩
      · rw [if_neg hmax] at h ⊢
        simp only [Ram.userPage, Option.getD_some, Option.getD_none] at h ⊢
        cases hw : pt.walkaddr (vpn dstva * pgsize) with
        | none =>
          have hnone : m.vmfault p pt (vpn dstva * pgsize) = .ok (none, m, p) := by
            unfold Ram.vmfault
            split
            · rfl
            · rename_i hsz
              have hmapped := hthere (vpn dstva) (by rw [hpages]; exact Finset.mem_insert_self _ _) (Nat.not_le.mp hsz)
              dsimp only
              rw [pgrounddown_eq, vpn_page, Table.ismapped_eq (Nat.not_le.mp hmax), hmapped]
              rfl
          have hempty : m.vmfault ⟨pt, 0⟩ pt (vpn dstva * pgsize) = .ok (none, m, ⟨pt, 0⟩) := by
            unfold Ram.vmfault
            rw [if_pos (Nat.zero_le _)]
          rw [hw] at h
          dsimp only at h ⊢
          rw [hempty] at h
          rw [hnone]
          cases h
          exact ⟨rfl, rfl⟩
        | some f =>
          rw [hw] at h
          dsimp only at h ⊢
          rw [ok_bind] at h ⊢
          dsimp only at h ⊢
          rw [Table.walk_eq (Nat.not_le.mp hmax), ok_bind] at h ⊢
          cases hnode : pt.node (vpn dstva * pgsize) with
          | none =>
            rw [hnode] at h
            cases h
          | some n0 =>
            rw [hnode] at h
            simp only [Option.map_some] at h ⊢
            split at h
            · rename_i hw
              rw [if_pos hw]
              cases h
              exact ⟨rfl, rfl⟩
            · rename_i hw
              rw [if_neg hw]
              refine ih ?_ h
              intro v hv
              rw [List.length_drop] at hv
              exact hthere v (by rw [hpages]; exact Finset.mem_insert_of_mem hv)

/-- What `copyin` did for the process: it has read the bytes that a user sees from `srcva` on. -/
structure ReadExact (m : Ram) (p : Space) (srcva len : Nat) (bs : List Byte) (ok : Bool) (m' : Ram) : Prop where
  succeeds : ok = true ↔ (∀ v ∈ pagesOf srcva len, (m.seen p v).isSome) ∧
    p.pagetable.faultCost (pagesOf srcva len) ≤ m.free.length
  whole : ok = true → bs.length = len
  within : bs.length ≤ len
  bytes : ∀ i, i < bs.length → Seen.byte (m.seen p) (srcva + i) = bs[i]?
  data : ∀ f, f ∉ m.free → m'.data f = m.data f

/-- What `copyout` did: the bytes of `src`, or the first `k` of them, are what a user sees from
`dstva` on. Only pages that the user may write are written. -/
structure WrittenExact (m : Ram) (p : Space) (dstva : Nat) (src : List Byte) (ok : Bool) (m' : Ram) (p' : Space) :
    Prop where
  succeeds : ok = true ↔ (∀ v ∈ pagesOf dstva src.length, ∃ page, m.seen p v = some page ∧ page.1.w = true) ∧
    p.pagetable.faultCost (pagesOf dstva src.length) ≤ m.free.length
  stored : ∃ k, k ≤ src.length ∧ (ok = true → k = src.length) ∧ ∀ a, Seen.byte (m'.seen p') a =
    if dstva ≤ a ∧ a < dstva + k then src[a - dstva]? else Seen.byte (m.seen p) a
  data : ∀ f, f ∉ m.free → (∀ v ∈ pagesOf dstva src.length, ∀ l, v * pgsize < maxva →
    p.pagetable.leaf (v * pgsize) = some l → l.perm.u = true → l.perm.w = true → l.frame ≠ f) → m'.data f = m.data f

structure StringExact (pt : PageTable) (srcva max : Nat) (bs : List Byte) (result : Option (List Byte)) : Prop where
  within : bs.length ≤ max
  bytes : ∀ i, i < bs.length → userByte pt (srcva + i) = bs[i]?
  succeeds : result.isSome ↔ ∃ k, k < max ∧ userByte pt (srcva + k) = some 0 ∧
    ∀ j, j < k → (userByte pt (srcva + j)).isSome
  whole : ∀ s, result = some s → bs = s ++ [0] ∧ 0 ∉ s

/-- The copies between the kernel and the memory of a process, or a table that `exec` builds. -/
structure CopiesExact (m : Ram) (p : Space) : Prop where
  copyin : ∀ srcva len, Runs (m.copyin p srcva len) fun (bs, ok, m', _) => ReadExact m p srcva len bs ok m'
  copyout : ∀ dstva src, Runs (m.copyout p none dstva src) fun (ok, m', p') => WrittenExact m p dstva src ok m' p'
  foreign : ∀ pt dstva src, Guarded m ⟨pt, 0⟩ →
    (∀ v ∈ pagesOf dstva src.length, v * pgsize < p.sz → (pt.leaf (v * pgsize)).isSome) →
      Runs (m.copyout p (some pt) dstva src) fun (ok, m', p') => p' = p ∧ WrittenExact m ⟨pt, 0⟩ dstva src ok m' ⟨pt, 0⟩
  copyinstr : ∀ srcva max, StringExact (m.view p.pagetable) srcva max
    (copyinstrStores (m.view p.pagetable) max srcva max).1 (m.fetchstr p srcva max)

theorem CopiedOut.exactly (h : CopiedOut m p dstva src ok m' p') : WrittenExact m p dstva src ok m' p' := by
  obtain ⟨k, hk, hstore, hall⟩ := h.stored
  refine ⟨h.exact, ⟨k, hk, hall, ?_⟩, h.data⟩
  intro a
  rw [Seen.byte_store hstore, List.length_take, Nat.min_eq_left hk]
  split
  · rename_i hin
    rw [List.getElem?_take_of_lt (by omega)]
  · rfl

theorem fetchstr_exact (m : Ram) (p : Space) (srcva max : Nat) : StringExact (m.view p.pagetable) srcva max
    (copyinstrStores (m.view p.pagetable) max srcva max).1 (m.fetchstr p srcva max) := by
  have hcopy := copyinstrStores_copy (m.view p.pagetable) (Nat.le_refl max) srcva
  have hstores := copyinstrLoop_stores (m.view p.pagetable) max srcva max
  have hgot : (m.fetchstr p srcva max).isSome = (copyinstrStores (m.view p.pagetable) max srcva max).2 := by
    have hsome := congrArg Option.isSome hstores
    rw [Option.isSome_map] at hsome
    rw [Ram.fetchstr, Xv6Filter.copyinstr, hsome]
    cases (copyinstrStores (m.view p.pagetable) max srcva max).2 <;> rfl
  refine ⟨hcopy.within, hcopy.bytes, by rw [hgot]; exact hcopy.gotNull_iff, ?_⟩
  intro s hs
  have hs' : copyinstrLoop (m.view p.pagetable) max srcva max = some s := hs
  rw [hs, Option.isSome_some] at hgot
  rw [hs', ← hgot, if_pos rfl] at hstores
  exact ⟨(Option.some.inj hstores).symm, (copyinstrLoop_string _ _ _ _ _ hs').1⟩

/-- User-memory copies are exact and confined. -/
theorem user_copies_exact (hg : Guarded m p) : CopiesExact m p := by
  refine ⟨?_, ?_, ?_, fetchstr_exact m p⟩
  · intro srcva len
    refine (copyin_runs hg srcva len).imp ?_
    rintro ⟨bs, ok, m', p'⟩ h
    exact ⟨h.exact, h.whole, h.within, h.bytes, h.data⟩
  · intro dstva src
    exact (copyout_runs hg dstva src).imp fun _ h => h.exactly
  · intro pt dstva src hpt hthere
    obtain ⟨⟨ok, m', p'⟩, hrun, hout⟩ := (copyout_runs hpt dstva src).result
    obtain ⟨rfl, hforeign⟩ := copyoutLoop_foreign hthere hrun
    rw [Ram.copyout, hforeign]
    exact ⟨rfl, hout.exactly⟩

/-- After a lazy growth of two pages and a fault of one of them, on a machine with 200 free frames. -/
theorem user_copies_exact_lazy : ∃ s0 s p, System.boot 32568 0x80000 1 = some s0 ∧
    Run System.step anyEvent s0 [.sbrk 0 8192 2, .pageFault 0 4096] s ∧ s.space 0 = some p ∧ CopiesExact s.ram p := by
  have hrun : ((System.boot 32568 0x80000 1).bind fun s0 => replay System.step anyEvent
      [.sbrk 0 8192 2, .pageFault 0 4096] s0).any (fun s => (s.space 0).isSome) = true := by
    decide +kernel
  obtain ⟨s, hs, hspace⟩ := (Option.any_eq_true ..).mp hrun
  obtain ⟨s0, hb, hr⟩ := Option.bind_eq_some_iff.mp hs
  obtain ⟨p, hp⟩ := Option.isSome_iff_exists.mp hspace
  obtain ⟨tf, -, -, -, hf⟩ := (run_owned hb (replay_run hr)).fit hp
  exact ⟨s0, s, p, hb, replay_run hr, hp, user_copies_exact hf.guarded⟩

/-- The table of a child after `uvmcopy`: as the parent's table, each page in a frame of its own. -/
def SpaceCopy (m : Ram) (old : Table) (sz : Nat) (m' : Ram) (new : Table) : Prop :=
  ∀ va, va < sz → match old.leaf va with
    | none => new.leaf va = none
    | some l => ∃ l', new.leaf va = some l' ∧ l'.perm = l.perm ∧ m'.data l'.frame = m.data l.frame ∧
        ∀ va' l2, vpn va' < trapframeVpn → old.leaf va' = some l2 → l'.frame ≠ l2.frame

/-- `fork` copies the address space: `uvmcopy` to a table without user pages gives a copy of every
page below the size, or unmaps what it copied; the parent keeps its bytes. -/
theorem uvmcopy_copies {m : Ram} {old new : Table} {sz : Nat} (hs : Sound m new) (hsz : sz ≤ trapframeVa)
    (hfresh : ∀ va, vpn va < trapframeVpn → new.leaf va = none)
    (hother : ∀ va l, vpn va < trapframeVpn → old.leaf va = some l → l.frame ∉ m.free) :
    Runs (m.uvmcopy old new sz) fun (ok, m', new') =>
      (ok = true → SpaceCopy m old sz m' new') ∧ (ok = false → ∀ va, va < sz → new'.leaf va = none) ∧
        ∀ va l, vpn va < trapframeVpn → old.leaf va = some l → m'.data l.frame = m.data l.frame := by
  have hlow {va : Nat} (hva : va < sz) : vpn va < pages sz ∧ vpn va < trapframeVpn :=
    ⟨vpn_lt_of_lt_sz hva, Nat.lt_of_lt_of_le (vpn_lt_of_lt_sz hva) (pages_le hsz)⟩
  refine (uvmcopy_runs hs hsz hfresh hother).imp ?_
  rintro ⟨ok, m', new'⟩ (⟨hok, hcopied⟩ | ⟨hok, hrestored⟩)
  · dsimp only at hok hcopied
    subst hok
    refine ⟨fun _ => ?_, by simp, fun va l hv hl => hcopied.took.data _ (hother va l hv hl)⟩
    intro va hva
    have hcopy := hcopied.copy va (hlow hva).1
    simp only [CopyOf] at hcopy
    split
    · rename_i hnone
      rw [hnone] at hcopy
      exact hcopy
    · rename_i l hl
      rw [hl] at hcopy
      obtain ⟨l', hl', hperm, hfree, -, hdata⟩ := hcopy
      refine ⟨l', hl', hperm, hdata, ?_⟩
      intro va' l2 hv' hl2 he
      rw [he] at hfree
      exact hother va' l2 hv' hl2 hfree
  · dsimp only at hok hrestored
    subst hok
    refine ⟨by simp, fun _ va hva => ?_, fun va l hv hl => hrestored.data _ (hother va l hv hl)⟩
    have hv : vpn va < 2 ^ 27 := Nat.lt_trans (hlow hva).2 (by decide)
    rw [hrestored.leaf va hv]
    exact hfresh va (hlow hva).2

/-- A copy of the first process after it grew by two pages lazily and touched the second. -/
theorem uvmcopy_copies_lazy : ∃ s0 s p new m, System.boot 32568 0x80000 1 = some s0 ∧
    Run System.step anyEvent s0 [.sbrk 0 8192 2, .pageFault 0 4096] s ∧ s.space 0 = some p ∧
      s.ram.uvmcreate = some (new, m) ∧ Runs (m.uvmcopy p.pagetable new p.sz) fun (ok, m', new') =>
        (ok = true → SpaceCopy m p.pagetable p.sz m' new') ∧ (ok = false → ∀ va, va < p.sz → new'.leaf va = none) ∧
          ∀ va l, vpn va < trapframeVpn → p.pagetable.leaf va = some l → m'.data l.frame = m.data l.frame := by
  have hrun : ((System.boot 32568 0x80000 1).bind fun s0 => replay System.step anyEvent
      [.sbrk 0 8192 2, .pageFault 0 4096] s0).any (fun s => (s.space 0).isSome && s.ram.uvmcreate.isSome) = true := by
    decide +kernel
  obtain ⟨s, hs, hspace⟩ := (Option.any_eq_true ..).mp hrun
  rw [Bool.and_eq_true] at hspace
  obtain ⟨s0, hb, hr⟩ := Option.bind_eq_some_iff.mp hs
  obtain ⟨p, hp⟩ := Option.isSome_iff_exists.mp hspace.1
  obtain ⟨⟨new, m⟩, hnew⟩ := Option.isSome_iff_exists.mp hspace.2
  obtain ⟨tf, -, -, -, hf⟩ := (run_owned hb (replay_run hr)).fit hp
  obtain ⟨htook, hheld, hfresh, -, -⟩ := uvmcreate_some hnew
  refine ⟨s0, s, p, new, m, hb, replay_run hr, hp, hnew,
    uvmcopy_copies (hf.sound.clean.sound htook.first hheld) hf.size (fun va _ => hfresh va) ?_⟩
  intro va l hv hl hin
  exact hf.sound.leaf_not_free hl hv (htook.mem hin)

end Xv6Filter.Paging
