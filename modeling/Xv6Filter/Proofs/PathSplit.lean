import Xv6Filter.Fs.Paths
import Xv6Filter.Lib.Result
import Mathlib.Data.List.Forall2
import Mathlib.Data.List.TakeWhile

namespace Xv6Filter.Paths
open Lib Fs Function

def components (path : List Byte) : List (List Byte) := (path.splitOn slash).filter (· ≠ [])

theorem components_slash (path : List Byte) : components (slash :: path) = components path := by
  have h := List.splitOnP_append_cons (p := fun b => b == slash) [] path (beq_self_eq_true slash)
  rw [List.nil_append] at h
  rw [components, List.splitOn, h]
  simp [components, List.splitOn]

theorem components_dropSlashes (path : List Byte) : components (path.dropWhile (· = slash)) = components path := by
  induction path with
  | nil => rfl
  | cons b path ih =>
    by_cases hb : b = slash
    · rw [List.dropWhile_cons_of_pos (by simpa using hb), ih, hb, components_slash]
    · rw [List.dropWhile_cons_of_neg (by simpa using hb)]

theorem components_nil : components [] = [] := by simp [components]

theorem components_word {w : List Byte} (hw : slash ∉ w) (hne : w ≠ []) (hrest : rest = [] ∨ rest.head? = some slash) :
    components (w ++ rest) = w :: components rest := by
  have hone : w.splitOnP (fun b => b == slash) = [w] := List.splitOn_eq_singleton hw
  rcases hrest with rfl | hr
  · simp [components, List.splitOn, hone, hne]
  · obtain ⟨rest, rfl⟩ : ∃ l, rest = slash :: l := by
      cases rest with
      | nil => cases hr
      | cons b rest => exact ⟨rest, by simpa using hr⟩
    have h := List.splitOnP_append_cons (p := fun b => b == slash) w rest (beq_self_eq_true slash)
    rw [components_slash, components, List.splitOn, h, hone]
    simp [components, List.splitOn, hne]

section Loops

variable (s : CString)

theorem drop_eq_cons (h : i < s.bytes.length) : s.bytes.drop i = s.at i :: s.bytes.drop (i + 1) := by
  rw [List.drop_eq_getElem_cons h]
  simp [CString.at, h]

theorem at_eq_zero : s.at i = 0 ↔ s.bytes.drop i = [] := by
  constructor
  · intro h
    by_contra hd
    have hi : i < s.bytes.length := by simpa using hd
    have hmem : s.bytes[i] ∈ s.bytes := List.getElem_mem hi
    have hat : s.at i = s.bytes[i] := by simp [CString.at, hi]
    rw [← hat, h] at hmem
    exact s.noNul hmem
  · intro h
    have hi : s.bytes.length ≤ i := by simpa using h
    simp [CString.at, List.getElem?_eq_none hi]

theorem drop_skipSlashes (i : Nat) :
    s.bytes.drop (skipSlashes s i) = (s.bytes.drop i).dropWhile (· = slash) := by
  fun_induction skipSlashes s i with
  | case1 i hs ih =>
    have hi : i < s.bytes.length := CString.lt_of_at (by simp [hs, slash])
    rw [ih, drop_eq_cons s hi, List.dropWhile_cons_of_pos (by simpa using hs)]
  | case2 i hs =>
    by_cases h0 : s.at i = 0
    · rw [(at_eq_zero s).mp h0]
      rfl
    · rw [drop_eq_cons s (CString.lt_of_at h0), List.dropWhile_cons_of_neg (by simpa using hs)]

theorem skipName_eq (i : Nat) :
    s.bytes.drop (skipName s i) = (s.bytes.drop i).dropWhile (· ≠ slash) ∧
      skipName s i = i + ((s.bytes.drop i).takeWhile (· ≠ slash)).length := by
  fun_induction skipName s i with
  | case1 i h ih =>
    rw [drop_eq_cons s (CString.lt_of_at h.2), List.dropWhile_cons_of_pos (by simpa using h.1),
      List.takeWhile_cons_of_pos (by simpa using h.1), List.length_cons]
    exact ⟨ih.1, by omega⟩
  | case2 i h =>
    by_cases h0 : s.at i = 0
    · rw [(at_eq_zero s).mp h0]
      exact ⟨rfl, rfl⟩
    · have hs : s.at i = slash := by
        by_contra hs
        exact h ⟨hs, h0⟩
      rw [drop_eq_cons s (CString.lt_of_at h0), List.dropWhile_cons_of_neg (by simpa using hs),
        List.takeWhile_cons_of_neg (by simpa using hs)]
      exact ⟨rfl, rfl⟩

theorem slice_at (h : n ≤ (s.bytes.drop i).length) : slice s.at i n = (s.bytes.drop i).take n := by
  induction n generalizing i with
  | zero => rfl
  | succ n ih =>
    have hi : i < s.bytes.length := by
      rw [List.length_drop] at h
      omega
    rw [drop_eq_cons s hi, List.length_cons] at h
    rw [Nat.add_comm n 1, slice_add, ih (by omega), drop_eq_cons s hi, Nat.add_comm 1 n, List.take_succ_cons]
    rfl

end Loops

/-- The buffer has the component `c`, cut to `dirsiz` bytes and with a NUL behind it when it is
shorter; what stands behind the buffer is as in `name`. -/
structure Named (name : Nat → Byte) (buf : Nat → Byte) (c : List Byte) : Prop where
  cut : slice buf 0 (min c.length dirsiz) = c.take dirsiz
  nul : c.length < dirsiz → buf c.length = 0
  inside : ∀ i, dirsiz ≤ i → buf i = name i

/-- The stores of `skipelem` into the buffer, when `c` stands at `start`. -/
theorem named_store (name : Nat → Byte) {src : Nat → Byte} (hsrc : slice src start c.length = c) :
    Named name (if c.length ≥ dirsiz then splice name 0 (slice src start dirsiz)
      else update (splice name 0 (slice src start c.length)) c.length 0) c := by
  by_cases hc : c.length ≥ dirsiz
  · have hcut : slice src start dirsiz = c.take dirsiz := by
      rw [← hsrc, ← Nat.add_sub_of_le hc, slice_add, List.take_left' (length_slice ..)]
    have hlen : (c.take dirsiz).length = dirsiz := List.length_take_of_le hc
    rw [if_pos hc, hcut]
    refine ⟨?_, fun h => absurd h (Nat.not_lt.mpr hc), fun i hi => splice_after _ _ (by omega)⟩
    have h := slice_splice name 0 (c.take dirsiz)
    rw [hlen] at h
    rw [Nat.min_eq_right hc, h]
  · have hlt : c.length < dirsiz := Nat.lt_of_not_le hc
    rw [if_neg hc, hsrc]
    refine ⟨?_, fun _ => update_self .., fun i hi => ?_⟩
    · rw [Nat.min_eq_left (Nat.le_of_lt hlt), List.take_of_length_le (Nat.le_of_lt hlt)]
      have hkeep : slice (update (splice name 0 c) c.length 0) 0 c.length =
          slice (splice name 0 c) 0 c.length := by
        refine slice_congr fun k hk => ?_
        rw [Nat.zero_add, update_of_ne (Nat.ne_of_lt hk)]
      rw [hkeep, slice_splice]
    · rw [update_of_ne (by omega), splice_after _ _ (by omega)]

theorem Named.outside (h : Named name buf c) (hn : ∀ i, dirsiz ≤ i → name i = name' i) : Named name' buf c :=
  ⟨h.cut, h.nul, fun i hi => (h.inside i hi).trans (hn i hi)⟩

theorem Named.nameOf (h : Named name buf c) (h0 : 0 ∉ c) : nameOf buf = c.take dirsiz := by
  have ht : Text buf 0 (c.take dirsiz) := by
    rw [← h.cut]
    exact text_slice buf 0 _
  have h0' : 0 ∉ c.take dirsiz := fun hmem => h0 (List.mem_of_mem_take hmem)
  by_cases hc : c.length < dirsiz
  · have htake : c.take dirsiz = c := List.take_of_length_le (Nat.le_of_lt hc)
    rw [htake] at ht ⊢
    refine stringAt_eq ht h0 ?_ hc
    rw [Nat.zero_add]
    exact h.nul hc
  · have hlen : (c.take dirsiz).length = dirsiz := List.length_take_of_le (Nat.le_of_not_lt hc)
    have hfull := stringAt_full ht h0'
    rwa [hlen] at hfull

theorem skipelem_none {s : CString} (h : (s.bytes.drop path).dropWhile (· = slash) = []) (name : Nat → Byte) :
    skipelem s path name = (none, name) := by
  rw [← drop_skipSlashes] at h
  simp only [skipelem, (at_eq_zero s).mpr h, ↓reduceIte]

theorem skipelem_some {s : CString} (h : (s.bytes.drop path).dropWhile (· = slash) = w) (hne : w ≠ [])
    (name : Nat → Byte) :
    ∃ rest buf, skipelem s path name = (some rest, buf) ∧ Named name buf (w.takeWhile (· ≠ slash)) ∧
      s.bytes.drop rest = (w.dropWhile (· ≠ slash)).dropWhile (· = slash) ∧ s.at rest ≠ slash := by
  rw [← drop_skipSlashes] at h
  have h0 : s.at (skipSlashes s path) ≠ 0 := by
    rw [Ne, at_eq_zero, h]
    exact hne
  obtain ⟨hdrop, hlen⟩ := skipName_eq s (skipSlashes s path)
  rw [h] at hdrop hlen
  have hsub : skipName s (skipSlashes s path) - skipSlashes s path = (w.takeWhile (· ≠ slash)).length := by omega
  have hpre : w.takeWhile (· ≠ slash) <+: w := List.takeWhile_prefix _
  have hsrc : slice s.at (skipSlashes s path) (w.takeWhile (· ≠ slash)).length = w.takeWhile (· ≠ slash) := by
    rw [slice_at s (by rw [h]; exact hpre.length_le), h]
    exact (List.prefix_iff_eq_take.mp hpre).symm
  simp only [skipelem, h0, ↓reduceIte, hsub]
  refine ⟨_, _, rfl, ?_, ?_, at_skipSlashes s _⟩
  · exact named_store name hsrc
  · rw [drop_skipSlashes, hdrop]

theorem first_ne_nil {path : List Byte} (h : path.dropWhile (· = slash) = w) (hne : w ≠ []) : w.takeWhile (· ≠ slash) ≠ [] := by
  have hfirst := List.head?_dropWhile_not (fun b => decide (b = slash)) path
  rw [h] at hfirst
  cases w with
  | nil => exact absurd rfl hne
  | cons b v =>
    rw [List.takeWhile_cons_of_pos (by simpa using hfirst)]
    exact List.cons_ne_nil _ _

/-- What the first element of a path is, in terms of its components. -/
theorem components_first (h : path.dropWhile (· = slash) = w) (hne : w ≠ []) :
    components path = w.takeWhile (· ≠ slash) :: components ((w.dropWhile (· ≠ slash)).dropWhile (· = slash)) := by
  rw [components_dropSlashes, ← components_dropSlashes path, h]
  have hword := (components_word ?_ ?_ ?_ : components (w.takeWhile (· ≠ slash) ++ w.dropWhile (· ≠ slash)) = _)
  · rwa [List.takeWhile_append_dropWhile] at hword
  · intro hmem
    simpa using List.mem_takeWhile_imp hmem
  · exact first_ne_nil h hne
  · have hstop := List.head?_dropWhile_not (fun b => decide (b ≠ slash)) w
    cases hd : w.dropWhile (fun b => decide (b ≠ slash)) with
    | nil => exact .inl rfl
    | cons b v =>
      rw [hd] at hstop
      exact .inr (by simpa using hstop)

theorem components_eq_nil (h : path.head? ≠ some slash) : components path = [] ↔ path = [] := by
  constructor
  · intro hc
    cases path with
    | nil => rfl
    | cons b path =>
      have hw : (b :: path).dropWhile (· = slash) = b :: path :=
        List.dropWhile_cons_of_neg (by simpa using h)
      rw [components_first hw (List.cons_ne_nil _ _)] at hc
      cases hc
  · rintro rfl
    exact components_nil

structure Splits (s : CString) (name : Nat → Byte) (rs : List (Nat × (Nat → Byte))) (cs : List (List Byte)) : Prop where
  names : List.Forall₂ (fun r c => Named name r.2 c) rs cs
  start : ∀ r ∈ rs, s.at r.1 ≠ slash
  last : ∀ i r, rs[i]? = some r → (s.at r.1 = 0 ↔ i + 1 = rs.length)

theorem elements_splits (s : CString) (path : Nat) (name : Nat → Byte) :
    Splits s name (elements s path name) (components (s.bytes.drop path)) := by
  fun_induction elements s path name with
  | case1 path name buf hnone =>
    have hall : (s.bytes.drop path).dropWhile (· = slash) = [] := by
      by_contra hne
      obtain ⟨rest, buf', hsome, -⟩ := skipelem_some rfl hne name
      rw [hnone] at hsome
      cases hsome
    rw [← components_dropSlashes, hall, components_nil]
    exact ⟨.nil, by simp, by simp⟩
  | case2 path name rest buf hsome ih =>
    have hne : (s.bytes.drop path).dropWhile (· = slash) ≠ [] := by
      intro hall
      rw [skipelem_none hall] at hsome
      cases hsome
    obtain ⟨rest', buf', hsome', hnamed, hrest, hstart⟩ := skipelem_some rfl hne name
    obtain ⟨hr, rfl⟩ := Prod.mk.inj (hsome.symm.trans hsome')
    obtain rfl := Option.some.inj hr
    rw [components_first rfl hne, ← hrest]
    have hlen := ih.names.length_eq
    refine ⟨.cons hnamed (ih.names.imp fun r c hc => hc.outside hnamed.inside), ?_, ?_⟩
    · exact List.forall_mem_cons.mpr ⟨hstart, ih.start⟩
    · intro i r hi
      cases i with
      | zero =>
        cases hi
        have hhead : (s.bytes.drop rest).head? ≠ some slash := by
          intro hh
          rw [List.head?_drop] at hh
          exact hstart (by simp [CString.at, hh])
        rw [at_eq_zero, ← components_eq_nil hhead, List.length_cons, hlen, ← List.length_eq_zero_iff]
        omega
      | succ i =>
        rw [ih.last i r hi, List.length_cons]
        omega

/-- What a caller of `namex` sees: the inode, with the name if the walk was to stop early. -/
def view (parent : Bool) (r : Option Ip × (Nat → Byte) × Fs) : Option (Ip × List Byte) × Fs :=
  (r.1.map fun ip => (ip, if parent then nameOf r.2.1 else []), r.2.2)

theorem skipelem_refines {s : CString} (h : skipelem s path name = (some rest, buf)) :
    Fs.skipelem (s.bytes.drop path) = some (nameOf buf, s.bytes.drop rest) := by
  have hne : (s.bytes.drop path).dropWhile (· = slash) ≠ [] := by
    intro hall
    rw [skipelem_none hall] at h
    cases h
  obtain ⟨rest', buf', h', hnamed, hrest, -⟩ := skipelem_some rfl hne name
  obtain ⟨hr, rfl⟩ := Prod.mk.inj (h.symm.trans h')
  obtain rfl := Option.some.inj hr
  have h0 : 0 ∉ ((s.bytes.drop path).dropWhile (· = slash)).takeWhile (· ≠ slash) := by
    intro hmem
    have hsub := (List.takeWhile_sublist _).mem hmem
    exact s.noNul (List.mem_of_mem_drop ((List.dropWhile_sublist _).mem hsub))
  rw [hnamed.nameOf h0, hrest]
  obtain ⟨b, v, hw⟩ := List.exists_cons_of_ne_nil hne
  rw [Fs.skipelem, hw]

theorem skipelem_refines_none {s : CString} (h : skipelem s path name = (none, buf)) :
    Fs.skipelem (s.bytes.drop path) = none := by
  have hall : (s.bytes.drop path).dropWhile (· = slash) = [] := by
    by_contra hne
    obtain ⟨rest, buf', hsome, -⟩ := skipelem_some rfl hne name
    rw [h] at hsome
    cases hsome
  rw [Fs.skipelem, hall]

theorem namexLoop_eq (parent : Bool) (s : CString) (fs : Fs) (ip : Ip) (path : Nat) (name : Nat → Byte)
    (hr : s.bytes.length - path < rounds) :
    view parent <$> namexLoop parent s fs ip path name = Fs.namexLoop parent rounds fs ip (s.bytes.drop path) := by
  induction rounds generalizing fs ip path name with
  | zero => omega
  | succ rounds ih =>
    rw [namexLoop, Fs.namexLoop]
    split
    · rename_i buf h
      rw [skipelem_refines_none h]
      cases parent with
      | true => simp [view]
      | false => rfl
    · rename_i rest buf h
      rw [skipelem_refines h]
      have hless := skipelem_shorter h
      simp only [map_bind, ← at_eq_zero]
      congr 1
      funext fs1
      split
      · simp [view]
      split
      · rename_i hp
        simp [view, hp.1]
      rw [map_bind]
      congr 1
      funext r
      obtain ⟨next, fs2⟩ := r
      simp only [map_bind]
      congr 1
      funext fs3
      cases next with
      | none => rfl
      | some next => exact ih _ _ _ _ (by omega)

/-- `namex` with pointers and a name buffer finds what `namex` on lists finds, and leaves its name. -/
theorem namex_eq (parent : Bool) (fs : Fs) (cwd : Option Ip) (s : CString) (name : Nat → Byte) :
    view parent <$> namex parent fs cwd s name = Fs.namex parent fs cwd s.bytes := by
  have hfirst : s.bytes.head? = some slash ↔ s.at 0 = slash := by
    cases hb : s.bytes with
    | nil => simp [CString.at, hb, slash]
    | cons b bs => simp [CString.at, hb]
  have hloop : ∀ ip fs, view parent <$> namexLoop parent s fs ip 0 name =
      Fs.namexLoop parent (s.bytes.length + 1) fs ip s.bytes :=
    fun ip fs => namexLoop_eq parent s fs ip 0 name (Nat.lt_succ_self _)
  unfold namex Fs.namex startOf
  by_cases hs : s.at 0 = slash
  · simp only [hs, hfirst, ↓reduceIte, map_bind, hloop]
  · cases cwd with
    | none =>
      simp only [hs, hfirst, ↓reduceIte]
      rfl
    | some cwd => simp only [hs, hfirst, ↓reduceIte, pure_bind, hloop]

def follow (fs : Fs) (ip : Ip) : List (List Byte) → Kern (Option Ip × Fs)
  | [] => pure (some ip, fs)
  | name :: names => do
    let fs ← fs.ilock ip
    if (fs.inode ip).din.type ≠ tDir then do
      let fs ← fs.iunlockput ip
      pure (none, fs)
    else do
      let (next, fs) ← fs.dirlookup ip name
      let fs ← fs.iunlockput ip
      match next with
      | none => pure (none, fs)
      | some (next, _) => follow fs next names

/-- Follow all names but the last and stop at the directory found, which is to hold the last one. -/
def parentOf (fs : Fs) (ip : Ip) (names : List (List Byte)) : Kern (Option (Ip × List Byte) × Fs) :=
  match names.getLast? with
  | none => do
    let fs ← fs.iput ip
    pure (none, fs)
  | some last => do
    let (dp, fs) ← follow fs ip names.dropLast
    match dp with
    | none => pure (none, fs)
    | some dp => do
      let fs ← fs.ilock dp
      if (fs.inode dp).din.type ≠ tDir then do
        let fs ← fs.iunlockput dp
        pure (none, fs)
      else do
        let fs ← fs.iunlock dp
        pure (some (dp, last), fs)

theorem parentOf_cons (hne : names ≠ []) : parentOf fs ip (name :: names) = (do
    let fs ← fs.ilock ip
    if (fs.inode ip).din.type ≠ tDir then do
      let fs ← fs.iunlockput ip
      pure (none, fs)
    else do
      let (next, fs) ← fs.dirlookup ip name
      let fs ← fs.iunlockput ip
      match next with
      | none => pure (none, fs)
      | some (next, _) => parentOf fs next names) := by
  obtain ⟨m, ms, rfl⟩ := List.exists_cons_of_ne_nil hne
  rw [parentOf, List.getLast?_cons_cons, List.dropLast_cons_cons, follow]
  obtain ⟨last, hlast⟩ : ∃ last, (m :: ms).getLast? = some last := ⟨_, List.getLast?_eq_some_getLast hne⟩
  rw [hlast]
  simp only [bind_assoc]
  congr 1
  funext fs1
  split
  · simp
  simp only [bind_assoc]
  congr 1
  funext ⟨next, fs2⟩
  congr 1
  funext fs3
  cases next with
  | none => simp
  | some next =>
    dsimp only
    rw [parentOf, hlast]

theorem skipelem_components (hne : path.dropWhile (· = slash) ≠ []) :
    ∃ c rest, Fs.skipelem path = some (c.take dirsiz, rest) ∧ components path = c :: components rest ∧
      (components rest = [] ↔ rest = []) ∧ rest.length < path.length := by
  obtain ⟨b, v, hw⟩ := List.exists_cons_of_ne_nil hne
  refine ⟨_, _, by rw [Fs.skipelem, hw], components_first hw (List.cons_ne_nil b v), components_eq_nil ?_, ?_⟩
  · intro hh
    have hfirst := List.head?_dropWhile_not (fun b => decide (b = slash)) ((b :: v).dropWhile (· ≠ slash))
    rw [hh] at hfirst
    simp at hfirst
  · have hrest : (((b :: v).dropWhile (· ≠ slash)).dropWhile (· = slash)).length ≤
        ((b :: v).dropWhile (· ≠ slash)).length := (List.dropWhile_sublist _).length_le
    have hpath : (b :: v).length ≤ path.length := hw ▸ (List.dropWhile_sublist _).length_le
    have hfirst := List.length_pos_of_ne_nil (first_ne_nil hw (List.cons_ne_nil b v))
    have hboth := congrArg List.length (List.takeWhile_append_dropWhile (p := (· ≠ slash)) (l := b :: v))
    rw [List.length_append] at hboth
    omega

theorem namexLoop_parent (fs : Fs) (ip : Ip) (path : List Byte) (hr : path.length < rounds) :
    Fs.namexLoop true rounds fs ip path = parentOf fs ip ((components path).map (List.take dirsiz)) := by
  induction rounds generalizing fs ip path with
  | zero => omega
  | succ rounds ih =>
    rw [Fs.namexLoop]
    by_cases hne : path.dropWhile (· = slash) = []
    · rw [Fs.skipelem, hne, ← components_dropSlashes, hne, components_nil]
      rfl
    · obtain ⟨c, rest, hskip, hcomp, hlast, hlen⟩ := skipelem_components hne
      rw [hskip, hcomp, List.map_cons]
      dsimp only
      by_cases hr' : rest = []
      · rw [hlast.mpr hr']
        simp only [hr', and_self, ↓reduceIte]
        rfl
      · rw [parentOf_cons (by simpa [hlast] using hr')]
        simp only [hr', and_false, ↓reduceIte]
        congr 1
        funext fs1
        split
        · rfl
        congr 1
        funext r
        obtain ⟨next, fs2⟩ := r
        congr 1
        funext fs3
        cases next with
        | none => rfl
        | some next => exact ih fs3 next.1 rest (by omega)

/-- For every path, `skipelem` gives its components one by one, and a walk with `nameiparent` follows
all of them but the last. -/
theorem path_components (s : CString) (name : Nat → Byte) :
    Splits s name (elements s 0 name) (components s.bytes) ∧
    ∀ fs cwd, view true <$> namex true fs cwd s name = (do
      let (ip, fs) ← startOf fs cwd (s.at 0)
      parentOf fs ip ((components s.bytes).map (List.take dirsiz))) := by
  refine ⟨elements_splits s 0 name, fun fs cwd => ?_⟩
  rw [namex, map_bind]
  congr 1
  funext ⟨ip, fs1⟩
  rw [namexLoop_eq true s fs1 ip 0 name (Nat.lt_succ_self _)]
  exact namexLoop_parent fs1 ip s.bytes (Nat.lt_succ_self _)

end Xv6Filter.Paths
