import Xv6Filter.Kernel.Sv39
import Xv6Filter.Proofs.PageTable

namespace Xv6Filter.Sv39
open Lib Paging Function

theorem toNat_pa2pte (pa : U64) : (pa2pte pa).toNat = 2 ^ 10 * (pa.toNat / pgsize) := by
  have := pa.isLt
  simp only [pa2pte, BitVec.toNat_shiftLeft, BitVec.toNat_ushiftRight, Nat.shiftLeft_eq, Nat.shiftRight_eq_div_pow]
  rw [Nat.mod_eq_of_lt]
  · simp only [pgsize]
    omega
  · omega

theorem toNat_pte2pa (pte : U64) : (pte2pa pte).toNat = pte.toNat / 2 ^ 10 * pgsize % 2 ^ 64 := by
  simp only [pte2pa, BitVec.toNat_shiftLeft, BitVec.toNat_ushiftRight, Nat.shiftLeft_eq, Nat.shiftRight_eq_div_pow]

theorem toNat_pteFlags (pte : U64) : (pteFlags pte).toNat = pte.toNat % 2 ^ 10 := by
  rw [pteFlags, BitVec.toNat_and]
  exact Nat.and_two_pow_sub_one_eq_mod _ 10

theorem toNat_px (level : Nat) (va : U64) : (px level va).toNat = (Paging.px level va.toNat).val := by
  rw [px, BitVec.toNat_and, BitVec.toNat_ushiftRight, Nat.shiftRight_eq_div_pow]
  exact Nat.and_two_pow_sub_one_eq_mod _ 9

theorem toNat_pte (pa : U64) {flags : U64} (h : flags.toNat < 2 ^ 10) :
    (pa2pte pa ||| flags).toNat = 2 ^ 10 * (pa.toNat / pgsize) + flags.toNat := by
  rw [BitVec.toNat_or, toNat_pa2pte, Nat.two_pow_add_eq_or_of_lt h]

theorem pte2pa_pte (pa : U64) {flags : U64} (h : flags.toNat < 2 ^ 10) :
    (pte2pa (pa2pte pa ||| flags)).toNat = pa.toNat / pgsize * pgsize := by
  have := pa.isLt
  rw [toNat_pte2pa, toNat_pte pa h]
  simp only [pgsize]
  omega

theorem pteFlags_pte (pa : U64) {flags : U64} (h : flags.toNat < 2 ^ 10) :
    pteFlags (pa2pte pa ||| flags) = flags := by
  apply BitVec.eq_of_toNat_eq
  rw [toNat_pteFlags, toNat_pte pa h]
  omega

abbrev Valid (pte : U64) : Prop := pte &&& pteV ≠ 0

theorem not_valid_zero : ¬ Valid 0 := by decide

theorem valid_pte (pa flags : U64) : Valid (pa2pte pa ||| flags ||| pteV) := by
  intro h0
  have hbit := congrArg (fun w : U64 => w.getLsbD 0) h0
  simp at hbit

abbrev maxFrame : Nat := 2 ^ 52

theorem toNat_pageAddr (h : f < maxFrame) : (pageAddr f).toNat = f * pgsize := by
  rw [pageAddr, BitVec.toNat_ofNat, Nat.mod_eq_of_lt]
  simp only [maxFrame, pgsize] at h ⊢
  omega

theorem frameOf_lt (pa : U64) : frameOf pa < maxFrame := by
  exact Nat.div_lt_of_lt_mul pa.isLt

theorem pageAddr_pte2pa (pte : U64) : pageAddr (frameOf (pte2pa pte)) = pte2pa pte := by
  apply BitVec.eq_of_toNat_eq
  rw [toNat_pageAddr (frameOf_lt _), frameOf, toNat_pte2pa]
  simp only [pgsize]
  omega

theorem frameOf_pte (h : f < maxFrame) {flags : U64} (hf : flags.toNat < 2 ^ 10) :
    frameOf (pte2pa (pa2pte (pageAddr f) ||| flags)) = f := by
  rw [frameOf, pte2pa_pte _ hf, toNat_pageAddr h, Nat.mul_div_cancel _ (by decide), Nat.mul_div_cancel _ (by decide)]

def entry (m : Ram) (f : Frame) (i : Nat) : U64 := BitVec.ofNat 64 (loadLe (m.data f) (8 * i) 8)

def setEntry (m : Ram) (f : Frame) (i : Nat) (v : U64) : Ram :=
  { m with data := update m.data f (storeLe (m.data f) (8 * i) 8 v.toNat) }

def entryAddr (f : Frame) (i : Nat) : U64 := pageAddr f + BitVec.ofNat 64 (8 * i)

theorem toNat_entryAddr (hf : f < maxFrame) (hi : i < 512) : (entryAddr f i).toNat = f * pgsize + 8 * i := by
  rw [entryAddr, BitVec.toNat_add, toNat_pageAddr hf, BitVec.toNat_ofNat]
  simp only [maxFrame, pgsize] at hf ⊢
  omega

theorem entryAddr_inj (hf : f < maxFrame) (hf' : f' < maxFrame) (hi : i < 512) (hi' : i' < 512)
    (h : entryAddr f i = entryAddr f' i') : f = f' ∧ i = i' := by
  have hn := congrArg BitVec.toNat h
  rw [toNat_entryAddr hf hi, toNat_entryAddr hf' hi'] at hn
  simp only [pgsize] at hn
  omega

theorem slot_eq (f : Frame) (level : Nat) (va : U64) :
    slot (pageAddr f) level va = entryAddr f (Paging.px level va.toNat) := by
  rw [slot, entryAddr, ← toNat_px]
  congr 1

theorem frameOf_entryAddr (hf : f < maxFrame) (hi : i < 512) : frameOf (entryAddr f i) = f := by
  have hoff : 8 * i / pgsize = 0 := Nat.div_eq_of_lt (by simp only [pgsize]; omega)
  rw [frameOf, toNat_entryAddr hf hi, Nat.mul_comm, Nat.mul_add_div (by decide), hoff, Nat.add_zero]

theorem offset_entryAddr (hf : f < maxFrame) (hi : i < 512) : (entryAddr f i).toNat % pgsize = 8 * i := by
  rw [toNat_entryAddr hf hi]
  simp only [pgsize]
  omega

theorem load_entryAddr (m : Ram) (hf : f < maxFrame) (hi : i < 512) : load m (entryAddr f i) = entry m f i := by
  rw [load, frameOf_entryAddr hf hi, offset_entryAddr hf hi, entry]

theorem store_entryAddr (m : Ram) (hf : f < maxFrame) (hi : i < 512) (v : U64) :
    store m (entryAddr f i) v = setEntry m f i v := by
  rw [store, frameOf_entryAddr hf hi, offset_entryAddr hf hi, setEntry]

theorem entry_setEntry_same (m : Ram) (f : Frame) (i : Nat) (v : U64) : entry (setEntry m f i v) f i = v := by
  have h : 256 ^ 8 = 2 ^ 64 := by decide
  simp only [entry, setEntry, update_self, loadLe_storeLe, h]
  rw [Nat.mod_eq_of_lt v.isLt, BitVec.ofNat_toNat, BitVec.setWidth_eq]

theorem entry_setEntry_ne (m : Ram) (v : U64) (h : f' ≠ f ∨ i' ≠ i) :
    entry (setEntry m f i v) f' i' = entry m f' i' := by
  simp only [entry, setEntry]
  by_cases hf : f' = f
  · subst hf
    have hi : i' ≠ i := h.resolve_left (not_not.mpr rfl)
    rw [update_self, loadLe_storeLe_ne]
    omega
  · rw [update_of_ne hf]

theorem entry_fill_ne (m : Ram) (c : Byte) (h : f' ≠ f) (i : Nat) : entry (m.fill f c) f' i = entry m f' i := by
  simp only [entry, Ram.fill, update_of_ne h]

theorem entry_fill_zero (m : Ram) (f : Frame) (i : Nat) : entry (m.fill f 0) f i = 0 := by
  have hz : loadLe (fun _ => 0) (8 * i) 8 = 0 := by simp [loadLe]
  simp only [entry, Ram.fill, update_self, hz]
  rfl

end Xv6Filter.Sv39
