import Mathlib.Logic.Function.Basic

namespace Xv6Filter.Lib

def Contains (a b : BitVec w) : Prop := a &&& b = b

instance (a b : BitVec w) : Decidable (Contains a b) := inferInstanceAs (Decidable (_ = _))

theorem Contains.refl (a : BitVec w) : Contains a a := BitVec.and_self

theorem Contains.trans {a b c : BitVec w} (hab : Contains a b) (hbc : Contains b c) :
    Contains a c := by
  unfold Contains at *
  calc a &&& c = a &&& (b &&& c) := by rw [hbc]
    _ = (a &&& b) &&& c := by rw [BitVec.and_assoc]
    _ = b &&& c := by rw [hab]
    _ = c := hbc

theorem Contains.ne_zero {a b : BitVec w} (h : Contains a b) (hb : b ≠ 0) : a ≠ 0 := by
  rintro rfl
  exact hb (h.symm.trans BitVec.zero_and)

end Xv6Filter.Lib
