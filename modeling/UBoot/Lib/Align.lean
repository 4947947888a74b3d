import Mathlib.Data.Nat.Bitwise

namespace UBoot.Lib.Align

/-- A number is what a mask takes away and what it leaves. -/
theorem and_not_add (a m : UInt32) : (a &&& ~~~m) + (a &&& m) = a := by
  apply UInt32.eq_of_toBitVec_eq
  rw [UInt32.toBitVec_add, UInt32.toBitVec_and, UInt32.toBitVec_and, UInt32.toBitVec_not,
    BitVec.add_eq_or_of_and_eq_zero]
  · ext i hi
    simp only [BitVec.getElem_or, BitVec.getElem_and, BitVec.getElem_not]
    grind
  · ext i hi
    simp only [BitVec.getElem_and, BitVec.getElem_not, BitVec.getElem_zero]
    grind

theorem sub_and_not (a m : UInt32) : a - (a &&& ~~~m) = a &&& m := by
  have hadd := and_not_add a m
  grind

theorem and_pred_toNat (a : UInt32) {k : ℕ} {m : UInt32} (hm : m.toNat = 2 ^ k - 1) :
    (a &&& m).toNat = a.toNat % 2 ^ k := by
  rw [UInt32.toNat_and, hm, Nat.and_two_pow_sub_one_eq_mod]

end UBoot.Lib.Align
