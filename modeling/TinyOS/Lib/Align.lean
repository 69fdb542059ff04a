import Mathlib

/-!
# Rounding up to an alignment

`roundUp x a` is the least multiple of `a` that is not below `x`. For a power of two a machine
computes it with a mask (`toNat_and_not_mask`).
-/

namespace Align

/-- `x` rounded up to a multiple of `a`, and left as it is if it is one. -/
def roundUp (x a : Nat) : Nat := (x + a - 1) / a * a

variable {x a : Nat}

/-- A number that was rounded up is a multiple of the alignment. -/
theorem roundUp_mod : roundUp x a % a = 0 := Nat.mul_mod_left _ _

/-- Rounding up does not make a number smaller. -/
theorem le_roundUp (ha : 0 < a) : x ≤ roundUp x a := by
  have hdiv := Nat.lt_div_mul_add ha (a := x + a - 1)
  rw [roundUp]
  omega

/-- Rounding up adds less than the alignment. -/
theorem roundUp_lt (ha : 0 < a) : roundUp x a < x + a := by
  have hdiv := Nat.div_mul_le_self (x + a - 1) a
  rw [roundUp]
  omega

/-- Rounding something up gives at least the alignment, as zero is not among the results. -/
theorem align_le_roundUp (hx : 0 < x) : a ≤ roundUp x a := by
  rcases Nat.eq_zero_or_pos a with rfl | ha
  · exact Nat.zero_le _
  · exact Nat.le_of_dvd (hx.trans_le (le_roundUp ha)) (Nat.dvd_of_mod_eq_zero roundUp_mod)

/-- Clearing the low bits rounds down to a power of two. -/
theorem toNat_and_not_mask {w k : Nat} (x m : BitVec w) (hm : m.toNat = 2 ^ k - 1) :
    (x &&& ~~~m).toNat = x.toNat / 2 ^ k * 2 ^ k := by
  refine Nat.eq_of_testBit_eq fun i => ?_
  rw [BitVec.toNat_and, BitVec.toNat_not, Nat.testBit_and, Nat.testBit_mul_two_pow,
    Nat.testBit_div_two_pow, Nat.sub_sub, Nat.add_comm 1, Nat.testBit_two_pow_sub_succ m.isLt, hm,
    Nat.testBit_two_pow_sub_one]
  rcases Nat.lt_or_ge i k with hik | hik
  · simp [hik, Nat.not_le.mpr hik]
  · rw [Nat.sub_add_cancel hik]
    rcases Nat.lt_or_ge i w with hiw | hiw
    · simp [hik, hiw, Nat.not_lt.mpr hik]
    · simp [Nat.testBit_lt_two_pow (x.isLt.trans_le (Nat.pow_le_pow_right Nat.two_pos hiw))]

end Align
