import Mathlib.Data.Nat.Bitwise
import Mathlib.Algebra.Order.Group.Nat

/-!
# Masks of leading ones

A number masked with the leading ones of a word is the start of the block of `2 ^ k` numbers that
it is in. Smaller blocks start later, so that of two masked values of one number the longer mask
gives the larger one. -/

namespace Cosiris

/-- The start of the block of `2 ^ k` numbers around `x`. -/
def blockStart (k x : ℕ) : ℕ := x / 2 ^ k * 2 ^ k

/-- **Masking with leading ones.** -/
theorem land_two_pow_sub {w k x : ℕ} (hk : k ≤ w) (hx : x < 2 ^ w) :
    x &&& (2 ^ w - 2 ^ k) = blockStart k x := by
  have hmask : 2 ^ w - 2 ^ k = (2 ^ (w - k) - 1) * 2 ^ k := by
    rw [Nat.sub_mul, ← Nat.pow_add, Nat.sub_add_cancel hk, Nat.one_mul]
  refine Nat.eq_of_testBit_eq fun i => ?_
  rw [blockStart, hmask, Nat.testBit_and, Nat.testBit_mul_two_pow, Nat.testBit_mul_two_pow,
    Nat.testBit_two_pow_sub_one, Nat.testBit_div_two_pow]
  by_cases hi : k ≤ i
  · rw [Nat.sub_add_cancel hi]
    by_cases hw : i < w
    · simp [hi, show i - k < w - k by omega]
    · have hzero : x.testBit i = false :=
        Nat.testBit_lt_two_pow (Nat.lt_of_lt_of_le hx (Nat.pow_le_pow_right (by omega) (by omega)))
      simp [hzero]
  · simp [hi]

/-- A smaller block starts later. -/
theorem blockStart_anti {j k : ℕ} (h : j ≤ k) (x : ℕ) : blockStart k x ≤ blockStart j x := by
  obtain ⟨d, rfl⟩ := Nat.exists_eq_add_of_le h
  unfold blockStart
  rw [Nat.pow_add, ← Nat.div_div_eq_div_mul, Nat.mul_comm (2 ^ j), ← Nat.mul_assoc]
  exact Nat.mul_le_mul_right _ (Nat.div_mul_le_self _ _)

end Cosiris
