/-
  Blocks of numbers: the numbers below `2 ^ w` that agree but for their `k` lowest bits.

  A block is a set of numbers with one quotient by `2 ^ k`, and an interval.

  * `and_highMask`, `and_not_low`: masks keep the quotient.
  * `between_iff_div`: the interval of a block.
-/
import Mathlib.Data.Nat.Bitwise

namespace Ferrum.Lib

variable {w k n a x : ℕ}

theorem eq_high_of_testBit {m : ℕ} (hn : n < 2 ^ w)
    (hm : ∀ i, m.testBit i = (decide (k ≤ i) && decide (i < w))) :
    n &&& m = n / 2 ^ k * 2 ^ k := by
  refine Nat.eq_of_testBit_eq fun i => ?_
  rw [Nat.testBit_and, hm, Nat.testBit_mul_two_pow, Nat.testBit_div_two_pow]
  by_cases hi : k ≤ i
  · rw [Nat.sub_add_cancel hi]
    by_cases hiw : i < w
    · simp [hi, hiw]
    · have hz : n.testBit i = false :=
        Nat.testBit_lt_two_pow (hn.trans_le (Nat.pow_le_pow_right Nat.two_pos (not_lt.1 hiw)))
      simp [hz]
  · simp [hi]

/-- A mask of the bits from `k` on. -/
theorem and_highMask (hn : n < 2 ^ w) : n &&& ((2 ^ w - 1) <<< k % 2 ^ w) = n / 2 ^ k * 2 ^ k := by
  refine eq_high_of_testBit hn fun i => ?_
  rw [Nat.testBit_mod_two_pow, Nat.testBit_shiftLeft, Nat.testBit_two_pow_sub_one]
  by_cases hi : k ≤ i
  · by_cases hiw : i < w
    · simp [hi, hiw]
      omega
    · simp [hi, hiw]
  · simp [hi]

/-- The complement of a mask of the `k` lowest bits. -/
theorem and_not_low (hk : k ≤ w) (hn : n < 2 ^ w) :
    n &&& (2 ^ w - 1 - (2 ^ k - 1)) = n / 2 ^ k * 2 ^ k := by
  refine eq_high_of_testBit hn fun i => ?_
  have hlt : 2 ^ k - 1 < 2 ^ w :=
    lt_of_lt_of_le (Nat.sub_lt (Nat.two_pow_pos k) Nat.one_pos) (Nat.pow_le_pow_right Nat.two_pos hk)
  rw [Nat.sub_sub, Nat.add_comm, Nat.testBit_two_pow_sub_succ hlt, Nat.testBit_two_pow_sub_one]
  by_cases hi : k ≤ i
  · simp [hi]
  · simp [hi, not_le.1 hi]

theorem or_low : n * 2 ^ k ||| (2 ^ k - 1) = n * 2 ^ k + (2 ^ k - 1) := by
  rw [Nat.mul_comm, Nat.two_pow_add_eq_or_of_lt (Nat.sub_lt (Nat.two_pow_pos k) Nat.one_pos)]

/-- **A block is an interval.** -/
theorem between_iff_div : n * 2 ^ k ≤ x ∧ x ≤ n * 2 ^ k + (2 ^ k - 1) ↔ x / 2 ^ k = n := by
  have hpos := Nat.two_pow_pos k
  rw [Nat.div_eq_iff hpos]
  omega

theorem div_eq_of_le {j : ℕ} (h : n / 2 ^ j = a / 2 ^ j) (hjk : j ≤ k) : n / 2 ^ k = a / 2 ^ k := by
  have hs : ∀ m, m / 2 ^ k = m / 2 ^ j / 2 ^ (k - j) := fun m => by
    rw [Nat.div_div_eq_div_mul, ← Nat.pow_add, Nat.add_sub_of_le hjk]
  rw [hs, hs, h]

/-- Agreeing under the mask is having the same quotient. -/
theorem and_highMask_eq_iff (hn : n < 2 ^ w) (ha : a < 2 ^ w) :
    n &&& ((2 ^ w - 1) <<< k % 2 ^ w) = a &&& ((2 ^ w - 1) <<< k % 2 ^ w) ↔
      n / 2 ^ k = a / 2 ^ k := by
  rw [and_highMask hn, and_highMask ha]
  exact Nat.mul_left_inj (Nat.two_pow_pos k).ne'

end Ferrum.Lib
