import Mathlib.Algebra.Order.Ring.Nat
import Mathlib.Data.Nat.Bitwise

/-!
# Rounding up with a mask

The word idiom `(a + n - 1) & ~(n - 1)` rounds `a` up to a multiple of the power of two `n`. On
naturals below `2 ^ w` the complement is `2 ^ w - 1 - (n - 1)`, and masking with it clears the low
bits (`and_highMask`). The result is a multiple, at least `a`, less than `a + n` (`roundUp_spec`).
-/

namespace Vlibc.Align

open Nat

theorem and_highMask {w k x : ℕ} (hk : k ≤ w) (hx : x < 2 ^ w) :
    x &&& (2 ^ w - 1 - (2 ^ k - 1)) = x / 2 ^ k * 2 ^ k := by
  have hpow : 2 ^ k ≤ 2 ^ w := Nat.pow_le_pow_right (by omega) hk
  have hpos : 0 < 2 ^ k := Nat.two_pow_pos k
  rw [show 2 ^ w - 1 - (2 ^ k - 1) = 2 ^ w - (2 ^ k - 1 + 1) by omega]
  refine eq_of_testBit_eq fun i => ?_
  rw [testBit_and, testBit_two_pow_sub_succ (by omega), testBit_two_pow_sub_one,
    testBit_mul_two_pow, testBit_div_two_pow]
  by_cases hki : k ≤ i
  · rw [Nat.sub_add_cancel hki]
    by_cases hi : i < w
    · simp [hi, hki]
    · rw [testBit_lt_two_pow (lt_of_lt_of_le hx (Nat.pow_le_pow_right (by omega) (by omega)))]
      simp
  · simp [hki, not_le.1 hki]

/-- **Rounding up to a power of two** that passes the test `n & (n - 1) == 0`. -/
theorem roundUp_spec {w a n : ℕ} (hn : n ≠ 0) (hand : n &&& (n - 1) = 0) (h : a + n - 1 < 2 ^ w) :
    let r := (a + n - 1) % 2 ^ w &&& (2 ^ w - 1 - (n - 1))
    n ∣ r ∧ a ≤ r ∧ r < a + n := by
  intro r
  obtain ⟨k, rfl⟩ := (and_sub_one_eq_zero_iff_isPowerOfTwo hn).1 hand
  have hpos : 0 < 2 ^ k := Nat.two_pow_pos k
  have hk : k ≤ w := by
    rcases lt_or_ge w k with hwk | hwk
    · have := Nat.pow_lt_pow_right (by omega : 1 < 2) hwk
      omega
    · exact hwk
  have hr : r = (a + 2 ^ k - 1) / 2 ^ k * 2 ^ k := by
    simp only [r]
    rw [mod_eq_of_lt h, and_highMask hk h]
  have hdiv := div_add_mod (a + 2 ^ k - 1) (2 ^ k)
  have hmod := mod_lt (a + 2 ^ k - 1) hpos
  rw [mul_comm] at hdiv
  exact ⟨hr ▸ Nat.dvd_mul_left _ _, by omega, by omega⟩

end Vlibc.Align
