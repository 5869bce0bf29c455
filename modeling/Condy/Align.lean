import Mathlib.Algebra.Ring.Nat
import Mathlib.Data.Nat.Bitwise
import Mathlib.Tactic.Common

/-!
# Condy.Align — `align_up` of `detail/utils.hpp`

The code rounds up by masking; on 64-bit words that is rounding up to a multiple as long as the sum does not wrap.
-/

namespace Condy

/-- `align_up` on `size_t`, for an alignment that passes its assertion. -/
def alignUp (value alignment : ℕ) : ℕ := (value + alignment - 1) % 2 ^ 64 &&& (2 ^ 64 - 1 - (alignment - 1))

variable {k v : ℕ}

/-- A mask of high bits clears the low ones. -/
theorem and_high_mask {x : ℕ} (hk : k ≤ 64) (hx : x < 2 ^ 64) : x &&& (2 ^ 64 - 1 - (2 ^ k - 1)) = x / 2 ^ k * 2 ^ k := by
  have hmask : 2 ^ 64 - 1 - (2 ^ k - 1) = (2 ^ (64 - k) - 1) * 2 ^ k := by
    have hpow : 2 ^ (64 - k) * 2 ^ k = 2 ^ 64 := by rw [← Nat.pow_add, Nat.sub_add_cancel hk]
    have hpos := Nat.two_pow_pos k
    rw [Nat.sub_mul, hpow, Nat.one_mul]
    omega
  rw [hmask]
  refine Nat.eq_of_testBit_eq fun i => ?_
  rw [Nat.testBit_and, Nat.testBit_mul_two_pow, Nat.testBit_mul_two_pow, Nat.testBit_div_two_pow,
    Nat.testBit_two_pow_sub_one]
  by_cases hki : k ≤ i
  · by_cases hi : i < 64
    · simp [hki, show i - k < 64 - k by omega, show i - k + k = i by omega]
    · have hbit : x.testBit i = false :=
        Nat.testBit_lt_two_pow (Nat.lt_of_lt_of_le hx (Nat.pow_le_pow_right (by decide) (by omega)))
      simp [hki, hbit, show i - k + k = i by omega]
  · simp [hki]

theorem alignUp_eq (hk : k ≤ 64) (hv : v + 2 ^ k ≤ 2 ^ 64) : alignUp v (2 ^ k) = (v + 2 ^ k - 1) / 2 ^ k * 2 ^ k := by
  have hpos := Nat.two_pow_pos k
  unfold alignUp
  rw [Nat.mod_eq_of_lt (by omega)]
  exact and_high_mask hk (by omega)

/-- The result is a multiple of the alignment. -/
theorem dvd_alignUp (hk : k ≤ 64) : 2 ^ k ∣ alignUp v (2 ^ k) := by
  unfold alignUp
  rw [and_high_mask hk (Nat.mod_lt _ (by decide))]
  exact Nat.dvd_mul_left _ _

/-- It lies at or above the value, by less than the alignment. -/
theorem alignUp_bounds (hk : k ≤ 64) (hv : v + 2 ^ k ≤ 2 ^ 64) :
    v ≤ alignUp v (2 ^ k) ∧ alignUp v (2 ^ k) < v + 2 ^ k := by
  rw [alignUp_eq hk hv]
  have hpos := Nat.two_pow_pos k
  have hdiv := Nat.div_add_mod (v + 2 ^ k - 1) (2 ^ k)
  have hmod := Nat.mod_lt (v + 2 ^ k - 1) hpos
  rw [Nat.mul_comm] at hdiv
  omega

end Condy
