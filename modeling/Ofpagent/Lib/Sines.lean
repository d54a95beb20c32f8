/-
# The sines of the natural numbers

Tables of constants are often made of values of the sine function.  `floor_abs_sin` decides such a
value: `e^i` is close to a fraction of Gaussian integers, its powers are close to the powers of
that fraction, and these are computed with integers.
-/
import Mathlib

namespace Ofpagent.Lib.Sines

open Complex

/-! ## 1. Powers of two close numbers -/

/-- On the unit disc an error of `δ` grows to `(1 + δ) ^ k - 1` in `k` multiplications. -/
theorem norm_pow_sub_pow_le {z w : ℂ} {δ : ℝ} (hz : ‖z‖ ≤ 1) (h : ‖z - w‖ ≤ δ) (k : ℕ) :
    ‖z ^ k - w ^ k‖ ≤ (1 + δ) ^ k - 1 := by
  have hδ : 0 ≤ δ := (norm_nonneg _).trans h
  have hw : ‖w‖ ≤ 1 + δ := by
    calc ‖w‖ = ‖z - (z - w)‖ := by rw [sub_sub_cancel]
      _ ≤ ‖z‖ + ‖z - w‖ := norm_sub_le _ _
      _ ≤ 1 + δ := add_le_add hz h
  induction k with
  | zero => simp
  | succ k ih =>
    have hzk : ‖z ^ k‖ ≤ 1 := by
      rw [norm_pow]
      exact pow_le_one₀ (norm_nonneg _) hz
    have hnonneg : 0 ≤ (1 + δ) ^ k - 1 := (norm_nonneg _).trans ih
    calc ‖z ^ (k + 1) - w ^ (k + 1)‖ = ‖z ^ k * (z - w) + (z ^ k - w ^ k) * w‖ := by ring_nf
      _ ≤ ‖z ^ k‖ * ‖z - w‖ + ‖z ^ k - w ^ k‖ * ‖w‖ := by
        refine (norm_add_le _ _).trans (le_of_eq ?_)
        rw [norm_mul, norm_mul]
      _ ≤ 1 * δ + ((1 + δ) ^ k - 1) * (1 + δ) := by gcongr
      _ = (1 + δ) ^ (k + 1) - 1 := by ring

/-! ## 2. A fraction close to `e^i` -/

/-- `25!`, and the first 26 terms of the series of `e^i`, multiplied by it. -/
def den : ℤ := 15511210043330985984000000
def cosNum : ℤ := 8380742553216779108641825
def sinNum : ℤ := 13052233190723859821607001

theorem sum_even_odd (n : ℕ) : ∑ m ∈ Finset.range (2 * n), I ^ m / (m.factorial : ℂ)
    = ((∑ j ∈ Finset.range n, (-1 : ℝ) ^ j / ((2 * j).factorial : ℝ) : ℝ) : ℂ)
      + ((∑ j ∈ Finset.range n, (-1 : ℝ) ^ j / ((2 * j + 1).factorial : ℝ) : ℝ) : ℂ) * I := by
  induction n with
  | zero => simp
  | succ n ih =>
    have heven : I ^ (2 * n) = (-1) ^ n := by rw [pow_mul, I_sq]
    have hodd : I ^ (2 * n + 1) = (-1) ^ n * I := by rw [pow_succ, heven]
    rw [Nat.mul_succ, Finset.sum_range_succ, Finset.sum_range_succ, ih, heven, hodd,
      Finset.sum_range_succ, Finset.sum_range_succ]
    push_cast
    ring

/-- The fraction itself. -/
theorem sum_eq : ∑ m ∈ Finset.range 26, I ^ m / (m.factorial : ℂ)
    = (cosNum + sinNum * I) / den := by
  have hcos : ∑ j ∈ Finset.range 13, (-1 : ℝ) ^ j / ((2 * j).factorial : ℝ) = cosNum / den := by
    norm_num [Finset.sum_range_succ, Nat.factorial, den, cosNum]
  have hsin : ∑ j ∈ Finset.range 13, (-1 : ℝ) ^ j / ((2 * j + 1).factorial : ℝ)
      = sinNum / den := by
    norm_num [Finset.sum_range_succ, Nat.factorial, den, sinNum]
  rw [show 26 = 2 * 13 from rfl, sum_even_odd, hcos, hsin]
  push_cast
  ring

/-- How close it is. -/
theorem norm_exp_sub_le : ‖exp I - (cosNum + sinNum * I) / den‖ ≤ (10 ^ 25 : ℝ)⁻¹ := by
  have hbound := Complex.exp_bound (x := I) (by simp) (n := 26) (by decide)
  rw [sum_eq, norm_I, one_pow, one_mul] at hbound
  refine hbound.trans ?_
  norm_num [Nat.factorial]

/-! ## 3. The sine of a natural number -/

/-- The powers of the numerator. -/
def numPow : ℕ → ℤ × ℤ
  | 0 => (1, 0)
  | k + 1 =>
    let p := numPow k
    (p.1 * cosNum - p.2 * sinNum, p.1 * sinNum + p.2 * cosNum)

theorem numPow_eq (k : ℕ) :
    ((numPow k).1 + (numPow k).2 * I : ℂ) = (cosNum + sinNum * I) ^ k := by
  induction k with
  | zero => simp [numPow]
  | succ k ih =>
    rw [pow_succ, ← ih, numPow]
    push_cast
    linear_combination (-(numPow k).2 * sinNum : ℂ) * I_sq

theorem abs_sin_sub_le (k : ℕ) :
    |Real.sin k - (numPow k).2 / (den : ℝ) ^ k| ≤ (1 + (10 ^ 25 : ℝ)⁻¹) ^ k - 1 := by
  have hunit : ‖exp I‖ ≤ 1 := by
    have h := norm_exp_ofReal_mul_I 1
    rw [ofReal_one, one_mul] at h
    exact h.le
  have hpow := norm_pow_sub_pow_le hunit norm_exp_sub_le k
  have hsin : (exp I ^ k).im = Real.sin k := by
    rw [← exp_nat_mul, ← exp_ofReal_mul_I_im (k : ℝ), ofReal_natCast]
  have hfrac : (((cosNum + sinNum * I : ℂ) / den) ^ k).im = (numPow k).2 / (den : ℝ) ^ k := by
    rw [div_pow, ← numPow_eq]
    have hden : ((den : ℂ) ^ k) = (((den : ℝ) ^ k : ℝ) : ℂ) := by push_cast; rfl
    rw [hden, div_ofReal_im]
    simp
  calc |Real.sin k - (numPow k).2 / (den : ℝ) ^ k|
      = |(exp I ^ k - ((cosNum + sinNum * I : ℂ) / den) ^ k).im| := by rw [sub_im, hsin, hfrac]
    _ ≤ ‖exp I ^ k - ((cosNum + sinNum * I : ℂ) / den) ^ k‖ := abs_im_le_norm _
    _ ≤ (1 + (10 ^ 25 : ℝ)⁻¹) ^ k - 1 := hpow

/-- `n` is `2^32` times the value of the fraction, rounded down, and the value is nowhere near
the next number: a comparison of integers. -/
def Rounds (k n : ℕ) : Prop :=
  (n : ℤ) * den ^ k * 10 ^ 20 + 2 ^ 32 * den ^ k ≤ 2 ^ 32 * |(numPow k).2| * 10 ^ 20 ∧
    2 ^ 32 * |(numPow k).2| * 10 ^ 20 + 2 ^ 32 * den ^ k < (n + 1) * den ^ k * 10 ^ 20

instance (k n : ℕ) : Decidable (Rounds k n) := inferInstanceAs (Decidable (_ ∧ _))

/-- **The sine of a natural number up to 64**, to 32 binary places. -/
theorem floor_abs_sin {k n : ℕ} (hk : k ≤ 64) (h : Rounds k n) :
    ⌊2 ^ 32 * |Real.sin k|⌋₊ = n := by
  have herr : |Real.sin k - (numPow k).2 / (den : ℝ) ^ k| ≤ (10 ^ 20 : ℝ)⁻¹ := by
    refine (abs_sin_sub_le k).trans ?_
    have hone : (1 : ℝ) ≤ 1 + (10 ^ 25 : ℝ)⁻¹ := by norm_num
    have hpow : (1 + (10 ^ 25 : ℝ)⁻¹) ^ k ≤ (1 + (10 ^ 25 : ℝ)⁻¹) ^ 64 :=
      pow_le_pow_right₀ hone hk
    have h64 : (1 + (10 ^ 25 : ℝ)⁻¹) ^ 64 ≤ 1 + (10 ^ 20 : ℝ)⁻¹ := by norm_num
    linarith
  have hden : (0 : ℝ) < (den : ℝ) ^ k := pow_pos (by norm_num [den]) k
  set y : ℝ := |((numPow k).2 : ℝ)| / (den : ℝ) ^ k with hy
  have hclose : |(|Real.sin k|) - y| ≤ (10 ^ 20 : ℝ)⁻¹ := by
    have habs : y = |(numPow k).2 / (den : ℝ) ^ k| := by rw [abs_div, abs_of_pos hden]
    rw [habs]
    exact (abs_abs_sub_abs_le _ _).trans herr
  obtain ⟨hge, hle⟩ := abs_le.mp hclose
  have hlo : (n : ℝ) + 2 ^ 32 * (10 ^ 20 : ℝ)⁻¹ ≤ 2 ^ 32 * y := by
    have hint : (n : ℝ) * (den : ℝ) ^ k * 10 ^ 20 + 2 ^ 32 * (den : ℝ) ^ k
        ≤ 2 ^ 32 * |((numPow k).2 : ℝ)| * 10 ^ 20 := by exact_mod_cast h.1
    rw [hy, ← mul_div_assoc, le_div_iff₀ hden]
    linarith
  have hhi : 2 ^ 32 * y + 2 ^ 32 * (10 ^ 20 : ℝ)⁻¹ < n + 1 := by
    have hint : 2 ^ 32 * |((numPow k).2 : ℝ)| * 10 ^ 20 + 2 ^ 32 * (den : ℝ) ^ k
        < (n + 1) * (den : ℝ) ^ k * 10 ^ 20 := by exact_mod_cast h.2
    rw [hy, ← mul_div_assoc, ← lt_sub_iff_add_lt, div_lt_iff₀ hden]
    linarith
  rw [Nat.floor_eq_iff (by positivity)]
  constructor <;> linarith

end Ofpagent.Lib.Sines
