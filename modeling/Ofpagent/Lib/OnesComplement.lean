/-
# One's complement sums

The carries out of the lowest digit of a sum in base `b` are added back in at the bottom, until
there is none (`endAround`).  What is left is the sum modulo `b - 1`, in the one representative
below `b` that is zero for a sum of zero only (`endAround_unique`).  So two sums fold to the same
digit exactly when they are congruent modulo `b - 1` and both are zero or neither is
(`endAround_eq_iff`).
-/
import Mathlib

namespace Ofpagent.Lib

/-- The sum of the digit and the carry, for as long as there is a carry. -/
def endAround (b n : ℕ) : ℕ :=
  if 1 < b ∧ b ≤ n then endAround b (n / b + n % b) else n
termination_by n
decreasing_by
  next h =>
  have hmul := Nat.div_add_mod n b
  have hpos : 0 < n / b := Nat.div_pos h.2 (by omega)
  have hdouble : 2 * (n / b) ≤ b * (n / b) := Nat.mul_le_mul_right _ h.1
  omega

variable {b n r : ℕ}

theorem endAround_of_lt (h : n < b) : endAround b n = n := by
  rw [endAround, if_neg (by omega)]

theorem endAround_of_le (hb : 1 < b) (h : b ≤ n) :
    endAround b n = endAround b (n / b + n % b) := by
  rw [endAround, if_pos ⟨hb, h⟩]

theorem endAround_lt (hb : 1 < b) (n : ℕ) : endAround b n < b := by
  induction n using endAround.induct b with
  | case1 n h ih => rwa [endAround_of_le hb h.2]
  | case2 n h =>
    have hlt : n < b := by
      by_contra hle
      exact h ⟨hb, not_lt.mp hle⟩
    rwa [endAround_of_lt hlt]

/-- A digit moved to the bottom is the same modulo `b - 1`. -/
theorem div_add_mod_modEq (hb : 1 < b) (n : ℕ) : n / b + n % b ≡ n [MOD b - 1] := by
  have hone : b ≡ 1 [MOD b - 1] := by
    have h : 1 + (b - 1) ≡ 1 [MOD b - 1] := Nat.add_modEq_right
    rwa [Nat.add_sub_cancel' hb.le] at h
  calc n / b + n % b = 1 * (n / b) + n % b := by rw [one_mul]
    _ ≡ b * (n / b) + n % b [MOD b - 1] := (hone.symm.mul_right _).add_right _
    _ = n := Nat.div_add_mod n b

/-- **The carries folded in are the sum modulo `b - 1`.** -/
theorem endAround_modEq (hb : 1 < b) (n : ℕ) : endAround b n ≡ n [MOD b - 1] := by
  induction n using endAround.induct b with
  | case1 n h ih =>
    rw [endAround_of_le hb h.2]
    exact ih.trans (div_add_mod_modEq hb n)
  | case2 n h => rw [endAround, if_neg h]

theorem endAround_eq_zero (hb : 1 < b) : endAround b n = 0 ↔ n = 0 := by
  induction n using endAround.induct b with
  | case1 n h ih =>
    have hpos : 0 < n / b := Nat.div_pos h.2 (by omega)
    rw [endAround_of_le hb h.2, ih]
    omega
  | case2 n h => rw [endAround, if_neg h]

/-- Below `b` there is one number of each class that is zero when the sum is. -/
theorem endAround_unique (hb : 1 < b) (hr : r < b) (hmod : r ≡ n [MOD b - 1])
    (hzero : r = 0 ↔ n = 0) : r = endAround b n := by
  have hlt := endAround_lt hb n
  have hz := endAround_eq_zero (n := n) hb
  have hcong : r ≡ endAround b n [MOD b - 1] := hmod.trans (endAround_modEq hb n).symm
  obtain rfl | hpos := Nat.eq_zero_or_pos r
  · exact (hz.mpr (hzero.mp rfl)).symm
  · have hpos' : 0 < endAround b n := by omega
    obtain ⟨s, rfl⟩ : ∃ s, r = s + 1 := ⟨r - 1, by omega⟩
    obtain ⟨t, ht⟩ : ∃ t, endAround b n = t + 1 := ⟨endAround b n - 1, by omega⟩
    rw [ht] at hcong hlt ⊢
    have hst : s = t := (hcong.add_right_cancel' 1).eq_of_lt_of_lt (by omega) (by omega)
    rw [hst]

/-- **Two sums fold to one digit** when they are congruent, and zero both or neither. -/
theorem endAround_eq_iff (hb : 1 < b) {m : ℕ} :
    endAround b m = endAround b n ↔ m ≡ n [MOD b - 1] ∧ (m = 0 ↔ n = 0) := by
  constructor
  · intro h
    refine ⟨(endAround_modEq hb m).symm.trans (h ▸ endAround_modEq hb n), ?_⟩
    rw [← endAround_eq_zero hb, h, endAround_eq_zero hb]
  · rintro ⟨hmod, hzero⟩
    refine endAround_unique hb (endAround_lt hb m) ((endAround_modEq hb m).trans hmod) ?_
    rw [endAround_eq_zero hb, hzero]

/-- The largest digit stands for the sums that are multiples of `b - 1`, zero apart. -/
theorem endAround_eq_max (hb : 1 < b) :
    endAround b n = b - 1 ↔ n ≠ 0 ∧ b - 1 ∣ n := by
  have hself : endAround b (b - 1) = b - 1 := endAround_of_lt (by omega)
  have hmod : n ≡ b - 1 [MOD b - 1] ↔ b - 1 ∣ n := by
    rw [Nat.ModEq, Nat.mod_self, Nat.dvd_iff_mod_eq_zero]
  have hne : b - 1 ≠ 0 := by omega
  nth_rewrite 1 [← hself]
  rw [endAround_eq_iff hb, hmod, and_comm]
  refine and_congr_left fun _ => ?_
  rw [iff_false_right hne]

end Ofpagent.Lib
