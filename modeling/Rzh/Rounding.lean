import Mathlib.Algebra.Order.Field.Basic
import Mathlib.Algebra.Order.Field.Power
import Mathlib.Algebra.Order.Floor.Ring
import Mathlib.Data.Int.Log
import Mathlib.Tactic.Linarith
import Mathlib.Tactic.Ring

/-!
# Rounding to binary places

A number is rounded to as many binary places as a format has, to the nearest one and at a tie to the even one.
There is no largest and no smallest exponent, so this is the arithmetic of a format as long as it neither
overflows nor underflows.
-/
namespace Rounding

section

variable {K : Type} [Field K] [LinearOrder K] [IsStrictOrderedRing K] [FloorRing K]

/-- The nearest integer, and between two of them the even one. -/
def toEven (q : K) : ℤ :=
  if q - ⌊q⌋ < 1 / 2 then ⌊q⌋
  else if 1 / 2 < q - ⌊q⌋ then ⌊q⌋ + 1
  else if ⌊q⌋ % 2 = 0 then ⌊q⌋
  else ⌊q⌋ + 1

/-- How far apart the numbers of so many places are where `q` is. -/
def spacing (places : ℕ) (q : K) : K := 2 ^ (Int.log 2 |q| + 1 - places)

def round (places : ℕ) (q : K) : K := toEven (q / spacing places q) * spacing places q

variable (places : ℕ) (q : K)

theorem toEven_near : |(toEven q : K) - q| ≤ 1 / 2 := by
  have hlo := Int.floor_le q
  have hhi := Int.lt_floor_add_one q
  rw [toEven, abs_le]
  split_ifs <;> push_cast <;> constructor <;> linarith

theorem toEven_intCast (n : ℤ) : toEven (n : K) = n := by
  rw [toEven, Int.floor_intCast, sub_self, if_pos one_half_pos]

theorem spacing_pos : 0 < spacing places q := zpow_pos two_pos _

/-- A number is as many neighbours away from zero as there are places for, or half of that. -/
theorem spacing_le {q : K} (hq : q ≠ 0) : spacing places q ≤ 2 * (|q| / 2 ^ places) := by
  have hlog : (2 : K) ^ Int.log 2 |q| ≤ |q| := by
    exact_mod_cast Int.zpow_log_le_self (b := 2) one_lt_two (abs_pos.mpr hq)
  have hsplit : spacing places q = 2 * (2 ^ Int.log 2 |q| / 2 ^ places) := by
    rw [spacing, zpow_sub₀ two_ne_zero, zpow_add₀ two_ne_zero, zpow_one, zpow_natCast]
    ring
  rw [hsplit]
  have hpow : (0 : K) ≤ 2 ^ places := (pow_pos two_pos places).le
  exact mul_le_mul_of_nonneg_left (div_le_div_of_nonneg_right hlog hpow) two_pos.le

theorem round_near : |round places q - q| ≤ spacing places q / 2 := by
  have hpos := spacing_pos places q
  have hq : q = q / spacing places q * spacing places q := (div_mul_cancel₀ q hpos.ne').symm
  have hdiff : round places q - q = (toEven (q / spacing places q) - q / spacing places q) * spacing places q := by
    rw [sub_mul, ← hq, round]
  have hnear := mul_le_mul_of_nonneg_right (toEven_near (q / spacing places q)) hpos.le
  rw [hdiff, abs_mul, abs_of_pos hpos]
  linarith

/-- The error is small when it is compared with the number. -/
theorem round_error : |round places q - q| ≤ |q| / 2 ^ places := by
  by_cases hq : q = 0
  · have hzero : round places (0 : K) = 0 := by
      have hcast := toEven_intCast (K := K) 0
      rw [Int.cast_zero] at hcast
      rw [round, zero_div, hcast, Int.cast_zero, zero_mul]
    rw [hq, hzero, sub_zero, abs_zero, zero_div]
  · have hnear := round_near places q
    have hspacing := spacing_le places hq
    linarith

/-- Integers that have no more places than there are stay what they are. -/
theorem round_intCast {n : ℤ} (h : |n| < 2 ^ places) : round places (n : K) = n := by
  by_cases hn : n = 0
  · have herror := round_error places (n : K)
    rw [hn, Int.cast_zero, abs_zero, zero_div, sub_zero] at herror
    rw [hn, Int.cast_zero]
    exact abs_eq_zero.mp (le_antisymm herror (abs_nonneg _))
  · have habs : (0 : K) < |(n : K)| := abs_pos.mpr (Int.cast_ne_zero.mpr hn)
    -- the spacing is one or a power of two below it, so that nothing is left to be rounded
    have hlog : Int.log 2 |(n : K)| < places := by
      rw [← Int.lt_zpow_iff_log_lt one_lt_two habs]
      exact_mod_cast h
    obtain ⟨k, hk⟩ := Int.le.dest (Int.add_one_le_iff.mpr hlog)
    have hspacing : spacing places (n : K) = (2 ^ k)⁻¹ := by
      rw [spacing, ← zpow_natCast, ← zpow_neg]
      congr 1
      omega
    have hwhole : (n : K) / spacing places (n : K) = ((n * 2 ^ k : ℤ) : K) := by
      rw [hspacing, div_inv_eq_mul]
      push_cast
      ring
    rw [round, hwhole, toEven_intCast, ← hwhole, div_mul_cancel₀ _ (spacing_pos places (n : K)).ne']

theorem round_nonneg {q : K} (hq : 0 ≤ q) : 0 ≤ round places q := by
  have herror := (abs_le.mp (round_error places q)).1
  have hpow : (1 : K) ≤ 2 ^ places := one_le_pow₀ one_le_two
  have hsmall : |q| / 2 ^ places ≤ q := by
    rw [abs_of_nonneg hq]
    exact div_le_self hq hpow
  linarith

/-- Large numbers are far apart. -/
theorem round_multiple {k : ℕ} {q : K} (h : 2 ^ k ≤ |q|) :
    ∃ m : ℤ, round places q = m * 2 ^ ((k : ℤ) + 1 - places) := by
  have hpos : 0 < |q| := lt_of_lt_of_le (pow_pos two_pos k) h
  have hlog : (k : ℤ) ≤ Int.log 2 |q| := by
    rw [← Int.zpow_le_iff_le_log one_lt_two hpos]
    exact_mod_cast h
  obtain ⟨j, hj⟩ := Int.le.dest hlog
  refine ⟨toEven (q / spacing places q) * 2 ^ j, ?_⟩
  have hspacing : spacing places q = 2 ^ j * 2 ^ ((k : ℤ) + 1 - places) := by
    rw [spacing, ← zpow_natCast, ← zpow_add₀ two_ne_zero]
    congr 1
    omega
  rw [round]
  push_cast
  rw [mul_assoc, ← hspacing]

end

end Rounding
