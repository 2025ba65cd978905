import Mathlib.Data.Rat.Floor
import Mathlib.Tactic.NormNum
import Rzh.Rounding

/-!
# The clock

What clock_gettime() reads, and timespec_diff(), which makes doubles of it. They are compared with the seconds that
have really gone by.
-/
namespace Rzh

/-- A number as a double. Nothing here is near the largest or the smallest of them. -/
def double (q : ℚ) : ℚ := Rounding.round 53 q

/-- A reading of the clock, which has been running for less than 2^31 seconds. -/
structure Timespec where
  sec : Int
  nsec : Int
  sec_range : 0 ≤ sec ∧ sec < 0x80000000
  nsec_range : 0 ≤ nsec ∧ nsec < 1000000000
  deriving DecidableEq, Repr

namespace Timespec

/-- What memset() leaves of one. -/
def zero : Timespec := ⟨0, 0, by omega, by omega⟩

/-- A moment in seconds. -/
def secs (t : Timespec) : ℚ := t.sec + t.nsec / 1000000000

def toDouble (t : Timespec) : ℚ := double (double t.sec + double (double t.nsec / 1000000000))

end Timespec

/-- The difference in seconds, as a double. -/
def timespecDiff (finish start : Timespec) : ℚ := double (finish.toDouble - start.toDouble)

theorem double_error (q : ℚ) : |double q - q| ≤ |q| / 2 ^ 53 := Rounding.round_error 53 q

theorem double_intCast {n : Int} (h : |n| < 2 ^ 53) : double (n : ℚ) = n := Rounding.round_intCast 53 h

theorem double_nonneg {q : ℚ} (h : 0 ≤ q) : 0 ≤ double q := Rounding.round_nonneg 53 h

theorem double_le {q : ℚ} (h : 0 ≤ q) : double q ≤ q + q / 2 ^ 53 := by
  have herror := (abs_le.mp (double_error q)).2
  rw [abs_of_nonneg h] at herror
  linarith

theorem le_double {q : ℚ} (h : 0 ≤ q) : q - q / 2 ^ 53 ≤ double q := by
  have herror := (abs_le.mp (double_error q)).1
  rw [abs_of_nonneg h] at herror
  linarith

theorem double_nonpos {q : ℚ} (h : q ≤ 0) : double q ≤ 0 := by
  have herror := (abs_le.mp (double_error q)).2
  rw [abs_of_nonpos h] at herror
  linarith

namespace Timespec

variable (t : Timespec)

theorem nsecs_range : 0 ≤ (t.nsec : ℚ) / 1000000000 ∧ (t.nsec : ℚ) / 1000000000 < 1 := by
  have hlo : (0 : ℚ) ≤ t.nsec := by exact_mod_cast t.nsec_range.1
  have hhi : (t.nsec : ℚ) < 1000000000 := by exact_mod_cast t.nsec_range.2
  constructor <;> linarith

theorem sec_le_secs : (t.sec : ℚ) ≤ t.secs := by
  have hnsecs := t.nsecs_range.1
  rw [secs]
  linarith

theorem secs_lt : t.secs < t.sec + 1 := by
  have hnsecs := t.nsecs_range.2
  rw [secs]
  linarith

theorem secs_nonneg : 0 ≤ t.secs := by
  have hsec : (0 : ℚ) ≤ t.sec := by exact_mod_cast t.sec_range.1
  exact hsec.trans t.sec_le_secs

theorem secs_le : t.secs ≤ 2 ^ 31 := by
  have hsec : (t.sec : ℚ) + 1 ≤ 2 ^ 31 := by exact_mod_cast Int.add_one_le_of_lt t.sec_range.2
  exact t.secs_lt.le.trans hsec

/-- Only the fraction and the sum are rounded. -/
theorem toDouble_eq : t.toDouble = double (t.sec + double (t.nsec / 1000000000)) := by
  have hsec := t.sec_range
  have hnsec := t.nsec_range
  rw [toDouble, double_intCast (abs_lt.mpr ⟨by omega, by omega⟩), double_intCast (abs_lt.mpr ⟨by omega, by omega⟩)]

/-- The later the moment, the less exact it is. -/
theorem toDouble_error : |t.toDouble - t.secs| ≤ (t.secs + 2) / 2 ^ 53 := by
  have hsec : (0 : ℚ) ≤ t.sec := by exact_mod_cast t.sec_range.1
  obtain ⟨hlo, hhi⟩ := t.nsecs_range
  have hsum : 0 ≤ (t.sec : ℚ) + double (t.nsec / 1000000000) := add_nonneg hsec (double_nonneg hlo)
  have hfront := double_le hlo
  have hfront' := le_double hlo
  have hwhole := double_le hsum
  have hwhole' := le_double hsum
  rw [toDouble_eq, secs, abs_le]
  constructor <;> linarith

/-- From 2^21 seconds on the doubles are so far apart that two of them differ by 2^-31 at least. -/
theorem toDouble_multiple (h : 2 ^ 21 ≤ t.sec) : ∃ m : ℤ, t.toDouble = m / 2 ^ 31 := by
  have hsec : (2 : ℚ) ^ 21 ≤ t.sec := by exact_mod_cast h
  have hlarge : (2 : ℚ) ^ 21 ≤ |t.sec + double (t.nsec / 1000000000)| := by
    have hnonneg := double_nonneg t.nsecs_range.1
    exact (by linarith : (2 : ℚ) ^ 21 ≤ t.sec + double (t.nsec / 1000000000)).trans (le_abs_self _)
  obtain ⟨m, hm⟩ := Rounding.round_multiple 53 hlarge
  refine ⟨m, ?_⟩
  rw [toDouble_eq, double, hm, div_eq_mul_inv]
  norm_num

/-- Moments that are not the same are a nanosecond apart. -/
theorem secs_apart {t u : Timespec} (h : t ≠ u) : 1 / 1000000000 ≤ |t.secs - u.secs| := by
  have hdiff : t.secs - u.secs =
      ((((t.sec - u.sec) * 1000000000 + (t.nsec - u.nsec) : Int) : ℚ)) / 1000000000 := by
    rw [secs, secs]
    push_cast
    ring
  have hne : (t.sec - u.sec) * 1000000000 + (t.nsec - u.nsec) ≠ 0 := by
    intro hzero
    have ht := t.nsec_range
    have hu := u.nsec_range
    have hsec : t.sec = u.sec := by omega
    have hnsec : t.nsec = u.nsec := by omega
    cases t
    cases u
    subst hsec hnsec
    exact h rfl
  have hone : (1 : ℚ) ≤ |(((t.sec - u.sec) * 1000000000 + (t.nsec - u.nsec) : Int) : ℚ)| := by
    exact_mod_cast Int.one_le_abs hne
  rw [hdiff, abs_div, abs_of_pos (by norm_num : (0 : ℚ) < 1000000000)]
  linarith

end Timespec

section Differences

variable (finish start : Timespec)

/-- The doubles are right to less than a microsecond. -/
theorem timespecDiff_error : |timespecDiff finish start - (finish.secs - start.secs)| ≤ 3 / 4000000 := by
  obtain ⟨hfinish, hfinish'⟩ := abs_le.mp finish.toDouble_error
  obtain ⟨hstart, hstart'⟩ := abs_le.mp start.toDouble_error
  have hfinish_le := finish.secs_le
  have hstart_le := start.secs_le
  have hfinish_nonneg := finish.secs_nonneg
  have hstart_nonneg := start.secs_nonneg
  have hsize : |finish.toDouble - start.toDouble| ≤ 2 ^ 31 + 1 := by
    rw [abs_le]
    constructor <;> linarith
  obtain ⟨herror, herror'⟩ := abs_le.mp (double_error (finish.toDouble - start.toDouble))
  rw [timespecDiff, abs_le]
  constructor <;> linarith

variable {finish start}

/-- Before 2^21 seconds the doubles are finer than a nanosecond. -/
theorem toDouble_later (h : 1 / 1000000000 ≤ finish.secs - start.secs)
    (hfine : ¬ (2 ^ 21 ≤ finish.sec ∧ 2 ^ 21 ≤ start.sec)) :
    1 / 2 ^ 31 ≤ finish.toDouble - start.toDouble := by
  have hfinish := (abs_le.mp finish.toDouble_error).1
  have hstart := (abs_le.mp start.toDouble_error).2
  have hfinish_lt := finish.secs_lt
  have hstart_lo := start.sec_le_secs
  have hle : start.sec ≤ finish.sec := by
    have hlt : (start.sec : ℚ) < ((finish.sec + 1 : Int) : ℚ) := by
      push_cast
      linarith
    exact Int.lt_add_one_iff.mp (by exact_mod_cast hlt)
  by_cases hearly : finish.sec ≤ 2 ^ 21
  · have hfinish_le : (finish.sec : ℚ) ≤ 2 ^ 21 := by exact_mod_cast hearly
    linarith
  · -- a whole second lies between the two
    have hsec : (start.sec : ℚ) + 2 ≤ finish.sec := by exact_mod_cast (by omega : start.sec + 2 ≤ finish.sec)
    have hstart_lt := start.secs_lt
    have hfinish_lo := finish.sec_le_secs
    have hfinish_le := finish.secs_le
    linarith

/-- If the doubles of two moments differ, they do so by 2^-31 or more. -/
theorem toDouble_apart (h : start.toDouble < finish.toDouble) :
    1 / 2 ^ 31 ≤ finish.toDouble - start.toDouble := by
  by_cases hcoarse : 2 ^ 21 ≤ finish.sec ∧ 2 ^ 21 ≤ start.sec
  · obtain ⟨m, hm⟩ := finish.toDouble_multiple hcoarse.1
    obtain ⟨k, hk⟩ := start.toDouble_multiple hcoarse.2
    rw [hm, hk] at h ⊢
    have hlt : k < m := by
      exact_mod_cast (div_lt_div_iff_of_pos_right (by norm_num : (0 : ℚ) < 2 ^ 31)).mp h
    have hone : (k : ℚ) + 1 ≤ m := by exact_mod_cast hlt
    linarith
  · have hne : finish ≠ start := by
      rintro rfl
      exact lt_irrefl _ h
    obtain hlater | hearlier := le_abs.mp (Timespec.secs_apart hne)
    · exact toDouble_later hlater hcoarse
    · have hback := toDouble_later (by linarith : 1 / 1000000000 ≤ start.secs - finish.secs)
        fun hboth => hcoarse hboth.symm
      linarith

/-- A difference that is not zero is not so small that a count divided by it is too large for a long. -/
theorem timespecDiff_pos (h : 0 < timespecDiff finish start) : 1 / 2 ^ 32 < timespecDiff finish start := by
  have hlt : start.toDouble < finish.toDouble := by
    by_contra hle
    have hnonpos : finish.toDouble - start.toDouble ≤ 0 := by linarith
    exact absurd h (not_lt.mpr (double_nonpos hnonpos))
  have hapart := toDouble_apart hlt
  have hdouble := le_double (by linarith : 0 ≤ finish.toDouble - start.toDouble)
  rw [timespecDiff]
  linarith

end Differences

end Rzh
