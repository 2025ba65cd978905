import Rzh.Idle

/-!
# The counts on the status line

The user sees a count with its unit and two places behind the point. Read as that, it is the count that it
stands for, rounded down.
-/
namespace Rzh

def unitSize (suffix : List UInt8) : Option Nat :=
  if suffix = ascii "B" then some 1
  else if suffix = ascii "kB" then some 1024
  else if suffix = ascii "MB" then some (1024 * 1024)
  else if suffix = ascii "GB" then some (1024 * 1024 * 1024)
  else none

/-- What is behind the figures: the hundredths and the unit. -/
def readUnit : List UInt8 → Option (Nat × Nat)
  | [] => none
  | c :: text =>
    if c = 32 then (unitSize text).map fun unit => (0, unit)
    else if c = 46 then
      (unitSize ((text.dropWhile decimal.isDigit).drop 1)).map fun unit =>
        (decimal.value (text.takeWhile decimal.isDigit), unit)
    else none

/-- A count as it is read, in hundredths of a byte. -/
def readBytes (text : List UInt8) : Option Nat :=
  if text.takeWhile decimal.isDigit = [] then none
  else
    (readUnit (text.dropWhile decimal.isDigit)).map fun r =>
      (100 * decimal.value (text.takeWhile decimal.isDigit) + r.1) * r.2

/-- It is never too large, less than a hundredth too small, and what is below a kB is exact. -/
def Shows (text : Text) (count : Nat) : Prop :=
  ∃ v, readBytes text.chars = some v ∧ v ≤ 100 * count ∧ 100 * count ≤ v + count ∧ (count < 1024 → v = 100 * count)

/-- A whole number of bytes for each second is shown: the quotient, which the division of doubles has made larger or
smaller by one part in 2^53 at the most, without what is behind its point. -/
def ShowsRate (text : Text) (count : Int) (time : ℚ) : Prop :=
  ∃ bps : Nat, Shows text bps ∧ bps ≤ count / time * (1 + 1 / 2 ^ 53) ∧ count / time * (1 - 1 / 2 ^ 53) < bps + 1

/-- The second count is not below the first. -/
def NotBelow (text text' : Text) : Prop :=
  ∃ v v', readBytes text.chars = some v ∧ readBytes text'.chars = some v' ∧ v ≤ v'

/-- The unit that a count is shown in: from 1024 GB on there is none but the byte. -/
def shownUnit (n : Nat) : Nat :=
  if n < 1024 then 1
  else if n < 1024 * 1024 then 1024
  else if n < 1024 * 1024 * 1024 then 1024 * 1024
  else if n < 1024 * 1024 * 1024 * 1024 then 1024 * 1024 * 1024
  else 1

def shownCount (n : Nat) : Nat := n * 100 / shownUnit n * shownUnit n

theorem shownUnit_cases (n : Nat) : shownUnit n = 1 ∨ 1024 ≤ shownUnit n ∧ shownUnit n ≤ n := by
  simp only [shownUnit]
  split_ifs <;> omega

theorem shownUnit_pos (n : Nat) : 0 < shownUnit n := by
  simp only [shownUnit]
  split_ifs <;> omega

theorem shownCount_le (n : Nat) : shownCount n ≤ 100 * n := by
  rw [shownCount, Nat.mul_comm 100]
  exact Nat.div_mul_le_self (n * 100) (shownUnit n)

theorem shownCount_one {n : Nat} (h : shownUnit n = 1) : shownCount n = 100 * n := by
  rw [shownCount, h, Nat.div_one, Nat.mul_one, Nat.mul_comm]

theorem le_shownCount (n : Nat) : 100 * n ≤ shownCount n + n := by
  obtain hone | ⟨-, hunit⟩ := shownUnit_cases n
  · rw [shownCount_one hone]
    exact Nat.le_add_right _ _
  · have hlt := Nat.lt_div_mul_add (a := n * 100) (shownUnit_pos n)
    rw [shownCount]
    omega

/-- A larger count is not shown as a smaller one, whatever the units are. -/
theorem shownCount_mono {n m : Nat} (h : n ≤ m) : shownCount n ≤ shownCount m := by
  have hle := shownCount_le n
  obtain hone | ⟨hlarge, hunit⟩ := shownUnit_cases m
  · rw [shownCount_one hone]
    omega
  · by_cases hn : shownUnit m ≤ n
    · have hsame : shownUnit n = shownUnit m := by
        revert hn hunit hlarge
        simp only [shownUnit]
        split_ifs <;> omega
      rw [shownCount, shownCount, hsame]
      exact Nat.mul_le_mul_right _ (Nat.div_le_div_right (Nat.mul_le_mul_right 100 h))
    · -- a whole unit is shown for what is at least that
      have hwhole : 100 * shownUnit m ≤ shownCount m := by
        rw [shownCount]
        apply Nat.mul_le_mul_right
        rw [Nat.le_div_iff_mul_le (shownUnit_pos m)]
        omega
      omega

section Reading

variable {digits rest : List UInt8} {c : UInt8}

theorem takeWhile_digits (hdigits : ∀ c ∈ digits, decimal.isDigit c = true) (hc : decimal.isDigit c = false)
    (rest : List UInt8) : (digits ++ c :: rest).takeWhile decimal.isDigit = digits := by
  rw [List.takeWhile_append_of_pos hdigits, List.takeWhile_cons_of_neg (by simp [hc]), List.append_nil]

theorem dropWhile_digits (hdigits : ∀ c ∈ digits, decimal.isDigit c = true) (hc : decimal.isDigit c = false)
    (rest : List UInt8) : (digits ++ c :: rest).dropWhile decimal.isDigit = c :: rest := by
  rw [List.dropWhile_append_of_pos hdigits, List.dropWhile_cons_of_neg (by simp [hc])]

theorem readBytes_figures (n : Nat) (hc : decimal.isDigit c = false) (rest : List UInt8) :
    readBytes (figures n ++ c :: rest) = (readUnit (c :: rest)).map fun r => (100 * n + r.1) * r.2 := by
  have hdigits : ∀ d ∈ figures n, decimal.isDigit d = true := fun d hd => isDigit_figures hd
  rw [readBytes, takeWhile_digits hdigits hc, dropWhile_digits hdigits hc, if_neg figures_ne_nil, value_figures]

theorem readBytes_whole (n : Nat) : readBytes (figures n ++ ascii " B") = some (100 * n) := by
  rw [show ascii " B" = 32 :: ascii "B" by decide +kernel, readBytes_figures n (by decide)]
  simp [readUnit, unitSize]

theorem readBytes_hundredths {suffix : List UInt8} {unit : Nat} (hunit : unitSize suffix = some unit) (n k : Nat) :
    readBytes (figures n ++ 46 :: (printZeros 2 k ++ 32 :: suffix)) = some ((100 * n + k) * unit) := by
  have hdigits : ∀ d ∈ printZeros 2 k, decimal.isDigit d = true := by
    intro d hd
    rw [printZeros_natCast] at hd
    exact isDigit_zeros hd
  have hvalue : decimal.value (printZeros 2 k) = k := by
    rw [printZeros_natCast, value_zeros, value_figures]
  rw [readBytes_figures n (by decide), readUnit, if_neg (by decide), if_pos rfl, takeWhile_digits hdigits (by decide),
    dropWhile_digits hdigits (by decide), List.drop_one, List.tail_cons, hunit, hvalue]
  rfl

end Reading

section Counts

variable {size : UInt64}

theorem asLong_small (h : size.toNat < 2 ^ 63) : asLong size = size.toNat := by
  have hlong : asLong size = size.toBitVec.toInt := rfl
  rw [hlong, BitVec.toInt_eq_toNat_of_lt, UInt64.toNat_toBitVec]
  rw [UInt64.toNat_toBitVec]
  omega

/-- The places before and behind the point together are what has been divided. -/
theorem readBytes_bytesText {base : UInt64} {suffix : List UInt8} (hbase : base ≠ 1)
    (hunit : unitSize suffix = some base.toNat) (h : size.toNat * 100 < 2 ^ 64) :
    readBytes (bytesText size base suffix) = some (size.toNat * 100 / base.toNat * base.toNat) := by
  have hdiv : (size / base).toNat = size.toNat / base.toNat := UInt64.toNat_div ..
  have hle : size.toNat / base.toNat ≤ size.toNat := Nat.div_le_self _ _
  have hmul : (size * 100).toNat = size.toNat * 100 := Nat.mod_eq_of_lt h
  have hrem : (size * 100 / base % 100).toNat = size.toNat * 100 / base.toNat % 100 := by
    rw [UInt64.toNat_mod, UInt64.toNat_div, hmul]
    rfl
  have hwhole : size.toNat * 100 / base.toNat / 100 = size.toNat / base.toNat := by
    rw [Nat.div_div_eq_div_mul, Nat.mul_div_mul_right _ _ (by decide)]
  rw [bytesText, if_neg hbase, asLong_small (by omega), hdiv, hrem, printInt_natCast, readBytes_hundredths hunit,
    ← hwhole, Nat.div_add_mod]

theorem bytesText_one (size : UInt64) : bytesText size 1 (ascii "B") = printInt (asLong size) ++ ascii " B" := by
  rw [bytesText, if_pos rfl, UInt64.div_one]
  rfl

/-- The loop's ranges are those of the units. -/
theorem suffixLoop_suffixes (size : UInt64) :
    suffixLoop size 1 suffixes =
      if 1 ≤ size.toNat ∧ size.toNat < 1024 then some (bytesText size 1 (ascii "B"))
      else if 1024 ≤ size.toNat ∧ size.toNat < 1048576 then some (bytesText size 1024 (ascii "kB"))
      else if 1048576 ≤ size.toNat ∧ size.toNat < 1073741824 then some (bytesText size 1048576 (ascii "MB"))
      else if 1073741824 ≤ size.toNat ∧ size.toNat < 1099511627776 then some (bytesText size 1073741824 (ascii "GB"))
      else none := by
  simp [suffixes, suffixLoop, UInt64.le_iff_toNat_le, UInt64.lt_iff_toNat_lt]

theorem readBytes_humanBytes (h : size.toNat < 2 ^ 63) :
    readBytes (humanBytesText size) = some (shownCount size.toNat) := by
  have hwhole : readBytes (printInt (asLong size) ++ ascii " B") = some (100 * size.toNat) := by
    rw [asLong_small h, printInt_natCast, readBytes_whole]
  have hsmall (base : UInt64) {suffix : List UInt8} (hbase : base ≠ 1) (hunit : unitSize suffix = some base.toNat)
      (hshown : shownUnit size.toNat = base.toNat) (hsize : size.toNat * 100 < 2 ^ 64) :
      readBytes (bytesText size base suffix) = some (shownCount size.toNat) := by
    rw [readBytes_bytesText hbase hunit hsize, shownCount, hshown]
  rw [humanBytesText, suffixLoop_suffixes]
  simp only [gt_iff_lt, UInt64.lt_iff_toNat_lt, UInt64.toNat_zero]
  split_ifs
  · rw [Option.getD_some, bytesText_one, hwhole, shownCount_one]
    exact if_pos (by omega)
  · refine hsmall 1024 (by decide) (by decide +kernel) ?_ (by omega)
    rw [shownUnit, if_neg (by omega), if_pos (by omega)]
    rfl
  · refine hsmall 1048576 (by decide) (by decide +kernel) ?_ (by omega)
    rw [shownUnit, if_neg (by omega), if_neg (by omega), if_pos (by omega)]
    rfl
  · refine hsmall 1073741824 (by decide) (by decide +kernel) ?_ (by omega)
    rw [shownUnit, if_neg (by omega), if_neg (by omega), if_neg (by omega), if_pos (by omega)]
    rfl
  · rw [Option.getD_none, hwhole, shownCount_one]
    rw [shownUnit, if_neg (by omega), if_neg (by omega), if_neg (by omega), if_neg (by omega)]
  · rw [Option.getD_none, hwhole, shownCount_one]
    exact if_pos (by omega)

theorem countText_shows (h : size.toNat < 2 ^ 63) : Shows (countText size) size.toNat := by
  refine ⟨_, readBytes_humanBytes h, shownCount_le _, le_shownCount _, fun hsmall => shownCount_one ?_⟩
  exact if_pos hsmall

theorem countText_notBelow {size' : UInt64} (h : size.toNat < 2 ^ 63) (h' : size'.toNat < 2 ^ 63)
    (hle : size.toNat ≤ size'.toNat) : NotBelow (countText size) (countText size') :=
  ⟨_, _, readBytes_humanBytes h, readBytes_humanBytes h', shownCount_mono hle⟩

end Counts

section Transfer

variable {idle : IdleState} {r r' : Readings}

theorem count_small {cnt : Int} (h : cnt ≤ 0x7fffffff) : (UInt64.ofNat cnt.toNat).toNat = cnt.toNat := by
  rw [UInt64.toNat_ofNat', Nat.mod_eq_of_lt (by omega)]

theorem count_shows {cnt : Int} (hint : cnt ≤ 0x7fffffff) : Shows (countText (UInt64.ofNat cnt.toNat)) cnt.toNat := by
  have hsize := count_small hint
  have hshows : Shows (countText (UInt64.ofNat cnt.toNat)) _ := countText_shows (by omega)
  rwa [hsize] at hshows

theorem count_notBelow {cnt cnt' : Int} (hint : cnt' ≤ 0x7fffffff) (hle : cnt ≤ cnt') :
    NotBelow (countText (UInt64.ofNat cnt.toNat)) (countText (UInt64.ofNat cnt'.toNat)) := by
  have hsize := count_small (show cnt ≤ 0x7fffffff by omega)
  have hsize' := count_small hint
  exact countText_notBelow (by omega) (by omega) (by omega)

theorem rate_shows {cnt : Int} {time : ℚ} (hcnt : 0 ≤ cnt) (hint : cnt ≤ 0x7fffffff) (htime : 1 / 2 ^ 32 < time) :
    ShowsRate (countText (UInt64.ofNat (rate cnt time))) cnt time := by
  have hlt := rate_lt hcnt hint htime
  have hsize : (UInt64.ofNat (rate cnt time)).toNat = rate cnt time := by
    rw [UInt64.toNat_ofNat', Nat.mod_eq_of_lt (by omega)]
  have hshows : Shows (countText (UInt64.ofNat (rate cnt time))) _ := countText_shows (by omega)
  rw [hsize] at hshows
  have hquotient := quotient_nonneg hcnt htime
  have hle := double_le hquotient
  have hge := le_double hquotient
  have hfloor := Nat.floor_le (double_nonneg hquotient)
  have hfloor' := Nat.lt_floor_add_one (double ((cnt : ℚ) / time))
  refine ⟨rate cnt time, hshows, ?_, ?_⟩
  · rw [rate]
    linarith
  · rw [rate]
    linarith

/-- The numbers of a transfer are true: each count is shown rounded down by less than a hundredth, each rate is that of
the time that has gone by, give or take a microsecond, and what has been shown of a count is never taken back. -/
theorem idleGetNumbers_shows (h : r.Sound idle) (h' : r'.Sound idle) (hin : r.inputWritten ≤ r'.inputWritten)
    (hout : r.outputWritten ≤ r'.outputWritten) :
    ∃ n n' time, idleGetNumbers idle r = some n ∧ idleGetNumbers idle r' = some n' ∧
      Shows n.rnum (r.outputWritten - idle.recvStartCount).toNat ∧
      Shows n.snum (r.inputWritten - idle.sendStartCount).toNat ∧
      0 < time ∧ |time - max 0 (r.endTime.secs - idle.startTime.secs)| ≤ 1 / 1000000 ∧
      ShowsRate n.rbps (r.outputWritten - idle.recvStartCount) time ∧
      ShowsRate n.sbps (r.inputWritten - idle.sendStartCount) time ∧
      NotBelow n.rnum n'.rnum ∧ NotBelow n.snum n'.snum := by
  have htime := lt_transferTime idle r
  refine ⟨_, _, transferTime idle r, idleGetNumbers_eq h, idleGetNumbers_eq h', ?_, ?_, ?_, ?_, ?_, ?_, ?_, ?_⟩
  · exact count_shows h.received_int
  · exact count_shows h.sent_int
  · linarith
  · exact transferTime_error idle r
  · exact rate_shows h.received h.received_int htime
  · exact rate_shows h.sent h.sent_int htime
  · exact count_notBelow h'.received_int (by omega)
  · exact count_notBelow h'.sent_int (by omega)

end Transfer

/-- A transfer that starts when the clock is at seven seconds. -/
def longTransfer : IdleState :=
  idleCreate (literal "rz") 100 5000 { Timespec.zero with sec := 7, sec_range := by omega }

/-- Twenty seconds into a transfer, and ten later. -/
theorem idleGetNumbers_shows_megabyte :
    ∃ r r' n n', idleGetNumbers longTransfer r = some n ∧ idleGetNumbers longTransfer r' = some n' ∧
      Shows n.rnum 1048577 ∧ NotBelow n.rnum n'.rnum := by
  have h : Readings.Sound longTransfer ⟨181, 1053577, ⟨27, 0, by omega, by omega⟩, fun _ => 0⟩ := by
    constructor <;> norm_num [longTransfer, idleCreate, Timespec.secs, Timespec.zero]
  have h' : Readings.Sound longTransfer ⟨211, 1600000, ⟨37, 0, by omega, by omega⟩, fun _ => 0⟩ := by
    constructor <;> norm_num [longTransfer, idleCreate, Timespec.secs, Timespec.zero]
  obtain ⟨n, n', -, hn, hn', hrnum, -, -, -, -, -, hnot, -⟩ := idleGetNumbers_shows h h' (by decide) (by decide)
  exact ⟨_, _, n, n', hn, hn', hrnum, hnot⟩

end Rzh
