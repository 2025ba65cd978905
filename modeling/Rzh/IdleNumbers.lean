import Rzh.Clock
import Rzh.Fifo
import Rzh.HumanTime

/-!
# The numbers of a transfer

human_bytes() and idle_get_numbers(), with the doubles that they calculate with.
-/
namespace Rzh

def ascii (s : String) : List UInt8 := s.toList.map fun c => c.toNat.toUInt8

/-- `(long)` of a size_t. -/
def asLong (n : UInt64) : Int := n.toInt64.toInt

def suffixes : List (List UInt8) := [ascii "B", ascii "kB", ascii "MB", ascii "GB"]

def bytesText (size base : UInt64) (suffix : List UInt8) : List UInt8 :=
  if base = 1 then printInt (asLong (size / base)) ++ 32 :: suffix
  else printInt (asLong (size / base)) ++ 46 :: (printZeros 2 ((size * 100 / base) % 100).toNat ++ 32 :: suffix)

/-- The loop over the suffixes that are left. -/
def suffixLoop (size base : UInt64) : List (List UInt8) → Option (List UInt8)
  | [] => none
  | suffix :: rest =>
    if size ≥ base ∧ size < base * 1024 then some (bytesText size base suffix)
    else suffixLoop size (base * 1024) rest

def humanBytesText (size : UInt64) : List UInt8 :=
  ((if size > 0 then suffixLoop size 1 suffixes else none)).getD (printInt (asLong size) ++ ascii " B")

/-- Whatever the text is, it is printed once. -/
def humanBytes (size : UInt64) (buf : List UInt8) (bufsiz : Int) : Option (List UInt8) :=
  (snprintf buf 0 (toSize bufsiz) (humanBytesText size)).map fun r => r.1

/-- A double as a size_t. -/
def doubleToSize (q : ℚ) : Option UInt64 :=
  if 0 ≤ q.num.tdiv q.den ∧ q.num.tdiv q.den < 0x10000000000000000 then
    some (UInt64.ofNat (q.num.tdiv q.den).toNat)
  else none

structure IdleState where
  command : Text
  recvStartCount : Int
  sendStartCount : Int
  callCnt : Int
  startTime : Timespec
  lastTime : Timespec

/-- The state when the transfer starts: nothing has been displayed yet. -/
def idleCreate (command : Text) (inputWritten outputWritten : Int) (startTime : Timespec) : IdleState where
  command := command
  recvStartCount := outputWritten
  sendStartCount := inputWritten
  callCnt := 0
  startTime := startTime
  lastTime := .zero

/-- The strings in the buffers of idle_numbers. -/
structure IdleNumbers where
  rnum : Text
  snum : Text
  rbps : Text
  sbps : Text
  xfertime : Text

/-- What idle_get_numbers() finds: the counts of the two pipes, the clock, and what is in its buffers' memory. -/
structure Readings where
  inputWritten : Int
  outputWritten : Int
  endTime : Timespec
  memory : Nat → UInt8

/-- The string that human_bytes() puts into one of the buffers. -/
def countString (memory : Nat → UInt8) (size : UInt64) : Option Text :=
  (humanBytes size (fresh memory 64) 64).map cText

/-- If no time has gone by it is taken to be a nanosecond. -/
def transferTime (idle : IdleState) (r : Readings) : ℚ :=
  let xfertime := timespecDiff r.endTime idle.startTime
  if xfertime ≤ 0 then double (1 / 1000000000) else xfertime

/-- human_time() of a double: its tenfold is a double, too. -/
def humanTimeDouble (dsecs : ℚ) (buf : List UInt8) (bufsiz : Int) : Option (List UInt8 × Int) := do
  let seconds ← doubleToInt dsecs
  let tenths ← doubleToInt (double (10 * dsecs))
  printTime seconds tenths buf bufsiz

def idleGetNumbers (idle : IdleState) (r : Readings) : Option IdleNumbers := do
  let xfertime := transferTime idle r
  let sendcnt := wrapInt (r.inputWritten - idle.sendStartCount)
  let snum ← countString r.memory (UInt64.ofNat (toSize sendcnt))
  let sendRate ← doubleToSize (double (double sendcnt / xfertime))
  let sbps ← countString r.memory sendRate
  let recvcnt := wrapInt (r.outputWritten - idle.recvStartCount)
  let rnum ← countString r.memory (UInt64.ofNat (toSize recvcnt))
  let recvRate ← doubleToSize (double (double recvcnt / xfertime))
  let rbps ← countString r.memory recvRate
  let time ← humanTimeDouble xfertime (fresh r.memory 64) 64
  some ⟨rnum, snum, rbps, sbps, cText time.1⟩

/-- The counts have not gone back and are ints, and it is not years since the transfer has started. -/
structure Readings.Sound (idle : IdleState) (r : Readings) : Prop where
  sent : 0 ≤ r.inputWritten - idle.sendStartCount
  sent_int : r.inputWritten - idle.sendStartCount ≤ 0x7fffffff
  received : 0 ≤ r.outputWritten - idle.recvStartCount
  received_int : r.outputWritten - idle.recvStartCount ≤ 0x7fffffff
  time : r.endTime.secs - idle.startTime.secs ≤ 200000000

/-- What goes whole into a buffer of 64 characters. -/
structure CountText (text : List UInt8) : Prop where
  no_nul : 0 ∉ text
  length : text.length < 64

section Texts

variable {size base : UInt64} {suffix : List UInt8}

/-- A long has at most 19 figures. -/
theorem length_asLong (n : UInt64) : (printInt (asLong n)).length ≤ 20 := by
  have hlo := n.toInt64.le_toInt
  have hhi := n.toInt64.toInt_lt
  have hfigures : (figures (asLong n).natAbs).length ≤ 19 := by
    apply length_figures (by omega)
    rw [asLong]
    omega
  have hsign := length_sign (asLong n)
  rw [printInt, List.length_append]
  omega

theorem suffixes_short : ∀ suffix ∈ suffixes, 0 ∉ suffix ∧ suffix.length ≤ 2 := by
  decide +kernel

theorem bytesText_short (size base : UInt64) (h : 0 ∉ suffix ∧ suffix.length ≤ 2) :
    CountText (bytesText size base suffix) := by
  have hlong := length_asLong (size / base)
  rw [bytesText]
  split
  · constructor
    · simp [no_nul_printInt, h.1]
    · rw [List.length_append, List.length_cons]
      omega
  · have hrem : ((size * 100 / base) % 100).toNat < 10 ^ 2 := by
      rw [UInt64.toNat_mod]
      exact Nat.mod_lt _ (by decide)
    have hzeros := length_printZeros (by omega) hrem
    constructor
    · simp [no_nul_printInt, no_nul_printZeros, h.1]
    · rw [List.length_append, List.length_cons, List.length_append, List.length_cons, hzeros]
      omega

theorem suffixLoop_short {text : List UInt8} {rest : List (List UInt8)}
    (hrest : ∀ suffix ∈ rest, 0 ∉ suffix ∧ suffix.length ≤ 2) (h : suffixLoop size base rest = some text) :
    CountText text := by
  induction rest generalizing base with
  | nil => cases h
  | cons suffix rest ih =>
    rw [suffixLoop] at h
    split at h
    · obtain rfl := Option.some.inj h
      exact bytesText_short size base (hrest suffix List.mem_cons_self)
    · exact ih (fun suffix hsuffix => hrest suffix (List.mem_cons_of_mem _ hsuffix)) h

theorem humanBytesText_short (size : UInt64) : CountText (humanBytesText size) := by
  have hlong := length_asLong size
  rw [humanBytesText]
  cases htext : (if size > 0 then suffixLoop size 1 suffixes else none) with
  | none =>
    have hbytes : 0 ∉ ascii " B" ∧ (ascii " B").length = 2 := by decide +kernel
    constructor
    · simp [no_nul_printInt, hbytes.1]
    · rw [Option.getD_none, List.length_append, hbytes.2]
      omega
  | some text =>
    split at htext
    · exact suffixLoop_short suffixes_short htext
    · cases htext

def countText (size : UInt64) : Text := ⟨humanBytesText size, (humanBytesText_short size).no_nul⟩

theorem cText_eq {block : List UInt8} {text : Text} (h : cString block = text.chars) : cText block = text := by
  cases text
  subst h
  rfl

/-- The buffers of idle_numbers are long enough for every count. -/
theorem countString_eq (memory : Nat → UInt8) (size : UInt64) :
    countString memory size = some (countText size) := by
  have hshort := humanBytesText_short size
  have hroom : 64 ≤ (fresh memory 64).length := Nat.le_of_eq (length_fresh memory 64).symm
  have hprint : snprintf (fresh memory 64) 0 (toSize 64) (humanBytesText size) = some _ :=
    snprintf_fits hshort.length hroom
  rw [countString, humanBytes, hprint, Option.map_some, Option.map_some]
  exact congrArg some (cText_eq (cString_append _ hshort.no_nul))

end Texts

section Numbers

variable {q : ℚ} {idle : IdleState} {r : Readings}

theorem doubleToSize_floor (hq : 0 ≤ q) (hfits : q < 0x10000000000000000) :
    doubleToSize q = some (UInt64.ofNat ⌊q⌋₊) := by
  have hlt : ⌊q⌋₊ < 0x10000000000000000 := (Nat.floor_lt hq).mpr (by exact_mod_cast hfits)
  rw [doubleToSize, tdiv_floor hq, if_pos, Int.toNat_natCast]
  constructor <;> omega

/-- The time that is taken is right to less than a microsecond. -/
theorem transferTime_error (idle : IdleState) (r : Readings) :
    |transferTime idle r - max 0 (r.endTime.secs - idle.startTime.secs)| ≤ 1 / 1000000 := by
  obtain ⟨hlo, hhi⟩ := abs_le.mp (timespecDiff_error r.endTime idle.startTime)
  have hnanosecond : (0 : ℚ) ≤ 1 / 1000000000 := by norm_num
  have hdouble := double_le hnanosecond
  have hdouble' := double_nonneg hnanosecond
  obtain hback | hforth := le_total (r.endTime.secs - idle.startTime.secs) 0
  · rw [transferTime, abs_le, max_eq_left hback]
    split <;> constructor <;> linarith
  · rw [transferTime, abs_le, max_eq_right hforth]
    split <;> constructor <;> linarith

/-- No count is so large that it could not be divided by it. -/
theorem lt_transferTime (idle : IdleState) (r : Readings) : 1 / 2 ^ 32 < transferTime idle r := by
  rw [transferTime]
  split
  · have hdouble := le_double (by norm_num : (0 : ℚ) ≤ 1 / 1000000000)
    linarith
  · rename_i h
    exact timespecDiff_pos (not_le.mp h)

section Rates

variable {cnt : Int} {time : ℚ}

/-- The quotient of a count and the time, as it is converted. -/
def rate (cnt : Int) (time : ℚ) : Nat := ⌊double (cnt / time)⌋₊

theorem double_count (hcnt : 0 ≤ cnt) (hint : cnt ≤ 0x7fffffff) : double (cnt : ℚ) = cnt :=
  double_intCast (abs_lt.mpr ⟨by omega, by omega⟩)

theorem quotient_nonneg (hcnt : 0 ≤ cnt) (htime : 1 / 2 ^ 32 < time) : 0 ≤ (cnt : ℚ) / time := by
  have hnonneg : (0 : ℚ) ≤ cnt := by exact_mod_cast hcnt
  exact div_nonneg hnonneg (by linarith)

theorem quotient_lt (hcnt : 0 ≤ cnt) (hint : cnt ≤ 0x7fffffff) (htime : 1 / 2 ^ 32 < time) :
    double ((cnt : ℚ) / time) < 2 ^ 63 := by
  have hpos : 0 < time := by linarith
  have hcnt' : (cnt : ℚ) ≤ 0x7fffffff := by exact_mod_cast hint
  have hquotient : (cnt : ℚ) / time ≤ 0x7fffffff * 2 ^ 32 := by
    rw [div_le_iff₀ hpos]
    linarith
  have hdouble := double_le (quotient_nonneg hcnt htime)
  linarith

/-- No rate is above that of two gigabytes in a quarter of a nanosecond. -/
theorem rate_lt (hcnt : 0 ≤ cnt) (hint : cnt ≤ 0x7fffffff) (htime : 1 / 2 ^ 32 < time) : rate cnt time < 2 ^ 63 := by
  rw [rate, Nat.floor_lt (double_nonneg (quotient_nonneg hcnt htime))]
  exact_mod_cast quotient_lt hcnt hint htime

/-- No rate is too large for a size_t. -/
theorem doubleToSize_rate (hcnt : 0 ≤ cnt) (hint : cnt ≤ 0x7fffffff) (htime : 1 / 2 ^ 32 < time) :
    doubleToSize (double (double cnt / time)) = some (UInt64.ofNat (rate cnt time)) := by
  have hlt := quotient_lt hcnt hint htime
  rw [double_count hcnt hint]
  exact doubleToSize_floor (double_nonneg (quotient_nonneg hcnt htime)) (by linarith)

end Rates

theorem transferTime_nonneg (idle : IdleState) (r : Readings) : 0 ≤ transferTime idle r := by
  have hlt := lt_transferTime idle r
  linarith

theorem Readings.Sound.transferTime_le (h : r.Sound idle) : transferTime idle r ≤ 200000001 := by
  have herror := (abs_le.mp (transferTime_error idle r)).2
  have hmax : max 0 (r.endTime.secs - idle.startTime.secs) ≤ 200000000 := max_le (by norm_num) h.time
  linarith

theorem Readings.Sound.sendcnt (h : r.Sound idle) :
    wrapInt (r.inputWritten - idle.sendStartCount) = r.inputWritten - idle.sendStartCount := by
  have hlo := h.sent
  have hhi := h.sent_int
  exact wrapInt_of_range (by omega) (by omega)

theorem Readings.Sound.recvcnt (h : r.Sound idle) :
    wrapInt (r.outputWritten - idle.recvStartCount) = r.outputWritten - idle.recvStartCount := by
  have hlo := h.received
  have hhi := h.received_int
  exact wrapInt_of_range (by omega) (by omega)

/-- The buffers are long enough for every time, too. -/
theorem Elapsed.room (d : Elapsed) : ((elapsedText d.tenths).length : Int) < 64 := by
  have hlength := length_elapsedText d.tenths_lt
  omega

theorem fresh_inside (memory : Nat → UInt8) (n : Nat) : (n : Int) ≤ (fresh memory n).length :=
  Int.ofNat_le.mpr (Nat.le_of_eq (length_fresh memory n).symm)

def timeBuffer (memory : Nat → UInt8) (d : Elapsed) : TimeBuffer d.tenths :=
  ⟨fresh memory 64, 64, d.room, fresh_inside memory 64⟩

def timeText (tenths : Nat) : Text :=
  ⟨elapsedText (tenths % 36000), no_nul_elapsedText (Nat.mod_lt tenths (Nat.succ_pos 35999))⟩

/-- A whole number of tenths. -/
def Elapsed.ofTenths (n : Nat) (h : n < 0x80000000) : Elapsed where
  secs := n / 10
  nonneg := by positivity
  fits := by
    have hcast : (n : ℚ) < 0x80000000 := by exact_mod_cast h
    linarith

@[simp] theorem Elapsed.tenths_ofTenths {n : Nat} (h : n < 0x80000000) : (ofTenths n h).tenths = n := by
  have hsecs : 10 * (ofTenths n h).secs = (n : ℚ) := mul_div_cancel₀ (n : ℚ) (by norm_num)
  rw [tenths, hsecs, Nat.floor_natCast]

/-- The whole seconds of a double, and the last figure of its tenfold. -/
def shownTenths (dsecs : ℚ) : Nat := 10 * ⌊dsecs⌋₊ + ⌊double (10 * dsecs)⌋₊ % 10

theorem shownTenths_lt {dsecs : ℚ} (hle : dsecs ≤ 200000001) : shownTenths dsecs < 0x80000000 := by
  have hwhole : ⌊dsecs⌋₊ ≤ 200000001 := Nat.floor_le_of_le (by exact_mod_cast hle)
  rw [shownTenths]
  omega

/-- A double is shown as the number that has the same seconds and the same tenths. -/
theorem humanTimeDouble_eq {dsecs : ℚ} (hnonneg : 0 ≤ dsecs) (hle : dsecs ≤ 200000001) (buf : List UInt8)
    (bufsiz : Int) :
    humanTimeDouble dsecs buf bufsiz = humanTime (Elapsed.ofTenths _ (shownTenths_lt hle)).secs buf bufsiz := by
  have hseconds : doubleToInt dsecs = some (⌊dsecs⌋₊ : Int) := doubleToInt_floor hnonneg (by linarith)
  have hten : 0 ≤ 10 * dsecs := by linarith
  have htenths : doubleToInt (double (10 * dsecs)) = some (⌊double (10 * dsecs)⌋₊ : Int) := by
    have hdouble := double_le hten
    exact doubleToInt_floor (double_nonneg hten) (by linarith)
  have hdiv : shownTenths dsecs / 10 = ⌊dsecs⌋₊ := by
    rw [shownTenths]
    omega
  rw [humanTimeDouble, humanTime, hseconds, htenths, Elapsed.doubleToInt_secs, Elapsed.doubleToInt_tenfold,
    Elapsed.tenths_ofTenths, hdiv]
  simp only [Option.bind_eq_bind, Option.bind_some]
  apply printTime_tmod
  rw [Int.tmod_eq_emod_of_nonneg (by omega), Int.tmod_eq_emod_of_nonneg (by omega), shownTenths]
  omega

theorem humanTimeDouble_prints {dsecs : ℚ} (hnonneg : 0 ≤ dsecs) (hle : dsecs ≤ 200000001) (memory : Nat → UInt8) :
    ∃ out cnt, humanTimeDouble dsecs (fresh memory 64) 64 = some (out, cnt) ∧
      cText out = timeText (shownTenths dsecs) := by
  obtain ⟨out, hout, hstring⟩ := humanTime_prints (.ofTenths _ (shownTenths_lt hle)) (timeBuffer memory _)
  rw [Elapsed.tenths_ofTenths] at hstring
  exact ⟨out, _, (humanTimeDouble_eq hnonneg hle _ _).trans hout, cText_eq hstring⟩

/-- Every number has a string, and nothing is cut off: only the hours are not there. -/
theorem idleGetNumbers_eq (h : r.Sound idle) :
    idleGetNumbers idle r = some
      { rnum := countText (UInt64.ofNat (r.outputWritten - idle.recvStartCount).toNat)
        snum := countText (UInt64.ofNat (r.inputWritten - idle.sendStartCount).toNat)
        rbps := countText (UInt64.ofNat (rate (r.outputWritten - idle.recvStartCount) (transferTime idle r)))
        sbps := countText (UInt64.ofNat (rate (r.inputWritten - idle.sendStartCount) (transferTime idle r)))
        xfertime := timeText (shownTenths (transferTime idle r)) } := by
  have htime := lt_transferTime idle r
  obtain ⟨out, cnt, hprint, htext⟩ :=
    humanTimeDouble_prints (transferTime_nonneg idle r) h.transferTime_le r.memory
  rw [idleGetNumbers]
  simp only [h.sendcnt, h.recvcnt, countString_eq, doubleToSize_rate h.sent h.sent_int htime,
    doubleToSize_rate h.received h.received_int htime, toSize_of_nonneg h.sent, toSize_of_nonneg h.received,
    hprint, Option.bind_eq_bind, Option.bind_some, htext]

end Numbers

end Rzh
