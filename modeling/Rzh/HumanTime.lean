import Mathlib.Algebra.Order.Floor.Semifield
import Mathlib.Data.Rat.Floor
import Rzh.Printf

/-!
# The elapsed time as it is shown

human_time() on exact numbers of seconds, the tenfold of which is exact, too. What it is for is stated apart: a
text for every number of tenths of a second, from which the number is read back.
-/
namespace Rzh

/-- A double as an int, without what is behind the point. Of any other number the conversion is undefined. -/
def doubleToInt (q : ℚ) : Option Int :=
  if IntRange (q.num.tdiv q.den) then some (q.num.tdiv q.den) else none

/-- A buffer, the place in it where the next text belongs, and the room that is left from there on. -/
structure Cursor where
  buf : List UInt8
  cp : Int
  bufsiz : Int

/-- A text is printed to `dest`, and the cursor moves on. -/
def Cursor.print (c : Cursor) (dest : Int) (text : List UInt8) : Option Cursor :=
  (snprintf c.buf dest (toSize c.bufsiz) text).map fun r => ⟨r.1, c.cp + r.2, c.bufsiz - r.2⟩

/-- The two texts, when the seconds and the tenths are ints. -/
def printTime (seconds tenths : Int) (buf : List UInt8) (bufsiz : Int) : Option (List UInt8 × Int) := do
  let minutes := seconds.tdiv 60
  let hours := seconds.tdiv 3600
  let c : Cursor := ⟨buf, 0, bufsiz⟩
  let c ← if 0 < hours then c.print c.cp (printInt hours ++ [58]) else some c
  -- the second text goes to buf, not to cp
  let c ← c.print 0 (printInt (minutes.tmod 60) ++ 58 :: (printZeros 2 (seconds.tmod 60) ++
    46 :: printInt (tenths.tmod 10)))
  some (c.buf, c.cp)

def humanTime (dsecs : ℚ) (buf : List UInt8) (bufsiz : Int) : Option (List UInt8 × Int) := do
  let seconds ← doubleToInt dsecs
  let tenths ← doubleToInt (10 * dsecs)
  printTime seconds tenths buf bufsiz

/-- A time that human_time() is given, of which ten times as much is still an int. -/
structure Elapsed where
  secs : ℚ
  nonneg : 0 ≤ secs
  fits : 10 * secs < 0x80000000

def Elapsed.tenths (d : Elapsed) : Nat := ⌊10 * d.secs⌋₊

def clockText (minutes seconds tenths : Nat) : List UInt8 :=
  figures minutes ++ 58 :: (printZeros 2 seconds ++ 46 :: figures tenths)

/-- How a number of tenths is meant to be shown: the hours if there are any, minutes, seconds, tenths. -/
def elapsedText (tenths : Nat) : List UInt8 :=
  (if tenths < 36000 then [] else figures (tenths / 36000) ++ [58]) ++
    clockText (tenths / 600 % 60) (tenths / 10 % 60) (tenths % 10)

/-- What is in front of the first `c`, and what is behind it. -/
def cut (c : UInt8) (str : List UInt8) : List UInt8 × List UInt8 :=
  (str.takeWhile fun d => d ≠ c, (str.dropWhile fun d => d ≠ c).tail)

def readNumber (str : List UInt8) : Option Nat :=
  (decimal.scan str).bind fun num => if num.2 = [] then some num.1.toNat else none

def readClock (str : List UInt8) : Option Nat := do
  let minutes ← readNumber (cut 58 str).1
  let seconds ← readNumber (cut 46 (cut 58 str).2).1
  let tenths ← readNumber (cut 46 (cut 58 str).2).2
  some (600 * minutes + 10 * seconds + tenths)

/-- The number of tenths that a text shows. -/
def readElapsed (str : List UInt8) : Option Nat :=
  if 58 ∈ (cut 58 str).2 then do
    let hours ← readNumber (cut 58 str).1
    let rest ← readClock (cut 58 str).2
    some (36000 * hours + rest)
  else readClock str

/-- A buffer that has room for the text of a number of tenths. -/
structure TimeBuffer (tenths : Nat) where
  buf : List UInt8
  bufsiz : Int
  room : (elapsedText tenths).length < bufsiz
  inside : bufsiz ≤ buf.length

section Texts

variable {n m s t : Nat} {c : UInt8} {str front : List UInt8}

theorem readNumber_writes (h : decimal.Writes str n) : readNumber str = some n := by
  rw [readNumber, h.scan]
  rfl

theorem readNumber_figures (n : Nat) : readNumber (figures n) = some n := by
  rw [← printInt_natCast]
  exact readNumber_writes (printInt_writes n)

theorem readNumber_printZeros (k n : Nat) : readNumber (printZeros k n) = some n :=
  readNumber_writes (printZeros_writes k n)

/-- A text is cut at the first place. -/
theorem cut_append (back : List UInt8) (h : c ∉ front) : cut c (front ++ c :: back) = (front, back) := by
  have hfront : ∀ d ∈ front, decide (d ≠ c) = true := by
    intro d hd
    rw [decide_eq_true_eq]
    rintro rfl
    exact h hd
  rw [cut, List.takeWhile_append_of_pos hfront, List.dropWhile_append_of_pos hfront,
    List.takeWhile_cons_of_neg (by simp), List.dropWhile_cons_of_neg (by simp), List.append_nil, List.tail_cons]

theorem cut_clockText : cut 58 (clockText m s t) = (figures m, printZeros 2 s ++ 46 :: figures t) :=
  cut_append _ (not_mem_figures rfl)

theorem readClock_clockText (m s t : Nat) : readClock (clockText m s t) = some (600 * m + 10 * s + t) := by
  have hcut : cut 46 (printZeros 2 s ++ 46 :: figures t) = (printZeros 2 s, figures t) :=
    cut_append _ (not_mem_printZeros rfl)
  rw [readClock, cut_clockText, hcut, readNumber_figures, readNumber_printZeros, readNumber_figures]
  rfl

theorem not_mem_seconds (hdigit : decimal.isDigit c = false) (hpoint : c ≠ 46) :
    c ∉ printZeros 2 s ++ 46 :: figures t := by
  intro h
  obtain hseconds | hrest := List.mem_append.mp h
  · exact not_mem_printZeros hdigit hseconds
  · obtain hc | htenths := List.mem_cons.mp hrest
    · exact hpoint hc
    · exact not_mem_figures hdigit htenths

/-- There is only one colon in it. -/
theorem no_hours (m s t : Nat) : 58 ∉ (cut 58 (clockText m s t)).2 := by
  rw [cut_clockText]
  exact not_mem_seconds rfl (by decide)

theorem no_nul_clockText (m s t : Nat) : 0 ∉ clockText m s t := by
  intro h
  obtain hminutes | hrest := List.mem_append.mp h
  · exact not_mem_figures rfl hminutes
  · obtain hcolon | hrest := List.mem_cons.mp hrest
    · cases hcolon
    · exact not_mem_seconds rfl (by decide) hrest

theorem elapsedText_short (h : n < 36000) : elapsedText n = clockText (n / 600 % 60) (n / 10 % 60) (n % 10) := by
  rw [elapsedText, if_pos h, List.nil_append]

theorem elapsedText_long (h : 36000 ≤ n) :
    elapsedText n = figures (n / 36000) ++ 58 :: elapsedText (n % 36000) := by
  have hminutes : n % 36000 / 600 % 60 = n / 600 % 60 := by omega
  have hseconds : n % 36000 / 10 % 60 = n / 10 % 60 := by omega
  have htenths : n % 36000 % 10 = n % 10 := by omega
  rw [elapsedText_short (Nat.mod_lt n (by omega)), hminutes, hseconds, htenths, elapsedText, if_neg (by omega),
    List.append_assoc]
  rfl

/-- Every number of tenths is read back from its text. -/
theorem readElapsed_elapsedText (n : Nat) : readElapsed (elapsedText n) = some n := by
  by_cases h : n < 36000
  · have hsum : 600 * (n / 600 % 60) + 10 * (n / 10 % 60) + n % 10 = n := by omega
    rw [elapsedText_short h, readElapsed, if_neg (no_hours _ _ _), readClock_clockText, hsum]
  · have hcolon : 58 ∈ elapsedText (n % 36000) := by
      rw [elapsedText_short (Nat.mod_lt n (by omega))]
      exact List.mem_append_right _ List.mem_cons_self
    have hclock : readClock (elapsedText (n % 36000)) = some (n % 36000) := by
      rw [elapsedText_short (Nat.mod_lt n (by omega)), readClock_clockText]
      congr 1
      omega
    have hcut : cut 58 (elapsedText n) = (figures (n / 36000), elapsedText (n % 36000)) := by
      rw [elapsedText_long (by omega)]
      exact cut_append _ (not_mem_figures rfl)
    have hsum : 36000 * (n / 36000) + n % 36000 = n := Nat.div_add_mod n 36000
    rw [readElapsed, hcut, if_pos hcolon, readNumber_figures, hclock]
    exact congrArg some hsum

theorem elapsedText_injective : Function.Injective elapsedText := by
  intro n m h
  have hread := congrArg readElapsed h
  rw [readElapsed_elapsedText, readElapsed_elapsedText] at hread
  exact Option.some.inj hread

theorem no_nul_elapsedText (h : n < 36000) : 0 ∉ elapsedText n := by
  rw [elapsedText_short h]
  exact no_nul_clockText _ _ _

theorem length_clockText (hm : m < 100) (hs : s < 100) (ht : t < 10) : (clockText m s t).length ≤ 7 := by
  have hminutes : (figures m).length ≤ 2 := length_figures (by decide) (by omega)
  have hseconds : (printZeros 2 s).length = 2 := length_printZeros (by decide) (by omega)
  have htenths : (figures t).length ≤ 1 := length_figures (by decide) (by omega)
  rw [clockText, List.length_append, List.length_cons, List.length_append, List.length_cons]
  omega

theorem length_elapsedText_short (h : n < 36000) : (elapsedText n).length ≤ 7 := by
  rw [elapsedText_short h]
  exact length_clockText (by omega) (by omega) (by omega)

theorem length_elapsedText_long (h : 36000 ≤ n) :
    (elapsedText n).length = (figures (n / 36000)).length + 1 + (elapsedText (n % 36000)).length := by
  rw [elapsedText_long h, List.length_append, List.length_cons]
  omega

/-- The longest text has five figures for the hours. -/
theorem length_elapsedText (h : n < 0x80000000) : (elapsedText n).length ≤ 13 := by
  have hrest := length_elapsedText_short (Nat.mod_lt n (by omega : 0 < 36000))
  by_cases hlong : 36000 ≤ n
  · have hhours : (figures (n / 36000)).length ≤ 5 := length_figures (by decide) (by omega)
    rw [length_elapsedText_long hlong]
    omega
  · have hshort := length_elapsedText_short (by omega : n < 36000)
    omega

end Texts

section Conversions

variable {q : ℚ} (d : Elapsed)

/-- What a number that is not negative is converted to is its floor. -/
theorem tdiv_floor (hq : 0 ≤ q) : q.num.tdiv q.den = (⌊q⌋₊ : Int) := by
  rw [Int.tdiv_eq_ediv_of_nonneg (Rat.num_nonneg.mpr hq), ← Rat.floor_def', Int.natCast_floor_eq_floor hq]

theorem doubleToInt_floor (hq : 0 ≤ q) (hfits : q < 0x80000000) : doubleToInt q = some (⌊q⌋₊ : Int) := by
  have hlt : ⌊q⌋₊ < 0x80000000 := (Nat.floor_lt hq).mpr (by exact_mod_cast hfits)
  rw [doubleToInt, tdiv_floor hq, if_pos]
  constructor <;> omega

theorem Elapsed.nonneg_tenfold : 0 ≤ 10 * d.secs := by
  have h := d.nonneg
  linarith

theorem Elapsed.tenths_lt : d.tenths < 0x80000000 :=
  (Nat.floor_lt d.nonneg_tenfold).mpr (by exact_mod_cast d.fits)

/-- The seconds are the tenths without the last figure. -/
theorem Elapsed.floor_secs : ⌊d.secs⌋₊ = d.tenths / 10 := by
  have hsecs : d.secs = 10 * d.secs / 10 := by ring
  rw [tenths, ← Nat.floor_div_ofNat, ← hsecs]

theorem Elapsed.tenths_lt_iff : d.tenths < 36000 ↔ d.secs < 3600 := by
  rw [tenths, Nat.floor_lt d.nonneg_tenfold]
  push_cast
  constructor
  · intro h
    linarith
  · intro h
    linarith

theorem Elapsed.doubleToInt_secs : doubleToInt d.secs = some ((d.tenths / 10 : Nat) : Int) := by
  have h := d.fits
  have hnonneg := d.nonneg
  rw [← d.floor_secs]
  exact doubleToInt_floor d.nonneg (by linarith)

theorem Elapsed.doubleToInt_tenfold : doubleToInt (10 * d.secs) = some (d.tenths : Int) :=
  doubleToInt_floor d.nonneg_tenfold d.fits

end Conversions

section Runs

/-- What a text that fits leaves behind at the beginning of the buffer. -/
structure Cursor.Printed (c : Cursor) (text : List UInt8) (c' : Cursor) : Prop where
  begins : ∃ rest, c'.buf = text ++ 0 :: rest
  length : c'.buf.length = c.buf.length
  cp : c'.cp = c.cp + text.length
  bufsiz : c'.bufsiz = c.bufsiz - text.length

theorem Cursor.print_start (c : Cursor) (text : List UInt8) (hroom : (text.length : Int) < c.bufsiz)
    (hinside : c.bufsiz ≤ c.buf.length) (hint : text.length ≤ 0x7fffffff) :
    ∃ c', c.print 0 text = some c' ∧ c.Printed text c' := by
  have hsize : toSize c.bufsiz = c.bufsiz.toNat := toSize_of_nonneg (by omega)
  have hcount : printed text = text.length := if_pos hint
  refine ⟨⟨text ++ 0 :: c.buf.drop (text.length + 1), c.cp + text.length, c.bufsiz - text.length⟩, ?_, ?_⟩
  · rw [print, hsize, snprintf_fits (by omega) (by omega), hcount]
    rfl
  · constructor
    · exact ⟨_, rfl⟩
    · rw [List.length_append, List.length_cons, List.length_drop]
      omega
    · rfl
    · rfl

variable (d : Elapsed)

theorem Elapsed.hours : ((d.tenths / 10 : Nat) : Int).tdiv 3600 = ((d.tenths / 36000 : Nat) : Int) := by
  rw [Int.tdiv_eq_ediv_of_nonneg (by omega)]
  omega

/-- What is printed last has the minutes, the seconds and the tenths, and no hours. -/
theorem Elapsed.clock : printInt ((((d.tenths / 10 : Nat) : Int).tdiv 60).tmod 60) ++
    58 :: (printZeros 2 (((d.tenths / 10 : Nat) : Int).tmod 60) ++ 46 :: printInt ((d.tenths : Int).tmod 10)) =
      elapsedText (d.tenths % 36000) := by
  have hminutes : (((d.tenths / 10 : Nat) : Int).tdiv 60).tmod 60 = ((d.tenths % 36000 / 600 % 60 : Nat) : Int) := by
    rw [Int.tdiv_eq_ediv_of_nonneg (by omega), Int.tmod_eq_emod_of_nonneg (by omega)]
    omega
  have hseconds : ((d.tenths / 10 : Nat) : Int).tmod 60 = ((d.tenths % 36000 / 10 % 60 : Nat) : Int) := by
    rw [Int.tmod_eq_emod_of_nonneg (by omega)]
    omega
  have htenths : (d.tenths : Int).tmod 10 = ((d.tenths % 36000 % 10 : Nat) : Int) := by
    rw [Int.tmod_eq_emod_of_nonneg (by omega)]
    omega
  rw [hminutes, hseconds, htenths, printInt_natCast, printInt_natCast, elapsedText_short (Nat.mod_lt _ (by omega))]
  rfl

/-- Of the tenths only the last figure is printed. -/
theorem printTime_tmod (seconds : Int) {tenths tenths' : Int} (h : tenths.tmod 10 = tenths'.tmod 10)
    (buf : List UInt8) (bufsiz : Int) :
    printTime seconds tenths buf bufsiz = printTime seconds tenths' buf bufsiz := by
  rw [printTime, printTime, h]

/-- The text of the hours is printed if there are any, and the other one in any case at the beginning. -/
theorem Elapsed.humanTime_eq (buf : List UInt8) (bufsiz : Int) :
    humanTime d.secs buf bufsiz =
      (if 36000 ≤ d.tenths then Cursor.print ⟨buf, 0, bufsiz⟩ 0 (figures (d.tenths / 36000) ++ [58])
        else some ⟨buf, 0, bufsiz⟩).bind fun c =>
          (c.print 0 (elapsedText (d.tenths % 36000))).bind fun c => some (c.buf, c.cp) := by
  rw [humanTime, d.doubleToInt_secs, d.doubleToInt_tenfold]
  simp only [printTime, Option.bind_eq_bind, Option.bind_some, d.clock, d.hours, printInt_natCast]
  by_cases hlong : 36000 ≤ d.tenths
  · rw [if_pos hlong, if_pos (by omega)]
  · rw [if_neg hlong, if_neg (by omega)]
    rfl

/-- What the cursor has been through does not show in the string, but it does in the count. -/
theorem Elapsed.print_clock (c : Cursor) (hroom : ((elapsedText (d.tenths % 36000)).length : Int) < c.bufsiz)
    (hinside : c.bufsiz ≤ c.buf.length) :
    ∃ out, ((c.print 0 (elapsedText (d.tenths % 36000))).bind fun c => some (c.buf, c.cp)) =
        some (out, c.cp + ((elapsedText (d.tenths % 36000)).length : Int)) ∧
      cString out = elapsedText (d.tenths % 36000) := by
  have hclock : d.tenths % 36000 < 36000 := Nat.mod_lt _ (by omega)
  have hlength := length_elapsedText_short hclock
  obtain ⟨c', hprint, hc'⟩ := c.print_start (elapsedText (d.tenths % 36000)) hroom hinside (by omega)
  obtain ⟨rest, hbuf⟩ := hc'.begins
  refine ⟨c'.buf, ?_, ?_⟩
  · rw [hprint, Option.bind_some, hc'.cp]
  · rw [hbuf, cString_append rest (no_nul_elapsedText hclock)]

/-- The hours are printed over, but they are counted. -/
theorem humanTime_prints (b : TimeBuffer d.tenths) :
    ∃ out, humanTime d.secs b.buf b.bufsiz = some (out, ((elapsedText d.tenths).length : Int)) ∧
      cString out = elapsedText (d.tenths % 36000) := by
  have hroom := b.room
  have hinside := b.inside
  have hint := length_elapsedText d.tenths_lt
  rw [d.humanTime_eq]
  by_cases hlong : 36000 ≤ d.tenths
  · -- the room behind the hours is enough for the rest, which nevertheless goes to the beginning
    have hlength := length_elapsedText_long hlong
    have hhours : (figures (d.tenths / 36000) ++ [58]).length = (figures (d.tenths / 36000)).length + 1 :=
      List.length_append
    obtain ⟨c, hprint, hc⟩ := Cursor.print_start ⟨b.buf, 0, b.bufsiz⟩ (figures (d.tenths / 36000) ++ [58])
      (by show (_ : Int) < b.bufsiz; omega) hinside (by omega)
    have hcp : c.cp = 0 + ((figures (d.tenths / 36000) ++ [58]).length : Int) := hc.cp
    have hbufsiz : c.bufsiz = b.bufsiz - (figures (d.tenths / 36000) ++ [58]).length := hc.bufsiz
    have hblock : c.buf.length = b.buf.length := hc.length
    have hcnt : c.cp + ((elapsedText (d.tenths % 36000)).length : Int) = (elapsedText d.tenths).length := by
      omega
    rw [if_pos hlong, hprint, Option.bind_some, ← hcnt]
    exact d.print_clock c (by omega) (by omega)
  · have hsame : d.tenths % 36000 = d.tenths := Nat.mod_eq_of_lt (by omega)
    have hcnt : (0 : Int) + ((elapsedText (d.tenths % 36000)).length : Int) = (elapsedText d.tenths).length := by
      rw [hsame]
      omega
    rw [if_neg hlong, Option.bind_some, ← hcnt]
    exact d.print_clock ⟨b.buf, 0, b.bufsiz⟩ (by rw [hsame]; exact hroom) hinside

end Runs

section Hours

variable {n m : Nat}

theorem elapsedText_mod_iff : elapsedText (n % 36000) = elapsedText n ↔ n < 36000 := by
  constructor
  · intro h
    have hmod := elapsedText_injective h
    omega
  · intro h
    rw [Nat.mod_eq_of_lt h]

theorem length_elapsedText_mod_iff :
    (elapsedText n).length = (elapsedText (n % 36000)).length ↔ n < 36000 := by
  constructor
  · intro h
    by_contra hlong
    rw [length_elapsedText_long (by omega)] at h
    omega
  · intro h
    rw [Nat.mod_eq_of_lt h]

/-- The string and the count are right for the times below an hour and no others, and two times are shown
alike if they differ by whole hours. -/
theorem humanTime_faithful_iff (d e : Elapsed) (b : TimeBuffer d.tenths) (c : TimeBuffer e.tenths) :
    ∃ out cnt out' cnt', humanTime d.secs b.buf b.bufsiz = some (out, cnt) ∧
      humanTime e.secs c.buf c.bufsiz = some (out', cnt') ∧
      (cString out = elapsedText d.tenths ↔ d.secs < 3600) ∧
      (readElapsed (cString out) = some d.tenths ↔ d.secs < 3600) ∧
      (cnt = (cString out).length ↔ d.secs < 3600) ∧
      (cString out = cString out' ↔ d.tenths % 36000 = e.tenths % 36000) := by
  obtain ⟨out, hout, hstring⟩ := humanTime_prints d b
  obtain ⟨out', hout', hstring'⟩ := humanTime_prints e c
  refine ⟨out, _, out', _, hout, hout', ?_, ?_, ?_, ?_⟩
  · rw [hstring, elapsedText_mod_iff, d.tenths_lt_iff]
  · rw [hstring, readElapsed_elapsedText, Option.some_inj, ← d.tenths_lt_iff]
    omega
  · rw [hstring, Int.ofNat_inj, length_elapsedText_mod_iff, d.tenths_lt_iff]
  · rw [hstring, hstring', elapsedText_injective.eq_iff]

/-- An hour is shown as no time at all, and two characters are counted that are not there. -/
theorem humanTime_hour : ∃ d : Elapsed, d.secs = 3600 ∧ d.tenths = 36000 ∧
    elapsedText 36000 = [49, 58, 48, 58, 48, 48, 46, 48] ∧
    (humanTime d.secs (List.replicate 64 0) 64).map (fun r => (cString r.1, r.2)) =
      some ([48, 58, 48, 48, 46, 48], 8) ∧
    (humanTime 0 (List.replicate 64 0) 64).map (fun r => (cString r.1, r.2)) =
      some ([48, 58, 48, 48, 46, 48], 6) ∧
    readElapsed [48, 58, 48, 48, 46, 48] = some 0 := by
  refine ⟨⟨3600, by norm_num, by norm_num⟩, rfl, ?_⟩
  decide +kernel

end Hours

end Rzh
