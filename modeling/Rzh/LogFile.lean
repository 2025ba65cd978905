import Rzh.IdleNumbers

/-!
# The log file

What logio() reports goes through sanitize(), so that it can stand in a C string, and into the log between the other
messages. This is about getting it back from there.
-/
namespace Rzh

/-- What sanitize() puts for a character. The char is signed: above 127 it is below 32. -/
def sanitizeChar (c : UInt8) : List UInt8 :=
  if c < 32 ∨ 127 ≤ c then [92, ((c >>> 6) &&& 7) + 48, ((c >>> 3) &&& 7) + 48, (c &&& 7) + 48]
  else if c = 34 then [92, 34]
  else [c]

def sanitizeMax : Nat := 256 / 4 - 1

/-- The comparison is one of size_t, and a negative number is a large one. -/
def sanitizeCount (n : Int) : Nat := if sanitizeMax < toSize n then sanitizeMax else n.toNat

/-- `n` more characters from `s[i]` on, to `*cp`. -/
def sanitizeLoop (s : List UInt8) : Nat → Nat → Int → List UInt8 → Option (List UInt8)
  | 0, _, cp, buf => store buf cp 0
  | n + 1, i, cp, buf =>
    s[i]?.bind fun c => (stores buf cp (sanitizeChar c)).bind fun buf =>
      sanitizeLoop s n (i + 1) (cp + (sanitizeChar c).length) buf

/-- The static buffer is the first argument. -/
def sanitize (buf s : List UInt8) (n : Int) : Option (List UInt8) := sanitizeLoop s (sanitizeCount n) 0 0 buf

/-- The log file is open or not; if it is, this is what has been written to it. -/
structure Log where
  gPrio : Int
  gLogfile : Option (List UInt8)

def logPrefixes : List (List UInt8) :=
  [ascii "!!!!", ascii "WTF!", ascii "CRIT", ascii "ERR!", ascii "warn", ascii "note", ascii "info", ascii "dbug"]

def logPrefix (prio : Int) : List UInt8 :=
  if prio < 0 then ascii "????" else logPrefixes.getD prio.toNat (ascii "????")

/-- The text is what the format and its arguments come to. -/
def logVmsg (l : Log) (prio : Int) (text : List UInt8) : Log :=
  if l.gLogfile.isNone ∨ l.gPrio < prio then l
  else { l with gLogfile := l.gLogfile.map (· ++ (logPrefix prio ++ (ascii ": " ++ (text ++ [10])))) }

/-- The words that logio() is called with. -/
inductive Logio where
  | read | write
  deriving DecidableEq, Repr

def Logio.gr1 : Logio → List UInt8
  | read => ascii "Read"
  | write => ascii "Write"

def Logio.gr2 : Logio → List UInt8
  | read => ascii "from"
  | write => ascii "to"

/-- A call of logio(); `buf` is the memory from the pointer on. -/
structure IoReport where
  io : Logio
  fd : Int
  buf : List UInt8
  cnt : Int
  act : Int
  errno : Int

namespace IoReport

variable (r : IoReport)

/-- The first few bytes that are printed. -/
def shown : Int := min 16 r.act

def beforeText : List UInt8 :=
  r.io.gr1 ++ (32 :: printInt r.act ++ (ascii " bytes " ++ (r.io.gr2 ++ (32 :: printInt r.fd ++
    (ascii ": (" ++ (printInt r.cnt ++ [41, 9, 9]))))))

def dots : List UInt8 := if 0 < r.act - r.shown then ascii "..." else []

def errorText (strerror : Int → Text) : List UInt8 :=
  r.io.gr1 ++ (ascii " error from " ++ (printInt r.fd ++ (ascii ": " ++ (printInt r.errno ++
    (ascii " (" ++ ((strerror r.errno).chars ++ [41]))))))

end IoReport

def logInfo : Int := 6

def logErr : Int := 3

/-- The rest of the buffer is not printed: LOG_BUFFER_CONTENTS is 0. -/
def logio (strerror : Int → Text) (r : IoReport) (l : Log) (buf : List UInt8) : Option (Log × List UInt8) :=
  if 0 ≤ r.act then
    (sanitize buf r.buf r.shown).map fun buf =>
      (logVmsg l logInfo (r.beforeText ++ 34 :: (cString buf ++ 34 :: r.dots)), buf)
  else some (logVmsg l logErr (r.errorText strerror), buf)

inductive LogEntry where
  | io (r : IoReport)
  | message (prio : Int) (text : List UInt8)

namespace LogEntry

def prio : LogEntry → Int
  | io r => if 0 ≤ r.act then logInfo else logErr
  | message prio _ => prio

def run (strerror : Int → Text) (l : Log) (buf : List UInt8) : LogEntry → Option (Log × List UInt8)
  | io r => logio strerror r l buf
  | message prio text => some (logVmsg l prio text, buf)

/-- The messages are of one line, and what has been read or written is in the memory. -/
def Fair : LogEntry → Prop
  | io r => r.act ≤ r.buf.length
  | message _ text => 10 ∉ text

end LogEntry

def logRun (strerror : Int → Text) : List LogEntry → Log → List UInt8 → Option (Log × List UInt8)
  | [], l, buf => some (l, buf)
  | entry :: entries, l, buf => (entry.run strerror l buf).bind fun s => logRun strerror entries s.1 s.2

/-- What log_init() writes to a log file that it has opened. -/
def logHeader (fd : Int) : List (List UInt8) := [ascii " -=-  vi:syn=c", ascii "open: FD Log: " ++ printInt fd]

def logInit (prio fd : Int) : Log := ⟨prio, some ((logHeader fd).flatMap (· ++ [10]))⟩

/-- The lines of a file, each up to its newline. -/
def logLines : List UInt8 → List (List UInt8)
  | [] => []
  | c :: text => if c = 10 then [] :: logLines text else (logLines text).modifyHead (c :: ·)

/-- How far a character of a C string has been read: behind its backslash, and with the value of its digits. -/
inductive Unquote where
  | plain
  | backslash
  | digit (a : Nat)
  | digits (a : Nat)
  deriving DecidableEq, Repr

/-- A C string is read up to its closing quote: its characters, and what follows. -/
def unquote : Unquote → List UInt8 → Option (List UInt8 × List UInt8)
  | _, [] => none
  | .plain, c :: text =>
    if c = 34 then some ([], text)
    else if c = 92 then unquote .backslash text
    else if 32 ≤ c ∧ c < 127 then (unquote .plain text).map fun r => (c :: r.1, r.2)
    else none
  | .backslash, c :: text =>
    if c = 34 then (unquote .plain text).map fun r => (34 :: r.1, r.2)
    else if 48 ≤ c ∧ c ≤ 51 then unquote (.digit (c.toNat - 48)) text
    else none
  | .digit a, c :: text => if 48 ≤ c ∧ c ≤ 55 then unquote (.digits (8 * a + (c.toNat - 48))) text else none
  | .digits a, c :: text =>
    if 48 ≤ c ∧ c ≤ 55 then
      (unquote .plain text).map fun r => (UInt8.ofNat (8 * a + (c.toNat - 48)) :: r.1, r.2)
    else none

/-- The string of a line of the log, and what follows it. -/
def readLine (line : List UInt8) : Option (List UInt8 × List UInt8) :=
  unquote .plain ((line.dropWhile (· ≠ 34)).drop 1)

/-- What the line of an entry tells about it. -/
def LogEntry.Tells (strerror : Int → Text) (line : List UInt8) : LogEntry → Prop
  | io r =>
    (r.act < 0 → line = logPrefix logErr ++ (ascii ": " ++ r.errorText strerror)) ∧
      (0 ≤ r.act → logPrefix logInfo ++ (ascii ": " ++ r.beforeText) <+: line ∧
        (readLine line = some (r.buf.take r.shown.toNat, r.dots) ↔ 92 ∉ r.buf.take r.shown.toNat))
  | message prio text => line = logPrefix prio ++ (ascii ": " ++ text)

/-- What sanitize() makes of a string. -/
def sanitizeText (s : List UInt8) : List UInt8 := s.flatMap sanitizeChar

@[simp] theorem sanitizeText_nil : sanitizeText [] = [] := rfl

@[simp] theorem sanitizeText_cons (c : UInt8) (s : List UInt8) :
    sanitizeText (c :: s) = sanitizeChar c ++ sanitizeText s := rfl

def Printable (c : UInt8) : Prop := 32 ≤ c ∧ c < 127

instance : DecidablePred Printable := fun c => inferInstanceAs (Decidable (32 ≤ c ∧ c < 127))

section Characters

variable {c : UInt8}

theorem octal_digit {d : UInt8} (h : d.toNat < 8) : (d + 48).toNat = d.toNat + 48 := by
  rw [UInt8.toNat_add]
  simp
  omega

/-- The three digits of a character are those of its number in base 8. -/
theorem octal_digits (c : UInt8) :
    (((c >>> 6) &&& 7) + 48).toNat = c.toNat / 64 % 8 + 48 ∧ (((c >>> 3) &&& 7) + 48).toNat = c.toNat / 8 % 8 + 48 ∧
      ((c &&& 7) + 48).toNat = c.toNat % 8 + 48 := by
  have hand (n : Nat) : n &&& 7 = n % 8 := Nat.and_two_pow_sub_one_eq_mod n 3
  refine ⟨?_, ?_, ?_⟩
  · rw [octal_digit] <;> simp [hand, Nat.shiftRight_eq_div_pow]
    omega
  · rw [octal_digit] <;> simp [hand, Nat.shiftRight_eq_div_pow]
    omega
  · rw [octal_digit] <;> simp [hand]
    omega

theorem printable_iff : Printable c ↔ 32 ≤ c.toNat ∧ c.toNat < 127 := by
  simp [Printable, UInt8.le_iff_toNat_le, UInt8.lt_iff_toNat_lt]

theorem printable_char (c : UInt8) : ∀ d ∈ sanitizeChar c, Printable d := by
  obtain ⟨h₁, h₂, h₃⟩ := octal_digits c
  rw [sanitizeChar]
  split
  · simp only [List.mem_cons, List.not_mem_nil, or_false, forall_eq_or_imp, forall_eq, printable_iff]
    refine ⟨by decide, ?_, ?_, ?_⟩ <;> omega
  · rename_i hc
    split
    · simp only [List.mem_cons, List.not_mem_nil, or_false, forall_eq_or_imp, forall_eq, printable_iff]
      decide
    · simpa [Printable] using hc

theorem printable_text (s : List UInt8) : ∀ d ∈ sanitizeText s, Printable d := by
  intro d hd
  obtain ⟨c, -, hc⟩ := List.mem_flatMap.mp hd
  exact printable_char c d hc

theorem not_mem_text (h : ¬ Printable c) (s : List UInt8) : c ∉ sanitizeText s :=
  fun hc => h (printable_text s c hc)

theorem length_char_le (c : UInt8) : (sanitizeChar c).length ≤ 4 := by
  rw [sanitizeChar]
  split
  · exact Nat.le_refl 4
  · split
    · simp
    · simp

theorem length_text_le (s : List UInt8) : (sanitizeText s).length ≤ 4 * s.length := by
  induction s with
  | nil => exact Nat.le_refl 0
  | cons c s ih =>
    have hchar := length_char_le c
    simp only [sanitizeText_cons, List.length_append, List.length_cons]
    omega

theorem unquote_octal {a b d : UInt8} {x y z : Nat} (ha : a.toNat = x + 48) (hb : b.toNat = y + 48)
    (hd : d.toNat = z + 48) (hx : x < 4) (hy : y < 8) (hz : z < 8) (text : List UInt8) :
    unquote .plain (92 :: a :: b :: d :: text) =
      (unquote .plain text).map fun r => (UInt8.ofNat (8 * (8 * x + y) + z) :: r.1, r.2) := by
  have hquote : a ≠ 34 := by
    rintro rfl
    have hvalue : (34 : UInt8).toNat = 34 := rfl
    omega
  simp only [unquote, if_neg hquote, UInt8.le_iff_toNat_le, ha, hb, hd, UInt8.toNat_ofNat, Nat.add_sub_cancel]
  rw [if_neg (by decide), if_pos trivial, if_pos (by omega), if_pos (by omega), if_pos (by omega)]

/-- A character is read back, unless it is a backslash. -/
theorem unquote_char (hc : c ≠ 92) (text : List UInt8) :
    unquote .plain (sanitizeChar c ++ text) = (unquote .plain text).map fun r => (c :: r.1, r.2) := by
  rw [sanitizeChar]
  split
  · obtain ⟨h₁, h₂, h₃⟩ := octal_digits c
    have hlt := c.toNat_lt
    have hvalue : UInt8.ofNat (8 * (8 * (c.toNat / 64 % 8) + c.toNat / 8 % 8) + c.toNat % 8) = c := by
      rw [← UInt8.toNat_inj, UInt8.toNat_ofNat']
      omega
    have hread := unquote_octal h₁ h₂ h₃ (by omega) (by omega) (by omega) text
    rwa [hvalue] at hread
  · rename_i hprintable
    split
    · rename_i hquote
      subst hquote
      simp [unquote]
    · rename_i hquote
      simp only [not_or, UInt8.not_lt, UInt8.not_le] at hprintable
      simp [unquote, hquote, hc, hprintable]

/-- Where there is no backslash the string is read back. -/
theorem unquote_text {s : List UInt8} (hs : 92 ∉ s) (rest : List UInt8) :
    unquote .plain (sanitizeText s ++ 34 :: rest) = some (s, rest) := by
  induction s with
  | nil => simp [unquote]
  | cons c s ih =>
    rw [List.mem_cons, not_or] at hs
    rw [sanitizeText_cons, List.append_assoc, unquote_char (Ne.symm hs.1), ih hs.2, Option.map_some]

/-- How many characters have been read of the one that is being read. -/
def Unquote.taken : Unquote → Nat
  | .plain => 0
  | .backslash => 1
  | .digit _ => 2
  | .digits _ => 3

theorem sanitizeChar_plain (hprintable : Printable c) (hquote : c ≠ 34) : sanitizeChar c = [c] := by
  rw [sanitizeChar, if_neg, if_neg hquote]
  rw [not_or, UInt8.not_lt, UInt8.not_le]
  exact hprintable

theorem length_char (c : UInt8) : (sanitizeChar c).length + [c].count 92 ≤ 4 := by
  by_cases hc : c = 92
  · subst hc
    decide
  · rw [List.count_singleton, if_neg (by simpa using hc)]
    exact length_char_le c

/-- What is read has at least the length that sanitize() gives it. -/
theorem length_unquote {σ : Unquote} {text out rest : List UInt8} (h : unquote σ text = some (out, rest)) :
    (sanitizeText out).length + out.count 92 + rest.length < text.length + σ.taken := by
  induction text generalizing σ out rest with
  | nil => cases σ <;> cases h
  | cons c text ih =>
    cases σ with
    | plain =>
      rw [unquote] at h
      split at h
      · cases h
        simp [Unquote.taken]
      · rename_i hquote
        split at h
        · have := ih h
          simp only [Unquote.taken, List.length_cons] at this ⊢
          omega
        · rename_i hbackslash
          split at h
          · rename_i hprintable
            obtain ⟨r, hr, h⟩ := Option.map_eq_some_iff.mp h
            cases h
            have := ih hr
            simp only [Unquote.taken, List.length_cons, sanitizeText_cons, sanitizeChar_plain hprintable hquote,
              List.length_append, List.length_nil, List.count_cons_of_ne hbackslash] at this ⊢
            omega
          · cases h
    | backslash =>
      rw [unquote] at h
      split at h
      · obtain ⟨r, hr, h⟩ := Option.map_eq_some_iff.mp h
        cases h
        have := ih hr
        have hchar : (sanitizeChar 34).length = 2 := rfl
        simp only [Unquote.taken, List.length_cons, sanitizeText_cons, List.length_append, hchar,
          List.count_cons_of_ne (by decide : (34 : UInt8) ≠ 92)] at this ⊢
        omega
      · split at h
        · have := ih h
          simp only [Unquote.taken, List.length_cons] at this ⊢
          omega
        · cases h
    | digit a =>
      rw [unquote] at h
      split at h
      · have := ih h
        simp only [Unquote.taken, List.length_cons] at this ⊢
        omega
      · cases h
    | digits a =>
      rw [unquote] at h
      split at h
      · obtain ⟨r, hr, h⟩ := Option.map_eq_some_iff.mp h
        cases h
        have := ih hr
        have hchar := length_char (UInt8.ofNat (8 * a + (c.toNat - 48)))
        rw [← List.singleton_append, List.count_append]
        simp only [Unquote.taken, List.length_cons, List.singleton_append, sanitizeText_cons,
          List.length_append] at this ⊢
        omega
      · cases h

/-- The string is read back if and only if there is no backslash in it. -/
theorem unquote_text_iff (s rest : List UInt8) :
    unquote .plain (sanitizeText s ++ 34 :: rest) = some (s, rest) ↔ 92 ∉ s := by
  refine ⟨fun h hmem => ?_, fun hs => unquote_text hs rest⟩
  have hlength := length_unquote h
  have hcount : 0 < s.count 92 := List.count_pos_iff.mpr hmem
  simp only [Unquote.taken, List.length_append, List.length_cons] at hlength
  omega

example : unquote .plain (sanitizeText [92, 48, 48, 49] ++ [34]) = some ([1], []) := by decide

end Characters

section Buffer

variable {buf s : List UInt8}

theorem store_eq_stores (buf : List UInt8) (i : Int) (c : UInt8) : store buf i c = stores buf i [c] := by
  rw [stores]
  cases store buf i c with
  | none => rfl
  | some block => rfl

theorem stores_append (block : List UInt8) (i : Int) (cs ds : List UInt8) :
    stores block i (cs ++ ds) = (stores block i cs).bind fun block => stores block (i + cs.length) ds := by
  induction cs generalizing block i with
  | nil => simp [stores]
  | cons c cs ih =>
    rw [List.cons_append, stores, stores]
    cases store block i c with
    | none => rfl
    | some block =>
      rw [Option.bind_some, Option.bind_some, ih, List.length_cons]
      congr 1
      funext block
      congr 1
      push_cast
      ring

/-- Within the string the loop stores what sanitize() makes of it, and a NUL. -/
theorem sanitizeLoop_eq (s : List UInt8) {n i : Nat} (h : i + n ≤ s.length) (cp : Int) (buf : List UInt8) :
    sanitizeLoop s n i cp buf = stores buf cp (sanitizeText ((s.drop i).take n) ++ [0]) := by
  induction n generalizing i cp buf with
  | zero => exact store_eq_stores buf cp 0
  | succ n ih =>
    have hlt : i < s.length := by omega
    rw [sanitizeLoop, List.getElem?_eq_getElem hlt, Option.bind_some, List.drop_eq_getElem_cons hlt,
      List.take_succ_cons, sanitizeText_cons, List.append_assoc, stores_append]
    congr 1
    funext buf
    exact ih (by omega) _ buf

theorem sanitizeCount_le (n : Int) : sanitizeCount n ≤ sanitizeMax := by
  rw [sanitizeCount]
  split
  · exact Nat.le_refl sanitizeMax
  · rename_i hle
    by_cases hn : n < 0
    · simp [Int.toNat_of_nonpos (Int.le_of_lt hn)]
    · rw [toSize_of_nonneg (by omega)] at hle
      omega

/-- The text and its NUL are within the buffer. -/
theorem sanitize_eq {n : Int} (hbuf : buf.length = 256) (h : sanitizeCount n ≤ s.length) :
    ∃ rest, sanitize buf s n = some (sanitizeText (s.take (sanitizeCount n)) ++ 0 :: rest) ∧
      (sanitizeText (s.take (sanitizeCount n)) ++ 0 :: rest).length = 256 := by
  have hcount : sanitizeCount n ≤ 63 := sanitizeCount_le n
  have hlength := length_text_le (s.take (sanitizeCount n))
  rw [List.length_take] at hlength
  rw [sanitize, sanitizeLoop_eq s (by omega), List.drop_zero]
  generalize sanitizeText (s.take (sanitizeCount n)) = text at hlength ⊢
  refine ⟨buf.drop (text.length + 1), ?_, ?_⟩
  · have hinside : 0 + (text ++ [0]).length ≤ buf.length := by
      rw [List.length_append, List.length_singleton]
      omega
    have hstores := stores_inside hinside
    simpa using hstores
  · simp only [List.length_append, List.length_cons, List.length_drop]
    omega

end Buffer

section Lines

variable {strerror : Int → Text} {buf line : List UInt8} {c : UInt8}

theorem not_mem_printInt (hdigit : decimal.isDigit c = false) (hsign : c ≠ 45) (v : Int) : c ∉ printInt v := by
  rw [printInt, sign, List.mem_append, not_or]
  refine ⟨?_, not_mem_figures hdigit⟩
  split
  · simpa using hsign
  · simp

theorem not_mem_logPrefix (hc : c = 10 ∨ c = 34) (prio : Int) : c ∉ logPrefix prio := by
  have hprefixes : ∀ words ∈ ascii "????" :: logPrefixes, 10 ∉ words ∧ 34 ∉ words := by decide +kernel
  have hmem : logPrefix prio ∈ ascii "????" :: logPrefixes := by
    rw [logPrefix]
    split
    · exact List.mem_cons_self
    · rw [List.getD_eq_getElem?_getD]
      cases hget : logPrefixes[prio.toNat]? with
      | none => exact List.mem_cons_self
      | some words => exact List.mem_cons_of_mem _ (List.mem_of_getElem? hget)
  obtain rfl | rfl := hc
  · exact (hprefixes _ hmem).1
  · exact (hprefixes _ hmem).2

theorem not_mem_gr (hc : c = 10 ∨ c = 34) (io : Logio) : c ∉ io.gr1 ∧ c ∉ io.gr2 := by
  obtain rfl | rfl := hc
  · cases io <;> decide +kernel
  · cases io <;> decide +kernel

theorem not_mem_beforeText (hc : c = 10 ∨ c = 34) (r : IoReport) : c ∉ r.beforeText := by
  obtain ⟨hgr₁, hgr₂⟩ := not_mem_gr hc r.io
  obtain rfl | rfl := hc
  · have hint := not_mem_printInt (c := 10) (by decide) (by decide)
    have hwords : 10 ∉ ascii " bytes " ∧ 10 ∉ ascii ": (" := by decide +kernel
    simp [IoReport.beforeText, hgr₁, hgr₂, hint, hwords]
  · have hint := not_mem_printInt (c := 34) (by decide) (by decide)
    have hwords : 34 ∉ ascii " bytes " ∧ 34 ∉ ascii ": (" := by decide +kernel
    simp [IoReport.beforeText, hgr₁, hgr₂, hint, hwords]

theorem not_mem_dots (r : IoReport) : 10 ∉ r.dots := by
  rw [IoReport.dots]
  split
  · decide +kernel
  · simp

theorem not_mem_errorText (hstrerror : ∀ e, 10 ∉ (strerror e).chars) (r : IoReport) :
    10 ∉ r.errorText strerror := by
  have hint := not_mem_printInt (c := 10) (by decide) (by decide)
  have hwords : 10 ∉ ascii " error from " ∧ 10 ∉ ascii ": " ∧ 10 ∉ ascii " (" := by decide +kernel
  simp [IoReport.errorText, (not_mem_gr (.inl rfl) r.io).1, hint, hwords, hstrerror]

/-- Before the text of the buffer there is no quote. -/
theorem readLine_eq {front : List UInt8} (h : 34 ∉ front) (text : List UInt8) :
    readLine (front ++ 34 :: text) = unquote .plain text := by
  have hall : ∀ c ∈ front, decide (c ≠ 34) = true := by
    intro c hc
    rw [decide_eq_true_iff]
    rintro rfl
    exact h hc
  rw [readLine, List.dropWhile_append_of_pos hall]
  rfl

theorem sanitizeCount_shown {r : IoReport} (hact : 0 ≤ r.act) : sanitizeCount r.shown = r.shown.toNat := by
  rw [IoReport.shown, sanitizeCount, toSize_of_nonneg (by omega), if_neg]
  rw [sanitizeMax]
  omega

theorem logVmsg_open (p prio : Int) (out text : List UInt8) :
    logVmsg ⟨p, some out⟩ prio text =
      ⟨p, some (out ++ if prio ≤ p then logPrefix prio ++ (ascii ": " ++ text) ++ [10] else [])⟩ := by
  rw [logVmsg]
  by_cases h : prio ≤ p
  · rw [if_neg (by simpa using h), if_pos h]
    simp
  · rw [if_pos (by simpa using h), if_neg h, List.append_nil]

/-- An entry writes its line, if the log's priority lets it. -/
theorem LogEntry.run_line (hstrerror : ∀ e, 10 ∉ (strerror e).chars) {entry : LogEntry} (hfair : entry.Fair)
    (hbuf : buf.length = 256) (p : Int) (out : List UInt8) :
    ∃ line buf', entry.run strerror ⟨p, some out⟩ buf =
        some (⟨p, some (out ++ if entry.prio ≤ p then line ++ [10] else [])⟩, buf') ∧
      buf'.length = 256 ∧ 10 ∉ line ∧ entry.Tells strerror line := by
  have hcolon : 10 ∉ ascii ": " ∧ 34 ∉ ascii ": " := by decide +kernel
  cases entry with
  | message prio text =>
    have htext : 10 ∉ text := hfair
    refine ⟨_, buf, congrArg (fun l => some (l, buf)) (logVmsg_open p prio out text), hbuf, ?_, rfl⟩
    simp [not_mem_logPrefix (.inl rfl), hcolon, htext]
  | io r =>
    by_cases hact : 0 ≤ r.act
    · have hprio : LogEntry.prio (.io r) = logInfo := if_pos hact
      have hcount := sanitizeCount_shown hact
      have hlength : sanitizeCount r.shown ≤ r.buf.length := by
        have hle : r.act ≤ r.buf.length := hfair
        rw [hcount, IoReport.shown]
        omega
      obtain ⟨rest, hs, hlength'⟩ := sanitize_eq hbuf hlength
      rw [hcount] at hs hlength'
      have hstring := cString_append rest (not_mem_text (by decide) (r.buf.take r.shown.toNat))
      refine ⟨logPrefix logInfo ++ (ascii ": " ++ (r.beforeText ++ 34 ::
        (sanitizeText (r.buf.take r.shown.toNat) ++ 34 :: r.dots))), _, ?_, hlength', ?_, ?_, ?_⟩
      · rw [LogEntry.run, logio, if_pos hact, hs, Option.map_some, hstring, logVmsg_open, hprio]
      · simp [not_mem_logPrefix (.inl rfl), hcolon, not_mem_beforeText (.inl rfl), not_mem_dots,
          not_mem_text (c := 10) (by decide)]
      · intro hneg
        omega
      · intro _
        refine ⟨⟨34 :: (sanitizeText (r.buf.take r.shown.toNat) ++ 34 :: r.dots), by simp⟩, ?_⟩
        have hfront : 34 ∉ logPrefix logInfo ++ (ascii ": " ++ r.beforeText) := by
          simp [not_mem_logPrefix (.inr rfl), hcolon, not_mem_beforeText (.inr rfl)]
        have hread := readLine_eq hfront (sanitizeText (r.buf.take r.shown.toNat) ++ 34 :: r.dots)
        simp only [List.append_assoc] at hread
        rw [hread]
        exact unquote_text_iff _ _
    · have hprio : LogEntry.prio (.io r) = logErr := if_neg hact
      refine ⟨logPrefix logErr ++ (ascii ": " ++ r.errorText strerror), buf, ?_, hbuf, ?_, fun _ => rfl, fun h => ?_⟩
      · rw [LogEntry.run, logio, if_neg hact, logVmsg_open, hprio]
      · simp [not_mem_logPrefix (.inl rfl), hcolon, not_mem_errorText hstrerror]
      · omega

/-- The lines of one file after those of another. -/
theorem logLines_append (hline : 10 ∉ line) (text : List UInt8) :
    logLines (line ++ 10 :: text) = line :: logLines text := by
  induction line with
  | nil => simp [logLines]
  | cons c line ih =>
    rw [List.mem_cons, not_or] at hline
    rw [List.cons_append, logLines, if_neg (Ne.symm hline.1), ih hline.2]
    rfl

theorem logLines_flatMap {lines : List (List UInt8)} (h : ∀ line ∈ lines, 10 ∉ line) :
    logLines (lines.flatMap (· ++ [10])) = lines := by
  induction lines with
  | nil => rfl
  | cons line lines ih =>
    rw [List.forall_mem_cons] at h
    rw [List.flatMap_cons, List.append_assoc, List.singleton_append, logLines_append h.1, ih h.2]

theorem logRun_lines (hstrerror : ∀ e, 10 ∉ (strerror e).chars) {entries : List LogEntry}
    (hfair : ∀ entry ∈ entries, entry.Fair) (hbuf : buf.length = 256) (p : Int) (out : List UInt8) :
    ∃ lines buf', logRun strerror entries ⟨p, some out⟩ buf =
        some (⟨p, some (out ++ lines.flatMap (· ++ [10]))⟩, buf') ∧ (∀ line ∈ lines, 10 ∉ line) ∧
      List.Forall₂ (fun line entry => entry.Tells strerror line) lines
        (entries.filter fun entry => entry.prio ≤ p) := by
  induction entries generalizing buf out with
  | nil => exact ⟨[], buf, by simp [logRun], by simp, .nil⟩
  | cons entry entries ih =>
    rw [List.forall_mem_cons] at hfair
    obtain ⟨line, buf₁, hrun, hbuf₁, hline, htells⟩ := LogEntry.run_line hstrerror hfair.1 hbuf p out
    obtain ⟨lines, buf₂, hrest, hlines, hall⟩ := ih hfair.2 hbuf₁ (out ++ if entry.prio ≤ p then line ++ [10] else [])
    rw [logRun, hrun, Option.bind_some, hrest]
    by_cases hprio : entry.prio ≤ p
    · refine ⟨line :: lines, buf₂, by simp [hprio], List.forall_mem_cons.mpr ⟨hline, hlines⟩, ?_⟩
      rw [List.filter_cons_of_pos (by simpa using hprio)]
      exact .cons htells hall
    · refine ⟨lines, buf₂, by simp [hprio], hlines, ?_⟩
      rw [List.filter_cons_of_neg (by simpa using hprio)]
      exact hall

theorem not_mem_logHeader (fd : Int) : ∀ line ∈ logHeader fd, 10 ∉ line := by
  have hint := not_mem_printInt (c := 10) (by decide) (by decide)
  have hwords : 10 ∉ ascii " -=-  vi:syn=c" ∧ 10 ∉ ascii "open: FD Log: " := by decide +kernel
  simp [logHeader, hint, hwords]

end Lines

/-- The log has a line for each entry that its priority lets through, in order, whatever has been read or written.
What a line shows of it, which is its first 16 bytes, can be read back as the C string that it looks like if and only
if there is no backslash among them. -/
theorem logRun_readsBack {strerror : Int → Text} (hstrerror : ∀ e, 10 ∉ (strerror e).chars) {entries : List LogEntry}
    (hfair : ∀ entry ∈ entries, entry.Fair) {buf : List UInt8} (hbuf : buf.length = 256) (prio fd : Int) :
    ∃ out buf' lines, logRun strerror entries (logInit prio fd) buf = some (⟨prio, some out⟩, buf') ∧
      logLines out = logHeader fd ++ lines ∧
      List.Forall₂ (fun line entry => entry.Tells strerror line) lines
        (entries.filter fun entry => entry.prio ≤ prio) := by
  obtain ⟨lines, buf', hrun, hlines, htells⟩ :=
    logRun_lines hstrerror hfair hbuf prio ((logHeader fd).flatMap (· ++ [10]))
  refine ⟨_, buf', lines, hrun, ?_, htells⟩
  rw [← List.flatMap_append]
  refine logLines_flatMap fun line hline => ?_
  obtain hheader | hline := List.mem_append.mp hline
  · exact not_mem_logHeader fd line hheader
  · exact hlines line hline

def someError : Text := ⟨ascii "Resource temporarily unavailable", by decide +kernel⟩

/-- A read, a message that is not important enough, a failed write and a read with a backslash. -/
def mixedEntries : List LogEntry :=
  [.io ⟨.read, 5, [42, 42, 24, 66, 48, 13, 10], 8192, 7, 0⟩, .message 7 (ascii "updating display"),
    .io ⟨.write, 1, [], 7, -1, 11⟩, .io ⟨.read, 5, [92, 48, 48, 49], 8192, 4, 0⟩]

theorem logRun_readsBack_mixed :
    ∃ out buf' lines, logRun (fun _ => someError) mixedEntries (logInit 6 3) (List.replicate 256 0) =
        some (⟨6, some out⟩, buf') ∧
      logLines out = logHeader 3 ++ lines ∧
      List.Forall₂ (fun line entry => entry.Tells (fun _ => someError) line) lines
        (mixedEntries.filter fun entry => entry.prio ≤ 6) := by
  refine logRun_readsBack (fun _ => ?_) ?_ List.length_replicate 6 3
  · decide +kernel
  · simp only [mixedEntries, List.forall_mem_cons, LogEntry.Fair]
    refine ⟨by decide, by decide +kernel, by decide, by decide, List.forall_mem_nil _⟩

end Rzh
