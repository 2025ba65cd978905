import Mathlib.Algebra.Ring.Nat
import Mathlib.Data.List.Basic
import Rzh.CMemory
import Rzh.CString

/-!
# What the C library prints

The conversions of printf() that the program uses, and snprintf(), which cuts a text to the room there is
and puts a NUL behind it.
-/
namespace Rzh

/-- Characters that a string can hold: there is no NUL among them. -/
structure Text where
  chars : List UInt8
  no_nul : 0 ∉ chars

/-- The string at the beginning of a block. -/
def cString (block : List UInt8) : List UInt8 := block.takeWhile fun c => c ≠ 0

theorem no_nul_cString (block : List UInt8) : 0 ∉ cString block := by
  intro h
  simpa using List.mem_takeWhile_imp h

def cText (block : List UInt8) : Text := ⟨cString block, no_nul_cString block⟩

/-- Without a NUL in its block a string has no length. -/
def strlen (block : List UInt8) : Option Nat := if 0 ∈ block then some (cString block).length else none

/-- An int as a size_t. -/
def toSize (n : Int) : Nat := if n < 0 then (n + 0x10000000000000000).toNat else n.toNat

def figures (n : Nat) : List UInt8 := (Nat.toDigits 10 n).map fun c => c.toNat.toUInt8

def sign (v : Int) : List UInt8 := if v < 0 then [45] else []

/-- `%d` and `%ld`. -/
def printInt (v : Int) : List UInt8 := sign v ++ figures v.natAbs

/-- `%0nd`: zeros behind the sign, up to `n` characters. -/
def printZeros (n : Nat) (v : Int) : List UInt8 :=
  sign v ++ (List.replicate (n - (printInt v).length) 48 ++ figures v.natAbs)

/-- The count is the length of the whole text, which must be an int. -/
def printed (text : List UInt8) : Int := if text.length ≤ 0x7fffffff then text.length else -1

/-- snprintf() to the bytes of the block from `off` on, as many as fit into `size` with the NUL. -/
def snprintf (block : List UInt8) (off : Int) (size : Nat) (text : List UInt8) : Option (List UInt8 × Int) :=
  if size = 0 then some (block, printed text)
  else
    let out := text.take (size - 1) ++ [0]
    (memcpy block off out out.length).map fun block => (block, printed text)

section Numbers

variable {n : Nat} {c : UInt8}

/-- A digit's byte stands for what the digit stands for. -/
theorem digitValue_isDigit {d : Char} (h : d.isDigit = true) :
    digitValue d.toNat.toUInt8 = some (d.toNat - 48) := by
  obtain ⟨hlo, hhi⟩ := Char.isDigit_iff_toNat.mp h
  have hlo : 48 ≤ d.toNat := hlo
  have hhi : d.toNat ≤ 57 := hhi
  have hbyte : d.toNat.toUInt8.toNat = d.toNat := by
    rw [Nat.toUInt8_eq, UInt8.toNat_ofNat']
    omega
  rw [digitValue, if_pos, hbyte]
  constructor
  · rwa [UInt8.le_iff_toNat_le, hbyte]
  · rwa [UInt8.le_iff_toNat_le, hbyte]

theorem isDigit_toDigits {d : Char} (h : d ∈ Nat.toDigits 10 n) : d.isDigit = true :=
  Nat.isDigit_of_mem_toDigits (by decide) (by decide) h

theorem figures_ne_nil : figures n ≠ [] := by
  rw [figures, ne_eq, List.map_eq_nil_iff]
  exact Nat.toDigits_ne_nil

theorem isDigit_figures (h : c ∈ figures n) : decimal.isDigit c = true := by
  obtain ⟨d, hd, rfl⟩ := List.mem_map.mp h
  show (digitValue d.toNat.toUInt8).isSome = true
  rw [digitValue_isDigit (isDigit_toDigits hd)]
  rfl

theorem not_mem_figures (h : decimal.isDigit c = false) : c ∉ figures n := by
  intro hmem
  rw [isDigit_figures hmem] at h
  cases h

theorem value_figures (n : Nat) : decimal.value (figures n) = n := by
  calc decimal.value (figures n) = Nat.ofDigitChars 10 (Nat.toDigits 10 n) 0 := by
        rw [Figures.value, figures, List.foldl_map, Nat.ofDigitChars_eq_foldl]
        apply List.foldl_ext
        intro a d hd
        show 10 * a + (digitValue d.toNat.toUInt8).getD 0 = _
        rw [digitValue_isDigit (isDigit_toDigits hd)]
        rfl
    _ = n := Nat.ofDigitChars_toDigits (by decide) (by decide)

/-- Zeros in front do not count. -/
theorem value_zeros (k : Nat) (digits : List UInt8) :
    decimal.value (List.replicate k 48 ++ digits) = decimal.value digits := by
  induction k with
  | zero => rfl
  | succ k ih => exact ih

theorem isDigit_zeros {k : Nat} (h : c ∈ List.replicate k 48 ++ figures n) : decimal.isDigit c = true := by
  obtain hzero | hfigure := List.mem_append.mp h
  · rw [List.eq_of_mem_replicate hzero]
    rfl
  · exact isDigit_figures hfigure

theorem writes_mark (s : Figures.Sign) (k n : Nat) :
    decimal.Writes (decimal.mark s ++ (List.replicate k 48 ++ figures n)) (s.apply n) := by
  have hne : List.replicate k 48 ++ figures n ≠ [] := List.append_ne_nil_of_right_ne_nil _ figures_ne_nil
  have h := Figures.Writes.intro (F := decimal) s (List.forall_mem_nil _) hne fun c hc => isDigit_zeros hc
  rwa [value_zeros, value_figures] at h

theorem sign_mark (v : Int) : ∃ s : Figures.Sign, sign v = decimal.mark s ∧ s.apply v.natAbs = v := by
  by_cases hv : v < 0
  · refine ⟨.minus, if_pos hv, ?_⟩
    show -(v.natAbs : Int) = v
    omega
  · refine ⟨.none, if_neg hv, ?_⟩
    show (v.natAbs : Int) = v
    omega

/-- What is printed is read by strtol(). -/
theorem printZeros_writes (k : Nat) (v : Int) : decimal.Writes (printZeros k v) v := by
  obtain ⟨s, hsign, hv⟩ := sign_mark v
  have h := writes_mark s (k - (printInt v).length) v.natAbs
  rw [hv] at h
  rwa [printZeros, hsign]

theorem printZeros_zero (v : Int) : printZeros 0 v = printInt v := by
  rw [printZeros, Nat.zero_sub]
  rfl

theorem printInt_writes (v : Int) : decimal.Writes (printInt v) v := by
  rw [← printZeros_zero]
  exact printZeros_writes 0 v

theorem printInt_natCast (n : Nat) : printInt n = figures n := by
  rw [printInt, sign, if_neg (by omega), Int.natAbs_natCast]
  rfl

theorem length_figures {k : Nat} (hk : 0 < k) (h : n < 10 ^ k) : (figures n).length ≤ k := by
  rw [figures, List.length_map]
  exact (Nat.length_toDigits_le_iff (by decide) hk).mpr h

theorem printZeros_natCast (k n : Nat) :
    printZeros k n = List.replicate (k - (figures n).length) 48 ++ figures n := by
  rw [printZeros, printInt_natCast, sign, if_neg (by omega), Int.natAbs_natCast]
  rfl

/-- A number that has no more figures than that fills its field. -/
theorem length_printZeros {k : Nat} (hk : 0 < k) (h : n < 10 ^ k) : (printZeros k n).length = k := by
  have hle := length_figures hk h
  rw [printZeros_natCast, List.length_append, List.length_replicate]
  omega

theorem not_mem_printZeros {k : Nat} (h : decimal.isDigit c = false) : c ∉ printZeros k n := by
  intro hmem
  rw [printZeros_natCast] at hmem
  rw [isDigit_zeros hmem] at h
  cases h

/-- Neither a number nor its sign has a NUL. -/
theorem no_nul_printZeros (k : Nat) (v : Int) : 0 ∉ printZeros k v := by
  intro h
  obtain hsign | hdigits := List.mem_append.mp h
  · rw [sign] at hsign
    split at hsign
    · cases List.mem_singleton.mp hsign
    · cases hsign
  · have hdigit := isDigit_zeros hdigits
    cases hdigit

theorem no_nul_printInt (v : Int) : 0 ∉ printInt v := by
  rw [← printZeros_zero]
  exact no_nul_printZeros 0 v

theorem length_sign (v : Int) : (sign v).length ≤ 1 := by
  rw [sign]
  split
  · exact Nat.le_refl 1
  · exact Nat.zero_le 1

end Numbers

section Blocks

variable {block text : List UInt8} {off : Int} {size : Nat}

theorem toSize_of_nonneg {n : Int} (h : 0 ≤ n) : toSize n = n.toNat := if_neg (by omega)

/-- A text ends at the first NUL. -/
theorem cString_append (rest : List UInt8) (h : 0 ∉ text) : cString (text ++ 0 :: rest) = text := by
  rw [cString, List.takeWhile_append_of_pos]
  · rw [List.takeWhile_cons_of_neg (by simp), List.append_nil]
  · intro c hc
    rw [decide_eq_true_eq]
    rintro rfl
    exact h hc

theorem strlen_append (rest : List UInt8) (h : 0 ∉ text) : strlen (text ++ 0 :: rest) = some text.length := by
  rw [strlen, if_pos (List.mem_append_right text List.mem_cons_self), cString_append rest h]

/-- At the beginning of a block with enough room. -/
theorem snprintf_start (hsize : size ≠ 0) (hblock : size ≤ block.length) :
    snprintf block 0 size text =
      some (text.take (size - 1) ++ 0 :: block.drop ((text.take (size - 1)).length + 1), printed text) := by
  have hle : (text.take (size - 1)).length ≤ size - 1 := List.length_take_le (size - 1) text
  have hlength : (text.take (size - 1) ++ [0]).length = (text.take (size - 1)).length + 1 := List.length_append
  rw [snprintf, if_neg hsize]
  show (memcpy block 0 (text.take (size - 1) ++ [0]) _).map _ = _
  rw [memcpy_inside (Int.le_refl 0) (by omega) (by omega) (Int.le_refl _), Option.map_some, Int.toNat_natCast,
    List.take_length, hlength, Int.toNat_zero, List.take_zero, List.nil_append, Nat.zero_add, List.append_assoc]
  rfl

/-- A text that fits is printed whole. -/
theorem snprintf_fits (hsize : text.length < size) (hblock : size ≤ block.length) :
    snprintf block 0 size text = some (text ++ 0 :: block.drop (text.length + 1), printed text) := by
  rw [snprintf_start (by omega) hblock, List.take_of_length_le (by omega)]

end Blocks

end Rzh
