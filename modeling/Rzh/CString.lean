import Rzh.Figures

/-!
# The C library's strings

The functions that the program takes from the C library, in the C locale. A string is the list of its
characters up to the NUL, and a pointer into it is what is behind it.
-/
namespace Rzh

def isspace (c : UInt8) : Bool := c = 32 || (9 ≤ c && c ≤ 13)

/-- The first place where a character is found. -/
def strchr (c : UInt8) : List UInt8 → Option (List UInt8)
  | [] => none
  | d :: ds => if d = c then some (d :: ds) else strchr c ds

/-- The last place where a character is found. -/
def strrchr (c : UInt8) : List UInt8 → Option (List UInt8)
  | [] => none
  | d :: ds => (strrchr c ds).or (if d = c then some (d :: ds) else none)

def digitValue (c : UInt8) : Option Nat := if 48 ≤ c ∧ c ≤ 57 then some (c.toNat - 48) else none

theorem isspace_digitValue {c : UInt8} (h : isspace c = true) : digitValue c = none := by
  rw [digitValue, if_neg]
  rintro ⟨hlo, -⟩
  have hle : c ≤ 32 := by
    simp only [isspace, Bool.or_eq_true, decide_eq_true_eq, Bool.and_eq_true] at h
    obtain rfl | ⟨-, hc⟩ := h
    · decide
    · exact UInt8.le_trans hc (by decide)
  exact absurd (UInt8.le_trans hlo hle) (by decide)

/-- What strtol() reads in base 10. -/
def decimal : Figures UInt8 where
  gap := isspace
  plus := 43
  minus := 45
  base := 10
  digit := digitValue
  gap_digit := isspace_digitValue
  gap_plus := rfl
  gap_minus := rfl
  digit_plus := rfl
  digit_minus := rfl
  plus_ne := nofun

/-- The values of a long. -/
def LongRange (v : Int) : Prop := -0x8000000000000000 ≤ v ∧ v ≤ 0x7fffffffffffffff

/-- The values of an int. -/
def IntRange (v : Int) : Prop := -0x80000000 ≤ v ∧ v ≤ 0x7fffffff

instance (v : Int) : Decidable (LongRange v) := inferInstanceAs (Decidable (_ ∧ _))

instance (v : Int) : Decidable (IntRange v) := inferInstanceAs (Decidable (_ ∧ _))

/-- The closest value that a long has. -/
def longSat (v : Int) : Int := max (-0x8000000000000000) (min v 0x7fffffffffffffff)

/-- The value, the first character that is not part of it, and whether errno has been set to ERANGE. -/
structure Strtol where
  value : Int
  remainder : List UInt8
  erange : Bool

/-- Without a number nothing is read. -/
def strtol (str : List UInt8) : Strtol :=
  (decimal.scan str).elim ⟨0, str, false⟩ fun num => ⟨longSat num.1, num.2, ¬ LongRange num.1⟩

variable {str : List UInt8} {v : Int}

theorem strchr_split (c : UInt8) (str : List UInt8) :
    (strchr c str = none ∧ c ∉ str) ∨
      ∃ front back, strchr c str = some (c :: back) ∧ str = front ++ c :: back ∧ c ∉ front := by
  induction str with
  | nil => exact .inl ⟨rfl, List.not_mem_nil⟩
  | cons d ds ih =>
    by_cases hd : d = c
    · subst hd
      exact .inr ⟨[], ds, if_pos rfl, rfl, List.not_mem_nil⟩
    · have htail : strchr c (d :: ds) = strchr c ds := if_neg hd
      rw [htail]
      obtain ⟨hnone, hds⟩ | ⟨front, back, hsome, rfl, hfront⟩ := ih
      · exact .inl ⟨hnone, by simp [hds, Ne.symm hd]⟩
      · exact .inr ⟨d :: front, back, hsome, rfl, by simp [hfront, Ne.symm hd]⟩

theorem strchr_append {c : UInt8} {front back : List UInt8} (h : c ∉ front) :
    strchr c (front ++ c :: back) = some (c :: back) := by
  induction front with
  | nil => exact if_pos rfl
  | cons d ds ih =>
    have hd : d ≠ c := fun hd => h (hd ▸ List.mem_cons_self)
    exact (if_neg hd).trans (ih fun hds => h (List.mem_cons_of_mem d hds))

/-- A string is cut at the first place in one way only. -/
theorem strchr_unique {c : UInt8} {front front' back back' : List UInt8} (h : c ∉ front) (h' : c ∉ front')
    (heq : front ++ c :: back = front' ++ c :: back') : front = front' ∧ back = back' := by
  have hback := congrArg (strchr c) heq
  rw [strchr_append h, strchr_append h'] at hback
  obtain ⟨-, rfl⟩ := List.cons.inj (Option.some.inj hback)
  exact ⟨List.append_cancel_right heq, rfl⟩

theorem strrchr_split (c : UInt8) (str : List UInt8) :
    (strrchr c str = none ∧ c ∉ str) ∨
      ∃ front back, strrchr c str = some (c :: back) ∧ str = front ++ c :: back ∧ c ∉ back := by
  induction str with
  | nil => exact .inl ⟨rfl, List.not_mem_nil⟩
  | cons d ds ih =>
    obtain ⟨hnone, hds⟩ | ⟨front, back, hsome, rfl, hback⟩ := ih
    · by_cases hd : d = c
      · subst hd
        exact .inr ⟨[], ds, by rw [strrchr, hnone, if_pos rfl]; rfl, rfl, hds⟩
      · exact .inl ⟨by rw [strrchr, hnone, if_neg hd]; rfl, by simp [hds, Ne.symm hd]⟩
    · exact .inr ⟨d :: front, back, by rw [strrchr, hsome]; rfl, rfl, hback⟩

theorem intRange_iff : (Int32.ofInt v).toInt = v ↔ IntRange v := by
  have hsize : (Int32.size : Int) = 0x100000000 := rfl
  rw [Int32.toInt_ofInt, IntRange, Int.bmod_def, hsize]
  constructor
  · intro h
    split at h <;> omega
  · intro h
    split <;> omega

/-- A string that is a number is read to its end. -/
theorem strtol_writes (h : decimal.Writes str v) : strtol str = ⟨longSat v, [], ¬ LongRange v⟩ := by
  rw [strtol, h.scan, Option.elim_some]

theorem longSat_range (h : LongRange v) : longSat v = v := by
  obtain ⟨hlo, hhi⟩ := h
  rw [longSat]
  omega

/-- No other string is, but the empty one. -/
theorem strtol_remainder (hne : str ≠ []) (h : ∀ v, ¬ decimal.Writes str v) : (strtol str).remainder ≠ [] := by
  intro hnil
  rw [strtol] at hnil
  cases hscan : decimal.scan str with
  | none =>
    rw [hscan] at hnil
    exact hne hnil
  | some num =>
    rw [hscan] at hnil
    refine h num.1 (Figures.writes_of_scan ?_)
    rw [hscan, ← show num.2 = [] from hnil]

end Rzh
