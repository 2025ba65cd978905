import Rzh.Tokens

/-!
# Numbers in figures

A number is written with blanks in front, a sign or none, and at least one digit. What blanks, signs and
digits are, and the base, is a parameter. A scan reads the longest number there is and leaves the rest.
-/
open Tokens

/-- No digit is a gap or a sign, and no sign is a gap. -/
structure Figures (α : Type) where
  gap : α → Bool
  plus : α
  minus : α
  base : Nat
  digit : α → Option Nat
  gap_digit {c : α} : gap c = true → digit c = none
  gap_plus : gap plus = false
  gap_minus : gap minus = false
  digit_plus : digit plus = none
  digit_minus : digit minus = none
  plus_ne : plus ≠ minus

namespace Figures

inductive Sign where
  | none
  | plus
  | minus

def Sign.apply (n : Nat) : Sign → Int
  | none => n
  | plus => n
  | minus => -n

variable {α : Type} (F : Figures α)

def mark : Sign → List α
  | .none => []
  | .plus => [F.plus]
  | .minus => [F.minus]

def isDigit (c : α) : Bool := (F.digit c).isSome

def value (digits : List α) : Nat := digits.foldl (fun n c => F.base * n + (F.digit c).getD 0) 0

/-- All of a list is the number `v`, written in figures. -/
inductive Writes : List α → Int → Prop where
  | intro {blanks digits : List α} (sign : Sign) (hblanks : ∀ c ∈ blanks, F.gap c = true) (hne : digits ≠ [])
    (hdigits : ∀ c ∈ digits, F.isDigit c = true) :
    Writes (blanks ++ (F.mark sign ++ digits)) (sign.apply (F.value digits))

def scanSign [DecidableEq α] : List α → Sign × List α
  | [] => (.none, [])
  | c :: cs =>
    if c = F.minus then (.minus, cs)
    else if c = F.plus then (.plus, cs)
    else (.none, c :: cs)

/-- The number in front and what is behind it. -/
def scan [DecidableEq α] (s : List α) : Option (Int × List α) :=
  let signed := F.scanSign (skip F.gap s)
  let digits := signed.2.takeWhile F.isDigit
  if digits = [] then none
  else some (signed.1.apply (F.value digits), signed.2.dropWhile F.isDigit)

variable {F} {s digits : List α} {v w : Int}

theorem gap_of_digit {c : α} (h : F.isDigit c = true) : F.gap c = false := by
  by_contra hgap
  rw [isDigit, F.gap_digit (by simpa using hgap)] at h
  cases h

/-- Neither a sign nor a digit is skipped. -/
theorem skip_blanks {blanks : List α} (sign : Sign) (hblanks : ∀ c ∈ blanks, F.gap c = true) (hne : digits ≠ [])
    (hdigits : ∀ c ∈ digits, F.isDigit c = true) :
    skip F.gap (blanks ++ (F.mark sign ++ digits)) = F.mark sign ++ digits := by
  apply dropWhile_append_stop hblanks
  intro c hc
  cases sign with
  | plus =>
    obtain rfl := Option.some.inj hc
    exact F.gap_plus
  | minus =>
    obtain rfl := Option.some.inj hc
    exact F.gap_minus
  | none =>
    obtain ⟨d, ds, rfl⟩ := List.exists_cons_of_ne_nil hne
    obtain rfl := Option.some.inj hc
    exact gap_of_digit (hdigits d List.mem_cons_self)

theorem Writes.ne_nil (h : F.Writes s v) : s ≠ [] := by
  cases h with
  | intro sign hblanks hne hdigits =>
    intro hnil
    exact hne (List.append_eq_nil_iff.mp (List.append_eq_nil_iff.mp hnil).2).2

variable [DecidableEq α]

/-- A sign in front of digits is found, and so is that there is none. -/
theorem scanSign_mark (sign : Sign) (hne : digits ≠ []) (hdigits : ∀ c ∈ digits, F.isDigit c = true) :
    F.scanSign (F.mark sign ++ digits) = (sign, digits) := by
  cases sign with
  | plus =>
    show ite _ _ _ = _
    rw [if_neg F.plus_ne, if_pos rfl]
    rfl
  | minus => exact if_pos rfl
  | none =>
    obtain ⟨c, cs, rfl⟩ := List.exists_cons_of_ne_nil hne
    have hc := hdigits c List.mem_cons_self
    have hplus : c ≠ F.plus := by
      rintro rfl
      rw [isDigit, F.digit_plus] at hc
      cases hc
    have hminus : c ≠ F.minus := by
      rintro rfl
      rw [isDigit, F.digit_minus] at hc
      cases hc
    show ite _ _ _ = _
    rw [if_neg hminus, if_neg hplus]

theorem mark_scanSign (s : List α) : s = F.mark (F.scanSign s).1 ++ (F.scanSign s).2 := by
  cases s with
  | nil => rfl
  | cons c cs =>
    rw [scanSign]
    by_cases hminus : c = F.minus
    · rw [if_pos hminus, hminus]
      rfl
    · by_cases hplus : c = F.plus
      · rw [if_neg hminus, if_pos hplus, hplus]
        rfl
      · rw [if_neg hminus, if_neg hplus]
        rfl

/-- What is written is read, to its end. -/
theorem Writes.scan (h : F.Writes s v) : F.scan s = some (v, []) := by
  cases h with
  | intro sign hblanks hne hdigits =>
    simp only [Figures.scan, skip_blanks sign hblanks hne hdigits, scanSign_mark sign hne hdigits]
    rw [List.takeWhile_eq_self_iff.mpr hdigits, List.dropWhile_eq_nil_iff.mpr hdigits, if_neg hne]

/-- What is read to its end is written. -/
theorem writes_of_scan (h : F.scan s = some (v, [])) : F.Writes s v := by
  rw [Figures.scan] at h
  split at h
  · cases h
  · rename_i hne
    obtain ⟨rfl, hrest⟩ := Prod.mk.inj (Option.some.inj h)
    generalize hsign : F.scanSign (skip F.gap s) = signed at hne hrest ⊢
    have hall : signed.2.takeWhile F.isDigit = signed.2 :=
      List.takeWhile_eq_self_iff.mpr (List.dropWhile_eq_nil_iff.mp hrest)
    have hskip : skip F.gap s = F.mark signed.1 ++ signed.2 := by
      rw [← hsign]
      exact mark_scanSign _
    have hs : s = s.takeWhile F.gap ++ (F.mark signed.1 ++ signed.2) := by
      rw [← hskip, skip, List.takeWhile_append_dropWhile]
    rw [hall] at hne ⊢
    rw [hs]
    exact .intro signed.1 (fun c hc => List.mem_takeWhile_imp hc) hne (List.dropWhile_eq_nil_iff.mp hrest)

theorem Writes.unique (h : F.Writes s v) (h' : F.Writes s w) : v = w := by
  have hscan := h.scan.symm.trans h'.scan
  exact (Prod.mk.inj (Option.some.inj hscan)).1

end Figures
