import Mathlib.Data.List.Nodup

/-!
# Tables of descriptors

A process knows its open files by small numbers, and the kernel keeps a table of them. This is
such a table over files of any kind, with what open(), close() and dup2() do to it.
-/
namespace Rzh

/-- The slots of a process, from 0 on; behind the last one nothing is open. -/
abbrev FdTable (α : Type) := List (Option α)

namespace FdTable

variable {α : Type}

def file : FdTable α → Nat → Option α
  | [], _ => none
  | x :: _, 0 => x
  | _ :: t, fd + 1 => file t fd

def put (x : Option α) : Nat → FdTable α → FdTable α
  | 0, [] => [x]
  | 0, _ :: t => x :: t
  | fd + 1, [] => none :: put x fd []
  | fd + 1, y :: t => y :: put x fd t

/-- The lowest descriptor that is free, which is the one that the kernel gives out next. -/
def lowest : FdTable α → Nat
  | [] => 0
  | none :: _ => 0
  | some _ :: t => lowest t + 1

def openFile (t : FdTable α) (x : α) : FdTable α := put (some x) (lowest t) t

/-- One file after the other, with the descriptors that they get. -/
def openFiles (t : FdTable α) : List α → List Nat × FdTable α
  | [] => ([], t)
  | x :: xs => (lowest t :: (openFiles (t.openFile x) xs).1, (openFiles (t.openFile x) xs).2)

/-- Nothing happens to a descriptor that is not open. -/
def close (t : FdTable α) (fd : Nat) : FdTable α := put none fd t

/-- Nothing happens if `old` is not open. -/
def dup2 (t : FdTable α) (old new : Nat) : FdTable α :=
  match t.file old with
  | none => t
  | some x => put (some x) new t

def closeAll (t : FdTable α) (fds : List Nat) : FdTable α := fds.foldl close t

/-- One dup2() after the other, of the first to the second of each pair. -/
def redirect (t : FdTable α) (pairs : List (Nat × Nat)) : FdTable α :=
  pairs.foldl (fun t pair => t.dup2 pair.1 pair.2) t

@[simp] theorem file_nil (fd : Nat) : file ([] : FdTable α) fd = none := rfl

theorem file_put (x : Option α) (t : FdTable α) (fd fd' : Nat) :
    (put x fd t).file fd' = if fd' = fd then x else t.file fd' := by
  induction fd generalizing t fd' with
  | zero =>
    cases t with
    | nil => cases fd' <;> simp [put, file]
    | cons y t => cases fd' <;> simp [put, file]
  | succ fd ih =>
    cases t with
    | nil =>
      cases fd' with
      | zero => simp [put, file]
      | succ fd' => simp [put, file, ih]
    | cons y t =>
      cases fd' with
      | zero => simp [put, file]
      | succ fd' => simp [put, file, ih]

theorem file_close (t : FdTable α) (fd fd' : Nat) :
    (t.close fd).file fd' = if fd' = fd then none else t.file fd' := file_put none t fd fd'

theorem file_lowest (t : FdTable α) : t.file (lowest t) = none := by
  induction t with
  | nil => rfl
  | cons x t ih =>
    cases x with
    | none => rfl
    | some x => exact ih

/-- Below the lowest free descriptor all are taken. -/
theorem file_lt_lowest {t : FdTable α} {fd : Nat} (h : fd < lowest t) : t.file fd ≠ none := by
  induction t generalizing fd with
  | nil => cases h
  | cons x t ih =>
    cases x with
    | none => cases h
    | some x =>
      cases fd with
      | zero => exact Option.some_ne_none x
      | succ fd => exact ih (Nat.lt_of_succ_lt_succ h)

theorem lowest_le {t : FdTable α} {fd : Nat} (h : t.file fd = none) : lowest t ≤ fd := by
  by_contra hlt
  exact file_lt_lowest (Nat.lt_of_not_le hlt) h

theorem lt_lowest_iff {t : FdTable α} {n : Nat} : n < lowest t ↔ ∀ fd ≤ n, t.file fd ≠ none := by
  constructor
  · exact fun h fd hle => file_lt_lowest (Nat.lt_of_le_of_lt hle h)
  · intro h
    by_contra hle
    exact h _ (Nat.le_of_not_lt hle) (file_lowest t)

theorem file_openFile (t : FdTable α) (x : α) (fd : Nat) :
    (t.openFile x).file fd = if fd = lowest t then some x else t.file fd := file_put (some x) t (lowest t) fd

/-- What is opened next gets a higher number, as long as nothing is closed. -/
theorem lowest_openFile (t : FdTable α) (x : α) : lowest t < lowest (t.openFile x) := by
  by_contra hle
  have hfree := file_lowest (t.openFile x)
  rw [file_openFile] at hfree
  split at hfree
  · cases hfree
  · next hne => exact hne (Nat.le_antisymm (Nat.not_lt.mp hle) (lowest_le hfree))

theorem file_dup2 (t : FdTable α) {old : Nat} (h : t.file old ≠ none) (new fd : Nat) :
    (t.dup2 old new).file fd = if fd = new then t.file old else t.file fd := by
  obtain ⟨x, hx⟩ := Option.ne_none_iff_exists'.mp h
  rw [dup2, hx]
  exact file_put (some x) t new fd

theorem file_closeAll (t : FdTable α) (fds : List Nat) (fd : Nat) :
    (t.closeAll fds).file fd = if fd ∈ fds then none else t.file fd := by
  induction fds generalizing t with
  | nil => simp [closeAll]
  | cons fd' fds ih =>
    have hstep : (t.closeAll (fd' :: fds)).file fd = ((t.close fd').closeAll fds).file fd := rfl
    rw [hstep, ih, file_close]
    by_cases hmem : fd ∈ fds
    · simp [hmem]
    · by_cases heq : fd = fd'
      · simp [heq]
      · simp [hmem, heq]

theorem closeAll_append (t : FdTable α) (fds fds' : List Nat) :
    t.closeAll (fds ++ fds') = (t.closeAll fds).closeAll fds' := List.foldl_append

section OpenFiles

variable {t : FdTable α} {xs : List α} {fd : Nat}

/-- What is opened gets higher and higher numbers. -/
theorem lowest_le_openFiles (h : fd ∈ (t.openFiles xs).1) : lowest t ≤ fd := by
  induction xs generalizing t with
  | nil => cases h
  | cons x xs ih =>
    obtain rfl | h := List.mem_cons.mp h
    · exact Nat.le_refl _
    · exact Nat.le_trans (Nat.le_of_lt (lowest_openFile t x)) (ih h)

theorem openFiles_sorted (t : FdTable α) (xs : List α) : (t.openFiles xs).1.Pairwise (· < ·) := by
  induction xs generalizing t with
  | nil => exact .nil
  | cons x xs ih =>
    refine .cons (fun fd h => ?_) (ih _)
    exact Nat.lt_of_lt_of_le (lowest_openFile t x) (lowest_le_openFiles h)

theorem openFiles_free (h : fd ∈ (t.openFiles xs).1) : t.file fd = none := by
  induction xs generalizing t with
  | nil => cases h
  | cons x xs ih =>
    obtain rfl | h := List.mem_cons.mp h
    · exact file_lowest t
    · have hfree := ih h
      rw [file_openFile] at hfree
      split at hfree
      · cases hfree
      · exact hfree

theorem file_openFiles_other (h : fd ∉ (t.openFiles xs).1) : (t.openFiles xs).2.file fd = t.file fd := by
  induction xs generalizing t with
  | nil => rfl
  | cons x xs ih =>
    rw [openFiles, List.mem_cons, not_or] at h
    change (openFiles (t.openFile x) xs).2.file fd = _
    rw [ih h.2, file_openFile, if_neg h.1]

/-- Each file is where its number says. -/
theorem file_openFiles (t : FdTable α) (xs : List α) :
    ∀ pair ∈ (t.openFiles xs).1.zip xs, (t.openFiles xs).2.file pair.1 = some pair.2 := by
  induction xs generalizing t with
  | nil =>
    intro pair hmem
    cases hmem
  | cons x xs ih =>
    intro pair hmem
    obtain rfl | hmem := List.mem_cons.mp hmem
    · change (openFiles (t.openFile x) xs).2.file (lowest t) = some x
      rw [file_openFiles_other fun h => Nat.not_le_of_lt (lowest_openFile t x) (lowest_le_openFiles h),
        file_openFile, if_pos rfl]
    · exact ih _ pair hmem

end OpenFiles

section Redirect

variable {t : FdTable α} {pairs : List (Nat × Nat)}

/-- What no pair is copied to stays as it is. -/
theorem file_redirect_other {fd : Nat} (h : fd ∉ pairs.map Prod.snd) :
    (t.redirect pairs).file fd = t.file fd := by
  induction pairs generalizing t with
  | nil => rfl
  | cons pair pairs ih =>
    rw [List.map_cons, List.mem_cons, not_or] at h
    have hstep : (t.redirect (pair :: pairs)).file fd = ((t.dup2 pair.1 pair.2).redirect pairs).file fd := rfl
    rw [hstep, ih h.2]
    by_cases hopen : t.file pair.1 = none
    · rw [dup2, hopen]
    · rw [file_dup2 t hopen, if_neg h.1]

/-- Copies that do not get in each other's way all arrive. -/
theorem file_redirect (hopen : ∀ pair ∈ pairs, t.file pair.1 ≠ none) (hnodup : (pairs.map Prod.snd).Nodup)
    (hapart : ∀ pair ∈ pairs, pair.1 ∉ pairs.map Prod.snd) :
    ∀ pair ∈ pairs, (t.redirect pairs).file pair.2 = t.file pair.1 := by
  induction pairs generalizing t with
  | nil =>
    intro pair hmem
    cases hmem
  | cons first pairs ih =>
    rw [List.map_cons, List.nodup_cons] at hnodup
    have hfirst := file_dup2 t (hopen first List.mem_cons_self) first.2
    have hkeep : ∀ pair ∈ pairs, (t.dup2 first.1 first.2).file pair.1 = t.file pair.1 := by
      intro pair hpair
      rw [hfirst, if_neg]
      intro heq
      apply hapart pair (List.mem_cons_of_mem first hpair)
      rw [List.map_cons, heq]
      exact List.mem_cons_self
    intro pair hpair
    change ((t.dup2 first.1 first.2).redirect pairs).file pair.2 = t.file pair.1
    obtain rfl | hpair := List.mem_cons.mp hpair
    · rw [file_redirect_other hnodup.1, hfirst, if_pos rfl]
    · rw [ih _ hnodup.2 _ pair hpair, hkeep pair hpair]
      · intro pair hpair
        rw [hkeep pair hpair]
        exact hopen pair (List.mem_cons_of_mem first hpair)
      · intro pair hpair hmem
        apply hapart pair (List.mem_cons_of_mem first hpair)
        rw [List.map_cons]
        exact List.mem_cons_of_mem first.2 hmem

/-- The copies made, the originals are closed: the files have changed places if and only if no
original is where a copy belongs. -/
theorem file_redirect_closeAll (hopen : ∀ pair ∈ pairs, t.file pair.1 ≠ none)
    (hnodup : (pairs.map Prod.snd).Nodup) :
    (∀ pair ∈ pairs, ((t.redirect pairs).closeAll (pairs.map Prod.fst)).file pair.2 = t.file pair.1) ↔
      ∀ pair ∈ pairs, pair.2 ∉ pairs.map Prod.fst := by
  constructor
  · intro hmoved pair hpair hmem
    have hclosed := hmoved pair hpair
    rw [file_closeAll, if_pos hmem] at hclosed
    exact hopen pair hpair hclosed.symm
  · intro hapart pair hpair
    rw [file_closeAll, if_neg (hapart pair hpair)]
    refine file_redirect hopen hnodup ?_ pair hpair
    intro pair' hpair' hmem
    obtain ⟨pair'', hpair'', heq⟩ := List.mem_map.mp hmem
    apply hapart pair'' hpair''
    rw [heq]
    exact List.mem_map_of_mem hpair'

/-- Everywhere else the originals are gone, and what remains is as it was. -/
theorem file_redirect_closeAll_other {fd : Nat} (h : fd ∉ pairs.map Prod.snd) :
    ((t.redirect pairs).closeAll (pairs.map Prod.fst)).file fd =
      if fd ∈ pairs.map Prod.fst then none else t.file fd := by
  rw [file_closeAll, file_redirect_other h]

end Redirect

end FdTable

end Rzh
