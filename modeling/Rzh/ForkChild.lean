import Rzh.Descriptors

/-!
# What a child has open

main() opens a log file and a terminal or a connection, and each transfer has three pipes. The shell
gets the terminal and rz its ends of the pipes, as stdin, stdout and stderr; neither should get anything
else that rzh has opened.
-/
namespace Rzh

inductive ChildPipe where
  | chstdin | chstdout | chstderr
  deriving DecidableEq, Repr

/-- What rzh has been given, and what it opens itself; the pipes are counted by their transfers. -/
inductive OpenFile where
  | inherited (fd : Nat)
  | logFile
  | conn
  | master
  | slave
  | pipeEnd (transfer : Nat) (pipe : ChildPipe) (writing : Bool)
  deriving DecidableEq, Repr

/-- The files of the three calls of pipe() in fork_rz_process. -/
def childPipes (transfer : Nat) : List OpenFile :=
  [.pipeEnd transfer .chstdin false, .pipeEnd transfer .chstdin true,
    .pipeEnd transfer .chstdout false, .pipeEnd transfer .chstdout true,
    .pipeEnd transfer .chstderr false, .pipeEnd transfer .chstderr true]

/-- fork_rz_process in the child, up to the execv(); `prepared` is what task_fork_prepare and
rzh_fork_prepare close. -/
def rzChild {α : Type} (t : FdTable α) (chstdin chstdout chstderr : Nat × Nat) (prepared : List Nat) : FdTable α :=
  let t := ((t.close chstdin.2).close chstdout.1).close chstderr.1
  let t := ((t.dup2 chstdin.1 0).dup2 chstdout.2 1).dup2 chstderr.2 2
  let t := ((t.close chstdin.1).close chstdout.2).close chstderr.2
  t.closeAll prepared

/-- do_child, up to the execl(). -/
def doChild {α : Type} (t : FdTable α) (stMasterFd stSlaveFd : Nat) (logFd : Option Nat) : FdTable α :=
  let t := t.close stMasterFd
  let t := ((t.dup2 stSlaveFd 0).dup2 stSlaveFd 1).dup2 stSlaveFd 2
  let t := t.close stSlaveFd
  t.closeAll logFd.toList

/-- From `i` down to 1. -/
def highestFd {α : Type} (t : FdTable α) : Nat → Option Nat
  | 0 => none
  | i + 1 => if (t.file (i + 1)).isSome then some (i + 1) else highestFd t i

/-- Without a result the assertion fails. -/
def findHighestFd {α : Type} (t : FdTable α) : Option Nat := highestFd t 64

/-- Whether fdcheck finds nothing to complain about. -/
def fdcheck {α : Type} (gHighestFd : Option Nat) (t : FdTable α) : Bool := findHighestFd t = gHighestFd

/-- What main() has opened when it gets to its loop. Without a terminal the two numbers of bgio are 0. -/
structure MainFds where
  logFd : Option Nat
  connFd : Option Nat
  stMasterFd : Nat
  stSlaveFd : Nat
  table : FdTable OpenFile

/-- The log file is opened with the options, the connection before the terminal would be. -/
def mainOpens (t : FdTable OpenFile) (log conn : Bool) : MainFds :=
  let (logFd, t) := if log then (some t.lowest, t.openFile .logFile) else (none, t)
  if conn then ⟨logFd, some t.lowest, 0, 0, t.openFile .conn⟩
  else ⟨logFd, none, t.lowest, (t.openFile .master).lowest, (t.openFile .master).openFile .slave⟩

/-- What is closed for rz: by bgio_close, by rzh_fork_prepare and by log_close. -/
def MainFds.prepared (fds : MainFds) : List Nat :=
  [fds.stMasterFd, fds.stSlaveFd] ++ fds.connFd.toList ++ fds.logFd.toList

section RzChild

variable {t t₁ : FdTable OpenFile} {transfer : Nat} {chstdin chstdout chstderr : Nat × Nat} {prepared : List Nat}

/-- The pipes are where the kernel has put them, in a row above what has been open. -/
theorem childPipes_opened (h : t.openFiles (childPipes transfer) =
    ([chstdin.1, chstdin.2, chstdout.1, chstdout.2, chstderr.1, chstderr.2], t₁)) :
    (chstdin.1 < chstdin.2 ∧ chstdin.2 < chstdout.1 ∧ chstdout.1 < chstdout.2 ∧ chstdout.2 < chstderr.1 ∧
      chstderr.1 < chstderr.2) ∧ chstdin.1 = t.lowest ∧
    t₁.file chstdin.1 = some (.pipeEnd transfer .chstdin false) ∧
    t₁.file chstdout.2 = some (.pipeEnd transfer .chstdout true) ∧
    t₁.file chstderr.2 = some (.pipeEnd transfer .chstderr true) ∧
    (∀ fd ∈ [chstdin.1, chstdin.2, chstdout.1, chstdout.2, chstderr.1, chstderr.2], t.file fd = none) ∧
    ∀ fd, fd ∉ [chstdin.1, chstdin.2, chstdout.1, chstdout.2, chstderr.1, chstderr.2] → t₁.file fd = t.file fd := by
  have hsorted := FdTable.openFiles_sorted t (childPipes transfer)
  have hfiles := FdTable.file_openFiles t (childPipes transfer)
  have hfree := fun fd => @FdTable.openFiles_free _ t (childPipes transfer) fd
  have hother := fun fd => @FdTable.file_openFiles_other _ t (childPipes transfer) fd
  have hfirst : (t.openFiles (childPipes transfer)).1.head? = some t.lowest := rfl
  rw [h] at hsorted hfiles hfree hother hfirst
  simp only [childPipes, List.zip_cons_cons, List.zip_nil_right, List.forall_mem_cons] at hfiles
  refine ⟨?_, Option.some.inj hfirst, hfiles.1, hfiles.2.2.2.1, hfiles.2.2.2.2.2.1, hfree, hother⟩
  simp only [List.pairwise_cons, List.mem_cons, forall_eq_or_imp] at hsorted
  exact ⟨hsorted.1.1, hsorted.2.1.1, hsorted.2.2.1.1, hsorted.2.2.2.1.1, hsorted.2.2.2.2.1.1⟩

theorem rzChild_eq (t : FdTable OpenFile) (chstdin chstdout chstderr : Nat × Nat) (prepared : List Nat) :
    rzChild t chstdin chstdout chstderr prepared =
      (((t.closeAll [chstdin.2, chstdout.1, chstderr.1]).redirect
        [(chstdin.1, 0), (chstdout.2, 1), (chstderr.2, 2)]).closeAll
          ([(chstdin.1, 0), (chstdout.2, 1), (chstderr.2, 2)].map Prod.fst)).closeAll prepared := rfl

/-- The child's ends of the pipes are its stdin, stdout and stderr. -/
def PipedStdio (transfer : Nat) (child : FdTable OpenFile) : Prop :=
  child.file 0 = some (.pipeEnd transfer .chstdin false) ∧
    child.file 1 = some (.pipeEnd transfer .chstdout true) ∧ child.file 2 = some (.pipeEnd transfer .chstderr true)

/-- They are if and only if the parent has had something open at all three places, and nothing that is closed
for the child has been there. -/
theorem rzChild_stdio (h : t.openFiles (childPipes transfer) =
    ([chstdin.1, chstdin.2, chstdout.1, chstdout.2, chstderr.1, chstderr.2], t₁)) (prepared : List Nat) :
    PipedStdio transfer (rzChild t₁ chstdin chstdout chstderr prepared) ↔
      (∀ fd ≤ 2, t.file fd ≠ none) ∧ ∀ fd ∈ prepared, 2 < fd := by
  obtain ⟨hsorted, hlowest, hin, hout, herr, hfree, -⟩ := childPipes_opened h
  let t₂ := t₁.closeAll [chstdin.2, chstdout.1, chstderr.1]
  let pairs := [(chstdin.1, 0), (chstdout.2, 1), (chstderr.2, 2)]
  let t₃ := (t₂.redirect pairs).closeAll (pairs.map Prod.fst)
  have hkept : ∀ fd, fd ∉ [chstdin.2, chstdout.1, chstderr.1] → t₂.file fd = t₁.file fd := by
    intro fd hfd
    rw [FdTable.file_closeAll, if_neg hfd]
  have hin₂ : t₂.file chstdin.1 = some (.pipeEnd transfer .chstdin false) := by
    rw [hkept _ (by simp; omega), hin]
  have hout₂ : t₂.file chstdout.2 = some (.pipeEnd transfer .chstdout true) := by
    rw [hkept _ (by simp; omega), hout]
  have herr₂ : t₂.file chstderr.2 = some (.pipeEnd transfer .chstderr true) := by
    rw [hkept _ (by simp; omega), herr]
  have hmoved := @FdTable.file_redirect_closeAll _ t₂ pairs
    (by simp [pairs, hin₂, hout₂, herr₂]) (by simp [pairs])
  simp only [pairs, List.map_cons, List.map_nil, List.mem_cons, List.not_mem_nil, or_false, forall_eq_or_imp,
    forall_eq, not_or, hin₂, hout₂, herr₂] at hmoved
  have hpiped : PipedStdio transfer t₃ ↔ ∀ fd ≤ 2, t.file fd ≠ none := by
    rw [PipedStdio]
    refine hmoved.trans ⟨fun hapart fd hfd hnone => ?_, fun hopen => ?_⟩
    · have hle := FdTable.lowest_le hnone
      rw [← hlowest] at hle
      omega
    · have hlow : 2 < chstdin.1 := by
        by_contra hle
        exact hopen chstdin.1 (Nat.le_of_not_lt hle) (hfree _ List.mem_cons_self)
      omega
  have hchild : ∀ fd, (rzChild t₁ chstdin chstdout chstderr prepared).file fd =
      if fd ∈ prepared then none else t₃.file fd := FdTable.file_closeAll t₃ prepared
  constructor
  · intro hstdio
    obtain ⟨h₀, h₁, h₂⟩ := hstdio
    rw [hchild] at h₀ h₁ h₂
    have hnot : ∀ fd ≤ 2, fd ∉ prepared := by
      intro fd hfd hmem
      obtain rfl | rfl | rfl : fd = 0 ∨ fd = 1 ∨ fd = 2 := by omega
      · rw [if_pos hmem] at h₀
        cases h₀
      · rw [if_pos hmem] at h₁
        cases h₁
      · rw [if_pos hmem] at h₂
        cases h₂
    rw [if_neg (hnot 0 (by omega))] at h₀
    rw [if_neg (hnot 1 (by omega))] at h₁
    rw [if_neg (hnot 2 (by omega))] at h₂
    refine ⟨hpiped.mp ⟨h₀, h₁, h₂⟩, fun fd hfd => ?_⟩
    by_contra hle
    exact hnot fd (Nat.le_of_not_lt hle) hfd
  · rintro ⟨hopen, hprepared⟩
    have hnot : ∀ fd ≤ 2, fd ∉ prepared := fun fd hfd hmem => Nat.not_le_of_lt (hprepared fd hmem) hfd
    obtain ⟨h₀, h₁, h₂⟩ := hpiped.mpr hopen
    rw [PipedStdio, hchild, hchild, hchild, if_neg (hnot 0 (by omega)), if_neg (hnot 1 (by omega)),
      if_neg (hnot 2 (by omega))]
    exact ⟨h₀, h₁, h₂⟩

/-- Behind them the child has what the parent has had before, without what is closed for it. -/
theorem rzChild_others (h : t.openFiles (childPipes transfer) =
    ([chstdin.1, chstdin.2, chstdout.1, chstdout.2, chstderr.1, chstderr.2], t₁)) {fd : Nat} (hfd : 2 < fd) :
    (rzChild t₁ chstdin chstdout chstderr prepared).file fd = if fd ∈ prepared then none else t.file fd := by
  obtain ⟨-, -, -, -, -, hfree, hother⟩ := childPipes_opened h
  rw [rzChild_eq, FdTable.file_closeAll]
  split
  · rfl
  · rw [FdTable.file_redirect_closeAll_other (by simp; omega), FdTable.file_closeAll]
    by_cases hmem : fd ∈ [chstdin.1, chstdin.2, chstdout.1, chstdout.2, chstderr.1, chstderr.2]
    · rw [hfree fd hmem]
      simp only [List.mem_cons, List.not_mem_nil, or_false] at hmem
      split
      · rfl
      · next hfirst =>
        rw [if_pos]
        simp only [List.map_cons, List.map_nil, List.mem_cons, List.not_mem_nil, or_false, not_or] at hfirst ⊢
        omega
    · rw [hother fd hmem]
      simp only [List.mem_cons, List.not_mem_nil, or_false, not_or] at hmem
      rw [if_neg (by simp; omega), if_neg (by simp; omega)]

end RzChild

section DoChild

variable {t t₁ : FdTable OpenFile} {stMasterFd stSlaveFd : Nat} {logFd : Option Nat}

/-- The terminal is the shell's stdin, stdout and stderr. -/
def TerminalStdio (child : FdTable OpenFile) : Prop := ∀ fd ≤ 2, child.file fd = some .slave

theorem doChild_file (t : FdTable OpenFile) (stMasterFd stSlaveFd : Nat) (logFd : Option Nat) (fd : Nat) :
    (doChild t stMasterFd stSlaveFd logFd).file fd = if fd ∈ logFd.toList then none
      else (((t.close stMasterFd).redirect [(stSlaveFd, 0), (stSlaveFd, 1), (stSlaveFd, 2)]).closeAll
        ([(stSlaveFd, 0), (stSlaveFd, 1), (stSlaveFd, 2)].map Prod.fst)).file fd := by
  have hclose : ∀ t : FdTable OpenFile, (t.close stSlaveFd).file fd =
      (t.closeAll [stSlaveFd, stSlaveFd, stSlaveFd]).file fd := by
    intro t
    rw [FdTable.file_close, FdTable.file_closeAll]
    simp
  change (FdTable.closeAll _ logFd.toList).file fd = _
  rw [FdTable.file_closeAll, hclose]
  rfl

theorem openpty_opened (h : t.openFiles [.master, .slave] = ([stMasterFd, stSlaveFd], t₁)) :
    stMasterFd < stSlaveFd ∧ t₁.file stSlaveFd = some .slave ∧
      (t.file stMasterFd = none ∧ t.file stSlaveFd = none) ∧
      ∀ fd, fd ≠ stMasterFd → fd ≠ stSlaveFd → t₁.file fd = t.file fd := by
  have hsorted := FdTable.openFiles_sorted t [OpenFile.master, .slave]
  have hfiles := FdTable.file_openFiles t [OpenFile.master, .slave]
  have hfree := fun fd => @FdTable.openFiles_free _ t [OpenFile.master, .slave] fd
  have hother := fun fd => @FdTable.file_openFiles_other _ t [OpenFile.master, .slave] fd
  rw [h] at hsorted hfiles hfree hother
  refine ⟨?_, hfiles (stSlaveFd, .slave) (by simp), ⟨hfree _ (by simp), hfree _ (by simp)⟩, fun fd hm hs => ?_⟩
  · simpa using hsorted
  · exact hother fd (by simp [hm, hs])

/-- It is if and only if neither the slave nor the log file has got one of the three places. -/
theorem doChild_stdio (h : t.openFiles [.master, .slave] = ([stMasterFd, stSlaveFd], t₁)) (logFd : Option Nat) :
    TerminalStdio (doChild t₁ stMasterFd stSlaveFd logFd) ↔ 2 < stSlaveFd ∧ ∀ fd ∈ logFd.toList, 2 < fd := by
  obtain ⟨hlt, hslave, -⟩ := openpty_opened h
  let pairs := [(stSlaveFd, 0), (stSlaveFd, 1), (stSlaveFd, 2)]
  have hopen : (t₁.close stMasterFd).file stSlaveFd = some .slave := by
    rw [FdTable.file_close, if_neg (by omega), hslave]
  have hmoved := @FdTable.file_redirect_closeAll _ (t₁.close stMasterFd) pairs
    (by simp [pairs, hopen]) (by simp [pairs])
  simp only [pairs, List.map_cons, List.map_nil, List.mem_cons, List.not_mem_nil, or_false, forall_eq_or_imp,
    forall_eq, not_or, hopen] at hmoved
  constructor
  · intro hstdio
    have hfile : ∀ fd ≤ 2, fd ∉ logFd.toList := by
      intro fd hfd hmem
      have hsome := hstdio fd hfd
      rw [doChild_file, if_pos hmem] at hsome
      cases hsome
    have hplaces : ∀ fd ≤ 2, (((t₁.close stMasterFd).redirect pairs).closeAll (pairs.map Prod.fst)).file fd =
        some .slave := by
      intro fd hfd
      have hsome := hstdio fd hfd
      rw [doChild_file, if_neg (hfile fd hfd)] at hsome
      exact hsome
    have hapart := hmoved.mp ⟨hplaces 0 (by omega), hplaces 1 (by omega), hplaces 2 (by omega)⟩
    refine ⟨by omega, fun fd hfd => ?_⟩
    by_contra hle
    exact hfile fd (Nat.le_of_not_lt hle) hfd
  · rintro ⟨hlow, hlog⟩
    obtain ⟨h₀, h₁, h₂⟩ := hmoved.mpr (by omega)
    intro fd hfd
    rw [doChild_file, if_neg fun hmem => Nat.not_le_of_lt (hlog fd hmem) hfd]
    obtain rfl | rfl | rfl : fd = 0 ∨ fd = 1 ∨ fd = 2 := by omega
    · exact h₀
    · exact h₁
    · exact h₂

theorem doChild_others (h : t.openFiles [.master, .slave] = ([stMasterFd, stSlaveFd], t₁)) {fd : Nat} (hfd : 2 < fd) :
    (doChild t₁ stMasterFd stSlaveFd logFd).file fd = if fd ∈ logFd.toList then none else t.file fd := by
  obtain ⟨-, -, hfree, hother⟩ := openpty_opened h
  rw [doChild_file]
  split
  · rfl
  · rw [FdTable.file_redirect_closeAll_other (by simp; omega), FdTable.file_close]
    by_cases hs : fd = stSlaveFd
    · subst hs
      simp [hfree.2]
    · by_cases hm : fd = stMasterFd
      · subst hm
        simp [hfree.1]
      · simp [hm, hs, hother fd hm hs]

end DoChild

section Fdcheck

variable {t t' : FdTable OpenFile} {log conn : Bool}

/-- What has the same numbers open has the same highest one. -/
theorem highestFd_congr {n : Nat} (h : ∀ fd, 0 < fd → fd ≤ n → ((t'.file fd).isSome ↔ (t.file fd).isSome)) :
    highestFd t' n = highestFd t n := by
  induction n with
  | zero => rfl
  | succ n ih =>
    rw [highestFd, highestFd, ih fun fd hpos hle => h fd hpos (Nat.le_succ_of_le hle)]
    have hsame := h (n + 1) (Nat.succ_pos n) (Nat.le_refl _)
    by_cases hopen : (t.file (n + 1)).isSome
    · rw [if_pos hopen, if_pos (hsame.mpr hopen)]
    · rw [if_neg hopen, if_neg fun hsome => hopen (hsame.mp hsome)]

theorem mainOpens_pty (t : FdTable OpenFile) (log : Bool) :
    (if log then t.openFile .logFile else t).openFiles [.master, .slave] =
      ([(mainOpens t log false).stMasterFd, (mainOpens t log false).stSlaveFd], (mainOpens t log false).table) := by
  cases log with
  | false => rfl
  | true => rfl

/-- What main() opens, in this order. -/
def programFiles (log conn : Bool) : List OpenFile :=
  (if log then [.logFile] else []) ++ if conn then [.conn] else [.master, .slave]

def MainFds.opened (fds : MainFds) : List Nat :=
  fds.logFd.toList ++ fds.connFd.elim [fds.stMasterFd, fds.stSlaveFd] fun fd => [fd]

theorem mainOpens_opened (t : FdTable OpenFile) (log conn : Bool) : t.openFiles (programFiles log conn) =
    ((mainOpens t log conn).opened, (mainOpens t log conn).table) := by
  cases log with
  | false => cases conn <;> rfl
  | true => cases conn <;> rfl

/-- All but the program's own files stay where they are. -/
theorem mainOpens_file {fd : Nat} (hfd : fd ∉ (mainOpens t log conn).opened) :
    (mainOpens t log conn).table.file fd = t.file fd := by
  have hother := @FdTable.file_openFiles_other _ t (programFiles log conn) fd
  rw [mainOpens_opened] at hother
  exact hother hfd

theorem mainOpens_free {fd : Nat} (hfd : fd ∈ (mainOpens t log conn).opened) : t.file fd = none := by
  have hfree := @FdTable.openFiles_free _ t (programFiles log conn) fd
  rw [mainOpens_opened] at hfree
  exact hfree hfd

/-- Without a terminal bgio_close closes 0. -/
theorem mem_prepared {fd : Nat} : fd ∈ (mainOpens t log conn).prepared ↔
    fd ∈ (mainOpens t log conn).opened ∨ conn = true ∧ fd = 0 := by
  cases conn with
  | false =>
    have hconn : (mainOpens t log false).connFd = none := by cases log <;> rfl
    simp [MainFds.prepared, MainFds.opened, hconn]
    tauto
  | true =>
    have hconn : ∃ fd, (mainOpens t log true).connFd = some fd := by cases log <;> exact ⟨_, rfl⟩
    have hst : (mainOpens t log true).stMasterFd = 0 ∧ (mainOpens t log true).stSlaveFd = 0 := by
      cases log <;> exact ⟨rfl, rfl⟩
    obtain ⟨fd', hconn⟩ := hconn
    simp [MainFds.prepared, MainFds.opened, hconn, hst]
    tauto

/-- Nothing that is closed for rz has one of the first three places if and only if there is a terminal and they have
all been taken. -/
theorem prepared_apart (t : FdTable OpenFile) (log conn : Bool) :
    (∀ fd ∈ (mainOpens t log conn).prepared, 2 < fd) ↔ conn = false ∧ ∀ fd ≤ 2, t.file fd ≠ none := by
  rw [← FdTable.lt_lowest_iff]
  have hfirst : t.lowest ∈ (mainOpens t log conn).opened := by
    cases log with
    | false => cases conn <;> exact List.mem_cons_self
    | true => cases conn <;> exact List.mem_cons_self
  constructor
  · intro hprepared
    refine ⟨?_, hprepared _ (mem_prepared.mpr (.inl hfirst))⟩
    by_contra hconn
    have hzero := hprepared 0 (mem_prepared.mpr (.inr ⟨by simpa using hconn, rfl⟩))
    omega
  · rintro ⟨rfl, hlow⟩ fd hfd
    obtain hfd | ⟨hconn, -⟩ := mem_prepared.mp hfd
    · have hle := @FdTable.lowest_le_openFiles _ t (programFiles log false) fd
      rw [mainOpens_opened] at hle
      exact Nat.lt_of_lt_of_le hlow (hle hfd)
    · cases hconn

/-- Two free places of the first three are one too many, and with a log file one is. -/
def PlacesTaken (t : FdTable OpenFile) (log : Bool) : Prop :=
  if log then ∀ fd ≤ 2, t.file fd ≠ none
  else ∀ fd fd', fd < fd' → fd' ≤ 2 → t.file fd ≠ none ∨ t.file fd' ≠ none

theorem placesTaken_iff (t : FdTable OpenFile) (log : Bool) : PlacesTaken t log ↔
    2 < (mainOpens t log false).stSlaveFd ∧ ∀ fd ∈ (mainOpens t log false).logFd.toList, 2 < fd := by
  cases log with
  | false =>
    have hslave : (mainOpens t false false).stSlaveFd = (t.openFile .master).lowest := rfl
    have hlog : (mainOpens t false false).logFd = none := rfl
    obtain ⟨hlt, -, hfree, -⟩ := openpty_opened (mainOpens_pty t false)
    rw [hlog, PlacesTaken, if_neg (by decide)]
    simp only [Option.toList_none, List.not_mem_nil, false_implies, implies_true, and_true]
    constructor
    · intro hroom
      by_contra hle
      obtain hm | hs := hroom _ _ hlt (Nat.le_of_not_lt hle)
      · exact hm hfree.1
      · exact hs hfree.2
    · intro hlow fd fd' hlt' hle
      by_contra hnone
      rw [not_or, not_not, not_not] at hnone
      have htaken := FdTable.lt_lowest_iff.mp (hslave ▸ hlow)
      have hfirst : fd = t.lowest := by
        by_contra hne
        apply htaken fd (by omega)
        rw [FdTable.file_openFile, if_neg hne, hnone.1]
      apply htaken fd' hle
      rw [FdTable.file_openFile, if_neg (by omega), hnone.2]
  | true =>
    have hslave : (mainOpens t true false).stSlaveFd = ((t.openFile .logFile).openFile .master).lowest := rfl
    have hlog : (mainOpens t true false).logFd = some t.lowest := rfl
    have hlt := FdTable.lowest_openFile t .logFile
    have hlt' := FdTable.lowest_openFile (t.openFile .logFile) .master
    rw [hlog, hslave, PlacesTaken, if_pos rfl, ← FdTable.lt_lowest_iff]
    simp only [Option.toList_some, List.mem_singleton, forall_eq]
    omega

/-- The shell has the terminal at its first three places if and only if enough of them have been taken when rzh
was started. It has nothing else that rzh has opened, and the check finds the numbers as they were. -/
theorem mainOpens_doChild (t : FdTable OpenFile) (log : Bool) :
    (TerminalStdio (doChild (mainOpens t log false).table (mainOpens t log false).stMasterFd
      (mainOpens t log false).stSlaveFd (mainOpens t log false).logFd) ↔ PlacesTaken t log) ∧
    (∀ fd, 2 < fd → (doChild (mainOpens t log false).table (mainOpens t log false).stMasterFd
      (mainOpens t log false).stSlaveFd (mainOpens t log false).logFd).file fd = t.file fd) ∧
    ((∀ fd ≤ 2, t.file fd ≠ none) →
      fdcheck (findHighestFd t) (doChild (mainOpens t log false).table (mainOpens t log false).stMasterFd
        (mainOpens t log false).stSlaveFd (mainOpens t log false).logFd) = true) := by
  let fds := mainOpens t log false
  have hpty := mainOpens_pty t log
  have hstdio := (doChild_stdio hpty fds.logFd).trans (placesTaken_iff t log).symm
  have hothers : ∀ fd, 2 < fd →
      (doChild fds.table fds.stMasterFd fds.stSlaveFd fds.logFd).file fd = t.file fd := by
    intro fd hfd
    rw [doChild_others hpty hfd]
    have hfree : fd ∈ fds.logFd.toList → t.file fd = none := fun hmem =>
      mainOpens_free (List.mem_append_left _ hmem)
    split
    · next hmem => exact (hfree hmem).symm
    · next hmem =>
      cases log with
      | false => rfl
      | true =>
        have hne : fd ≠ t.lowest := fun he => hmem (by simp [fds, mainOpens, he])
        change (t.openFile .logFile).file fd = _
        rw [FdTable.file_openFile, if_neg hne]
  refine ⟨hstdio, hothers, fun hopen => ?_⟩
  have hterm : TerminalStdio (doChild fds.table fds.stMasterFd fds.stSlaveFd fds.logFd) := by
    apply hstdio.mpr
    rw [PlacesTaken]
    split
    · exact hopen
    · exact fun fd fd' hlt hle => .inr (hopen fd' hle)
  rw [fdcheck, decide_eq_true_eq]
  apply highestFd_congr
  intro fd _ _
  by_cases hfd : fd ≤ 2
  · rw [hterm fd hfd]
    simp [Option.isSome_iff_ne_none, hopen fd hfd]
  · rw [hothers fd (Nat.lt_of_not_le hfd)]

end Fdcheck

end Rzh
