import Rzh.Ledger

/-!
# What the children get, and what is left behind

From what is open in a run it is known what a receive process inherits that is forked, and what rzh leaves open when
it exits.
-/
namespace Rzh

open Sys

section Child

variable {t₀ t t' : FdTable OpenFile} {log conn : Bool} {s s' s₀ u : Sys} {mode : Mode}

theorem lasting_st (stMasterFd stSlaveFd : Int) :
    Lasting fun s => s.stMasterFd = stMasterFd ∧ s.stSlaveFd = stSlaveFd where
  untouched hs h := by
    rw [h.st.1, h.st.2]
    exact hs
  closed {s a} _ hs _ := by
    rw [closeAtom_only s a]
    exact hs
  installed hwf hs h := by
    rw [(taskInstall_ok hwf h).rest]
    exact hs
  removed hwf hs h := by
    obtain ⟨task, top, below, s₁, s₂, -, hun, hwrites, rfl⟩ := taskRemove_ok hwf h
    have hw : (s₁.pipes .masterOutput).writeAtom = some (.write top.addr) := by rw [hun.masterOutput]
    change s₂.stMasterFd = _ ∧ s₂.stSlaveFd = _
    rw [(pipeWrites_poured hwrites hw).rest, hun.rest]
    exact hs

/-- The child calls the destructors. The echo task's closes nothing, and the master's closes the terminal. -/
theorem taskForkPrepare_closes {echo : TaskState} (htasks : u.tasks = [echo]) (hecho : IsScanner echo.spec) :
    ∃ u', taskForkPrepare u = .ok u' ∧ closings (newCalls u u') = [u.stMasterFd, u.stSlaveFd] := by
  obtain ⟨io, hio⟩ := destroyTaskAtoms_rest u echo
  let u₁ : Sys := { u with io := io }
  have hdestroy : destroyAll u.tasks u = .ok u₁ := by
    obtain ⟨_, he⟩ := hecho
    rw [htasks, destroyAll, taskDestroy_eq, hio, he]
    exact congrArg Except.ok (echoDestructor_eq u₁ _)
  have hmaster := pipeAtomDestroy_rest u₁ .master
  let u₂ : Sys := { u₁ with io := (pipeAtomDestroy u₁ .master).io }
  have hprepare : taskForkPrepare u = .ok ((u₂.close u.stMasterFd).close u.stSlaveFd) := by
    rw [taskForkPrepare, hdestroy]
    change Except.ok (((pipeAtomDestroy u₁ .master).close (pipeAtomDestroy u₁ .master).stMasterFd).close
      (pipeAtomDestroy u₁ .master).stSlaveFd) = _
    rw [hmaster]
  have hgone : Does (fun _ => True) 0 [] u u₂ := .of_kernel rfl
  exact ⟨_, hprepare, (hgone.trans ((Does.close _ _).trans (.close _ _))).newCalls⟩

/-- A fork begins a transfer, and no other. -/
theorem Deals.begun (h : Deals s s') (hforked : Forked s s') (hmode : InMode s mode)
    (hmode' : ∃ mode, InMode s' mode) :
    InMode s .echo ∧ ∃ chstdin chstdout chstderr pid forks,
      s.kernel.forks = .child chstdin chstdout chstderr pid :: forks := by
  cases h with
  | keeps _ hdoes => exact absurd hforked hdoes.not_forked
  | ends _ _ hdoes => exact absurd hforked hdoes.not_forked
  | begins htasks _ hforks =>
    refine ⟨?_, _, _, _, _, _, hforks⟩
    cases hmode with
    | echo hstack hecho hin hout hrefcon => exact .echo hstack hecho hin hout hrefcon
    | transfer hstack =>
      obtain ⟨mode', hmode'⟩ := hmode'
      rw [hstack] at htasks
      cases hmode' with
      | echo hstack' =>
        rw [hstack'] at htasks
        cases htasks
      | transfer hstack' =>
        rw [hstack'] at htasks
        cases htasks

theorem masterFd_opened (t₀ : FdTable OpenFile) (log conn : Bool) :
    (mainOpens t₀ log conn).masterFd ∈ (mainOpens t₀ log conn).opened := by
  rw [MainFds.masterFd, MainFds.opened]
  cases (mainOpens t₀ log conn).connFd with
  | none => simp
  | some fd => simp

theorem MainFds.Starts.st {fds : MainFds} (h : fds.Starts s₀) :
    s₀.stMasterFd = fds.stMasterFd ∧ s₀.stSlaveFd = fds.stSlaveFd := by
  obtain ⟨s₁, inma, maou, hinma, hmaou, hst, hinit⟩ := h
  obtain ⟨-, hm, hs⟩ := masterPipeInit_fd hinit
  rw [hm, hs]
  exact hst

section Remains

variable {fd : Nat}

/-- With the echo task alone, what remains without the program's own files is what it has been started with, apart
from stdin and stdout, which may be closed. -/
theorem Ledger.remains (hl : Ledger (mainOpens t₀ log conn) t s) (hecho : InMode s .echo) (hfd : 1 < fd) :
    (if fd ∈ (mainOpens t₀ log conn).prepared then none else t.file fd) = t₀.file fd := by
  let fds := mainOpens t₀ log conn
  split
  · next hmem =>
    obtain hmem | ⟨-, rfl⟩ := mem_prepared.mp hmem
    · exact (mainOpens_free hmem).symm
    · cases hfd
  · next hmem =>
    have hopened : fd ∉ fds.opened := fun h => hmem (mem_prepared.mpr (.inl h))
    have haside : fds.Aside fd := by
      refine ⟨by omega, by omega, fun he => hopened ?_⟩
      rw [he]
      exact masterFd_opened t₀ log conn
    rw [← mainOpens_file hopened]
    cases hf : t.file fd with
    | some f =>
      obtain h | h := hl.old fd f hf
      · exact h.symm
      · exact absurd h (hecho.echo_not_received fd)
    | none =>
      cases hf' : fds.table.file fd with
      | none => rfl
      | some f =>
        rw [hl.kept fd f haside hf'] at hf
        cases hf

/-- And nothing else remains. -/
theorem Ledger.remains_some (hl : Ledger (mainOpens t₀ log conn) t s) (hecho : InMode s .echo) {f : OpenFile}
    (hf : (if fd ∈ (mainOpens t₀ log conn).prepared then none else t.file fd) = some f) : t₀.file fd = some f := by
  split at hf
  · cases hf
  · next hmem =>
    obtain h | h := hl.old fd f hf
    · rw [← mainOpens_file fun h => hmem (mem_prepared.mpr (.inl h))]
      exact h
    · exact absurd h (hecho.echo_not_received fd)

end Remains

/-- What a receive process gets that is forked while `t` is open, by a program that has been started with `t₀`. -/
structure ChildGets (t₀ t : FdTable OpenFile) (conn : Bool) (transfer : Nat) (child : FdTable OpenFile) : Prop where
  others : ∀ fd, 2 < fd → child.file fd = t₀.file fd
  stdio : PipedStdio transfer child ↔ conn = false ∧ ∀ fd ≤ 2, t₀.file fd ≠ none ∧ t.file fd ≠ none
  quiet : PipedStdio transfer child → fdcheck (findHighestFd t₀) child = true

/-- In any run each receive process has inherited what the program has, and none of the program's own files but
its ends of the pipes. They are its stdin, stdout and stderr if and only if there is a terminal, and the first three
places have been taken at the start and still are. -/
theorem tableRun_child (h₀ : (mainOpens t₀ log conn).Starts s₀) (run : TableRun (mainOpens t₀ log conn) s₀ t s)
    {m : Move} (hown : m.Own) (hcalled : m.Called s) (h : m.run s = .ok s') (hforked : Forked s s')
    (hopens : Opens t s s' t') : ∃ chstdin chstdout chstderr pid forks,
      s.kernel.forks = .child chstdin chstdout chstderr pid :: forks ∧
      (∀ u, Untouched s u → ∃ u', taskForkPrepare u = .ok u' ∧ closedFds (newCalls u u') ++
        (mainOpens t₀ log conn).connFd.toList ++ (mainOpens t₀ log conn).logFd.toList =
          (mainOpens t₀ log conn).prepared) ∧
      ChildGets t₀ t conn s.kernel.forks.length
        (rzChild t' chstdin chstdout chstderr (mainOpens t₀ log conn).prepared) := by
  let fds := mainOpens t₀ log conn
  obtain ⟨mode, hmode⟩ := sessionRun_inMode h₀.started run.session
  have hmode' := sessionRun_inMode h₀.started (run.session.next m hown hcalled h)
  have hwf := programRun_wf h₀.started run.session.program
  have hdeals := move_deals hwf (tableRun_placed h₀ run) hmode hown h
  obtain ⟨hecho, chstdin, chstdout, chstderr, pid, forks, hforks⟩ := hdeals.begun hforked hmode hmode'
  have hpipes := hopens.pipes hforked hforks
  have hothers : ∀ fd, 2 < fd → (rzChild t' chstdin chstdout chstderr fds.prepared).file fd = t₀.file fd := by
    intro fd hfd
    rw [rzChild_others hpipes hfd]
    exact (tableRun_ledger h₀ run).remains hecho (Nat.lt_of_succ_lt hfd)
  have hstdio : PipedStdio s.kernel.forks.length (rzChild t' chstdin chstdout chstderr fds.prepared) ↔
      conn = false ∧ ∀ fd ≤ 2, t₀.file fd ≠ none ∧ t.file fd ≠ none := by
    rw [rzChild_stdio hpipes, prepared_apart]
    constructor
    · rintro ⟨hopen, hconn, hopen₀⟩
      exact ⟨hconn, fun fd hfd => ⟨hopen₀ fd hfd, hopen fd hfd⟩⟩
    · rintro ⟨hconn, hopen⟩
      exact ⟨fun fd hfd => (hopen fd hfd).2, hconn, fun fd hfd => (hopen fd hfd).1⟩
  refine ⟨chstdin, chstdout, chstderr, pid, forks, hforks, fun u hu => ?_, hothers, hstdio, fun hpiped => ?_⟩
  · cases hecho with
    | echo htasks hscanner =>
      obtain ⟨u', hprepare, hclosed⟩ := taskForkPrepare_closes (hu.tasks.trans htasks) hscanner
      refine ⟨u', hprepare, ?_⟩
      obtain ⟨hm, hs⟩ := (lasting_st _ _).run h₀.started h₀.st run.session.program
      rw [closedFds, hclosed, hu.st.1, hu.st.2, hm, hs]
      rfl
  · rw [fdcheck, decide_eq_true_eq]
    apply highestFd_congr
    intro fd _ _
    by_cases hfd : fd ≤ 2
    · have hopen := ((hstdio.mp hpiped).2 fd hfd).1
      obtain ⟨h₀, h₁, h₂⟩ := hpiped
      obtain rfl | rfl | rfl : fd = 0 ∨ fd = 1 ∨ fd = 2 := by omega
      · simp [h₀, Option.isSome_iff_ne_none, hopen]
      · simp [h₁, Option.isSome_iff_ne_none, hopen]
      · simp [h₂, Option.isSome_iff_ne_none, hopen]
    · rw [hothers fd (Nat.lt_of_not_le hfd)]

/-- A packet begins a transfer, and rz gets its ends of the pipes. -/
theorem tableRun_child_rowed : ∃ s₀ s s' t', stdioFds.Starts s₀ ∧ TableRun stdioFds s₀ stdioFds.table s ∧
    Forked s s' ∧
      ∃ chstdin chstdout chstderr, PipedStdio 1 (rzChild t' chstdin chstdout chstderr stdioFds.prepared) := by
  obtain ⟨s₀, s, s', -, t', hstarts, hrun, hs', -, ⟨hopens, hforked, -⟩, hlength, -⟩ := rowed_transfer
  obtain ⟨chstdin, chstdout, chstderr, -, -, -, -, hgets⟩ := tableRun_child hstarts hrun
    (m := .event (.autoRead .masterOutput)) trivial trivial hs' hforked hopens
  rw [hlength] at hgets
  exact ⟨s₀, s, s', t', hstarts, hrun, hforked, chstdin, chstdout, chstderr,
    hgets.stdio.mpr ⟨rfl, by decide +kernel⟩⟩

end Child

section End

variable {t₀ t : FdTable OpenFile} {log conn : Bool} {s s' s₀ : Sys} {fds : MainFds} {n g : Nat}

/-- The end of the process: a status, with or without a complaint of fdcheck, or the assertion of
find_highest_fd. -/
inductive Exit where
  | status (val : Nat) (complaint : Bool)
  | aborted
  deriving DecidableEq

/-- main() behind its setjmp(): how it ends, and what is open by then. -/
def MainFds.leaves (fds : MainFds) (gHighestFd val : Nat) (t : FdTable OpenFile) : Exit × FdTable OpenFile :=
  -- a longjmp() with 0 is one with 1
  let val := if val = 0 then 1 else val
  let val := if val = 1 then 0 else val
  if val = 0 then
    let t := (t.closeAll fds.connFd.toList).closeAll fds.logFd.toList
    match findHighestFd t with
    | none => (.aborted, t)
    | some _ => (.status val (!fdcheck (some gHighestFd) t), t)
  else (.status val false, t)

theorem taskRemove_transfer (hmode : InMode s .transfer) : ∃ s', taskRemove s = .ok s' := by
  cases hmode with
  | @transfer rz echo _ _ htasks hrz =>
    obtain ⟨s', hs'⟩ := destruct_total (unstack_rest s rz echo []).2.2.2.2.2 hrz.wellMade
    exact ⟨s', by rw [taskRemove_eq htasks, hs']⟩

/-- The echo task goes with the program and takes the terminal with it. -/
theorem taskRemove_echo (hmode : InMode s .echo) : ∃ s', taskRemove s = .error (.bail 0, s') ∧
    Does (fun _ => True) 0 [s.stMasterFd, s.stSlaveFd] s s' := by
  cases hmode with
  | @echo echo _ htasks hecho =>
    obtain ⟨io, hio⟩ := destroyTaskAtoms_rest { s with tasks := [] } echo
    let s₁ : Sys := { s with tasks := [], io := io }
    let s₂ : Sys := { s₁ with io := (pipeAtomDestroy s₁ .master).io }
    have hdestroy : taskDestroy { s with tasks := [] } echo = .ok s₁ := by
      obtain ⟨_, he⟩ := hecho
      rw [taskDestroy_eq, hio, he]
      exact congrArg Except.ok (echoDestructor_eq s₁ _)
    have hremove : taskRemove s = .error (.bail 0, (s₂.close s.stMasterFd).close s.stSlaveFd) := by
      rw [taskRemove, htasks]
      simp only [hdestroy]
      change Except.error (Halt.bail 0,
        ((pipeAtomDestroy s₁ .master).close (pipeAtomDestroy s₁ .master).stMasterFd).close
          (pipeAtomDestroy s₁ .master).stSlaveFd) = _
      rw [pipeAtomDestroy_rest s₁ .master]
    have hgone : Does (fun _ => True) 0 [] s s₂ := .of_kernel rfl
    exact ⟨_, hremove, hgone.trans ((Does.close _ _).trans (.close _ _))⟩

theorem removeAll_round (hne : s.tasks ≠ []) (n : Nat) :
    removeAll (n + 1) s = (liftM (taskRemove s) >>= removeAll n) := by
  rw [removeAll, if_neg hne]

/-- With the echo task alone the first round is the last. -/
theorem removeAll_echo (hmode : InMode s .echo) (n : Nat) :
    ∃ s', (removeAll (n + 1) s).run = some (.error (.bail 0, s')) ∧
    Does (fun _ => True) 0 [s.stMasterFd, s.stSlaveFd] s s' := by
  obtain ⟨s', hremove, hdoes⟩ := taskRemove_echo hmode
  refine ⟨s', ?_, hdoes⟩
  rw [removeAll_round hmode.tasks_ne_nil, hremove]
  rfl

theorem leaves_table (fds : MainFds) (gHighestFd : Nat) (t : FdTable OpenFile) :
    (fds.leaves gHighestFd 0 t).2 = (t.closeAll fds.connFd.toList).closeAll fds.logFd.toList := by
  rw [MainFds.leaves]
  simp only [↓reduceIte]
  split
  · rfl
  · rfl

/-- All that is the program's own is closed when it exits. -/
theorem leaves_file {fd : Nat} (hst : s.stMasterFd = (mainOpens t₀ log conn).stMasterFd ∧
    s.stSlaveFd = (mainOpens t₀ log conn).stSlaveFd)
    (hdoes : Does (fun _ => True) 0 [s.stMasterFd, s.stSlaveFd] s s') :
    ((mainOpens t₀ log conn).leaves g 0 (t.closeAll (closedFds (newCalls s s')))).2.file fd =
      if fd ∈ (mainOpens t₀ log conn).prepared then none else t.file fd := by
  let fds := mainOpens t₀ log conn
  rw [leaves_table, FdTable.file_closeAll, FdTable.file_closeAll, file_closed hdoes, hst.1, hst.2, MainFds.prepared]
  simp only [List.mem_append, List.mem_cons, List.not_mem_nil, or_false, Int.ofNat_inj]
  by_cases hlog : fd ∈ fds.logFd.toList
  · simp [fds, hlog]
  · by_cases hconn : fd ∈ fds.connFd.toList
    · simp [fds, hlog, hconn]
    · simp [fds, hlog, hconn]

/-- What the program leaves behind is what it has been given, but that stdin and stdout may be closed. -/
structure LeftAsFound (t₀ u : FdTable OpenFile) : Prop where
  only : ∀ fd f, u.file fd = some f → t₀.file fd = some f
  rest : ∀ fd, 1 < fd → u.file fd = t₀.file fd

/-- A number that find_highest_fd looks at is above stdout and has been taken at the start, or stdout is still
open. -/
def Anchored (t₀ u : FdTable OpenFile) : Prop :=
  (∃ fd, 1 < fd ∧ fd ≤ 64 ∧ t₀.file fd ≠ none) ∨ u.file 1 ≠ none

/-- The end of a program that has nothing to complain about: only where no number is left does it not get there. -/
inductive EndsWell (t₀ u : FdTable OpenFile) : Exit → Prop where
  | quiet (h : Anchored t₀ u) : EndsWell t₀ u (.status 0 false)
  | noFds (h : ¬ Anchored t₀ u) : EndsWell t₀ u .aborted

theorem highestFd_none {t : FdTable OpenFile} (h : ∀ fd, 0 < fd → fd ≤ n → t.file fd = none) :
    highestFd t n = none := by
  induction n with
  | zero => rfl
  | succ n ih =>
    rw [highestFd, h (n + 1) (Nat.succ_pos n) (Nat.le_refl _)]
    exact ih fun fd hpos hfd => h fd hpos (Nat.le_succ_of_le hfd)

/-- With one of the others open the highest number does not depend on stdout. -/
theorem highestFd_above {u : FdTable OpenFile} (hrest : ∀ fd, 1 < fd → u.file fd = t₀.file fd) {fd : Nat}
    (hfd : 1 < fd) (hn : fd ≤ n) (hopen : t₀.file fd ≠ none) : highestFd u n = highestFd t₀ n := by
  induction n with
  | zero => omega
  | succ n ih =>
    rw [highestFd, highestFd, hrest (n + 1) (by omega)]
    split
    · rfl
    · next hnone =>
      obtain rfl | hlt := Nat.eq_or_lt_of_le hn
      · exact absurd (Option.isSome_iff_ne_none.mpr hopen) hnone
      · exact ih (Nat.le_of_lt_succ hlt)

/-- What find_highest_fd finds at the end is what it has found at the start, if it finds anything. -/
theorem LeftAsFound.highest {u : FdTable OpenFile} (h : LeftAsFound t₀ u) {g : Nat}
    (hg : findHighestFd t₀ = some g) : findHighestFd u = some g ∧ Anchored t₀ u ∨
      findHighestFd u = none ∧ ¬ Anchored t₀ u := by
  by_cases habove : ∃ fd, 1 < fd ∧ fd ≤ 64 ∧ t₀.file fd ≠ none
  · obtain ⟨fd, hfd, hle, hopen⟩ := habove
    exact .inl ⟨(highestFd_above h.rest hfd hle hopen).trans hg, .inl ⟨fd, hfd, hle, hopen⟩⟩
  by_cases hstdout : u.file 1 = none
  · refine .inr ⟨highestFd_none fun fd hpos hle => ?_, ?_⟩
    · obtain rfl | hfd := Nat.eq_or_lt_of_le hpos
      · exact hstdout
      · rw [h.rest fd hfd]
        by_contra hopen
        exact habove ⟨fd, hfd, hle, hopen⟩
    · rintro (habove' | hopen)
      · exact habove habove'
      · exact hopen hstdout
  · refine .inl ⟨(highestFd_congr fun fd hpos _ => ?_).trans hg, .inr hstdout⟩
    obtain rfl | hfd := Nat.eq_or_lt_of_le hpos
    · obtain ⟨f, hf⟩ := Option.ne_none_iff_exists'.mp hstdout
      rw [hf, h.only 1 f hf]
    · rw [h.rest fd hfd]

/-- The echo task is the last to go. -/
theorem Ledger.left (hl : Ledger (mainOpens t₀ log conn) t s) (hecho : InMode s .echo)
    (hst : s.stMasterFd = (mainOpens t₀ log conn).stMasterFd ∧ s.stSlaveFd = (mainOpens t₀ log conn).stSlaveFd)
    (hdoes : Does (fun _ => True) 0 [s.stMasterFd, s.stSlaveFd] s s') :
    LeftAsFound t₀ ((mainOpens t₀ log conn).leaves g 0 (t.closeAll (closedFds (newCalls s s')))).2 := by
  refine ⟨fun fd f hf => ?_, fun fd hfd => ?_⟩
  · rw [leaves_file hst hdoes] at hf
    exact hl.remains_some hecho hf
  · rw [leaves_file hst hdoes]
    exact hl.remains hecho hfd

/-- And then main() exits. -/
theorem LeftAsFound.endsWell {fds : MainFds} {t₁ : FdTable OpenFile} (hg : findHighestFd t₀ = some g)
    (h : LeftAsFound t₀ (fds.leaves g 0 t₁).2) : EndsWell t₀ (fds.leaves g 0 t₁).2 (fds.leaves g 0 t₁).1 := by
  rw [leaves_table] at h
  obtain ⟨hsome, hanchored⟩ | ⟨hnone, hanchored⟩ := h.highest hg
  · have he : fds.leaves g 0 t₁ = (.status 0 false, (t₁.closeAll fds.connFd.toList).closeAll fds.logFd.toList) := by
      rw [MainFds.leaves]
      simp [hsome, fdcheck]
    rw [he]
    exact .quiet hanchored
  · have he : fds.leaves g 0 t₁ = (.aborted, (t₁.closeAll fds.connFd.toList).closeAll fds.logFd.toList) := by
      rw [MainFds.leaves]
      simp [hnone]
    rw [he]
    exact .noFds hanchored

theorem closedFds_trans {W : Int → Prop} {m : Nat} {closed closed' : List Int} {s'' : Sys} (h : Does W n closed s s')
    (h' : Does W m closed' s' s'') :
    closedFds (newCalls s s'') = closedFds (newCalls s s') ++ closedFds (newCalls s' s'') := by
  rw [closedFds, closedFds, closedFds, (h.trans h').newCalls, h.newCalls, h'.newCalls, List.filterMap_append]

/-- When the shell has gone or the master is closed the program ends, whatever it is doing: it has closed all that it
has opened, and but for stdin and stdout nothing that it has been given, and exits with 0. fdcheck has nothing to
complain about, but with stdout closed it fails where nothing else was open at the start. -/
theorem tableRun_end (hg : findHighestFd t₀ = some g) (h₀ : (mainOpens t₀ log conn).Starts s₀)
    (run : TableRun (mainOpens t₀ log conn) s₀ t s) (n : Nat) :
    ∃ s', (removeAll (n + 2) s).run = some (.error (.bail 0, s')) ∧ ∃ last u,
      (mainOpens t₀ log conn).leaves g 0 (t.closeAll (closedFds (newCalls s s'))) = (last, u) ∧
        LeftAsFound t₀ u ∧ EndsWell t₀ u last := by
  have hst : ∀ {t s}, TableRun (mainOpens t₀ log conn) s₀ t s → s.stMasterFd = (mainOpens t₀ log conn).stMasterFd ∧
      s.stSlaveFd = (mainOpens t₀ log conn).stSlaveFd :=
    fun run => (lasting_st _ _).run h₀.started h₀.st run.session.program
  obtain ⟨mode, hmode⟩ := sessionRun_inMode h₀.started run.session
  cases mode with
  | echo =>
    obtain ⟨s', hremove, hdoes⟩ := removeAll_echo hmode (n + 1)
    have hleft := (tableRun_ledger h₀ run).left (g := g) hmode (hst run) hdoes
    exact ⟨s', hremove, _, _, rfl, hleft, hleft.endsWell hg⟩
  | transfer =>
    -- the receive process goes first
    obtain ⟨s₁, hremove⟩ := taskRemove_transfer hmode
    have hwf := programRun_wf h₀.started run.session.program
    have hecho := ((taskRemove_mode hwf hmode).of_ok hremove).2
    have hfirst : ∃ closed, Does (fun _ => True) 0 closed s s₁ := by
      cases hmode with
      | transfer htasks =>
        have hdoes := taskRemove_does (W := fun _ => True) htasks fun _ => trivial
        rw [hremove] at hdoes
        obtain ⟨-, closed, -, hdoes⟩ := hdoes
        exact ⟨closed, hdoes⟩
    obtain ⟨closed, hfirst⟩ := hfirst
    have run₁ := run.next (.event .remove) trivial trivial hremove (.still hfirst.not_forked)
    obtain ⟨s', hrest, hdoes⟩ := removeAll_echo hecho n
    have hall : (removeAll (n + 2) s).run = some (.error (.bail 0, s')) := by
      rw [removeAll_round hmode.tasks_ne_nil, hremove]
      exact hrest
    have hleft := (tableRun_ledger h₀ run₁).left (g := g) hecho (hst run₁) hdoes
    rw [← FdTable.closeAll_append, ← closedFds_trans hfirst hdoes] at hleft
    exact ⟨s', hall, _, _, rfl, hleft, hleft.endsWell hg⟩

/-- The shell exits during a transfer. -/
theorem tableRun_end_rowed : ∃ s₀ t s s', stdioFds.Starts s₀ ∧ TableRun stdioFds s₀ t s ∧ s.tasks.length = 2 ∧
    (removeAll 2 s).run = some (.error (.bail 0, s')) ∧
    ∃ last u, stdioFds.leaves 2 0 (t.closeAll (closedFds (newCalls s s'))) = (last, u) ∧ LeftAsFound stdio u ∧
      EndsWell stdio u last := by
  obtain ⟨s₀, s₁, s₂, s₃, t₁, hstarts, hrun, h₂, h₃, ⟨hopens, hforked, -⟩, -, -⟩ := rowed_transfer
  have hrun₂ := hrun.next (.event (.autoRead .masterOutput)) trivial trivial h₂ hopens
  have hlength : s₂.tasks.length = 2 := by
    obtain ⟨mode, hmode⟩ := sessionRun_inMode hstarts.started hrun₂.session
    cases hmode with
    | echo htasks =>
      rw [taskRemove, htasks] at h₃
      obtain ⟨_, -, h₃⟩ := Result.bind_ok h₃
      cases h₃
    | transfer htasks =>
      rw [htasks]
      rfl
  have hhighest : findHighestFd stdio = some 2 := by decide +kernel
  obtain ⟨s', hremove, last, u, hu, hleft, hlast⟩ := tableRun_end hhighest hstarts hrun₂ 0
  exact ⟨s₀, _, s₂, s', hstarts, hrun₂, hlength, hremove, last, u, hu, hleft, hlast⟩

end End

end Rzh
