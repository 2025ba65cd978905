import Rzh.Splice

/-!
# One close for each descriptor

The number of a descriptor is in an atom, in the spec of a task, and bgio has the two of the
terminal. The pipes close what the atoms have, the destructors what the specs have, and bgio_stop
closes its own.
-/
namespace Rzh

open Sys

/-- The tasks whose destructor closes the descriptors of the spec. -/
def TaskSpec.Closing (spec : TaskSpec) : Prop := spec.destructProc = .taskDefault ∨ spec.destructProc = .rzt

instance (spec : TaskSpec) : Decidable spec.Closing := inferInstanceAs (Decidable (_ ∨ _))

/-- The descriptors of a spec that are there. -/
def TaskSpec.fds (spec : TaskSpec) : List Int := [spec.infd, spec.outfd, spec.errfd].filter fun fd => 0 ≤ fd

/-- What only the destructor closes. -/
def TaskSpec.closedErr (spec : TaskSpec) : List Int :=
  if spec.Closing then [spec.errfd].filter fun fd => 0 ≤ fd else []

/-- The descriptors that no pipe closes: those for the errors of children, and the slave's. The two
numbers of bgio are equal if there is no terminal. -/
def asides (s : Sys) : List Int :=
  s.tasks.flatMap (fun task => task.spec.closedErr) ++
    if s.stMasterFd = s.stSlaveFd then [] else [s.stSlaveFd]

def usedAtoms (tasks : List TaskState) : List AtomRef :=
  .master :: tasks.flatMap fun task => [.read task.addr, .write task.addr, .err task.addr]

/-- The descriptors that the program has open. -/
def holdings (s : Sys) : List Int :=
  ((usedAtoms s.tasks).map fun a => (s.atoms a).fd).filter (fun fd => 0 ≤ fd) ++ asides s

/-- The numbers of the next child's pipes. -/
def Kernel.newEnds (k : Kernel) : List Int :=
  match k.forks with
  | .child chstdin chstdout chstderr _ :: _ =>
    [chstdin.1, chstdin.2, chstdout.1, chstdout.2, chstderr.1, chstderr.2]
  | _ => []

/-- From `s` to `s'` there has been a fork. -/
def Forked (s s' : Sys) : Prop := s'.kernel.forks.length < s.kernel.forks.length

instance (s s' : Sys) : Decidable (Forked s s') := inferInstanceAs (Decidable (_ < _))

/-- The numbers that the operating system gives in a move: for the pipes to a child, and for a task
that somebody else has opened the descriptors of. -/
def given (s s' : Sys) : Move → List Int
  | .event (.install spec) => spec.fds
  | _ => if Forked s s' then s.kernel.newEnds else []

def Unused (s : Sys) (fds : List Int) : Prop := fds.Nodup ∧ ∀ fd ∈ fds, fd ∉ holdings s

instance (s : Sys) (fds : List Int) : Decidable (Unused s fds) := inferInstanceAs (Decidable (_ ∧ _))

/-- No number is given that is in use, and the echo task is installed while stdin and stdout are open
and no other's. -/
def Supplied (gone : List Int) (s s' : Sys) (m : Move) : Prop :=
  Unused s (given s s' m) ∧ (m = .event .echoScanner → Unused s [0, 1] ∧ (0 : Int) ∉ gone ∧ (1 : Int) ∉ gone)

/-- The numbers that have been closed and have not been given since, after a move. -/
def goneAfter (gone : List Int) (s s' : Sys) (m : Move) : List Int :=
  closings (newCalls s s') ++ gone.filter fun fd => fd ∉ given s s' m

/-- A run in which every move meets a condition, with the numbers that have been closed and have not
been given since. -/
inductive ClosedRun (Ok : Sys → Move → Prop) (s₀ : Sys) : List Int → Sys → Prop where
  | start : ClosedRun Ok s₀ [] s₀
  | next {gone : List Int} {s s' : Sys} (run : ClosedRun Ok s₀ gone s) (m : Move) (hcalled : m.Called s)
    (h : m.run s = .ok s') (hsupplied : Supplied gone s s' m) (hok : Ok s m) :
    ClosedRun Ok s₀ (goneAfter gone s s' m) s'

/-- No number is closed a second time before it has been given again. -/
def ClosesOnce (gone : List Int) (s s' : Sys) (m : Move) : Prop :=
  (closings (newCalls s s')).Nodup ∧ ∀ fd ∈ closings (newCalls s s'), fd ∈ gone → fd ∈ given s s' m

instance (gone : List Int) (s s' : Sys) (m : Move) : Decidable (ClosesOnce gone s s' m) :=
  inferInstanceAs (Decidable (_ ∧ _))

/-- No pipe has closed what a destructor is going to close: neither a descriptor of the task that is
removed nor, with the last task, that of the terminal. -/
def StillOpen (s : Sys) : Move → Prop
  | .event .remove =>
    (∀ task ∈ s.tasks.head?, task.spec.Closing →
      (0 ≤ task.spec.infd → s.live (.read task.addr)) ∧ (0 ≤ task.spec.outfd → s.live (.write task.addr))) ∧
      (s.tasks.length = 1 → s.live .master ∧ s.stMasterFd ≠ s.stSlaveFd)
  | _ => True

/-- The atoms that the pipes close. -/
def InPipe (tasks : List TaskState) (a : AtomRef) : Prop := InUse tasks a ∧ ∀ n, a ≠ .err n

/-- Each number that is going to be closed has one place. -/
structure Sound (gone : List Int) (s : Sys) : Prop where
  atoms : ∀ a, InPipe s.tasks a → s.live a → (s.atoms a).fd ∉ gone ∧ (s.atoms a).fd ∉ asides s
  kept : ∀ fd ∈ asides s, fd ∉ gone
  nodup : (asides s).Nodup
  own : ∀ task ∈ s.tasks, (s.live (.read task.addr) → (s.atoms (.read task.addr)).fd = task.spec.infd) ∧
    (s.live (.write task.addr) → (s.atoms (.write task.addr)).fd = task.spec.outfd)
  master : s.stMasterFd ≠ s.stSlaveFd → s.live .master → (s.atoms .master).fd = s.stMasterFd

section Sound

variable {gone gone' : List Int} {s s' : Sys} {a : AtomRef} {spec : TaskSpec}

theorem closed_of_closing (h : spec.Closing) : spec.closed = spec.fds := by
  obtain h | h := h
  · rw [TaskSpec.closed, h]
    rfl
  · rw [TaskSpec.closed, h]
    rfl

theorem closed_of_not_closing (h : ¬ spec.Closing) : spec.closed = [] := by
  cases hproc : spec.destructProc with
  | taskDefault => exact absurd (.inl hproc) h
  | rzt => exact absurd (.inr hproc) h
  | echo => rw [TaskSpec.closed, hproc]
  | echoScanner => rw [TaskSpec.closed, hproc]

theorem mem_fds {fd : Int} : fd ∈ spec.fds ↔ (fd = spec.infd ∨ fd = spec.outfd ∨ fd = spec.errfd) ∧ 0 ≤ fd := by
  simp [TaskSpec.fds]

theorem mem_closedErr {fd : Int} : fd ∈ spec.closedErr ↔ spec.Closing ∧ fd = spec.errfd ∧ 0 ≤ fd := by
  rw [TaskSpec.closedErr]
  split
  · next h => simp [h]
  · next h => simp [h]

theorem closedErr_nodup (spec : TaskSpec) : spec.closedErr.Nodup := by
  rw [TaskSpec.closedErr]
  split
  · exact List.Pairwise.filter _ (List.pairwise_singleton _ _)
  · exact List.nodup_nil

theorem mem_usedAtoms {tasks : List TaskState} (h : InUse tasks a) : a ∈ usedAtoms tasks := by
  rw [usedAtoms, List.mem_cons, List.mem_flatMap]
  cases h with
  | master => exact .inl rfl
  | read ht => exact .inr ⟨_, ht, by simp⟩
  | write ht => exact .inr ⟨_, ht, by simp⟩
  | err ht => exact .inr ⟨_, ht, by simp⟩

theorem mem_holdings (ha : InUse s.tasks a) (hl : s.live a) : (s.atoms a).fd ∈ holdings s := by
  rw [holdings, List.mem_append, List.mem_filter]
  exact .inl ⟨List.mem_map.mpr ⟨a, mem_usedAtoms ha, rfl⟩, decide_eq_true hl⟩

theorem Sound.mono (hs : Sound gone s) (h : ∀ fd ∈ gone', fd ∈ gone) : Sound gone' s where
  atoms a ha hl := ⟨fun hmem => (hs.atoms a ha hl).1 (h _ hmem), (hs.atoms a ha hl).2⟩
  kept fd hfd hmem := hs.kept fd hfd (h fd hmem)
  nodup := hs.nodup
  own := hs.own
  master := hs.master

theorem asides_eq (htasks : s'.tasks = s.tasks) (hst : s'.stMasterFd = s.stMasterFd ∧ s'.stSlaveFd = s.stSlaveFd) :
    asides s' = asides s := by
  rw [asides, asides, htasks, hst.1, hst.2]

theorem asides_cons {task : TaskState} (htasks : s'.tasks = task :: s.tasks)
    (hst : s'.stMasterFd = s.stMasterFd ∧ s'.stSlaveFd = s.stSlaveFd) :
    asides s' = task.spec.closedErr ++ asides s := by
  rw [asides, asides, htasks, hst.1, hst.2, List.flatMap_cons, List.append_assoc]

/-- What is open is as it was, or is closed by now. -/
theorem Sound.fewer (hs : Sound gone s)
    (hatoms : ∀ a, InPipe s.tasks a → s'.live a → s.live a ∧ (s'.atoms a).fd = (s.atoms a).fd)
    (htasks : s'.tasks = s.tasks) (hst : s'.stMasterFd = s.stMasterFd ∧ s'.stSlaveFd = s.stSlaveFd) :
    Sound gone s' where
  atoms a ha hl := by
    rw [htasks] at ha
    obtain ⟨hl', hfd⟩ := hatoms a ha hl
    rw [hfd, asides_eq htasks hst]
    exact hs.atoms a ha hl'
  kept := by
    rw [asides_eq htasks hst]
    exact hs.kept
  nodup := by
    rw [asides_eq htasks hst]
    exact hs.nodup
  own task ht := by
    rw [htasks] at ht
    refine ⟨fun hl => ?_, fun hl => ?_⟩
    · obtain ⟨hl', hfd⟩ := hatoms _ ⟨.read ht, by simp⟩ hl
      exact hfd.trans ((hs.own task ht).1 hl')
    · obtain ⟨hl', hfd⟩ := hatoms _ ⟨.write ht, by simp⟩ hl
      exact hfd.trans ((hs.own task ht).2 hl')
  master hne hl := by
    rw [hst.1, hst.2] at hne
    obtain ⟨hl', hfd⟩ := hatoms _ ⟨.master, by simp⟩ hl
    rw [hfd, hst.1]
    exact hs.master hne hl'

theorem Sound.untouched (hs : Sound gone s) (h : Untouched s s') : Sound gone s' := by
  apply hs.fewer _ h.tasks h.st
  intro a _ hl
  rw [Sys.live, h.atoms] at hl
  rw [h.atoms]
  exact ⟨hl, rfl⟩

/-- An atom of a pipe is closed. -/
theorem Sound.closed (hwf : s.WF) (hs : Sound gone s) (ha : InPipe s.tasks a) (hl : s.live a) :
    Sound ((s.atoms a).fd :: gone) (closeAtom s a) := by
  have htasks : (closeAtom s a).tasks = s.tasks := congrArg Shape.tasks (shape_closeAtom s a)
  have hst : (closeAtom s a).stMasterFd = s.stMasterFd ∧ (closeAtom s a).stSlaveFd = s.stSlaveFd := by
    rw [closeAtom_only s a]
    exact ⟨rfl, rfl⟩
  have hfewer : Sound gone (closeAtom s a) :=
    hs.fewer (fun b _ hb => ⟨(closeAtom_open hb).1, congrArg Atom.fd (closeAtom_open hb).2.1⟩) htasks hst
  refine ⟨fun b hb hlb => ?_, fun fd hfd => ?_, hfewer.nodup, hfewer.own, hfewer.master⟩
  · obtain ⟨hgone, haside⟩ := hfewer.atoms b hb hlb
    obtain ⟨hlb', hatom, hne⟩ := closeAtom_open hlb
    rw [htasks] at hb
    refine ⟨fun hmem => ?_, haside⟩
    obtain he | hmem := List.mem_cons.mp hmem
    · rw [hatom] at he
      exact hne ((hwf.held a ha.1).eq_of_fd (hwf.held b hb.1) hl he)
    · exact hgone hmem
  · have haside := (hs.atoms a ha hl).2
    intro hmem
    obtain rfl | hmem := List.mem_cons.mp hmem
    · rw [asides_eq htasks hst] at hfd
      exact haside hfd
    · exact hfewer.kept fd hfd hmem

theorem fds_nodup_iff : spec.fds.Nodup ↔ (0 ≤ spec.infd → spec.infd ≠ spec.outfd) ∧
    (0 ≤ spec.errfd → spec.infd ≠ spec.errfd ∧ spec.outfd ≠ spec.errfd) := by
  rw [TaskSpec.fds]
  by_cases hin : 0 ≤ spec.infd
  · by_cases hout : 0 ≤ spec.outfd
    · by_cases herr : 0 ≤ spec.errfd
      · simp [hin, hout, herr, and_assoc]
      · simp [hin, hout, herr]
    · have hne : spec.infd ≠ spec.outfd := by omega
      by_cases herr : 0 ≤ spec.errfd
      · have hne' : spec.outfd ≠ spec.errfd := by omega
        simp [hin, hout, herr, hne, hne']
      · simp [hin, hout, herr, hne]
  · by_cases hout : 0 ≤ spec.outfd
    · by_cases herr : 0 ≤ spec.errfd
      · have hne : spec.infd ≠ spec.errfd := by omega
        simp [hin, hout, herr, hne]
      · simp [hin, hout, herr]
    · by_cases herr : 0 ≤ spec.errfd
      · have hne : spec.infd ≠ spec.errfd := by omega
        have hne' : spec.outfd ≠ spec.errfd := by omega
        simp [hin, hout, herr, hne, hne']
      · simp [hin, hout, herr]

/-- The reader of a new task has the descriptor of the spec. -/
theorem taskInstall_fdR (h : taskInstall s spec = .ok s') (hfd : 0 ≤ spec.infd) :
    (s'.atoms (.read s.fresh)).fd = spec.infd := by
  obtain ⟨⟨task, s₁⟩, h₁, h⟩ := Result.bind_ok h
  obtain ⟨s₂, h₂, h₁⟩ := Result.bind_ok h₁
  obtain ⟨s₃, h₃, h₁⟩ := Result.bind_ok h₁
  obtain ⟨s₄, h₄, h₁⟩ := Result.bind_ok h₁
  cases h₁
  obtain ⟨fd, he⟩ := taskPrepareErr_ok h₄
  have hs' : taskPipeSetup { s₁ with tasks := ⟨s.fresh, spec⟩ :: s₁.tasks } ⟨s.fresh, spec⟩ s₁.tasks = s' :=
    Except.ok.inj h
  rw [← hs', (taskPipeSetup_splices _ _ _).fd]
  change (s₁.atoms _).fd = _
  rw [he.others _ (by simp), (taskPrepareAtom_ok h₃).others _ (by simp)]
  exact (taskPrepareAtom_ok h₂).fd hfd

/-- A task is installed, with descriptors that are no other's. -/
theorem Sound.installed (hwf : s.WF) (hs : Sound gone s) (h : taskInstall s spec = .ok s')
    (hunused : Unused s spec.fds) (hgone : ∀ fd ∈ spec.fds, fd ∉ gone) : Sound gone s' := by
  obtain ⟨hnodup, hfree⟩ := hunused
  have hin := taskInstall_ok hwf h
  have htasks : s'.tasks = ⟨s.fresh, spec⟩ :: s.tasks := by rw [hin.rest]
  have hst : s'.stMasterFd = s.stMasterFd ∧ s'.stSlaveFd = s.stSlaveFd := by
    rw [hin.rest]
    exact ⟨rfl, rfl⟩
  have hasides : asides s' = spec.closedErr ++ asides s := asides_cons htasks hst
  have herr : ∀ fd ∈ spec.closedErr, fd ∈ spec.fds := by
    intro fd hfd
    obtain ⟨-, rfl, hnonneg⟩ := mem_closedErr.mp hfd
    exact mem_fds.mpr ⟨.inr (.inr rfl), hnonneg⟩
  have hfree' : ∀ fd ∈ spec.fds, fd ∉ asides s := fun fd hfd hmem =>
    hfree fd hfd (List.mem_append_right _ hmem)
  have hold : ∀ a, InUse s.tasks a → s'.live a → s.live a ∧ (s'.atoms a).fd = (s.atoms a).fd := by
    intro a ha hl
    rw [Sys.live, hin.fd a ha] at hl
    exact ⟨hl, hin.fd a ha⟩
  -- a descriptor of the spec for which there is an atom of a pipe is no other atom's
  have hnew : ∀ fd ∈ spec.fds, (0 ≤ spec.errfd → fd ≠ spec.errfd) → fd ∉ gone ∧ fd ∉ asides s' := by
    intro fd hfd hne
    rw [hasides, List.mem_append]
    refine ⟨hgone fd hfd, fun hmem => ?_⟩
    obtain hmem | hmem := hmem
    · obtain ⟨-, he, hnonneg⟩ := mem_closedErr.mp hmem
      rw [he] at hnonneg
      exact hne hnonneg he
    · exact hfree' fd hfd hmem
  obtain ⟨-, hne⟩ := fds_nodup_iff.mp hnodup
  have hfdR : s'.live (.read s.fresh) → (s'.atoms (.read s.fresh)).fd = spec.infd :=
    fun hl => taskInstall_fdR h (hin.liveR.mp hl)
  have hfdW : s'.live (.write s.fresh) → (s'.atoms (.write s.fresh)).fd = spec.outfd :=
    fun hl => hin.fdW (hin.liveW.mp hl)
  have hread : s'.live (.read s.fresh) → (s'.atoms (.read s.fresh)).fd ∉ gone ∧
      (s'.atoms (.read s.fresh)).fd ∉ asides s' := by
    intro hl
    rw [hfdR hl]
    exact hnew _ (mem_fds.mpr ⟨.inl rfl, hin.liveR.mp hl⟩) fun he => (hne he).1
  have hwrite : s'.live (.write s.fresh) → (s'.atoms (.write s.fresh)).fd ∉ gone ∧
      (s'.atoms (.write s.fresh)).fd ∉ asides s' := by
    intro hl
    rw [hfdW hl]
    exact hnew _ (mem_fds.mpr ⟨.inr (.inl rfl), hin.liveW.mp hl⟩) fun he => (hne he).2
  have hothers : ∀ a, InPipe s.tasks a → s'.live a → (s'.atoms a).fd ∉ gone ∧ (s'.atoms a).fd ∉ asides s' := by
    intro a ha hl
    obtain ⟨hl', hfd⟩ := hold a ha.1 hl
    obtain ⟨hgone', haside⟩ := hs.atoms a ha hl'
    rw [hfd, hasides, List.mem_append]
    refine ⟨hgone', fun hmem => ?_⟩
    obtain hmem | hmem := hmem
    · exact hfree _ (herr _ hmem) (mem_holdings ha.1 hl')
    · exact haside hmem
  refine ⟨fun a ha hl => ?_, ?_, ?_, ?_, fun hne hl => ?_⟩
  · obtain ⟨huse, hnoerr⟩ := ha
    rw [htasks] at huse
    obtain huse | rfl | rfl | rfl := huse.of_cons
    · exact hothers _ ⟨huse, hnoerr⟩ hl
    · exact hread hl
    · exact hwrite hl
    · exact absurd rfl (hnoerr _)
  · rw [hasides]
    intro fd hfd
    obtain hfd | hfd := List.mem_append.mp hfd
    · exact hgone fd (herr fd hfd)
    · exact hs.kept fd hfd
  · rw [hasides, List.nodup_append]
    exact ⟨closedErr_nodup spec, hs.nodup, fun fd hfd fd' hfd' he => hfree' fd (herr fd hfd) (he ▸ hfd')⟩
  · rw [htasks]
    intro task ht
    obtain rfl | ht := List.mem_cons.mp ht
    · exact ⟨hfdR, hfdW⟩
    · refine ⟨fun hl => ?_, fun hl => ?_⟩
      · obtain ⟨hl', hfd⟩ := hold _ (.read ht) hl
        exact hfd.trans ((hs.own task ht).1 hl')
      · obtain ⟨hl', hfd⟩ := hold _ (.write ht) hl
        exact hfd.trans ((hs.own task ht).2 hl')
  · rw [hst.1, hst.2] at hne
    obtain ⟨hl', hfd⟩ := hold _ .master hl
    rw [hfd, hst.1]
    exact hs.master hne hl'

/-- A destructor closes each of its descriptors for the first time, if no pipe has closed it. -/
theorem Sound.closes (hwf : s.WF) (hs : Sound gone s) {task : TaskState} (ht : task ∈ s.tasks)
    (hopen : task.spec.Closing → (0 ≤ task.spec.infd → s.live (.read task.addr)) ∧
      (0 ≤ task.spec.outfd → s.live (.write task.addr))) :
    task.spec.closed.Nodup ∧ ∀ fd ∈ task.spec.closed, fd ∉ gone ∧
      ((∃ a, (a = .read task.addr ∨ a = .write task.addr) ∧ s.live a ∧ (s.atoms a).fd = fd) ∨
        fd ∈ task.spec.closedErr) := by
  by_cases hclosing : task.spec.Closing
  · obtain ⟨hin, hout⟩ := hopen hclosing
    obtain ⟨hfdR, hfdW⟩ := hs.own task ht
    have herr : 0 ≤ task.spec.errfd → task.spec.errfd ∈ task.spec.closedErr := fun h =>
      mem_closedErr.mpr ⟨hclosing, rfl, h⟩
    have haside : ∀ fd ∈ task.spec.closedErr, fd ∈ asides s := fun fd hfd =>
      List.mem_append_left _ (List.mem_flatMap.mpr ⟨task, ht, hfd⟩)
    have hread : 0 ≤ task.spec.infd → task.spec.infd ∉ gone ∧ task.spec.infd ∉ asides s := by
      intro h
      have hatom := hs.atoms _ ⟨.read ht, by simp⟩ (hin h)
      rw [hfdR (hin h)] at hatom
      exact hatom
    have hwrite : 0 ≤ task.spec.outfd → task.spec.outfd ∉ gone ∧ task.spec.outfd ∉ asides s := by
      intro h
      have hatom := hs.atoms _ ⟨.write ht, by simp⟩ (hout h)
      rw [hfdW (hout h)] at hatom
      exact hatom
    rw [closed_of_closing hclosing]
    refine ⟨fds_nodup_iff.mpr ⟨fun h he => ?_, fun h => ⟨fun he => ?_, fun he => ?_⟩⟩, fun fd hfd => ?_⟩
    · have hlR := hin h
      have hlW := hout (he ▸ h)
      have hsame : (s.atoms (.read task.addr)).fd = (s.atoms (.write task.addr)).fd := by
        rw [hfdR hlR, hfdW hlW, he]
      have hatom := (hwf.held _ (.write ht)).eq_of_fd (hwf.held _ (.read ht)) hlW hsame
      cases hatom
    · exact (hread (he ▸ h)).2 (he ▸ haside _ (herr h))
    · exact (hwrite (he ▸ h)).2 (he ▸ haside _ (herr h))
    · obtain ⟨rfl | rfl | rfl, hnonneg⟩ := mem_fds.mp hfd
      · exact ⟨(hread hnonneg).1, .inl ⟨_, .inl rfl, hin hnonneg, hfdR (hin hnonneg)⟩⟩
      · exact ⟨(hwrite hnonneg).1, .inl ⟨_, .inr rfl, hout hnonneg, hfdW (hout hnonneg)⟩⟩
      · exact ⟨hs.kept _ (haside _ (herr hnonneg)), .inr (herr hnonneg)⟩
  · rw [closed_of_not_closing hclosing]
    refine ⟨List.nodup_nil, fun fd hfd => ?_⟩
    cases hfd

/-- No pipe of a task below has a descriptor that the destructor of the topmost closes. -/
theorem Sound.closes_own (hwf : s.WF) (hs : Sound gone s) {task : TaskState} {below : List TaskState}
    (htasks : s.tasks = task :: below)
    (hopen : task.spec.Closing → (0 ≤ task.spec.infd → s.live (.read task.addr)) ∧
      (0 ≤ task.spec.outfd → s.live (.write task.addr)))
    (ha : InPipe below a) (hl : s.live a) : (s.atoms a).fd ∉ task.spec.closed := by
  have ht : task ∈ s.tasks := by simp [htasks]
  have huse : InUse s.tasks a := ha.1.mono fun t ht => by simp [htasks, ht]
  obtain ⟨-, hclosed⟩ := hs.closes hwf ht hopen
  have haddr := hwf.nodup
  rw [htasks] at haddr
  obtain ⟨hner, hnew, -⟩ := ha.1.ne_of_nodup haddr
  intro hin
  obtain ⟨-, ⟨b, hb, hlb, he⟩ | herr⟩ := hclosed _ hin
  · obtain rfl | rfl := hb
    · exact hner ((hwf.held a huse).eq_of_fd (hwf.held _ (.read ht)) hl he).symm
    · exact hnew ((hwf.held a huse).eq_of_fd (hwf.held _ (.write ht)) hl he).symm
  · apply (hs.atoms a ⟨huse, ha.2⟩ hl).2
    exact List.mem_append_left _ (List.mem_flatMap.mpr ⟨task, ht, herr⟩)

/-- Nor has the rest of what is closed without a pipe. -/
theorem Sound.closes_asides (hwf : s.WF) (hs : Sound gone s) {task : TaskState} {rest : List Int}
    (ht : task ∈ s.tasks)
    (hopen : task.spec.Closing → (0 ≤ task.spec.infd → s.live (.read task.addr)) ∧
      (0 ≤ task.spec.outfd → s.live (.write task.addr)))
    (hasides : asides s = task.spec.closedErr ++ rest) {fd : Int} (hfd : fd ∈ rest) : fd ∉ task.spec.closed := by
  have hnodup := hs.nodup
  have hmem : fd ∈ asides s := by
    rw [hasides]
    exact List.mem_append_right _ hfd
  rw [hasides, List.nodup_append] at hnodup
  obtain ⟨-, hclosed⟩ := hs.closes hwf ht hopen
  intro hin
  obtain ⟨-, ⟨b, hb, hlb, rfl⟩ | herr⟩ := hclosed _ hin
  · have hpipe : InPipe s.tasks b := by
      obtain rfl | rfl := hb
      · exact ⟨.read ht, by simp⟩
      · exact ⟨.write ht, by simp⟩
    exact (hs.atoms b hpipe hlb).2 hmem
  · exact hnodup.2.2 fd herr fd hfd rfl

/-- The tasks below have none of the descriptors of the one that is removed. -/
theorem Sound.removed (hwf : s.WF) (hs : Sound gone s) {task top : TaskState} {below : List TaskState}
    (htasks : s.tasks = task :: top :: below) (hopen : StillOpen s (.event .remove))
    (h : taskRemove s = .ok s') : Sound (task.spec.closed ++ gone) s' := by
  have ht : task ∈ s.tasks := by simp [htasks]
  have hhead : task ∈ s.tasks.head? := by simp [htasks]
  obtain ⟨task', top', below', u, v, htasks', hun, hwrites, rfl⟩ := taskRemove_ok hwf h
  obtain ⟨rfl, hrest⟩ := List.cons.inj (htasks'.symm.trans htasks)
  obtain ⟨rfl, rfl⟩ := List.cons.inj hrest
  have hw : (u.pipes .masterOutput).writeAtom = some (.write top'.addr) := by rw [hun.masterOutput]
  have hpoured := pipeWrites_poured hwrites hw
  have htop : v.tasks = top' :: below' := by rw [hpoured.tasks, hun.rest]
  have hst : v.stMasterFd = s.stMasterFd ∧ v.stSlaveFd = s.stSlaveFd := by
    rw [hpoured.rest, hun.rest]
    exact ⟨rfl, rfl⟩
  have hmem : ∀ t ∈ top' :: below', t ∈ s.tasks := by
    rw [htasks]
    exact fun t ht => List.mem_cons_of_mem _ ht
  have hfd : ∀ a, InUse (top' :: below') a → (v.atoms a).fd = (s.atoms a).fd := by
    intro a ha
    rw [hpoured.atoms]
    exact hun.fd a ha
  have hasides : asides s = task'.spec.closedErr ++ asides v :=
    asides_cons (htop ▸ htasks) ⟨hst.1.symm, hst.2.symm⟩
  have hsub : ∀ fd ∈ asides v, fd ∈ asides s := by
    rw [hasides]
    exact fun fd hfd => List.mem_append_right _ hfd
  have hnodup := hs.nodup
  rw [hasides, List.nodup_append] at hnodup
  refine ⟨fun a ha hl => ?_, fun fd hmem => ?_, hnodup.2.1, fun t ht => ?_, fun hne hl => ?_⟩
  · obtain ⟨huse, hnoerr⟩ := ha
    have huse : InUse (top' :: below') a := htop ▸ huse
    have hl' : s.live a := by
      rw [Sys.live, ← hfd a huse]
      exact hl
    obtain ⟨hgone, haside⟩ := hs.atoms a ⟨huse.mono hmem, hnoerr⟩ hl'
    change (v.atoms a).fd ∉ _ ∧ (v.atoms a).fd ∉ asides v
    rw [hfd a huse, List.mem_append]
    refine ⟨fun hin => ?_, fun hin => haside (hsub _ hin)⟩
    obtain hin | hin := hin
    · exact hs.closes_own hwf htasks (hopen.1 task' hhead) ⟨huse, hnoerr⟩ hl' hin
    · exact hgone hin
  · have hmem : fd ∈ asides v := hmem
    intro hin
    obtain hin | hin := List.mem_append.mp hin
    · exact hs.closes_asides hwf ht (hopen.1 task' hhead) hasides hmem hin
    · exact hs.kept fd (hsub _ hmem) hin
  · have ht : t ∈ top' :: below' := htop ▸ ht
    obtain ⟨hr, hw'⟩ := hs.own t (hmem t ht)
    change (0 ≤ (v.atoms (.read t.addr)).fd → (v.atoms (.read t.addr)).fd = _) ∧
      (0 ≤ (v.atoms (.write t.addr)).fd → (v.atoms (.write t.addr)).fd = _)
    rw [hfd _ (.read ht), hfd _ (.write ht)]
    exact ⟨hr, hw'⟩
  · have hne : v.stMasterFd ≠ v.stSlaveFd := hne
    have hl : 0 ≤ (v.atoms .master).fd := hl
    change (v.atoms .master).fd = v.stMasterFd
    rw [hst.1, hst.2] at hne
    rw [hfd _ .master] at hl ⊢
    rw [hst.1]
    exact hs.master hne hl

end Sound

/-- A stretch closes `fds`, each for the first time. -/
structure Clean (n : Nat) (fds gone : List Int) (s s' : Sys) : Prop where
  does : Does (fun _ => True) n fds s s'
  nodup : fds.Nodup
  fresh : ∀ fd ∈ fds, fd ∉ gone

/-- And at its end every number has one place. -/
structure Tidy (n : Nat) (fds gone : List Int) (s s' : Sys) : Prop extends Clean n fds gone s s' where
  wf : s'.WF
  sound : Sound (fds ++ gone) s'

section Tidy

variable {n n' : Nat} {fds fds' gone : List Int} {s s' s'' : Sys} {p : PipeRef} {a : AtomRef} {m : Move}

theorem Clean.trans (h : Clean n fds gone s s') (h' : Clean n' fds' (fds ++ gone) s' s'') :
    Clean (n + n') (fds ++ fds') gone s s'' := by
  refine ⟨h.does.trans h'.does, ?_, fun fd hfd hmem => ?_⟩
  · rw [List.nodup_append]
    refine ⟨h.nodup, h'.nodup, fun fd hfd fd' hfd' he => ?_⟩
    rw [he] at hfd
    exact h'.fresh fd' hfd' (List.mem_append_left _ hfd)
  · obtain hfd | hfd := List.mem_append.mp hfd
    · exact h.fresh fd hfd hmem
    · exact h'.fresh fd hfd (List.mem_append_right _ hmem)

theorem Tidy.trans (h : Tidy n fds gone s s') (h' : Tidy n' fds' (fds ++ gone) s' s'') :
    Tidy (n + n') (fds ++ fds') gone s s'' := by
  refine ⟨h.toClean.trans h'.toClean, h'.wf, h'.sound.mono fun fd hfd => ?_⟩
  simp only [List.mem_append] at hfd ⊢
  obtain (hfd | hfd) | hfd := hfd
  · exact .inr (.inl hfd)
  · exact .inl hfd
  · exact .inr (.inr hfd)

theorem Clean.keeps (gone : List Int) (h : Does (fun _ => True) n [] s s') : Clean n [] gone s s' :=
  ⟨h, List.nodup_nil, fun _ hfd => nomatch hfd⟩

theorem Tidy.keeps (hwf : s.WF) (hs : Sound gone s) (h : Keeps (fun _ => True) s s') : Tidy 0 [] gone s s' :=
  ⟨.keeps gone h.does, h.wf hwf, hs.untouched h.toUntouched⟩

theorem Tidy.closeAtom (hwf : s.WF) (hs : Sound gone s) (ha : InPipe s.tasks a) (hl : s.live a) :
    Tidy 0 [(s.atoms a).fd] gone s (closeAtom s a) := by
  have hclose : MayClose a s (Rzh.closeAtom s a) := .closed (.refl _)
  refine ⟨⟨.closeAtom s a, by simp, fun fd hfd => ?_⟩, ?_, hs.closed hwf ha hl⟩
  · obtain rfl := List.mem_singleton.mp hfd
    exact (hs.atoms a ha hl).1
  · exact hwf.of_shape (shape_closeAtom s a) fun b hb => hclose.held (hwf.held a ha.1) (hwf.held b hb)

/-- No pipe ends in the atom for a child's errors. -/
theorem Sys.WF.inPipe (hwf : s.WF)
    (h : (s.pipes p).readAtom = some a ∨ (s.pipes p).writeAtom = some a) : InPipe s.tasks a := by
  refine ⟨hwf.inUse p a h, fun n he => ?_⟩
  subst he
  have huse := hwf.inUse p _ h
  cases htasks : s.tasks with
  | nil =>
    rw [htasks] at huse
    cases huse with
    | err ht => cases ht
  | cons task below =>
    obtain ⟨hin, hout⟩ := hwf.top task below htasks
    cases p with
    | inputMaster =>
      rw [hin, hwf.masterIn] at h
      simp at h
    | masterOutput =>
      rw [hout, hwf.masterOut] at h
      simp at h

theorem Tidy.shuts (hwf : s.WF) (hs : Sound gone s) (h : Shuts (fun _ => True) (s.pipes p).writeAtom s s') :
    ∃ fds, Tidy 0 fds gone s s' := by
  cases h with
  | keeps h => exact ⟨_, .keeps hwf hs h⟩
  | @shuts b s₁ _ h hb hl h' =>
    have h₁ : Tidy 0 [] gone s s₁ := .keeps hwf hs h
    have hpipe : InPipe s₁.tasks b := h₁.wf.inPipe (.inr ((h.ends p).2.trans hb))
    have h₂ : Tidy 0 [(s₁.atoms b).fd] gone s₁ (Rzh.closeAtom s₁ b) := .closeAtom h₁.wf h₁.sound hpipe hl
    exact ⟨_, (h₁.trans h₂).trans (.keeps h₂.wf h₂.sound h')⟩

/-- Numbers that nothing has open are closed somewhere else. -/
theorem Sound.add (hs : Sound gone s) (h : ∀ fd ∈ fds, fd ∉ holdings s) : Sound (fds ++ gone) s where
  atoms a ha hl := by
    obtain ⟨hgone, haside⟩ := hs.atoms a ha hl
    refine ⟨fun hmem => ?_, haside⟩
    obtain hmem | hmem := List.mem_append.mp hmem
    · exact h _ hmem (mem_holdings ha.1 hl)
    · exact hgone hmem
  kept fd hfd hmem := by
    obtain hmem | hmem := List.mem_append.mp hmem
    · exact h fd hmem (List.mem_append_right _ hfd)
    · exact hs.kept fd hfd hmem
  nodup := hs.nodup
  own := hs.own
  master := hs.master

theorem Untouched.holdings (h : Untouched s s') : holdings s' = holdings s := by
  rw [Rzh.holdings, Rzh.holdings, h.tasks, h.atoms, asides_eq h.tasks h.st]

theorem childEnds_sublist (k : Kernel) : k.childEnds.Sublist k.newEnds := by
  rw [Kernel.childEnds]
  split
  · next hforks =>
    rw [Kernel.newEnds, hforks]
    exact .cons_cons _ (.cons _ (.cons _ (.cons_cons _ (.cons _ (.cons_cons _ .slnil)))))
  · exact List.nil_sublist _

/-- The new task has the ends of the pipes that are not the child's. -/
theorem rztaskInstall_fds (h : rztaskInstall s = .ok s') : ∃ s₁ spec, Untouched s s₁ ∧
    taskInstall s₁ spec = .ok s' ∧ 0 ≤ spec.infd ∧ (∀ fd ∈ spec.fds, fd ∈ s.kernel.newEnds) ∧
    (s.kernel.newEnds.Nodup → spec.fds.Nodup ∧ ∀ fd ∈ spec.fds, fd ∉ s.kernel.childEnds) := by
  obtain ⟨⟨⟨infd, outfd, errfd, pid⟩, s₁⟩, hfork, h⟩ := Result.bind_ok h
  rw [forkRzProcess] at hfork
  split at hfork
  · cases hfork
  · cases hfork
  · next chstdin chstdout chstderr pid' forks hforks =>
    cases hfork
    refine ⟨_, _, ?_, h, Int.natCast_nonneg _, ?_, ?_⟩
    · exact ⟨rfl, rfl, rfl, Nat.le_add_right _ _, fun _ => ⟨rfl, rfl⟩, rfl, rfl⟩
    · rw [Kernel.newEnds, hforks]
      simp [TaskSpec.fds]
    · rw [Kernel.newEnds, Kernel.childEnds, hforks]
      intro hnodup
      simp only [List.nodup_cons, List.mem_cons, List.not_mem_nil, or_false, not_or, not_false_eq_true,
        List.nodup_nil, and_true] at hnodup
      simp [TaskSpec.fds]
      omega

theorem rztaskInstall_forks (h : rztaskInstall s = .ok s') : s.kernel.forks ≠ [] := by
  intro hnil
  rw [rztaskInstall, forkRzProcess, hnil] at h
  cases h

/-- The numbers of the pipes are no longer gone once they have been given. -/
def spare (n : Nat) (gone : List Int) (s : Sys) : List Int :=
  if n = 0 then gone else gone.filter fun fd => fd ∉ s.kernel.newEnds

theorem spare_new {fd : Int} (h : fd ∈ s.kernel.newEnds) (gone : List Int) : fd ∉ spare 1 gone s := by
  intro hmem
  rw [spare, if_neg (by decide)] at hmem
  simpa [h] using (List.mem_filter.mp hmem).2

theorem Tidy.starts (hwf : s.WF) (hs : Sound gone s) (hunused : Forked s s' → Unused s s.kernel.newEnds)
    (h : Starts (fun _ => True) s s') : ∃ n fds, n ≤ 1 ∧ Tidy n fds (spare n gone s) s s' := by
  cases h with
  | keeps h => exact ⟨0, [], Nat.zero_le _, .keeps hwf hs h⟩
  | @started s₁ s₂ _ h₁ h₂ h₃ =>
    have hforks : s₁.kernel.newEnds = s.kernel.newEnds := by
      rw [Kernel.newEnds, Kernel.newEnds, h₁.does.1, List.drop_zero]
    have hdoes := rztaskInstall_does (W := fun _ => True) s₁
    rw [h₂] at hdoes
    have hdoes : Does (fun _ => True) 1 s₁.kernel.childEnds s₁ s₂ := hdoes
    have hforked : Forked s s' := by
      have hpos := List.length_pos_iff.mpr (rztaskInstall_forks h₂)
      have hfirst := h₁.does.1
      rw [List.drop_zero] at hfirst
      rw [hfirst] at hpos
      rw [Forked, h₃.does.1, hdoes.1, hfirst, List.drop_zero, List.length_drop]
      omega
    obtain ⟨hnodup, hfree⟩ := hunused hforked
    obtain ⟨s₃, spec, h₃₁, htask, -, hnew, hends⟩ := rztaskInstall_fds h₂
    have hchildren := childEnds_sublist s₁.kernel
    rw [hforks] at hends hnew hchildren
    have hchild : ∀ fd ∈ s₁.kernel.childEnds, fd ∈ s.kernel.newEnds := fun fd hfd => hchildren.subset hfd
    obtain ⟨hfdsNodup, hdisjoint⟩ := hends hnodup
    have h₁₃ := h₁.toUntouched.trans h₃₁
    have hfree₃ : ∀ fd ∈ s.kernel.newEnds, fd ∉ holdings s₃ := by
      rw [h₁₃.holdings]
      exact hfree
    have hs₃ : Sound (s₁.kernel.childEnds ++ spare 1 gone s) s₃ := by
      have hfewer : Sound (spare 1 gone s) s₃ :=
        (hs.untouched h₁₃).mono fun fd hfd => (List.mem_filter.mp hfd).1
      exact hfewer.add fun fd hfd => hfree₃ fd (hchild fd hfd)
    have hs₂ : Sound (s₁.kernel.childEnds ++ spare 1 gone s) s₂ := by
      apply hs₃.installed (h₁₃.wf hwf) htask
      · exact ⟨hfdsNodup, fun fd hfd => hfree₃ fd (hnew fd hfd)⟩
      · intro fd hfd hmem
        obtain hmem | hmem := List.mem_append.mp hmem
        · exact hdisjoint fd hfd hmem
        · exact spare_new (hnew fd hfd) gone hmem
    have hfirst : Tidy 1 s₁.kernel.childEnds (spare 1 gone s) s s₂ := by
      refine ⟨⟨?_, hchildren.nodup hnodup, fun fd hfd => spare_new (hchild fd hfd) gone⟩, ?_, hs₂⟩
      · exact h₁.does.trans hdoes
      · exact (taskInstall_ok (h₁₃.wf hwf) htask).wf
    exact ⟨_, _, Nat.le_refl 1, hfirst.trans (.keeps hfirst.wf hfirst.sound h₃)⟩

/-- The reader is open after the packet if it has been before, even if it is another one. -/
theorem Starts.reader_live {W : Int → Prop} {r r' : AtomRef} (hwf : s.WF) (h : Starts W s s')
    (hr : (s.pipes p).readAtom = some r) (hl : s.live r) (hr' : (s'.pipes p).readAtom = some r') : s'.live r' := by
  cases h with
  | keeps h =>
    rw [(h.ends p).1] at hr'
    obtain rfl := Option.some.inj (hr'.symm.trans hr)
    rw [Sys.live, h.atoms]
    exact hl
  | @started s₁ s₂ _ h₁ h₂ h₃ =>
    obtain ⟨s₃, spec, h₃₁, htask, hnonneg, -⟩ := rztaskInstall_fds h₂
    have h₁₃ := h₁.toUntouched.trans h₃₁
    have hin := taskInstall_ok (h₁₃.wf hwf) htask
    rw [(h₃.ends p).1] at hr'
    rw [Sys.live, h₃.atoms]
    cases p with
    | inputMaster =>
      rw [hin.inputMaster] at hr'
      obtain rfl := Option.some.inj hr'
      exact hin.liveR.mpr hnonneg
    | masterOutput =>
      rw [hin.masterOutput] at hr'
      obtain rfl := Option.some.inj (hwf.masterOut.symm.trans hr)
      obtain rfl := Option.some.inj (hwf.masterOut.symm.trans ((h₁₃.ends _).1.symm.trans hr'))
      rw [hin.fd _ .master, h₁₃.atoms]
      exact hl

/-- What a read event does up to the closing of the reader, if it gets there. -/
theorem pipeFifoRead_tidy {cnt : Int} (hwf : s.WF) (hs : Sound gone s)
    (hunused : Forked s s' → Unused s s.kernel.newEnds) (h : pipeFifoRead s p = .ok (cnt, s')) :
    ∃ n fds, n ≤ 1 ∧ Tidy n fds (spare n gone s) s s' := by
  obtain ⟨r, hr, h⟩ := Result.bind_ok h
  obtain ⟨⟨cnt', s₁⟩, hfifo, h⟩ := Result.bind_ok h
  have hstarts := fifoRead_starts (W := fun _ => True) (fun _ => trivial) hfifo
  simp only at h
  split at h
  · next heof =>
    obtain ⟨r', hr', h⟩ := Result.bind_ok h
    cases h
    have hclose : Does (fun _ => True) 0 [(s₁.atoms r').fd] s₁ (Rzh.closeAtom s₁ r') := .closeAtom s₁ r'
    rw [Forked, hclose.1, List.drop_zero] at hunused
    obtain ⟨n, fds, hn, h₁⟩ := Tidy.starts hwf hs hunused hstarts
    rw [heof] at hfifo
    have hl := hstarts.reader_live hwf (readAtom_ok hr) (fifoRead_open hfifo) (readAtom_ok hr')
    have hpipe := h₁.wf.inPipe (.inl (readAtom_ok hr'))
    exact ⟨n + 0, _, hn, h₁.trans (.closeAtom h₁.wf h₁.sound hpipe hl)⟩
  · cases h
    exact Tidy.starts hwf hs hunused hstarts

/-- Whatever halts a read event, what it has closed it has closed once. -/
theorem pipeFifoRead_clean {e : Halt × Sys} (hunused : Forked s e.2 → Unused s s.kernel.newEnds)
    (h : pipeFifoRead s p = .error e) : ∃ n fds, n ≤ 1 ∧ Clean n fds (spare n gone s) s e.2 := by
  have hfork : MayFork (fun _ => True) s e.2 → ∃ n fds, n ≤ 1 ∧ Clean n fds (spare n gone s) s e.2 := by
    intro hmay
    obtain hdoes | hdoes := hmay
    · exact ⟨0, [], Nat.zero_le _, .keeps _ hdoes⟩
    · have hchild := childEnds_sublist s.kernel
      refine ⟨1, _, Nat.le_refl 1, hdoes, ?_, fun fd hfd => spare_new (hchild.subset hfd) gone⟩
      cases hforks : s.kernel.forks with
      | nil => simp [Kernel.childEnds, hforks]
      | cons r rs =>
        have hforked : Forked s e.2 := by
          rw [Forked, hdoes.1, hforks]
          simp
        exact hchild.nodup (hunused hforked).1
  obtain h | ⟨r, hr, h⟩ := Result.bind_error h
  · have hread := readAtom_ends s p (P := fun s' => MayFork (fun _ => True) s s') (.inl (.refl _ s))
    rw [h] at hread
    exact hfork hread
  · have hdoes : Result.Ends Prod.snd (MayFork (fun _ => True) s) (fifoRead s p (s.atoms r).fd) :=
      fifoRead_does (fun _ => trivial) s p
    obtain h | ⟨⟨cnt, s₁⟩, hfifo, h⟩ := Result.bind_error h
    · rw [h] at hdoes
      exact hfork hdoes
    · rw [hfifo] at hdoes
      simp only at h
      split at h
      · obtain h | ⟨r', hr', h⟩ := Result.bind_error h
        · have hread := readAtom_ends s₁ p (P := fun s' => MayFork (fun _ => True) s s') hdoes
          rw [h] at hread
          exact hfork hread
        · cases h
      · cases h

/-- What comes of a move has closed nothing twice, and unless it halts the program every number has one
place again. -/
def Tidies (gone : List Int) (s : Sys) (m : Move) : Result Sys → Prop
  | .ok s' => ∃ n fds, Tidy n fds (gone.filter fun fd => fd ∉ given s s' m) s s'
  | .error (_, s') => ∃ n fds, Clean n fds (gone.filter fun fd => fd ∉ given s s' m) s s'

theorem given_does {W : Int → Prop} (hm : ∀ spec, m ≠ .event (.install spec)) (hn : n ≤ 1)
    (h : Does W n fds s s') : given s s' m = if n = 0 then [] else s.kernel.newEnds := by
  have heq : given s s' m = if Forked s s' then s.kernel.newEnds else [] := by
    cases m with
    | event e =>
      cases e with
      | install spec => exact absurd rfl (hm spec)
      | _ => rfl
    | _ => rfl
  rw [heq]
  simp only [Forked, h.1, List.length_drop]
  obtain rfl | rfl : n = 0 ∨ n = 1 := by omega
  · simp
  · cases hforks : s.kernel.forks with
    | nil => simp [Kernel.newEnds, hforks]
    | cons r rs => simp

theorem spare_eq {W : Int → Prop} (hm : ∀ spec, m ≠ .event (.install spec)) (hn : n ≤ 1) (h : Does W n fds s s') :
    spare n gone s = gone.filter fun fd => fd ∉ given s s' m := by
  rw [given_does hm hn h, spare]
  split
  · simp
  · rfl

theorem Tidies.ok (hm : ∀ spec, m ≠ .event (.install spec)) (hn : n ≤ 1) (h : Tidy n fds (spare n gone s) s s') :
    Tidies gone s m (.ok s') := by
  rw [spare_eq hm hn h.does] at h
  exact ⟨n, fds, h⟩

theorem Tidies.error (hm : ∀ spec, m ≠ .event (.install spec)) (hn : n ≤ 1) {halt : Halt}
    (h : Clean n fds (spare n gone s) s s') : Tidies gone s m (.error (halt, s')) := by
  rw [spare_eq hm hn h.does] at h
  exact ⟨n, fds, h⟩

/-- Nothing has been given, and at most a pipe has closed its writer. -/
theorem Tidies.shuts (hm : ∀ spec, m ≠ .event (.install spec)) (hwf : s.WF) (hs : Sound gone s) {x : Result Sys}
    (h : Result.Ends id (Shuts (fun _ => True) (s.pipes p).writeAtom s) x) : Tidies gone s m x := by
  cases x with
  | ok s' =>
    obtain ⟨fds, htidy⟩ := Tidy.shuts hwf hs h
    exact .ok hm (Nat.zero_le _) htidy
  | error e =>
    obtain ⟨fds, htidy⟩ := Tidy.shuts hwf hs h
    exact .error hm (Nat.zero_le _) htidy.toClean

theorem Tidies.keeps (hm : ∀ spec, m ≠ .event (.install spec)) (hwf : s.WF) (hs : Sound gone s) {x : Result Sys}
    (h : Result.Ends id (Keeps (fun _ => True) s) x) : Tidies gone s m x := by
  have hshuts : Result.Ends id (Shuts (fun _ => True) (s.pipes .inputMaster).writeAtom s) x :=
    h.mono fun _ h => .keeps h
  exact .shuts hm hwf hs hshuts

theorem pipeAutoRead_tidies (hwf : s.WF) (hs : Sound gone s)
    (hunused : Forked s (pipeAutoRead s p).endState → Unused s s.kernel.newEnds) :
    Tidies gone s (.event (.autoRead p)) (pipeAutoRead s p) := by
  have hm : ∀ spec, Move.event (.autoRead p) ≠ .event (.install spec) := by simp
  rw [pipeAutoRead] at hunused ⊢
  split
  · exact .error hm (Nat.zero_le _) (.keeps _ (.refl _ s))
  · next havail =>
    rw [if_neg havail] at hunused
    cases hread : pipeFifoRead s p with
    | error e =>
      rw [hread] at hunused
      obtain ⟨n, fds, hn, h⟩ : ∃ n fds, n ≤ 1 ∧ Clean n fds (spare n gone s) s e.2 :=
        pipeFifoRead_clean hunused hread
      exact .error hm hn h
    | ok x =>
      obtain ⟨cnt, s₁⟩ := x
      rw [hread] at hunused
      have hrest := pipeAutoReadRest_shuts (W := fun _ => True) (s := s₁) (p := p) fun _ _ _ => trivial
      have hforks : Forked s s₁ → Unused s s.kernel.newEnds := by
        intro hforked
        apply hunused
        change Forked s (pipeAutoReadRest s₁ p).endState
        obtain ⟨fds, hdoes⟩ := (ends_id.mp hrest).does
        rw [Forked, hdoes.1, List.drop_zero]
        exact hforked
      obtain ⟨n, fds, hn, h₁⟩ := pipeFifoRead_tidy hwf hs hforks hread
      change Tidies gone s _ (pipeAutoReadRest s₁ p)
      cases hres : pipeAutoReadRest s₁ p with
      | ok s' =>
        rw [hres] at hrest
        obtain ⟨fds', h₂⟩ := Tidy.shuts h₁.wf h₁.sound hrest
        exact .ok hm hn (h₁.trans h₂)
      | error e =>
        rw [hres] at hrest
        obtain ⟨fds', h₂⟩ := Tidy.shuts h₁.wf h₁.sound hrest
        exact .error hm hn (h₁.trans h₂).toClean

theorem Tidy.installed {spec : TaskSpec} (hwf : s.WF) (hs : Sound gone s) (h : taskInstall s spec = .ok s')
    (hunused : Unused s spec.fds) (hgone : ∀ fd ∈ spec.fds, fd ∉ gone) : Tidy 0 [] gone s s' := by
  have hkernel := taskInstall_kernel s spec
  rw [h] at hkernel
  exact ⟨.keeps gone (.of_kernel hkernel), (taskInstall_ok hwf h).wf, hs.installed hwf h hunused hgone⟩

theorem echoScanner_tidies (hwf : s.WF) (hs : Sound gone s)
    (hsupplied : Unused s [0, 1] ∧ (0 : Int) ∉ gone ∧ (1 : Int) ∉ gone) :
    Tidies gone s (.event .echoScanner) (step s .echoScanner) := by
  have hm : ∀ spec, Move.event .echoScanner ≠ .event (.install spec) := by simp
  obtain ⟨hunused, hzero, hone⟩ := hsupplied
  let spec := (echoScannerCreateSpec s).1
  let s₁ := (echoScannerCreateSpec s).2
  have hspec : Untouched s s₁ := ⟨rfl, rfl, rfl, Nat.le_add_right _ _, fun _ => ⟨rfl, rfl⟩, rfl, rfl⟩
  have hfds : spec.fds = [0, 1] := rfl
  change Tidies gone s _ (taskInstall s₁ spec)
  have hkernel := taskInstall_kernel s₁ spec
  cases h : taskInstall s₁ spec with
  | error e =>
    rw [h] at hkernel
    exact .error hm (Nat.zero_le _) (.keeps _ (.of_kernel hkernel))
  | ok s' =>
    have hunused₁ : Unused s₁ spec.fds := by
      rw [hfds, Unused, hspec.holdings]
      exact hunused
    have hgone : ∀ fd ∈ spec.fds, fd ∉ gone := by
      rw [hfds]
      intro fd hfd
      obtain rfl | hfd := List.mem_cons.mp hfd
      · exact hzero
      · obtain rfl := List.mem_singleton.mp hfd
        exact hone
    have h₁ : Tidy 0 [] gone s s₁ := .keeps hwf hs ⟨hspec, .of_kernel rfl⟩
    have h₂ : Tidy 0 [] gone s₁ s' := .installed h₁.wf h₁.sound h hunused₁ hgone
    exact .ok hm (Nat.zero_le _) (h₁.trans h₂)

theorem install_tidies {spec : TaskSpec} (hwf : s.WF) (hs : Sound gone s) (hunused : Unused s spec.fds) :
    Tidies gone s (.event (.install spec)) (taskInstall s spec) := by
  have hkernel := taskInstall_kernel s spec
  cases h : taskInstall s spec with
  | error e =>
    rw [h] at hkernel
    exact ⟨0, [], .keeps _ (.of_kernel hkernel)⟩
  | ok s' =>
    have hspare : ∀ fd ∈ gone.filter (fun fd => fd ∉ spec.fds), fd ∈ gone ∧ fd ∉ spec.fds := by
      intro fd hfd
      simpa using List.mem_filter.mp hfd
    exact ⟨0, [], .installed hwf (hs.mono fun fd hfd => (hspare fd hfd).1) h hunused
      fun fd hfd hmem => (hspare fd hmem).2 hfd⟩

/-- What is typed changes nothing, even if it halts the program. -/
theorem typingIoProc_keeps (s : Sys) (a : AtomRef) :
    Result.Ends id (Keeps (fun _ => True) s) (typingIoProc s a [.read]) := by
  have hkeys : ∀ (refcon : ReadPipe) (keys : List UInt8) (s : Sys),
      Result.Ends id (Keeps (fun _ => True) s) (parseTyping s refcon keys) := by
    intro refcon keys
    induction keys with
    | nil => exact fun s => Keeps.refl _ s
    | cons c cs ih =>
      intro s
      unfold parseTyping
      split
      · split
        · have hterm : Result.Ends id (Keeps (fun _ => True) s) (taskTerminate s) := by
            rw [taskTerminate]
            split
            · exact Keeps.refl _ s
            · split
              · exact Keeps.kernel (.log s rfl)
              · exact Keeps.refl _ s
          apply hterm.bind
          intro s₁ _ h₁
          exact (ih s₁).mono fun _ h => h₁.trans h
        · exact Keeps.refl _ s
      · exact ih s
  rw [typingIoProc, if_pos (by simp)]
  have hread : Keeps (fun _ => True) s { s with kernel := (s.kernel.read (s.atoms a).fd 128).2 } :=
    .kernel (.read s _ _)
  exact (hkeys _ _ _).mono fun _ h => hread.trans h

theorem finalWrite_keeps (s : Sys) : Result.Ends id (Keeps (fun _ => True) s) (finalWrite s) := by
  apply (writeAtom_ends s .inputMaster (.refl _ s)).bind
  intro w _ _
  split
  · obtain ⟨sent, hwrote, -⟩ := fifoWrite_wrote (s.fifo .inputMaster) (s.atoms w).fd s.kernel
    exact Keeps.setFifo (.sent (fun _ => trivial) hwrote.sent)
  · exact Keeps.refl _ s

theorem cherr_tidies (hwf : s.WF) (hs : Sound gone s) (hcalled : s.Held a) :
    Tidies gone s (.cherr a) (cherrProc s a [.read]) := by
  have hm : ∀ spec, Move.cherr a ≠ .event (.install spec) := by simp
  cases h : cherrProc s a [.read] with
  | error e =>
    rw [cherrProc, if_pos (by simp)] at h
    simp only at h
    split at h
    · cases h
    · cases h
  | ok s' =>
    have hwf' := move_wf (m := .cherr a) hwf hcalled h
    obtain ⟨hclose, hrest⟩ := cherrProc_ok h
    let s₁ : Sys := { s with kernel := (s.kernel.read (s.atoms a).fd 512).2 }
    have hread : Does (fun _ => True) 0 [] s s₁ := .read s _ _
    have hsame : s'.kernel = s₁.kernel := by rw [hrest]
    have htasks : s'.tasks = s.tasks := by rw [hrest]
    have hst : s'.stMasterFd = s.stMasterFd ∧ s'.stSlaveFd = s.stSlaveFd := by
      rw [hrest]
      exact ⟨rfl, rfl⟩
    have hfewer : Sound gone s' := by
      apply hs.fewer _ htasks hst
      intro b _ hl
      cases hclose with
      | same hatoms =>
        rw [Sys.live, hatoms.atoms] at hl
        rw [hatoms.atoms]
        exact ⟨hl, rfl⟩
      | closed hatoms =>
        have hl' := hatoms.live.mp hl
        rw [hatoms.atoms]
        exact ⟨(closeAtom_open hl').1, congrArg Atom.fd (closeAtom_open hl').2.1⟩
    have hdoes : Does (fun _ => True) 0 [] s s' := hread.trans (.of_kernel hsame)
    exact .ok hm (Nat.zero_le _) ⟨.keeps gone hdoes, hwf', hfewer⟩

/-- With the last task the terminal is closed too, for the first time. -/
theorem Sound.closesLast (hwf : s.WF) (hs : Sound gone s) {task : TaskState} (htasks : s.tasks = [task])
    (hopen : StillOpen s (.event .remove)) :
    (task.spec.closed ++ [s.stMasterFd, s.stSlaveFd]).Nodup ∧
      ∀ fd ∈ task.spec.closed ++ [s.stMasterFd, s.stSlaveFd], fd ∉ gone := by
  have ht : task ∈ s.tasks := by simp [htasks]
  have hhead : task ∈ s.tasks.head? := by simp [htasks]
  obtain ⟨hlive, hne⟩ := hopen.2 (by simp [htasks])
  obtain ⟨hnodup, hclosed⟩ := hs.closes hwf ht (hopen.1 task hhead)
  have hmaster := hs.master hne hlive
  obtain ⟨hmasterGone, hmasterAside⟩ := hs.atoms .master ⟨.master, by simp⟩ hlive
  rw [hmaster] at hmasterGone hmasterAside
  have hasides : asides s = task.spec.closedErr ++ [s.stSlaveFd] := by
    rw [asides, htasks, if_neg hne]
    simp
  have hasidesNodup := hs.nodup
  rw [hasides, List.nodup_append] at hasidesNodup
  have hslave : s.stSlaveFd ∈ asides s := by simp [hasides]
  have herr : ∀ fd ∈ task.spec.closedErr, fd ∈ asides s := by
    rw [hasides]
    exact fun fd hfd => List.mem_append_left _ hfd
  have hpipe : ∀ b, b = .read task.addr ∨ b = .write task.addr → InPipe s.tasks b ∧ b ≠ .master := by
    intro b hb
    obtain rfl | rfl := hb
    · exact ⟨⟨.read ht, by simp⟩, by simp⟩
    · exact ⟨⟨.write ht, by simp⟩, by simp⟩
  have hother : ∀ fd ∈ task.spec.closed, fd ≠ s.stMasterFd ∧ fd ≠ s.stSlaveFd := by
    intro fd hfd
    obtain ⟨-, ⟨b, hb, hl, he⟩ | hmem⟩ := hclosed fd hfd
    · obtain ⟨hb, hbm⟩ := hpipe b hb
      refine ⟨fun hm => ?_, fun hm => ?_⟩
      · have hsame : (s.atoms b).fd = (s.atoms .master).fd := by rw [hmaster, he, hm]
        exact hbm ((hwf.held _ .master).eq_of_fd (hwf.held b hb.1) hlive hsame)
      · rw [hm] at he
        rw [← he] at hslave
        exact (hs.atoms b hb hl).2 hslave
    · refine ⟨fun hm => ?_, fun hm => ?_⟩
      · rw [hm] at hmem
        exact hmasterAside (herr _ hmem)
      · exact hasidesNodup.2.2 fd hmem _ (List.mem_singleton.mpr rfl) hm
  refine ⟨?_, fun fd hfd => ?_⟩
  · rw [List.nodup_append]
    refine ⟨hnodup, by simpa using hne, fun fd hfd fd' hfd' he => ?_⟩
    obtain ⟨hm, hsl⟩ := hother fd hfd
    rw [he] at hm hsl
    obtain rfl | hfd' := List.mem_cons.mp hfd'
    · exact hm rfl
    · exact hsl (List.mem_singleton.mp hfd')
  · obtain hfd | hfd := List.mem_append.mp hfd
    · exact (hclosed fd hfd).1
    · obtain rfl | hfd := List.mem_cons.mp hfd
      · exact hmasterGone
      · obtain rfl := List.mem_singleton.mp hfd
        exact hs.kept _ hslave

theorem remove_tidies (hwf : s.WF) (hs : Sound gone s) (hopen : StillOpen s (.event .remove)) :
    Tidies gone s (.event .remove) (taskRemove s) := by
  have hm : ∀ spec, Move.event .remove ≠ .event (.install spec) := by simp
  cases htasks : s.tasks with
  | nil =>
    rw [taskRemove, htasks]
    exact .error hm (Nat.zero_le _) (.keeps _ (.refl _ s))
  | cons task rest =>
    cases rest with
    | nil =>
      have hdoes := taskRemove_last (W := fun _ => True) htasks (hwf.top _ _ htasks).2 fun _ => trivial
      obtain ⟨hnodup, hfresh⟩ := hs.closesLast hwf htasks hopen
      cases h : taskRemove s with
      | ok s' =>
        obtain ⟨task', top, below, -, -, htasks', -⟩ := taskRemove_ok hwf h
        rw [htasks] at htasks'
        cases htasks'
      | error e =>
        rw [h] at hdoes
        obtain ⟨-, fds, hfds, hdoes⟩ := hdoes
        exact .error hm (Nat.zero_le _) ⟨hdoes, hfds.sublist.nodup hnodup, fun fd hfd => hfresh fd (hfds.subset hfd)⟩
    | cons top below =>
      have ht : task ∈ s.tasks := by simp [htasks]
      have hhead : task ∈ s.tasks.head? := by simp [htasks]
      have hdoes := taskRemove_does (W := fun _ => True) htasks fun _ => trivial
      obtain ⟨hnodup, hclosed⟩ := hs.closes hwf ht (hopen.1 task hhead)
      have hclean : ∀ s' fds, fds <+: task.spec.closed → Does (fun _ => True) 0 fds s s' → Clean 0 fds gone s s' :=
        fun s' fds hfds hdoes =>
          ⟨hdoes, hfds.sublist.nodup hnodup, fun fd hfd => (hclosed fd (hfds.subset hfd)).1⟩
      cases h : taskRemove s with
      | ok s' =>
        have hremoved := hs.removed hwf htasks hopen h
        rw [h] at hdoes
        obtain ⟨-, fds, hfds, hdoes⟩ := hdoes
        refine .ok hm (Nat.zero_le _) ⟨hclean s' fds hfds hdoes, taskRemove_wf hwf h, ?_⟩
        apply hremoved.mono
        intro fd hfd
        obtain hfd | hfd := List.mem_append.mp hfd
        · exact List.mem_append_left _ (hfds.subset hfd)
        · exact List.mem_append_right _ hfd
      | error e =>
        rw [h] at hdoes
        obtain ⟨-, fds, hfds, hdoes⟩ := hdoes
        exact .error hm (Nat.zero_le _) (hclean e.2 fds hfds hdoes)

/-- A move that meets the condition closes nothing twice. -/
theorem move_tidies (hwf : s.WF) (hs : Sound gone s) (hcalled : m.Called s)
    (hsupplied : Supplied gone s (m.run s).endState m) (hopen : StillOpen s m) : Tidies gone s m (m.run s) := by
  cases m with
  | event e =>
    cases e with
    | echoScanner => exact echoScanner_tidies hwf hs (hsupplied.2 rfl)
    | autoRead p =>
      apply pipeAutoRead_tidies hwf hs
      intro hforked
      have hunused := hsupplied.1
      have hgiven : given s (pipeAutoRead s p).endState (.event (.autoRead p)) = s.kernel.newEnds := if_pos hforked
      rw [← hgiven]
      exact hunused
    | autoWrite p =>
      exact .shuts (by simp) hwf hs (pipeAutoWrite_shuts (W := fun _ => True) (s := s) (p := p) fun _ _ _ => trivial)
    | write p buf =>
      have hwrite : Result.Ends id (Keeps (fun _ => True) s) (step s (.write p buf)) := by
        apply (pipeWrite_keeps (W := fun _ => True) (s := s) (p := p) (fun _ _ _ => trivial) buf).bind
        intro x _ h
        exact h
      exact .keeps (by simp) hwf hs hwrite
    | install spec => exact install_tidies hwf hs hsupplied.1
    | remove => exact remove_tidies hwf hs hopen
  | finalWrite => exact .keeps (by simp) hwf hs (finalWrite_keeps s)
  | typing a => exact .keeps (by simp) hwf hs (typingIoProc_keeps s a)
  | cherr a => exact cherr_tidies hwf hs hcalled

end Tidy

section Runs

variable {gone : List Int} {s s' s₀ s₁ : Sys} {fd : Int} {pty : Int × Int} {inma maou : Nat}
  {hinma : 0 < inma} {hmaou : 0 < maou}

theorem masterPipeInit_fd (h : masterPipeInit s fd inma maou hinma hmaou = .ok s') :
    (s'.live .master → (s'.atoms .master).fd = fd) ∧ s'.stMasterFd = s.stMasterFd ∧
      s'.stSlaveFd = s.stSlaveFd := by
  obtain ⟨s₂, s₃, h₂, hboth, rfl⟩ := masterPipeInit_splices h
  have hprep := pipeAtomInit_ok h₂
  have hrest := hboth.rest
  have honly := hprep.only
  rw [OnlyAtoms] at honly
  refine ⟨fun hl => ?_, ?_, ?_⟩
  · have hl' : s₂.live .master := hboth.live.mp hl
    exact (hboth.fd .master).trans (hprep.fd (hprep.live.mp hl'))
  · have hm : s₂.stMasterFd = s.stMasterFd := by rw [honly]
    exact (congrArg Sys.stMasterFd hrest).trans hm
  · have hsl : s₂.stSlaveFd = s.stSlaveFd := by rw [honly]
    exact (congrArg Sys.stSlaveFd hrest).trans hsl

/-- Before the first task there are the two descriptors of the terminal, or just a socket. -/
theorem masterSetup_sound (hst : s.stMasterFd = 0 ∧ s.stSlaveFd = 0)
    (h : masterSetup s fd pty inma maou hinma hmaou = .ok s₀) : Started s₀ ∧ Sound [] s₀ := by
  have hsound : ∀ (s₁ : Sys) fd', masterPipeInit s₁ fd' inma maou hinma hmaou = .ok s₀ →
      (s₁.stMasterFd ≠ s₁.stSlaveFd → fd' = s₁.stMasterFd) → Sound [] s₀ := by
    intro s₁ fd' h hfd
    obtain ⟨hmaster, hm, hsl⟩ := masterPipeInit_fd h
    have htasks := (masterPipeInit_ok h).1
    have hasides : asides s₀ = if s₁.stMasterFd = s₁.stSlaveFd then [] else [s₁.stSlaveFd] := by
      rw [asides, htasks, hm, hsl]
      rfl
    refine ⟨fun a ha hl => ⟨by simp, ?_⟩, fun _ _ => by simp, ?_, ?_, fun hne hl => ?_⟩
    · obtain ⟨huse, -⟩ := ha
      rw [htasks] at huse
      cases huse with
      | master =>
        rw [hasides, hmaster hl]
        split
        · exact List.not_mem_nil
        · next hne =>
          rw [hfd hne]
          simpa using hne
      | read ht => cases ht
      | write ht => cases ht
      | err ht => cases ht
    · rw [hasides]
      split
      · exact List.nodup_nil
      · simp
    · rw [htasks]
      intro task ht
      cases ht
    · rw [hm, hsl] at hne
      rw [hmaster hl, hm, hfd hne]
  rw [masterSetup] at h
  split at h
  · exact ⟨⟨_, _, _, _, _, _, h⟩, hsound _ _ h fun _ => rfl⟩
  · exact ⟨⟨_, _, _, _, _, _, h⟩, hsound _ _ h fun hne => absurd (hst.1.trans hst.2.symm) hne⟩

theorem goneAfter_eq {n : Nat} {fds : List Int} {m : Move}
    (h : Clean n fds (gone.filter fun fd => fd ∉ given s s' m) s s') :
    closings (newCalls s s') = fds ∧ goneAfter gone s s' m = fds ++ gone.filter fun fd => fd ∉ given s s' m := by
  obtain ⟨-, calls, htrace, -, hclosed⟩ := h.does
  have hcalls : closings (newCalls s s') = fds := by rw [newCalls, htrace, List.drop_left, hclosed]
  exact ⟨hcalls, by rw [goneAfter, hcalls]⟩

theorem closedRun_sound (hst : s₁.stMasterFd = 0 ∧ s₁.stSlaveFd = 0)
    (h₀ : masterSetup s₁ fd pty inma maou hinma hmaou = .ok s₀) (run : ClosedRun StillOpen s₀ gone s) :
    s.WF ∧ Sound gone s := by
  induction run with
  | start =>
    obtain ⟨hstarted, hsound⟩ := masterSetup_sound hst h₀
    exact ⟨started_wf hstarted, hsound⟩
  | next run m hcalled h hsupplied hok ih =>
    have htidies := move_tidies (m := m) ih.1 ih.2 hcalled (by rw [h]; exact hsupplied) hok
    rw [h] at htidies
    obtain ⟨n, fds, htidy⟩ := htidies
    rw [(goneAfter_eq htidy.toClean).2]
    exact ⟨htidy.wf, htidy.sound⟩

theorem Clean.closesOnce {n : Nat} {fds : List Int} {m : Move}
    (h : Clean n fds (gone.filter fun fd => fd ∉ given s s' m) s s') : ClosesOnce gone s s' m := by
  rw [ClosesOnce, (goneAfter_eq h).1]
  refine ⟨h.nodup, fun fd hfd hgone => ?_⟩
  by_contra hgiven
  exact h.fresh fd hfd (List.mem_filter.mpr ⟨hgone, by simpa using hgiven⟩)

/-- As long as no task is removed after a pipe has closed one of its descriptors, nor the last one when
there is no terminal or it has been closed, no move closes a number that has been closed already and
has not been given again. -/
theorem closedRun_closesOnce (hst : s₁.stMasterFd = 0 ∧ s₁.stSlaveFd = 0)
    (h₀ : masterSetup s₁ fd pty inma maou hinma hmaou = .ok s₀) (run : ClosedRun StillOpen s₀ gone s)
    (m : Move) (hcalled : m.Called s) (hsupplied : Supplied gone s (m.run s).endState m) (hopen : StillOpen s m) :
    ClosesOnce gone s (m.run s).endState m := by
  obtain ⟨hwf, hs⟩ := closedRun_sound hst h₀ run
  have htidies := move_tidies hwf hs hcalled hsupplied hopen
  cases h : m.run s with
  | ok s' =>
    rw [h] at htidies
    obtain ⟨n, fds, htidy⟩ := htidies
    exact htidy.toClean.closesOnce
  | error e =>
    rw [h] at htidies
    obtain ⟨n, fds, hclean⟩ := htidies
    exact hclean.closesOnce

end Runs

instance (gone : List Int) (s s' : Sys) (m : Move) : Decidable (Supplied gone s s' m) :=
  inferInstanceAs (Decidable (_ ∧ _))

instance (s : Sys) : Decidable (StillOpen s (.event .remove)) := inferInstanceAs (Decidable (_ ∧ _))

/-- So many events, with what has been closed, as long as the operating system can do its part. -/
def playClosed : List Int × Sys → List Event → Result (List Int × Sys)
  | x, [] => .ok x
  | (gone, s), e :: es => do
    let s' ← step s e
    if Supplied gone s s' (.event e) then playClosed (goneAfter gone s s' (.event e), s') es
    else .error (.abort, s)

theorem playClosed_run {Ok : Sys → Move → Prop} {es : List Event} {s₀ s s' : Sys} {gone gone' : List Int}
    (hok : ∀ s, ∀ e ∈ es, Ok s (.event e)) (run : ClosedRun Ok s₀ gone s)
    (h : playClosed (gone, s) es = .ok (gone', s')) : ClosedRun Ok s₀ gone' s' := by
  induction es generalizing gone s with
  | nil =>
    cases h
    exact run
  | cons e es ih =>
    obtain ⟨s₁, h₁, h⟩ := Result.bind_ok h
    split at h
    · next hsupplied =>
      exact ih (fun s e he => hok s e (List.mem_cons_of_mem _ he))
        (.next run (.event e) trivial h₁ hsupplied (hok s e List.mem_cons_self)) h
    · cases h

/-- The program on a terminal, before it has set anything up. -/
def bare (k : Kernel) : Sys := { blank k with stMasterFd := 0, stSlaveFd := 0 }

/-- A transfer that is over before its pipes are: all it had open is closed. -/
theorem closedRun_closesOnce_taken : ∃ s₀ gone s s',
    masterSetup (bare taken) (-1) (5, 6) inmaFifoSize maouFifoSize inmaFifoSize_pos maouFifoSize_pos = .ok s₀ ∧
    ClosedRun StillOpen s₀ gone s ∧ s' = (taskRemove s).endState ∧ closings (newCalls s s') = [9, 8, 11] ∧
    ClosesOnce gone s s' (.event .remove) := by
  obtain ⟨s₀, h₀, htest⟩ := Result.ok_of_passes (show
    (masterSetup (bare taken) (-1) (5, 6) inmaFifoSize maouFifoSize inmaFifoSize_pos maouFifoSize_pos).passes
      (fun s₀ => (playClosed ([], s₀) [.echoScanner, .autoRead .masterOutput]).passes fun x =>
        StillOpen x.2 (.event .remove) ∧ Supplied x.1 x.2 (taskRemove x.2).endState (.event .remove) ∧
          closings (newCalls x.2 (taskRemove x.2).endState) = [9, 8, 11]) = true by decide +kernel)
  obtain ⟨⟨gone, s⟩, hplay, htest⟩ := Result.ok_of_passes htest
  obtain ⟨hopen, hsupplied, hclosed⟩ := of_decide_eq_true htest
  have hrun : ClosedRun StillOpen s₀ gone s := by
    apply playClosed_run _ .start hplay
    intro s e he
    obtain rfl | he := List.mem_cons.mp he
    · trivial
    · obtain rfl := List.mem_singleton.mp he
      trivial
  exact ⟨s₀, gone, s, _, h₀, hrun, rfl, hclosed,
    closedRun_closesOnce ⟨rfl, rfl⟩ h₀ hrun (.event .remove) trivial hsupplied hopen⟩

/-- The kernel under a transfer whose child closes its stdout before it exits. -/
def finished : Kernel := { taken with reads := [.data chStar [chStar, chCan, chB, ch0, ch0], .eof] }

/-- pipe_fifo_read closes the descriptor at the end of the file, and the destructor closes it again. -/
theorem transfer_closesTwice : ∃ s₀ gone s s',
    masterSetup (bare finished) (-1) (5, 6) inmaFifoSize maouFifoSize inmaFifoSize_pos maouFifoSize_pos = .ok s₀ ∧
    ClosedRun (fun _ _ => True) s₀ gone s ∧ s' = (taskRemove s).endState ∧
    Supplied gone s s' (.event .remove) ∧ ¬ ClosesOnce gone s s' (.event .remove) := by
  obtain ⟨s₀, h₀, htest⟩ := Result.ok_of_passes (show
    (masterSetup (bare finished) (-1) (5, 6) inmaFifoSize maouFifoSize inmaFifoSize_pos maouFifoSize_pos).passes
      (fun s₀ => (playClosed ([], s₀) [.echoScanner, .autoRead .masterOutput, .autoRead .inputMaster]).passes
        fun x => Supplied x.1 x.2 (taskRemove x.2).endState (.event .remove) ∧
          ¬ ClosesOnce x.1 x.2 (taskRemove x.2).endState (.event .remove)) = true by decide +kernel)
  obtain ⟨⟨gone, s⟩, hplay, htest⟩ := Result.ok_of_passes htest
  obtain ⟨hsupplied, htwice⟩ := of_decide_eq_true htest
  exact ⟨s₀, gone, s, _, h₀, playClosed_run (fun _ _ _ => trivial) .start hplay, rfl, hsupplied, htwice⟩

end Rzh
