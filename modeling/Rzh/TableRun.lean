import Rzh.Closings
import Rzh.ForkChild
import Rzh.Session

/-!
# The descriptors of a run

The table of rzh's descriptors beside its states: the pipes of a transfer are opened with its fork, and
whatever is closed leaves the table. A move closes what a pipe ends in, or it begins a transfer or ends one.
-/
namespace Rzh

open Sys

/-- The numbers in calls of close() that a table knows. -/
def closedFds (calls : List Call) : List Nat := (closings calls).filterMap Int.toNat?

/-- Before a move closes anything it may open the three pipes of a transfer. The kernel gives the lowest
numbers that are free. -/
def Opens (t : FdTable OpenFile) (s s' : Sys) (t' : FdTable OpenFile) : Prop :=
  if Forked s s' then t.openFiles (childPipes s.kernel.forks.length) = (s.kernel.newEnds.map Int.toNat, t')
  else t' = t

instance (t t' : FdTable OpenFile) (s s' : Sys) : Decidable (Opens t s s' t') :=
  inferInstanceAs (Decidable (if Forked s s' then
    t.openFiles (childPipes s.kernel.forks.length) = (s.kernel.newEnds.map Int.toNat, t') else t' = t))

/-- main() up to its loop: the master is the connection or the terminal's. -/
def MainFds.Starts (fds : MainFds) (s₀ : Sys) : Prop :=
  ∃ (s₁ : Sys) (inma maou : Nat) (hinma : 0 < inma) (hmaou : 0 < maou),
    (s₁.stMasterFd = fds.stMasterFd ∧ s₁.stSlaveFd = fds.stSlaveFd) ∧
      masterPipeInit s₁ (fds.connFd.getD fds.stMasterFd) inma maou hinma hmaou = .ok s₀

/-- The states that the program gets to, with its table. -/
inductive TableRun (fds : MainFds) (s₀ : Sys) : FdTable OpenFile → Sys → Prop where
  | install {s : Sys} (h : step s₀ .echoScanner = .ok s) : TableRun fds s₀ fds.table s
  | next {t t' : FdTable OpenFile} {s s' : Sys} (run : TableRun fds s₀ t s) (m : Move) (hown : m.Own)
    (hcalled : m.Called s) (h : m.run s = .ok s') (hopens : Opens t s s' t') :
    TableRun fds s₀ (t'.closeAll (closedFds (newCalls s s'))) s'

theorem MainFds.Starts.started {fds : MainFds} {s₀ : Sys} (h : fds.Starts s₀) : Started s₀ := by
  obtain ⟨s₁, inma, maou, hinma, hmaou, -, hinit⟩ := h
  exact ⟨s₁, _, inma, maou, hinma, hmaou, hinit⟩

theorem TableRun.session {fds : MainFds} {s₀ s : Sys} {t : FdTable OpenFile} (run : TableRun fds s₀ t s) :
    SessionRun s₀ s := by
  induction run with
  | install h => exact .install h
  | next _ m hown hcalled h _ ih => exact .next ih m hown hcalled h

theorem mem_closedFds {calls : List Call} {fd : Nat} : fd ∈ closedFds calls ↔ (fd : Int) ∈ closings calls := by
  rw [closedFds, List.mem_filterMap]
  constructor
  · rintro ⟨n, hn, hsome⟩
    rw [Int.mem_toNat?.mp hsome] at hn
    exact hn
  · exact fun h => ⟨fd, h, rfl⟩

section Placed

variable {s s' s₀ : Sys} {a : AtomRef} {spec : TaskSpec} {masterfd : Int}

/-- As long as an atom is open it has the descriptor that it was given. -/
structure Placed (masterfd : Int) (s : Sys) : Prop where
  master : s.live .master → (s.atoms .master).fd = masterfd
  reader : ∀ task ∈ s.tasks, s.live (.read task.addr) → (s.atoms (.read task.addr)).fd = task.spec.infd
  writer : ∀ task ∈ s.tasks, s.live (.write task.addr) → (s.atoms (.write task.addr)).fd = task.spec.outfd

/-- It is enough that what is open still has the same descriptor, on a stack that is no higher. -/
theorem Placed.fewer (hs : Placed masterfd s) (htasks : ∀ task ∈ s'.tasks, task ∈ s.tasks)
    (hatoms : ∀ b, InUse s'.tasks b → s'.live b → (s'.atoms b).fd = (s.atoms b).fd) : Placed masterfd s' := by
  have hlive : ∀ b, InUse s'.tasks b → s'.live b → s.live b := by
    intro b hb hl
    rw [Sys.live, ← hatoms b hb hl]
    exact hl
  refine ⟨fun hl => ?_, fun task ht hl => ?_, fun task ht hl => ?_⟩
  · rw [hatoms _ .master hl]
    exact hs.master (hlive _ .master hl)
  · rw [hatoms _ (.read ht) hl]
    exact hs.reader task (htasks task ht) (hlive _ (.read ht) hl)
  · rw [hatoms _ (.write ht) hl]
    exact hs.writer task (htasks task ht) (hlive _ (.write ht) hl)

theorem Placed.installed (hwf : s.WF) (hs : Placed masterfd s) (h : taskInstall s spec = .ok s') :
    Placed masterfd s' := by
  have hin := taskInstall_ok hwf h
  have htasks : s'.tasks = ⟨s.fresh, spec⟩ :: s.tasks := by rw [hin.rest]
  have hlive : ∀ b, InUse s.tasks b → s'.live b → s.live b := by
    intro b hb hl
    rw [Sys.live, ← hin.fd b hb]
    exact hl
  refine ⟨fun hl => ?_, fun task ht hl => ?_, fun task ht hl => ?_⟩
  · rw [hin.fd _ .master]
    exact hs.master (hlive _ .master hl)
  · rw [htasks] at ht
    obtain rfl | ht := List.mem_cons.mp ht
    · exact taskInstall_fdR h (hin.liveR.mp hl)
    · rw [hin.fd _ (.read ht)]
      exact hs.reader task ht (hlive _ (.read ht) hl)
  · rw [htasks] at ht
    obtain rfl | ht := List.mem_cons.mp ht
    · exact hin.fdW (hin.liveW.mp hl)
    · rw [hin.fd _ (.write ht)]
      exact hs.writer task ht (hlive _ (.write ht) hl)

theorem Placed.removed (hwf : s.WF) (hs : Placed masterfd s) (h : taskRemove s = .ok s') : Placed masterfd s' := by
  obtain ⟨task, top, below, s₁, s₂, htasks, hun, hwrites, rfl⟩ := taskRemove_ok hwf h
  have hw : (s₁.pipes .masterOutput).writeAtom = some (.write top.addr) := by rw [hun.masterOutput]
  have hpoured := pipeWrites_poured hwrites hw
  have htasks₂ : s₂.tasks = top :: below := by rw [hpoured.tasks, hun.rest]
  apply hs.fewer
  · intro t ht
    rw [htasks]
    exact List.mem_cons_of_mem task (htasks₂ ▸ ht)
  · intro b hb _
    change (s₂.atoms b).fd = _
    rw [hpoured.atoms]
    exact hun.fd b (htasks₂ ▸ hb)

/-- There is no task yet. -/
theorem masterPipeInit_placed {s₁ : Sys} {inma maou : Nat} {hinma : 0 < inma} {hmaou : 0 < maou}
    (h : masterPipeInit s₁ masterfd inma maou hinma hmaou = .ok s) : Placed masterfd s := by
  have htasks := (masterPipeInit_ok h).1
  have hnone : ∀ task, task ∉ s.tasks := by
    intro task ht
    rw [htasks] at ht
    cases ht
  exact ⟨(masterPipeInit_fd h).1, fun task ht => absurd ht (hnone task), fun task ht => absurd ht (hnone task)⟩

theorem lasting_placed (masterfd : Int) : Lasting (Placed masterfd) where
  untouched hs h := by
    refine hs.fewer (fun task ht => ?_) fun b _ _ => ?_
    · rw [h.tasks] at ht
      exact ht
    · rw [h.atoms]
  closed {s a} _ hs _ := by
    have htasks : (closeAtom s a).tasks = s.tasks := congrArg Shape.tasks (shape_closeAtom s a)
    refine hs.fewer (fun task ht => ?_) fun b _ hl => ?_
    · rw [htasks] at ht
      exact ht
    · exact congrArg Atom.fd (closeAtom_open hl).2.1
  installed hwf hs h := hs.installed hwf h
  removed hwf hs h := hs.removed hwf h

end Placed

section Deals

variable {s s' s₁ : Sys} {p : PipeRef} {a : AtomRef} {masterfd : Int} {mode : Mode}

/-- A pipe may close it. -/
def Belongs (s : Sys) (fd : Int) : Prop := ∃ a, InPipe s.tasks a ∧ s.live a ∧ (s.atoms a).fd = fd

/-- What a move of the program's own does to the descriptors: a pipe closes what it ends in, a transfer
begins and the child's ends are closed, or the receive process goes and takes its own with it. -/
inductive Deals (s s' : Sys) : Prop where
  | keeps {fds : List Int} (htasks : s'.tasks = s.tasks) (hdoes : Does (fun _ => True) 0 fds s s')
    (hown : ∀ fd ∈ fds, 0 ≤ fd → Belongs s fd)
  | begins {rz : TaskState} {fds : List Int} {chstdin chstdout chstderr : Nat × Nat} {pid : Nat}
    {forks : List ForkRes} (htasks : s'.tasks = rz :: s.tasks) (hrz : IsReceiver rz.spec)
    (hforks : s.kernel.forks = .child chstdin chstdout chstderr pid :: forks)
    (hspec : rz.spec.infd = chstdout.1 ∧ rz.spec.outfd = chstdin.2 ∧ rz.spec.errfd = chstderr.1 ∧
      rz.spec.childPid = pid)
    (hdoes : Does (fun _ => True) 1 fds s s') (hends : ∀ fd ∈ s.kernel.childEnds, fd ∈ fds)
    (hown : ∀ fd ∈ fds, 0 ≤ fd → fd ∈ s.kernel.newEnds ∨ Belongs s fd)
  | ends {rz : TaskState} (htasks : s.tasks = rz :: s'.tasks) (hrz : IsReceiver rz.spec)
    (hdoes : Does (fun _ => True) 0 rz.spec.fds s s')

theorem Belongs.of_untouched {fd : Int} (h : Untouched s s') (hfd : Belongs s' fd) : Belongs s fd := by
  obtain ⟨a, ha, hl, he⟩ := hfd
  rw [h.tasks] at ha
  rw [Sys.live, h.atoms] at hl
  rw [h.atoms] at he
  exact ⟨a, ha, hl, he⟩

theorem Belongs.of_closeAtom {fd : Int} (hfd : Belongs (closeAtom s a) fd) : Belongs s fd := by
  have htasks : (closeAtom s a).tasks = s.tasks := congrArg Shape.tasks (shape_closeAtom s a)
  obtain ⟨b, hb, hl, he⟩ := hfd
  obtain ⟨hl', hatom, -⟩ := closeAtom_open hl
  rw [htasks] at hb
  rw [hatom] at he
  exact ⟨b, hb, hl', he⟩

/-- At most the writer of a pipe is closed. -/
theorem Shuts.belongs (hwf : s.WF) (h : Shuts (fun _ => True) (s.pipes p).writeAtom s s') :
    s'.tasks = s.tasks ∧ ∃ fds, Does (fun _ => True) 0 fds s s' ∧ ∀ fd ∈ fds, 0 ≤ fd → Belongs s fd := by
  cases h with
  | keeps h => exact ⟨h.tasks, [], h.does, fun fd hfd => nomatch hfd⟩
  | @shuts b s₁ _ h hb hl h' =>
    have htasks : (closeAtom s₁ b).tasks = s₁.tasks := congrArg Shape.tasks (shape_closeAtom s₁ b)
    have hpipe : InPipe s₁.tasks b := (h.wf hwf).inPipe (.inr ((h.ends p).2.trans hb))
    refine ⟨(h'.tasks.trans htasks).trans h.tasks, _, (h.does.trans (.closeAtom s₁ b)).trans h'.does, ?_⟩
    intro fd hfd _
    obtain rfl : fd = (s₁.atoms b).fd := by simpa using hfd
    exact .of_untouched h.toUntouched ⟨b, hpipe, hl, rfl⟩

/-- The reader may be closed too, at the end of the file. -/
theorem pipeClosings_belong {s₂ : Sys} (hwf : s₁.WF)
    (hclose : s₂ = s₁ ∨ ∃ r, (s₁.pipes p).readAtom = some r ∧ s₂ = closeAtom s₁ r)
    (hrest : pipeAutoReadRest s₂ p = .ok s') :
    s'.tasks = s₁.tasks ∧ ∃ fds, Does (fun _ => True) 0 fds s₁ s' ∧ ∀ fd ∈ fds, 0 ≤ fd → Belongs s₁ fd := by
  have hshuts := pipeAutoReadRest_shuts (W := fun _ => True) (s := s₂) (p := p) fun _ _ _ => trivial
  rw [hrest] at hshuts
  obtain rfl | ⟨r, hr, rfl⟩ := hclose
  · exact Shuts.belongs hwf hshuts
  · have huse := hwf.inUse p r (.inl hr)
    have hshape := shape_closeAtom s₁ r
    obtain ⟨htasks, fds, hdoes, hown⟩ := Shuts.belongs (hwf.mayClose huse hshape (.closed (.refl _))) hshuts
    refine ⟨htasks.trans (congrArg Shape.tasks hshape), _, (Does.closeAtom s₁ r).trans hdoes, ?_⟩
    intro fd hfd hnonneg
    obtain rfl | hfd := List.mem_cons.mp hfd
    · exact ⟨r, hwf.inPipe (.inl hr), hnonneg, rfl⟩
    · exact (hown fd hfd hnonneg).of_closeAtom

/-- The receive process has the ends of its pipes that are not the child's. -/
theorem rztaskInstall_spec (h : rztaskInstall s = .ok s') : ∃ chstdin chstdout chstderr pid forks s₁ spec,
    s.kernel.forks = .child chstdin chstdout chstderr pid :: forks ∧ Untouched s s₁ ∧
      taskInstall s₁ spec = .ok s' ∧ IsReceiver spec ∧
      spec.infd = chstdout.1 ∧ spec.outfd = chstdin.2 ∧ spec.errfd = chstderr.1 ∧ spec.childPid = pid := by
  obtain ⟨⟨⟨infd, outfd, errfd, childPid⟩, s₁⟩, hfork, h⟩ := Result.bind_ok h
  rw [forkRzProcess] at hfork
  split at hfork
  · cases hfork
  · cases hfork
  · next chstdin chstdout chstderr pid forks hforks =>
    cases hfork
    refine ⟨chstdin, chstdout, chstderr, pid, forks, _, _, hforks, ?_, h, ?_, rfl, rfl, rfl, rfl⟩
    · exact ⟨rfl, rfl, rfl, Nat.le_add_right _ _, fun _ => ⟨rfl, rfl⟩, rfl, rfl⟩
    · exact ⟨_, _, _, _, _, rfl⟩

theorem pipeAutoRead_deals (hwf : s.WF) (hplaced : Placed masterfd s) (h : pipeAutoRead s p = .ok s') :
    Deals s s' := by
  obtain ⟨cnt, r, s₁, s₂, hr, -, hfifo, hclose, hrest⟩ := pipeAutoRead_steps h
  have hwf₁ := (fifoRead_ok hfifo).wf hwf
  have hstarts := fifoRead_starts (W := fun _ => True) (fun _ => trivial) hfifo
  have hplaced₁ := (lasting_placed masterfd).starts hwf hplaced hstarts
  obtain ⟨htasks, fds, hdoes, hown⟩ := pipeClosings_belong hwf₁ hclose hrest
  cases hstarts with
  | keeps hkeeps =>
    have hfirst := hkeeps.does.trans hdoes
    exact .keeps (htasks.trans hkeeps.tasks) hfirst fun fd hfd hnonneg =>
      .of_untouched hkeeps.toUntouched (hown fd hfd hnonneg)
  | @started sa sb _ ha hinstall hb =>
    obtain ⟨chstdin, chstdout, chstderr, pid, forks, sc, spec, hforks, hc, htask, hrz, hspec⟩ :=
      rztaskInstall_spec hinstall
    have hac := ha.toUntouched.trans hc
    have hin := taskInstall_ok (hac.wf hwf) htask
    have hstack : s₁.tasks = ⟨sc.fresh, spec⟩ :: s.tasks := by
      rw [hb.tasks, hin.rest, ← hac.tasks]
    have hforks₀ : s.kernel.forks = .child chstdin chstdout chstderr pid :: forks := by
      have hsame := ha.does.1
      rw [List.drop_zero] at hsame
      rw [← hsame, hforks]
    have hchild : sa.kernel.childEnds = s.kernel.childEnds := ha.does.childEnds
    have hfork := rztaskInstall_does (W := fun _ => True) sa
    rw [hinstall] at hfork
    have hall := ((ha.does.trans hfork).trans hb.does).trans hdoes
    refine .begins (htasks.trans hstack) hrz hforks₀ hspec hall (fun fd hfd => ?_) fun fd hfd hnonneg => ?_
    · simp [hchild, hfd]
    · rw [List.nil_append, List.append_nil, hchild] at hfd
      obtain hfd | hfd := List.mem_append.mp hfd
      · exact .inl ((childEnds_sublist s.kernel).subset hfd)
      obtain ⟨b, ⟨huse, hnoerr⟩, hl, rfl⟩ := hown fd hfd hnonneg
      have hnew : (chstdout.1 : Int) ∈ s.kernel.newEnds ∧ (chstdin.2 : Int) ∈ s.kernel.newEnds := by
        rw [Kernel.newEnds, hforks₀]
        simp
      have huse' := huse
      rw [hstack] at huse'
      have hold : InUse s.tasks b → Belongs s (s₁.atoms b).fd := by
        intro hb'
        have hfd₁ : (s₁.atoms b).fd = (s.atoms b).fd := by
          rw [hb.atoms, hin.fd b (by rw [hac.tasks]; exact hb'), hac.atoms]
        refine ⟨b, ⟨hb', hnoerr⟩, ?_, hfd₁.symm⟩
        rw [Sys.live, ← hfd₁]
        exact hl
      obtain hb' | rfl | rfl | rfl := huse'.of_cons
      · exact .inr (hold hb')
      · left
        have hfd' : (s₁.atoms (.read sc.fresh)).fd = spec.infd := by
          apply hplaced₁.reader ⟨sc.fresh, spec⟩ _ hl
          rw [hstack]
          exact List.mem_cons_self
        rw [hfd', hspec.1]
        exact hnew.1
      · left
        have hfd' : (s₁.atoms (.write sc.fresh)).fd = spec.outfd := by
          apply hplaced₁.writer ⟨sc.fresh, spec⟩ _ hl
          rw [hstack]
          exact List.mem_cons_self
        rw [hfd', hspec.2.1]
        exact hnew.2
      · exact absurd rfl (hnoerr sc.fresh)

theorem taskRemove_deals (hwf : s.WF) (hmode : InMode s mode) (h : taskRemove s = .ok s') : Deals s s' := by
  obtain ⟨task, top, below, u, v, htasks, hun, hwrites, rfl⟩ := taskRemove_ok hwf h
  cases hmode with
  | echo hstack =>
    rw [hstack] at htasks
    cases htasks
  | @transfer rz echo _ _ hstack hrz =>
    obtain ⟨rfl, htail⟩ := List.cons.inj (hstack.symm.trans htasks)
    obtain ⟨rfl, rfl⟩ := List.cons.inj htail
    have hw : (u.pipes .masterOutput).writeAtom = some (.write echo.addr) := by rw [hun.masterOutput]
    have hpoured := pipeWrites_poured hwrites hw
    have hkeeps : Keeps (fun _ => True) u v := pipeWrites_keeps hwrites fun _ _ _ => trivial
    have hstart : Does (fun _ => True) 0 [] s u := by
      apply Does.of_kernel
      rw [hun.rest]
    have hclosed : rz.spec.closed = rz.spec.fds := by
      obtain ⟨_, _, _, _, _, he⟩ := hrz
      rw [he]
      rfl
    have hdoes := (hstart.trans hkeeps.does).trans (Does.closes (W := fun _ => True) v rz.spec.closed)
    have hleft : v.tasks = [echo] := by rw [hpoured.tasks, hun.rest]
    refine .ends ?_ hrz ?_
    · change s.tasks = rz :: v.tasks
      rw [hstack, hleft]
    · rw [← hclosed]
      exact hdoes

theorem Deals.still {x : Result Sys} (h : Result.Ends id (Keeps (fun _ => True) s) x) (hx : x = .ok s') :
    Deals s s' := by
  rw [hx] at h
  exact .keeps h.tasks h.does fun fd hfd => nomatch hfd

theorem move_deals {m : Move} (hwf : s.WF) (hplaced : Placed masterfd s) (hmode : InMode s mode) (hown : m.Own)
    (h : m.run s = .ok s') : Deals s s' := by
  cases m with
  | event e =>
    cases e with
    | echoScanner => exact hown.elim
    | install spec => exact hown.elim
    | write p buf => exact hown.elim
    | autoRead p => exact pipeAutoRead_deals hwf hplaced h
    | autoWrite p =>
      have hshuts := pipeAutoWrite_shuts (W := fun _ => True) (s := s) (p := p) fun _ _ _ => trivial
      rw [show pipeAutoWrite s p = .ok s' from h] at hshuts
      obtain ⟨htasks, fds, hdoes, hown⟩ := Shuts.belongs hwf hshuts
      exact .keeps htasks hdoes hown
    | remove => exact taskRemove_deals hwf hmode h
  | finalWrite => exact .still (finalWrite_keeps s) h
  | typing a => exact .still (typingIoProc_keeps s a) h
  | cherr a =>
    obtain ⟨-, hrest⟩ := cherrProc_ok h
    let s₁ : Sys := { s with kernel := (s.kernel.read (s.atoms a).fd 512).2 }
    have hread : Does (fun _ => True) 0 [] s s₁ := .read s _ _
    have hsame : s'.kernel = s₁.kernel := by rw [hrest]
    have hdoes : Does (fun _ => True) 0 [] s s' := hread.trans (.of_kernel hsame)
    refine .keeps ?_ hdoes fun fd hfd => nomatch hfd
    rw [hrest]

end Deals

end Rzh
