import Rzh.TableRun

/-!
# What is open

Whatever rzh has open in a state of its loop has been open when the loop began, or it belongs to the receive process
on the stack.
-/
namespace Rzh

open Sys

section Ledger

variable {fds : MainFds} {t t' : FdTable OpenFile} {s s' s₀ : Sys} {fd : Nat} {mode : Mode}

def MainFds.masterFd (fds : MainFds) : Nat := fds.connFd.getD fds.stMasterFd

/-- What no pipe of the program ends in. -/
def MainFds.Aside (fds : MainFds) (fd : Nat) : Prop := fd ≠ 0 ∧ fd ≠ 1 ∧ fd ≠ fds.masterFd

/-- The receive process on the stack, if there is one, has this descriptor. -/
def Received (s : Sys) (fd : Nat) : Prop := ∃ rz ∈ s.tasks, IsReceiver rz.spec ∧ (fd : Int) ∈ rz.spec.fds

/-- Whatever is open now has been open when the loop began or is the receive process's, and what no pipe ends in
has not been touched. -/
structure Ledger (fds : MainFds) (t : FdTable OpenFile) (s : Sys) : Prop where
  old : ∀ fd f, t.file fd = some f → fds.table.file fd = some f ∨ Received s fd
  kept : ∀ fd f, fds.Aside fd → fds.table.file fd = some f → t.file fd = some f
  apart : ∀ fd, Received s fd → fds.Aside fd → fds.table.file fd = none

theorem IsScanner.not_receiver {spec : TaskSpec} (h : IsScanner spec) : ¬ IsReceiver spec := by
  obtain ⟨_, rfl⟩ := h
  rintro ⟨_, _, _, _, _, he⟩
  have hproc := congrArg TaskSpec.destructProc he
  cases hproc

theorem InMode.echo_not_received (h : InMode s .echo) (fd : Nat) : ¬ Received s fd := by
  cases h with
  | echo htasks hecho =>
    rintro ⟨rz, hrz, hreceiver, -⟩
    rw [htasks] at hrz
    obtain rfl := List.mem_singleton.mp hrz
    exact hecho.not_receiver hreceiver

theorem Received.mono (h : Received s fd) (htasks : ∀ task ∈ s.tasks, task ∈ s'.tasks) : Received s' fd := by
  obtain ⟨rz, hrz, hreceiver, hfd⟩ := h
  exact ⟨rz, htasks rz hrz, hreceiver, hfd⟩

theorem InMode.task (h : InMode s mode) {task : TaskState} (ht : task ∈ s.tasks) :
    IsScanner task.spec ∨ IsReceiver task.spec := by
  cases h with
  | echo htasks hecho =>
    rw [htasks] at ht
    obtain rfl := List.mem_singleton.mp ht
    exact .inl hecho
  | transfer htasks hrz hecho =>
    rw [htasks] at ht
    obtain rfl | ht := List.mem_cons.mp ht
    · exact .inr hrz
    · obtain rfl := List.mem_singleton.mp ht
      exact .inl hecho

/-- What a pipe ends in is set aside only if it is the receive process's. -/
theorem Belongs.received (hplaced : Placed fds.masterFd s) (hmode : InMode s mode) (h : Belongs s fd)
    (haside : fds.Aside fd) : Received s fd := by
  obtain ⟨hzero, hone, hmaster⟩ := haside
  obtain ⟨a, ⟨huse, hnoerr⟩, hl, hfd⟩ := h
  have hnonneg : (0 : Int) ≤ fd := Int.natCast_nonneg fd
  cases huse with
  | master =>
    rw [hplaced.master hl] at hfd
    exact absurd (Int.ofNat_inj.mp hfd).symm hmaster
  | @read task ht =>
    rw [hplaced.reader task ht hl] at hfd
    obtain ⟨_, he⟩ | hrz := hmode.task ht
    · rw [he] at hfd
      exact absurd (Int.ofNat_inj.mp hfd).symm hzero
    · exact ⟨task, ht, hrz, mem_fds.mpr ⟨.inl hfd.symm, hnonneg⟩⟩
  | @write task ht =>
    rw [hplaced.writer task ht hl] at hfd
    obtain ⟨_, he⟩ | hrz := hmode.task ht
    · rw [he] at hfd
      exact absurd (Int.ofNat_inj.mp hfd).symm hone
    · exact ⟨task, ht, hrz, mem_fds.mpr ⟨.inr (.inl hfd.symm), hnonneg⟩⟩
  | err => exact absurd rfl (hnoerr _)

theorem Does.newCalls {W : Int → Prop} {n : Nat} {closed : List Int} (h : Does W n closed s s') :
    closings (newCalls s s') = closed := by
  obtain ⟨-, calls, htrace, -, hclosed⟩ := h
  rw [Rzh.newCalls, htrace, List.drop_left, hclosed]

/-- What is closed leaves the table. -/
theorem file_closed {W : Int → Prop} {n : Nat} {closed : List Int} (h : Does W n closed s s') (fd : Nat) :
    (t.closeAll (closedFds (newCalls s s'))).file fd = if (fd : Int) ∈ closed then none else t.file fd := by
  rw [FdTable.file_closeAll]
  simp only [mem_closedFds, h.newCalls]

theorem Ledger.begun (fds : MainFds) (h : InMode s .echo) : Ledger fds fds.table s where
  old _ _ hf := .inl hf
  kept _ _ _ hf := hf
  apart fd hrz := absurd hrz (h.echo_not_received fd)

/-- The same tasks have the same descriptors, and a pipe closes none that is set aside. -/
theorem Ledger.keeps {closed : List Int} (hl : Ledger fds t s) (hplaced : Placed fds.masterFd s)
    (hmode : InMode s mode) (htasks : s'.tasks = s.tasks) (hdoes : Does (fun _ => True) 0 closed s s')
    (hown : ∀ fd ∈ closed, 0 ≤ fd → Belongs s fd) : Ledger fds (t.closeAll (closedFds (newCalls s s'))) s' where
  old fd f hf := by
    rw [file_closed hdoes] at hf
    split at hf
    · cases hf
    · refine (hl.old fd f hf).imp_right fun h => h.mono fun task ht => ?_
      rw [htasks]
      exact ht
  kept fd f haside hf := by
    rw [file_closed hdoes, if_neg]
    · exact hl.kept fd f haside hf
    · intro hmem
      have hnone := hl.apart fd ((hown fd hmem (Int.natCast_nonneg fd)).received hplaced hmode haside) haside
      rw [hnone] at hf
      cases hf
  apart fd hrz := by
    apply hl.apart fd
    exact hrz.mono fun task ht => htasks ▸ ht

theorem Does.forked {W : Int → Prop} {closed : List Int} {r : ForkRes} {forks : List ForkRes}
    (h : Does W 1 closed s s') (hforks : s.kernel.forks = r :: forks) : Forked s s' := by
  rw [Forked, h.1, hforks]
  exact Nat.lt_succ_self _

theorem Does.not_forked {W : Int → Prop} {closed : List Int} (h : Does W 0 closed s s') : ¬ Forked s s' := by
  rw [Forked, h.1, List.drop_zero]
  exact Nat.lt_irrefl _

section Begins

variable {rz : TaskState} {closed : List Int} {chstdin chstdout chstderr : Nat × Nat} {pid : Nat}
  {forks : List ForkRes}

/-- The numbers of the pipes, as the table has given them. -/
theorem Opens.pipes (h : Opens t s s' t') (hforked : Forked s s')
    (hforks : s.kernel.forks = .child chstdin chstdout chstderr pid :: forks) :
    t.openFiles (childPipes s.kernel.forks.length) =
      ([chstdin.1, chstdin.2, chstdout.1, chstdout.2, chstderr.1, chstderr.2], t') := by
  rw [Opens, if_pos hforked, Kernel.newEnds] at h
  rw [h, hforks]
  rfl

theorem mem_newEnds (hforks : s.kernel.forks = .child chstdin chstdout chstderr pid :: forks) :
    (fd : Int) ∈ s.kernel.newEnds ↔
      fd ∈ [chstdin.1, chstdin.2, chstdout.1, chstdout.2, chstderr.1, chstderr.2] := by
  rw [Kernel.newEnds, hforks]
  simp only [List.mem_cons, List.not_mem_nil, or_false, Int.ofNat_inj]

theorem Ledger.begins (hl : Ledger fds t s) (hplaced : Placed fds.masterFd s) (hmode : InMode s mode)
    (hopens : Opens t s s' t') (htasks : s'.tasks = rz :: s.tasks) (hrz : IsReceiver rz.spec)
    (hforks : s.kernel.forks = .child chstdin chstdout chstderr pid :: forks)
    (hspec : rz.spec.infd = chstdout.1 ∧ rz.spec.outfd = chstdin.2 ∧ rz.spec.errfd = chstderr.1 ∧
      rz.spec.childPid = pid)
    (hdoes : Does (fun _ => True) 1 closed s s') (hends : ∀ fd ∈ s.kernel.childEnds, fd ∈ closed)
    (hown : ∀ fd ∈ closed, 0 ≤ fd → fd ∈ s.kernel.newEnds ∨ Belongs s fd) :
    Ledger fds (t'.closeAll (closedFds (newCalls s s'))) s' := by
  have hpipes := hopens.pipes (hdoes.forked hforks) hforks
  obtain ⟨-, -, -, -, -, hfree, hother⟩ := childPipes_opened hpipes
  have hnew : ∀ fd, fd ∈ [chstdout.1, chstdin.2, chstderr.1] ↔ (fd : Int) ∈ rz.spec.fds := by
    intro fd
    rw [mem_fds, hspec.1, hspec.2.1, hspec.2.2.1]
    simp only [List.mem_cons, List.not_mem_nil, or_false, Int.ofNat_inj, Int.natCast_nonneg, and_true]
  have hchild : ∀ fd ∈ [chstdin.1, chstdout.2, chstderr.2], (fd : Int) ∈ closed := by
    intro fd hfd
    apply hends
    rw [Kernel.childEnds, hforks]
    simpa [Int.ofNat_inj] using hfd
  have hold : ∀ fd, Received s fd → Received s' fd := fun fd h => h.mono fun task ht => by
    rw [htasks]
    exact List.mem_cons_of_mem rz ht
  constructor
  case old =>
    intro fd f hf
    rw [file_closed hdoes] at hf
    split at hf
    · cases hf
    · next hopen =>
      by_cases hmem : fd ∈ [chstdin.1, chstdin.2, chstdout.1, chstdout.2, chstderr.1, chstderr.2]
      · right
        refine ⟨rz, by rw [htasks]; exact List.mem_cons_self, hrz, (hnew fd).mp ?_⟩
        have hnot : fd ∉ [chstdin.1, chstdout.2, chstderr.2] := fun h => hopen (hchild fd h)
        simp only [List.mem_cons, List.not_mem_nil, or_false, not_or] at hmem hnot ⊢
        omega
      · rw [hother fd hmem] at hf
        exact (hl.old fd f hf).imp_right (hold fd)
  case kept =>
    intro fd f haside hf
    have hstill := hl.kept fd f haside hf
    have hmem : fd ∉ [chstdin.1, chstdin.2, chstdout.1, chstdout.2, chstderr.1, chstderr.2] := by
      intro hmem
      rw [hfree fd hmem] at hstill
      cases hstill
    rw [file_closed hdoes, if_neg, hother fd hmem]
    · exact hstill
    · intro hclosed
      obtain h | h := hown fd hclosed (Int.natCast_nonneg fd)
      · exact hmem ((mem_newEnds hforks).mp h)
      · rw [hl.apart fd (h.received hplaced hmode haside) haside] at hf
        cases hf
  case apart =>
    rintro fd ⟨task, ht, hreceiver, hfd⟩ haside
    rw [htasks] at ht
    obtain rfl | ht := List.mem_cons.mp ht
    · cases hf : fds.table.file fd with
      | none => rfl
      | some f =>
        have hstill := hl.kept fd f haside hf
        have hmem := (hnew fd).mpr hfd
        rw [hfree fd] at hstill
        · cases hstill
        · simp only [List.mem_cons, List.not_mem_nil, or_false] at hmem ⊢
          omega
    · exact hl.apart fd ⟨task, ht, hreceiver, hfd⟩ haside

end Begins

/-- The receive process takes its descriptors with it. -/
theorem Ledger.ends {rz : TaskState} (hl : Ledger fds t s) (htasks : s.tasks = rz :: s'.tasks)
    (hrz : IsReceiver rz.spec) (hdoes : Does (fun _ => True) 0 rz.spec.fds s s') :
    Ledger fds (t.closeAll (closedFds (newCalls s s'))) s' where
  old fd f hf := by
    rw [file_closed hdoes] at hf
    split at hf
    · cases hf
    · next hopen =>
      refine (hl.old fd f hf).imp_right fun h => ?_
      obtain ⟨task, ht, hreceiver, hfd⟩ := h
      rw [htasks] at ht
      obtain rfl | ht := List.mem_cons.mp ht
      · exact absurd hfd hopen
      · exact ⟨task, ht, hreceiver, hfd⟩
  kept fd f haside hf := by
    rw [file_closed hdoes, if_neg]
    · exact hl.kept fd f haside hf
    · intro hmem
      have hreceived : Received s fd := ⟨rz, by rw [htasks]; exact List.mem_cons_self, hrz, hmem⟩
      rw [hl.apart fd hreceived haside] at hf
      cases hf
  apart fd hreceived := by
    apply hl.apart fd
    refine hreceived.mono fun task ht => ?_
    rw [htasks]
    exact List.mem_cons_of_mem rz ht

theorem Opens.same (h : Opens t s s' t') (hforked : ¬ Forked s s') : t' = t := by
  rw [Opens, if_neg hforked] at h
  exact h

theorem Opens.still (hforked : ¬ Forked s s') : Opens t s s' t := by
  rw [Opens, if_neg hforked]

theorem Deals.ledger (h : Deals s s') (hl : Ledger fds t s) (hplaced : Placed fds.masterFd s)
    (hmode : InMode s mode) (hopens : Opens t s s' t') :
    Ledger fds (t'.closeAll (closedFds (newCalls s s'))) s' := by
  cases h with
  | keeps htasks hdoes hown =>
    rw [hopens.same hdoes.not_forked]
    exact hl.keeps hplaced hmode htasks hdoes hown
  | begins htasks hrz hforks hspec hdoes hends hown =>
    exact hl.begins hplaced hmode hopens htasks hrz hforks hspec hdoes hends hown
  | ends htasks hrz hdoes =>
    rw [hopens.same hdoes.not_forked]
    exact hl.ends htasks hrz hdoes

theorem MainFds.Starts.placed (h : fds.Starts s₀) : Placed fds.masterFd s₀ := by
  obtain ⟨s₁, inma, maou, hinma, hmaou, -, hinit⟩ := h
  exact masterPipeInit_placed hinit

theorem tableRun_placed (h₀ : fds.Starts s₀) (run : TableRun fds s₀ t s) : Placed fds.masterFd s :=
  (lasting_placed fds.masterFd).run h₀.started h₀.placed run.session.program

theorem tableRun_ledger (h₀ : fds.Starts s₀) (run : TableRun fds s₀ t s) : Ledger fds t s := by
  induction run with
  | install h =>
    obtain ⟨s₁, inma, maou, hinma, hmaou, -, hinit⟩ := id h₀
    have hmode := echoScanner_mode (started_wf h₀.started) (masterPipeInit_ok hinit).1 h
    exact .begun fds hmode
  | next run m hown _ h hopens ih =>
    obtain ⟨mode, hmode⟩ := sessionRun_inMode h₀.started run.session
    have hplaced := tableRun_placed h₀ run
    have hwf := programRun_wf h₀.started run.session.program
    exact (move_deals hwf hplaced hmode hown h).ledger ih hplaced hmode hopens

/-- Descriptors do not leak: with the echo task alone nothing is open that has not been open when the loop began, and
during a transfer at most the three of the receive process are. But for stdin, stdout and the master nothing of it is
ever closed. -/
theorem tableRun_noLeak (h₀ : fds.Starts s₀) (run : TableRun fds s₀ t s) :
    (InMode s .echo → ∀ fd f, t.file fd = some f → fds.table.file fd = some f) ∧
      (∀ rz echo, s.tasks = [rz, echo] → ∀ fd f, t.file fd = some f →
        fds.table.file fd = some f ∨ (fd : Int) ∈ [rz.spec.infd, rz.spec.outfd, rz.spec.errfd]) ∧
      ∀ fd f, fds.Aside fd → fds.table.file fd = some f → t.file fd = some f := by
  have hl := tableRun_ledger h₀ run
  refine ⟨fun hecho fd f hf => ?_, fun rz echo htasks fd f hf => ?_, hl.kept⟩
  · obtain h | h := hl.old fd f hf
    · exact h
    · exact absurd h (hecho.echo_not_received fd)
  · obtain h | ⟨task, ht, hreceiver, hfd⟩ := hl.old fd f hf
    · exact .inl h
    · right
      obtain ⟨mode, hmode⟩ := sessionRun_inMode h₀.started run.session
      cases hmode with
      | echo hstack =>
        rw [hstack] at htasks
        cases htasks
      | @transfer rz' echo' _ _ hstack _ hecho' =>
        obtain ⟨rfl, htail⟩ := List.cons.inj (hstack.symm.trans htasks)
        obtain ⟨rfl, -⟩ := List.cons.inj htail
        rw [hstack] at ht
        obtain rfl | ht := List.mem_cons.mp ht
        · exact (List.mem_filter.mp hfd).1
        · obtain rfl := List.mem_singleton.mp ht
          exact absurd hreceiver hecho'.not_receiver

/-- The kernel under a transfer whose pipes have the numbers that are free. -/
def rowed : Kernel := { taken with forks := [.child (5, 6) (7, 8) (9, 10) 99] }

def stdio : FdTable OpenFile := [some (.inherited 0), some (.inherited 1), some (.inherited 2)]

def stdioFds : MainFds := mainOpens stdio false false

/-- A packet begins a transfer, which is over at once. -/
theorem rowed_transfer : ∃ s₀ s₁ s₂ s₃ t₁, stdioFds.Starts s₀ ∧ TableRun stdioFds s₀ stdioFds.table s₁ ∧
    pipeAutoRead s₁ .masterOutput = .ok s₂ ∧ taskRemove s₂ = .ok s₃ ∧
    (Opens stdioFds.table s₁ s₂ t₁ ∧ Forked s₁ s₂ ∧ ¬ Forked s₂ s₃) ∧
    s₁.kernel.forks.length = 1 ∧ s₃.kernel.forks = [] ∧ s₃.tasks.length = 1 := by
  let opened (s : Sys) : FdTable OpenFile := (stdioFds.table.openFiles (childPipes s.kernel.forks.length)).2
  obtain ⟨s₀, h₀, htest⟩ := Result.ok_of_passes (show
    (masterPipeInit (blank rowed) 3 inmaFifoSize maouFifoSize inmaFifoSize_pos maouFifoSize_pos).passes (fun s₀ =>
      (step s₀ .echoScanner).passes fun s₁ => (pipeAutoRead s₁ .masterOutput).passes fun s₂ =>
        (taskRemove s₂).passes fun s₃ =>
          (Opens stdioFds.table s₁ s₂ (opened s₁) ∧ Forked s₁ s₂ ∧ ¬ Forked s₂ s₃) ∧
            s₁.kernel.forks.length = 1 ∧ s₃.kernel.forks = [] ∧ s₃.tasks.length = 1) = true by decide +kernel)
  obtain ⟨s₁, h₁, htest⟩ := Result.ok_of_passes htest
  obtain ⟨s₂, h₂, htest⟩ := Result.ok_of_passes htest
  obtain ⟨s₃, h₃, htest⟩ := Result.ok_of_passes htest
  exact ⟨s₀, s₁, s₂, s₃, _, ⟨_, _, _, _, _, ⟨rfl, rfl⟩, h₀⟩, .install h₁, h₂, h₃, of_decide_eq_true htest⟩

/-- A transfer has come and gone. -/
theorem tableRun_noLeak_rowed : ∃ s₀ t s, stdioFds.Starts s₀ ∧ TableRun stdioFds s₀ t s ∧ s.kernel.forks = [] ∧
    s.tasks.length = 1 ∧ ∀ fd f, t.file fd = some f → stdioFds.table.file fd = some f := by
  obtain ⟨s₀, s₁, s₂, s₃, t₁, hstarts, hrun, h₂, h₃, ⟨hopens, -, hnot⟩, -, hforks, hlength⟩ := rowed_transfer
  have hrun₂ := hrun.next (.event (.autoRead .masterOutput)) trivial trivial h₂ hopens
  have hrun₃ := hrun₂.next (.event .remove) trivial trivial h₃ (.still hnot)
  have hecho : InMode s₃ .echo := by
    obtain ⟨mode, hmode⟩ := sessionRun_inMode hstarts.started hrun₃.session
    exact hmode.of_depth hlength
  exact ⟨s₀, _, s₃, hstarts, hrun₃, hforks, hlength, (tableRun_noLeak hstarts hrun₃).1 hecho⟩

end Ledger

end Rzh
