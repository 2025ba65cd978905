import Rzh.Ledger

/-!
# Where the status line goes

idle_proc writes to a number that it finds in a spec, the stdout that rzh has been started with. The number stays the
same when stdout is closed.
-/
namespace Rzh

open Sys

/-- What the number 1 stands for once `closed` have been closed: what it has stood for at the start, or nothing, or
the end of a pipe that the receive process reads from. -/
inductive AtStdout (fds : MainFds) (closed : List Int) (t : FdTable OpenFile) (s : Sys) : Prop where
  | kept (hopen : 1 ∉ closed) (hfile : t.file 1 = fds.table.file 1)
  | gone (hclosed : 1 ∈ closed) (hfile : t.file 1 = none)
  | piped {rz : TaskState} {transfer : Nat} (hclosed : 1 ∈ closed) (ht : rz ∈ s.tasks) (hrz : IsReceiver rz.spec)
    (houtfd : rz.spec.outfd = 1) (hfile : t.file 1 = some (.pipeEnd transfer .chstdin true))

section Stdout

variable {fds : MainFds} {t t' : FdTable OpenFile} {s s' s₀ : Sys} {closed gone : List Int} {mode : Mode}

/-- Of the numbers of three pipes only the first two can be 1. -/
theorem childPipes_one {chstdin chstdout chstderr : Nat × Nat} {transfer : Nat}
    (h : t.openFiles (childPipes transfer) =
      ([chstdin.1, chstdin.2, chstdout.1, chstdout.2, chstderr.1, chstderr.2], t')) (hone : chstdin.1 ≠ 1) :
    t'.file 1 = t.file 1 ∨ chstdin.2 = 1 ∧ t.file 1 = none ∧ t'.file 1 = some (.pipeEnd transfer .chstdin true) := by
  obtain ⟨hsorted, -, -, -, -, hfree, hother⟩ := childPipes_opened h
  have hwriting : t'.file chstdin.2 = some (.pipeEnd transfer .chstdin true) := by
    have hfiles := FdTable.file_openFiles t (childPipes transfer)
    rw [h] at hfiles
    exact hfiles (chstdin.2, _) (.tail _ (.head _))
  by_cases hmem : 1 ∈ [chstdin.1, chstdin.2, chstdout.1, chstdout.2, chstderr.1, chstderr.2]
  · have hsecond : chstdin.2 = 1 := by
      simp only [List.mem_cons, List.not_mem_nil, or_false] at hmem
      omega
    rw [hsecond] at hwriting
    exact .inr ⟨hsecond, hfree 1 hmem, hwriting⟩
  · exact .inl (hother 1 hmem)

/-- What is closed has nothing, and the rest is as it was. -/
theorem AtStdout.next {n : Nat} {t₁ : FdTable OpenFile} (hdoes : Does (fun _ => True) n closed s s')
    (h : 1 ∉ closed → AtStdout fds gone t₁ s') :
    AtStdout fds (gone ++ closed) (t₁.closeAll (closedFds (newCalls s s'))) s' := by
  have hfile : _ = if (1 : Int) ∈ closed then none else t₁.file 1 := file_closed hdoes 1
  by_cases hmem : 1 ∈ closed
  · rw [if_pos hmem] at hfile
    exact .gone (List.mem_append_right gone hmem) hfile
  · rw [if_neg hmem] at hfile
    cases h hmem with
    | kept hopen hat => exact .kept (by simp [hopen, hmem]) (hfile.trans hat)
    | gone hclosed hat => exact .gone (List.mem_append_left closed hclosed) (hfile.trans hat)
    | piped hclosed ht hrz houtfd hat =>
      exact .piped (List.mem_append_left closed hclosed) ht hrz houtfd (hfile.trans hat)

/-- As long as the number is not closed nothing else can get it. -/
theorem Deals.atStdout (h : Deals s s') (hat : AtStdout fds gone t s) (hstdout : fds.table.file 1 ≠ none)
    (hopens : Opens t s s' t') :
    ∃ n closed, Does (fun _ => True) n closed s s' ∧
      AtStdout fds (gone ++ closed) (t'.closeAll (closedFds (newCalls s s'))) s' := by
  cases h with
  | keeps htasks hdoes =>
    rw [hopens.same hdoes.not_forked]
    refine ⟨_, _, hdoes, .next hdoes fun _ => ?_⟩
    cases hat with
    | kept hopen hfile => exact .kept hopen hfile
    | gone hclosed hfile => exact .gone hclosed hfile
    | piped hclosed ht hrz houtfd hfile => exact .piped hclosed (htasks ▸ ht) hrz houtfd hfile
  | @begins rz closed chstdin chstdout chstderr pid forks htasks hrz hforks hspec hdoes hends =>
    have hpipes := hopens.pipes (hdoes.forked hforks) hforks
    refine ⟨_, _, hdoes, .next hdoes fun hnot => ?_⟩
    have hchild : chstdin.1 ≠ 1 := by
      intro hone
      apply hnot
      apply hends
      rw [Kernel.childEnds, hforks]
      simp [hone]
    cases hat with
    | kept hopen hfile =>
      obtain hsame | ⟨-, hnone, -⟩ := childPipes_one hpipes hchild
      · exact .kept hopen (hsame.trans hfile)
      · exact absurd (hfile.symm.trans hnone) hstdout
    | gone hclosed hfile =>
      obtain hsame | ⟨hsecond, -, hpipe⟩ := childPipes_one hpipes hchild
      · exact .gone hclosed (hsame.trans hfile)
      · refine .piped hclosed (by rw [htasks]; exact List.mem_cons_self) hrz ?_ hpipe
        rw [hspec.2.1, hsecond]
        rfl
    | piped hclosed ht hrz' houtfd hfile =>
      obtain hsame | ⟨-, hnone, -⟩ := childPipes_one hpipes hchild
      · exact .piped hclosed (by rw [htasks]; exact List.mem_cons_of_mem rz ht) hrz' houtfd (hsame.trans hfile)
      · rw [hnone] at hfile
        cases hfile
  | @ends rz htasks hrz hdoes =>
    rw [hopens.same hdoes.not_forked]
    refine ⟨_, _, hdoes, .next hdoes fun hnot => ?_⟩
    cases hat with
    | kept hopen hfile => exact .kept hopen hfile
    | gone hclosed hfile => exact .gone hclosed hfile
    | piped hclosed ht hrz' houtfd hfile =>
      rw [htasks] at ht
      obtain rfl | ht := List.mem_cons.mp ht
      · exact absurd (mem_fds.mpr ⟨.inr (.inl houtfd.symm), by decide⟩) hnot
      · exact .piped hclosed ht hrz' houtfd hfile

theorem tableRun_atStdout (h₀ : fds.Starts s₀) (hstdout : fds.table.file 1 ≠ none) (run : TableRun fds s₀ t s) :
    ∃ n closed, Does (fun _ => True) n closed s₀ s ∧ AtStdout fds closed t s := by
  induction run with
  | @install s h =>
    have hinstall := taskInstall_kernel (echoScannerCreateSpec s₀).2 (echoScannerCreateSpec s₀).1
    rw [show taskInstall (echoScannerCreateSpec s₀).2 (echoScannerCreateSpec s₀).1 = .ok s from h] at hinstall
    have hkernel : s.kernel = s₀.kernel := hinstall
    exact ⟨0, [], .of_kernel hkernel, .kept List.not_mem_nil rfl⟩
  | next run m hown _ h hopens ih =>
    obtain ⟨n, gone, hdoes, hat⟩ := ih
    obtain ⟨mode, hmode⟩ := sessionRun_inMode h₀.started run.session
    have hwf := programRun_wf h₀.started run.session.program
    have hdeals := move_deals hwf (tableRun_placed h₀ run) hmode hown h
    obtain ⟨n', closed, hdoes', hat'⟩ := hdeals.atStdout hat hstdout hopens
    exact ⟨_, _, hdoes.trans hdoes', hat'⟩

/-- During a transfer there is always a number for the status line to go to, and it is that of stdout. As long as
nobody has closed it, it is the stdout that rzh has been started with. From then on the line goes nowhere, or to the
receive process, as if the sender had sent it. -/
theorem tableRun_status (h₀ : fds.Starts s₀) (hstdout : fds.table.file 1 ≠ none) (run : TableRun fds s₀ t s)
    (htransfer : InMode s .transfer) :
    statusFd s = some 1 ∧
      (1 ∉ closings (newCalls s₀ s) → t.file 1 = fds.table.file 1) ∧
      (1 ∈ closings (newCalls s₀ s) → t.file 1 = none ∨
        ∃ rz ∈ s.tasks.head?, rz.spec.outfd = 1 ∧ ∃ transfer, t.file 1 = some (.pipeEnd transfer .chstdin true)) := by
  obtain ⟨n, closed, hdoes, hat⟩ := tableRun_atStdout h₀ hstdout run
  rw [hdoes.newCalls]
  cases htransfer with
  | @transfer rz echo a b htasks hrz hecho =>
    refine ⟨?_, fun hopen => ?_, fun hclosed => ?_⟩
    · obtain ⟨_, he⟩ := hecho
      rw [statusFd, htasks]
      change some echo.spec.outfd = some 1
      rw [he]
      rfl
    · cases hat with
      | kept _ hfile => exact hfile
      | gone hclosed => exact absurd hclosed hopen
      | piped hclosed => exact absurd hclosed hopen
    · cases hat with
      | kept hopen => exact absurd hclosed hopen
      | gone _ hfile => exact .inl hfile
      | piped _ ht hrz' houtfd hfile =>
        rw [htasks] at ht ⊢
        obtain rfl | ht := List.mem_cons.mp ht
        · exact .inr ⟨_, rfl, houtfd, _, hfile⟩
        · obtain rfl := List.mem_singleton.mp ht
          exact absurd hrz' hecho.not_receiver

/-- stdin ends and stdout breaks, and then a transfer begins. -/
def brokenStdio : Kernel where
  reads := [.eof, .data 65 [66], .data chStar [chStar, chCan, chB, ch0, ch0]]
  writes := [.fail .epipe, .accept 2, .accept 6]
  forks := [.child (0, 1) (5, 6) (7, 8) 99]
  errno := none
  trace := []

/-- The table after a move, if it does not fork. -/
def tableAfter (t : FdTable OpenFile) (s s' : Sys) : FdTable OpenFile := t.closeAll (closedFds (newCalls s s'))

/-- The numbers of stdin and stdout are those of the first pipe to rz. -/
theorem tableRun_status_misled : ∃ s₀ t s, stdioFds.Starts s₀ ∧ TableRun stdioFds s₀ t s ∧ InMode s .transfer ∧
    statusFd s = some 1 ∧ t.file 1 = some (.pipeEnd 1 .chstdin true) := by
  let opened (t : FdTable OpenFile) (s : Sys) := (t.openFiles (childPipes s.kernel.forks.length)).2
  obtain ⟨s₀, h₀, htest⟩ := Result.ok_of_passes (show
    (masterPipeInit (blank brokenStdio) 3 inmaFifoSize maouFifoSize inmaFifoSize_pos maouFifoSize_pos).passes
      (fun s₀ => (step s₀ .echoScanner).passes fun s₁ => (pipeAutoRead s₁ .inputMaster).passes fun s₂ =>
        (pipeAutoRead s₂ .masterOutput).passes fun s₃ => (pipeAutoRead s₃ .masterOutput).passes fun s₄ =>
          let t₂ := tableAfter stdioFds.table s₁ s₂
          let t₃ := tableAfter t₂ s₂ s₃
          (¬ Forked s₁ s₂ ∧ ¬ Forked s₂ s₃ ∧ Opens t₃ s₃ s₄ (opened t₃ s₃)) ∧ s₄.tasks.length = 2 ∧
            (tableAfter (opened t₃ s₃) s₃ s₄).file 1 = some (.pipeEnd 1 .chstdin true)) = true by decide +kernel)
  obtain ⟨s₁, h₁, htest⟩ := Result.ok_of_passes htest
  obtain ⟨s₂, h₂, htest⟩ := Result.ok_of_passes htest
  obtain ⟨s₃, h₃, htest⟩ := Result.ok_of_passes htest
  obtain ⟨s₄, h₄, htest⟩ := Result.ok_of_passes htest
  obtain ⟨⟨hnot₁, hnot₂, hopens⟩, hlength, hfile⟩ := of_decide_eq_true htest
  have hstarts : stdioFds.Starts s₀ := ⟨_, _, _, _, _, ⟨rfl, rfl⟩, h₀⟩
  have hrun := (((TableRun.install h₁).next (.event (.autoRead .inputMaster)) trivial trivial h₂ (.still hnot₁)).next
    (.event (.autoRead .masterOutput)) trivial trivial h₃ (.still hnot₂)).next
    (.event (.autoRead .masterOutput)) trivial trivial h₄ hopens
  have htransfer : InMode s₄ .transfer := by
    obtain ⟨mode, hmode⟩ := sessionRun_inMode hstarts.started hrun.session
    exact hmode.of_depth hlength
  exact ⟨s₀, _, s₄, hstarts, hrun, htransfer, (tableRun_status hstarts (by decide +kernel) hrun htransfer).1, hfile⟩

end Stdout

end Rzh
