import Rzh.Drain
import Rzh.Wiring

/-!
# What ends the program

What main() calls over and over: the idle proc, the callbacks of io_dispatch and the handlers of an
exit. None of them follows a pointer that is NULL or leads to something else, and what ends the program
otherwise is known.
-/
namespace Rzh

open Sys

/-- What the main loop calls. For the idle proc a line may be due. -/
inductive MainCall where
  | ioProc (a : AtomRef) (flags : List Interest)
  | masterIdle (line : Option (List UInt8))
  | taskDispatchSigchild (pid : Int)
  deriving DecidableEq

/-- The loops in it come to an end after `n` rounds, or not at all. -/
def MainCall.run (n : Nat) (stChildPid : Int) (s : Sys) : MainCall → Looping Sys
  | .ioProc a flags => liftM (Rzh.ioProc s a flags)
  | .masterIdle line => do
    let (s, _) ← Rzh.masterIdle n line s
    pure s
  | .taskDispatchSigchild pid => Rzh.taskDispatchSigchild n stChildPid s pid

/-- io_dispatch finds an atom in the registry, and calls it for what it waits for. A pid comes from
waitpid(). -/
def MainCall.Called (s : Sys) : MainCall → Prop
  | .ioProc a flags => ∃ fd : Nat, s.io.connections fd = some a ∧ ∀ i ∈ flags, s.io.wants i fd = true
  | .masterIdle _ => True
  | .taskDispatchSigchild pid => 0 < pid

/-- The states that the main loop gets to. -/
inductive LoopRun (stChildPid : Int) (s₀ : Sys) : Sys → Prop where
  | install {s : Sys} (h : step s₀ .echoScanner = .ok s) : LoopRun stChildPid s₀ s
  | next {s s' : Sys} (run : LoopRun stChildPid s₀ s) (c : MainCall) (hcalled : c.Called s) (n : Nat)
    (h : c.run n stChildPid s = some (.ok s')) : LoopRun stChildPid s₀ s'

/-- The calls that are to end the program: the shell has exited, or the master has been closed. -/
def MainCall.Last (stChildPid : Int) (s : Sys) : MainCall → Prop
  | .ioProc _ _ => False
  | .masterIdle _ => (s.atoms .master).fd < 0
  | .taskDispatchSigchild pid => pid = stChildPid

/-- The last task has been removed. -/
def Finished (e : Halt × Sys) : Prop := e.1 = .bail 0 ∧ e.2.tasks = []

/-- What ends the program in a call of the main loop: it is to end, or the master was read while the echo task was
alone and a transfer cannot begin, or a ring has no room where pipe.c asserts that it has. -/
inductive Ends (stChildPid : Int) (s : Sys) (c : MainCall) (e : Halt × Sys) : Prop where
  | finished (hlast : c.Last stChildPid s) (h : Finished e)
  | noTransfer {flags : List Interest} (hread : c = .ioProc .master flags ∧ .read ∈ flags) (hmode : InMode s .echo)
      (hstart : StartsTask s .masterOutput (packet s)) (hbails : Bails s.kernel.startFails e)
  | noRoom (p : PipeRef) (hroom : NoRoom p e)

theorem ReadFails.noRoom_of_inputMaster {s : Sys} {mode : Mode} (e : Halt × Sys)
    (h : ReadFails s mode .inputMaster e) : NoRoom .inputMaster e := by
  cases h with
  | noTransfer h => cases h.pipe
  | noRoom hfull he =>
    subst he
    exact ⟨rfl, hfull⟩

section Receivers

variable {s s' : Sys} {mode : Mode}

theorem IsReceiver.spec {spec : TaskSpec} (h : IsReceiver spec) :
    (∃ addr, spec.versoUse = (.typingIoProc, .verso addr)) ∧ spec.errProc = some .cherrProc ∧
      spec.idleProc = some .idleProc ∧ ∃ idle, spec.idleRefcon = some idle := by
  obtain ⟨s, infd, outfd, errfd, pid, rfl⟩ := h
  exact ⟨⟨_, rfl⟩, rfl, rfl, _, rfl⟩

theorem IsScanner.spec {spec : TaskSpec} (h : IsScanner spec) :
    spec.childPid = -1 ∧ spec.errProc = none ∧ spec.idleProc = none := by
  obtain ⟨s, rfl⟩ := h
  exact ⟨rfl, rfl, rfl⟩

/-- What the task on top has to say does not change the stack. -/
theorem pipeAutoRead_keepsTasks (hwf : s.WF) (hmode : InMode s mode) (h : pipeAutoRead s .inputMaster = .ok s') :
    s'.tasks = s.tasks := by
  have hmode' : InMode s' mode := by
    obtain hsame | ⟨-, hne, -, -⟩ := (pipeAutoRead_mode hwf hmode .inputMaster).of_ok h
    · exact hsame
    · cases hne
  obtain hsame | ⟨t, hcons⟩ := pipeAutoRead_tasks hwf h
  · exact hsame
  · have hlength := hmode'.depth.trans hmode.depth.symm
    rw [hcons, List.length_cons] at hlength
    omega

/-- A key that cancels finds a task to terminate. -/
theorem parseTyping_total (hne : s.tasks ≠ []) (addr : Nat) (buf : List UInt8) :
    ∃ s', parseTyping s (.verso addr) buf = .ok s' := by
  induction buf generalizing s with
  | nil => exact ⟨s, rfl⟩
  | cons c cs ih =>
    rw [parseTyping]
    split
    · obtain ⟨s₁, hterm, hsame⟩ := taskTerminate_same hne
      rw [hterm]
      exact ih (by rw [hsame.tasks]; exact hne)
    · exact ih hne

end Receivers

section Loops

variable {s₀ s s' : Sys} {mode : Mode} {a : AtomRef} {flags : List Interest}

/-- What is known of every state between two moves. -/
structure Fit (s₀ s : Sys) : Prop where
  run : SessionRun s₀ s
  wf : s.WF
  wired : Wired s
  aimed : Aimed s
  spliced : Spliced s
  known : Known s.tasks s
  mode : ∃ mode, InMode s mode

theorem SessionRun.fit (h₀ : Started s₀) (hknown : Known s₀.tasks s₀) (run : SessionRun s₀ s) : Fit s₀ s where
  run := run
  wf := programRun_wf h₀ run.program
  wired := programRun_wired h₀ run.program
  aimed := programRun_aimed h₀ run.program
  spliced := stackRun_spliced h₀ (programRun_stackRun h₀ run.program)
  known := lasting_known.run h₀ hknown run.program
  mode := sessionRun_inMode h₀ run

/-- A move of the program's own leads from one such state to the next. -/
theorem Fit.next (hs : Fit s₀ s) (h₀ : Started s₀) (hknown : Known s₀.tasks s₀) (m : Move) (hown : m.Own)
    (hcalled : m.Called s) (h : m.run s = .ok s') : Fit s₀ s' :=
  (hs.run.next m hown hcalled h).fit h₀ hknown

/-- The reader of the task on top is an end of the pipe, and that of a task below the verso proc's. -/
theorem Fit.reader_use (hs : Fit s₀ s) (hmode : InMode s mode) {task : TaskState} (ht : task ∈ s.tasks)
    (hl : s.live (.read task.addr)) :
    (s.atoms (.read task.addr)).use = pipeEnd ∨
      ∃ addr, (s.atoms (.read task.addr)).use = (.typingIoProc, .verso addr) := by
  cases hmode with
  | echo htasks =>
    rw [htasks] at ht
    obtain rfl := List.mem_singleton.mp ht
    exact .inl (hs.spliced.head _ _ htasks hl)
  | @transfer rz echo _ _ htasks hrz =>
    rw [htasks] at ht
    obtain rfl | ht := List.mem_cons.mp ht
    · exact .inl (hs.spliced.head _ _ htasks hl)
    · obtain rfl := List.mem_singleton.mp ht
      obtain ⟨addr, hverso⟩ := hrz.spec.1
      exact .inr ⟨addr, (hs.spliced.below [] rz task [] htasks hl).trans hverso⟩

/-- No task but a receive process has an atom for its stderr. -/
theorem Fit.err_proc (hs : Fit s₀ s) (hmode : InMode s mode) {task : TaskState} (ht : task ∈ s.tasks)
    (hl : s.live (.err task.addr)) : (s.atoms (.err task.addr)).proc = .cherrProc := by
  have herr := hs.wired.err task ht hl
  cases hmode with
  | echo htasks hecho =>
    rw [htasks] at ht
    obtain rfl := List.mem_singleton.mp ht
    rw [hecho.spec.2.1] at herr
    cases herr
  | transfer htasks hrz hecho =>
    rw [htasks] at ht
    obtain rfl | ht := List.mem_cons.mp ht
    · rw [hrz.spec.2.1] at herr
      exact (Option.some.inj herr).symm
    · obtain rfl := List.mem_singleton.mp ht
      rw [hecho.spec.2.1] at herr
      cases herr

variable (h₀ : Started s₀) (hknown : Known s₀.tasks s₀)

include h₀ hknown

theorem pipeAutoRead_within (hs : Fit s₀ s) (hmode : InMode s mode) (p : PipeRef) :
    Within (ReadFails s mode p) (Fit s₀) (pipeAutoRead s p) :=
  (pipeAutoRead_mode hs.wf hmode p).mono (fun _ h => h) fun _ h _ =>
    hs.next h₀ hknown (.event (.autoRead p)) trivial trivial h

theorem pipeAutoWrite_within (hs : Fit s₀ s) (p : PipeRef) :
    Within (NoRoom p) (Fit s₀) (pipeAutoWrite s p) := by
  obtain ⟨mode, hmode⟩ := hs.mode
  exact (pipeAutoWrite_mode hs.wf hmode p).mono (fun _ h => h) fun _ h _ =>
    hs.next h₀ hknown (.event (.autoWrite p)) trivial trivial h

theorem taskRemove_within (hs : Fit s₀ s) (hmode : InMode s mode) :
    Within (fun e => mode = .echo ∧ Finished e) (Fit s₀) (taskRemove s) :=
  (taskRemove_mode hs.wf hmode).mono (fun _ h => h) fun _ h _ =>
    hs.next h₀ hknown (.event .remove) trivial trivial h

theorem finalWrite_within (hs : Fit s₀ s) : ∃ s', finalWrite s = .ok s' ∧ Fit s₀ s' ∧ s'.tasks = s.tasks := by
  obtain ⟨s', h, -⟩ := finalWrite_total hs.wf .master
  refine ⟨s', h, hs.next h₀ hknown .finalWrite trivial trivial h, ?_⟩
  obtain ⟨w, -, ⟨rfl, -⟩ | rfl⟩ := finalWrite_ok h
  · rfl
  · rfl

/-- pipe_io_proc serves the pipes that its atom points to, the one after the other. -/
theorem pipeIoProc_within {E : Halt × Sys → Prop} (hs : Fit s₀ s) (hmode : InMode s mode)
    (hread : .read ∈ flags → ∃ p, (s.atoms a).readPipe = .pipe p ∧ ∀ e, ReadFails s mode p e → E e)
    (hwrite : ∀ s', Fit s₀ s' → s' = s ∨ .read ∈ flags → .write ∈ flags → ∃ q, (s'.atoms a).writePipe = some q)
    (hroom : ∀ p e, NoRoom p e → E e) : Within E (Fit s₀) (pipeIoProc s a flags) := by
  have hsecond : ∀ s', Fit s₀ s' → s' = s ∨ .read ∈ flags → .write ∈ flags →
      ∃ q, (s'.atoms a).writePipe = some q ∧ Within E (Fit s₀) (pipeAutoWrite s' q) := by
    intro s' hs' hsame hmem
    obtain ⟨q, hq⟩ := hwrite s' hs' hsame hmem
    exact ⟨q, hq, (pipeAutoWrite_within h₀ hknown hs' q).mono (hroom q) fun _ _ h => h⟩
  rw [pipeIoProc]
  split
  · next hmem =>
    obtain ⟨p, hp, hfails⟩ := hread hmem
    rw [hp]
    apply ((pipeAutoRead_within h₀ hknown hs hmode p).mono hfails fun _ _ h => h).bind
    intro s' hs'
    split
    · next hmem' =>
      obtain ⟨q, hq, hwithin⟩ := hsecond s' hs' (.inr hmem) hmem'
      simp only [hq]
      exact hwithin
    · exact hs'
  · apply Within.bind (P := (· = s)) (x := .ok s) rfl
    rintro s' rfl
    split
    · next hmem' =>
      obtain ⟨q, hq, hwithin⟩ := hsecond s' hs (.inl rfl) hmem'
      simp only [hq]
      exact hwithin
    · exact hs

theorem typingIoProc_within {E : Halt × Sys → Prop} (hs : Fit s₀ s) {addr : Nat}
    (hverso : (s.atoms a).readPipe = .verso addr) : Within E (Fit s₀) (typingIoProc s a flags) := by
  obtain ⟨mode, hmode⟩ := hs.mode
  by_cases hread : Interest.read ∈ flags
  · have hmove : typingIoProc s a flags = Move.run s (.typing a) := by
      rw [Move.run, typingIoProc, typingIoProc, if_pos hread, if_pos (by simp)]
    obtain ⟨s', hs'⟩ : ∃ s', Move.run s (.typing a) = .ok s' := by
      rw [Move.run, typingIoProc, if_pos (by simp)]
      simp only [hverso]
      apply parseTyping_total
      exact hmode.tasks_ne_nil
    rw [hmove, hs']
    exact hs.next h₀ hknown (.typing a) trivial trivial hs'
  · rw [typingIoProc, if_neg hread]
    exact hs

theorem cherrProc_within {E : Halt × Sys → Prop} (hs : Fit s₀ s) (hheld : s.Held a) :
    Within E (Fit s₀) (cherrProc s a flags) := by
  by_cases hread : Interest.read ∈ flags
  · have hmove : cherrProc s a flags = Move.run s (.cherr a) := by
      rw [Move.run, cherrProc, cherrProc, if_pos hread, if_pos (by simp)]
    obtain ⟨s', hs'⟩ : ∃ s', Move.run s (.cherr a) = .ok s' := by
      rw [Move.run, cherrProc, if_pos (by simp)]
      simp only
      split
      · exact ⟨_, rfl⟩
      · exact ⟨_, rfl⟩
    rw [hmove, hs']
    exact hs.next h₀ hknown (.cherr a) trivial hheld hs'
  · rw [cherrProc, if_neg hread]
    exact hs

/-- A callback that is called for what its atom waits for finds what it points to. -/
theorem ioProc_within (stChildPid : Int) (hs : Fit s₀ s) (huse : InUse s.tasks a) (hl : s.live a)
    (hwants : ∀ i ∈ flags, s.wants i a = true) :
    Within (Ends stChildPid s (.ioProc a flags)) (Fit s₀) (ioProc s a flags) := by
  obtain ⟨mode, hmode⟩ := hs.mode
  have haim : ∀ i ∈ flags, a.Serves i := fun i hi => hs.aimed a huse i (hwants i hi)
  rw [ioProc]
  cases huse with
  | master =>
    rw [hs.wired.master.1]
    refine pipeIoProc_within h₀ hknown hs hmode (fun hmem => ⟨_, hs.wired.master.2.1, ?_⟩)
      (fun s' hs' _ _ => ⟨_, hs'.wired.master.2.2⟩) fun p e => .noRoom p
    rintro e (⟨rfl, -, hstart, hbails⟩ | ⟨hfull, rfl⟩)
    · exact .noTransfer ⟨rfl, hmem⟩ hmode hstart hbails
    · exact .noRoom _ ⟨rfl, hfull⟩
  | @read task ht =>
    have hnever : Interest.write ∉ flags := by
      intro hmem
      cases haim .write hmem
    obtain huse | ⟨addr, huse⟩ := hs.reader_use hmode ht hl
    · have hproc : (s.atoms (.read task.addr)).proc = .pipeIoProc := congrArg Prod.fst huse
      rw [hproc]
      refine pipeIoProc_within h₀ hknown hs hmode (fun _ => ⟨.inputMaster, congrArg Prod.snd huse, ?_⟩)
        (fun s' _ _ hmem => absurd hmem hnever) fun p e => .noRoom p
      exact fun e he => .noRoom .inputMaster (he.noRoom_of_inputMaster e)
    · have hproc : (s.atoms (.read task.addr)).proc = .typingIoProc := congrArg Prod.fst huse
      rw [hproc]
      exact typingIoProc_within h₀ hknown hs (congrArg Prod.snd huse)
  | @write task ht =>
    have hnever : Interest.read ∉ flags := by
      intro hmem
      cases haim .read hmem
    obtain ⟨hproc, hpipe⟩ := hs.wired.writer task ht hl
    rw [hproc]
    refine pipeIoProc_within h₀ hknown hs hmode (fun hmem => absurd hmem hnever) ?_ fun p e => .noRoom p
    intro s' _ hsame _
    obtain rfl | hmem := hsame
    · exact ⟨_, hpipe⟩
    · exact absurd hmem hnever
  | @err task ht =>
    rw [hs.err_proc hmode ht hl]
    exact cherrProc_within h₀ hknown hs (hs.wf.held _ (.err ht))

/-- What is known while the top task's output is drained: the stack stays as it is. -/
def Emptying (s₀ : Sys) (rz echo : TaskState) (s : Sys) : Prop := Fit s₀ s ∧ s.tasks = [rz, echo]

theorem readRound_within {rz echo : TaskState} (hs : Emptying s₀ rz echo s) :
    Within (NoRoom .inputMaster) (Emptying s₀ rz echo) (pipeIoProc s (.read rz.addr) [.read]) := by
  obtain ⟨hfit, htasks⟩ := hs
  obtain ⟨mode, hmode⟩ := hfit.mode
  have hproc : pipeIoProc s (.read rz.addr) [.read] = pipeAutoRead s .inputMaster := by
    have hnever : Interest.write ∉ [Interest.read] := by decide
    rw [pipeIoProc, if_pos (List.mem_singleton_self _), hfit.wired.reader rz [echo] htasks]
    simp only [if_neg hnever]
    exact bind_pure (pipeAutoRead s .inputMaster)
  rw [hproc]
  apply (pipeAutoRead_within h₀ hknown hfit hmode .inputMaster).mono ReadFails.noRoom_of_inputMaster
  exact fun s' h hs' => ⟨hs', (pipeAutoRead_keepsTasks hfit.wf hmode h).trans htasks⟩

theorem readOut_within {rz echo : TaskState} (n : Nat) (hs : Emptying s₀ rz echo s) :
    LoopWithin (NoRoom .inputMaster) (Emptying s₀ rz echo) (readOut n s (.read rz.addr)) := by
  refine LoopWithin.rounds (f := fun n s => readOut n s (.read rz.addr)) (fun _ => rfl) ?_ n hs
  intro n s hs ih
  rw [readOut]
  split
  · exact .pure hs
  · exact (LoopWithin.once (readRound_within h₀ hknown hs)).bind ih

theorem drainReader_within {rz echo : TaskState} (n : Nat) (hs : Emptying s₀ rz echo s) :
    LoopWithin (NoRoom .inputMaster) (Emptying s₀ rz echo) (drainReader n s (.read rz.addr)) := by
  refine LoopWithin.rounds (f := fun n s => drainReader n s (.read rz.addr)) (fun _ => rfl) ?_ n hs
  intro n s hs ih
  rw [drainReader]
  split
  · exact .pure hs
  · apply (readOut_within h₀ hknown n hs).bind
    intro s₁ hs₁
    have hwrite : Within (NoRoom .inputMaster) (Emptying s₀ rz echo) (finalWrite s₁) := by
      obtain ⟨s₂, h₂, hfit, hsame⟩ := finalWrite_within h₀ hknown hs₁.1
      rw [h₂]
      exact ⟨hfit, hsame.trans hs₁.2⟩
    exact (LoopWithin.once hwrite).bind ih

theorem taskDefaultSigchild_within {rz echo : TaskState} (n : Nat) (pid : Int) (hs : Emptying s₀ rz echo s) :
    LoopWithin (NoRoom .inputMaster) (Fit s₀) (taskDefaultSigchild n s rz.spec pid) := by
  rw [taskDefaultSigchild]
  split
  · exact .pure hs.1
  · have hfind : LoopWithin (NoRoom .inputMaster) (· = some rz) (masterPipeFindTask n s rz.spec) := by
      cases n with
      | zero => exact .unfinished
      | succ n =>
        rw [masterPipeFindTask_top ⟨[echo], hs.2⟩ n]
        exact .pure rfl
    apply hfind.bind
    rintro found rfl
    apply (drainReader_within h₀ hknown n hs).bind
    intro s₁ hs₁
    simp only [hs₁.2, if_pos]
    obtain ⟨mode, hmode⟩ := hs₁.1.mode
    have htransfer : InMode s₁ .transfer := hmode.of_depth (congrArg List.length hs₁.2)
    apply LoopWithin.once
    apply (taskRemove_within h₀ hknown hs₁.1 htransfer).mono _ fun _ _ h => h
    rintro e ⟨hecho, -⟩
    cases hecho

omit h₀ hknown in
/-- The child of the echo task is none of those that exit. -/
theorem scannerSigchild_within {echo : TaskState} (n : Nat) {pid : Int} (hpid : 0 < pid) (hecho : IsScanner echo.spec)
    (hs : Fit s₀ s) : LoopWithin (NoRoom .inputMaster) (Fit s₀) (taskDefaultSigchild n s echo.spec pid) := by
  rw [taskDefaultSigchild, if_pos]
  · exact .pure hs
  · rw [hecho.spec.1]
    omega

theorem sigchildProcs_within (n : Nat) {pid : Int} (hpid : 0 < pid) (hs : Fit s₀ s) :
    LoopWithin (NoRoom .inputMaster) (Fit s₀) (sigchildProcs n pid s s.tasks) := by
  obtain ⟨mode, hmode⟩ := hs.mode
  cases hmode with
  | echo htasks hecho =>
    rw [htasks, sigchildProcs]
    exact (scannerSigchild_within n hpid hecho hs).bind fun s' hs' => .pure hs'
  | @transfer rz echo _ _ htasks hrz hecho =>
    rw [htasks, sigchildProcs]
    apply (taskDefaultSigchild_within h₀ hknown n pid ⟨hs, htasks⟩).bind
    intro s' hs'
    exact (scannerSigchild_within n hpid hecho hs').bind fun s' hs' => .pure hs'

theorem removeAll_within (n : Nat) (hs : Fit s₀ s) : LoopWithin Finished (Fit s₀) (removeAll n s) := by
  refine LoopWithin.rounds (f := removeAll) (fun _ => rfl) ?_ n hs
  intro n s hs ih
  rw [removeAll]
  obtain ⟨mode, hmode⟩ := hs.mode
  split
  · exact .pure hs
  ·
    have hremove : Within Finished (Fit s₀) (taskRemove s) :=
      (taskRemove_within h₀ hknown hs hmode).mono (fun _ h => h.2) fun _ _ h => h
    exact (LoopWithin.once hremove).bind ih

omit h₀ hknown in
/-- The echo task has no idle proc, and that of a receive process finds the task below. -/
theorem masterIdleRest_total (hmode : InMode s mode) (line : Option (List UInt8)) :
    ∃ written, masterIdleRest s line = .ok written := by
  cases hmode with
  | echo htasks hecho =>
    rw [masterIdleRest, htasks]
    simp only [hecho.spec.2.2]
    exact ⟨none, rfl⟩
  | @transfer rz echo _ _ htasks hrz hecho =>
    obtain ⟨hproc, idle, hrefcon⟩ := hrz.spec.2.2
    have hstatus : statusFd s = some echo.spec.outfd := by
      rw [statusFd, htasks]
      rfl
    rw [masterIdleRest, htasks]
    simp only [hproc, idleProcWrites, hrefcon, hstatus]
    by_cases hquiet : s.optQuiet = true
    · rw [if_pos hquiet]
      exact ⟨none, rfl⟩
    · rw [if_neg hquiet]
      cases line with
      | none => exact ⟨none, rfl⟩
      | some line => exact ⟨_, rfl⟩

/-- Whatever the main loop calls keeps what is known, or ends the program for one of the reasons. -/
theorem mainCall_within {c : MainCall} (n : Nat) (stChildPid : Int) (hs : Fit s₀ s) (hcalled : c.Called s) :
    LoopWithin (Ends stChildPid s c) (Fit s₀) (c.run n stChildPid s) := by
  cases c with
  | ioProc a flags =>
    obtain ⟨fd, hconn, hwants⟩ := hcalled
    obtain ⟨huse, hfd⟩ := hs.known fd a hconn
    apply LoopWithin.once
    apply ioProc_within h₀ hknown stChildPid hs huse
    · rw [Sys.live, hfd]
      exact Int.natCast_nonneg fd
    · rw [← hfd] at hwants
      exact hwants
  | masterIdle line =>
    rw [MainCall.run, masterIdle]
    have hremoved : LoopWithin (Ends stChildPid s (.masterIdle line)) (Fit s₀)
        (if (s.atoms .master).fd < 0 then removeAll n s else pure s) := by
      split
      · next hclosed =>
        exact (removeAll_within h₀ hknown n hs).mono (fun _ => .finished hclosed) fun _ h => h
      · exact .pure hs
    refine LoopWithin.bind (P := fun x => Fit s₀ x.1) (hremoved.bind fun s' hs' => ?_) fun x hx => .pure hx
    obtain ⟨mode, hmode⟩ := hs'.mode
    obtain ⟨written, hwritten⟩ := masterIdleRest_total hmode line
    rw [hwritten]
    exact .pure hs'
  | taskDispatchSigchild pid =>
    rw [MainCall.run, taskDispatchSigchild]
    apply ((sigchildProcs_within h₀ hknown n hcalled hs).mono (fun _ => .noRoom _) fun _ h => h).bind
    intro s' hs'
    rw [masterPipeSigchild]
    split
    · next hshell =>
      exact (removeAll_within h₀ hknown n hs').mono (fun _ => .finished hshell) fun _ h => h
    · exact .pure hs'

omit h₀ hknown in
/-- Whatever the main loop calls is made of moves. -/
theorem mainCall_played {c : MainCall} (n : Nat) (stChildPid : Int) (hs : Fit s₀ s) (hcalled : c.Called s) :
    PlayedLoop s₀ (c.run n stChildPid s) := by
  have hrun : ProgramRun s₀ s := hs.run.program
  cases c with
  | ioProc a flags =>
    obtain ⟨fd, hconn, -⟩ := hcalled
    have hheld : s.Held a := hs.wf.held a (hs.known fd a hconn).1
    exact LoopWithin.once (ioProc_played hrun hheld)
  | masterIdle line => exact (masterIdle_played n line hrun).bind fun _ hrun' => .pure hrun'
  | taskDispatchSigchild pid => exact taskDispatchSigchild_played n stChildPid pid hrun

theorem loopRun_fit {stChildPid : Int} (run : LoopRun stChildPid s₀ s) : Fit s₀ s := by
  induction run with
  | install h => exact (SessionRun.install h).fit h₀ hknown
  | next _ c hcalled n h ih => exact mainCall_within h₀ hknown n stChildPid ih hcalled _ h

end Loops

/-- In every state that the main loop gets to, whatever it calls next follows no pointer that is NULL or leads
to something else: no callback that is called for what its atom waits for, no idle proc and no handler
of an exit, however many rounds their loops make. -/
theorem loopRun_neverFaults {s₁ s₀ s : Sys} {fd : Int} {inma maou : Nat} {hinma : 0 < inma} {hmaou : 0 < maou}
    (hio : s₁.io = ioInit) (h₀ : masterPipeInit s₁ fd inma maou hinma hmaou = .ok s₀) (stChildPid : Int)
    (run : LoopRun stChildPid s₀ s) (c : MainCall) (hcalled : c.Called s) (n : Nat) (s' : Sys) :
    (c.run n stChildPid s).run ≠ some (.error (.segv, s')) := by
  have hstarted : Started s₀ := ⟨_, _, _, _, _, _, h₀⟩
  have hknown : Known s₀.tasks s₀ := by
    rw [(masterPipeInit_ok h₀).1]
    exact masterPipeInit_known hio h₀
  intro h
  cases mainCall_within hstarted hknown n stChildPid (loopRun_fit hstarted hknown run) hcalled _ h with
  | finished _ h => cases h.1
  | noTransfer _ _ _ hbails =>
    obtain ⟨val, -, hval⟩ := hbails
    cases hval
  | noRoom _ hroom => cases hroom.1

/-- The packet that begins a transfer is waiting, and the master is called for it. -/
theorem loopRun_neverFaults_taken : ∃ s₀ s, launch taken = .ok s₀ ∧ LoopRun 17 s₀ s ∧
    (MainCall.ioProc .master [.read]).Called s ∧
      ∀ n s', ((MainCall.ioProc .master [.read]).run n 17 s).run ≠ some (.error (.segv, s')) := by
  obtain ⟨s₀, h₀, htest⟩ := Result.ok_of_passes (show (launch taken).passes (fun s₀ =>
    (step s₀ .echoScanner).passes fun s => s.io.connections 5 = some .master ∧
      s.io.wants .read (5 : Nat) = true) = true by decide +kernel)
  obtain ⟨s, hs, htest⟩ := Result.ok_of_passes htest
  obtain ⟨hconn, hwants⟩ := of_decide_eq_true htest
  have hrun : LoopRun 17 s₀ s := .install hs
  have hcalled : (MainCall.ioProc .master [.read]).Called s := by
    refine ⟨5, hconn, fun i hi => ?_⟩
    obtain rfl := List.mem_singleton.mp hi
    exact hwants
  have hio : (blank taken).io = ioInit := rfl
  exact ⟨s₀, s, h₀, hrun, hcalled, fun n s' => loopRun_neverFaults hio h₀ 17 hrun _ hcalled n s'⟩

/-- The same, where no pipe to a child can be made. -/
def pipeless : Kernel := { taken with forks := [.fail 77] }

end Rzh
