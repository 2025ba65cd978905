import Rzh.MainLoop
import Rzh.Outcome
import Rzh.Silent

/-!
# The whole program

What io_dispatch calls for an atom, and what is done when a child has exited. All of it is made
of moves: the events of the main loop, the last write to the master, and the two procs of
rztask.c that end no pipe.
-/
namespace Rzh

open Sys

/-- ^C, ^X, ESC, q and Q. -/
def cancelKeys : List UInt8 := [3, 24, 27, 113, 81]

/-- The refcon is a task spec, whose master pipe is told to terminate its topmost task. -/
def parseTyping (s : Sys) (refcon : ReadPipe) : List UInt8 → Result Sys
  | [] => .ok s
  | c :: cs =>
    if c ∈ cancelKeys then
      match refcon with
      | .verso _ => do
        let s ← taskTerminate s
        parseTyping s refcon cs
      | _ => .error (.segv, s)
    else parseTyping s refcon cs

def typingIoProc (s : Sys) (a : AtomRef) (flags : List Interest) : Result Sys :=
  if .read ∈ flags then
    let (r, k) := s.kernel.read (s.atoms a).fd 128
    parseTyping { s with kernel := k } (s.atoms a).readPipe (r.getD [])
  else .ok s

/-- At the end of the file the atom is taken out of the registry, and its descriptor stays open. -/
def cherrProc (s : Sys) (a : AtomRef) (flags : List Interest) : Result Sys :=
  if .read ∈ flags then
    let (r, k) := s.kernel.read (s.atoms a).fd 512
    let s := { s with kernel := k }
    if r = some [] then
      let s := { s with io := (ioDel s.io (s.atoms a).fd).2 }
      .ok (s.setAtom a { s.atoms a with fd := -1 })
    else .ok s
  else .ok s

/-- The call that io_dispatch makes for an atom that is ready. -/
def ioProc (s : Sys) (a : AtomRef) (flags : List Interest) : Result Sys :=
  match (s.atoms a).proc with
  | .pipeIoProc => pipeIoProc s a flags
  | .typingIoProc => typingIoProc s a flags
  | .cherrProc => cherrProc s a flags

/-- What task_default_sigchild writes to the master itself, and does not count. -/
def finalWrite (s : Sys) : Result Sys := do
  let w ← s.writeAtom .inputMaster
  if 0 ≤ (s.atoms w).fd then
    let (_, f, k) := fifoWrite (s.fifo .inputMaster) (s.atoms w).fd s.kernel
    .ok (s.setFifo .inputMaster f k)
  else .ok s

/-- A stretch with a loop in it: it need not come to an end. -/
abbrev Looping (α : Type) := ExceptT (Halt × Sys) Option α

/-- What has not come to an end yet. -/
def unfinished {α : Type} : Looping α := ExceptT.mk none

/-- The inner loop of task_default_sigchild. -/
def readOut : Nat → Sys → AtomRef → Looping Sys
  | 0, _, _ => unfinished
  | n + 1, s, r =>
    if (s.atoms r).fd = -1 then pure s
    else do
      let s ← pipeIoProc s r [.read]
      readOut n s r

/-- The outer loop. -/
def drainReader : Nat → Sys → AtomRef → Looping Sys
  | 0, _, _ => unfinished
  | n + 1, s, r =>
    if (s.atoms r).fd = -1 then pure s
    else do
      let s ← readOut n s r
      let s ← finalWrite s
      drainReader n s r

/-- The loop does not go on to the next task. -/
def masterPipeFindTask : Nat → Sys → TaskSpec → Looping (Option TaskState)
  | 0, _, _ => unfinished
  | n + 1, s, spec =>
    match s.tasks with
    | [] => pure none
    | task :: _ => if task.spec.addr = spec.addr then pure (some task) else masterPipeFindTask n s spec

def taskDefaultSigchild (n : Nat) (s : Sys) (spec : TaskSpec) (pid : Int) : Looping Sys :=
  if pid ≠ spec.childPid then pure s
  else do
    match ← masterPipeFindTask n s spec with
    | none => throw (.abort, s)
    | some task =>
      let s ← drainReader n s (.read task.addr)
      match s.tasks with
      | [] => throw (.segv, s)
      | head :: _ => if spec.addr = head.spec.addr then taskRemove s else throw (.bail 43, s)

/-- The handlers of the tasks, from the top down. A task is looked up before the handler of the
one above it is called. -/
def sigchildProcs (n : Nat) (pid : Int) : Sys → List TaskState → Looping Sys
  | s, [] => pure s
  | s, task :: tasks => do
    let s ← taskDefaultSigchild n s task.spec pid
    sigchildProcs n pid s tasks

/-- All tasks are removed; the last one takes the program with it. -/
def removeAll : Nat → Sys → Looping Sys
  | 0, _ => unfinished
  | n + 1, s =>
    if s.tasks = [] then pure s
    else do
      let s ← taskRemove s
      removeAll n s

def masterPipeSigchild (n : Nat) (stChildPid : Int) (s : Sys) (pid : Int) : Looping Sys :=
  if pid = stChildPid then removeAll n s else pure s

def taskDispatchSigchild (n : Nat) (stChildPid : Int) (s : Sys) (pid : Int) : Looping Sys := do
  let s ← sigchildProcs n pid s s.tasks
  masterPipeSigchild n stChildPid s pid

/-- `task_head->next->spec->outfd`, if there is a next task. -/
def statusFd (s : Sys) : Option Int := (s.tasks[1]?).map fun task => task.spec.outfd

/-- What idle_proc() writes, and where to, if the line is due. The write goes past the fifos, and its
answer is not looked at. -/
def idleProcWrites (s : Sys) (spec : TaskSpec) (line : Option (List UInt8)) : Result (Option (Int × List UInt8)) :=
  if s.optQuiet then .ok none
  else
    match spec.idleRefcon, line with
    | none, _ => .error (.segv, s)
    | some _, none => .ok none
    | some _, some line =>
      match statusFd s with
      | some fd => .ok (some (fd, line))
      | none => .error (.segv, s)

/-- The end of master_idle: the idle proc of the topmost task, if it has one. -/
def masterIdleRest (s : Sys) (line : Option (List UInt8)) : Result (Option (Int × List UInt8)) :=
  match s.tasks with
  | [] => .error (.segv, s)
  | head :: _ =>
    match head.spec.idleProc with
    | none => .ok none
    | some .idleProc => idleProcWrites s head.spec line

/-- Without a master there is nothing left to do. -/
def masterIdle (n : Nat) (line : Option (List UInt8)) (s : Sys) : Looping (Sys × Option (Int × List UInt8)) := do
  let s ← (if (s.atoms .master).fd < 0 then removeAll n s else pure s)
  let written ← liftM (masterIdleRest s line)
  pure (s, written)

/-- Everything that the program does to its pipes, its tasks and its atoms. -/
inductive Move where
  | event (e : Event)
  | finalWrite
  | typing (a : AtomRef)
  | cherr (a : AtomRef)
  deriving DecidableEq

def Move.run (s : Sys) : Move → Result Sys
  | .event e => step s e
  | .finalWrite => Rzh.finalWrite s
  | .typing a => typingIoProc s a [.read]
  | .cherr a => cherrProc s a [.read]

/-- The pipe whose data a move writes. -/
def Move.pipe : Move → Option PipeRef
  | .event .echoScanner => none
  | .event (.autoRead p) => some p
  | .event (.autoWrite p) => some p
  | .event (.write p _) => some p
  | .event (.install _) => none
  | .event .remove => some .masterOutput
  | .finalWrite => some .inputMaster
  | .typing _ => none
  | .cherr _ => none

/-- io_dispatch calls no atom that is not registered. -/
def Move.Called (s : Sys) : Move → Prop
  | .cherr a => s.Held a
  | _ => True

/-- The states that moves lead to. -/
inductive ProgramRun (s₀ : Sys) : Sys → Prop where
  | start : ProgramRun s₀ s₀
  | next {s s' : Sys} (run : ProgramRun s₀ s) (m : Move) (hcalled : m.Called s)
    (h : m.run s = .ok s') : ProgramRun s₀ s'

theorem MainRun.program {s₀ s : Sys} (run : MainRun s₀ s) : ProgramRun s₀ s := by
  induction run with
  | start => exact .start
  | next _ e h ih => exact .next ih (.event e) trivial h

/-- The states that the program halts in: between two moves, or where a move halts it. -/
inductive HaltedRun (s₀ : Sys) : Sys → Prop where
  | between {s : Sys} (run : ProgramRun s₀ s) : HaltedRun s₀ s
  | within {s s' : Sys} {halt : Halt} (run : ProgramRun s₀ s) (m : Move) (hcalled : m.Called s)
    (h : m.run s = .error (halt, s')) : HaltedRun s₀ s'

/-- A stretch made of moves, up to where it gets or halts. -/
def Played (s₀ : Sys) : Result Sys → Prop := Within (fun e => HaltedRun s₀ e.2) (ProgramRun s₀)

/-- The same with loops, if it ends. -/
def PlayedLoop (s₀ : Sys) : Looping Sys → Prop := LoopWithin (fun e => HaltedRun s₀ e.2) (ProgramRun s₀)

section Play

variable {s₀ s s' : Sys} {a : AtomRef} {flags : List Interest}

theorem Played.move (run : ProgramRun s₀ s) (m : Move) (hcalled : m.Called s) : Played s₀ (m.run s) := by
  cases h : m.run s with
  | ok s' => exact ProgramRun.next run m hcalled h
  | error e => exact HaltedRun.within run m hcalled h

/-- What pipe_io_proc does is an event or two. -/
theorem pipeIoProc_played (run : ProgramRun s₀ s) : Played s₀ (pipeIoProc s a flags) := by
  rw [pipeIoProc]
  split
  · split
    · next p _ =>
      apply (Played.move run (.event (.autoRead p)) trivial).bind
      intro s run
      split
      · beta_reduce
        split
        · next p _ => exact Played.move run (.event (.autoWrite p)) trivial
        · exact HaltedRun.between run
      · exact run
    · exact HaltedRun.between run
  · apply Within.bind (P := ProgramRun s₀) (x := .ok s) run
    intro s run
    split
    · beta_reduce
      split
      · next p _ => exact Played.move run (.event (.autoWrite p)) trivial
      · exact HaltedRun.between run
    · exact run

/-- What io_dispatch calls for an atom that is registered is made of moves. -/
theorem ioProc_played (run : ProgramRun s₀ s) (hheld : s.Held a) : Played s₀ (ioProc s a flags) := by
  rw [ioProc]
  split
  · exact pipeIoProc_played run
  · by_cases hread : Interest.read ∈ flags
    · have hmove := Played.move run (.typing a) trivial
      rw [Move.run, typingIoProc, if_pos (by simp)] at hmove
      rw [typingIoProc, if_pos hread]
      exact hmove
    · rw [typingIoProc, if_neg hread]
      exact run
  · by_cases hread : Interest.read ∈ flags
    · have hmove := Played.move run (.cherr a) hheld
      rw [Move.run, cherrProc, if_pos (by simp)] at hmove
      rw [cherrProc, if_pos hread]
      exact hmove
    · rw [cherrProc, if_neg hread]
      exact run

theorem finalWrite_played (run : ProgramRun s₀ s) : Played s₀ (finalWrite s) := .move run .finalWrite trivial

theorem taskRemove_played (run : ProgramRun s₀ s) : Played s₀ (taskRemove s) :=
  .move run (.event .remove) trivial

theorem readOut_played (n : Nat) (run : ProgramRun s₀ s) (r : AtomRef) : PlayedLoop s₀ (readOut n s r) := by
  refine LoopWithin.rounds (f := fun n s => readOut n s r) (fun _ => rfl) ?_ n run
  intro n s run ih
  rw [readOut]
  split
  · exact .pure run
  · exact (LoopWithin.once (pipeIoProc_played run)).bind ih

theorem drainReader_played (n : Nat) (run : ProgramRun s₀ s) (r : AtomRef) :
    PlayedLoop s₀ (drainReader n s r) := by
  refine LoopWithin.rounds (f := fun n s => drainReader n s r) (fun _ => rfl) ?_ n run
  intro n s run ih
  rw [drainReader]
  split
  · exact .pure run
  · apply (readOut_played n run r).bind
    intro s run
    exact (LoopWithin.once (finalWrite_played run)).bind ih

/-- The search for a task does not halt. -/
theorem masterPipeFindTask_within (n : Nat) (spec : TaskSpec) :
    LoopWithin (fun _ => False) (fun _ => True) (masterPipeFindTask n s spec) := by
  induction n generalizing s with
  | zero => exact .unfinished
  | succ n ih =>
    rw [masterPipeFindTask]
    split
    · exact .pure trivial
    · split
      · exact .pure trivial
      · exact ih

theorem taskDefaultSigchild_played (n : Nat) (run : ProgramRun s₀ s) (spec : TaskSpec) (pid : Int) :
    PlayedLoop s₀ (taskDefaultSigchild n s spec pid) := by
  rw [taskDefaultSigchild]
  split
  · exact LoopWithin.pure run
  · apply ((masterPipeFindTask_within n spec).mono (fun _ => False.elim) fun _ h => h).bind
    intro found _
    cases found with
    | none => exact LoopWithin.throw (HaltedRun.between run)
    | some task =>
      apply (drainReader_played n run (.read task.addr)).bind
      intro s run
      split
      · exact LoopWithin.throw (HaltedRun.between run)
      · split
        · exact LoopWithin.once (taskRemove_played run)
        · exact LoopWithin.throw (HaltedRun.between run)

theorem sigchildProcs_played (n : Nat) (pid : Int) (run : ProgramRun s₀ s) (tasks : List TaskState) :
    PlayedLoop s₀ (sigchildProcs n pid s tasks) := by
  induction tasks generalizing s with
  | nil => exact LoopWithin.pure run
  | cons task tasks ih => exact (taskDefaultSigchild_played n run task.spec pid).bind fun s run => ih run

theorem removeAll_played (n : Nat) (run : ProgramRun s₀ s) : PlayedLoop s₀ (removeAll n s) := by
  refine LoopWithin.rounds (f := removeAll) (fun _ => rfl) ?_ n run
  intro n s run ih
  rw [removeAll]
  split
  · exact .pure run
  · exact (LoopWithin.once (taskRemove_played run)).bind ih

/-- What the exit of a child leads to is made of moves. -/
theorem taskDispatchSigchild_played (n : Nat) (stChildPid pid : Int) (run : ProgramRun s₀ s) :
    PlayedLoop s₀ (taskDispatchSigchild n stChildPid s pid) := by
  apply (sigchildProcs_played n pid run s.tasks).bind
  intro s run
  rw [masterPipeSigchild]
  split
  · exact removeAll_played n run
  · exact LoopWithin.pure run

/-- The idle proc leaves the pipes and the tasks alone. -/
theorem masterIdleRest_stays (s : Sys) (line : Option (List UInt8)) :
    Within (fun e => e.2 = s) (fun _ => True) (masterIdleRest s line) := by
  rw [masterIdleRest]
  cases s.tasks with
  | nil => exact rfl
  | cons head below =>
    simp only
    cases head.spec.idleProc with
    | none => exact trivial
    | some proc =>
      simp only [idleProcWrites]
      by_cases hquiet : s.optQuiet = true
      · rw [if_pos hquiet]
        exact trivial
      · rw [if_neg hquiet]
        cases head.spec.idleRefcon with
        | none => exact rfl
        | some idle =>
          cases line with
          | none => exact trivial
          | some line =>
            simp only
            cases statusFd s with
            | none => exact rfl
            | some fd => exact trivial

/-- What is done in front of the idle proc is made of moves. -/
theorem masterIdle_played (n : Nat) (line : Option (List UInt8)) (run : ProgramRun s₀ s) :
    LoopWithin (fun e => HaltedRun s₀ e.2) (fun x => ProgramRun s₀ x.1) (masterIdle n line s) := by
  have hremoved : PlayedLoop s₀ (if (s.atoms .master).fd < 0 then removeAll n s else pure s) := by
    split
    · exact removeAll_played n run
    · exact LoopWithin.pure run
  rw [masterIdle]
  apply hremoved.bind
  intro s run
  have hrest : Within (fun e => HaltedRun s₀ e.2) (fun _ => True) (masterIdleRest s line) := by
    refine (masterIdleRest_stays s line).mono ?_ fun _ _ h => h
    rintro ⟨halt, s'⟩ rfl
    exact .between run
  exact (LoopWithin.once hrest).bind fun _ _ => .pure run

end Play

/-- So many signals. -/
def Kernel.kills (k : Kernel) (pids : List Int) : Kernel := pids.foldl (fun k pid => k.log (.kill pid)) k

section Moves

variable {s₀ s s' : Sys} {a : AtomRef}

/-- The topmost task's child may be told to go, once for each key. -/
theorem parseTyping_ok {refcon : ReadPipe} {keys : List UInt8} (h : parseTyping s refcon keys = .ok s') :
    ∃ pids, s' = { s with kernel := s.kernel.kills pids } := by
  induction keys generalizing s with
  | nil =>
    cases h
    exact ⟨[], rfl⟩
  | cons c cs ih =>
    unfold parseTyping at h
    split at h
    · split at h
      · obtain ⟨s₁, h₁, h⟩ := Result.bind_ok h
        have hterm : ∃ pids, s₁ = { s with kernel := s.kernel.kills pids } := by
          rw [taskTerminate] at h₁
          split at h₁
          · cases h₁
          · next task _ _ =>
            split at h₁
            · cases h₁
              exact ⟨[task.spec.childPid], rfl⟩
            · cases h₁
              exact ⟨[], rfl⟩
        obtain ⟨pids, rfl⟩ := hterm
        obtain ⟨pids', rfl⟩ := ih h
        refine ⟨pids ++ pids', ?_⟩
        simp only [Kernel.kills, List.foldl_append]
      · cases h
    · exact ih h

/-- What is typed changes nothing but the kernel. -/
theorem typingIoProc_ok (h : typingIoProc s a [.read] = .ok s') :
    ∃ pids, s' = { s with kernel := (s.kernel.read (s.atoms a).fd 128).2.kills pids } := by
  rw [typingIoProc, if_pos (by simp)] at h
  obtain ⟨pids, rfl⟩ := parseTyping_ok h
  exact ⟨pids, rfl⟩

/-- The end of a child's stderr closes its atom; nothing else changes anything but the kernel. -/
theorem cherrProc_ok (h : cherrProc s a [.read] = .ok s') :
    MayClose a s s' ∧ s' = { s with
      kernel := (s.kernel.read (s.atoms a).fd 512).2, io := s'.io, atoms := s'.atoms } := by
  rw [cherrProc, if_pos (by simp)] at h
  generalize hread : s.kernel.read (s.atoms a).fd 512 = res at h ⊢
  obtain ⟨r, k⟩ := res
  simp only at h
  split at h
  · next heof =>
    have hlive : 0 ≤ (s.atoms a).fd := by
      by_contra hneg
      rw [Kernel.read, if_pos (by omega), heof] at hread
      cases hread
    cases h
    refine ⟨.closed ⟨?_, ?_⟩, rfl⟩
    · simp [closeAtom, pipeAtomDestroy, Sys.close, Sys.setAtom, hlive]
    · simp [closeAtom, pipeAtomDestroy, Sys.close, Sys.setAtom, hlive]
  · cases h
    exact ⟨.same ⟨rfl, rfl⟩, rfl⟩

theorem finalWrite_ok (h : finalWrite s = .ok s') :
    ∃ w, (s.pipes .inputMaster).writeAtom = some w ∧ (s' = s ∧ (s.atoms w).fd < 0 ∨
      s' = s.setFifo .inputMaster (fifoWrite (s.fifo .inputMaster) (s.atoms w).fd s.kernel).2.1
        (fifoWrite (s.fifo .inputMaster) (s.atoms w).fd s.kernel).2.2) := by
  obtain ⟨w, hw, h⟩ := Result.bind_ok h
  refine ⟨w, writeAtom_ok hw, ?_⟩
  split at h
  · cases h
    exact .inr rfl
  · next hneg =>
    cases h
    exact .inl ⟨rfl, by omega⟩

/-- No move disturbs the structure of the state. -/
theorem move_wf {m : Move} (hwf : s.WF) (hcalled : m.Called s) (h : m.run s = .ok s') : s'.WF := by
  cases m with
  | event e => exact step_wf hwf h
  | finalWrite =>
    obtain ⟨w, -, ⟨rfl, -⟩ | rfl⟩ := finalWrite_ok h
    · exact hwf
    · exact hwf.of_shape (shape_setFifo s _ _ _) fun a ha =>
        (sameAtoms_setFifo s _ _ _).held.mpr (hwf.held a ha)
  | typing a =>
    obtain ⟨pids, rfl⟩ := typingIoProc_ok h
    exact hwf.of_shape rfl hwf.held
  | cherr a =>
    obtain ⟨hclose, hrest⟩ := cherrProc_ok h
    refine hwf.of_shape ?_ fun b hb => hclose.held hcalled (hwf.held b hb)
    rw [hrest]
    rfl

theorem stable_tasks (p : PipeRef) (tasks : List TaskState) : Stable p fun s => s.tasks = tasks where
  flush h _ hf := (congrArg Shape.tasks hf.shape).trans h
  enable h _ _ := h
  disable h _ _ := h
  block h _ := h

/-- A read event installs at most one task. -/
theorem pipeAutoRead_tasks {p : PipeRef} (hwf : s.WF) (h : pipeAutoRead s p = .ok s') :
    s'.tasks = s.tasks ∨ ∃ t, s'.tasks = t :: s.tasks := by
  obtain ⟨r, s₁, s₂, -, -, heffect, hclose, hrest⟩ := pipeAutoRead_ok h
  have hafter : s'.tasks = s₁.tasks := by
    rw [(stable_tasks p s₂.tasks).readRest rfl hrest]
    obtain rfl | ⟨r', -, rfl⟩ := hclose
    · rfl
    · exact congrArg Shape.tasks (shape_closeAtom s₁ r')
  rw [hafter]
  cases heffect with
  | filtered h₁ => exact .inl h₁.tasks
  | @started s₃ s₄ _ spec _ h₁ _ h₂ h₃ =>
    have htasks : s₄.tasks = ⟨s₃.fresh, spec⟩ :: s₃.tasks := by rw [(taskInstall_ok (h₁.wf hwf) h₂).rest]
    rw [h₃.tasks, htasks, h₁.tasks]
    exact .inr ⟨_, rfl⟩

/-- No move but a removal takes a task off the stack. -/
theorem move_tasks {m : Move} (hwf : s.WF) (hm : m ≠ .event .remove) (h : m.run s = .ok s') :
    s'.tasks = s.tasks ∨ ∃ t, s'.tasks = t :: s.tasks := by
  have hinstall : ∀ {s : Sys} {spec : TaskSpec}, s.WF → taskInstall s spec = .ok s' →
      ∃ t, s'.tasks = t :: s.tasks := by
    intro s spec hwf h
    rw [(taskInstall_ok hwf h).rest]
    exact ⟨_, rfl⟩
  cases m with
  | event e =>
    cases e with
    | echoScanner =>
      have hfiltered := echoScannerCreateSpec_filtered s .masterOutput
      have hpushed := hinstall (hfiltered.wf hwf) h
      exact .inr hpushed
    | autoRead p => exact pipeAutoRead_tasks hwf h
    | autoWrite p =>
      exact .inl ((stable_tasks p s.tasks).autoWrite rfl h)
    | write p buf =>
      obtain ⟨⟨total, s₁⟩, hwrite, h⟩ := Result.bind_ok h
      cases h
      obtain ⟨w, hw, -⟩ := pipeWrite_ok hwrite
      exact .inl (pipeWrite_poured hw hwrite).tasks
    | install spec => exact .inr (hinstall hwf h)
    | remove => exact absurd rfl hm
  | finalWrite =>
    obtain ⟨w, -, ⟨rfl, -⟩ | rfl⟩ := finalWrite_ok h
    · exact .inl rfl
    · exact .inl rfl
  | typing a =>
    obtain ⟨pids, rfl⟩ := typingIoProc_ok h
    exact .inl rfl
  | cherr a =>
    obtain ⟨-, hrest⟩ := cherrProc_ok h
    rw [hrest]
    exact .inl rfl

theorem programRun_wf (h₀ : Started s₀) (run : ProgramRun s₀ s) : s.WF := by
  induction run with
  | start => exact started_wf h₀
  | next run m hcalled h ih => exact move_wf ih hcalled h

end Moves

end Rzh
