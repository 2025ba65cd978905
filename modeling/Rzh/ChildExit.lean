import Rzh.Program
import Rzh.Registry

/-!
# A child that has exited

task_dispatch_sigchild asks one task after the other whether the child is its own. Here every task
has come to the end of its child's output, so that there is nothing left to read.
-/
namespace Rzh

open Sys

/-- What is to come of the exit of a child: its task goes if it is the topmost one, the program goes if
it is another, and nothing happens if there is none. -/
structure Reaped (s : Sys) (pid : Int) (r : Result Sys) : Prop where
  topmost : ∀ task below, s.tasks = task :: below → task.spec.childPid = pid →
    ∃ s', s'.tasks = below ∧ r = if below = [] then .error (.bail 0, s') else .ok s'
  deeper : (∃ task ∈ s.tasks.tail, task.spec.childPid = pid) →
    ∃ s', s'.tasks = s.tasks ∧ r = .error (.bail 43, s')
  stranger : (∀ task ∈ s.tasks, task.spec.childPid ≠ pid) → r = .ok s

/-- The handlers have been called and have come to an end with what is to come of it. -/
def Reaps (s : Sys) (pid : Int) : Prop :=
  ∃ n r, sigchildProcs n pid s s.tasks = some r ∧ Reaped s pid r

section Removal

variable {s : Sys} {task top : TaskState} {below : List TaskState}

/-- The topmost task of several can always be removed. -/
theorem taskRemove_topmost (htasks : s.tasks = task :: top :: below) (hmade : WellMade task.spec) :
    ∃ s', taskRemove s = .ok s' ∧ s'.tasks = top :: below := by
  have hdoes := taskRemove_does (W := fun _ => True) htasks fun _ => trivial
  obtain ⟨-, -, -, -, -, hw⟩ := unstack_rest s task top below
  obtain ⟨s', hs'⟩ := destruct_total hw hmade
  rw [taskRemove_eq htasks, hs'] at hdoes ⊢
  exact ⟨s', rfl, hdoes.1⟩

/-- The removal of the only task ends the program. -/
theorem taskRemove_only (hwf : s.WF) (htasks : s.tasks = [task]) (hmade : WellMade task.spec) :
    ∃ s', taskRemove s = .error (.bail 0, s') ∧ s'.tasks = [] := by
  obtain ⟨-, hw⟩ := hwf.top task [] htasks
  have hdoes := taskRemove_last (W := fun _ => True) htasks hw fun _ => trivial
  obtain ⟨io, hio⟩ := destroyAtoms_rest { s with tasks := [] } task.addr
  have hdestroy : taskDestroy { s with tasks := [] } task =
      destruct { s with tasks := [], io := io } task.spec := by
    rw [taskDestroy]
    simp only [hio]
  have hw' : (({ s with tasks := [], io := io } : Sys).pipes .masterOutput).writeAtom = some (.write task.addr) := hw
  obtain ⟨s', hs'⟩ := destruct_total hw' hmade
  have hremove : taskRemove s = masterPipeDestructor s' := by
    rw [taskRemove, htasks]
    simp only [hdestroy, hs']
    rfl
  rw [hremove] at hdoes ⊢
  exact ⟨_, rfl, hdoes.1⟩

end Removal

section Handlers

variable {s : Sys} {pid : Int} {spec : TaskSpec} {task : TaskState} {tasks below : List TaskState} {n : Nat}

/-- The loop of master_pipe_find_task stays at the topmost task. -/
theorem masterPipeFindTask_stays (htasks : s.tasks = task :: below) (hne : task.spec.addr ≠ spec.addr)
    (n : Nat) : masterPipeFindTask n s spec = none := by
  induction n with
  | zero => rfl
  | succ n ih =>
    rw [masterPipeFindTask]
    simp only [htasks, if_neg hne]
    exact ih

/-- The handlers of the tasks that have other children do nothing. -/
theorem sigchildProcs_strangers (h : ∀ task ∈ tasks, task.spec.childPid ≠ pid) (rest : List TaskState) :
    sigchildProcs n pid s (tasks ++ rest) = sigchildProcs n pid s rest := by
  induction tasks with
  | nil => rfl
  | cons task tasks ih =>
    have hne : pid ≠ task.spec.childPid := (h task List.mem_cons_self).symm
    rw [List.cons_append, sigchildProcs, taskDefaultSigchild, if_pos hne]
    exact ih fun task' htask' => h task' (List.mem_cons_of_mem task htask')

/-- A child of a task under the topmost one: its handler looks for the task for ever. -/
theorem taskDefaultSigchild_stays (htasks : s.tasks = task :: below) (hne : task.spec.addr ≠ spec.addr)
    (hpid : spec.childPid = pid) (n : Nat) : taskDefaultSigchild n s spec pid = none := by
  rw [taskDefaultSigchild, if_neg (not_not.mpr hpid.symm), masterPipeFindTask_stays htasks hne]
  rfl

/-- A child of the topmost task, which has nothing left to read: the task is removed. -/
theorem taskDefaultSigchild_topmost (htasks : s.tasks = task :: below)
    (heof : (s.atoms (.read task.addr)).fd = -1) (hpid : task.spec.childPid = pid) :
    taskDefaultSigchild 1 s task.spec pid = liftM (taskRemove s) := by
  have hfind : masterPipeFindTask 1 s task.spec = pure (some task) := by
    rw [masterPipeFindTask]
    simp only [htasks, if_true]
  have hdrain : drainReader 1 s (.read task.addr) = pure s := by
    rw [drainReader, if_pos heof]
  rw [taskDefaultSigchild, if_neg (not_not.mpr hpid.symm), hfind]
  simp only [pure_bind, hdrain, htasks, if_true]

theorem sigchildProcs_none (h : ∀ task ∈ tasks, task.spec.childPid ≠ pid) : sigchildProcs n pid s tasks = pure s := by
  have hall := sigchildProcs_strangers (n := n) (s := s) h []
  rw [List.append_nil] at hall
  exact hall

end Handlers

/-- What is asked of the stack: the specs are different ones, so are the children, and every task is at
the end of its child's output. -/
structure Exited (s : Sys) : Prop where
  wf : s.WF
  made : ∀ task ∈ s.tasks, WellMade task.spec
  specs : (s.tasks.map fun task => task.spec.addr).Nodup
  children : s.tasks.Pairwise fun task task' =>
    task.spec.childPid = task'.spec.childPid → task.spec.childPid = -1
  ended : ∀ task ∈ s.tasks, (s.atoms (.read task.addr)).fd = -1

/-- The child of a task under the topmost one: the handlers do not come back. -/
theorem sigchildProcs_never {s : Sys} {pid : Int} {task : TaskState} (hs : Exited s) (hpid : 0 < pid)
    (htask : task ∈ s.tasks.tail) (heq : task.spec.childPid = pid) (n : Nat) :
    sigchildProcs n pid s s.tasks = none := by
  cases htasks : s.tasks with
  | nil =>
    rw [htasks] at htask
    cases htask
  | cons top below =>
    rw [htasks, List.tail_cons] at htask
    obtain ⟨before, after, hsplit⟩ := List.append_of_mem htask
    have hspecs := hs.specs
    have hchildren := hs.children
    rw [htasks] at hspecs hchildren
    have hne : top.spec.addr ≠ task.spec.addr := by
      intro he
      rw [List.map_cons, List.nodup_cons] at hspecs
      exact hspecs.1 (he ▸ List.mem_map_of_mem htask)
    have hstrangers : ∀ task' ∈ top :: before, task'.spec.childPid ≠ pid := by
      intro task' htask' he
      rw [hsplit, ← List.cons_append, List.pairwise_append] at hchildren
      have hnone := hchildren.2.2 task' htask' task List.mem_cons_self (he.trans heq.symm)
      omega
    rw [hsplit, ← List.cons_append, sigchildProcs_strangers hstrangers, sigchildProcs,
      taskDefaultSigchild_stays htasks hne heq]
    rfl

/-- The task of the child is the topmost one: it is taken off, and that is all. -/
theorem reaps_topmost {s : Sys} {pid : Int} {task : TaskState} {below : List TaskState} (hs : Exited s)
    (htasks : s.tasks = task :: below) (heq : task.spec.childPid = pid)
    (hbelow : ∀ task ∈ below, task.spec.childPid ≠ pid) : Reaps s pid := by
  have hmem : task ∈ s.tasks := by
    rw [htasks]
    exact List.mem_cons_self
  have hproc : sigchildProcs 1 pid s s.tasks =
      (liftM (taskRemove s) >>= fun s => sigchildProcs 1 pid s below : Looping Sys) := by
    rw [htasks, sigchildProcs, taskDefaultSigchild_topmost htasks (hs.ended task hmem) heq]
  have hreaped : ∀ s' r, s'.tasks = below →
      r = (if below = [] then .error (.bail 0, s') else .ok s' : Result Sys) → Reaped s pid r := by
    intro s' r htasks' hr
    constructor
    · intro task' below' hsplit _
      obtain ⟨-, rfl⟩ := List.cons.inj (htasks.symm.trans hsplit)
      exact ⟨s', htasks', hr⟩
    · rintro ⟨task', htask', heq'⟩
      rw [htasks, List.tail_cons] at htask'
      exact absurd heq' (hbelow task' htask')
    · intro hnone
      exact absurd heq (hnone task hmem)
  cases below with
  | nil =>
    obtain ⟨s', hremove, htasks'⟩ := taskRemove_only hs.wf htasks (hs.made task hmem)
    refine ⟨1, .error (.bail 0, s'), ?_, hreaped s' _ htasks' (by rw [if_pos rfl])⟩
    rw [hproc, hremove]
    rfl
  | cons top below =>
    obtain ⟨s', hremove, htasks'⟩ := taskRemove_topmost htasks (hs.made task hmem)
    refine ⟨1, .ok s', ?_, hreaped s' _ htasks' (by rw [if_neg (List.cons_ne_nil top below)])⟩
    rw [hproc, hremove]
    show sigchildProcs 1 pid s' (top :: below) = _
    rw [sigchildProcs_none hbelow]
    rfl

/-- It is the child of no task. -/
theorem reaps_stranger {s : Sys} {pid : Int} (hnone : ∀ task ∈ s.tasks, task.spec.childPid ≠ pid) : Reaps s pid := by
  refine ⟨0, .ok s, ?_, ?_, ?_, ?_⟩
  · rw [sigchildProcs_none hnone]
    rfl
  · intro task below htasks heq
    refine absurd heq (hnone task ?_)
    rw [htasks]
    exact List.mem_cons_self
  · rintro ⟨task, htask, heq⟩
    exact absurd heq (hnone task (List.mem_of_mem_tail htask))
  · intro _
    rfl

/-- The exit of a child is dealt with unless it is the child of a task under the topmost one, at any
depth: then the handler does not come back. -/
theorem sigchildProcs_reaps_iff {s : Sys} {pid : Int} (hs : Exited s) (hpid : 0 < pid) :
    Reaps s pid ↔ ∀ task ∈ s.tasks.tail, task.spec.childPid ≠ pid := by
  constructor
  · rintro ⟨n, r, hr, -⟩ task htask heq
    rw [sigchildProcs_never hs hpid htask heq] at hr
    cases hr
  · intro hbelow
    cases htasks : s.tasks with
    | nil =>
      apply reaps_stranger
      intro task htask
      rw [htasks] at htask
      cases htask
    | cons task below =>
      rw [htasks, List.tail_cons] at hbelow
      by_cases heq : task.spec.childPid = pid
      · exact reaps_topmost hs htasks heq hbelow
      · apply reaps_stranger
        rw [htasks]
        exact List.forall_mem_cons.mpr ⟨heq, hbelow⟩

/-- A kernel under which two children have closed their output. -/
def silenced : Kernel where
  reads := [.eof, .eof]
  writes := []
  forks := []
  errno := none
  trace := []

def exitedSpec (addr : Nat) (infd outfd childPid : Int) : TaskSpec :=
  { taskCreateSpec addr with infd := infd, outfd := outfd, childPid := childPid }

/-- Two tasks come to the end of their children's output one after the other. -/
theorem silenced_exited : ∃ s, Exited s ∧ s.tasks.map (fun task => task.spec.childPid) = [101, 100] := by
  obtain ⟨s₀, s, h₀, hrun, htest⟩ := played_run silenced
    [.install (exitedSpec 3 7 8 100), .autoRead .inputMaster, .install (exitedSpec 4 9 10 101), .autoRead .inputMaster]
    (fun _ s => topTwo s fun task top => decide (task.spec = exitedSpec 4 9 10 101 ∧ top.spec = exitedSpec 3 7 8 100 ∧
      (s.atoms (.read task.addr)).fd = -1 ∧ (s.atoms (.read top.addr)).fd = -1)) (by decide +kernel)
  obtain ⟨task, top, htasks, htest⟩ := topTwo_tasks htest
  obtain ⟨htask, htop, hend, hend'⟩ := of_decide_eq_true htest
  refine ⟨s, ⟨mainRun_wf h₀.1 hrun, ?_, ?_, ?_, ?_⟩, ?_⟩
  · rw [htasks]
    simp [htask, htop, exitedSpec, taskCreateSpec, WellMade]
  · rw [htasks]
    simp [htask, htop, exitedSpec, taskCreateSpec]
  · rw [htasks]
    simp [htask, htop, exitedSpec, taskCreateSpec]
  · rw [htasks]
    simp [hend, hend']
  · rw [htasks]
    simp [htask, htop, exitedSpec]

theorem sigchildProcs_reaps_iff_topmost : ∃ s, s.tasks.map (fun task => task.spec.childPid) = [101, 100] ∧
    Reaps s 101 := by
  obtain ⟨s, hs, hpids⟩ := silenced_exited
  refine ⟨s, hpids, (sigchildProcs_reaps_iff hs (by decide)).mpr ?_⟩
  intro task htask
  have hmem : task.spec.childPid ∈ (s.tasks.map fun task => task.spec.childPid).tail := by
    rw [← List.map_tail]
    exact List.mem_map_of_mem htask
  rw [hpids] at hmem
  rw [List.mem_singleton.mp hmem]
  decide

/-- The child of the lower of two tasks. -/
theorem sigchildProcs_stays : ¬ ∀ s pid, Exited s → 0 < pid → Reaps s pid := by
  intro h
  obtain ⟨s, hs, hpids⟩ := silenced_exited
  obtain ⟨n, r, hr, -⟩ := h s 100 hs (by decide)
  have hmem : (100 : Int) ∈ s.tasks.tail.map fun task => task.spec.childPid := by
    rw [List.map_tail, hpids]
    exact List.mem_singleton_self 100
  obtain ⟨task, htask, heq⟩ := List.mem_map.mp hmem
  rw [sigchildProcs_never hs (by decide) htask heq] at hr
  cases hr

end Rzh
