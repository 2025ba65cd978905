import Rzh.Registry

/-!
# The splice

task_pipe_setup looks at the two topmost tasks only. Yet the ends of the pipes and what the readers
of all the tasks are for depend on nothing but the stack.
-/
namespace Rzh

open Sys

/-- The states that tasks that come and go lead to, and atoms that are closed, whatever goes through
the pipes in between. -/
inductive StackRun (s₀ : Sys) : Sys → Prop where
  | start : StackRun s₀ s₀
  | untouched {s s' : Sys} (run : StackRun s₀ s) (h : Untouched s s') : StackRun s₀ s'
  | closed {s : Sys} {a : AtomRef} (run : StackRun s₀ s) (ha : s.Held a) : StackRun s₀ (closeAtom s a)
  | installed {s s' : Sys} {spec : TaskSpec} (run : StackRun s₀ s) (h : taskInstall s spec = .ok s') :
    StackRun s₀ s'
  | removed {s s' : Sys} (run : StackRun s₀ s) (h : taskRemove s = .ok s') : StackRun s₀ s'

/-- What a reader is for: the proc that is called for it, and where that finds its data. -/
def Atom.use (x : Atom) : IoProc × ReadPipe := (x.proc, x.readPipe)

/-- The reader at the end of the pipe. -/
def pipeEnd : IoProc × ReadPipe := (.pipeIoProc, .pipe .inputMaster)

/-- What the reader of the task below is for: the verso proc has it, if there is one. -/
def TaskSpec.versoUse (spec : TaskSpec) : IoProc × ReadPipe :=
  match spec.versoInputProc with
  | some proc => (proc, spec.versoInputRefcon)
  | none => pipeEnd

/-- The ends of the pipes and the readers are what the stack says. -/
structure Spliced (s : Sys) : Prop where
  ends : ∀ task below, s.tasks = task :: below →
    (s.pipes .inputMaster).readAtom = some (.read task.addr) ∧
      (s.pipes .masterOutput).writeAtom = some (.write task.addr)
  head : ∀ task below, s.tasks = task :: below → s.live (.read task.addr) →
    (s.atoms (.read task.addr)).use = pipeEnd
  below : ∀ upper above task lower, s.tasks = upper ++ above :: task :: lower → s.live (.read task.addr) →
    (s.atoms (.read task.addr)).use = above.spec.versoUse

/-- The fifos have the procs of the topmost task. -/
def HeadProcs (s : Sys) : Prop :=
  ∀ task below, s.tasks = task :: below →
    (s.fifo .inputMaster).proc = task.spec.inmaProc ∧ (s.fifo .inputMaster).refcon = task.spec.inmaRefcon ∧
      (s.fifo .masterOutput).proc = task.spec.maoutProc ∧
      (s.fifo .masterOutput).refcon = task.spec.maoutRefcon

section Setup

variable {s s' : Sys} {task : TaskState} {below : List TaskState} {n : Nat}

theorem spliceAtoms_read (s : Sys) (task : TaskState) (n : Nat) : (spliceAtoms s task).atoms (.read n) =
    if n = task.addr then { s.atoms (.read n) with readPipe := .pipe .inputMaster } else s.atoms (.read n) := by
  have hatoms : ∀ s' : Sys, (if 0 ≤ (s'.atoms (.read task.addr)).fd then
      s'.enable (.read task.addr) [.read] else s').atoms = s'.atoms := by
    intro s'
    split
    · rfl
    · rfl
  rw [spliceAtoms]
  simp only [hatoms]
  split
  · next hn =>
    subst hn
    simp [setAtom, setPipe]
  · next hn => simp [setAtom, setPipe, hn]

/-- The reader of the task below is the only one that the verso proc can get. -/
theorem versoSetup_read (hn : ∀ verso ∈ below.head?, n ≠ verso.addr) :
    (versoSetup s task below).atoms (.read n) = s.atoms (.read n) := by
  cases hproc : task.spec.versoInputProc with
  | none => simp only [versoSetup, hproc]
  | some proc =>
    cases below with
    | nil => simp only [versoSetup, hproc]
    | cons verso rest =>
      have hne : n ≠ verso.addr := hn verso rfl
      simp only [versoSetup, hproc]
      split
      · simp [enable, setAtom, hne]
      · rfl

theorem versoSetup_verso {verso : TaskState} {rest : List TaskState} (hl : s.live (.read verso.addr))
    (hold : task.spec.versoInputProc = none → (s.atoms (.read verso.addr)).use = pipeEnd) :
    ((versoSetup s task (verso :: rest)).atoms (.read verso.addr)).use = task.spec.versoUse := by
  cases hproc : task.spec.versoInputProc with
  | none =>
    simp only [versoSetup, TaskSpec.versoUse, hproc]
    exact hold hproc
  | some proc =>
    have hl' : 0 ≤ (s.atoms (.read verso.addr)).fd := hl
    simp [versoSetup, TaskSpec.versoUse, hproc, hl', enable, setAtom, Atom.use]

/-- The reader of the task itself is at the end of the pipe. -/
theorem taskPipeSetup_head (hl : s.live (.read task.addr)) (hbelow : ∀ verso ∈ below.head?, task.addr ≠ verso.addr) :
    ((taskPipeSetup s task below).atoms (.read task.addr)).use = pipeEnd := by
  have hl' : 0 ≤ (s.atoms (.read task.addr)).fd := hl
  rw [taskPipeSetup]
  simp only [if_pos hl']
  change ((spliceAtoms _ task).atoms _).use = _
  rw [spliceAtoms_read, if_pos rfl, versoSetup_read hbelow]
  simp [setAtom, Atom.use, pipeEnd]

theorem taskPipeSetup_read (below : List TaskState) (hn : n ≠ task.addr) :
    ∃ s₁ : Sys, s₁.atoms (.read n) = s.atoms (.read n) ∧
      (taskPipeSetup s task below).atoms (.read n) = (versoSetup s₁ task below).atoms (.read n) := by
  let s₁ : Sys := if 0 ≤ (s.atoms (.read task.addr)).fd then
    s.setAtom (.read task.addr) { s.atoms (.read task.addr) with proc := .pipeIoProc } else s
  refine ⟨s₁, ?_, ?_⟩
  · change (if _ then _ else _ : Sys).atoms _ = _
    split
    · simp [setAtom, hn]
    · rfl
  · change (spliceAtoms (versoSetup s₁ task below) task).atoms _ = _
    rw [spliceAtoms_read, if_neg hn]

/-- The reader of the task below it is for the verso proc. -/
theorem taskPipeSetup_verso {verso : TaskState} {rest : List TaskState} (hne : verso.addr ≠ task.addr)
    (hl : s.live (.read verso.addr))
    (hold : task.spec.versoInputProc = none → (s.atoms (.read verso.addr)).use = pipeEnd) :
    ((taskPipeSetup s task (verso :: rest)).atoms (.read verso.addr)).use = task.spec.versoUse := by
  obtain ⟨s₁, hs₁, he⟩ := taskPipeSetup_read (s := s) (verso :: rest) hne
  rw [he]
  apply versoSetup_verso
  · rw [Sys.live, hs₁]
    exact hl
  · rw [hs₁]
    exact hold

/-- The readers further down are left alone. -/
theorem taskPipeSetup_others (hn : n ≠ task.addr) (hbelow : ∀ verso ∈ below.head?, n ≠ verso.addr) :
    (taskPipeSetup s task below).atoms (.read n) = s.atoms (.read n) := by
  obtain ⟨s₁, hs₁, he⟩ := taskPipeSetup_read (s := s) below hn
  rw [he, versoSetup_read hbelow, hs₁]

theorem ne_of_mem_nodup {task t : TaskState} {ts : List TaskState}
    (h : ((task :: ts).map TaskState.addr).Nodup) (ht : t ∈ ts) : t.addr ≠ task.addr := by
  rw [List.map_cons, List.nodup_cons] at h
  intro he
  exact h.1 (List.mem_map.mpr ⟨t, ht, he⟩)

/-- The two topmost tasks are all that has to be looked at. -/
theorem taskPipeSetup_spliced (htasks : s.tasks = task :: below)
    (hnodup : ((task :: below).map TaskState.addr).Nodup)
    (hverso : ∀ verso lower, below = verso :: lower → task.spec.versoInputProc = none →
      s.live (.read verso.addr) → (s.atoms (.read verso.addr)).use = pipeEnd)
    (hlower : ∀ upper above t lower, below = upper ++ above :: t :: lower → s.live (.read t.addr) →
      (s.atoms (.read t.addr)).use = above.spec.versoUse) :
    Spliced (taskPipeSetup s task below) ∧ HeadProcs (taskPipeSetup s task below) := by
  have hsplice := taskPipeSetup_splices s task below
  obtain ⟨hin, hout⟩ := taskPipeSetup_pipes s task below
  have htasks' : (taskPipeSetup s task below).tasks = task :: below := by
    rw [hsplice.rest]
    exact htasks
  refine ⟨⟨?_, ?_, ?_⟩, ?_⟩
  · rw [htasks', hin, hout]
    intro t lower he
    obtain ⟨rfl, -⟩ := List.cons.inj he
    exact ⟨rfl, rfl⟩
  · rw [htasks']
    intro t lower he hl
    obtain ⟨rfl, -⟩ := List.cons.inj he
    apply taskPipeSetup_head (hsplice.live.mp hl)
    intro verso hv
    exact (ne_of_mem_nodup hnodup (List.mem_of_mem_head? hv)).symm
  · rw [htasks']
    intro upper above t lower he hl
    have hl' := hsplice.live.mp hl
    cases upper with
    | nil =>
      obtain ⟨rfl, rfl⟩ := List.cons.inj he
      exact taskPipeSetup_verso (ne_of_mem_nodup hnodup List.mem_cons_self) hl' fun hnone =>
        hverso t lower rfl hnone hl'
    | cons top upper =>
      obtain ⟨rfl, hbelow⟩ := List.cons.inj he
      have ht : t ∈ below := by simp [hbelow]
      rw [taskPipeSetup_others (ne_of_mem_nodup hnodup ht)]
      · exact hlower upper above t lower hbelow hl'
      · intro verso hv
        -- above is not below t, so t is not the topmost task of those below
        rw [List.map_cons, List.nodup_cons] at hnodup
        have hnodup := hnodup.2
        rw [hbelow] at hv hnodup
        cases upper with
        | nil =>
          cases hv
          exact ne_of_mem_nodup hnodup List.mem_cons_self
        | cons first upper =>
          cases hv
          exact ne_of_mem_nodup hnodup (by simp)
  · intro t lower he
    rw [htasks'] at he
    obtain ⟨rfl, -⟩ := List.cons.inj he
    rw [Sys.fifo, Sys.fifo, hin, hout]
    exact ⟨rfl, rfl, rfl, rfl⟩

end Setup

section Lasts

variable {s s' s₀ : Sys} {a : AtomRef} {spec : TaskSpec}

theorem lasting_stackRun (s₀ : Sys) : Lasting (StackRun s₀) where
  untouched := .untouched
  closed _ hs ha := .closed hs ha
  installed _ hs h := .installed hs h
  removed _ hs h := .removed hs h

/-- The states of the program are among them. -/
theorem programRun_stackRun (h₀ : Started s₀) (run : ProgramRun s₀ s) : StackRun s₀ s :=
  (lasting_stackRun s₀).run h₀ .start run

theorem StackRun.trans {s₁ : Sys} (run : StackRun s₀ s₁) (run' : StackRun s₁ s) : StackRun s₀ s := by
  induction run' with
  | start => exact run
  | untouched _ h ih => exact .untouched ih h
  | closed _ ha ih => exact .closed ih ha
  | installed _ h ih => exact .installed ih h
  | removed _ h ih => exact .removed ih h

theorem stackRun_wf (hwf : s₀.WF) (run : StackRun s₀ s) : s.WF := by
  induction run with
  | start => exact hwf
  | untouched _ h ih => exact h.wf ih
  | @closed s a _ ha ih =>
    have hclose : MayClose a s (closeAtom s a) := .closed (.refl _)
    exact ih.of_shape (shape_closeAtom s a) fun b hb => hclose.held ha (ih.held b hb)
  | installed _ h ih => exact (taskInstall_ok ih h).wf
  | removed _ h ih => exact taskRemove_wf ih h

theorem Spliced.untouched (hs : Spliced s) (h : Untouched s s') : Spliced s' where
  ends task below htasks := by
    rw [(h.ends _).1, (h.ends _).2]
    exact hs.ends task below (h.tasks.symm.trans htasks)
  head task below htasks hl := by
    rw [Sys.live, h.atoms] at hl
    rw [h.atoms]
    exact hs.head task below (h.tasks.symm.trans htasks) hl
  below upper above task lower htasks hl := by
    rw [Sys.live, h.atoms] at hl
    rw [h.atoms]
    exact hs.below upper above task lower (h.tasks.symm.trans htasks) hl

/-- What is still open when an atom has been closed is as it was. -/
theorem closeAtom_open {b : AtomRef} (hl : (closeAtom s a).live b) :
    s.live b ∧ (closeAtom s a).atoms b = s.atoms b ∧ b ≠ a := by
  rw [Sys.live, closeAtom_atoms] at hl
  rw [closeAtom_atoms]
  by_cases hb : b = a
  · subst hb
    simp at hl
  · rw [Function.update_of_ne hb] at hl ⊢
    exact ⟨hl, rfl, hb⟩

theorem Spliced.closed (hs : Spliced s) (a : AtomRef) : Spliced (closeAtom s a) := by
  have hshape := shape_closeAtom s a
  have htasks : (closeAtom s a).tasks = s.tasks := congrArg Shape.tasks hshape
  have hr : ∀ p, ((closeAtom s a).pipes p).readAtom = (s.pipes p).readAtom :=
    congrFun (congrArg Shape.readAtom hshape)
  have hw : ∀ p, ((closeAtom s a).pipes p).writeAtom = (s.pipes p).writeAtom :=
    congrFun (congrArg Shape.writeAtom hshape)
  refine ⟨?_, ?_, ?_⟩
  · rw [htasks, hr, hw]
    exact hs.ends
  · rw [htasks]
    intro task below he hl
    obtain ⟨hl', hatom, -⟩ := closeAtom_open hl
    rw [hatom]
    exact hs.head task below he hl'
  · rw [htasks]
    intro upper above task lower he hl
    obtain ⟨hl', hatom, -⟩ := closeAtom_open hl
    rw [hatom]
    exact hs.below upper above task lower he hl'

theorem taskInstall_spliced (hwf : s.WF) (hs : Spliced s) (h : taskInstall s spec = .ok s') :
    Spliced s' ∧ HeadProcs s' := by
  obtain ⟨⟨task, s₁⟩, h₁, h⟩ := Result.bind_ok h
  obtain ⟨rfl, hp⟩ := taskPrepare_ok h₁
  have hs' : taskPipeSetup { s₁ with tasks := ⟨s.fresh, spec⟩ :: s₁.tasks } ⟨s.fresh, spec⟩ s₁.tasks = s' :=
    Except.ok.inj h
  have honly := hp.only
  rw [OnlyAtoms] at honly
  have htasks : s₁.tasks = s.tasks := by rw [honly]
  have hread : ∀ t ∈ s.tasks, s₁.atoms (.read t.addr) = s.atoms (.read t.addr) := by
    intro t ht
    obtain ⟨hr, hw, he⟩ := (InUse.read ht).ne_fresh hwf
    exact (hp.others _ hr hw he).1
  rw [htasks] at hs'
  rw [← hs']
  apply taskPipeSetup_spliced rfl
  · rw [List.map_cons, List.nodup_cons]
    refine ⟨fun hmem => ?_, hwf.nodup⟩
    obtain ⟨t, ht, he⟩ := List.mem_map.mp hmem
    exact Nat.ne_of_lt (hwf.below t ht) he
  · intro verso lower he _ hl
    have hmem : verso ∈ s.tasks := by simp [he]
    change 0 ≤ (s₁.atoms _).fd at hl
    change (s₁.atoms _).use = _
    rw [hread verso hmem] at hl ⊢
    exact hs.head verso lower he hl
  · intro upper above t lower he hl
    have hmem : t ∈ s.tasks := by simp [he]
    change 0 ≤ (s₁.atoms _).fd at hl
    change (s₁.atoms _).use = _
    rw [hread t hmem] at hl ⊢
    exact hs.below upper above t lower he hl

/-- What is written changes no proc. -/
theorem pipeWrites_procs {texts : List (List UInt8)} {p : PipeRef} (h : PipeWrites p texts s s') (q : PipeRef) :
    (s'.fifo q).proc = (s.fifo q).proc ∧ (s'.fifo q).refcon = (s.fifo q).refcon := by
  induction h with
  | nil s => exact ⟨rfl, rfl⟩
  | @cons text texts total s s₁ s₂ hwrite _ ih =>
    have hfirst : (s₁.fifo q).proc = (s.fifo q).proc ∧ (s₁.fifo q).refcon = (s.fifo q).refcon := by
      obtain ⟨w, hw, -, ⟨-, rfl⟩ | ⟨-, rfl⟩⟩ := pipeWrite_ok hwrite
      · exact ⟨rfl, rfl⟩
      · by_cases hq : q = p
        · subst hq
          simp [Sys.enable, Sys.fifo, Sys.setFifo, Sys.setPipe]
        · have hfifo := fifo_eq (setFifo_ne s (fifoUnsafeAppend (s.fifo p) (stored s p w text))
            (afterImmediate s p w text) hq)
          exact ⟨congrArg Fifo.proc hfifo, congrArg Fifo.refcon hfifo⟩
    exact ⟨ih.1.trans hfirst.1, ih.2.trans hfirst.2⟩

theorem destruct_headProcs {w : AtomRef} (hw : (s.pipes .masterOutput).writeAtom = some w)
    (hs : HeadProcs s) (h : destruct s spec = .ok s') : HeadProcs s' := by
  have htasks := (destruct_untouched hw h).tasks
  obtain ⟨s₁, hwrites, rfl⟩ := destruct_ok h hw
  intro task below he
  have hin := pipeWrites_procs hwrites .inputMaster
  have hout := pipeWrites_procs hwrites .masterOutput
  obtain ⟨hin₁, hin₂, hout₁, hout₂⟩ := hs task below (htasks.symm.trans he)
  exact ⟨hin.1.trans hin₁, hin.2.trans hin₂, hout.1.trans hout₁, hout.2.trans hout₂⟩

theorem taskRemove_spliced (hwf : s.WF) (hs : Spliced s) (h : taskRemove s = .ok s') :
    Spliced s' ∧ HeadProcs s' := by
  obtain ⟨task, top, below, -, -, htasks, -⟩ := taskRemove_ok hwf h
  have hnodup := hwf.nodup
  rw [htasks, List.map_cons, List.nodup_cons] at hnodup
  let s₀ : Sys := { s with tasks := top :: below }
  have hsetup : Spliced (taskPipeSetup s₀ top below) ∧ HeadProcs (taskPipeSetup s₀ top below) := by
    apply taskPipeSetup_spliced rfl hnodup.2
    · intro verso lower he hnone hl
      have huse : (s.atoms (.read verso.addr)).use = top.spec.versoUse := by
        apply hs.below [task] top verso lower _ hl
        rw [htasks, he]
        rfl
      rw [TaskSpec.versoUse, hnone] at huse
      exact huse
    · intro upper above t lower he hl
      apply hs.below (task :: top :: upper) above t lower _ hl
      rw [htasks, he]
      rfl
  obtain ⟨io, hio⟩ := destroyAtoms_rest (taskPipeSetup s₀ top below) task.addr
  have hunstack : unstack s task top below = { taskPipeSetup s₀ top below with io := io } := hio
  have hprocs : HeadProcs (unstack s task top below) := by
    rw [hunstack]
    exact hsetup.2
  have hspliced : Spliced (unstack s task top below) := by
    rw [hunstack]
    exact ⟨hsetup.1.ends, hsetup.1.head, hsetup.1.below⟩
  have hw := (unstack_rest s task top below).2.2.2.2.2
  rw [taskRemove_eq htasks] at h
  exact ⟨hspliced.untouched (destruct_untouched hw h), destruct_headProcs hw hprocs h⟩

theorem stackRun_spliced (h₀ : Started s₀) (run : StackRun s₀ s) : Spliced s := by
  induction run with
  | start =>
    obtain ⟨s₁, masterfd, inma, maou, hinma, hmaou, h⟩ := h₀
    have htasks := (masterPipeInit_ok h).1
    refine ⟨?_, ?_, ?_⟩
    · rw [htasks]
      intro task below he
      cases he
    · rw [htasks]
      intro task below he
      cases he
    · rw [htasks]
      intro upper above task lower he
      simp at he
  | untouched _ h ih => exact ih.untouched h
  | closed _ _ ih => exact ih.closed _
  | installed run h ih => exact (taskInstall_spliced (stackRun_wf (started_wf h₀) run) ih h).1
  | removed run h ih => exact (taskRemove_spliced (stackRun_wf (started_wf h₀) run) ih h).1

/-- Each task on the stack is the topmost one or below another one. -/
theorem stack_place {tasks : List TaskState} {task : TaskState} (h : task ∈ tasks) :
    (∃ below, tasks = task :: below) ∨ ∃ upper above lower, tasks = upper ++ above :: task :: lower := by
  obtain ⟨upper, lower, rfl⟩ := List.append_of_mem h
  obtain rfl | ⟨upper, above, rfl⟩ := upper.eq_nil_or_concat
  · exact .inl ⟨lower, rfl⟩
  · exact .inr ⟨upper, above, lower, by simp⟩

/-- The readers of one stack are for the same, whenever they are open. -/
theorem Spliced.unique (hs : Spliced s) (hs' : Spliced s') (htasks : s'.tasks = s.tasks) {task : TaskState}
    (ht : task ∈ s.tasks) (hl : s.live (.read task.addr)) (hl' : s'.live (.read task.addr)) :
    (s'.atoms (.read task.addr)).use = (s.atoms (.read task.addr)).use := by
  obtain ⟨below, he⟩ | ⟨upper, above, lower, he⟩ := stack_place ht
  · rw [hs.head task below he hl, hs'.head task below (htasks.trans he) hl']
  · rw [hs.below upper above task lower he hl, hs'.below upper above task lower (htasks.trans he) hl']

/-- pipe_io_proc finds a pipe, unless a verso proc is just that. -/
theorem Spliced.pipeIoProc (hs : Spliced s)
    (hverso : ∀ above ∈ s.tasks, above.spec.versoInputProc ≠ some .pipeIoProc) {task : TaskState}
    (ht : task ∈ s.tasks) (hl : s.live (.read task.addr)) (hproc : (s.atoms (.read task.addr)).proc = .pipeIoProc) :
    (s.atoms (.read task.addr)).readPipe = .pipe .inputMaster := by
  obtain ⟨below, he⟩ | ⟨upper, above, lower, he⟩ := stack_place ht
  · exact congrArg Prod.snd (hs.head task below he hl)
  · have huse := hs.below upper above task lower he hl
    rw [TaskSpec.versoUse] at huse
    split at huse
    · next proc hsome =>
      have hmem : above ∈ s.tasks := by simp [he]
      have hp : (s.atoms (.read task.addr)).proc = proc := congrArg Prod.fst huse
      rw [← hp, hproc] at hsome
      exact absurd hsome (hverso above hmem)
    · exact congrArg Prod.snd huse

/-- Both have the same stack, the same ends and the same readers, as far as they are open. -/
structure SameSplice (s s' : Sys) : Prop where
  tasks : s'.tasks = s.tasks
  ends : ∀ p, (s'.pipes p).readAtom = (s.pipes p).readAtom ∧ (s'.pipes p).writeAtom = (s.pipes p).writeAtom
  readers : ∀ task ∈ s.tasks, s.live (.read task.addr) → s'.live (.read task.addr) →
    (s'.atoms (.read task.addr)).use = (s.atoms (.read task.addr)).use

theorem Spliced.same (hwf : s.WF) (hs : Spliced s) (hwf' : s'.WF) (hs' : Spliced s')
    (htasks : s'.tasks = s.tasks) (hne : s.tasks ≠ []) : SameSplice s s' := by
  obtain ⟨top, below, he⟩ := List.exists_cons_of_ne_nil hne
  obtain ⟨hin, hout⟩ := hs.ends top below he
  obtain ⟨hin', hout'⟩ := hs'.ends top below (htasks.trans he)
  refine ⟨htasks, fun p => ?_, fun task ht hl hl' => hs.unique hs' htasks ht hl hl'⟩
  cases p with
  | inputMaster => exact ⟨hin'.trans hin.symm, hwf'.masterIn.trans hwf.masterIn.symm⟩
  | masterOutput => exact ⟨hwf'.masterOut.trans hwf.masterOut.symm, hout'.trans hout.symm⟩

/-- Whatever has come and gone, each task that is installed or removed leaves the splice that belongs
to the stack, and removing a task brings back the one from before its installation. -/
theorem stackRun_splice (h₀ : Started s₀) (run : StackRun s₀ s) :
    (∀ spec s', taskInstall s spec = .ok s' → Spliced s' ∧ HeadProcs s') ∧
      (∀ s', taskRemove s = .ok s' → Spliced s' ∧ HeadProcs s') ∧
      (∀ spec s₁ s₂ s', taskInstall s spec = .ok s₁ → StackRun s₁ s₂ → s₂.tasks = s₁.tasks →
        taskRemove s₂ = .ok s' → SameSplice s s' ∧ HeadProcs s') ∧
      ((∀ above ∈ s.tasks, above.spec.versoInputProc ≠ some .pipeIoProc) →
        ∀ task ∈ s.tasks, s.live (.read task.addr) → (s.atoms (.read task.addr)).proc = .pipeIoProc →
          (s.atoms (.read task.addr)).readPipe = .pipe .inputMaster) := by
  have hwf := stackRun_wf (started_wf h₀) run
  have hs := stackRun_spliced h₀ run
  refine ⟨fun spec s' h => taskInstall_spliced hwf hs h, fun s' h => taskRemove_spliced hwf hs h, ?_,
    fun hverso task ht hl hproc => hs.pipeIoProc hverso ht hl hproc⟩
  intro spec s₁ s₂ s' hinstall run₂ hkeep hremove
  have run' : StackRun s₀ s₂ := (run.installed hinstall).trans run₂
  have hwf₂ := stackRun_wf (started_wf h₀) run'
  have hs₂ := stackRun_spliced h₀ run'
  obtain ⟨task, top, below, u, v, htasks, hun, hwrites, rfl⟩ := taskRemove_ok hwf₂ hremove
  have hw : (u.pipes .masterOutput).writeAtom = some (.write top.addr) := by rw [hun.masterOutput]
  have htop : v.tasks = top :: below := by
    rw [(pipeWrites_poured hwrites hw).tasks, hun.rest]
  rw [htasks, (taskInstall_ok hwf hinstall).rest] at hkeep
  obtain ⟨-, hbelow⟩ := List.cons.inj hkeep
  obtain ⟨hs', hprocs⟩ := taskRemove_spliced hwf₂ hs₂ hremove
  refine ⟨hs.same hwf (taskRemove_wf hwf₂ hremove) hs' (htop.trans hbelow) ?_, hprocs⟩
  rw [← hbelow]
  exact List.cons_ne_nil _ _

/-- A transfer takes the reader of the echo task away from it, and gives it back. -/
theorem stackRun_splice_taken : ∃ s₀ s₁ s task echo, Started s₀ ∧ StackRun s₀ s₁ ∧ s₁.tasks = [task, echo] ∧
    (s₁.atoms (.read echo.addr)).proc = .typingIoProc ∧ taskRemove s₁ = .ok s ∧ s.tasks = [echo] ∧
    Spliced s ∧ HeadProcs s := by
  obtain ⟨s₀, h₀, htest⟩ := Result.ok_of_passes (show (launch taken).passes (fun s₀ =>
    (play s₀ [.echoScanner, .autoRead .masterOutput]).passes fun s₁ => topTwo s₁ fun _ echo =>
      (s₁.atoms (.read echo.addr)).proc = .typingIoProc ∧
        (taskRemove s₁).passes fun s => s.tasks = [echo]) = true by decide +kernel)
  obtain ⟨s₁, hplay, htest⟩ := Result.ok_of_passes htest
  obtain ⟨task, echo, htasks, htest⟩ := topTwo_tasks htest
  obtain ⟨hproc, htest⟩ := of_decide_eq_true htest
  obtain ⟨s, hremove, htest⟩ := Result.ok_of_passes htest
  have hstarted := (launch_ok h₀).1
  have hrun := programRun_stackRun hstarted (play_run .start hplay).program
  obtain ⟨hspliced, hprocs⟩ := (stackRun_splice hstarted hrun).2.1 s hremove
  exact ⟨s₀, s₁, s, task, echo, hstarted, hrun, htasks, hproc, hremove, of_decide_eq_true htest, hspliced, hprocs⟩

end Lasts

end Rzh
