import Rzh.Calls
import Rzh.Counters

/-!
# Who is registered

io_dispatch calls whatever it finds in the registry. The atoms there are those of the master and
of the tasks on the stack, each under its own descriptor, whatever has closed the others.
-/
namespace Rzh

open Sys

/-- Whoever is registered is the master or an atom of `tasks`, each for its own descriptor. -/
def Known (tasks : List TaskState) (s : Sys) : Prop :=
  ∀ n a, s.io.connections n = some a → InUse tasks a ∧ (s.atoms a).fd = n

/-- One more atom may have been registered, for its own descriptor. -/
structure Joins (a : AtomRef) (s s' : Sys) : Prop where
  connections : ∀ n b, s'.io.connections n = some b →
    b = a ∧ (s'.atoms a).fd = n ∨ s.io.connections n = some b
  others : ∀ b, b ≠ a → s'.atoms b = s.atoms b

section Install

variable {s s' : Sys} {a : AtomRef} {fd : Int} {flags : List Interest} {spec : TaskSpec}

theorem joins_ioAdd {io : IoSelect} (h : ioAdd s.io a fd flags = (none, io)) (hio : s'.io = io)
    (hfd : (s'.atoms a).fd = fd) (hothers : ∀ b, b ≠ a → s'.atoms b = s.atoms b) : Joins a s s' := by
  obtain ⟨⟨hnonneg, -, -⟩, hreg, hconn, -⟩ := ioAdd_ok h
  refine ⟨fun n b hb => ?_, hothers⟩
  rw [hio] at hb
  by_cases hn : n = fd.toNat
  · rw [hn, hreg.connected] at hb
    refine .inl ⟨(Option.some.inj hb).symm, ?_⟩
    rw [hfd]
    omega
  · rw [hconn n hn] at hb
    exact .inr hb

theorem joins_closed (s : Sys) (a : AtomRef) : Joins a s (s.setAtom a { s.atoms a with fd := -1 }) := by
  refine ⟨fun n b hb => .inr hb, fun b hb => ?_⟩
  simp [setAtom, hb]

theorem taskPrepareAtom_joins (h : taskPrepareAtom s a fd = .ok s') : Joins a s s' := by
  rw [taskPrepareAtom] at h
  split at h
  · rw [pipeAtomInit] at h
    simp only at h
    split at h
    · cases h
    · next io hio =>
      have hio' : ioAdd s.io a fd [] = (none, io) := hio
      cases h
      apply joins_ioAdd hio'
      · rfl
      · simp [setAtom]
      · intro b hb
        simp [setAtom, hb]
  · cases h
    exact joins_closed s a

theorem taskPrepareErr_joins (h : taskPrepareErr s a spec = .ok s') : Joins a s s' := by
  rw [taskPrepareErr] at h
  split at h
  · cases h
    exact joins_closed s a
  · split at h
    · simp only at h
      split at h
      · cases h
      · next io hio =>
        have hio' : ioAdd s.io a spec.errfd [.read] = (none, io) := hio
        cases h
        apply joins_ioAdd hio'
        · rfl
        · simp [setAtom]
        · intro b hb
          simp [setAtom, hb]
    · cases h
      exact joins_closed s a

/-- The atoms that have joined are the new task's. -/
theorem taskPrepare_joins {task : TaskState} (h : taskPrepare s spec = .ok (task, s')) :
    ∀ n b, s'.io.connections n = some b →
      (b = .read s.fresh ∨ b = .write s.fresh ∨ b = .err s.fresh) ∧ (s'.atoms b).fd = n ∨
        s.io.connections n = some b := by
  obtain ⟨s₁, h₁, h⟩ := Result.bind_ok h
  obtain ⟨s₂, h₂, h⟩ := Result.bind_ok h
  obtain ⟨s₃, h₃, h⟩ := Result.bind_ok h
  cases h
  have hr := taskPrepareAtom_joins h₁
  have hw := taskPrepareAtom_joins h₂
  have he := taskPrepareErr_joins h₃
  intro n b hb
  obtain ⟨rfl, hfd⟩ | hb := he.connections n b hb
  · exact .inl ⟨.inr (.inr rfl), hfd⟩
  obtain ⟨rfl, hfd⟩ | hb := hw.connections n b hb
  · refine .inl ⟨.inr (.inl rfl), ?_⟩
    rw [he.others _ (by simp), hfd]
  obtain ⟨rfl, hfd⟩ | hb := hr.connections n b hb
  · refine .inl ⟨.inl rfl, ?_⟩
    rw [he.others _ (by simp), hw.others _ (by simp), hfd]
  · exact .inr hb

end Install

section Lasts

variable {s s' : Sys} {a : AtomRef} {spec : TaskSpec} {tasks : List TaskState}

theorem Known.untouched (hs : Known tasks s) (h : Untouched s s') : Known tasks s' := by
  intro n a ha
  rw [h.connections] at ha
  rw [h.atoms]
  exact hs n a ha

/-- An atom that is taken out leaves the others where they are. -/
theorem pipeAtomDestroy_connections (ha : s.Held a) {n : Nat} {b : AtomRef}
    (hb : (pipeAtomDestroy s a).io.connections n = some b) :
    s.io.connections n = some b ∧ (s.atoms a).fd ≠ n := by
  rw [pipeAtomDestroy] at hb
  split at hb
  · next hl =>
    simp only [ioDel_connections (ha hl)] at hb
    split at hb
    · cases hb
    · exact ⟨hb, by omega⟩
  · exact ⟨hb, by omega⟩

theorem Known.closed (hs : Known tasks s) (ha : s.Held a) : Known tasks (closeAtom s a) := by
  intro n b hb
  rw [closeAtom_io] at hb
  obtain ⟨hb, hne⟩ := pipeAtomDestroy_connections ha hb
  obtain ⟨huse, hfd⟩ := hs n b hb
  have hba : b ≠ a := by
    rintro rfl
    exact hne hfd
  rw [closeAtom_atoms, Function.update_of_ne hba]
  exact ⟨huse, hfd⟩

theorem Known.spliced {rs : List AtomRef} (hs : Known tasks s) (h : Splices rs s s') : Known tasks s' := by
  intro n a ha
  rw [h.connections] at ha
  rw [h.fd]
  exact hs n a ha

theorem Known.installed (hwf : s.WF) (hs : Known s.tasks s) (h : taskInstall s spec = .ok s') :
    Known s'.tasks s' := by
  have hinstalled := taskInstall_ok hwf h
  obtain ⟨⟨task, s₁⟩, h₁, h⟩ := Result.bind_ok h
  obtain ⟨rfl, hp⟩ := taskPrepare_ok h₁
  have hs' : taskPipeSetup { s₁ with tasks := ⟨s.fresh, spec⟩ :: s₁.tasks } ⟨s.fresh, spec⟩ s₁.tasks = s' :=
    Except.ok.inj h
  have htasks : s'.tasks = ⟨s.fresh, spec⟩ :: s.tasks := by rw [hinstalled.rest]
  rw [htasks, ← hs']
  apply Known.spliced _ (taskPipeSetup_splices _ _ _)
  intro n b hb
  obtain ⟨hnew, hfd⟩ | hb := taskPrepare_joins h₁ n b hb
  · refine ⟨?_, hfd⟩
    obtain rfl | rfl | rfl := hnew
    · exact .read List.mem_cons_self
    · exact .write List.mem_cons_self
    · exact .err List.mem_cons_self
  · obtain ⟨huse, hfd⟩ := hs n b hb
    obtain ⟨hr, hw, he⟩ := huse.ne_fresh hwf
    refine ⟨huse.mono fun t ht => List.mem_cons_of_mem _ ht, ?_⟩
    rw [← hfd]
    exact congrArg Atom.fd (hp.others b hr hw he).1

/-- The three atoms of a task, which task_destroy takes out of the registry before it calls the
destructor. -/
def destroyTaskAtoms (s : Sys) (task : TaskState) : Sys :=
  pipeAtomDestroy (pipeAtomDestroy (pipeAtomDestroy s (.read task.addr)) (.write task.addr)) (.err task.addr)

theorem taskDestroy_eq (s : Sys) (task : TaskState) :
    taskDestroy s task = destruct (destroyTaskAtoms s task) task.spec := rfl

/-- The atoms of a task that is taken off are registered no longer. -/
theorem Known.destroyed {task : TaskState} (hs : Known (task :: tasks) s)
    (hheld : ∀ a, InUse (task :: tasks) a → s.Held a) : Known tasks (destroyTaskAtoms s task) := by
  have hr := hheld _ (.read List.mem_cons_self)
  have hw := held_pipeAtomDestroy hr (hheld _ (.write List.mem_cons_self)) (by simp)
  have he := held_pipeAtomDestroy hr (hheld _ (.err List.mem_cons_self)) (by simp)
  have he := held_pipeAtomDestroy hw he (by simp)
  intro n b hb
  obtain ⟨hb, hne₃⟩ := pipeAtomDestroy_connections he hb
  obtain ⟨hb, hne₂⟩ := pipeAtomDestroy_connections hw hb
  obtain ⟨hb, hne₁⟩ := pipeAtomDestroy_connections hr hb
  rw [pipeAtomDestroy_atoms] at hne₂
  rw [pipeAtomDestroy_atoms, pipeAtomDestroy_atoms] at hne₃
  obtain ⟨huse, hfd⟩ := hs n b hb
  rw [destroyTaskAtoms, pipeAtomDestroy_atoms, pipeAtomDestroy_atoms, pipeAtomDestroy_atoms]
  refine ⟨?_, hfd⟩
  obtain huse | rfl | rfl | rfl := huse.of_cons
  · exact huse
  · exact absurd hfd hne₁
  · exact absurd hfd hne₂
  · exact absurd hfd hne₃

theorem Known.removed (hwf : s.WF) (hs : Known s.tasks s) (h : taskRemove s = .ok s') : Known s'.tasks s' := by
  obtain ⟨task, top, below, s₁, s₂, htasks, -⟩ := taskRemove_ok hwf h
  have hheld := hwf.held
  rw [htasks] at hs hheld
  let s₀ : Sys := taskPipeSetup { s with tasks := top :: below } top below
  have hsplice : Splices (readers top below) { s with tasks := top :: below } s₀ :=
    taskPipeSetup_splices _ top below
  have hs₀ : Known (task :: top :: below) s₀ := Known.spliced (s := { s with tasks := top :: below }) hs hsplice
  have hunstack : Known (top :: below) (unstack s task top below) :=
    hs₀.destroyed fun a ha => hsplice.held (hheld a ha)
  rw [taskRemove_eq htasks] at h
  have huntouched := destruct_untouched (unstack_rest s task top below).2.2.2.2.2 h
  rw [huntouched.tasks, unstack_tasks]
  exact hunstack.untouched huntouched

theorem lasting_known : Lasting fun s => Known s.tasks s where
  untouched hs h := by
    rw [h.tasks]
    exact hs.untouched h
  closed {s a} _ hs ha := by
    have htasks : (closeAtom s a).tasks = s.tasks := congrArg Shape.tasks (shape_closeAtom s a)
    rw [htasks]
    exact hs.closed ha
  installed hwf hs h := hs.installed hwf h
  removed hwf hs h := hs.removed hwf h

end Lasts

/-- A spec with the destructor of a receive process has its end scanner. -/
def WellMade (spec : TaskSpec) : Prop := spec.destructProc = .rzt → ∃ addr, spec.maoutRefcon = .zfin addr

theorem echoScannerCreateSpec_wellMade (s : Sys) : WellMade (echoScannerCreateSpec s).1 := by
  intro h
  cases h

theorem rzCreateSpec_wellMade (s : Sys) (infd outfd errfd childPid : Int) :
    WellMade (rzCreateSpec s infd outfd errfd childPid).1 := fun _ => ⟨s.fresh + 2, rfl⟩

section Ends

variable {s s' s₀ s₁ : Sys} {w : AtomRef} {spec : TaskSpec} {task : TaskState} {tasks : List TaskState}

theorem Untouched.held (h : Untouched s s') {a : AtomRef} (ha : s.Held a) : s'.Held a := by
  intro hl
  rw [Sys.live, h.atoms] at hl
  obtain ⟨hnonneg, hle, hc⟩ := ha hl
  rw [h.atoms]
  exact ⟨hnonneg, hle, by rw [h.connections, hc]⟩

theorem destruct_total (hw : (s.pipes .masterOutput).writeAtom = some w) (hmade : WellMade spec) :
    ∃ s', destruct s spec = .ok s' := by
  rw [destruct]
  cases hproc : spec.destructProc with
  | taskDefault => exact ⟨_, rfl⟩
  | echo => exact ⟨_, rfl⟩
  | echoScanner => exact ⟨_, rfl⟩
  | rzt =>
    obtain ⟨addr, hrefcon⟩ := hmade hproc
    obtain ⟨s', hs', -⟩ := rztDestructorProc_restored hw hrefcon
    exact ⟨s', hs'⟩

theorem destroyTaskAtoms_rest (s : Sys) (task : TaskState) :
    ∃ io, destroyTaskAtoms s task = { s with io := io } := destroyAtoms_rest s task.addr

/-- A task is destroyed, and the others stay registered. -/
theorem taskDestroy_known (hw : (s.pipes .masterOutput).writeAtom = some w) (hs : Known (task :: tasks) s)
    (hheld : ∀ a, InUse (task :: tasks) a → s.Held a)
    (hnodup : ((task :: tasks).map TaskState.addr).Nodup) (hmade : WellMade task.spec) :
    ∃ s', taskDestroy s task = .ok s' ∧ Known tasks s' ∧ (∀ a, InUse tasks a → s'.Held a) ∧
      (s'.pipes .masterOutput).writeAtom = some w := by
  obtain ⟨io, hio⟩ := destroyTaskAtoms_rest s task
  have hw₁ : ((destroyTaskAtoms s task).pipes .masterOutput).writeAtom = some w := by
    rw [hio]
    exact hw
  obtain ⟨s', hs'⟩ := destruct_total hw₁ hmade
  have huntouched := destruct_untouched hw₁ hs'
  obtain ⟨-, -, hothers⟩ := destroyAtoms (s := s) (n := task.addr) (hheld _ (.read List.mem_cons_self))
    (hheld _ (.write List.mem_cons_self)) (hheld _ (.err List.mem_cons_self)) (rfl : destroyTaskAtoms s task = _)
  refine ⟨s', (taskDestroy_eq s task).trans hs', (hs.destroyed hheld).untouched huntouched, fun a ha => ?_, ?_⟩
  · obtain ⟨hr, hw', he⟩ := ha.ne_of_nodup hnodup
    exact huntouched.held (hothers a hr hw' he (hheld a (ha.mono fun t ht => List.mem_cons_of_mem _ ht))).1
  · rw [(huntouched.ends _).2, hw₁]

/-- When all tasks are destroyed, one after the other, the master is left. -/
theorem destroyAll_known (hw : (s.pipes .masterOutput).writeAtom = some w) (hs : Known tasks s)
    (hheld : ∀ a, InUse tasks a → s.Held a) (hnodup : (tasks.map TaskState.addr).Nodup)
    (hmade : ∀ t ∈ tasks, WellMade t.spec) :
    ∃ s', destroyAll tasks s = .ok s' ∧ Known [] s' ∧ s'.Held .master := by
  induction tasks generalizing s with
  | nil => exact ⟨s, rfl, hs, hheld _ .master⟩
  | cons task tasks ih =>
    obtain ⟨s₁, h₁, hs₁, hheld₁, hw₁⟩ := taskDestroy_known hw hs hheld hnodup (hmade task List.mem_cons_self)
    rw [List.map_cons, List.nodup_cons] at hnodup
    obtain ⟨s', h', hs'⟩ := ih hw₁ hs₁ hheld₁ hnodup.2 fun t ht => hmade t (List.mem_cons_of_mem _ ht)
    refine ⟨s', ?_, hs'⟩
    rw [destroyAll, h₁]
    exact h'

theorem ioExitCheck_eq_zero {io : IoSelect} (h : ∀ n, io.connections n = none) : ioExitCheck io = 0 := by
  rw [ioExitCheck, List.length_eq_zero_iff, List.filter_eq_nil_iff]
  intro n _
  simp [h n]

/-- Without tasks, and without the master, nothing is left. -/
theorem ioExitCheck_master (hs : Known [] s) (hheld : s.Held .master) :
    ioExitCheck (pipeAtomDestroy s .master).io = 0 := by
  apply ioExitCheck_eq_zero
  intro n
  rw [Option.eq_none_iff_forall_ne_some]
  intro a ha
  obtain ⟨ha, hne⟩ := pipeAtomDestroy_connections hheld ha
  obtain ⟨huse, hfd⟩ := hs n a ha
  cases huse with
  | master => exact hne hfd
  | read ht => cases ht
  | write ht => cases ht
  | err ht => cases ht

theorem taskRemove_exits (hwf : s.WF) (hs : Known s.tasks s) (htasks : s.tasks = [task])
    (hmade : WellMade task.spec) :
    ∃ s', taskRemove s = .error (.bail 0, s') ∧ ioExitCheck s'.io = 0 := by
  have hheld := hwf.held
  have hnodup := hwf.nodup
  rw [htasks] at hs hheld hnodup
  obtain ⟨s₁, h₁, hs₁, hheld₁, -⟩ := taskDestroy_known (s := { s with tasks := [] }) (hwf.top _ _ htasks).2 hs
    hheld hnodup hmade
  let s₂ := pipeAtomDestroy s₁ .master
  refine ⟨(s₂.close s₂.stMasterFd).close s₂.stSlaveFd, ?_, ioExitCheck_master hs₁ (hheld₁ _ .master)⟩
  rw [taskRemove, htasks]
  simp only [h₁]
  rfl

theorem taskForkPrepare_clears (hwf : s.WF) (hs : Known s.tasks s) (hmade : ∀ t ∈ s.tasks, WellMade t.spec) :
    ∃ s', taskForkPrepare s = .ok s' ∧ ioExitCheck s'.io = 0 := by
  have hall : ∃ s₁, destroyAll s.tasks s = .ok s₁ ∧ Known [] s₁ ∧ s₁.Held .master := by
    cases htasks : s.tasks with
    | nil =>
      rw [htasks] at hs
      exact ⟨s, rfl, hs, hwf.held _ .master⟩
    | cons task below =>
      rw [← htasks]
      exact destroyAll_known (hwf.top _ _ htasks).2 hs hwf.held hwf.nodup hmade
  obtain ⟨s₁, h₁, hs₁, hheld₁⟩ := hall
  let s₂ := pipeAtomDestroy s₁ .master
  refine ⟨(s₂.close s₂.stMasterFd).close s₂.stSlaveFd, ?_, ioExitCheck_master hs₁ hheld₁⟩
  rw [taskForkPrepare, h₁]
  rfl

/-- The master is the first to be registered. -/
theorem masterPipeInit_known {fd : Int} {inma maou : Nat} {hinma : 0 < inma} {hmaou : 0 < maou}
    (hio : s₁.io = ioInit) (h : masterPipeInit s₁ fd inma maou hinma hmaou = .ok s₀) : Known [] s₀ := by
  obtain ⟨s₂, s₃, h₂, hsplices, rfl⟩ := masterPipeInit_splices h
  have hmaster : Known [] s₂ := by
    rw [pipeAtomInit] at h₂
    simp only at h₂
    split at h₂
    · cases h₂
    · next io hadd =>
      have hadd' : ioAdd s₁.io .master fd [] = (none, io) := hadd
      cases h₂
      intro n a ha
      have hjoins : Joins .master s₁
          ({ s₁ with io := io }.setAtom .master { s₁.atoms .master with fd := fd }) :=
        joins_ioAdd hadd' rfl (by simp [setAtom]) (by intro b hb; simp [setAtom, hb])
      obtain ⟨rfl, hfd⟩ | hnone := hjoins.connections n a ha
      · refine ⟨.master, ?_⟩
        rw [← hfd]
        simp [setAtom]
      · rw [hio] at hnone
        cases hnone
  have hpipes := hmaster.spliced hsplices
  exact hpipes

/-- In every state the registry holds the atoms of the master and of the tasks on the stack that are
open, and no other, so none is left when the last task has gone nor in a child that is forked. -/
theorem programRun_registry {fd : Int} {inma maou : Nat} {hinma : 0 < inma} {hmaou : 0 < maou}
    (hio : s₁.io = ioInit) (h₀ : masterPipeInit s₁ fd inma maou hinma hmaou = .ok s₀)
    (run : ProgramRun s₀ s) :
    (∀ n a, s.io.connections n = some a ↔ InUse s.tasks a ∧ (s.atoms a).fd = n) ∧
      (∀ task, s.tasks = [task] → WellMade task.spec →
        ∃ s', taskRemove s = .error (.bail 0, s') ∧ ioExitCheck s'.io = 0) ∧
      ((∀ task ∈ s.tasks, WellMade task.spec) →
        ∃ s', taskForkPrepare s = .ok s' ∧ ioExitCheck s'.io = 0) := by
  have hstarted : Started s₀ := ⟨_, _, _, _, _, _, h₀⟩
  have hwf := programRun_wf hstarted run
  have hknown₀ : Known s₀.tasks s₀ := by
    rw [(masterPipeInit_ok h₀).1]
    exact masterPipeInit_known hio h₀
  have hknown : Known s.tasks s := lasting_known.run hstarted hknown₀ run
  refine ⟨fun n a => ⟨hknown n a, fun h => ?_⟩, fun task htasks hmade => ?_, fun hmade => ?_⟩
  · obtain ⟨huse, hfd⟩ := h
    have hl : s.live a := by
      rw [Sys.live, hfd]
      exact Int.natCast_nonneg n
    have hc := (hwf.held a huse hl).connected
    rw [hfd, Int.toNat_natCast] at hc
    exact hc
  · exact taskRemove_exits hwf hknown htasks hmade
  · exact taskForkPrepare_clears hwf hknown hmade

end Ends

/-- A transfer has begun, on top of the echo task. -/
theorem programRun_registry_taken : ∃ s₀ s s', launch taken = .ok s₀ ∧ ProgramRun s₀ s ∧
    s.tasks.length = 2 ∧ (∀ n a, s.io.connections n = some a ↔ InUse s.tasks a ∧ (s.atoms a).fd = n) ∧
    taskForkPrepare s = .ok s' ∧ ioExitCheck s'.io = 0 := by
  obtain ⟨s₀, h₀, htest⟩ := Result.ok_of_passes (show (launch taken).passes (fun s₀ =>
    (play s₀ [.echoScanner, .autoRead .masterOutput]).passes fun s =>
      s.tasks.map (fun task => (task.spec.destructProc, task.spec.maoutRefcon)) =
        [(.rzt, .zfin 5), (.echoScanner, .zscan 1)]) = true by decide +kernel)
  obtain ⟨s, hplay, htest⟩ := Result.ok_of_passes htest
  have htasks := of_decide_eq_true htest
  have hrun : ProgramRun s₀ s := (play_run .start hplay).program
  have hmade : ∀ task ∈ s.tasks, WellMade task.spec := by
    intro task ht hrzt
    have hmem := List.mem_map_of_mem (f := fun task => (task.spec.destructProc, task.spec.maoutRefcon)) ht
    rw [htasks, hrzt] at hmem
    simp only [List.mem_cons, Prod.mk.injEq, List.not_mem_nil, or_false, true_and, reduceCtorEq, false_and] at hmem
    exact ⟨5, hmem⟩
  have hio : (blank taken).io = ioInit := rfl
  obtain ⟨hiff, -, hfork⟩ := programRun_registry hio h₀ hrun
  obtain ⟨s', hs', hclear⟩ := hfork hmade
  refine ⟨s₀, s, s', h₀, hrun, ?_, hiff, hs', hclear⟩
  have hlength := congrArg List.length htasks
  rw [List.length_map] at hlength
  exact hlength

end Rzh
