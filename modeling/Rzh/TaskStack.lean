import Rzh.Pipe

/-!
# The stack of tasks

What installing and removing a task do to the atoms, the pipes and the interests of all
the tasks on the stack.
-/
namespace Rzh

open Circular Sys

/-- The atoms that may be registered: that of the master and those of the tasks. -/
inductive InUse (tasks : List TaskState) : AtomRef → Prop where
  | master : InUse tasks .master
  | read {t : TaskState} (h : t ∈ tasks) : InUse tasks (.read t.addr)
  | write {t : TaskState} (h : t ∈ tasks) : InUse tasks (.write t.addr)
  | err {t : TaskState} (h : t ∈ tasks) : InUse tasks (.err t.addr)

theorem InUse.mono {ts ts' : List TaskState} {a : AtomRef} (h : InUse ts a) (hs : ∀ t ∈ ts, t ∈ ts') :
    InUse ts' a := by
  cases h with
  | master => exact .master
  | read h => exact .read (hs _ h)
  | write h => exact .write (hs _ h)
  | err h => exact .err (hs _ h)

/-- One task more brings three atoms. -/
theorem InUse.of_cons {t : TaskState} {ts : List TaskState} {a : AtomRef} (h : InUse (t :: ts) a) :
    InUse ts a ∨ a = .read t.addr ∨ a = .write t.addr ∨ a = .err t.addr := by
  cases h with
  | master => exact .inl .master
  | read ht =>
    obtain rfl | ht := List.mem_cons.mp ht
    · exact .inr (.inl rfl)
    · exact .inl (.read ht)
  | write ht =>
    obtain rfl | ht := List.mem_cons.mp ht
    · exact .inr (.inr (.inl rfl))
    · exact .inl (.write ht)
  | err ht =>
    obtain rfl | ht := List.mem_cons.mp ht
    · exact .inr (.inr (.inr rfl))
    · exact .inl (.err ht)

/-- A well-formed state: open atoms are registered, no two tasks share their atoms, and the
master and the topmost task are the ends of the pipes. -/
structure Sys.WF (s : Sys) : Prop where
  held : ∀ a, InUse s.tasks a → s.Held a
  below : ∀ t ∈ s.tasks, t.addr < s.fresh
  nodup : (s.tasks.map TaskState.addr).Nodup
  inUse : ∀ p a, (s.pipes p).readAtom = some a ∨ (s.pipes p).writeAtom = some a → InUse s.tasks a
  masterIn : (s.pipes .inputMaster).writeAtom = some .master
  masterOut : (s.pipes .masterOutput).readAtom = some .master
  top : ∀ t below, s.tasks = t :: below →
    (s.pipes .inputMaster).readAtom = some (.read t.addr) ∧
      (s.pipes .masterOutput).writeAtom = some (.write t.addr)

theorem Sys.WF.of_shape {s s' : Sys} (h : s.WF) (hshape : s'.shape = s.shape)
    (hheld : ∀ a, InUse s.tasks a → s'.Held a) : s'.WF := by
  have htasks : s'.tasks = s.tasks := congrArg Shape.tasks hshape
  have hfresh : s'.fresh = s.fresh := congrArg Shape.fresh hshape
  have hread : ∀ p, (s'.pipes p).readAtom = (s.pipes p).readAtom :=
    congrFun (congrArg Shape.readAtom hshape)
  have hwrite : ∀ p, (s'.pipes p).writeAtom = (s.pipes p).writeAtom :=
    congrFun (congrArg Shape.writeAtom hshape)
  refine ⟨?_, ?_, ?_, ?_, ?_, ?_, ?_⟩
  · rw [htasks]
    exact hheld
  · rw [htasks, hfresh]
    exact h.below
  · rw [htasks]
    exact h.nodup
  · intro p a ha
    rw [hread, hwrite] at ha
    rw [htasks]
    exact h.inUse p a ha
  · rw [hwrite, h.masterIn]
  · rw [hread, h.masterOut]
  · rw [htasks, hread, hwrite]
    exact h.top

/-- A stack whose topmost task is the end of both pipes. -/
theorem Sys.WF.of_top {s : Sys} {task : TaskState} {below : List TaskState}
    (htasks : s.tasks = task :: below) (hheld : ∀ a, InUse (task :: below) a → s.Held a)
    (hbelow : ∀ t ∈ task :: below, t.addr < s.fresh)
    (hnodup : ((task :: below).map TaskState.addr).Nodup)
    (hin : (s.pipes .inputMaster).readAtom = some (.read task.addr) ∧
      (s.pipes .inputMaster).writeAtom = some .master)
    (hout : (s.pipes .masterOutput).readAtom = some .master ∧
      (s.pipes .masterOutput).writeAtom = some (.write task.addr)) : s.WF := by
  rw [← htasks] at hheld hbelow hnodup
  refine ⟨hheld, hbelow, hnodup, ?_, hin.2, hout.1, ?_⟩
  · rw [htasks]
    intro p a ha
    cases p with
    | inputMaster =>
      rw [hin.1, hin.2] at ha
      obtain ha | ha := ha
      · cases ha
        exact .read List.mem_cons_self
      · cases ha
        exact .master
    | masterOutput =>
      rw [hout.1, hout.2] at ha
      obtain ha | ha := ha
      · cases ha
        exact .master
      · cases ha
        exact .write List.mem_cons_self
  · intro t ts he
    rw [htasks] at he
    obtain ⟨rfl, rfl⟩ := List.cons.inj he
    exact ⟨hin.1, hout.2⟩

/-- No pipe is read from a task's writer. -/
theorem Sys.WF.write_ne_reader {s : Sys} (h : s.WF) {t : TaskState} {below : List TaskState}
    (htasks : s.tasks = t :: below) {p : PipeRef} {r : AtomRef} (hr : (s.pipes p).readAtom = some r)
    (n : Nat) : AtomRef.write n ≠ r := by
  cases p with
  | inputMaster =>
    obtain rfl := Option.some.inj (hr.symm.trans (h.top t below htasks).1)
    simp
  | masterOutput =>
    obtain rfl := Option.some.inj (hr.symm.trans h.masterOut)
    simp

/-- Nothing but the atoms has changed. -/
def OnlyAtoms (s s' : Sys) : Prop := s' = { s with io := s'.io, atoms := s'.atoms }

theorem OnlyAtoms.trans {s s' s'' : Sys} (h : OnlyAtoms s s') (h' : OnlyAtoms s' s'') :
    OnlyAtoms s s'' := by
  rw [OnlyAtoms] at h h' ⊢
  rw [h] at h'
  exact h'

theorem OnlyAtoms.pipes {s s' : Sys} (h : OnlyAtoms s s') : s'.pipes = s.pipes := by
  rw [OnlyAtoms] at h
  rw [h]

/-- An atom that is set up, against the state before, to be listened to for `flags`. -/
structure Prepared (a : AtomRef) (fd : Int) (flags : List Interest) (s s' : Sys) : Prop where
  only : OnlyAtoms s s'
  live : s'.live a ↔ 0 ≤ fd
  fd : 0 ≤ fd → (s'.atoms a).fd = fd
  held : s'.Held a
  wants : ∀ i, s'.wants i a = true → i ∈ flags
  others : ∀ b, b ≠ a → s'.atoms b = s.atoms b
  heldOthers : ∀ b, b ≠ a → s.Held b → s'.Held b
  wantsOthers : ∀ b, b ≠ a → s.Held b → ∀ i, s'.wants i b = s.wants i b

/-- A descriptor that is registered anew was free before. -/
theorem prepared_ioAdd {s s' : Sys} {a : AtomRef} {fd : Int} {flags : List Interest} {io : IoSelect}
    (h : ioAdd s.io a fd flags = (none, io)) (hio : s'.io = io)
    (hafd : (s'.atoms a).fd = fd) (hothers : ∀ b, b ≠ a → s'.atoms b = s.atoms b)
    (honly : OnlyAtoms s s') : Prepared a fd flags s s' := by
  obtain ⟨⟨hfd, -, hfree⟩, hreg, hconn, hwants⟩ := ioAdd_ok h
  have hne : ∀ b, s.Held b → s.live b → (s.atoms b).fd ≠ fd := by
    intro b hb hl he
    have hc := (hb hl).connected
    rw [he, hfree] at hc
    cases hc
  exact {
    only := honly
    live := by rw [Sys.live, hafd]
    fd := fun _ => hafd
    held := fun _ => by
      rw [hio, hafd]
      exact hreg
    wants := fun i hi => by
      rw [Sys.wants, hio, hafd, hwants, if_pos rfl] at hi
      exact of_decide_eq_true hi
    others := hothers
    heldOthers := fun b hb hheld hl => by
      rw [Sys.live, hothers b hb] at hl
      obtain ⟨hn, hle, hc⟩ := hheld hl
      have hne' := hne b hheld hl
      rw [hothers b hb, hio]
      refine ⟨hn, hle, ?_⟩
      rw [hconn _ (by omega)]
      exact hc
    wantsOthers := fun b hb hheld i => by
      rw [Sys.wants, Sys.wants, hothers b hb, hio, hwants]
      split
      · next he =>
        have hl : s.live b := by
          rw [Sys.live, he]
          exact hfd
        exact absurd he (hne b hheld hl)
      · rfl }

theorem prepared_closed {s s' : Sys} {a : AtomRef} {fd : Int} (flags : List Interest) (hfd : ¬ 0 ≤ fd)
    (h : s' = s.setAtom a { s.atoms a with fd := -1 }) : Prepared a fd flags s s' := by
  have hdead : ¬ s'.live a := by
    rw [h, Sys.live, setAtom]
    simp
  have hothers : ∀ b, b ≠ a → s'.atoms b = s.atoms b := by
    intro b hb
    rw [h, setAtom]
    simp [hb]
  have hio : s'.io = s.io := by
    rw [h]
    rfl
  exact {
    only := by
      rw [h]
      rfl
    live := ⟨fun hl => absurd hl hdead, fun hl => absurd hl hfd⟩
    fd := fun hl => absurd hl hfd
    held := fun hl => absurd hl hdead
    wants := fun i hi => by
      rw [wants_of_not_live hdead] at hi
      cases hi
    others := hothers
    heldOthers := fun b hb hheld => by
      rw [Held, Sys.live, hothers b hb, hio]
      exact hheld
    wantsOthers := fun b hb _ i => by rw [Sys.wants, Sys.wants, hothers b hb, hio] }

theorem pipeAtomInit_ok {s s' : Sys} {a : AtomRef} {fd : Int}
    (h : pipeAtomInit s a fd = .ok s') : Prepared a fd [] s s' := by
  rw [pipeAtomInit] at h
  simp only at h
  split at h
  · cases h
  · next io hio =>
    have hio' : ioAdd s.io a fd [] = (none, io) := hio
    cases h
    apply prepared_ioAdd hio'
    · rfl
    · simp [setAtom]
    · intro b hb
      simp [setAtom, hb]
    · rfl

theorem taskPrepareAtom_ok {s s' : Sys} {a : AtomRef} {fd : Int}
    (h : taskPrepareAtom s a fd = .ok s') : Prepared a fd [] s s' := by
  rw [taskPrepareAtom] at h
  split at h
  · next hfd => exact pipeAtomInit_ok h
  · next hfd =>
    cases h
    exact prepared_closed [] hfd rfl

/-- Without a proc the atom for the errors is left without a descriptor too. -/
theorem taskPrepareErr_ok {s s' : Sys} {a : AtomRef} {spec : TaskSpec}
    (h : taskPrepareErr s a spec = .ok s') : ∃ fd, Prepared a fd [.read] s s' := by
  rw [taskPrepareErr] at h
  split at h
  · cases h
    exact ⟨-1, prepared_closed [.read] (by decide) rfl⟩
  · split at h
    · next hfd =>
      simp only at h
      split at h
      · cases h
      · next io hio =>
        have hio' : ioAdd s.io a spec.errfd [.read] = (none, io) := hio
        cases h
        refine ⟨spec.errfd, ?_⟩
        apply prepared_ioAdd hio'
        · rfl
        · simp [setAtom]
        · intro b hb
          simp [setAtom, hb]
        · rfl
    · next hfd =>
      cases h
      exact ⟨spec.errfd, prepared_closed [.read] hfd rfl⟩

theorem Splices.setProc (rs : List AtomRef) (s : Sys) (p : PipeRef) (proc : Option FifoProc)
    (refcon : Refcon) : Splices rs s (setProc s p proc refcon) where
  rest := rfl
  fd _ := rfl
  connections := rfl
  wants _ _ _ _ := .inl rfl

/-- The readers that task_pipe_setup may start to listen to: the new one and the one below. -/
def readers (task : TaskState) (below : List TaskState) : List AtomRef :=
  .read task.addr :: (below.head?.map fun verso => AtomRef.read verso.addr).toList

theorem master_not_reader (task : TaskState) (below : List TaskState) :
    AtomRef.master ∉ readers task below := by
  cases below with
  | nil => simp [readers]
  | cons verso rest => simp [readers]

theorem versoSetup_splices (s : Sys) (task : TaskState) (below : List TaskState) :
    Splices (readers task below) s (versoSetup s task below) := by
  cases hproc : task.spec.versoInputProc with
  | none =>
    simp only [versoSetup, hproc]
    exact .refl _ s
  | some proc =>
    cases below with
    | nil =>
      simp only [versoSetup, hproc]
      exact .refl _ s
    | cons verso rest =>
      simp only [versoSetup, hproc]
      split
      · have h₁ : Splices (readers task (verso :: rest)) s (s.setAtom (.read verso.addr)
            { s.atoms (.read verso.addr) with proc := proc, readPipe := task.spec.versoInputRefcon }) :=
          .setAtom _ s _ rfl
        exact h₁.trans (.enable _ (by simp [readers]))
      · exact .refl _ s

theorem versoSetup_pipes (s : Sys) (task : TaskState) (below : List TaskState) :
    (versoSetup s task below).pipes = s.pipes := by
  cases hproc : task.spec.versoInputProc with
  | none => simp only [versoSetup, hproc]
  | some proc =>
    cases below with
    | nil => simp only [versoSetup, hproc]
    | cons verso rest =>
      simp only [versoSetup, hproc]
      split <;> rfl

theorem spliceAtoms_splices (s : Sys) (task : TaskState) (below : List TaskState) :
    Splices (readers task below) s (spliceAtoms s task) := by
  rw [spliceAtoms]
  let s₁ := s.setPipe .inputMaster
    { s.pipes .inputMaster with readAtom := some (.read task.addr), blockRead := false }
  let s₂ := s₁.setAtom (.read task.addr) { s₁.atoms (.read task.addr) with readPipe := .pipe .inputMaster }
  let s₃ := s₂.setPipe .masterOutput { s₂.pipes .masterOutput with writeAtom := some (.write task.addr) }
  let s₄ := s₃.setAtom (.write task.addr)
    { s₃.atoms (.write task.addr) with writePipe := some .masterOutput }
  have h₁ : Splices (readers task below) s s₁ := .setPipe _ s _ _
  have h₂ : Splices (readers task below) s₁ s₂ := .setAtom _ s₁ _ rfl
  have h₃ : Splices (readers task below) s₂ s₃ := .setPipe _ s₂ _ _
  have h₄ : Splices (readers task below) s₃ s₄ := .setAtom _ s₃ _ rfl
  have h := ((h₁.trans h₂).trans h₃).trans h₄
  change Splices _ s (if 0 ≤ (s₄.atoms (.read task.addr)).fd then s₄.enable _ _ else s₄)
  split
  · exact h.trans (.enable _ (by simp [readers]))
  · exact h

theorem spliceAtoms_pipes (s : Sys) (task : TaskState) :
    (spliceAtoms s task).pipes .inputMaster = { s.pipes .inputMaster with
      readAtom := some (.read task.addr), blockRead := false } ∧
    (spliceAtoms s task).pipes .masterOutput = { s.pipes .masterOutput with
      writeAtom := some (.write task.addr) } := by
  have hne : PipeRef.inputMaster ≠ .masterOutput := by decide
  rw [spliceAtoms]
  simp only
  split
  · exact ⟨by simp [Sys.enable, Sys.setAtom, Sys.setPipe, hne],
      by simp [Sys.enable, Sys.setAtom, Sys.setPipe]⟩
  · exact ⟨by simp [Sys.setAtom, Sys.setPipe, hne], by simp [Sys.setAtom, Sys.setPipe]⟩

/-- task_pipe_setup up to the fifo procs. -/
theorem taskPipeSetup_cases (s : Sys) (task : TaskState) (below : List TaskState) :
    ∃ s₁, Splices (readers task below) s s₁ ∧ s₁.pipes = s.pipes ∧
      taskPipeSetup s task below =
        setProc (setProc (spliceAtoms (versoSetup s₁ task below) task) .inputMaster task.spec.inmaProc
          task.spec.inmaRefcon) .masterOutput task.spec.maoutProc task.spec.maoutRefcon := by
  rw [taskPipeSetup]
  simp only
  split
  · refine ⟨_, .setAtom _ s _ ?_, ?_, rfl⟩
    · rfl
    · rfl
  · exact ⟨s, .refl _ s, rfl, rfl⟩

theorem taskPipeSetup_splices (s : Sys) (task : TaskState) (below : List TaskState) :
    Splices (readers task below) s (taskPipeSetup s task below) := by
  obtain ⟨s₁, h₁, -, he⟩ := taskPipeSetup_cases s task below
  rw [he]
  have h₂ := versoSetup_splices s₁ task below
  have h₃ := spliceAtoms_splices (versoSetup s₁ task below) task below
  exact (((h₁.trans h₂).trans h₃).trans (.setProc _ _ _ _ _)).trans (.setProc _ _ _ _ _)

/-- The pipes end in the task's atoms and use its procs; the rings are as they were. -/
theorem taskPipeSetup_pipes (s : Sys) (task : TaskState) (below : List TaskState) :
    (taskPipeSetup s task below).pipes .inputMaster = { s.pipes .inputMaster with
      readAtom := some (.read task.addr), blockRead := false
      fifo := { s.fifo .inputMaster with
        proc := task.spec.inmaProc, refcon := task.spec.inmaRefcon } } ∧
    (taskPipeSetup s task below).pipes .masterOutput = { s.pipes .masterOutput with
      writeAtom := some (.write task.addr)
      fifo := { s.fifo .masterOutput with
        proc := task.spec.maoutProc, refcon := task.spec.maoutRefcon } } := by
  obtain ⟨s₁, -, hpipes, he⟩ := taskPipeSetup_cases s task below
  obtain ⟨hin, hout⟩ := spliceAtoms_pipes (versoSetup s₁ task below) task
  rw [versoSetup_pipes, hpipes] at hin hout
  have hne : PipeRef.masterOutput ≠ .inputMaster := by decide
  rw [he, setProc, setProc]
  constructor
  · rw [setFifo_ne _ _ _ hne.symm, setFifo_same, Sys.fifo, hin]
    rfl
  · simp only [setFifo_same, Sys.fifo, setFifo_ne _ _ _ hne, hout]

/-- The atoms of a new task, set up one after the other. -/
structure TaskPrepared (spec : TaskSpec) (s s' : Sys) : Prop where
  only : OnlyAtoms { s with fresh := s.fresh + 1 } s'
  liveR : s'.live (.read s.fresh) ↔ 0 ≤ spec.infd
  liveW : s'.live (.write s.fresh) ↔ 0 ≤ spec.outfd
  fdW : 0 ≤ spec.outfd → (s'.atoms (.write s.fresh)).fd = spec.outfd
  wantsW : ∀ i, s'.wants i (.write s.fresh) = false
  heldNew : s'.Held (.read s.fresh) ∧ s'.Held (.write s.fresh) ∧ s'.Held (.err s.fresh)
  others : ∀ a, a ≠ .read s.fresh → a ≠ .write s.fresh → a ≠ .err s.fresh →
    s'.atoms a = s.atoms a ∧ (s.Held a → s'.Held a ∧ ∀ i, s'.wants i a = s.wants i a)

theorem taskPrepare_ok {s s' : Sys} {spec : TaskSpec} {task : TaskState}
    (h : taskPrepare s spec = .ok (task, s')) : task = ⟨s.fresh, spec⟩ ∧ TaskPrepared spec s s' := by
  let s₀ : Sys := { s with fresh := s.fresh + 1 }
  obtain ⟨s₁, h₁, h⟩ := Result.bind_ok h
  obtain ⟨s₂, h₂, h⟩ := Result.bind_ok h
  obtain ⟨s₃, h₃, h⟩ := Result.bind_ok h
  cases h
  have hr : Prepared (.read s.fresh) spec.infd [] s₀ s₁ := taskPrepareAtom_ok h₁
  have hw : Prepared (.write s.fresh) spec.outfd [] s₁ s₂ := taskPrepareAtom_ok h₂
  obtain ⟨fd, he⟩ : ∃ fd, Prepared (.err s.fresh) fd [.read] s₂ s' := taskPrepareErr_ok h₃
  have hrw : AtomRef.read s.fresh ≠ .write s.fresh := by simp
  have hre : AtomRef.read s.fresh ≠ .err s.fresh := by simp
  have hwe : AtomRef.write s.fresh ≠ .err s.fresh := by simp
  have hheldR : s₂.Held (.read s.fresh) := hw.heldOthers _ hrw hr.held
  refine ⟨rfl, (hr.only.trans hw.only).trans he.only, ?_, ?_, ?_, ?_, ?_, ?_⟩
  · rw [Sys.live, he.others _ hre, hw.others _ hrw]
    exact hr.live
  · rw [Sys.live, he.others _ hwe]
    exact hw.live
  · intro hfd
    rw [he.others _ hwe]
    exact hw.fd hfd
  · intro i
    rw [he.wantsOthers _ hwe hw.held, ← Bool.not_eq_true]
    intro hi
    exact absurd (hw.wants i hi) (by simp)
  · exact ⟨he.heldOthers _ hre hheldR, he.heldOthers _ hwe hw.held, he.held⟩
  · intro a har haw hae
    refine ⟨by rw [he.others a hae, hw.others a haw, hr.others a har], fun hheld => ?_⟩
    have hheld₀ : s₀.Held a := hheld
    have hheld₁ := hr.heldOthers a har hheld₀
    have hheld₂ := hw.heldOthers a haw hheld₁
    refine ⟨he.heldOthers a hae hheld₂, fun i => ?_⟩
    rw [he.wantsOthers a hae hheld₂, hw.wantsOthers a haw hheld₁, hr.wantsOthers a har hheld₀]
    rfl

/-- A task on top of the others, against the state before. -/
structure Installed (spec : TaskSpec) (s s' : Sys) : Prop where
  rest : s' = { s with
    io := s'.io, atoms := s'.atoms, pipes := s'.pipes
    tasks := ⟨s.fresh, spec⟩ :: s.tasks, fresh := s.fresh + 1 }
  wf : s'.WF
  liveR : s'.live (.read s.fresh) ↔ 0 ≤ spec.infd
  liveW : s'.live (.write s.fresh) ↔ 0 ≤ spec.outfd
  fdW : 0 ≤ spec.outfd → (s'.atoms (.write s.fresh)).fd = spec.outfd
  writeW : s'.wants .write (.write s.fresh) = false
  fd : ∀ a, InUse s.tasks a → (s'.atoms a).fd = (s.atoms a).fd
  wants : ∀ a, InUse s.tasks a → ∀ i,
    s'.wants i a = s.wants i a ∨ i = .read ∧ a ∈ readers ⟨s.fresh, spec⟩ s.tasks
  inputMaster : s'.pipes .inputMaster = { s.pipes .inputMaster with
    readAtom := some (.read s.fresh), blockRead := false
    fifo := { s.fifo .inputMaster with proc := spec.inmaProc, refcon := spec.inmaRefcon } }
  masterOutput : s'.pipes .masterOutput = { s.pipes .masterOutput with
    writeAtom := some (.write s.fresh)
    fifo := { s.fifo .masterOutput with proc := spec.maoutProc, refcon := spec.maoutRefcon } }

theorem InUse.ne_fresh {s : Sys} (h : s.WF) {a : AtomRef} (ha : InUse s.tasks a) :
    a ≠ .read s.fresh ∧ a ≠ .write s.fresh ∧ a ≠ .err s.fresh := by
  cases ha with
  | master => simp
  | read ht =>
    have := h.below _ ht
    simp
    omega
  | write ht =>
    have := h.below _ ht
    simp
    omega
  | err ht =>
    have := h.below _ ht
    simp
    omega

theorem readers_inUse (task : TaskState) (below : List TaskState) :
    ∀ a ∈ readers task below, InUse (task :: below) a := by
  intro a ha
  rw [readers, List.mem_cons] at ha
  obtain rfl | ha := ha
  · exact .read List.mem_cons_self
  · cases below with
    | nil => simp at ha
    | cons verso rest =>
      obtain rfl : a = .read verso.addr := by simpa using ha
      exact .read (List.mem_cons_of_mem _ List.mem_cons_self)

/-- The atoms that were there before are as they were. -/
theorem TaskPrepared.keeps {s s' : Sys} {spec : TaskSpec} (h : TaskPrepared spec s s') (hwf : s.WF) {a : AtomRef}
    (ha : InUse s.tasks a) : s'.atoms a = s.atoms a ∧ s'.Held a ∧ ∀ i, s'.wants i a = s.wants i a := by
  obtain ⟨hr, hw, he⟩ := ha.ne_fresh hwf
  obtain ⟨hat, hheld⟩ := h.others a hr hw he
  exact ⟨hat, hheld (hwf.held a ha)⟩

theorem TaskPrepared.held {s s' : Sys} {spec : TaskSpec} (h : TaskPrepared spec s s') (hwf : s.WF) {a : AtomRef}
    (ha : InUse (⟨s.fresh, spec⟩ :: s.tasks) a) : s'.Held a := by
  obtain ⟨hr, hw, he⟩ := h.heldNew
  obtain ha | rfl | rfl | rfl := ha.of_cons
  · exact (h.keeps hwf ha).2.1
  · exact hr
  · exact hw
  · exact he

/-- The new address is that of no task. -/
theorem Sys.WF.fresh_nodup {s : Sys} (hwf : s.WF) (spec : TaskSpec) :
    ((⟨s.fresh, spec⟩ :: s.tasks).map TaskState.addr).Nodup := by
  rw [List.map_cons, List.nodup_cons]
  refine ⟨fun hmem => ?_, hwf.nodup⟩
  obtain ⟨t, ht, he⟩ := List.mem_map.mp hmem
  exact absurd (hwf.below t ht) (by simp only at he; omega)

theorem taskInstall_ok {s s' : Sys} {spec : TaskSpec} (hwf : s.WF)
    (h : taskInstall s spec = .ok s') : Installed spec s s' := by
  obtain ⟨⟨task, s₁⟩, h₁, h⟩ := Result.bind_ok h
  obtain ⟨rfl, hp⟩ := taskPrepare_ok h₁
  have honly := hp.only
  rw [OnlyAtoms] at honly
  let s₂ : Sys := { s₁ with tasks := ⟨s.fresh, spec⟩ :: s.tasks }
  have htasks : s₁.tasks = s.tasks := by rw [honly]
  have hfresh : s₁.fresh = s.fresh + 1 := by rw [honly]
  have hpipes : s₁.pipes = s.pipes := by rw [honly]
  have hs' : s' = taskPipeSetup s₂ ⟨s.fresh, spec⟩ s.tasks := by
    have h' : taskPipeSetup { s₁ with tasks := ⟨s.fresh, spec⟩ :: s₁.tasks } ⟨s.fresh, spec⟩ s₁.tasks = s' :=
      Except.ok.inj h
    rw [htasks] at h'
    exact h'.symm
  have hsplice : Splices (readers ⟨s.fresh, spec⟩ s.tasks) s₂ s' := by
    rw [hs']
    exact taskPipeSetup_splices s₂ _ _
  obtain ⟨hin, hout⟩ := taskPipeSetup_pipes s₂ ⟨s.fresh, spec⟩ s.tasks
  rw [← hs'] at hin hout
  have hheld : ∀ a, InUse (⟨s.fresh, spec⟩ :: s.tasks) a → s₂.Held a := fun a ha => hp.held hwf ha
  have hrs : ∀ a ∈ readers ⟨s.fresh, spec⟩ s.tasks, s₂.Held a :=
    fun a ha => hheld a (readers_inUse _ _ a ha)
  have hrest : s' = { s with
      io := s'.io, atoms := s'.atoms, pipes := s'.pipes
      tasks := ⟨s.fresh, spec⟩ :: s.tasks, fresh := s.fresh + 1 } := by
    have hr := hsplice.rest
    simp only [s₂] at hr
    rw [honly] at hr
    exact hr
  have htasks' : s'.tasks = ⟨s.fresh, spec⟩ :: s.tasks := by rw [hrest]
  have hfresh' : s'.fresh = s.fresh + 1 := by rw [hrest]
  have hinMaster : (s₂.pipes .inputMaster) = s.pipes .inputMaster := by rw [← hpipes]
  have houtMaster : (s₂.pipes .masterOutput) = s.pipes .masterOutput := by rw [← hpipes]
  rw [hinMaster, Sys.fifo, hinMaster] at hin
  rw [houtMaster, Sys.fifo, houtMaster] at hout
  refine ⟨hrest, .of_top htasks' (fun a ha => hsplice.held (hheld a ha)) ?_ ?_ ?_ ?_,
    ?_, ?_, ?_, ?_, ?_, ?_, hin, hout⟩
  · rw [hfresh']
    intro t ht
    obtain rfl | ht := List.mem_cons.mp ht
    · exact Nat.lt_succ_self _
    · exact Nat.lt_succ_of_lt (hwf.below t ht)
  · exact hwf.fresh_nodup spec
  · rw [hin]
    exact ⟨rfl, hwf.masterIn⟩
  · rw [hout]
    exact ⟨hwf.masterOut, rfl⟩
  · rw [hsplice.live]
    exact hp.liveR
  · rw [hsplice.live]
    exact hp.liveW
  · rw [hsplice.fd]
    exact hp.fdW
  · obtain he | ⟨he, -⟩ := hsplice.wants hrs (.write s.fresh) .write hp.heldNew.2.1
    · rw [he]
      exact hp.wantsW .write
    · cases he
  · intro a ha
    rw [hsplice.fd]
    exact congrArg Atom.fd (hp.keeps hwf ha).1
  · intro a ha i
    obtain ⟨-, hheld', hwants⟩ := hp.keeps hwf ha
    obtain he | hread := hsplice.wants hrs a i hheld'
    · left
      rw [he]
      exact hwants i
    · exact .inr hread

end Rzh
