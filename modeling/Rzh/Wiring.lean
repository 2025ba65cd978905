import Rzh.Session

/-!
# What an atom is for

A callback follows the pointers of its atom. They lead where they should, whatever tasks have come
and gone, and nobody is called for what he has no pointer for.
-/
namespace Rzh

open Sys

/-- The atoms that no verso proc can get have the proc and the pipes that they were made for. -/
structure Wired (s : Sys) : Prop where
  master : (s.atoms .master).proc = .pipeIoProc ∧ (s.atoms .master).readPipe = .pipe .masterOutput ∧
    (s.atoms .master).writePipe = some .inputMaster
  reader : ∀ task below, s.tasks = task :: below → (s.atoms (.read task.addr)).readPipe = .pipe .inputMaster
  writer : ∀ task ∈ s.tasks, s.live (.write task.addr) → (s.atoms (.write task.addr)).proc = .pipeIoProc ∧
    (s.atoms (.write task.addr)).writePipe = some .masterOutput
  err : ∀ task ∈ s.tasks, s.live (.err task.addr) →
    task.spec.errProc = some (s.atoms (.err task.addr)).proc

/-- What the callback of an atom can do something about. -/
def AtomRef.Serves : AtomRef → Interest → Prop
  | .master, i => i = .read ∨ i = .write
  | .read _, i => i = .read
  | .write _, i => i = .write
  | .err _, i => i = .read

/-- select() is asked about nothing else. -/
def Aimed (s : Sys) : Prop := ∀ a, InUse s.tasks a → ∀ i, s.wants i a = true → a.Serves i

section Setup

variable {s s' : Sys} {a : AtomRef} {task : TaskState} {below : List TaskState} {fd : Int} {spec : TaskSpec}

/-- The verso proc is given to a reader. -/
theorem versoSetup_aside (s : Sys) (task : TaskState) (below : List TaskState) (ha : ∀ n, a ≠ .read n) :
    (versoSetup s task below).atoms a = s.atoms a := by
  cases hproc : task.spec.versoInputProc with
  | none => simp only [versoSetup, hproc]
  | some proc =>
    cases below with
    | nil => simp only [versoSetup, hproc]
    | cons verso rest =>
      simp only [versoSetup, hproc]
      split
      · simp [enable, setAtom, ha verso.addr]
      · rfl

theorem spliceAtoms_aside (s : Sys) (task : TaskState) (ha : ∀ n, a ≠ .read n) :
    (spliceAtoms s task).atoms a =
      if a = .write task.addr then { s.atoms a with writePipe := some .masterOutput } else s.atoms a := by
  have hatoms : ∀ s' : Sys, (if 0 ≤ (s'.atoms (.read task.addr)).fd then
      s'.enable (.read task.addr) [.read] else s').atoms = s'.atoms := by
    intro s'
    split
    · rfl
    · rfl
  rw [spliceAtoms]
  simp only [hatoms]
  split
  · next hw =>
    subst hw
    simp [setAtom, setPipe]
  · next hw => simp [setAtom, setPipe, hw, ha]

/-- Apart from readers, only the writer of the task itself gets a new pipe. -/
theorem taskPipeSetup_aside (s : Sys) (task : TaskState) (below : List TaskState) (ha : ∀ n, a ≠ .read n) :
    (taskPipeSetup s task below).atoms a =
      if a = .write task.addr then { s.atoms a with writePipe := some .masterOutput } else s.atoms a := by
  let s₁ : Sys := if 0 ≤ (s.atoms (.read task.addr)).fd then
    s.setAtom (.read task.addr) { s.atoms (.read task.addr) with proc := .pipeIoProc } else s
  have hfirst : s₁.atoms a = s.atoms a := by
    change (if _ then _ else _ : Sys).atoms _ = _
    split
    · simp [setAtom, ha]
    · rfl
  change (spliceAtoms (versoSetup s₁ task below) task).atoms _ = _
  rw [spliceAtoms_aside _ _ ha, versoSetup_aside _ _ _ ha, hfirst]

theorem taskPipeSetup_reader (s : Sys) (task : TaskState) (below : List TaskState) :
    ((taskPipeSetup s task below).atoms (.read task.addr)).readPipe = .pipe .inputMaster := by
  change ((spliceAtoms _ task).atoms _).readPipe = _
  rw [spliceAtoms_read, if_pos rfl]

theorem pipeAtomInit_proc (h : pipeAtomInit s a fd = .ok s') : (s'.atoms a).proc = .pipeIoProc := by
  rw [pipeAtomInit] at h
  simp only at h
  split at h
  · cases h
  · cases h
    simp [setAtom]

theorem taskPrepareAtom_proc (h : taskPrepareAtom s a fd = .ok s') (hl : s'.live a) :
    (s'.atoms a).proc = .pipeIoProc := by
  rw [taskPrepareAtom] at h
  split at h
  · exact pipeAtomInit_proc h
  · cases h
    simp [Sys.live, setAtom] at hl

theorem taskPrepareErr_proc (h : taskPrepareErr s a spec = .ok s') (hl : s'.live a) :
    spec.errProc = some (s'.atoms a).proc := by
  rw [taskPrepareErr] at h
  split at h
  · cases h
    simp [Sys.live, setAtom] at hl
  · next proc hproc =>
    split at h
    · simp only at h
      split at h
      · cases h
      · cases h
        simp [setAtom, hproc]
    · cases h
      simp [Sys.live, setAtom] at hl

/-- The new task's writer and the atom for its errors are for what they should be. -/
theorem taskPrepare_procs (h : taskPrepare s spec = .ok (task, s')) :
    (s'.live (.write s.fresh) → (s'.atoms (.write s.fresh)).proc = .pipeIoProc) ∧
      (s'.live (.err s.fresh) → spec.errProc = some (s'.atoms (.err s.fresh)).proc) := by
  obtain ⟨s₁, h₁, h⟩ := Result.bind_ok h
  obtain ⟨s₂, h₂, h⟩ := Result.bind_ok h
  obtain ⟨s₃, h₃, h⟩ := Result.bind_ok h
  cases h
  obtain ⟨fd, herr⟩ := taskPrepareErr_ok h₃
  have hkeep : s'.atoms (.write s.fresh) = s₂.atoms (.write s.fresh) := herr.others _ (by simp)
  refine ⟨fun hl => ?_, taskPrepareErr_proc h₃⟩
  rw [Sys.live, hkeep] at hl
  rw [hkeep]
  exact taskPrepareAtom_proc h₂ hl

end Setup

section Lasts

variable {s s' s₀ : Sys} {spec : TaskSpec}

theorem Wired.untouched (hs : Wired s) (h : Untouched s s') : Wired s' where
  master := by
    rw [h.atoms]
    exact hs.master
  reader task below htasks := by
    rw [h.tasks] at htasks
    rw [h.atoms]
    exact hs.reader task below htasks
  writer task ht hl := by
    rw [h.tasks] at ht
    rw [Sys.live, h.atoms] at hl
    rw [h.atoms]
    exact hs.writer task ht hl
  err task ht hl := by
    rw [h.tasks] at ht
    rw [Sys.live, h.atoms] at hl
    rw [h.atoms]
    exact hs.err task ht hl

theorem Wired.closed (hs : Wired s) (a : AtomRef) : Wired (closeAtom s a) := by
  have htasks : (closeAtom s a).tasks = s.tasks := congrArg Shape.tasks (shape_closeAtom s a)
  have hatom : ∀ b, ((closeAtom s a).atoms b).proc = (s.atoms b).proc ∧
      ((closeAtom s a).atoms b).readPipe = (s.atoms b).readPipe ∧
      ((closeAtom s a).atoms b).writePipe = (s.atoms b).writePipe := by
    intro b
    rw [closeAtom_atoms]
    by_cases hb : b = a
    · subst hb
      simp
    · simp [hb]
  refine ⟨?_, fun task below he => ?_, fun task ht hl => ?_, fun task ht hl => ?_⟩
  · rw [(hatom .master).1, (hatom .master).2.1, (hatom .master).2.2]
    exact hs.master
  · rw [htasks] at he
    rw [(hatom _).2.1]
    exact hs.reader task below he
  · obtain ⟨hl', hatom, -⟩ := closeAtom_open hl
    rw [htasks] at ht
    rw [hatom]
    exact hs.writer task ht hl'
  · obtain ⟨hl', hatom, -⟩ := closeAtom_open hl
    rw [htasks] at ht
    rw [hatom]
    exact hs.err task ht hl'

/-- The writer of the task that is set up gets its pipe now. -/
theorem taskPipeSetup_wired {task : TaskState} {below : List TaskState} (hstack : s.tasks = task :: below)
    (hmaster : (s.atoms .master).proc = .pipeIoProc ∧ (s.atoms .master).readPipe = .pipe .masterOutput ∧
      (s.atoms .master).writePipe = some .inputMaster)
    (hproc : ∀ t ∈ s.tasks, s.live (.write t.addr) → (s.atoms (.write t.addr)).proc = .pipeIoProc)
    (hpipe : ∀ t ∈ s.tasks, s.live (.write t.addr) → t.addr ≠ task.addr →
      (s.atoms (.write t.addr)).writePipe = some .masterOutput)
    (herr : ∀ t ∈ s.tasks, s.live (.err t.addr) → t.spec.errProc = some (s.atoms (.err t.addr)).proc) :
    Wired (taskPipeSetup s task below) := by
  have hsplice := taskPipeSetup_splices s task below
  have htasks : (taskPipeSetup s task below).tasks = s.tasks := by rw [hsplice.rest]
  refine ⟨?_, fun t lower he => ?_, fun t ht hl => ?_, fun t ht hl => ?_⟩
  · rw [taskPipeSetup_aside s task below (by simp), if_neg (by simp)]
    exact hmaster
  · rw [htasks, hstack] at he
    obtain ⟨rfl, -⟩ := List.cons.inj he
    exact taskPipeSetup_reader s task below
  · rw [htasks] at ht
    have hl' := hsplice.live.mp hl
    rw [taskPipeSetup_aside s task below (by simp)]
    split
    · exact ⟨hproc t ht hl', rfl⟩
    · next hne => exact ⟨hproc t ht hl', hpipe t ht hl' fun he => hne (by rw [he])⟩
  · rw [htasks] at ht
    rw [taskPipeSetup_aside s task below (by simp), if_neg (by simp)]
    exact herr t ht (hsplice.live.mp hl)

theorem Wired.installed (hwf : s.WF) (hs : Wired s) (h : taskInstall s spec = .ok s') : Wired s' := by
  obtain ⟨⟨task, s₁⟩, h₁, h⟩ := Result.bind_ok h
  obtain ⟨hprocW, hprocE⟩ := taskPrepare_procs h₁
  obtain ⟨rfl, hp⟩ := taskPrepare_ok h₁
  have honly := hp.only
  rw [OnlyAtoms] at honly
  have htasks : s₁.tasks = s.tasks := by rw [honly]
  have hs' : taskPipeSetup { s₁ with tasks := ⟨s.fresh, spec⟩ :: s.tasks } ⟨s.fresh, spec⟩ s.tasks = s' := by
    rw [← htasks]
    exact Except.ok.inj h
  have hkeeps : ∀ a, InUse s.tasks a → s₁.atoms a = s.atoms a := fun a ha => (hp.keeps hwf ha).1
  rw [← hs']
  apply taskPipeSetup_wired rfl
  · change (s₁.atoms .master).proc = _ ∧ (s₁.atoms .master).readPipe = _ ∧ (s₁.atoms .master).writePipe = _
    rw [hkeeps .master .master]
    exact hs.master
  · intro t ht hl
    obtain rfl | ht := List.mem_cons.mp ht
    · exact hprocW hl
    · change 0 ≤ (s₁.atoms _).fd at hl
      change (s₁.atoms _).proc = _
      rw [hkeeps _ (.write ht)] at hl ⊢
      exact (hs.writer t ht hl).1
  · intro t ht hl hne
    obtain rfl | ht := List.mem_cons.mp ht
    · exact absurd rfl hne
    · change 0 ≤ (s₁.atoms _).fd at hl
      change (s₁.atoms _).writePipe = _
      rw [hkeeps _ (.write ht)] at hl ⊢
      exact (hs.writer t ht hl).2
  · intro t ht hl
    obtain rfl | ht := List.mem_cons.mp ht
    · exact hprocE hl
    · change 0 ≤ (s₁.atoms _).fd at hl
      change _ = some (s₁.atoms _).proc
      rw [hkeeps _ (.err ht)] at hl ⊢
      exact hs.err t ht hl

theorem Wired.removed (hwf : s.WF) (hs : Wired s) (h : taskRemove s = .ok s') : Wired s' := by
  obtain ⟨task, top, below, -, -, htasks, -⟩ := taskRemove_ok hwf h
  have hmem : ∀ t ∈ top :: below, t ∈ s.tasks := by
    intro t ht
    rw [htasks]
    exact List.mem_cons_of_mem task ht
  have hsetup : Wired (taskPipeSetup { s with tasks := top :: below } top below) :=
    taskPipeSetup_wired rfl hs.master (fun t ht hl => (hs.writer t (hmem t ht) hl).1)
      (fun t ht hl _ => (hs.writer t (hmem t ht) hl).2) (fun t ht hl => hs.err t (hmem t ht) hl)
  obtain ⟨io, hio⟩ := destroyAtoms_rest (taskPipeSetup { s with tasks := top :: below } top below) task.addr
  have hunstack : unstack s task top below =
      { taskPipeSetup { s with tasks := top :: below } top below with io := io } := hio
  have hwired : Wired (unstack s task top below) := by
    rw [hunstack]
    exact ⟨hsetup.master, hsetup.reader, hsetup.writer, hsetup.err⟩
  have hw := (unstack_rest s task top below).2.2.2.2.2
  rw [taskRemove_eq htasks] at h
  exact hwired.untouched (destruct_untouched hw h)

theorem lasting_wired : Lasting Wired where
  untouched hs h := hs.untouched h
  closed _ hs _ := hs.closed _
  installed hwf hs h := hs.installed hwf h
  removed hwf hs h := hs.removed hwf h

theorem masterPipeInit_wired {fd : Int} {inma maou : Nat} {hinma : 0 < inma} {hmaou : 0 < maou}
    (h : masterPipeInit s fd inma maou hinma hmaou = .ok s') : Wired s' := by
  have htasks := (masterPipeInit_ok h).1
  refine ⟨?_, fun task below he => ?_, fun task ht => ?_, fun task ht => ?_⟩
  · obtain ⟨s₁, h₁, h⟩ := Result.bind_ok h
    cases h
    have hproc := pipeAtomInit_proc h₁
    refine ⟨?_, ?_, ?_⟩
    · simpa [pipeInit, setAtom, setPipe, enable] using hproc
    · simp [pipeInit, setAtom, setPipe, enable]
    · simp [pipeInit, setAtom, setPipe, enable]
  · rw [htasks] at he
    cases he
  · rw [htasks] at ht
    cases ht
  · rw [htasks] at ht
    cases ht

theorem programRun_wired (h₀ : Started s₀) (run : ProgramRun s₀ s) : Wired s := by
  obtain ⟨s₁, masterfd, inma, maou, hinma, hmaou, hinit⟩ := h₀
  exact lasting_wired.run ⟨s₁, masterfd, inma, maou, hinma, hmaou, hinit⟩ (masterPipeInit_wired hinit) run

end Lasts

section Aim

variable {s s' s₀ : Sys} {a w : AtomRef} {p : PipeRef} {flags : List Interest} {spec : TaskSpec}

/-- A pipe is read from an atom that can be read, and written to one that can be written. -/
theorem Sys.WF.serves (hwf : s.WF) (p : PipeRef) : (∀ r, (s.pipes p).readAtom = some r → r.Serves .read) ∧
    ∀ w, (s.pipes p).writeAtom = some w → w.Serves .write := by
  have hmaster : ∀ {i}, i = .read ∨ i = .write → (∀ t below, s.tasks ≠ t :: below) →
      ∀ a, InUse s.tasks a → a.Serves i := by
    intro i hi hnone a ha
    have hmem : ∀ t, t ∉ s.tasks := by
      intro t ht
      obtain ⟨top, below, htasks⟩ := List.exists_cons_of_ne_nil (List.ne_nil_of_mem ht)
      exact hnone top below htasks
    cases ha with
    | master => exact hi
    | read ht => exact absurd ht (hmem _)
    | write ht => exact absurd ht (hmem _)
    | err ht => exact absurd ht (hmem _)
  cases htasks : s.tasks with
  | nil =>
    have hnone : ∀ t below, s.tasks ≠ t :: below := by
      rw [htasks]
      exact fun _ _ => List.cons_ne_nil _ _ |>.symm
    exact ⟨fun r hr => hmaster (.inl rfl) hnone r (hwf.inUse p r (.inl hr)),
      fun w hw => hmaster (.inr rfl) hnone w (hwf.inUse p w (.inr hw))⟩
  | cons top below =>
    obtain ⟨hin, hout⟩ := hwf.top top below htasks
    cases p with
    | inputMaster =>
      rw [hin, hwf.masterIn]
      refine ⟨fun r hr => ?_, fun w hw => ?_⟩
      · cases hr
        rfl
      · cases hw
        exact .inr rfl
    | masterOutput =>
      rw [hout, hwf.masterOut]
      refine ⟨fun r hr => ?_, fun w hw => ?_⟩
      · cases hr
        exact .inl rfl
      · cases hw
        rfl

namespace Aimed

theorem sameAtoms (hs : Aimed s) (h : SameAtoms s s') (htasks : s'.tasks = s.tasks) : Aimed s' := by
  intro a ha i hwants
  rw [htasks] at ha
  rw [h.wants] at hwants
  exact hs a ha i hwants

theorem mayClose (hwf : s.WF) (hs : Aimed s) (hw : s.Held w) (h : MayClose w s s')
    (htasks : s'.tasks = s.tasks) : Aimed s' := by
  intro a ha i hwants
  rw [htasks] at ha
  rw [h.wants hw (hwf.held a ha) (wants_live hwants)] at hwants
  exact hs a ha i hwants

theorem enable (hwf : s.WF) (hs : Aimed s) (hw : InUse s.tasks w) (hflags : ∀ i ∈ flags, w.Serves i) :
    Aimed (s.enable w flags) := by
  intro a ha i hwants
  rw [wants_enable (hwf.held w hw) (hwf.held a ha)] at hwants
  split at hwants
  · next he =>
    rw [he.1]
    exact hflags i he.2.2
  · exact hs a ha i hwants

theorem disable (hwf : s.WF) (hs : Aimed s) (hw : InUse s.tasks w) (flags : List Interest) :
    Aimed (s.disable w flags) := by
  intro a ha i hwants
  rw [wants_disable (hwf.held w hw) (hwf.held a ha)] at hwants
  split at hwants
  · cases hwants
  · exact hs a ha i hwants

theorem flushed {cnt : Int} {sent : List UInt8} (hwf : s.WF) (hs : Aimed s)
    (hw : (s.pipes p).writeAtom = some w) (h : Flushed p w cnt sent s s') : Aimed s' :=
  hs.mayClose hwf (hwf.held w (hwf.inUse p w (.inr hw))) h.atoms (congrArg Shape.tasks h.shape)

theorem enableWriter (hwf : s.WF) (hs : Aimed s) (hw : (s.pipes p).writeAtom = some w) :
    Aimed (s.enable w [.write]) := by
  apply hs.enable hwf (hwf.inUse p w (.inr hw))
  intro i hi
  obtain rfl := List.mem_singleton.mp hi
  exact (hwf.serves p).2 w hw

theorem enableReader {r : AtomRef} (hwf : s.WF) (hs : Aimed s) (hr : (s.pipes p).readAtom = some r) :
    Aimed (s.enable r [.read]) := by
  apply hs.enable hwf (hwf.inUse p r (.inl hr))
  intro i hi
  obtain rfl := List.mem_singleton.mp hi
  exact (hwf.serves p).1 r hr

theorem readRest (hwf : s.WF) (hs : Aimed s) (h : ReadRest s p s') : Aimed s' := by
  cases h with
  | idle => exact hs
  | sent hw hf => exact hs.flushed hwf hw hf
  | left hw hf =>
    exact (hs.flushed hwf hw hf).enableWriter (hf.wf hwf hw) ((hf.ends p).2.trans hw)
  | @full w r _ _ s₁ hw hr hf =>
    have hwf₁ := hf.wf hwf hw
    have hr₁ : InUse s₁.tasks r := hwf₁.inUse p r (.inl ((hf.ends p).1.trans hr))
    have h₂ := (hs.flushed hwf hw hf).enableWriter hwf₁ ((hf.ends p).2.trans hw)
    exact (h₂.disable (hwf₁.enable w _) hr₁ [.read]).sameAtoms (sameAtoms_setPipe _ _ _) rfl

theorem unblock (hwf : s.WF) (hs : Aimed s) (h : Unblock p s s') : Aimed s' := by
  cases h with
  | «open» => exact hs
  | dead => exact hs
  | resume hr _ => exact (hs.enableReader hwf hr).sameAtoms (sameAtoms_setPipe _ _ _) rfl

theorem poured (hwf : s.WF) (hs : Aimed s) (hw : (s.pipes p).writeAtom = some w) (h : Poured p w s s') :
    Aimed s' := by
  have huse := hwf.inUse p w (.inr hw)
  intro a ha i hwants
  rw [h.tasks] at ha
  obtain ⟨rfl, rfl⟩ | he := h.wants (hwf.held w huse) a (hwf.held a ha) i
  · exact (hwf.serves p).2 a hw
  · rw [he] at hwants
    exact hs a ha i hwants

end Aimed

/-- Of the new atoms only that for the errors is listened to before the splice. -/
theorem taskPrepare_aimed {task : TaskState} (h : taskPrepare s spec = .ok (task, s')) (i : Interest) :
    s'.wants i (.read s.fresh) = false ∧ s'.wants i (.write s.fresh) = false ∧
      (s'.wants i (.err s.fresh) = true → i = .read) := by
  have hprep := h
  obtain ⟨s₁, h₁, h⟩ := Result.bind_ok h
  obtain ⟨s₂, h₂, h⟩ := Result.bind_ok h
  obtain ⟨s₃, h₃, h⟩ := Result.bind_ok h
  cases h
  have hr : Prepared (.read s.fresh) spec.infd [] { s with fresh := s.fresh + 1 } s₁ := taskPrepareAtom_ok h₁
  have hw : Prepared (.write s.fresh) spec.outfd [] s₁ s₂ := taskPrepareAtom_ok h₂
  obtain ⟨fd, he⟩ : ∃ fd, Prepared (.err s.fresh) fd [.read] s₂ s' := taskPrepareErr_ok h₃
  have hheldR : s₂.Held (.read s.fresh) := hw.heldOthers _ (by simp) hr.held
  refine ⟨?_, ?_, fun hwants => List.mem_singleton.mp (he.wants i hwants)⟩
  · rw [he.wantsOthers _ (by simp) hheldR, hw.wantsOthers _ (by simp) hr.held]
    by_contra hne
    cases hr.wants i (eq_true_of_ne_false hne)
  · exact (taskPrepare_ok hprep).2.wantsW i

theorem readers_serve (task : TaskState) (below : List TaskState) : ∀ a ∈ readers task below, a.Serves .read := by
  intro a ha
  rw [readers, List.mem_cons] at ha
  obtain rfl | ha := ha
  · rfl
  · cases below with
    | nil => simp at ha
    | cons verso rest =>
      obtain rfl : a = .read verso.addr := by simpa using ha
      rfl

theorem Aimed.installed (hwf : s.WF) (hs : Aimed s) (h : taskInstall s spec = .ok s') : Aimed s' := by
  have hin := taskInstall_ok hwf h
  obtain ⟨⟨task, s₁⟩, h₁, h⟩ := Result.bind_ok h
  have hnew := taskPrepare_aimed h₁
  obtain ⟨rfl, hp⟩ := taskPrepare_ok h₁
  have honly := hp.only
  rw [OnlyAtoms] at honly
  have htasks : s₁.tasks = s.tasks := by rw [honly]
  let s₂ : Sys := { s₁ with tasks := ⟨s.fresh, spec⟩ :: s.tasks }
  have hs' : taskPipeSetup s₂ ⟨s.fresh, spec⟩ s.tasks = s' := by
    have h' : taskPipeSetup { s₁ with tasks := ⟨s.fresh, spec⟩ :: s₁.tasks } ⟨s.fresh, spec⟩ s₁.tasks = s' :=
      Except.ok.inj h
    rw [htasks] at h'
    exact h'
  have hsplice := taskPipeSetup_splices s₂ ⟨s.fresh, spec⟩ s.tasks
  rw [hs'] at hsplice
  have hheld : ∀ a, InUse (⟨s.fresh, spec⟩ :: s.tasks) a → s₂.Held a := fun a ha => hp.held hwf ha
  have hrs : ∀ a ∈ readers ⟨s.fresh, spec⟩ s.tasks, s₂.Held a := fun a ha => hheld a (readers_inUse _ _ a ha)
  have htasks' : s'.tasks = ⟨s.fresh, spec⟩ :: s.tasks := by rw [hin.rest]
  intro a ha i hwants
  rw [htasks'] at ha
  obtain he | ⟨rfl, hmem⟩ := hsplice.wants hrs a i (hheld a ha)
  · rw [he] at hwants
    have hwants : s₁.wants i a = true := hwants
    obtain ha | rfl | rfl | rfl := ha.of_cons
    · rw [(hp.keeps hwf ha).2.2] at hwants
      exact hs a ha i hwants
    · rw [(hnew i).1] at hwants
      cases hwants
    · rw [(hnew i).2.1] at hwants
      cases hwants
    · exact (hnew i).2.2 hwants
  · exact readers_serve _ _ a hmem

theorem ReadEffect.aimed {buf : List UInt8} (hwf : s.WF) (hs : Aimed s) (h : ReadEffect p buf s s') :
    Aimed s' := by
  cases h with
  | filtered h => exact hs.sameAtoms h.sameAtoms h.tasks
  | started _ h₁ _ h₂ h₃ =>
    have hs₁ := hs.sameAtoms h₁.sameAtoms h₁.tasks
    exact (hs₁.installed (h₁.wf hwf) h₂).sameAtoms h₃.sameAtoms h₃.tasks

theorem Aimed.autoRead (hwf : s.WF) (hs : Aimed s) (h : pipeAutoRead s p = .ok s') : Aimed s' := by
  obtain ⟨r, s₁, s₂, -, -, heffect, hclose, hrest⟩ := pipeAutoRead_ok h
  have hwf₁ := heffect.wf hwf
  have hs₁ := heffect.aimed hwf hs
  obtain rfl | ⟨r', hr', rfl⟩ := hclose
  · exact hs₁.readRest hwf₁ hrest
  · have huse := hwf₁.inUse p r' (.inl hr')
    have hshape := shape_closeAtom s₁ r'
    have hclose : MayClose r' s₁ (closeAtom s₁ r') := .closed (.refl _)
    exact (hs₁.mayClose hwf₁ (hwf₁.held r' huse) hclose (congrArg Shape.tasks hshape)).readRest
      (hwf₁.mayClose huse hshape hclose) hrest

theorem Unblock.wf (hwf : s.WF) (h : Unblock p s s') : s'.WF := (Sys.WF.stable p).unblock hwf h

theorem Aimed.autoWrite (hwf : s.WF) (hs : Aimed s) (h : pipeAutoWrite s p = .ok s') : Aimed s' := by
  obtain ⟨w, cnt, sent, s₁, s₂, hw, hf, -, -, hunblock, hs'⟩ := pipeAutoWrite_ok h
  have hwf₁ := hf.wf hwf hw
  have hs₂ := (hs.flushed hwf hw hf).unblock hwf₁ hunblock
  obtain ⟨-, rfl⟩ | ⟨-, rfl⟩ := hs'
  · have hw₂ : (s₂.pipes p).writeAtom = some w := (hunblock.ends p).2.trans ((hf.ends p).2.trans hw)
    have hwf₂ := hunblock.wf hwf₁
    exact hs₂.disable hwf₂ (hwf₂.inUse p w (.inr hw₂)) [.write]
  · exact hs₂

theorem Aimed.removed (hwf : s.WF) (hs : Aimed s) (h : taskRemove s = .ok s') : Aimed s' := by
  obtain ⟨task, top, below, s₁, s₂, htasks, hun, hwrites, rfl⟩ := taskRemove_ok hwf h
  have htasks₁ : s₁.tasks = top :: below := by rw [hun.rest]
  have hw : (s₁.pipes .masterOutput).writeAtom = some (.write top.addr) := by rw [hun.masterOutput]
  have hs₁ : Aimed s₁ := by
    intro a ha i hwants
    rw [htasks₁] at ha
    obtain he | ⟨rfl, hmem⟩ := hun.wants a ha i
    · rw [he] at hwants
      refine hs a (ha.mono fun t ht => ?_) i hwants
      rw [htasks]
      exact List.mem_cons_of_mem task ht
    · exact readers_serve _ _ a hmem
  exact (hs₁.poured hun.wf hw (pipeWrites_poured hwrites hw)).sameAtoms ⟨rfl, rfl⟩ rfl

theorem Aimed.move {m : Move} (hwf : s.WF) (hs : Aimed s) (hcalled : m.Called s) (h : m.run s = .ok s') :
    Aimed s' := by
  cases m with
  | event e =>
    cases e with
    | echoScanner =>
      have hspec := echoScannerCreateSpec_filtered s .masterOutput
      exact (hs.sameAtoms hspec.sameAtoms hspec.tasks).installed (hspec.wf hwf) h
    | autoRead p => exact hs.autoRead hwf h
    | autoWrite p => exact hs.autoWrite hwf h
    | write p buf =>
      obtain ⟨⟨total, s₁⟩, hwrite, h⟩ := Result.bind_ok h
      cases h
      obtain ⟨w, hw, -⟩ := pipeWrite_ok hwrite
      exact hs.poured hwf hw (pipeWrite_poured hw hwrite)
    | install spec => exact hs.installed hwf h
    | remove => exact hs.removed hwf h
  | finalWrite =>
    obtain ⟨w, -, ⟨rfl, -⟩ | rfl⟩ := finalWrite_ok h
    · exact hs
    · exact hs.sameAtoms (sameAtoms_setFifo _ _ _ _) rfl
  | typing a =>
    obtain ⟨pids, rfl⟩ := typingIoProc_ok h
    exact hs.sameAtoms ⟨rfl, rfl⟩ rfl
  | cherr a =>
    obtain ⟨hclose, hrest⟩ := cherrProc_ok h
    exact hs.mayClose hwf hcalled hclose (by rw [hrest])

theorem masterPipeInit_aimed {fd : Int} {inma maou : Nat} {hinma : 0 < inma} {hmaou : 0 < maou}
    (h : masterPipeInit s fd inma maou hinma hmaou = .ok s') : Aimed s' := by
  obtain ⟨s₁, s₂, h₁, hsplices, rfl⟩ := masterPipeInit_splices h
  have hmade := pipeAtomInit_ok h₁
  intro a ha i hwants
  cases ha with
  | master =>
    have hwants : s₂.wants i .master = true := hwants
    obtain he | ⟨rfl, -⟩ := hsplices.wants (by simpa using hmade.held) .master i hmade.held
    · rw [he] at hwants
      cases hmade.wants i hwants
    · exact .inl rfl
  | read ht => cases ht
  | write ht => cases ht
  | err ht => cases ht

theorem programRun_aimed (h₀ : Started s₀) (run : ProgramRun s₀ s) : Aimed s := by
  induction run with
  | start =>
    obtain ⟨s₁, masterfd, inma, maou, hinma, hmaou, hinit⟩ := h₀
    exact masterPipeInit_aimed hinit
  | next run m hcalled h ih => exact ih.move (programRun_wf h₀ run) hcalled h

end Aim

end Rzh
