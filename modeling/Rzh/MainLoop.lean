import Rzh.ReadEvent
import Rzh.TaskRemove

/-!
# Runs of the main loop

Events and tasks that come and go in any order. Whatever happens, the stack of tasks, the
ends of the pipes and the registry of descriptors stay in step.
-/
namespace Rzh

open Circular Sys

/-- What the main loop goes from one state to the next by. -/
inductive Event where
  | echoScanner
  | autoRead (p : PipeRef)
  | autoWrite (p : PipeRef)
  | write (p : PipeRef) (buf : List UInt8)
  | install (spec : TaskSpec)
  | remove
  deriving DecidableEq

def step (s : Sys) : Event → Result Sys
  | .echoScanner =>
    let (spec, s) := echoScannerCreateSpec s
    taskInstall s spec
  | .autoRead p => pipeAutoRead s p
  | .autoWrite p => pipeAutoWrite s p
  | .write p buf => do
    let (_, s) ← pipeWrite s p buf
    .ok s
  | .install spec => taskInstall s spec
  | .remove => taskRemove s

/-- The states that events lead to. -/
inductive MainRun (s₀ : Sys) : Sys → Prop where
  | start : MainRun s₀ s₀
  | next {s s' : Sys} (run : MainRun s₀ s) (e : Event) (h : step s e = .ok s') : MainRun s₀ s'

/-- The state before the first task: the master pipe has just been made. -/
def Started (s : Sys) : Prop :=
  ∃ s₀ masterfd inma maou hinma hmaou, masterPipeInit s₀ masterfd inma maou hinma hmaou = .ok s

/-- The sizes that the rings of the master pipe have. -/
def inmaFifoSize : Nat := 8192

def maouFifoSize : Nat := 8192

theorem inmaFifoSize_pos : 0 < inmaFifoSize := Nat.succ_pos 8191

theorem maouFifoSize_pos : 0 < maouFifoSize := Nat.succ_pos 8191

/-- The program, with an operating system under it, before its first task. -/
def launch (k : Kernel) : Result Sys :=
  masterPipeInit (blank k) 5 inmaFifoSize maouFifoSize inmaFifoSize_pos maouFifoSize_pos

/-- A list of events, one after the other. -/
def play (s : Sys) : List Event → Result Sys
  | [] => .ok s
  | e :: es => step s e >>= fun s => play s es

section Step

variable {p : PipeRef} {s s' : Sys}

theorem Sys.WF.mayClose {a : AtomRef} (hwf : s.WF) (ha : InUse s.tasks a) (hshape : s'.shape = s.shape)
    (h : MayClose a s s') : s'.WF :=
  hwf.of_shape hshape fun b hb => h.held (hwf.held a ha) (hwf.held b hb)

theorem Flushed.wf {w : AtomRef} {cnt : Int} {sent : List UInt8} (hwf : s.WF)
    (hw : (s.pipes p).writeAtom = some w) (h : Flushed p w cnt sent s s') : s'.WF :=
  hwf.mayClose (hwf.inUse p w (.inr hw)) h.shape h.atoms

theorem Sys.WF.enable (hwf : s.WF) (a : AtomRef) (flags : List Interest) : (s.enable a flags).WF :=
  hwf.of_shape rfl fun b hb => held_enable (hwf.held b hb) flags

theorem Sys.WF.disable (hwf : s.WF) (a : AtomRef) (flags : List Interest) : (s.disable a flags).WF :=
  hwf.of_shape rfl fun b hb => held_disable (hwf.held b hb) flags

theorem Sys.WF.block (hwf : s.WF) (p : PipeRef) (b : Bool) :
    (s.setPipe p { s.pipes p with blockRead := b }).WF :=
  hwf.of_shape (shape_setPipe s p _ rfl rfl) fun a ha =>
    (sameAtoms_setPipe s p _).held.mpr (hwf.held a ha)

theorem Sys.WF.stable (p : PipeRef) : Stable p Sys.WF where
  flush hwf hw h := h.wf hwf hw
  enable hwf a flags := hwf.enable a flags
  disable hwf a flags := hwf.disable a flags
  block hwf b := hwf.block p b

theorem ReadRest.wf (hwf : s.WF) (h : ReadRest s p s') : s'.WF := (Sys.WF.stable p).readRest hwf h

theorem ReadEffect.wf {buf : List UInt8} (hwf : s.WF) (h : ReadEffect p buf s s') : s'.WF := by
  cases h with
  | filtered h => exact h.wf hwf
  | started _ h₁ _ h₂ h₃ => exact h₃.wf (taskInstall_ok (h₁.wf hwf) h₂).wf

theorem pipeAutoRead_wf (hwf : s.WF) (h : pipeAutoRead s p = .ok s') : s'.WF := by
  obtain ⟨r, s₁, s₂, -, -, heffect, hclose, hrest⟩ := pipeAutoRead_ok h
  have h₁ := heffect.wf hwf
  obtain rfl | ⟨r', hr', rfl⟩ := hclose
  · exact hrest.wf h₁
  · exact hrest.wf (h₁.mayClose (h₁.inUse p r' (.inl hr')) (shape_closeAtom s₁ r')
      (.closed (.refl _)))

theorem Poured.wf {w : AtomRef} (hwf : s.WF) (h : Poured p w s s') : s'.WF :=
  hwf.of_shape h.shape fun a ha => h.held (hwf.held a ha)

theorem taskRemove_wf (hwf : s.WF) (h : taskRemove s = .ok s') : s'.WF := by
  obtain ⟨task, top, below, s₁, s₂, -, hun, hwrites, rfl⟩ := taskRemove_ok hwf h
  have hw : (s₁.pipes .masterOutput).writeAtom = some (.write top.addr) := by rw [hun.masterOutput]
  exact ((pipeWrites_poured hwrites hw).kernel _).wf hun.wf

/-- A spec that is made takes its memory, and that is all. -/
theorem echoScannerCreateSpec_filtered (s : Sys) (p : PipeRef) :
    Filtered p s (echoScannerCreateSpec s).2 :=
  ⟨rfl, Nat.le_add_right _ _, fun _ _ => rfl, rfl, rfl⟩

/-- No event disturbs the structure of the state. -/
theorem step_wf {e : Event} (hwf : s.WF) (h : step s e = .ok s') : s'.WF := by
  cases e with
  | echoScanner => exact (taskInstall_ok ((echoScannerCreateSpec_filtered s .masterOutput).wf hwf) h).wf
  | autoRead p => exact pipeAutoRead_wf hwf h
  | autoWrite p => exact (Sys.WF.stable p).autoWrite hwf h
  | write p buf =>
    obtain ⟨⟨total, s₁⟩, hwrite, h⟩ := Result.bind_ok h
    cases h
    obtain ⟨w, hw, -⟩ := pipeWrite_ok hwrite
    exact (pipeWrite_poured hw hwrite).wf hwf
  | install spec => exact (taskInstall_ok hwf h).wf
  | remove => exact taskRemove_wf hwf h

end Step

/-- The two pipes are put on the atom of the master. -/
theorem masterPipeInit_splices {s s' : Sys} {fd : Int} {inma maou : Nat} {hinma : 0 < inma}
    {hmaou : 0 < maou} (h : masterPipeInit s fd inma maou hinma hmaou = .ok s') :
    ∃ s₁ s₂, pipeAtomInit s .master fd = .ok s₁ ∧ Splices [.master] s₁ s₂ ∧ s' = { s₂ with tasks := [] } := by
  obtain ⟨s₁, h₁, h⟩ := Result.bind_ok h
  cases h
  have hin := pipeInit_splices (s := s₁) .inputMaster none (some .master) inma hinma
    (by simp : ∀ a, none = some a → a ∈ [AtomRef.master])
  have hout := pipeInit_splices (s := pipeInit s₁ .inputMaster none (some .master) inma hinma)
    .masterOutput (some .master) none maou hmaou
    (by simp : ∀ a, some AtomRef.master = some a → a ∈ [AtomRef.master])
  exact ⟨s₁, _, h₁, hin.trans hout, rfl⟩

theorem masterPipeInit_ok {s s' : Sys} {fd : Int} {inma maou : Nat} {hinma : 0 < inma}
    {hmaou : 0 < maou} (h : masterPipeInit s fd inma maou hinma hmaou = .ok s') :
    s'.tasks = [] ∧ s'.Held .master ∧
      s'.pipes .inputMaster = ⟨fifoInit inma hinma, none, some .master, false, 0⟩ ∧
      s'.pipes .masterOutput = ⟨fifoInit maou hmaou, some .master, none, false, 0⟩ := by
  have hheld : s'.Held .master := by
    obtain ⟨s₁, s₂, h₁, hsplices, rfl⟩ := masterPipeInit_splices h
    exact hsplices.held (pipeAtomInit_ok h₁).held
  obtain ⟨s₁, -, h⟩ := Result.bind_ok h
  have hne : PipeRef.inputMaster ≠ .masterOutput := by decide
  cases h
  refine ⟨rfl, hheld, ?_, ?_⟩
  · simp [pipeInit, Sys.setPipe, Sys.setAtom, Sys.enable, hne]
  · simp [pipeInit, Sys.setPipe, Sys.setAtom, Sys.enable]

theorem started_wf {s : Sys} (h : Started s) : s.WF := by
  obtain ⟨s₀, masterfd, inma, maou, hinma, hmaou, h⟩ := h
  obtain ⟨htasks, hheld, hin, hout⟩ := masterPipeInit_ok h
  refine ⟨?_, ?_, ?_, ?_, ?_, ?_, ?_⟩
  · rw [htasks]
    intro a ha
    cases ha with
    | master => exact hheld
    | read ht => cases ht
    | write ht => cases ht
    | err ht => cases ht
  · rw [htasks]
    intro t ht
    cases ht
  · rw [htasks]
    exact List.nodup_nil
  · intro p a ha
    cases p with
    | inputMaster =>
      rw [hin] at ha
      obtain ha | ha := ha
      · cases ha
      · cases ha
        exact .master
    | masterOutput =>
      rw [hout] at ha
      obtain ha | ha := ha
      · cases ha
        exact .master
      · cases ha
  · rw [hin]
  · rw [hout]
  · rw [htasks]
    intro t below he
    cases he

theorem launch_ok {k : Kernel} {s : Sys} (h : launch k = .ok s) :
    Started s ∧ ∀ p, (s.fifo p).size = 8192 := by
  obtain ⟨-, -, hin, hout⟩ := masterPipeInit_ok h
  refine ⟨⟨_, _, _, _, _, _, h⟩, fun p => ?_⟩
  cases p with
  | inputMaster =>
    rw [Sys.fifo, hin]
    rfl
  | masterOutput =>
    rw [Sys.fifo, hout]
    rfl

theorem play_run {es : List Event} {s₀ s s' : Sys} (run : MainRun s₀ s) (h : play s es = .ok s') :
    MainRun s₀ s' := by
  induction es generalizing s with
  | nil =>
    cases h
    exact run
  | cons e es ih =>
    obtain ⟨s₁, h₁, h⟩ := Result.bind_ok h
    exact ih (.next run e h₁) h

/-- Events that can be played through from the start make a run. -/
theorem played_run (k : Kernel) (es : List Event) (test : Sys → Sys → Bool)
    (h : ((launch k).passes fun s₀ => (play s₀ es).passes (test s₀)) = true) :
    ∃ s₀ s, (Started s₀ ∧ ∀ p, (s₀.fifo p).size = 8192) ∧ MainRun s₀ s ∧ test s₀ s = true := by
  obtain ⟨s₀, h₀, h⟩ := Result.ok_of_passes h
  obtain ⟨s, hs, htest⟩ := Result.ok_of_passes h
  exact ⟨s₀, s, launch_ok h₀, play_run .start hs, htest⟩

/-- Every state of the main loop is well-formed. -/
theorem mainRun_wf {s₀ s : Sys} (h₀ : Started s₀) (run : MainRun s₀ s) : s.WF := by
  induction run with
  | start => exact started_wf h₀
  | next run e h ih => exact step_wf ih h

end Rzh
