import Rzh.ReadEvent

/-!
# Stretches that write nothing

A stretch that halts leaves a state too, and the descriptors have seen what it has done. The
rules here follow a stretch to its end, whichever it is.
-/
namespace Rzh

open Circular Sys

/-- The state that a result ends in has the property, whether or not the program halts there. -/
def Result.Ends {α : Type} (state : α → Sys) (P : Sys → Prop) : Result α → Prop
  | .ok a => P (state a)
  | .error (_, s) => P s

theorem Result.Ends.bind {α β : Type} {state : α → Sys} {state' : β → Sys} {P : Sys → Prop} {x : Result α}
    {f : α → Result β} (h : Result.Ends state P x) (hf : ∀ a, x = .ok a → P (state a) → Result.Ends state' P (f a)) :
    Result.Ends state' P (x >>= f) := by
  cases x with
  | ok a => exact hf a rfl h
  | error e => exact h

theorem Result.Ends.mono {α : Type} {state : α → Sys} {P Q : Sys → Prop} {x : Result α} (h : Result.Ends state P x)
    (hPQ : ∀ s, P s → Q s) : Result.Ends state Q x := by
  cases x with
  | ok a => exact hPQ _ h
  | error e => exact hPQ _ h

/-- The state that a result ends in. -/
def Result.endState : Result Sys → Sys
  | .ok s => s
  | .error (_, s) => s

theorem ends_id {P : Sys → Prop} {x : Result Sys} : Result.Ends id P x ↔ P x.endState := by
  cases x with
  | ok s => exact Iff.rfl
  | error e => exact Iff.rfl

/-- No descriptor has accepted anything. -/
def Silent (s s' : Sys) : Prop := ∀ fd, written fd s'.kernel.trace = written fd s.kernel.trace

namespace Silent

variable {s s' s'' : Sys}

theorem of_kernel (h : s'.kernel = s.kernel) : Silent s s' := by
  intro fd
  rw [h]

theorem trans (h : Silent s s') (h' : Silent s' s'') : Silent s s'' := by
  intro fd
  rw [h' fd, h fd]

/-- Only a write shows in what has been written. -/
theorem log (h : Silent s s') {c : Call} (hc : ∀ fd bytes, c ≠ .write fd bytes) :
    Silent s { s' with kernel := s'.kernel.log c } := by
  intro fd
  rw [← h fd]
  cases c with
  | write fd' bytes => exact absurd rfl (hc fd' bytes)
  | read => simp [Kernel.log, written]
  | close => simp [Kernel.log, written]
  | kill => simp [Kernel.log, written]
  | startProc => simp [Kernel.log, written]

theorem close (h : Silent s s') (fd : Int) : Silent s (s'.close fd) := h.log (by simp)

theorem closeAtom (h : Silent s s') (a : AtomRef) : Silent s (Rzh.closeAtom s' a) := by
  intro fd
  obtain ⟨-, -, -, hkernel⟩ := closeAtom_rest s' a
  rw [hkernel]
  exact h.close (s'.atoms a).fd fd

end Silent

section Install

theorem pipeAtomInit_kernel (s : Sys) (a : AtomRef) (fd : Int) :
    Result.Ends id (fun s' => s'.kernel = s.kernel) (pipeAtomInit s a fd) := by
  rw [pipeAtomInit]
  simp only
  split
  · exact rfl
  · exact rfl

theorem taskPrepareAtom_kernel (s : Sys) (a : AtomRef) (fd : Int) :
    Result.Ends id (fun s' => s'.kernel = s.kernel) (taskPrepareAtom s a fd) := by
  rw [taskPrepareAtom]
  split
  · exact pipeAtomInit_kernel s a fd
  · exact rfl

theorem taskPrepareErr_kernel (s : Sys) (a : AtomRef) (spec : TaskSpec) :
    Result.Ends id (fun s' => s'.kernel = s.kernel) (taskPrepareErr s a spec) := by
  rw [taskPrepareErr]
  split
  · exact rfl
  · split
    · simp only
      split
      · exact rfl
      · exact rfl
    · exact rfl

theorem taskInstall_kernel (s : Sys) (spec : TaskSpec) :
    Result.Ends id (fun s' => s'.kernel = s.kernel) (taskInstall s spec) := by
  have hprepare : Result.Ends Prod.snd (fun s' => s'.kernel = s.kernel) (taskPrepare s spec) := by
    apply (taskPrepareAtom_kernel { s with fresh := s.fresh + 1 } (.read s.fresh) spec.infd).bind
    intro s₁ _ h₁
    apply ((taskPrepareAtom_kernel s₁ (.write s.fresh) spec.outfd).mono fun _ h => h.trans h₁).bind
    intro s₂ _ h₂
    apply ((taskPrepareErr_kernel s₂ (.err s.fresh) spec).mono fun _ h => h.trans h₂).bind
    intro s₃ _ h₃
    exact h₃
  apply hprepare.bind
  intro x _ h₁
  obtain ⟨task, s₁⟩ := x
  have hsplice := taskPipeSetup_splices { s₁ with tasks := task :: s₁.tasks } task s₁.tasks
  have hkernel : (taskPipeSetup { s₁ with tasks := task :: s₁.tasks } task s₁.tasks).kernel = s₁.kernel := by
    rw [hsplice.rest]
  exact hkernel.trans h₁

theorem forkRzProcess_silent (s : Sys) : Result.Ends Prod.snd (Silent s) (forkRzProcess s) := by
  have hrefl : ∀ k : Kernel, k.trace = s.kernel.trace → Silent s { s with kernel := k } := by
    intro k hk fd
    rw [hk]
  rw [forkRzProcess]
  split
  · exact hrefl s.kernel rfl
  · exact hrefl _ rfl
  · exact (((hrefl _ rfl).close _).close _).close _

theorem rztaskInstall_silent (s : Sys) : Result.Ends id (Silent s) (rztaskInstall s) := by
  apply (forkRzProcess_silent s).bind
  intro x _ h₁
  obtain ⟨⟨infd, outfd, errfd, childPid⟩, s₁⟩ := x
  let spec := (rzCreateSpec s₁ infd outfd errfd childPid).1
  exact (taskInstall_kernel (rzCreateSpec s₁ infd outfd errfd childPid).2 spec).mono fun s' h =>
    h₁.trans (.of_kernel h)

end Install

/-- Nothing has been done, except that the child of the topmost task may have been told to go. -/
def Kills (s s' : Sys) : Prop :=
  s'.kernel = s.kernel ∨ ∃ pid, s'.kernel = s.kernel.log (.kill pid)

theorem Kills.silent {s s' : Sys} (h : Kills s s') : Silent s s' := by
  obtain h | ⟨pid, h⟩ := h
  · exact .of_kernel h
  · intro fd
    rw [h]
    simp [Kernel.log, written]

section Procs

variable {s : Sys} {p : PipeRef} {buf : List UInt8}

theorem zfinState_kernel (s : Sys) (p : PipeRef) :
    Result.Ends (fun _ => s) (fun s' => s'.kernel = s.kernel) (zfinState s p) := by
  rw [zfinState]
  split
  · exact rfl
  · exact rfl

theorem zfinSave_kernel (s : Sys) (p : PipeRef) (buf : List UInt8) :
    Result.Ends id (fun s' => s'.kernel = s.kernel) (zfinSave s p buf) := by
  rw [zfinSave]
  split
  · exact rfl
  · apply (zfinState_kernel s p).bind
    intro x _ _
    exact rfl

theorem zfinNooo_kernel (s : Sys) (p : PipeRef) (buf : List UInt8) :
    Result.Ends id (fun s' => s'.kernel = s.kernel) (zfinNooo s p buf) := by
  rw [zfinNooo]
  split
  · exact rfl
  · apply (zfinState_kernel s p).bind
    intro x _ _
    obtain ⟨addr, state⟩ := x
    simp only
    split
    · exact rfl
    · apply (zfinSave_kernel _ p _).mono
      intro s' h
      exact h

theorem taskTerminate_kills (s : Sys) : Result.Ends id (Kills s) (taskTerminate s) := by
  rw [taskTerminate]
  split
  · exact Or.inl rfl
  · split
    · exact Or.inr ⟨_, rfl⟩
    · exact Or.inl rfl

theorem zfinTerm_kills (s : Sys) (p : PipeRef) : Result.Ends id (Kills s) (zfinTerm s p) := by
  apply ((zfinState_kernel s p).mono fun _ h => (Or.inl h : Kills s _)).bind
  intro x _ _
  apply (taskTerminate_kills s).bind
  intro s₁ _ h₁
  exact h₁

theorem zfinScanProc_kills (s : Sys) (p : PipeRef) (buf : List UInt8) :
    Result.Ends id (Kills s) (zfinScanProc s p buf) := by
  apply ((zfinState_kernel s p).mono fun _ h => (Or.inl h : Kills s _)).bind
  intro x _ _
  obtain ⟨addr, state⟩ := x
  simp only
  split
  · exact Or.inl rfl
  · next f state' rest _ =>
    split
    · exact Or.inl rfl
    · split
      · exact (zfinNooo_kernel _ p _).mono fun _ h => Or.inl h
      · exact zfinTerm_kills _ p

/-- Every proc but the start scanner leaves the descriptors alone. -/
theorem callProc_kills {proc : FifoProc} (hscan : proc ≠ .echoScannerFilterProc) (s : Sys)
    (p : PipeRef) (buf : List UInt8) (fd : Int) :
    Result.Ends id (Kills s) (callProc s p proc buf fd) := by
  cases proc with
  | echoScannerFilterProc => exact absurd rfl hscan
  | zfinScan => exact zfinScanProc_kills s p buf
  | zfinNooo => exact (zfinNooo_kernel s p buf).mono fun _ h => Or.inl h
  | zfinSave => exact (zfinSave_kernel s p buf).mono fun _ h => Or.inl h
  | zfinTerm => exact zfinTerm_kills s p
  | zfinDrop => exact Or.inl rfl

/-- There is nothing to drain for when the rest of the packet fits. -/
theorem zscanRemaining_silent (hproc : (s.fifo p).proc = some .zfinScan)
    (hroom : buf.length ≤ fifoAvail (s.fifo p)) (fd : Int) :
    Result.Ends id (Silent s) (zscanRemaining s p buf fd) := by
  rw [zscanRemaining]
  split
  · exact Silent.of_kernel rfl
  · rw [zscanMakeRoom, if_neg (by omega)]
    simp only [hproc]
    apply (zfinScanProc_kills _ p buf).mono
    intro s' h
    exact .trans (.of_kernel rfl) h.silent

end Procs

end Rzh
