import Rzh.ChildExit
import Rzh.Outcome
import Rzh.Routing
import Rzh.Splice

/-!
# The two modes of the program

main() installs the echo task, and from then on the program installs and removes tasks by itself.
It either passes on what the shell says or has a receive process on the line, one at a time.
-/
namespace Rzh

open Sys

/-- The spec of the echo task, whatever its address. -/
def IsScanner (spec : TaskSpec) : Prop := ∃ s, spec = (echoScannerCreateSpec s).1

/-- The spec of a receive process, with the descriptors of its pipes. -/
def IsReceiver (spec : TaskSpec) : Prop :=
  ∃ (s : Sys) (infd outfd errfd pid : Nat), spec = (rzCreateSpec s infd outfd errfd pid).1

inductive Mode where
  | echo
  | transfer
  deriving DecidableEq, Repr

/-- The procs that a fifo goes through once an end scanner is installed on it. -/
def ZfinFound.procs : ZfinFound → List FifoProc
  | .zfinNooo => [.zfinScan, .zfinNooo, .zfinSave]
  | .zfinTerm => [.zfinScan, .zfinTerm, .zfinDrop]

/-- A fifo with the end scanner at `a`, which looks for the end or has found it. -/
structure EndScanner (p : PipeRef) (a : Nat) (found : ZfinFound) (s : Sys) : Prop where
  proc : ∃ proc ∈ found.procs, (s.fifo p).proc = some proc
  refcon : (s.fifo p).refcon = .zfin a
  found : (s.zfins a).found = found

/-- The stack of a mode and the procs that look at the data. -/
inductive InMode (s : Sys) : Mode → Prop where
  | echo {echo : TaskState} {z : Nat} (htasks : s.tasks = [echo]) (hecho : IsScanner echo.spec)
    (hin : (s.fifo .inputMaster).proc = none)
    (hout : (s.fifo .masterOutput).proc = some .echoScannerFilterProc)
    (hrefcon : (s.fifo .masterOutput).refcon = .zscan z) : InMode s .echo
  | transfer {rz echo : TaskState} {a b : Nat} (htasks : s.tasks = [rz, echo]) (hrz : IsReceiver rz.spec)
    (hecho : IsScanner echo.spec) (hin : EndScanner .inputMaster a .zfinTerm s)
    (hout : EndScanner .masterOutput b .zfinNooo s) : InMode s .transfer

/-- The moves that the program makes from the main loop. Tasks that it installs there are the
start scanner's. -/
def Move.Own : Move → Prop
  | .event .echoScanner => False
  | .event (.install _) => False
  | .event (.write _ _) => False
  | _ => True

/-- The states of the program once main() has installed the echo task. -/
inductive SessionRun (s₀ : Sys) : Sys → Prop where
  | install {s : Sys} (h : step s₀ .echoScanner = .ok s) : SessionRun s₀ s
  | next {s s' : Sys} (run : SessionRun s₀ s) (m : Move) (hown : m.Own) (hcalled : m.Called s)
    (h : m.run s = .ok s') : SessionRun s₀ s'

/-- No task has come or gone, and the same procs look at the data, with the same found procs. -/
structure SameProcs (s s' : Sys) : Prop where
  tasks : s'.tasks = s.tasks
  proc : ∀ p, (s'.fifo p).proc = (s.fifo p).proc
  refcon : ∀ p, (s'.fifo p).refcon = (s.fifo p).refcon
  found : ∀ a, (s'.zfins a).found = (s.zfins a).found

theorem SessionRun.program {s₀ s : Sys} (run : SessionRun s₀ s) : ProgramRun s₀ s := by
  induction run with
  | install h => exact .next .start (.event .echoScanner) trivial h
  | next _ m _ hcalled h ih => exact .next ih m hcalled h

namespace SameProcs

variable {s s' s'' : Sys} {p : PipeRef}

theorem refl (s : Sys) : SameProcs s s := ⟨rfl, fun _ => rfl, fun _ => rfl, fun _ => rfl⟩

theorem trans (h : SameProcs s s') (h' : SameProcs s' s'') : SameProcs s s'' where
  tasks := h'.tasks.trans h.tasks
  proc p := (h'.proc p).trans (h.proc p)
  refcon p := (h'.refcon p).trans (h.refcon p)
  found a := (h'.found a).trans (h.found a)

/-- The fifos are what they were but for the data in them. -/
theorem of_fifos (htasks : s'.tasks = s.tasks) (hzfins : s'.zfins = s.zfins)
    (hfifo : ∀ q, (s'.fifo q).proc = (s.fifo q).proc ∧ (s'.fifo q).refcon = (s.fifo q).refcon) :
    SameProcs s s' where
  tasks := htasks
  proc q := (hfifo q).1
  refcon q := (hfifo q).2
  found a := by rw [hzfins]

theorem setFifo (s : Sys) {f : Fifo} (k : Kernel) (hproc : f.proc = (s.fifo p).proc)
    (hrefcon : f.refcon = (s.fifo p).refcon) : SameProcs s (s.setFifo p f k) := by
  refine of_fifos rfl rfl fun q => ?_
  by_cases hq : q = p
  · subst hq
    rw [fifo_setFifo]
    exact ⟨hproc, hrefcon⟩
  · rw [fifo_eq (setFifo_ne s f k hq)]
    exact ⟨rfl, rfl⟩

theorem closeAtom (s : Sys) (a : AtomRef) : SameProcs s (Rzh.closeAtom s a) := by
  obtain ⟨hpipes, -, hzfins, -⟩ := closeAtom_rest s a
  apply of_fifos (congrArg Shape.tasks (shape_closeAtom s a)) hzfins
  intro q
  rw [Sys.fifo, hpipes]
  exact ⟨rfl, rfl⟩

theorem stable (p : PipeRef) (s₀ : Sys) : Stable p (SameProcs s₀) where
  flush {s s' _ _ _} hs _ h := by
    apply hs.trans
    apply of_fifos (congrArg Shape.tasks h.shape) h.zfins
    intro q
    by_cases hq : q = p
    · subst hq
      exact h.fifo.2
    · rw [fifo_eq (h.other q hq)]
      exact ⟨rfl, rfl⟩
  enable hs _ _ := hs.trans ⟨rfl, fun _ => rfl, fun _ => rfl, fun _ => rfl⟩
  disable hs _ _ := hs.trans ⟨rfl, fun _ => rfl, fun _ => rfl, fun _ => rfl⟩
  block {s} hs b := by
    refine hs.trans (of_fifos rfl rfl fun q => ?_)
    by_cases hq : q = p
    · rw [hq, Sys.fifo, setPipe_same]
      exact ⟨rfl, rfl⟩
    · rw [fifo_eq (setPipe_ne _ _ hq)]
      exact ⟨rfl, rfl⟩

end SameProcs

theorem EndScanner.same {s s' : Sys} {p : PipeRef} {a : Nat} {found : ZfinFound}
    (hs : EndScanner p a found s) (h : SameProcs s s') : EndScanner p a found s' where
  proc := by
    rw [h.proc]
    exact hs.proc
  refcon := (h.refcon p).trans hs.refcon
  found := (h.found a).trans hs.found

theorem InMode.same {s s' : Sys} {mode : Mode} (hs : InMode s mode) (h : SameProcs s s') : InMode s' mode := by
  cases hs with
  | echo htasks hecho hin hout hrefcon =>
    exact .echo (h.tasks.trans htasks) hecho ((h.proc _).trans hin) ((h.proc _).trans hout)
      ((h.refcon _).trans hrefcon)
  | transfer htasks hrz hecho hin hout =>
    exact .transfer (h.tasks.trans htasks) hrz hecho (hin.same h) (hout.same h)

/-- What the program exits with when it cannot begin a transfer: zrq.c has not got its bytes written,
fork_rz_process fails, or io_add has no place for a descriptor of the new task. -/
def Kernel.startFails (k : Kernel) : List Nat :=
  33 :: match k.forks with
    | [] => [23]
    | .fail val :: _ => [val]
    | .child .. :: _ => [77, 72]

theorem Kernel.startFails_eq {k k' : Kernel} (h : k'.forks = k.forks) : k'.startFails = k.startFails := by
  rw [Kernel.startFails, h, Kernel.startFails]

/-- The program ends with one of the codes. -/
def Bails (vals : List Nat) (e : Halt × Sys) : Prop := ∃ val ∈ vals, e.1 = .bail val

theorem Bails.mono {vals vals' : List Nat} (hsub : vals ⊆ vals') (e : Halt × Sys) (h : Bails vals e) :
    Bails vals' e := by
  obtain ⟨val, hval, he⟩ := h
  exact ⟨val, hsub hval, he⟩

/-- The assertion of pipe.c that a fifo has room has failed. -/
def NoRoom (p : PipeRef) (e : Halt × Sys) : Prop := e.1 = .abort ∧ fifoAvail (e.2.fifo p) = 0

/-- What ends the program when a packet (`start`) is to begin a transfer and cannot. -/
structure NoTransfer (start : Prop) (k : Kernel) (mode : Mode) (p : PipeRef) (e : Halt × Sys) : Prop where
  mode : mode = .echo
  pipe : p = .masterOutput
  start : start
  bails : Bails k.startFails e

theorem NoTransfer.mono {start start' : Prop} {k k' : Kernel} {mode : Mode} {p : PipeRef} {e : Halt × Sys}
    (h : NoTransfer start k mode p e) (hstart : p = .masterOutput → start → start') (hforks : k'.forks = k.forks) :
    NoTransfer start' k' mode p e := by
  have hbails := h.bails
  rw [← Kernel.startFails_eq hforks] at hbails
  exact ⟨h.mode, h.pipe, hstart h.pipe h.start, hbails⟩

section EndScanners

variable {s s' : Sys} {p : PipeRef} {a : Nat} {found : ZfinFound} {buf : List UInt8}

/-- What an end scanner does to the procs: it puts another one of its own in its place. -/
structure Scans (p : PipeRef) (found : ZfinFound) (s s' : Sys) : Prop where
  tasks : s'.tasks = s.tasks
  proc : (s'.fifo p).proc = (s.fifo p).proc ∨ ∃ proc ∈ found.procs, (s'.fifo p).proc = some proc
  others : ∀ q, q ≠ p → (s'.fifo q).proc = (s.fifo q).proc
  refcon : ∀ q, (s'.fifo q).refcon = (s.fifo q).refcon
  found : ∀ b, (s'.zfins b).found = (s.zfins b).found

theorem SameProcs.scans (h : SameProcs s s') (p : PipeRef) (found : ZfinFound) : Scans p found s s' :=
  ⟨h.tasks, .inl (h.proc p), fun q _ => h.proc q, h.refcon, h.found⟩

theorem Scans.trans {s'' : Sys} (h : Scans p found s s') (h' : Scans p found s' s'') :
    Scans p found s s'' where
  tasks := h'.tasks.trans h.tasks
  proc := by
    obtain he | hnew := h'.proc
    · rw [he]
      exact h.proc
    · exact .inr hnew
  others q hq := (h'.others q hq).trans (h.others q hq)
  refcon q := (h'.refcon q).trans (h.refcon q)
  found b := (h'.found b).trans (h.found b)

theorem Scans.setProc (s : Sys) {proc : FifoProc} (hproc : proc ∈ found.procs) :
    Scans p found s (setProc s p (some proc) (s.fifo p).refcon) where
  tasks := rfl
  proc := .inr ⟨proc, hproc, by rw [Rzh.setProc, fifo_setFifo]⟩
  others q hq := by rw [Rzh.setProc, fifo_eq (setFifo_ne s _ _ hq)]
  refcon q := by
    rw [Rzh.setProc]
    by_cases hq : q = p
    · subst hq
      rw [fifo_setFifo]
    · rw [fifo_eq (setFifo_ne s _ _ hq)]
  found b := rfl

theorem Scans.setZfin (s : Sys) {state : ZfinScanState} (h : state.found = (s.zfins a).found) :
    Scans p found s (setZfin s a state) := by
  have hsame : SameProcs s (Rzh.setZfin s a state) := by
    refine ⟨rfl, fun _ => rfl, fun _ => rfl, fun b => ?_⟩
    by_cases hb : b = a
    · subst hb
      simp [Rzh.setZfin, h]
    · simp [Rzh.setZfin, Function.update_of_ne hb]
  exact hsame.scans p found

theorem EndScanner.scans (hs : EndScanner p a found s) (h : Scans p found s s') :
    EndScanner p a found s' where
  proc := by
    obtain he | hnew := h.proc
    · rw [he]
      exact hs.proc
    · exact hnew
  refcon := (h.refcon p).trans hs.refcon
  found := (h.found a).trans hs.found

/-- The scanner of the other pipe goes on with what it is doing. -/
theorem EndScanner.bystander {q : PipeRef} {b : Nat} {found' : ZfinFound} (hs : EndScanner q b found' s)
    (hq : q ≠ p) (h : Scans p found s s') : EndScanner q b found' s' where
  proc := by
    rw [h.others q hq]
    exact hs.proc
  refcon := (h.refcon q).trans hs.refcon
  found := (h.found b).trans hs.found

theorem EndScanner.state (hs : EndScanner p a found s) : zfinState s p = .ok (a, s.zfins a) := by
  rw [zfinState, hs.refcon]

theorem zfinSave_scans (hrefcon : (s.fifo p).refcon = .zfin a) (buf : List UInt8) :
    ∃ s', zfinSave s p buf = .ok s' ∧ Scans p found s s' := by
  rw [zfinSave]
  split
  · exact ⟨s, rfl, (SameProcs.refl s).scans p found⟩
  · rw [zfinState, hrefcon]
    exact ⟨_, rfl, .setZfin s rfl⟩

theorem zfinNooo_scans (hrefcon : (s.fifo p).refcon = .zfin a) (buf : List UInt8) :
    ∃ s', zfinNooo s p buf = .ok s' ∧ Scans p .zfinNooo s s' := by
  rw [zfinNooo]
  split
  · exact ⟨s, rfl, (SameProcs.refl s).scans p _⟩
  · rw [zfinState, hrefcon]
    let s₁ := setZfin s a { s.zfins a with oocount := (noooLoop (s.zfins a).oocount buf).1 }
    have h₁ : Scans p .zfinNooo s s₁ := .setZfin s rfl
    change ∃ s', (if (noooLoop (s.zfins a).oocount buf).2 = [] then _ else _) = _ ∧ _
    split
    · exact ⟨s₁, rfl, h₁⟩
    · have h₂ : Scans p .zfinNooo s₁ (setProc s₁ p (some .zfinSave) (s₁.fifo p).refcon) :=
        .setProc s₁ (by simp [ZfinFound.procs])
      have hrefcon₂ := (h₂.refcon p).trans ((h₁.refcon p).trans hrefcon)
      obtain ⟨s', hsave, h₃⟩ := @zfinSave_scans _ p a .zfinNooo hrefcon₂
        (noooLoop (s.zfins a).oocount buf).2
      exact ⟨s', hsave, (h₁.trans h₂).trans h₃⟩

theorem taskTerminate_same (htasks : s.tasks ≠ []) : ∃ s', taskTerminate s = .ok s' ∧ SameProcs s s' := by
  rw [taskTerminate]
  split
  · next hnil => exact absurd hnil htasks
  · split
    · exact ⟨_, rfl, rfl, fun _ => rfl, fun _ => rfl, fun _ => rfl⟩
    · exact ⟨s, rfl, .refl s⟩

theorem zfinTerm_scans (htasks : s.tasks ≠ []) (hrefcon : (s.fifo p).refcon = .zfin a) :
    ∃ s', zfinTerm s p = .ok s' ∧ Scans p .zfinTerm s s' := by
  obtain ⟨s₁, hterm, h₁⟩ := taskTerminate_same htasks
  refine ⟨setProc s₁ p (some .zfinDrop) (s₁.fifo p).refcon, ?_,
    (h₁.scans p _).trans (.setProc s₁ (by simp [ZfinFound.procs]))⟩
  rw [zfinTerm, zfinState, hrefcon]
  change (taskTerminate s >>= fun s => _) = _
  rw [hterm]
  rfl

/-- The call of the proc that the end scanner has been told to go on with. -/
def callFound (s : Sys) (p : PipeRef) (found : ZfinFound) (rest : List UInt8) : Result Sys :=
  match found with
  | .zfinNooo => zfinNooo s p rest
  | .zfinTerm => zfinTerm s p

theorem callFound_scans (hrefcon : (s.fifo p).refcon = .zfin a) (htasks : s.tasks ≠ []) (found : ZfinFound)
    (rest : List UInt8) : ∃ s', callFound s p found rest = .ok s' ∧ Scans p found s s' := by
  cases found with
  | zfinNooo => exact zfinNooo_scans hrefcon rest
  | zfinTerm => exact zfinTerm_scans htasks hrefcon

theorem ZfinFound.proc_mem (found : ZfinFound) : found.proc ∈ found.procs := by
  cases found with
  | zfinNooo => simp [ZfinFound.proc, ZfinFound.procs]
  | zfinTerm => simp [ZfinFound.proc, ZfinFound.procs]

/-- With its state at hand the proc does what zfin_scan does, and then what it has been told to. -/
theorem zfinScanProc_eq (hs : EndScanner p a found s) {f : Fifo} {state : ZfinScanState}
    {rest : Option (List UInt8)} (hcall : zfinScanCall (s.fifo p) (s.zfins a) buf = .ok (f, state, rest)) :
    zfinScanProc s p buf = rest.elim (.ok ((setZfin s a state).setFifo p f s.kernel))
      (callFound ((setZfin s a state).setFifo p f s.kernel) p state.found) := by
  simp only [zfinScanProc, hs.state, bind, Except.bind, hcall]
  cases rest with
  | none => rfl
  | some rest => rfl

/-- An end scanner returns. -/
theorem zfinScanProc_scans (hs : EndScanner p a found s) (htasks : s.tasks ≠ []) (buf : List UInt8) :
    ∃ s', zfinScanProc s p buf = .ok s' ∧ Scans p found s s' := by
  obtain ⟨⟨f, state, rest⟩, hcall⟩ := zfinScanCall_total (s.fifo p) (s.zfins a) buf
  obtain ⟨-, hstate, hrefcon, hsame, hnew⟩ := zfinScanCall_leaves hcall
  have hfound : state.found = (s.zfins a).found := by rw [hstate]
  let s₁ := (setZfin s a state).setFifo p f s.kernel
  have hset : Scans p found s (setZfin s a state) := .setZfin s hfound
  have hring : Scans p found (setZfin s a state) s₁ := by
    refine ⟨rfl, ?_, fun q hq => ?_, fun q => ?_, fun b => rfl⟩
    · rw [fifo_setFifo]
      by_cases hrest : rest = none
      · exact .inl (hsame hrest)
      · right
        rw [hnew hrest, hs.found]
        exact ⟨found.proc, found.proc_mem, rfl⟩
    · rw [fifo_eq (setFifo_ne _ f s.kernel hq)]
    · by_cases hq : q = p
      · subst hq
        rw [fifo_setFifo]
        exact hrefcon
      · rw [fifo_eq (setFifo_ne _ f s.kernel hq)]
  have h₁ := hset.trans hring
  rw [zfinScanProc_eq hs hcall]
  cases rest with
  | none => exact ⟨s₁, rfl, h₁⟩
  | some rest =>
    have htasks₁ : s₁.tasks ≠ [] := by
      rw [h₁.tasks]
      exact htasks
    obtain ⟨s', hs', h₂⟩ := callFound_scans ((h₁.refcon p).trans hs.refcon) htasks₁ found rest
    rw [Option.elim_some, hfound, hs.found]
    exact ⟨s', hs', h₁.trans h₂⟩

/-- So does each of the procs behind it, and each leaves one of them in its place. -/
theorem EndScanner.call (hs : EndScanner p a found s) (htasks : s.tasks ≠ []) {proc : FifoProc}
    (hproc : proc ∈ found.procs) (buf : List UInt8) (fd : Int) :
    ∃ s', callProc s p proc buf fd = .ok s' ∧ Scans p found s s' := by
  cases proc with
  | zfinScan => exact zfinScanProc_scans hs htasks buf
  | zfinNooo =>
    cases found with
    | zfinNooo => exact zfinNooo_scans hs.refcon buf
    | zfinTerm => simp [ZfinFound.procs] at hproc
  | zfinSave => exact zfinSave_scans hs.refcon buf
  | zfinTerm =>
    cases found with
    | zfinNooo => simp [ZfinFound.procs] at hproc
    | zfinTerm => exact zfinTerm_scans htasks hs.refcon
  | zfinDrop => exact ⟨s, rfl, (SameProcs.refl s).scans p found⟩
  | echoScannerFilterProc => cases found <;> simp [ZfinFound.procs] at hproc

end EndScanners

section Start

variable {s s' : Sys} {p : PipeRef} {buf : List UInt8} {fd : Int}

theorem pipeAtomInit_within (s : Sys) (a : AtomRef) (fd : Int) :
    Within (Bails [77]) (fun _ => True) (pipeAtomInit s a fd) := by
  rw [pipeAtomInit]
  simp only
  split
  · exact ⟨77, List.mem_singleton_self _, rfl⟩
  · exact trivial

theorem taskPrepareAtom_within (s : Sys) (a : AtomRef) (fd : Int) :
    Within (Bails [77, 72]) (fun _ => True) (taskPrepareAtom s a fd) := by
  rw [taskPrepareAtom]
  split
  · exact (pipeAtomInit_within s a fd).mono (Bails.mono (by decide)) fun _ _ h => h
  · exact trivial

theorem taskPrepareErr_within (s : Sys) (a : AtomRef) (spec : TaskSpec) :
    Within (Bails [77, 72]) (fun _ => True) (taskPrepareErr s a spec) := by
  rw [taskPrepareErr]
  split
  · exact trivial
  · split
    · simp only
      split
      · exact ⟨72, by decide, rfl⟩
      · exact trivial
    · exact trivial

theorem taskInstall_within (s : Sys) (spec : TaskSpec) :
    Within (Bails [77, 72]) (fun _ => True) (taskInstall s spec) := by
  refine Within.bind (P := fun _ => True) ?_ fun x _ => trivial
  apply (taskPrepareAtom_within _ _ _).bind
  intro s₁ _
  apply (taskPrepareAtom_within _ _ _).bind
  intro s₂ _
  apply (taskPrepareErr_within _ _ _).bind
  intro s₃ _
  exact trivial

/-- The descriptors that a receive process is made with come from the kernel. -/
theorem forkRzProcess_fds {infd outfd errfd pid : Int}
    (h : forkRzProcess s = .ok ((infd, outfd, errfd, pid), s')) :
    ∃ (infd' outfd' errfd' pid' : Nat) (k : Kernel),
      (infd, outfd, errfd, pid) = ((infd' : Int), (outfd' : Int), (errfd' : Int), (pid' : Int)) ∧
      s' = { s with kernel := k } := by
  rw [forkRzProcess] at h
  split at h
  · cases h
  · cases h
  · cases h
    exact ⟨_, _, _, _, _, rfl, rfl⟩

theorem rztaskInstall_within (s : Sys) :
    Within (Bails s.kernel.startFails) (fun _ => True) (rztaskInstall s) := by
  have hfork : Within (Bails s.kernel.startFails) (fun _ => [77, 72] ⊆ s.kernel.startFails) (forkRzProcess s) := by
    rw [Kernel.startFails, forkRzProcess]
    cases s.kernel.forks with
    | nil => exact ⟨23, by simp, rfl⟩
    | cons res forks =>
      cases res with
      | fail val => exact ⟨val, by simp, rfl⟩
      | child => exact List.subset_cons_self _ _
  apply hfork.bind
  intro x hsub
  exact (taskInstall_within _ _).mono (Bails.mono hsub) fun _ _ h => h

/-- A receive process is started on top of the echo task. -/
theorem rztaskInstall_mode (hwf : s.WF) {echo : TaskState} (htasks : s.tasks = [echo])
    (hecho : IsScanner echo.spec) (h : rztaskInstall s = .ok s') : InMode s' .transfer := by
  obtain ⟨⟨⟨infd, outfd, errfd, pid⟩, s₁⟩, hfork, h⟩ := Result.bind_ok h
  obtain ⟨infd, outfd, errfd, pid, k, hfds, rfl⟩ := forkRzProcess_fds hfork
  cases hfds
  let s₂ : Sys := (rzCreateSpec { s with kernel := k } infd outfd errfd pid).2
  have hs₂ : Filtered .masterOutput s s₂ := ⟨rfl, Nat.le_add_right _ _, fun _ _ => rfl, rfl, rfl⟩
  have hin := taskInstall_ok (hs₂.wf hwf) h
  have hzfins : s'.zfins = s₂.zfins := by rw [hin.rest]
  have hstack : s'.tasks = [⟨s₂.fresh, (rzCreateSpec { s with kernel := k } infd outfd errfd pid).1⟩, echo] := by
    rw [← htasks, hin.rest]
    rfl
  have hinput : EndScanner .inputMaster (s.fresh + 1) .zfinTerm s' := by
    refine ⟨⟨.zfinScan, by simp [ZfinFound.procs], ?_⟩, ?_, ?_⟩
    · rw [Sys.fifo, hin.inputMaster]
    · rw [Sys.fifo, hin.inputMaster]
    · rw [hzfins]
      simp [s₂, rzCreateSpec, zfinCreate]
  have houtput : EndScanner .masterOutput (s.fresh + 2) .zfinNooo s' := by
    refine ⟨⟨.zfinScan, by simp [ZfinFound.procs], ?_⟩, ?_, ?_⟩
    · rw [Sys.fifo, hin.masterOutput]
    · rw [Sys.fifo, hin.masterOutput]
    · rw [hzfins]
      simp [s₂, rzCreateSpec, zfinCreate]
  exact .transfer hstack ⟨{ s with kernel := k }, infd, outfd, errfd, pid, rfl⟩ hecho hinput houtput

/-- With room for it the rest of the packet goes to the proc that is there by now. -/
theorem zscanRemaining_call {f : Fifo} {k : Kernel} {proc : FifoProc} (hbuf : buf ≠ [])
    (hroom : zscanMakeRoom (s.fifo p) fd buf.length s.kernel = .ok (f, k)) (hproc : f.proc = some proc)
    (hne : proc ≠ .echoScannerFilterProc) :
    zscanRemaining s p buf fd = callProc (s.setFifo p f k) p proc buf fd := by
  rw [zscanRemaining, if_neg hbuf]
  simp only [hroom, hproc]
  cases proc with
  | echoScannerFilterProc => exact absurd rfl hne
  | zfinScan => rfl
  | zfinNooo => rfl
  | zfinSave => rfl
  | zfinTerm => rfl
  | zfinDrop => rfl

/-- What is left of the packet is the first that the new end scanner sees. -/
theorem zscanRemaining_scans {a : Nat} {found : ZfinFound} (hs : EndScanner p a found s) (htasks : s.tasks ≠ [])
    (buf : List UInt8) (fd : Int) : Within (Bails [33]) (Scans p found s) (zscanRemaining s p buf fd) := by
  by_cases hbuf : buf = []
  · rw [zscanRemaining, if_pos hbuf]
    exact (SameProcs.refl s).scans p found
  · obtain ⟨sent, f, k, hw, ⟨he, -⟩ | he⟩ := zscanMakeRoom_wrote (s.fifo p) fd buf.length s.kernel
    · have hsame : SameProcs s (s.setFifo p f k) := .setFifo s k hw.proc hw.refcon
      obtain ⟨proc, hmem, hproc⟩ := hs.proc
      have hne : proc ≠ .echoScannerFilterProc := by
        rintro rfl
        cases found <;> simp [ZfinFound.procs] at hmem
      rw [zscanRemaining_call hbuf he (hw.proc.trans hproc) hne]
      obtain ⟨s₁, hs₁, hscans⟩ := (hs.same hsame).call (by rw [hsame.tasks]; exact htasks) hmem buf fd
      rw [hs₁]
      exact (hsame.scans p found).trans hscans
    · rw [zscanRemaining, if_neg hbuf, he]
      exact ⟨33, List.mem_singleton_self _, rfl⟩

/-- The start scanner bails at most, and leaves the fifo the proc that it has. -/
theorem echoScannerCall_same (f : Fifo) (conn : ZScanState) (buf : List UInt8) (fd : Int) (k : Kernel) :
    (∃ f' k', echoScannerCall f conn buf fd k = .error (.bail 33, f', k')) ∨
      ∃ c, echoScannerCall f conn buf fd k = .ok c ∧ c.fifo.proc = f.proc ∧ c.fifo.refcon = f.refcon ∧
        c.kernel.forks = k.forks := by
  rw [echoScannerCall]
  split
  · exact .inr ⟨_, rfl, rfl, rfl, rfl⟩
  · rw [zrqScanCall]
    split
    · exact .inr ⟨_, rfl, runPuts_proc f _, runPuts_refcon f _, rfl⟩
    · rw [zscanPrepare]
      obtain ⟨-, f', k', he, -, hw⟩ | ⟨-, sent, f', k', he, -⟩ :=
        fifoDrainCompletely_cases (runPuts f (zrqScan conn buf).puts) fd k
      · rw [he]
        exact .inr ⟨_, rfl, hw.proc.trans (runPuts_proc f _), hw.refcon.trans (runPuts_refcon f _), hw.sent.forks⟩
      · rw [he]
        exact .inl ⟨f', k', rfl⟩

/-- The mode behind a read event of the pipe `p`: it is the same, or a transfer was to begin and has begun. -/
def Goes (start : Prop) (mode : Mode) (p : PipeRef) (s' : Sys) : Prop :=
  InMode s' mode ∨ mode = .echo ∧ p = .masterOutput ∧ start ∧ InMode s' .transfer

theorem Goes.same {start : Prop} {mode : Mode} (h : Goes start mode p s) (hsame : SameProcs s s') :
    Goes start mode p s' := by
  obtain hm | ⟨hm, hp, hstart, ht⟩ := h
  · exact .inl (hm.same hsame)
  · exact .inr ⟨hm, hp, hstart, ht.same hsame⟩

theorem Goes.mono {start start' : Prop} {mode : Mode} (h : Goes start mode p s)
    (hstart : p = .masterOutput → start → start') : Goes start' mode p s := by
  obtain hm | ⟨hm, hp, hs, ht⟩ := h
  · exact .inl hm
  · exact .inr ⟨hm, hp, hstart hp hs, ht⟩

theorem echoScannerCall_start {f : Fifo} {conn : ZScanState} {buf : List UInt8} {fd : Int} {k : Kernel}
    {e : Halt × Fifo × Kernel} (h : echoScannerCall f conn buf fd k = .error e) : (zrqScan conn buf).start ≠ none := by
  rw [echoScannerCall] at h
  split at h
  · cases h
  · rw [zrqScanCall] at h
    split at h
    · cases h
    · next rest hrest =>
      rw [hrest]
      exact Option.some_ne_none rest

/-- The start scanner begins a transfer, or ends the program, where a start sequence ends and nowhere else. -/
theorem echoScannerFilterProc_mode (hwf : s.WF) (hmode : InMode s .echo) (buf : List UInt8) (fd : Int) :
    Within (fun e => StartsTask s .masterOutput buf ∧ Bails s.kernel.startFails e)
      (Goes (StartsTask s .masterOutput buf) .echo .masterOutput)
      (echoScannerFilterProc s .masterOutput buf fd) := by
  cases hmode with
  | @echo echo z htasks hecho hin hout hrefcon =>
    have hmode : InMode s .echo := .echo htasks hecho hin hout hrefcon
    by_cases hbuf : buf = []
    · rw [echoScannerFilterProc, if_pos hbuf]
      exact .inl hmode
    rw [echoScannerFilterProc, if_neg hbuf, hrefcon]
    simp only
    obtain ⟨f, k, he⟩ | ⟨c, he, hproc, hcref, hforks⟩ :=
      echoScannerCall_same (s.fifo .masterOutput) (s.zscans z) buf fd s.kernel
    · have hstart : StartsTask s .masterOutput buf := ⟨hbuf, hout, z, hrefcon, echoScannerCall_start he⟩
      rw [he]
      exact ⟨hstart, 33, List.mem_cons_self, rfl⟩
    · have hscan := (echoScannerCall_ok hbuf he).2
      rw [he]
      simp only
      let s₀ : Sys := { s with zscans := Function.update s.zscans z c.conn }
      have hs₀ : SameProcs s s₀ := ⟨rfl, fun _ => rfl, fun _ => rfl, fun _ => rfl⟩
      have hring : SameProcs s₀ (s₀.setFifo .masterOutput c.fifo c.kernel) := .setFifo s₀ c.kernel hproc hcref
      have hsame := hs₀.trans hring
      cases hstarted : c.started with
      | none => exact .inl (hmode.same hsame)
      | some rest =>
        have hstart : StartsTask s .masterOutput buf := by
          refine ⟨hbuf, hout, z, hrefcon, ?_⟩
          rw [← hscan, hstarted]
          exact Option.some_ne_none rest
        let s₁ : Sys := { s₀.setFifo .masterOutput c.fifo c.kernel with kernel := c.kernel.log .startProc }
        have hwf₁ : s₁.WF := by
          have hsize : c.fifo.size = (s.fifo .masterOutput).size := (echoScannerCall_ok hbuf he).1
          have hf₀ : Filtered .masterOutput s s₀ := ⟨rfl, Nat.le_refl _, fun _ _ => rfl, rfl, rfl⟩
          exact ((hf₀.trans (.setFifo s₀ c.kernel hsize)).kernel _).wf hwf
        have htasks₁ : s₁.tasks = [echo] := htasks
        have hfails : s₁.kernel.startFails = s.kernel.startFails := Kernel.startFails_eq hforks
        have hinstalled : Within (Bails s.kernel.startFails) (fun s₂ => InMode s₂ .transfer) (rztaskInstall s₁) := by
          apply (rztaskInstall_within s₁).mono
          · rw [hfails]
            exact fun e h => h
          · exact fun s₂ h₂ _ => rztaskInstall_mode hwf₁ htasks₁ hecho h₂
        apply (hinstalled.mono (fun e h => And.intro hstart h) fun _ _ h => h).bind
        intro s₂ hmode₂
        cases hmode₂ with
        | transfer htasks₂ hrz hecho₂ hin₂ hout₂ =>
          have hne : s₂.tasks ≠ [] := by
            rw [htasks₂]
            exact List.cons_ne_nil _ _
          have hsub : [33] ⊆ s.kernel.startFails := List.cons_subset.mpr ⟨List.mem_cons_self, List.nil_subset _⟩
          apply (zscanRemaining_scans hout₂ hne rest fd).mono fun e h => ⟨hstart, Bails.mono hsub e h⟩
          intro s' _ hs'
          exact .inr ⟨rfl, rfl, hstart, .transfer (hs'.tasks.trans htasks₂) hrz hecho₂ (hin₂.bystander (by decide) hs')
            (hout₂.scans hs')⟩

end Start

section Moves

variable {s s' s₀ : Sys} {p : PipeRef} {mode : Mode} {fd : Int}

theorem InMode.tasks_ne_nil (h : InMode s mode) : s.tasks ≠ [] := by
  cases h with
  | echo htasks =>
    rw [htasks]
    exact List.cons_ne_nil _ _
  | transfer htasks =>
    rw [htasks]
    exact List.cons_ne_nil _ _

/-- Whatever proc looks at a packet, only the start scanner of the echo task begins a transfer, and only it
ends the program. -/
theorem callProc_mode (hwf : s.WF) (hmode : InMode s mode) {proc : FifoProc}
    (hproc : (s.fifo p).proc = some proc) (buf : List UInt8) (fd : Int) :
    Within (NoTransfer (StartsTask s p buf) s.kernel mode p) (Goes (StartsTask s p buf) mode p)
      (callProc s p proc buf fd) := by
  have hne := hmode.tasks_ne_nil
  have hscanner : ∀ {a found}, EndScanner p a found s → (∀ s', Scans p found s s' → InMode s' mode) →
      Within (NoTransfer (StartsTask s p buf) s.kernel mode p) (Goes (StartsTask s p buf) mode p)
        (callProc s p proc buf fd) := by
    intro a found hs hafter
    obtain ⟨proc', hmem, hproc'⟩ := hs.proc
    obtain rfl := Option.some.inj (hproc'.symm.trans hproc)
    obtain ⟨s₁, hs₁, hscans⟩ := hs.call hne hmem buf fd
    rw [hs₁]
    exact .inl (hafter s₁ hscans)
  cases hmode with
  | echo htasks hecho hin hout hrefcon =>
    cases p with
    | inputMaster =>
      rw [hin] at hproc
      cases hproc
    | masterOutput =>
      obtain rfl := Option.some.inj (hout.symm.trans hproc)
      exact (echoScannerFilterProc_mode hwf (.echo htasks hecho hin hout hrefcon) buf fd).mono
        (fun _ h => ⟨rfl, rfl, h.1, h.2⟩) fun _ _ h => h
  | transfer htasks hrz hecho hin hout =>
    cases p with
    | inputMaster =>
      exact hscanner hin fun s' h => .transfer (h.tasks.trans htasks) hrz hecho (hin.scans h)
        (hout.bystander (by decide) h)
    | masterOutput =>
      exact hscanner hout fun s' h => .transfer (h.tasks.trans htasks) hrz hecho
        (hin.bystander (by decide) h) (hout.scans h)

theorem fifoRead_mode (hwf : s.WF) (hmode : InMode s mode) (p : PipeRef) (fd : Int) :
    Within (NoTransfer (StartsTask s p (arriving s p fd)) s.kernel mode p)
      (fun x => Goes (StartsTask s p (arriving s p fd)) mode p x.2) (fifoRead s p fd) := by
  cases hproc : (s.fifo p).proc with
  | none =>
    rw [fifoRead_noProc hproc]
    exact .inl (hmode.same (.setFifo s _ rfl rfl))
  | some proc =>
    have hforks := s.kernel.read_forks fd (min (fifoAvail (s.fifo p)) bufsiz)
    rw [fifoRead, arriving]
    generalize s.kernel.read fd (min (fifoAvail (s.fifo p)) bufsiz) = res at hforks
    obtain ⟨r, k⟩ := res
    have hprock : (({ s with kernel := k } : Sys).fifo p).proc = some proc := hproc
    have hmodek : InMode { s with kernel := k } mode :=
      hmode.same ⟨rfl, fun _ => rfl, fun _ => rfl, fun _ => rfl⟩
    have hwfk : ({ s with kernel := k } : Sys).WF := hwf.of_shape rfl hwf.held
    have hcall : Within (NoTransfer (StartsTask s p (r.getD [])) s.kernel mode p)
        (Goes (StartsTask s p (r.getD [])) mode p) (callProc { s with kernel := k } p proc (r.getD []) fd) :=
      (callProc_mode hwfk hmodek hprock (r.getD []) fd).mono
        (fun e h => h.mono (fun _ hstart => hstart) hforks.symm) fun _ _ h => h
    simp only [hprock]
    apply hcall.bind
    intro s₁ hgoes
    split
    · exact hgoes
    · exact hgoes

/-- With a task on the stack both pipes have both their ends. -/
theorem Sys.WF.pipe_ends (hwf : s.WF) (hne : s.tasks ≠ []) (p : PipeRef) :
    ∃ r w, (s.pipes p).readAtom = some r ∧ (s.pipes p).writeAtom = some w := by
  obtain ⟨task, below, htasks⟩ := List.exists_cons_of_ne_nil hne
  obtain ⟨hin, hout⟩ := hwf.top task below htasks
  cases p with
  | inputMaster => exact ⟨_, _, hin, hwf.masterIn⟩
  | masterOutput => exact ⟨_, _, hwf.masterOut, hout⟩

theorem Goes.tasks_ne_nil {start : Prop} (h : Goes start mode p s) : s.tasks ≠ [] := by
  obtain hm | ⟨-, -, -, ht⟩ := h
  · exact hm.tasks_ne_nil
  · exact ht.tasks_ne_nil

theorem pipeFifoRead_mode (hwf : s.WF) (hmode : InMode s mode) (p : PipeRef) :
    Within (NoTransfer (StartsTask s .masterOutput (packet s)) s.kernel mode p)
      (fun x => x.2.WF ∧ Goes (StartsTask s .masterOutput (packet s)) mode p x.2) (pipeFifoRead s p) := by
  obtain ⟨r, w, hr, -⟩ := hwf.pipe_ends hmode.tasks_ne_nil p
  have hread : s.readAtom p = .ok r := by rw [Sys.readAtom, hr]
  have hpacket : p = .masterOutput → StartsTask s p (arriving s p (s.atoms r).fd) →
      StartsTask s .masterOutput (packet s) := by
    rintro rfl hstart
    obtain rfl := Option.some.inj (hwf.masterOut.symm.trans hr)
    exact hstart
  have hfifo : Within (NoTransfer (StartsTask s .masterOutput (packet s)) s.kernel mode p)
      (fun x => x.2.WF ∧ Goes (StartsTask s .masterOutput (packet s)) mode p x.2) (fifoRead s p (s.atoms r).fd) :=
    (fifoRead_mode hwf hmode p (s.atoms r).fd).mono (fun _ h => h.mono hpacket rfl) fun x hx hgoes =>
      ⟨(fifoRead_ok hx).wf hwf, hgoes.mono hpacket⟩
  rw [pipeFifoRead, hread]
  apply hfifo.bind
  rintro ⟨cnt, s₁⟩ ⟨hwf₁, hgoes₁⟩
  simp only
  split
  · obtain ⟨r₁, w₁, hr₁, -⟩ := hwf₁.pipe_ends hgoes₁.tasks_ne_nil p
    have huse := hwf₁.inUse p r₁ (.inl hr₁)
    rw [Sys.readAtom, hr₁]
    exact ⟨hwf₁.mayClose huse (shape_closeAtom s₁ r₁) (.closed (.refl _)), hgoes₁.same (.closeAtom s₁ r₁)⟩
  · exact ⟨hwf₁, hgoes₁⟩

/-- What ends the program in a read event: a packet that was to begin a transfer, or a ring without room for one. -/
inductive ReadFails (s : Sys) (mode : Mode) (p : PipeRef) (e : Halt × Sys) : Prop where
  | noTransfer (h : NoTransfer (StartsTask s .masterOutput (packet s)) s.kernel mode p e)
  | noRoom (hfull : fifoAvail (s.fifo p) = 0) (he : e = (.abort, s))

theorem pipeAutoRead_mode (hwf : s.WF) (hmode : InMode s mode) (p : PipeRef) :
    Within (ReadFails s mode p) (Goes (StartsTask s .masterOutput (packet s)) mode p) (pipeAutoRead s p) := by
  rw [pipeAutoRead]
  split
  · next hfull => exact .noRoom hfull rfl
  · apply ((pipeFifoRead_mode hwf hmode p).mono (fun _ => .noTransfer) fun _ _ h => h).bind
    rintro ⟨cnt, s₁⟩ ⟨hwf₁, hgoes₁⟩
    obtain ⟨r₁, w₁, hr₁, hw₁⟩ := hwf₁.pipe_ends hgoes₁.tasks_ne_nil p
    obtain ⟨s₂, h₂⟩ := pipeAutoReadRest_total hr₁ hw₁
    change Within _ _ (pipeAutoReadRest s₁ p)
    rw [h₂]
    exact hgoes₁.same ((SameProcs.stable p s₁).readRest (.refl s₁) (pipeAutoReadRest_ok h₂))

theorem pipeAutoWrite_mode (hwf : s.WF) (hmode : InMode s mode) (p : PipeRef) :
    Within (NoRoom p) (fun s' => InMode s' mode) (pipeAutoWrite s p) := by
  obtain ⟨r, w, hr, hw⟩ := hwf.pipe_ends hmode.tasks_ne_nil p
  obtain ⟨cnt, s₁, hwrite⟩ := pipeFifoWrite_total hw
  obtain ⟨w', sent, hw', hf, -⟩ := pipeFifoWrite_ok hwrite
  have hends : Within (NoRoom p) (fun _ => True) (pipeAutoWrite s p) := by
    rw [pipeAutoWrite, hwrite]
    change Within _ _ (if fifoAvail (s₁.fifo p) = 0 then _ else _ : Result Sys)
    split
    · next hfull => exact ⟨rfl, hfull⟩
    · obtain ⟨s₂, hunblock⟩ := pipeUnblock_total (s := s₁) (by rw [(hf.ends p).1, hr])
      have hw₂ : s₂.writeAtom p = .ok w := by
        rw [Sys.writeAtom, ((pipeUnblock_ok hunblock).ends p).2, (hf.ends p).2, hw]
      rw [hunblock]
      change Within _ _ (if fifoCount (s₂.fifo p) = 0 then _ else _ : Result Sys)
      split
      · rw [hw₂]
        exact trivial
      · exact trivial
  exact hends.mono (fun _ h => h) fun s' h _ => hmode.same ((SameProcs.stable p s).autoWrite (.refl s) h)

theorem IsScanner.wellMade {spec : TaskSpec} (h : IsScanner spec) : WellMade spec := by
  obtain ⟨s, rfl⟩ := h
  exact echoScannerCreateSpec_wellMade s

theorem IsReceiver.wellMade {spec : TaskSpec} (h : IsReceiver spec) : WellMade spec := by
  obtain ⟨s, infd, outfd, errfd, pid, rfl⟩ := h
  exact rzCreateSpec_wellMade s infd outfd errfd pid

/-- The echo task on top has the procs of its spec. -/
theorem inMode_echo {echo : TaskState} (htasks : s.tasks = [echo]) (hecho : IsScanner echo.spec)
    (hin : (s.fifo .inputMaster).proc = echo.spec.inmaProc)
    (hout : (s.fifo .masterOutput).proc = echo.spec.maoutProc)
    (hrefcon : (s.fifo .masterOutput).refcon = echo.spec.maoutRefcon) : InMode s .echo := by
  have hspec := hecho
  obtain ⟨s₁, he⟩ := hspec
  rw [he] at hin hout hrefcon
  exact .echo htasks hecho hin hout hrefcon

/-- The last task goes with the program; the removal of a receive process leaves the echo task. -/
theorem taskRemove_mode (hwf : s.WF) (hmode : InMode s mode) :
    Within (fun e => mode = .echo ∧ e.1 = .bail 0 ∧ e.2.tasks = [])
      (fun s' => mode = .transfer ∧ InMode s' .echo) (taskRemove s) := by
  cases hmode with
  | echo htasks hecho =>
    obtain ⟨s', hremove, hnil⟩ := taskRemove_only hwf htasks hecho.wellMade
    rw [hremove]
    exact ⟨rfl, rfl, hnil⟩
  | @transfer rz echo a b htasks hrz hecho hin hout =>
    obtain ⟨s', h, -⟩ := taskRemove_topmost htasks hrz.wellMade
    rw [h]
    refine ⟨rfl, ?_⟩
    obtain ⟨task, top, below, s₁, s₂, htasks', hun, hwrites, rfl⟩ := taskRemove_ok hwf h
    obtain ⟨rfl, htail⟩ := List.cons.inj (htasks'.symm.trans htasks)
    obtain ⟨rfl, rfl⟩ := List.cons.inj htail
    have hw : (s₁.pipes .masterOutput).writeAtom = some (.write top.addr) := by rw [hun.masterOutput]
    have hstack : s₂.tasks = [top] := by rw [(pipeWrites_poured hwrites hw).tasks, hun.rest]
    obtain ⟨hproc, -⟩ := pipeWrites_procs hwrites .inputMaster
    obtain ⟨hproc', hrefcon'⟩ := pipeWrites_procs hwrites .masterOutput
    have hecho₂ : InMode s₂ .echo := by
      apply inMode_echo hstack hecho
      · rw [hproc, Sys.fifo, hun.inputMaster]
      · rw [hproc', Sys.fifo, hun.masterOutput]
      · rw [hrefcon', Sys.fifo, hun.masterOutput]
    exact hecho₂.same ⟨rfl, fun _ => rfl, fun _ => rfl, fun _ => rfl⟩

def Mode.depth : Mode → Nat
  | .echo => 1
  | .transfer => 2

theorem InMode.depth (h : InMode s mode) : s.tasks.length = mode.depth := by
  cases h with
  | echo htasks =>
    rw [htasks]
    rfl
  | transfer htasks =>
    rw [htasks]
    rfl

theorem Mode.depth_inj {mode mode' : Mode} (h : mode.depth = mode'.depth) : mode = mode' := by
  cases mode with
  | echo =>
    cases mode' with
    | echo => rfl
    | transfer => cases h
  | transfer =>
    cases mode' with
    | echo => cases h
    | transfer => rfl

theorem InMode.unique {mode' : Mode} (h : InMode s mode) (h' : InMode s mode') : mode' = mode :=
  Mode.depth_inj (h'.depth.symm.trans h.depth)

/-- The height of the stack tells the mode. -/
theorem InMode.of_depth {mode' : Mode} (h : InMode s mode) (hlength : s.tasks.length = mode'.depth) :
    InMode s mode' := Mode.depth_inj (h.depth.symm.trans hlength) ▸ h

/-- What a move makes of the mode. -/
inductive Turns (s : Sys) (m : Move) (s' : Sys) : Prop where
  | same {mode : Mode} (h : InMode s mode) (h' : InMode s' mode)
  | begins (h : InMode s .echo) (hm : m = .event (.autoRead .masterOutput))
    (hstart : StartsTask s .masterOutput (packet s)) (h' : InMode s' .transfer)
  | ends (h : InMode s .transfer) (hm : m = .event .remove) (h' : InMode s' .echo)

theorem Turns.inMode {m : Move} (h : Turns s m s') : ∃ mode, InMode s' mode := by
  cases h with
  | same _ h' => exact ⟨_, h'⟩
  | begins _ _ _ h' => exact ⟨_, h'⟩
  | ends _ _ h' => exact ⟨_, h'⟩

theorem move_turns {m : Move} (hwf : s.WF) (hmode : InMode s mode) (hown : m.Own) (h : m.run s = .ok s') :
    Turns s m s' := by
  cases m with
  | event e =>
    cases e with
    | echoScanner => exact hown.elim
    | install spec => exact hown.elim
    | write p buf => exact hown.elim
    | autoRead p =>
      obtain hsame | ⟨rfl, rfl, hstart, ht⟩ := (pipeAutoRead_mode hwf hmode p).of_ok h
      · exact .same hmode hsame
      · exact .begins hmode rfl hstart ht
    | autoWrite p => exact .same hmode ((pipeAutoWrite_mode hwf hmode p).of_ok h)
    | remove =>
      obtain ⟨rfl, hecho⟩ := (taskRemove_mode hwf hmode).of_ok h
      exact .ends hmode rfl hecho
  | finalWrite =>
    obtain ⟨w, -, ⟨rfl, -⟩ | rfl⟩ := finalWrite_ok h
    · exact .same hmode hmode
    · obtain ⟨sent, hw, -⟩ := fifoWrite_wrote (s.fifo .inputMaster) (s.atoms w).fd s.kernel
      exact .same hmode (hmode.same (.setFifo s _ hw.proc hw.refcon))
  | typing a =>
    obtain ⟨pids, rfl⟩ := typingIoProc_ok h
    exact .same hmode (hmode.same ⟨rfl, fun _ => rfl, fun _ => rfl, fun _ => rfl⟩)
  | cherr a =>
    obtain ⟨-, hrest⟩ := cherrProc_ok h
    refine .same hmode (hmode.same ⟨?_, fun p => ?_, fun p => ?_, fun b => ?_⟩)
    · rw [hrest]
    · rw [hrest]
      rfl
    · rw [hrest]
      rfl
    · rw [hrest]

theorem echoScanner_mode (hwf : s.WF) (htasks : s.tasks = []) (h : step s .echoScanner = .ok s') :
    InMode s' .echo := by
  have hspec := echoScannerCreateSpec_filtered s .masterOutput
  have hin : Installed (echoScannerCreateSpec s).1 (echoScannerCreateSpec s).2 s' :=
    taskInstall_ok (hspec.wf hwf) h
  have hstack : s'.tasks = [⟨(echoScannerCreateSpec s).2.fresh, (echoScannerCreateSpec s).1⟩] := by
    rw [hin.rest]
    exact congrArg (List.cons _) htasks
  apply inMode_echo hstack ⟨s, rfl⟩
  · rw [Sys.fifo, hin.inputMaster]
  · rw [Sys.fifo, hin.masterOutput]
  · rw [Sys.fifo, hin.masterOutput]

theorem sessionRun_inMode (h₀ : Started s₀) (run : SessionRun s₀ s) : ∃ mode, InMode s mode := by
  induction run with
  | install h =>
    obtain ⟨s₁, masterfd, inma, maou, hinma, hmaou, hinit⟩ := h₀
    have htasks := (masterPipeInit_ok hinit).1
    exact ⟨.echo, echoScanner_mode (started_wf ⟨s₁, masterfd, inma, maou, hinma, hmaou, hinit⟩) htasks h⟩
  | next run m hown _ h ih =>
    obtain ⟨mode, hmode⟩ := ih
    exact (move_turns (programRun_wf h₀ run.program) hmode hown h).inMode

/-- In every state the program is in one mode: the echo task alone has the pipes, or one receive process
on top of it has them, with its own procs. The mode changes in two ways only, when a packet from the master
completes a start sequence and when the receive process is removed. -/
theorem sessionRun_mode (h₀ : Started s₀) (run : SessionRun s₀ s) :
    (∃! mode, InMode s mode) ∧
      ∀ m s', m.Own → m.Called s → m.run s = .ok s' → Turns s m s' := by
  obtain ⟨mode, hmode⟩ := sessionRun_inMode h₀ run
  refine ⟨⟨mode, hmode, fun mode' h' => hmode.unique h'⟩, fun m s' hown _ h => ?_⟩
  exact move_turns (programRun_wf h₀ run.program) hmode hown h

/-- A packet begins a transfer. -/
theorem sessionRun_mode_taken : ∃ s₀ s s', Started s₀ ∧ SessionRun s₀ s ∧
    Turns s (.event (.autoRead .masterOutput)) s' ∧ s'.tasks.length = 2 := by
  obtain ⟨s₀, h₀, htest⟩ := Result.ok_of_passes (show (launch taken).passes (fun s₀ =>
    (step s₀ .echoScanner).passes fun s => (pipeAutoRead s .masterOutput).passes fun s' =>
      s'.tasks.length = 2) = true by decide +kernel)
  obtain ⟨s, hs, htest⟩ := Result.ok_of_passes htest
  obtain ⟨s', hs', htest⟩ := Result.ok_of_passes htest
  have hstarted := (launch_ok h₀).1
  have hrun : SessionRun s₀ s := .install hs
  exact ⟨s₀, s, s', hstarted, hrun, (sessionRun_mode hstarted hrun).2 (.event (.autoRead .masterOutput)) s' trivial
    trivial hs', of_decide_eq_true htest⟩

end Moves

end Rzh
