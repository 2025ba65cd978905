import Mathlib.Logic.Function.Basic
import Rzh.IoSelect
import Rzh.Zfin
import Rzh.ZrqStart

/-!
# The state of the program

The master pipe with its two pipes and its stack of tasks, the atoms, the scanners and
what the program asks select() about. Memory that is pointed to is found by an address.
-/
namespace Rzh

inductive PipeRef where
  | inputMaster | masterOutput
  deriving DecidableEq, Repr

/-- The procs that are called when something happens to an atom. -/
inductive IoProc where
  | pipeIoProc | typingIoProc | cherrProc
  deriving DecidableEq, Repr

/-- The field read_pipe of an atom, which a verso proc uses for its refcon, a task spec. -/
inductive ReadPipe where
  | null
  | pipe (p : PipeRef)
  | verso (spec : Nat)
  deriving DecidableEq, Repr

/-- A pipe_atom, or a heavy_atom, whose refcon nothing reads. -/
structure Atom where
  fd : Int
  proc : IoProc
  readPipe : ReadPipe
  writePipe : Option PipeRef
  deriving DecidableEq, Repr

structure Pipe where
  fifo : Fifo
  readAtom : Option AtomRef
  writeAtom : Option AtomRef
  blockRead : Bool
  bytesWritten : Int

inductive DestructProc where
  | taskDefault | echo | echoScanner | rzt
  deriving DecidableEq, Repr

inductive IdleProc where
  | idleProc
  deriving DecidableEq, Repr

structure TaskSpec where
  addr : Nat
  infd : Int
  outfd : Int
  errfd : Int
  childPid : Int
  inmaProc : Option FifoProc
  inmaRefcon : Refcon
  maoutProc : Option FifoProc
  maoutRefcon : Refcon
  errProc : Option IoProc
  versoInputProc : Option IoProc
  versoInputRefcon : ReadPipe
  idleProc : Option IdleProc
  idleRefcon : Option Nat
  destructProc : DestructProc
  deriving DecidableEq, Repr

structure TaskState where
  addr : Nat
  spec : TaskSpec
  deriving DecidableEq, Repr

/-- The line that idle_end makes up from the transfer's numbers and pads to the width of
the window, or to its buffer. -/
structure StatusLine where
  text : List UInt8
  ne_nil : text ≠ []

/-- `tasks` is the list that begins at task_head; `fresh` is the next free address. -/
structure Sys where
  kernel : Kernel
  io : IoSelect
  atoms : AtomRef → Atom
  pipes : PipeRef → Pipe
  tasks : List TaskState
  zscans : Nat → ZScanState
  zfins : Nat → ZfinScanState
  fresh : Nat
  optQuiet : Bool
  status : StatusLine
  stMasterFd : Int
  stSlaveFd : Int

/-- The program before it has set anything up, with an operating system under it. -/
def blank (k : Kernel) : Sys where
  kernel := k
  io := ioInit
  atoms _ := ⟨-1, .pipeIoProc, .null, none⟩
  pipes _ := ⟨fifoInit 8192 (Nat.succ_pos 8191), none, none, false, 0⟩
  tasks := []
  zscans _ := zscanstateInit
  zfins _ := zfinCreate .zfinNooo
  fresh := 0
  optQuiet := false
  status := ⟨[13, 10], by decide⟩
  stMasterFd := 3
  stSlaveFd := 4

/-- A stretch of the program either gets to its end or halts it. -/
abbrev Result (α : Type) := Except (Halt × Sys) α

/-- What comes of two stretches, one after the other. -/
theorem Result.bind_ok {α β : Type} {x : Result α} {f : α → Result β} {b : β}
    (h : (x >>= f) = .ok b) : ∃ a, x = .ok a ∧ f a = .ok b := by
  cases x with
  | error e => cases h
  | ok a => exact ⟨a, rfl, h⟩

/-- Whether a result is there and passes a test. -/
def Result.passes {α : Type} (x : Result α) (test : α → Bool) : Bool :=
  match x with
  | .ok a => test a
  | .error _ => false

theorem Result.ok_of_passes {α : Type} {x : Result α} {test : α → Bool} (h : x.passes test = true) :
    ∃ a, x = .ok a ∧ test a = true := by
  cases x with
  | error e => cases h
  | ok a => exact ⟨a, rfl, h⟩

/-- What ended the program, if it ended there. -/
def Result.code {α : Type} : Result α → Option Halt
  | .ok _ => none
  | .error e => some e.1

theorem Result.error_of_code {α : Type} {x : Result α} {halt : Halt} (h : x.code = some halt) :
    ∃ e, x = .error e ∧ e.1 = halt := by
  cases x with
  | ok a => cases h
  | error e => exact ⟨e, rfl, Option.some.inj h⟩

theorem Result.bind_error {α β : Type} {x : Result α} {f : α → Result β} {e : Halt × Sys}
    (h : (x >>= f) = .error e) : x = .error e ∨ ∃ a, x = .ok a ∧ f a = .error e := by
  cases x with
  | error e' =>
    cases h
    exact .inl rfl
  | ok a => exact .inr ⟨a, rfl, h⟩

namespace Sys

variable (s : Sys)

def fifo (p : PipeRef) : Fifo := (s.pipes p).fifo

def setPipe (p : PipeRef) (x : Pipe) : Sys := { s with pipes := Function.update s.pipes p x }

def setFifo (p : PipeRef) (f : Fifo) (k : Kernel) : Sys :=
  { s.setPipe p { s.pipes p with fifo := f } with kernel := k }

def setAtom (a : AtomRef) (x : Atom) : Sys := { s with atoms := Function.update s.atoms a x }

def enable (a : AtomRef) (flags : List Interest) : Sys :=
  { s with io := (ioEnable s.io (s.atoms a).fd flags).2 }

def disable (a : AtomRef) (flags : List Interest) : Sys :=
  { s with io := (ioDisable s.io (s.atoms a).fd flags).2 }

def close (fd : Int) : Sys := { s with kernel := s.kernel.close fd }

/-- The pointers of a pipe to its atoms are followed only through these. -/
def readAtom (p : PipeRef) : Result AtomRef :=
  match (s.pipes p).readAtom with
  | none => .error (.segv, s)
  | some a => .ok a

def writeAtom (p : PipeRef) : Result AtomRef :=
  match (s.pipes p).writeAtom with
  | none => .error (.segv, s)
  | some a => .ok a

end Sys

/-- set_nonblock aside, which concerns the kernel. -/
def pipeAtomInit (s : Sys) (a : AtomRef) (fd : Int) : Result Sys :=
  let s := s.setAtom a { s.atoms a with fd := fd, proc := .pipeIoProc }
  match ioAdd s.io a fd [] with
  | (some _, _) => .error (.bail 77, s)
  | (none, io) =>
    .ok ({ s with io := io }.setAtom a { s.atoms a with readPipe := .null, writePipe := none })

def pipeAtomDestroy (s : Sys) (a : AtomRef) : Sys :=
  if 0 ≤ (s.atoms a).fd then { s with io := (ioDel s.io (s.atoms a).fd).2 } else s

/-- What both ends of a pipe do with an atom that is no longer of use. -/
def closeAtom (s : Sys) (a : AtomRef) : Sys :=
  let s := s.close (s.atoms a).fd
  let s := pipeAtomDestroy s a
  s.setAtom a { s.atoms a with fd := -1 }

def pipeFifoWrite (s : Sys) (p : PipeRef) : Result (Int × Sys) := do
  let w ← s.writeAtom p
  let (cnt, f, k) := fifoWrite (s.fifo p) (s.atoms w).fd s.kernel
  let s := s.setFifo p f k
  let s := if cnt = -1 ∧ k.errno = some .epipe then closeAtom s w else s
  let s :=
    if 0 < cnt then
      s.setPipe p { s.pipes p with bytesWritten := wrapInt ((s.pipes p).bytesWritten + cnt) }
    else s
  .ok (cnt, s)

/-- The end of pipe_write: what the atom did not take is stored. -/
def pipeWriteRest (s : Sys) (p : PipeRef) (buf : List UInt8) (total : Nat) : Result (Nat × Sys) := do
  let w ← s.writeAtom p
  if buf = [] then .ok (total, s.disable w [.write])
  else
    let cnt := min buf.length (fifoAvail (s.fifo p))
    let s := s.setFifo p (fifoUnsafeAppend (s.fifo p) (buf.take cnt)) s.kernel
    .ok (total + cnt, s.enable w [.write])

def pipeWrite (s : Sys) (p : PipeRef) (buf : List UInt8) : Result (Nat × Sys) := do
  if fifoCount (s.fifo p) = 0 then
    let w ← s.writeAtom p
    match s.kernel.write (s.atoms w).fd buf with
    | (none, k) => pipeWriteRest { s with kernel := k } p buf 0
    | (some cnt, k) => pipeWriteRest { s with kernel := k } p (buf.drop cnt) cnt
  else pipeWriteRest s p buf 0

def pipeInit (s : Sys) (p : PipeRef) (ratom watom : Option AtomRef) (size : Nat) (h : 0 < size) :
    Sys :=
  let s :=
    match ratom with
    | none => s
    | some a => s.setAtom a { s.atoms a with readPipe := .pipe p }
  let s :=
    match watom with
    | none => s
    | some a => s.setAtom a { s.atoms a with writePipe := some p }
  let s := s.setPipe p ⟨fifoInit size h, ratom, watom, false, 0⟩
  match ratom with
  | none => s
  | some a => s.enable a [.read]

/-- The second half of pipe_auto_read: as much as possible is written at once, and the
rest is scheduled for later. -/
def pipeAutoReadRest (s : Sys) (p : PipeRef) : Result Sys :=
  if fifoCount (s.fifo p) = 0 then .ok s
  else do
    let (_, s) ← pipeFifoWrite s p
    if fifoCount (s.fifo p) = 0 then .ok s
    else
      let w ← s.writeAtom p
      let s := s.enable w [.write]
      if fifoAvail (s.fifo p) = 0 then
        let r ← s.readAtom p
        let s := s.disable r [.read]
        .ok (s.setPipe p { s.pipes p with blockRead := true })
      else .ok s

/-- Some room has been freed, so reads that are blocking are unblocked. -/
def pipeUnblock (s : Sys) (p : PipeRef) : Result Sys :=
  if (s.pipes p).blockRead then do
    let r ← s.readAtom p
    if 0 ≤ (s.atoms r).fd then
      let s := s.enable r [.read]
      .ok (s.setPipe p { s.pipes p with blockRead := false })
    else .ok s
  else .ok s

def pipeAutoWrite (s : Sys) (p : PipeRef) : Result Sys := do
  let (_, s) ← pipeFifoWrite s p
  if fifoAvail (s.fifo p) = 0 then .error (.abort, s)
  else
    let s ← pipeUnblock s p
    if fifoCount (s.fifo p) = 0 then
      let w ← s.writeAtom p
      .ok (s.disable w [.write])
    else .ok s

end Rzh
