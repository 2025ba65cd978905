import Rzh.System

/-!
# task.c, echotask.c and rztask.c

The stack of tasks. Its topmost task owns the free ends of the two pipes.
-/
namespace Rzh

/-- An atom of a task that is being set up; without a descriptor it counts as closed. -/
def taskPrepareAtom (s : Sys) (a : AtomRef) (fd : Int) : Result Sys :=
  if 0 ≤ fd then pipeAtomInit s a fd else .ok (s.setAtom a { s.atoms a with fd := -1 })

/-- The atom for the task's stderr, which no pipe ends in. -/
def taskPrepareErr (s : Sys) (a : AtomRef) (spec : TaskSpec) : Result Sys :=
  match spec.errProc with
  | none => .ok (s.setAtom a { s.atoms a with fd := -1 })
  | some proc =>
    if 0 ≤ spec.errfd then
      let s := s.setAtom a { s.atoms a with fd := spec.errfd, proc := proc }
      match ioAdd s.io a spec.errfd [.read] with
      | (some _, _) => .error (.bail 72, s)
      | (none, io) => .ok { s with io := io }
    else .ok (s.setAtom a { s.atoms a with fd := -1 })

def taskPrepare (s : Sys) (spec : TaskSpec) : Result (TaskState × Sys) := do
  let task : TaskState := ⟨s.fresh, spec⟩
  let s := { s with fresh := s.fresh + 1 }
  let s ← taskPrepareAtom s (.read task.addr) spec.infd
  let s ← taskPrepareAtom s (.write task.addr) spec.outfd
  let s ← taskPrepareErr s (.err task.addr) spec
  .ok (task, s)

def closeFd (s : Sys) (fd : Int) : Sys := if 0 ≤ fd then s.close fd else s

def taskDefaultDestructor (s : Sys) (spec : TaskSpec) : Sys :=
  closeFd (closeFd (closeFd s spec.infd) spec.outfd) spec.errfd

/-- The echo task leaves stdin, stdout and stderr open. -/
def echoDestructor (s : Sys) (spec : TaskSpec) : Sys :=
  taskDefaultDestructor s { spec with infd := -1, outfd := -1, errfd := -1 }

def idleEnd (s : Sys) : Result Sys :=
  if s.optQuiet then .ok s
  else do
    let (_, s) ← pipeWrite s .masterOutput s.status.text
    .ok s

/-- The text that the end scanner has saved goes back into the pipe. -/
def restoreSaved (s : Sys) (spec : TaskSpec) : Result Sys :=
  match spec.maoutRefcon with
  | .zfin addr =>
    if (s.zfins addr).savebuf = [] then .ok s
    else do
      let (_, s) ← pipeWrite s .masterOutput (s.zfins addr).savebuf
      .ok s
  | _ => .error (.segv, s)

def rztDestructorProc (s : Sys) (spec : TaskSpec) : Result Sys := do
  let s ← idleEnd s
  let s ← restoreSaved s spec
  .ok (taskDefaultDestructor s spec)

def destruct (s : Sys) (spec : TaskSpec) : Result Sys :=
  match spec.destructProc with
  | .taskDefault => .ok (taskDefaultDestructor s spec)
  | .echo => .ok (echoDestructor s spec)
  | .echoScanner => .ok (echoDestructor s spec)
  | .rzt => rztDestructorProc s spec

def taskDestroy (s : Sys) (task : TaskState) : Result Sys :=
  let s := pipeAtomDestroy s (.read task.addr)
  let s := pipeAtomDestroy s (.write task.addr)
  let s := pipeAtomDestroy s (.err task.addr)
  destruct s task.spec

/-- The reader of the task below gets the verso proc, if there is one to get. -/
def versoSetup (s : Sys) (task : TaskState) (below : List TaskState) : Sys :=
  match task.spec.versoInputProc, below with
  | some proc, verso :: _ =>
    if 0 ≤ (s.atoms (.read verso.addr)).fd then
      let s := s.setAtom (.read verso.addr)
        { s.atoms (.read verso.addr) with proc := proc, readPipe := task.spec.versoInputRefcon }
      s.enable (.read verso.addr) [.read]
    else s
  | _, _ => s

/-- The topmost task's atoms become the ends of the pipes. -/
def spliceAtoms (s : Sys) (task : TaskState) : Sys :=
  let r := AtomRef.read task.addr
  let w := AtomRef.write task.addr
  let s := s.setPipe .inputMaster
    { s.pipes .inputMaster with readAtom := some r, blockRead := false }
  let s := s.setAtom r { s.atoms r with readPipe := .pipe .inputMaster }
  let s := s.setPipe .masterOutput { s.pipes .masterOutput with writeAtom := some w }
  let s := s.setAtom w { s.atoms w with writePipe := some .masterOutput }
  if 0 ≤ (s.atoms r).fd then s.enable r [.read] else s

def setProc (s : Sys) (p : PipeRef) (proc : Option FifoProc) (refcon : Refcon) : Sys :=
  s.setFifo p { s.fifo p with proc := proc, refcon := refcon } s.kernel

/-- task_pipe_setup for `task` on top of `below`. -/
def taskPipeSetup (s : Sys) (task : TaskState) (below : List TaskState) : Sys :=
  let r := AtomRef.read task.addr
  let s := if 0 ≤ (s.atoms r).fd then s.setAtom r { s.atoms r with proc := .pipeIoProc } else s
  let s := versoSetup s task below
  let s := spliceAtoms s task
  let s := setProc s .inputMaster task.spec.inmaProc task.spec.inmaRefcon
  setProc s .masterOutput task.spec.maoutProc task.spec.maoutRefcon

def taskInstall (s : Sys) (spec : TaskSpec) : Result Sys := do
  let (task, s) ← taskPrepare s spec
  let below := s.tasks
  .ok (taskPipeSetup { s with tasks := task :: below } task below)

/-- The master pipe goes with its last task, and the program ends. -/
def masterPipeDestructor (s : Sys) : Result Sys :=
  let s := pipeAtomDestroy s .master
  .error (.bail 0, (s.close s.stMasterFd).close s.stSlaveFd)

def taskRemove (s : Sys) : Result Sys :=
  match s.tasks with
  | [] => .error (.segv, s)
  | [task] => do
    let s ← taskDestroy { s with tasks := [] } task
    masterPipeDestructor s
  | task :: top :: below =>
    taskDestroy (taskPipeSetup { s with tasks := top :: below } top below) task

def destroyAll : List TaskState → Sys → Result Sys
  | [], s => .ok s
  | task :: tasks, s => do
    let s ← taskDestroy s task
    destroyAll tasks s

/-- What the child does with what it has from its parent. The stack stays as it is, and the
destructor of the master pipe does not end the program. -/
def taskForkPrepare (s : Sys) : Result Sys := do
  let s ← destroyAll s.tasks s
  let s := pipeAtomDestroy s .master
  .ok ((s.close s.stMasterFd).close s.stSlaveFd)

/-- Every task has the default terminate proc. -/
def taskTerminate (s : Sys) : Result Sys :=
  match s.tasks with
  | [] => .error (.segv, s)
  | task :: _ =>
    if 0 < task.spec.childPid then
      .ok { s with kernel := s.kernel.log (.kill task.spec.childPid) }
    else .ok s

def taskCreateSpec (addr : Nat) : TaskSpec where
  addr := addr
  infd := -1
  outfd := -1
  errfd := -1
  childPid := -1
  inmaProc := none
  inmaRefcon := .null
  maoutProc := none
  maoutRefcon := .null
  errProc := none
  versoInputProc := none
  versoInputRefcon := .null
  idleProc := none
  idleRefcon := none
  destructProc := .taskDefault

def echoScannerCreateSpec (s : Sys) : TaskSpec × Sys :=
  let spec := taskCreateSpec s.fresh
  let zscan := s.fresh + 1
  ({ spec with
      infd := 0, outfd := 1
      maoutProc := some .echoScannerFilterProc, maoutRefcon := .zscan zscan
      destructProc := .echoScanner },
    { s with
      fresh := s.fresh + 2
      zscans := Function.update s.zscans zscan zscanstateInit })

def rzCreateSpec (s : Sys) (infd outfd errfd childPid : Int) : TaskSpec × Sys :=
  let spec := taskCreateSpec s.fresh
  let inma := s.fresh + 1
  let maout := s.fresh + 2
  ({ spec with
      infd := infd, outfd := outfd, errfd := errfd, childPid := childPid
      inmaProc := some .zfinScan, inmaRefcon := .zfin inma
      maoutProc := some .zfinScan, maoutRefcon := .zfin maout
      idleProc := some .idleProc, idleRefcon := some (s.fresh + 3)
      destructProc := .rzt, errProc := some .cherrProc
      versoInputProc := some .typingIoProc, versoInputRefcon := .verso spec.addr },
    { s with
      fresh := s.fresh + 4
      zfins := Function.update (Function.update s.zfins inma (zfinCreate .zfinTerm)) maout
        (zfinCreate .zfinNooo) })

/-- The parent's side: it keeps its ends of the three pipes and closes the child's. -/
def forkRzProcess (s : Sys) : Result ((Int × Int × Int × Int) × Sys) :=
  match s.kernel.forks with
  | [] => .error (.bail 23, s)
  | .fail val :: forks => .error (.bail val, { s with kernel := { s.kernel with forks := forks } })
  | .child chstdin chstdout chstderr pid :: forks =>
    let s := { s with kernel := { s.kernel with forks := forks } }
    let s := ((s.close chstdin.1).close chstdout.2).close chstderr.2
    .ok ((chstdout.1, chstdin.2, chstderr.1, pid), s)

def rztaskInstall (s : Sys) : Result Sys := do
  let ((infd, outfd, errfd, childPid), s) ← forkRzProcess s
  let (spec, s) := rzCreateSpec s infd outfd errfd childPid
  taskInstall s spec

end Rzh
