import Rzh.Task

/-!
# The filter procs and fifo_read

Each proc is called with the fifo it is installed on, the text of the packet and the
descriptor it came from. A size that is not positive is the empty text.
-/
namespace Rzh

/-- The state that the refcon of an end scanner points to. -/
def zfinState (s : Sys) (p : PipeRef) : Result (Nat × ZfinScanState) :=
  match (s.fifo p).refcon with
  | .zfin addr => .ok (addr, s.zfins addr)
  | _ => .error (.segv, s)

def setZfin (s : Sys) (addr : Nat) (state : ZfinScanState) : Sys :=
  { s with zfins := Function.update s.zfins addr state }

def zfinDrop (s : Sys) : Sys := s

/-- The buffer grows whenever the text would not fit into it. -/
def zfinSave (s : Sys) (p : PipeRef) (buf : List UInt8) : Result Sys :=
  if buf = [] then .ok s
  else do
    let (addr, state) ← zfinState s p
    let savemax :=
      if state.savemax < buf.length + state.savebuf.length then state.savemax + (buf.length + 512)
      else state.savemax
    .ok (setZfin s addr { state with savemax := savemax, savebuf := state.savebuf ++ buf })

/-- The loop of zfin_nooo: the number of Os that have been dropped, and what is left. -/
def noooLoop : Nat → List UInt8 → Nat × List UInt8
  | oocount, [] => (oocount, [])
  | oocount, c :: cs => if c ≠ 79 ∨ 2 ≤ oocount then (oocount, c :: cs) else noooLoop (oocount + 1) cs

def zfinNooo (s : Sys) (p : PipeRef) (buf : List UInt8) : Result Sys :=
  if buf = [] then .ok s
  else do
    let (addr, state) ← zfinState s p
    let (oocount, rest) := noooLoop state.oocount buf
    let s := setZfin s addr { state with oocount := oocount }
    if rest = [] then .ok s
    else zfinSave (setProc s p (some .zfinSave) (s.fifo p).refcon) p rest

def zfinTerm (s : Sys) (p : PipeRef) : Result Sys := do
  let (_, _) ← zfinState s p
  let s ← taskTerminate s
  .ok (zfinDrop (setProc s p (some .zfinDrop) (s.fifo p).refcon))

def zfinScanProc (s : Sys) (p : PipeRef) (buf : List UInt8) : Result Sys := do
  let (addr, state) ← zfinState s p
  match zfinScanCall (s.fifo p) state buf with
  | .error halt => .error (halt, s)
  | .ok (f, state, rest) =>
    let s := (setZfin s addr state).setFifo p f s.kernel
    match rest with
    | none => .ok s
    | some rest =>
      match state.found with
      | .zfinNooo => zfinNooo s p rest
      | .zfinTerm => zfinTerm s p

/-- zscan_start behind the start proc. The proc is by now that of the task that has been
installed, and no task starts with a start scanner of its own. -/
def zscanRemaining (s : Sys) (p : PipeRef) (rest : List UInt8) (fd : Int) : Result Sys :=
  if rest = [] then .ok s
  else
    match zscanMakeRoom (s.fifo p) fd rest.length s.kernel with
    | .error (halt, f, k) => .error (halt, s.setFifo p f k)
    | .ok (f, k) =>
      let s := s.setFifo p f k
      match f.proc with
      | some .zfinScan => zfinScanProc s p rest
      | some .zfinNooo => zfinNooo s p rest
      | some .zfinSave => zfinSave s p rest
      | some .zfinTerm => zfinTerm s p
      | some .zfinDrop => .ok (zfinDrop s)
      | some .echoScannerFilterProc => .error (.segv, s)
      | none => .ok (s.setFifo p (fifoUnsafeAppend f rest) k)

def echoScannerFilterProc (s : Sys) (p : PipeRef) (buf : List UInt8) (fd : Int) : Result Sys :=
  if buf = [] then .ok s
  else
    match (s.fifo p).refcon with
    | .zscan addr =>
      match echoScannerCall (s.fifo p) (s.zscans addr) buf fd s.kernel with
      | .error (halt, f, k) => .error (halt, s.setFifo p f k)
      | .ok c => do
        let s := { s with zscans := Function.update s.zscans addr c.conn }.setFifo p c.fifo c.kernel
        match c.started with
        | none => .ok s
        | some rest =>
          let s ← rztaskInstall { s with kernel := s.kernel.log .startProc }
          zscanRemaining s p rest fd
    | _ => .error (.segv, s)

def callProc (s : Sys) (p : PipeRef) (proc : FifoProc) (buf : List UInt8) (fd : Int) : Result Sys :=
  match proc with
  | .echoScannerFilterProc => echoScannerFilterProc s p buf fd
  | .zfinScan => zfinScanProc s p buf
  | .zfinNooo => zfinNooo s p buf
  | .zfinSave => zfinSave s p buf
  | .zfinTerm => zfinTerm s p
  | .zfinDrop => .ok (zfinDrop s)

/-- The count that fifo_read makes of the result of read(). -/
def readCount : Option (List UInt8) → Int
  | none => -1
  | some [] => -2
  | some (b :: bs) => (b :: bs).length

def fifoRead (s : Sys) (p : PipeRef) (fd : Int) : Result (Int × Sys) :=
  let (r, k) := s.kernel.read fd (min (fifoAvail (s.fifo p)) bufsiz)
  let s := { s with kernel := k }
  let buf := r.getD []
  match (s.fifo p).proc with
  | some proc => do
    let old := fifoAvail (s.fifo p)
    let s ← callProc s p proc buf fd
    if 0 < readCount r then .ok ((old : Int) - fifoAvail (s.fifo p), s) else .ok (readCount r, s)
  | none =>
    if 0 < readCount r then .ok (readCount r, s.setFifo p (fifoUnsafeAppend (s.fifo p) buf) s.kernel)
    else .ok (readCount r, s)

end Rzh
