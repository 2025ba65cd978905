import Rzh.EndOfFile
import Rzh.Silent

/-!
# Where the master's text goes

Text from the master goes to the topmost task. When a transfer starts, zscan_start writes out
what is still queued, to the descriptor that the packet has come from.
-/
namespace Rzh

open Circular Sys

/-- The task `t` is on top and its start scanner looks at what the master sends. -/
structure Echoing (t : TaskState) (addr : Nat) (s : Sys) : Prop where
  wf : s.WF
  top : ∃ below, s.tasks = t :: below
  proc : (s.fifo .masterOutput).proc = some .echoScannerFilterProc
  refcon : (s.fifo .masterOutput).refcon = .zscan addr
  reach : ZrqReach (s.zscans addr)

/-- What a read event of the master is about to bring. -/
def packet (s : Sys) : List UInt8 := arriving s .masterOutput (s.atoms .master).fd

/-- A packet that completes no start sequence and is let through into the room there is. -/
def LetsThrough (addr : Nat) (s : Sys) : Prop :=
  packet s ≠ [] → ¬ Complete (heldBack (s.zscans addr) (packet s)) ∧
    (passedOn (s.zscans addr) (packet s)).length ≤ fifoAvail (s.fifo .masterOutput)

/-- A packet that completes a start sequence, with nothing queued, nothing in front of the
sequence, and room for the rest behind the start string. -/
structure ClearStart (addr : Nat) (s : Sys) : Prop where
  data : packet s ≠ []
  complete : Complete (heldBack (s.zscans addr) (packet s))
  queued : fifoCount (s.fifo .masterOutput) = 0
  front : passedOn (s.zscans addr) (packet s) = []
  room : startString.length + (handedOn (s.zscans addr) (packet s)).length ≤
    fifoAvail (s.fifo .masterOutput)

/-- The events of the pipe from the master up to a start, and the text that they take in. An
event that halts the program counts too, up to where it halts. -/
inductive ScanRun (addr : Nat) (s₀ : Sys) : List UInt8 → Sys → Prop where
  | start : ScanRun addr s₀ [] s₀
  | autoRead {text : List UInt8} {s : Sys} (run : ScanRun addr s₀ text s) (h : LetsThrough addr s) :
    ScanRun addr s₀ (text ++ packet s) (pipeAutoRead s .masterOutput).endState
  | autoWrite {text : List UInt8} {s : Sys} (run : ScanRun addr s₀ text s) :
    ScanRun addr s₀ text (pipeAutoWrite s .masterOutput).endState

/-- The text that a descriptor has accepted, what is queued for it and what is withheld. -/
def account (fd : Int) (addr : Nat) (s : Sys) : List UInt8 :=
  written fd s.kernel.trace ++ (s.fifo .masterOutput).contents ++ pending (s.zscans addr)

/-- Since `s₀` the descriptor of the topmost task has been given the text in order, or it is
about to be, and no other descriptor has been given anything. -/
structure Routes (t : TaskState) (addr : Nat) (s₀ : Sys) (text : List UInt8) (s : Sys) : Prop
    extends Echoing t addr s where
  fd : (s.atoms (.write t.addr)).fd = (s₀.atoms (.write t.addr)).fd ∨ (s.atoms (.write t.addr)).fd = -1
  stream : account (s₀.atoms (.write t.addr)).fd addr s =
    account (s₀.atoms (.write t.addr)).fd addr s₀ ++ text
  others : ∀ fd, fd ≠ (s₀.atoms (.write t.addr)).fd →
    written fd s.kernel.trace = written fd s₀.kernel.trace

section Total

variable {p : PipeRef} {r w : AtomRef} {s : Sys}

/-- With an atom to write to, pipe_fifo_write returns. -/
theorem pipeFifoWrite_total (hw : (s.pipes p).writeAtom = some w) :
    ∃ cnt s', pipeFifoWrite s p = .ok (cnt, s') := by
  rw [pipeFifoWrite, Sys.writeAtom, hw]
  exact ⟨_, _, rfl⟩

theorem pipeAutoReadRest_total (hr : (s.pipes p).readAtom = some r)
    (hw : (s.pipes p).writeAtom = some w) : ∃ s', pipeAutoReadRest s p = .ok s' := by
  rw [pipeAutoReadRest]
  split
  · exact ⟨s, rfl⟩
  · obtain ⟨cnt, s₁, hwrite⟩ := pipeFifoWrite_total hw
    obtain ⟨w', sent, hw', hf, -⟩ := pipeFifoWrite_ok hwrite
    have hends := hf.ends p
    rw [hw, hr] at hends
    rw [hwrite]
    change ∃ s', (if fifoCount (s₁.fifo p) = 0 then _ else _) = _
    split
    · exact ⟨s₁, rfl⟩
    · rw [Sys.writeAtom, hends.2]
      change ∃ s', (if fifoAvail (s₁.fifo p) = 0 then _ else _) = _
      split
      · have hread : (s₁.enable w [.write]).readAtom p = .ok r := by
          have hr₁ : ((s₁.enable w [.write]).pipes p).readAtom = some r := hends.1
          rw [Sys.readAtom, hr₁]
        rw [hread]
        exact ⟨_, rfl⟩
      · exact ⟨_, rfl⟩

theorem pipeUnblock_total (hr : (s.pipes p).readAtom = some r) : ∃ s', pipeUnblock s p = .ok s' := by
  rw [pipeUnblock]
  split
  · rw [Sys.readAtom, hr]
    change ∃ s', (if 0 ≤ (s.atoms r).fd then _ else _) = _
    split
    · exact ⟨_, rfl⟩
    · exact ⟨_, rfl⟩
  · exact ⟨s, rfl⟩

theorem Unblock.ends {s' : Sys} (h : Unblock p s s') (q : PipeRef) :
    (s'.pipes q).readAtom = (s.pipes q).readAtom ∧ (s'.pipes q).writeAtom = (s.pipes q).writeAtom := by
  cases h with
  | «open» => exact ⟨rfl, rfl⟩
  | dead => exact ⟨rfl, rfl⟩
  | @resume r hr hl =>
    have hshape := shape_setPipe (s.enable r [.read]) p { s.pipes p with blockRead := false } rfl rfl
    exact ⟨congrFun (congrArg Shape.readAtom hshape) q, congrFun (congrArg Shape.writeAtom hshape) q⟩

/-- pipe_auto_write writes, and may halt for lack of room. -/
theorem pipeAutoWrite_endState (hr : (s.pipes p).readAtom = some r)
    (hw : (s.pipes p).writeAtom = some w) :
    ∃ cnt sent s₁, Flushed p w cnt sent s s₁ ∧ ((pipeAutoWrite s p).endState = s₁ ∨
      ∃ s₂, Unblock p s₁ s₂ ∧ ((pipeAutoWrite s p).endState = s₂ ∨
        (pipeAutoWrite s p).endState = s₂.disable w [.write])) := by
  obtain ⟨cnt, s₁, hwrite⟩ := pipeFifoWrite_total hw
  obtain ⟨w', sent, hw', hf, -⟩ := pipeFifoWrite_ok hwrite
  obtain rfl := Option.some.inj (hw'.symm.trans hw)
  refine ⟨cnt, sent, s₁, hf, ?_⟩
  have heq : pipeAutoWrite s p = if fifoAvail (s₁.fifo p) = 0 then .error (.abort, s₁) else
      pipeUnblock s₁ p >>= fun s => if fifoCount (s.fifo p) = 0 then
        s.writeAtom p >>= fun w => .ok (s.disable w [.write]) else .ok s := by
    rw [pipeAutoWrite, hwrite]
    rfl
  rw [heq]
  split
  · exact .inl rfl
  · obtain ⟨s₂, hunblock⟩ := pipeUnblock_total (s := s₁) (by rw [(hf.ends p).1, hr])
    have hends := ((pipeUnblock_ok hunblock).ends p).2
    rw [(hf.ends p).2, hw] at hends
    rw [hunblock]
    right
    refine ⟨s₂, pipeUnblock_ok hunblock, ?_⟩
    change Result.endState (if fifoCount (s₂.fifo p) = 0 then _ else _) = _ ∨
      Result.endState (if fifoCount (s₂.fifo p) = 0 then _ else _) = _
    split
    · right
      rw [Sys.writeAtom, hends]
      rfl
    · exact .inl rfl

/-- fifo_read with a start scanner is a call of the scanner, and a count. -/
theorem fifoRead_scanner (fd : Int) (hproc : (s.fifo p).proc = some .echoScannerFilterProc) :
    ∃ k, ∃ count : Sys → Int, (∀ fd', written fd' k.trace = written fd' s.kernel.trace) ∧
      fifoRead s p fd = echoScannerFilterProc { s with kernel := k } p (arriving s p fd) fd >>=
        fun s₁ => .ok (count s₁, s₁) := by
  have hwritten := s.kernel.written_read fd (min (fifoAvail (s.fifo p)) bufsiz)
  rw [fifoRead, arriving]
  generalize s.kernel.read fd (min (fifoAvail (s.fifo p)) bufsiz) = res at hwritten ⊢
  obtain ⟨r, k⟩ := res
  have hproc' : (({ s with kernel := k } : Sys).fifo p).proc = some .echoScannerFilterProc := hproc
  refine ⟨k, fun s₁ => if 0 < readCount r then (fifoAvail (s.fifo p) : Int) - fifoAvail (s₁.fifo p)
    else readCount r, hwritten, ?_⟩
  simp only [hproc', callProc]
  congr 1
  funext s₁
  split
  · rfl
  · rfl

end Total

namespace Routes

variable {t : TaskState} {addr : Nat} {s₀ s s' : Sys} {text : List UInt8}

theorem writer (h : Routes t addr s₀ text s) :
    (s.pipes .masterOutput).writeAtom = some (.write t.addr) := by
  obtain ⟨below, htop⟩ := h.top
  exact (h.wf.top t below htop).2

theorem start (h : Echoing t addr s₀) : Routes t addr s₀ [] s₀ where
  toEchoing := h
  fd := .inl rfl
  stream := by rw [List.append_nil]
  others _ _ := rfl

/-- Where nothing is written and the fifo and the scanner are left alone. -/
theorem quiet (h : Routes t addr s₀ text s) (hwf : s'.WF) (htasks : s'.tasks = s.tasks)
    (hfd : (s'.atoms (.write t.addr)).fd = (s.atoms (.write t.addr)).fd)
    (hfifo : s'.fifo .masterOutput = s.fifo .masterOutput) (hzscans : s'.zscans = s.zscans)
    (hsilent : Silent s s') : Routes t addr s₀ text s' where
  wf := hwf
  top := by
    rw [htasks]
    exact h.top
  proc := by rw [hfifo, h.proc]
  refcon := by rw [hfifo, h.refcon]
  reach := by
    rw [hzscans]
    exact h.reach
  fd := by
    rw [hfd]
    exact h.fd
  stream := by
    rw [← h.stream, account, account, hsilent, hfifo, hzscans]
  others fd hne := by rw [hsilent, h.others fd hne]

theorem flush {cnt : Int} {sent : List UInt8} (h : Routes t addr s₀ text s)
    (hf : Flushed .masterOutput (.write t.addr) cnt sent s s') : Routes t addr s₀ text s' where
  wf := hf.wf h.wf h.writer
  top := by
    rw [show s'.tasks = s.tasks from congrArg Shape.tasks hf.shape]
    exact h.top
  proc := by rw [hf.fifo.2.1, h.proc]
  refcon := by rw [hf.fifo.2.2, h.refcon]
  reach := by
    rw [hf.zscans]
    exact h.reach
  fd := by
    obtain hfd | ⟨-, hfd⟩ := hf.atoms.fd (.write t.addr)
    · rw [hfd]
      exact h.fd
    · exact .inr hfd
  stream := by
    rw [← h.stream, account, account, hf.accepted h.fd, hf.zscans, hf.contents]
    simp only [List.append_assoc]
  others fd hne := by rw [hf.silent h.fd hne, h.others fd hne]

theorem enable (h : Routes t addr s₀ text s) (a : AtomRef) (flags : List Interest) :
    Routes t addr s₀ text (s.enable a flags) :=
  h.quiet (h.wf.enable a flags) rfl rfl rfl rfl (.of_kernel rfl)

theorem disable (h : Routes t addr s₀ text s) (a : AtomRef) (flags : List Interest) :
    Routes t addr s₀ text (s.disable a flags) :=
  h.quiet (h.wf.disable a flags) rfl rfl rfl rfl (.of_kernel rfl)

theorem block (h : Routes t addr s₀ text s) (b : Bool) :
    Routes t addr s₀ text (s.setPipe .masterOutput { s.pipes .masterOutput with blockRead := b }) :=
  h.quiet (h.wf.block .masterOutput b) rfl rfl (by simp [Sys.fifo]) rfl (.of_kernel rfl)

theorem stable (t : TaskState) (addr : Nat) (s₀ : Sys) (text : List UInt8) :
    Stable .masterOutput (Routes t addr s₀ text) where
  flush h hw hf := by
    obtain rfl := Option.some.inj (hw.symm.trans h.writer)
    exact h.flush hf
  enable h a flags := h.enable a flags
  disable h a flags := h.disable a flags
  block h b := h.block b

theorem autoWrite (h : Routes t addr s₀ text s) :
    Routes t addr s₀ text (pipeAutoWrite s .masterOutput).endState := by
  obtain ⟨cnt, sent, s₁, hf, hend⟩ := pipeAutoWrite_endState h.wf.masterOut h.writer
  have h₁ := h.flush hf
  obtain he | ⟨s₂, hunblock, hend⟩ := hend
  · rw [he]
    exact h₁
  · have h₂ := (stable t addr s₀ text).unblock h₁ hunblock
    obtain he | he := hend
    · rw [he]
      exact h₂
    · rw [he]
      exact h₂.disable _ _

/-- What is not withheld of a packet goes into the fifo. -/
theorem scanned (h : Routes t addr s₀ text s) {buf : List UInt8} (fd : Int)
    (hpass : buf ≠ [] → ¬ Complete (heldBack (s.zscans addr) buf) ∧
      (passedOn (s.zscans addr) buf).length ≤ fifoAvail (s.fifo .masterOutput)) :
    ∃ s₁, echoScannerFilterProc s .masterOutput buf fd = .ok s₁ ∧ Routes t addr s₀ (text ++ buf) s₁ := by
  by_cases hbuf : buf = []
  · rw [echoScannerFilterProc, if_pos hbuf, hbuf, List.append_nil]
    exact ⟨s, rfl, h⟩
  obtain ⟨hno, hroom⟩ := hpass hbuf
  have hs := h.reach.settled
  have hstart : (zrqScan (s.zscans addr) buf).start = none := by
    by_contra hne
    exact hno ((zrqScan_holdsBack hs hbuf).2.mp hne)
  let conn := (zrqScan (s.zscans addr) buf).conn
  let f := runPuts (s.fifo .masterOutput) (zrqScan (s.zscans addr) buf).puts
  let s₂ : Sys := { s with zscans := Function.update s.zscans addr conn }
  have hs₂ : Filtered .masterOutput s s₂ := ⟨rfl, Nat.le_refl _, fun _ _ => rfl, rfl, rfl⟩
  have hf : Filtered .masterOutput s (s₂.setFifo .masterOutput f s.kernel) :=
    hs₂.trans (.setFifo s₂ s.kernel (runPuts_size _ _))
  have heq : echoScannerFilterProc s .masterOutput buf fd = .ok (s₂.setFifo .masterOutput f s.kernel) := by
    rw [echoScannerFilterProc, if_neg hbuf]
    simp only [h.refcon, echoScannerCall, if_neg hbuf, zrqScanCall, hstart]
    rfl
  have hzscan : (s₂.setFifo .masterOutput f s.kernel).zscans addr = conn := Function.update_self ..
  have htr := zrqScan_transparent_of_settled hs hbuf
  rw [Transparent, hstart] at htr
  obtain ⟨htext, -⟩ := htr
  have hcontents : f.contents = (s.fifo .masterOutput).contents ++ putBytes (zrqScan (s.zscans addr) buf).puts := by
    apply runPuts_contents
    rw [passedOn_eq hs hbuf]
    exact hroom
  refine ⟨_, heq, ⟨hf.wf h.wf, h.top, ?_, ?_, ?_⟩, h.fd, ?_, h.others⟩
  · rw [fifo_setFifo, runPuts_proc, h.proc]
  · rw [fifo_setFifo, runPuts_refcon, h.refcon]
  · rw [hzscan]
    exact .scan h.reach hbuf
  · have hkernel : (s₂.setFifo .masterOutput f s.kernel).kernel = s.kernel := rfl
    have hstream := h.stream
    rw [account] at hstream
    rw [account, fifo_setFifo, hzscan, hkernel, hcontents, ← List.append_assoc _ text, ← hstream]
    simp only [List.append_assoc]
    rw [htext]

/-- A read() takes a packet and nothing is written. -/
theorem read (h : Routes t addr s₀ text s) (hpass : LetsThrough addr s) :
    ∃ cnt s₁, fifoRead s .masterOutput (s.atoms .master).fd = .ok (cnt, s₁) ∧
      Routes t addr s₀ (text ++ packet s) s₁ := by
  obtain ⟨k, count, hwritten, hread⟩ := fifoRead_scanner (s.atoms .master).fd h.proc
  have hk : Filtered .masterOutput s { s with kernel := k } := (Filtered.refl _ s).kernel k
  have h₁ : Routes t addr s₀ text { s with kernel := k } :=
    h.quiet (hk.wf h.wf) rfl rfl rfl rfl hwritten
  obtain ⟨s₁, hproc, hroutes⟩ := h₁.scanned (s.atoms .master).fd hpass
  have hproc' : echoScannerFilterProc { s with kernel := k } .masterOutput (packet s)
      (s.atoms .master).fd = .ok s₁ := hproc
  refine ⟨count s₁, s₁, ?_, hroutes⟩
  rw [hread]
  change (echoScannerFilterProc _ .masterOutput (packet s) _ >>= _) = _
  rw [hproc']
  rfl

theorem closeReader (h : Routes t addr s₀ text s) : Routes t addr s₀ text (closeAtom s .master) := by
  have hm : MayClose .master s (closeAtom s .master) := .closed (.refl _)
  obtain ⟨hpipes, hzscans, -, -⟩ := closeAtom_rest s .master
  refine h.quiet ?_ ?_ ?_ ?_ hzscans ((Silent.of_kernel rfl : Silent s s).closeAtom .master)
  · exact h.wf.mayClose .master (shape_closeAtom s .master) hm
  · exact congrArg Shape.tasks (shape_closeAtom s .master)
  · obtain hfd | ⟨he, -⟩ := hm.fd (.write t.addr)
    · exact hfd
    · cases he
  · rw [Sys.fifo, hpipes]
    rfl

theorem autoRead (h : Routes t addr s₀ text s) (hpass : LetsThrough addr s) :
    Routes t addr s₀ (text ++ packet s) (pipeAutoRead s .masterOutput).endState := by
  rw [pipeAutoRead]
  split
  · next havail =>
    have hlen := arriving_length s .masterOutput (s.atoms .master).fd
    rw [havail, Nat.le_zero, List.length_eq_zero_iff] at hlen
    rw [packet, hlen, List.append_nil]
    exact h
  · obtain ⟨cnt, s₁, hread, h₁⟩ := h.read hpass
    have hfifo : ∃ s₂, pipeFifoRead s .masterOutput = .ok (cnt, s₂) ∧
        Routes t addr s₀ (text ++ packet s) s₂ := by
      rw [pipeFifoRead, Sys.readAtom, h.wf.masterOut]
      change ∃ s₂, (fifoRead s .masterOutput (s.atoms .master).fd >>= _) = _ ∧ _
      rw [hread]
      change ∃ s₂, (if cnt = -2 then s₁.readAtom .masterOutput >>= _ else _) = _ ∧ _
      split
      · rw [Sys.readAtom, h₁.wf.masterOut]
        exact ⟨_, rfl, h₁.closeReader⟩
      · exact ⟨_, rfl, h₁⟩
    obtain ⟨s₂, hfifo, h₂⟩ := hfifo
    obtain ⟨s', hrest⟩ := pipeAutoReadRest_total h₂.wf.masterOut h₂.writer
    rw [hfifo]
    change Routes t addr s₀ _ (Result.endState (pipeAutoReadRest s₂ .masterOutput))
    rw [hrest]
    exact (stable t addr s₀ _).readRest h₂ (pipeAutoReadRest_ok hrest)

end Routes

theorem scanRun_account {t : TaskState} {addr : Nat} {s₀ s : Sys} {text : List UInt8}
    (h₀ : Echoing t addr s₀) (run : ScanRun addr s₀ text s) : Routes t addr s₀ text s := by
  induction run with
  | start => exact .start h₀
  | autoRead run hpass ih => exact ih.autoRead hpass
  | autoWrite run ih => exact ih.autoWrite

section Start

variable {t : TaskState} {addr : Nat} {s s' : Sys}

/-- A drain of an empty fifo is no drain. -/
theorem fifoDrainCompletely_empty {f : Fifo} (h : f.contents = []) (fd : Int) (k : Kernel) :
    fifoDrainCompletely f fd k = .ok (f, k) := by
  have hcount : fifoCount f = 0 := (Buffer.toList_eq_nil_iff f.toBuffer).mp h
  rw [fifoDrainCompletely, drainLoop, if_pos (decide_eq_true hcount)]

/-- With nothing to drain, zscan_start goes straight to the start proc. -/
theorem echoScannerFilterProc_clear {buf : List UInt8} (fd : Int) (hs : Settled (s.zscans addr))
    (hrefcon : (s.fifo .masterOutput).refcon = .zscan addr) (hbuf : buf ≠ [])
    (hcomplete : Complete (heldBack (s.zscans addr) buf)) (hqueued : fifoCount (s.fifo .masterOutput) = 0)
    (hfront : passedOn (s.zscans addr) buf = []) :
    ∃ s₁, Filtered .masterOutput s s₁ ∧ Silent s s₁ ∧
      (startString.length ≤ fifoAvail (s.fifo .masterOutput) →
        (s₁.fifo .masterOutput).contents = startString) ∧
      echoScannerFilterProc s .masterOutput buf fd = rztaskInstall s₁ >>= fun s₂ =>
        zscanRemaining s₂ .masterOutput (handedOn (s.zscans addr) buf) fd := by
  obtain ⟨rest, hstart⟩ := Option.ne_none_iff_exists'.mp ((zrqScan_holdsBack hs hbuf).2.mpr hcomplete)
  obtain ⟨-, hrest, -⟩ := zrqScan_start hs hbuf hstart
  have hputs : putBytes (zrqScan (s.zscans addr) buf).puts = [] := by rw [passedOn_eq hs hbuf, hfront]
  let f := runPuts (s.fifo .masterOutput) (zrqScan (s.zscans addr) buf).puts
  have hf : f = s.fifo .masterOutput := by
    have hle : (putBytes (zrqScan (s.zscans addr) buf).puts).length ≤ (s.fifo .masterOutput).avail := by
      rw [hputs]
      exact Nat.zero_le _
    rw [show f = _ from runPuts_eq _ _ hle, hputs, fifoUnsafeAppend_nil]
  have hempty : (s.fifo .masterOutput).contents = [] :=
    (Buffer.toList_eq_nil_iff (s.fifo .masterOutput).toBuffer).mpr hqueued
  let s₂ : Sys := { s with zscans := Function.update s.zscans addr (zrqScan (s.zscans addr) buf).conn }
  let s₁ := s₂.setFifo .masterOutput (fifoUnsafeAppend (s.fifo .masterOutput) startString) s.kernel
  have hs₂ : Filtered .masterOutput s s₂ := ⟨rfl, Nat.le_refl _, fun _ _ => rfl, rfl, rfl⟩
  have hs₁ : Filtered .masterOutput s s₁ :=
    hs₂.trans (.setFifo s₂ s.kernel (fifoUnsafeAppend_size _ _))
  refine ⟨{ s₁ with kernel := s₁.kernel.log .startProc }, hs₁.kernel _,
    (Silent.of_kernel rfl : Silent s s₁).log (by simp), fun hroom => ?_, ?_⟩
  · have hcontents := fifoUnsafeAppend_contents (s.fifo .masterOutput) startString hroom
    rw [hempty, List.nil_append] at hcontents
    rw [← hcontents]
    exact congrArg Fifo.contents (fifo_setFifo s₂ .masterOutput _ s.kernel)
  · rw [echoScannerFilterProc, if_neg hbuf]
    simp only [hrefcon, echoScannerCall, if_neg hbuf, zrqScanCall, hstart, zscanPrepare]
    rw [show runPuts (s.fifo .masterOutput) (zrqScan (s.zscans addr) buf).puts = s.fifo .masterOutput from hf,
      fifoDrainCompletely_empty hempty, ← hrest]

/-- What is left of the packet goes behind the start string, as far as the end scanner lets it. -/
theorem zscanRemaining_contents {p : PipeRef} {buf : List UInt8} {fd : Int} (hfresh : FreshZfin s p)
    (hroom : buf.length ≤ fifoAvail (s.fifo p)) (h : zscanRemaining s p buf fd = .ok s') :
    ∃ passed, passed <+: buf ∧ (s'.fifo p).contents = (s.fifo p).contents ++ passed := by
  rw [zscanRemaining] at h
  split at h
  · cases h
    exact ⟨[], List.nil_prefix, by rw [List.append_nil]⟩
  · rw [zscanMakeRoom, if_neg (by omega)] at h
    simp only [hfresh.1] at h
    obtain ⟨a, -, hring⟩ := zfinScanProc_ring h
    rw [fifo_setFifo] at hring
    have hpre := zfinScan_begins (s.zfins a).ref buf
    refine ⟨putBytes (zfinScan (s.zfins a).ref buf).puts, hpre, ?_⟩
    rw [← runPuts_contents (s.fifo p) _ (hpre.length_le.trans hroom), Fifo.contents, Fifo.contents, hring]
    rfl

theorem live_of_packet (h : packet s ≠ []) : s.live .master := by
  by_contra hl
  apply h
  have hneg : (s.atoms .master).fd < 0 := Int.not_le.mp hl
  rw [packet, arriving, Kernel.read, if_pos hneg]
  rfl

/-- The state in front of the writing of a start: the new task's descriptor is about to get the
start string and what follows. -/
structure AboutToWrite (addr : Nat) (s s' : Sys) : Prop where
  wf : s'.WF
  top : ∃ t below, s'.tasks = t :: below ∧ (s'.atoms (.write t.addr)).fd ≠ (s.atoms .master).fd
  contents : (s'.fifo .masterOutput).contents <+:
    startString ++ handedOn (s.zscans addr) (packet s)

/-- The master keeps its descriptor, so that the topmost task has another one. -/
theorem ReadEffect.top_fd {buf : List UInt8} (hwf : s.WF) (htop : ∃ t below, s.tasks = t :: below)
    (hl : s.live .master) (h : ReadEffect .masterOutput buf s s') :
    ∃ t below, s'.tasks = t :: below ∧ (s'.atoms (.write t.addr)).fd ≠ (s.atoms .master).fd := by
  have hwf' := h.wf hwf
  have hl' := h.live hwf hwf.masterOut hl .master hwf'.masterOut
  have hfd : (s'.atoms .master).fd = (s.atoms .master).fd ∧ ∃ t below, s'.tasks = t :: below := by
    cases h with
    | filtered h =>
      rw [h.sameAtoms.atoms, h.tasks]
      exact ⟨rfl, htop⟩
    | @started s₁ s₂ _ spec _ h₁ _ h₂ h₃ =>
      have hin := taskInstall_ok (h₁.wf hwf) h₂
      refine ⟨?_, ⟨s₁.fresh, spec⟩, s₁.tasks, ?_⟩
      · rw [h₃.sameAtoms.atoms, hin.fd .master .master, h₁.sameAtoms.atoms]
      · rw [h₃.tasks, hin.rest]
  obtain ⟨hfd, t, below, htasks⟩ := hfd
  refine ⟨t, below, htasks, fun he => ?_⟩
  rw [← hfd] at he
  have hmem : InUse s'.tasks (.write t.addr) := by
    rw [htasks]
    exact .write List.mem_cons_self
  have hsame := (hwf'.held .master .master).eq_of_fd (hwf'.held _ hmem) hl' he
  cases hsame

/-- Up to the writing of what is queued a start writes nothing. -/
theorem ClearStart.read (h : Echoing t addr s) (hclear : ClearStart addr s) :
    Result.Ends Prod.snd (Silent s) (fifoRead s .masterOutput (s.atoms .master).fd) ∧
      ∀ cnt s', fifoRead s .masterOutput (s.atoms .master).fd = .ok (cnt, s') → AboutToWrite addr s s' := by
  obtain ⟨k, count, hwritten, hread⟩ := fifoRead_scanner (s.atoms .master).fd h.proc
  have hsilent : Silent s { s with kernel := k } := hwritten
  have hk : Filtered .masterOutput s { s with kernel := k } := (Filtered.refl _ s).kernel k
  have hroom := hclear.room
  obtain ⟨s₁, h₁, hsilent₁, hcontents, heq⟩ := echoScannerFilterProc_clear (s := { s with kernel := k })
    (s.atoms .master).fd h.reach.settled h.refcon hclear.data hclear.complete hclear.queued hclear.front
  have hstring : (s₁.fifo .masterOutput).contents = startString :=
    hcontents (Nat.le_trans (Nat.le_add_right _ _) hroom)
  have hwf₁ := h₁.wf (hk.wf h.wf)
  -- the room behind the start string
  have hrest : ∀ s₂ : Sys, (s₂.fifo .masterOutput).toBuffer = (s₁.fifo .masterOutput).toBuffer →
      (handedOn (s.zscans addr) (packet s)).length ≤ fifoAvail (s₂.fifo .masterOutput) := by
    intro s₂ hring
    have hlength := congrArg List.length hstring
    have hsum := (s₁.fifo .masterOutput).count_add_avail
    have hsum₀ := (s.fifo .masterOutput).count_add_avail
    have hqueued := hclear.queued
    have hsize : (s₁.fifo .masterOutput).size = (s.fifo .masterOutput).size := (hk.trans h₁).size
    rw [Buffer.toList_length] at hlength
    rw [fifoAvail_eq] at hroom
    rw [fifoCount_eq] at hqueued
    rw [avail_of_ring hring, fifoAvail_eq]
    omega
  have hproc : Result.Ends id (Silent s) (echoScannerFilterProc { s with kernel := k } .masterOutput (packet s)
      (s.atoms .master).fd) := by
    rw [heq]
    apply ((rztaskInstall_silent s₁).mono fun _ hs => (hsilent.trans hsilent₁).trans hs).bind
    intro s₂ hinstall hs₂
    obtain ⟨hring, hfresh⟩ := rztaskInstall_fifo hwf₁ .masterOutput hinstall
    exact (zscanRemaining_silent hfresh.1 (hrest s₂ hring) _).mono fun _ hs => hs₂.trans hs
  constructor
  · rw [hread]
    apply hproc.bind
    intro s₂ _ hs₂
    exact hs₂
  · intro cnt s' hok
    have heffect := fifoRead_ok hok
    have htop : ∃ t below, s.tasks = t :: below := ⟨t, h.top⟩
    refine ⟨heffect.wf h.wf, heffect.top_fd h.wf htop (live_of_packet hclear.data), ?_⟩
    rw [hread] at hok
    obtain ⟨s₃, hcall, hok⟩ := Result.bind_ok hok
    cases hok
    have hcall' := heq.symm.trans hcall
    obtain ⟨s₂, hinstall, hremaining⟩ := Result.bind_ok hcall'
    obtain ⟨hring, hfresh⟩ := rztaskInstall_fifo hwf₁ .masterOutput hinstall
    obtain ⟨passed, hpre, hcont⟩ := zscanRemaining_contents hfresh (hrest s₂ hring) hremaining
    have hsame : (s₂.fifo .masterOutput).contents = startString := by
      rw [← hstring, Fifo.contents, hring]
    rw [hcont, hsame]
    exact (List.prefix_append_right_inj startString).mpr hpre

/-- The master is told nothing, and whatever else is told anything is told the start string and
what follows the start sequence. -/
def OnlyStart (addr : Nat) (s s' : Sys) : Prop :=
  written (s.atoms .master).fd s'.kernel.trace = written (s.atoms .master).fd s.kernel.trace ∧
    ∀ fd, ∃ sent, written fd s'.kernel.trace = written fd s.kernel.trace ++ sent ∧
      sent <+: startString ++ handedOn (s.zscans addr) (packet s)

theorem Silent.onlyStart (h : Silent s s') : OnlyStart addr s s' :=
  ⟨h _, fun fd => ⟨[], by rw [h, List.append_nil], List.nil_prefix⟩⟩

theorem AboutToWrite.closeAtom {a : AtomRef} (h : AboutToWrite addr s s')
    (ha : (s'.pipes .masterOutput).readAtom = some a) : AboutToWrite addr s (closeAtom s' a) := by
  obtain ⟨t, below, htasks, hne⟩ := h.top
  obtain rfl := Option.some.inj (ha.symm.trans h.wf.masterOut)
  have hm : MayClose .master s' (Rzh.closeAtom s' .master) := .closed (.refl _)
  refine ⟨h.wf.mayClose .master (shape_closeAtom s' .master) hm, ⟨t, below, ?_, ?_⟩, ?_⟩
  · rw [← htasks]
    exact congrArg Shape.tasks (shape_closeAtom s' .master)
  · obtain hfd | ⟨he, -⟩ := hm.fd (.write t.addr)
    · rw [hfd]
      exact hne
    · cases he
  · rw [Sys.fifo, (closeAtom_rest s' .master).1]
    exact h.contents

/-- The writing at the end of the read event goes to the new task. -/
theorem AboutToWrite.rest (h : AboutToWrite addr s s') (hsilent : Silent s s') :
    OnlyStart addr s (pipeAutoReadRest s' .masterOutput).endState := by
  obtain ⟨t, below, htasks, hne⟩ := h.top
  have hw := (h.wf.top t below htasks).2
  obtain ⟨s₂, hok⟩ := pipeAutoReadRest_total h.wf.masterOut hw
  rw [hok]
  have hflush : ∀ {cnt : Int} {sent : List UInt8} {s₁ : Sys},
      Flushed .masterOutput (.write t.addr) cnt sent s' s₁ → OnlyStart addr s s₁ := by
    intro cnt sent s₁ hf
    constructor
    · rw [hf.silent (.inl rfl) hne.symm, hsilent]
    · intro fd
      rw [← hsilent]
      by_cases hfd : (s'.atoms (.write t.addr)).fd = fd
      · refine ⟨sent, hf.accepted (.inl hfd), ?_⟩
        have hcontents := h.contents
        rw [hf.contents] at hcontents
        exact (List.prefix_append _ _).trans hcontents
      · exact ⟨[], by rw [hf.silent (.inl rfl) (Ne.symm hfd), List.append_nil], List.nil_prefix⟩
  have hrest := pipeAutoReadRest_ok hok
  change OnlyStart addr s s₂
  cases hrest with
  | idle => exact hsilent.onlyStart
  | sent hw' hf =>
    obtain rfl := Option.some.inj (hw'.symm.trans hw)
    exact hflush hf
  | left hw' hf =>
    obtain rfl := Option.some.inj (hw'.symm.trans hw)
    have hsent := hflush hf
    exact hsent
  | full hw' hr hf =>
    obtain rfl := Option.some.inj (hw'.symm.trans hw)
    have hsent := hflush hf
    exact hsent

theorem ClearStart.routes (h : Echoing t addr s) (hclear : ClearStart addr s) :
    OnlyStart addr s (pipeAutoRead s .masterOutput).endState := by
  obtain ⟨hsilent, habout⟩ := hclear.read h
  have havail : fifoAvail (s.fifo .masterOutput) ≠ 0 := by
    intro hzero
    have hlen := arriving_length s .masterOutput (s.atoms .master).fd
    rw [hzero, Nat.le_zero, List.length_eq_zero_iff] at hlen
    exact hclear.data hlen
  have hread : (s.readAtom .masterOutput) = .ok .master := by rw [Sys.readAtom, h.wf.masterOut]
  rw [pipeAutoRead, if_neg havail]
  apply ends_id.mp
  have hfifo : Result.Ends Prod.snd (fun s' => Silent s s') (pipeFifoRead s .masterOutput) := by
    rw [pipeFifoRead, hread]
    apply hsilent.bind
    intro x hok hs₁
    obtain ⟨cnt, s₁⟩ := x
    change Result.Ends _ _ (if cnt = -2 then _ else _)
    split
    · rw [Sys.readAtom, (habout cnt s₁ hok).wf.masterOut]
      exact hs₁.closeAtom .master
    · exact hs₁
  apply (hfifo.mono fun _ hs => hs.onlyStart).bind
  intro x hok _
  obtain ⟨cnt, s₂⟩ := x
  have hs₂ : Silent s s₂ := by
    rw [hok] at hfifo
    exact hfifo
  have habout₂ : AboutToWrite addr s s₂ := by
    rw [pipeFifoRead, hread] at hok
    obtain ⟨⟨cnt₁, s₁⟩, hok₁, hok⟩ := Result.bind_ok (x := fifoRead s .masterOutput (s.atoms .master).fd) hok
    have h₁ := habout cnt₁ s₁ hok₁
    simp only at hok
    split at hok
    · obtain ⟨a, ha, hok⟩ := Result.bind_ok hok
      cases hok
      exact h₁.closeAtom (readAtom_ok ha)
    · cases hok
      exact h₁
  exact ends_id.mpr (habout₂.rest hs₂)

end Start

/-- Up to a start the text goes to the descriptor of the topmost task, in order, and to no other.
At a start that finds nothing queued and nothing in front of it, all of the text before the
start sequence has gone there, and what the event writes is none of it. -/
theorem scanRun_routes {t : TaskState} {addr : Nat} {s₀ s : Sys} {text : List UInt8}
    (h₀ : Echoing t addr s₀) (run : ScanRun addr s₀ text s) :
    account (s₀.atoms (.write t.addr)).fd addr s =
      account (s₀.atoms (.write t.addr)).fd addr s₀ ++ text ∧
    (∀ fd, fd ≠ (s₀.atoms (.write t.addr)).fd →
      written fd s.kernel.trace = written fd s₀.kernel.trace) ∧
    (s₀.live .master → (s₀.atoms .master).fd ≠ (s₀.atoms (.write t.addr)).fd) ∧
    (ClearStart addr s →
      written (s₀.atoms (.write t.addr)).fd s.kernel.trace ++ heldBack (s.zscans addr) (packet s) =
        account (s₀.atoms (.write t.addr)).fd addr s₀ ++ text ++ packet s ∧
      OnlyStart addr s (pipeAutoRead s .masterOutput).endState) := by
  have hroutes := scanRun_account h₀ run
  refine ⟨hroutes.stream, hroutes.others, fun hl he => ?_, fun hclear => ⟨?_, ?_⟩⟩
  · obtain ⟨below, htop⟩ := h₀.top
    have hmem : InUse s₀.tasks (.write t.addr) := by
      rw [htop]
      exact .write List.mem_cons_self
    have hsame := (h₀.wf.held .master .master).eq_of_fd (h₀.wf.held _ hmem) hl he.symm
    cases hsame
  · have hempty : (s.fifo .masterOutput).contents = [] :=
      (Buffer.toList_eq_nil_iff (s.fifo .masterOutput).toBuffer).mpr hclear.queued
    have hs := hroutes.reach.settled
    have htext := (zrqScan_holdsBack hs hclear.data).1
    rw [passedOn_eq hs hclear.data, hclear.front, List.nil_append] at htext
    rw [← hroutes.stream, account, hempty, List.append_nil, List.append_assoc, htext]
  · exact hclear.routes hroutes.toEchoing

/-- Eight bytes come while the terminal takes nothing. -/
def helloWo : List UInt8 := [104, 101, 108, 108, 111, 32, 119, 111]

theorem scanning_echoing {s₀ s : Sys} (h₀ : Started s₀) (hrun : MainRun s₀ s)
    (htop : s.tasks.length = 1) (hproc : (s.fifo .masterOutput).proc = some .echoScannerFilterProc)
    (hrefcon : (s.fifo .masterOutput).refcon = .zscan 1) (hzscan : s.zscans 1 = zscanstateInit) :
    ∃ t, Echoing t 1 s := by
  obtain ⟨t, ht⟩ := List.length_eq_one_iff.mp htop
  refine ⟨t, mainRun_wf h₀ hrun, ⟨[], ht⟩, hproc, hrefcon, ?_⟩
  rw [hzscan]
  exact .init

theorem letsThrough_helloWo {s : Sys} (hpacket : packet s = helloWo) (hzscan : s.zscans 1 = zscanstateInit)
    (havail : fifoAvail (s.fifo .masterOutput) = 8191) : LetsThrough 1 s := by
  intro _
  rw [hpacket, hzscan, havail]
  decide +kernel

/-- The scanner is on, and the eight bytes are about to come. -/
theorem scanning_helloWo : ∃ t s, Echoing t 1 s ∧ ScanRun 1 s helloWo (pipeAutoRead s .masterOutput).endState ∧
    written (s.atoms .master).fd s.kernel.trace = [] ∧
    packet (pipeAutoRead s .masterOutput).endState = startString ∧
    written (s.atoms .master).fd
      (pipeAutoRead (pipeAutoRead s .masterOutput).endState .masterOutput).endState.kernel.trace = helloWo := by
  obtain ⟨s₀, s, h₀, hrun, htest⟩ := played_run stalled [.echoScanner] (fun _ s =>
    s.tasks.length = 1 ∧ (s.fifo .masterOutput).proc = some .echoScannerFilterProc ∧
      (s.fifo .masterOutput).refcon = .zscan 1 ∧ s.zscans 1 = zscanstateInit ∧ packet s = helloWo ∧
      fifoAvail (s.fifo .masterOutput) = 8191 ∧ written (s.atoms .master).fd s.kernel.trace = [] ∧
      packet (pipeAutoRead s .masterOutput).endState = startString ∧
      written (s.atoms .master).fd
        (pipeAutoRead (pipeAutoRead s .masterOutput).endState .masterOutput).endState.kernel.trace =
          helloWo) (by decide +kernel)
  obtain ⟨htop, hproc, hrefcon, hzscan, hpacket, havail, hbefore, hnext, hafter⟩ := of_decide_eq_true htest
  obtain ⟨t, hechoing⟩ := scanning_echoing h₀.1 hrun htop hproc hrefcon hzscan
  have hscan := ScanRun.autoRead .start (letsThrough_helloWo hpacket hzscan havail)
  rw [hpacket] at hscan
  exact ⟨t, s, hechoing, hscan, hbefore, hnext, hafter⟩

/-- The kernel under a terminal that takes the eight bytes before a start sequence comes. -/
def prompt : Kernel where
  reads := [.data 104 [101, 108, 108, 111, 32, 119, 111], .data chStar [chStar, chCan, chB, ch0, ch0]]
  writes := [.accept 8]
  forks := [.child (7, 8) (9, 10) (11, 12) 99]
  errno := none
  trace := []

/-- The eight bytes have gone, and the start sequence is about to come. -/
theorem scanning_prompt : ∃ t s₀ s, Echoing t 1 s₀ ∧ ScanRun 1 s₀ helloWo s ∧ ClearStart 1 s := by
  obtain ⟨s₀, s, h₀, hrun, htest⟩ := played_run prompt [.echoScanner] (fun _ s =>
    s.tasks.length = 1 ∧ (s.fifo .masterOutput).proc = some .echoScannerFilterProc ∧
      (s.fifo .masterOutput).refcon = .zscan 1 ∧ s.zscans 1 = zscanstateInit ∧ packet s = helloWo ∧
      fifoAvail (s.fifo .masterOutput) = 8191 ∧
      packet (pipeAutoRead s .masterOutput).endState = startString ∧
      fifoCount ((pipeAutoRead s .masterOutput).endState.fifo .masterOutput) = 0 ∧
      (pipeAutoRead s .masterOutput).endState.zscans 1 = zscanstateInit ∧
      fifoAvail ((pipeAutoRead s .masterOutput).endState.fifo .masterOutput) = 8191) (by decide +kernel)
  obtain ⟨htop, hproc, hrefcon, hzscan, hpacket, havail, hnext, hempty, hzscan', havail'⟩ := of_decide_eq_true htest
  obtain ⟨t, hechoing⟩ := scanning_echoing h₀.1 hrun htop hproc hrefcon hzscan
  have hscan := ScanRun.autoRead .start (letsThrough_helloWo hpacket hzscan havail)
  rw [hpacket] at hscan
  refine ⟨t, s, _, hechoing, hscan, ?_, ?_, hempty, ?_, ?_⟩
  · rw [hnext]
    decide
  · rw [hnext, hzscan']
    decide +kernel
  · rw [hnext, hzscan']
    decide +kernel
  · rw [hnext, hzscan', havail']
    decide +kernel

/-- The eight bytes are queued for the terminal. Where it has taken them before the start sequence comes, the master is
told nothing. -/
theorem scanRun_routes_helloWo :
    (∃ t s₀ s, ScanRun 1 s₀ helloWo s ∧
      account (s₀.atoms (.write t)).fd 1 s = account (s₀.atoms (.write t)).fd 1 s₀ ++ helloWo) ∧
    ∃ s₀ s, ScanRun 1 s₀ helloWo s ∧ ClearStart 1 s ∧ OnlyStart 1 s (pipeAutoRead s .masterOutput).endState := by
  constructor
  · obtain ⟨t, s, hechoing, hrun, -⟩ := scanning_helloWo
    exact ⟨t.addr, s, _, hrun, (scanRun_routes hechoing hrun).1⟩
  · obtain ⟨t, s₀, s, hechoing, hrun, hclear⟩ := scanning_prompt
    exact ⟨s₀, s, hrun, hclear, ((scanRun_routes hechoing hrun).2.2.2 hclear).2⟩

/-- At the start they are drained to the master, so that the child reads them. -/
theorem scanRun_misroutes : ∃ t s₀ s, Echoing t 1 s₀ ∧ ScanRun 1 s₀ helloWo s ∧ packet s = startString ∧
    written (s₀.atoms .master).fd s₀.kernel.trace = [] ∧
    written (s₀.atoms .master).fd (pipeAutoRead s .masterOutput).endState.kernel.trace = helloWo := by
  obtain ⟨t, s, hechoing, hrun, hbefore, hnext, hafter⟩ := scanning_helloWo
  exact ⟨t, s, _, hechoing, hrun, hnext, hbefore, hafter⟩

end Rzh
