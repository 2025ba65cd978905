import Rzh.Drain
import Rzh.Levels

/-!
# Room in the final drain

Whether the fifo to the master is full when read() is called follows from what read() and write() have
answered before: a packet adds what the filter lets through, and one write is made behind it.
-/
namespace Rzh

open Circular Sys

/-- What the filter of a child's output lets through: all, all up to the end of the string that the end
scanner looks for, or nothing. -/
inductive Outlet where
  | all
  | upToZfin (ref : Option Nat)
  | nothing
  deriving DecidableEq, Repr

/-- How many bytes of a packet get through, and the filter behind it. -/
def Outlet.take : Outlet → List UInt8 → Nat × Outlet
  | .all, buf => (buf.length, .all)
  | .upToZfin ref, buf =>
    let o := zfinScan ref buf
    ((putBytes o.puts).length, if o.found = none then .upToZfin o.ref else .nothing)
  | .nothing, _ => (0, .nothing)

/-- The bytes of an answer of read() that has been asked for `cnt` at the most. -/
def ReadRes.arrived (cnt : Nat) : ReadRes → List UInt8
  | .data b bs => (b :: bs).take cnt
  | _ => []

/-- The fifo to the master without its bytes, its filter, and whether the master is open. -/
structure Backlog where
  level : Level
  outlet : Outlet
  opened : Bool
  deriving DecidableEq, Repr

namespace Backlog

def gets (b : Backlog) (buf : List UInt8) : Backlog :=
  { b with level := b.level.append (b.outlet.take buf).1, outlet := (b.outlet.take buf).2 }

/-- One write to the master, which is closed if it turns out to be broken. -/
def write (b : Backlog) (ws : List WriteRes) : Backlog × List WriteRes :=
  if b.opened then
    let (err, level, ws) := b.level.write ws
    ({ b with level := level, opened := decide (err ≠ some .epipe) }, ws)
  else (b, ws)

/-- What an answer of read() and the write behind it make of the fifo. -/
def pass (b : Backlog) (r : ReadRes) (ws : List WriteRes) : Backlog × List WriteRes :=
  (b.gets (r.arrived (min b.level.room bufsiz))).write ws

/-- The answers of read() come to the end of the file, and there is room in front of each of them. -/
def EndsWithRoom : Backlog → List ReadRes → List WriteRes → Prop
  | _, [], _ => False
  | b, r :: rs, ws =>
    if r = .fail .eintr then EndsWithRoom b rs ws
    else b.level.room ≠ 0 ∧ (r = .eof ∨ EndsWithRoom (b.pass r ws).1 rs (b.pass r ws).2)

end Backlog

def Sys.outlet (s : Sys) : Outlet :=
  match (s.fifo .inputMaster).proc, (s.fifo .inputMaster).refcon with
  | none, _ => .all
  | some .zfinScan, .zfin addr => .upToZfin (s.zfins addr).ref
  | _, _ => .nothing

def Sys.backlog (s : Sys) : Backlog := ⟨(s.fifo .inputMaster).level, s.outlet, decide (s.live .master)⟩

section Answers

variable {b : Backlog} {rs : List ReadRes} {ws : List WriteRes}

/-- A call of read() that has been interrupted is made again. -/
theorem endsWithRoom_iff (b : Backlog) (rs : List ReadRes) (ws : List WriteRes) :
    b.EndsWithRoom rs ws ↔ b.level.room ≠ 0 ∧ ((retryRead rs).1 = .eof ∨
      (b.pass (retryRead rs).1 ws).1.EndsWithRoom (retryRead rs).2 (b.pass (retryRead rs).1 ws).2) := by
  induction rs with
  | nil => simp [Backlog.EndsWithRoom, retryRead]
  | cons r rs ih =>
    rw [Backlog.EndsWithRoom]
    by_cases hint : r = .fail .eintr
    · rw [if_pos hint, ih, hint, retryRead]
    · have hfirst : retryRead (r :: rs) = (r, rs) := by
        rw [retryRead]
        exact hint
      rw [if_neg hint, hfirst]

/-- How many bytes the answers of read() hold. -/
def dataBytes : List ReadRes → Nat
  | [] => 0
  | .data _ bs :: rs => bs.length + 1 + dataBytes rs
  | .eof :: rs => dataBytes rs
  | .fail _ :: rs => dataBytes rs

theorem arrived_bytes (r : ReadRes) (cnt : Nat) (rs : List ReadRes) :
    (r.arrived cnt).length + dataBytes rs ≤ dataBytes (r :: rs) := by
  cases r with
  | data c cs =>
    have hle : ((c :: cs).take cnt).length ≤ cs.length + 1 := List.length_take_le' cnt (c :: cs)
    exact Nat.add_le_add_right hle _
  | eof => simp [ReadRes.arrived, dataBytes]
  | fail e => simp [ReadRes.arrived, dataBytes]

theorem Outlet.take_le (o : Outlet) (buf : List UInt8) : (o.take buf).1 ≤ buf.length := by
  cases o with
  | all => exact Nat.le_refl _
  | upToZfin ref => exact (zfinScan_begins ref buf).length_le
  | nothing => exact Nat.zero_le _

theorem Level.write_size (l : Level) (ws : List WriteRes) : (l.write ws).2.1.size = l.size := by
  rw [Level.write]
  split
  · rfl
  · split
    · rfl
    · simp only
      split
      · rfl
      · split <;> rfl

theorem Backlog.write_level (b : Backlog) (ws : List WriteRes) :
    (b.write ws).1.level.size = b.level.size ∧ (b.write ws).1.level.count ≤ b.level.count := by
  rw [Backlog.write]
  split
  · exact ⟨b.level.write_size ws, b.level.write_count_le ws⟩
  · exact ⟨rfl, Nat.le_refl _⟩

/-- However slow the master is, there is room as long as all that is unread fits in behind what is
queued. -/
theorem endsWithRoom_of_bytes (heof : .eof ∈ rs) (hbytes : dataBytes rs < b.level.room) : b.EndsWithRoom rs ws := by
  induction rs generalizing b ws with
  | nil => cases heof
  | cons r rs ih =>
    rw [Backlog.EndsWithRoom]
    have hrest := arrived_bytes r (min b.level.room bufsiz) rs
    by_cases hint : r = .fail .eintr
    · rw [if_pos hint]
      have heof' : ReadRes.eof ∈ rs := by
        rw [hint] at heof
        simpa using heof
      exact ih heof' (by omega)
    · rw [if_neg hint]
      refine ⟨by omega, ?_⟩
      by_cases hend : r = .eof
      · exact .inl hend
      · right
        have heof' : ReadRes.eof ∈ rs := by
          obtain heq | hmem := List.mem_cons.mp heof
          · exact absurd heq.symm hend
          · exact hmem
        apply ih heof'
        have htake := b.outlet.take_le (r.arrived (min b.level.room bufsiz))
        obtain ⟨hsize, hcount⟩ := (b.gets (r.arrived (min b.level.room bufsiz))).write_level ws
        have hgets : (b.gets (r.arrived (min b.level.room bufsiz))).level.count ≤
            b.level.count + (b.outlet.take (r.arrived (min b.level.room bufsiz))).1 := Nat.mod_le _ _
        have hgets' : (b.gets (r.arrived (min b.level.room bufsiz))).level.size = b.level.size := rfl
        rw [Level.room] at hbytes ⊢
        rw [Backlog.pass, hsize, hgets']
        omega

end Answers

section Packets

variable {s s' : Sys} {buf : List UInt8} {addr : Nat} {fd : Int}

theorem Fifo.level_of_ring {f f' : Fifo} (h : f.toBuffer = f'.toBuffer) : f.level = f'.level := by
  rw [Fifo.level, Fifo.level, fifoCount_eq, fifoCount_eq, h]

theorem Fifo.level_append_zero (f : Fifo) : f.level.append 0 = f.level :=
  (Fifo.level_append rfl rfl (by rw [Nat.add_zero, Nat.mod_eq_of_lt f.stop_lt])).symm

/-- The filter lets nothing through. -/
def Blocked (s : Sys) : Prop := (s.fifo .inputMaster).proc ≠ none ∧ (s.fifo .inputMaster).proc ≠ some .zfinScan

theorem Blocked.outlet (h : Blocked s) : s.outlet = .nothing := by
  obtain ⟨hnone, hscan⟩ := h
  rw [Sys.outlet]
  split
  · next hproc => exact absurd hproc hnone
  · next hproc _ => exact absurd hproc hscan
  · rfl

theorem zfinSave_blocked (hs : Blocked s) (h : zfinSave s .inputMaster buf = .ok s') : Blocked s' := by
  rw [Blocked, Sys.fifo, zfinSave_pipes h]
  exact hs

theorem zfinNooo_blocked (hs : Blocked s) (h : zfinNooo s .inputMaster buf = .ok s') : Blocked s' := by
  rw [zfinNooo] at h
  split at h
  · cases h
    exact hs
  · obtain ⟨⟨addr, state⟩, -, h⟩ := Result.bind_ok h
    simp only at h
    split at h
    · cases h
      exact hs
    · refine zfinSave_blocked ?_ h
      rw [Blocked, setProc, fifo_setFifo]
      simp

theorem zfinTerm_blocked (h : zfinTerm s .inputMaster = .ok s') : Blocked s' := by
  rw [Blocked, zfinTerm_drops h]
  decide

theorem zfinScanCall_ref {f f' : Fifo} {state state' : ZfinScanState} {rest : Option (List UInt8)}
    (h : zfinScanCall f state buf = .ok (f', state', rest)) : state'.ref = (zfinScan state.ref buf).ref := by
  rw [zfinScanCall] at h
  simp only at h
  split at h
  · cases h
  · split at h
    · cases h
      rfl
    · cases h
      rfl

/-- What the end scanner leaves of a packet that it has been given. -/
theorem zfinScanProc_backlog (hproc : (s.fifo .inputMaster).proc = some .zfinScan)
    (hrefcon : (s.fifo .inputMaster).refcon = .zfin addr) (h : zfinScanProc s .inputMaster buf = .ok s') :
    (s'.fifo .inputMaster).level = (s.backlog.gets buf).level ∧ s'.outlet = (s.backlog.gets buf).outlet := by
  have houtlet : s.outlet = .upToZfin (s.zfins addr).ref := by rw [Sys.outlet, hproc, hrefcon]
  obtain ⟨addr', hrefcon', hring⟩ := zfinScanProc_ring h
  rw [hrefcon] at hrefcon'
  cases hrefcon'
  rw [Backlog.gets, Sys.backlog, houtlet]
  refine ⟨(Fifo.level_of_ring hring).trans (runPuts_level _ _), ?_⟩
  obtain ⟨⟨f, state, rest⟩, hcall⟩ := zfinScanCall_total (s.fifo .inputMaster) (s.zfins addr) buf
  obtain ⟨hrest, -, hrefcon₁, hsame, hfound⟩ := zfinScanCall_leaves hcall
  have href : state.ref = (zfinScan (s.zfins addr).ref buf).ref := zfinScanCall_ref hcall
  simp only [zfinScanProc, zfinState, hrefcon, bind, Except.bind, hcall] at h
  rw [Outlet.take]
  simp only [← hrest]
  cases rest with
  | none =>
    cases h
    rw [if_pos rfl, Sys.outlet, fifo_setFifo, hsame rfl, hproc, hrefcon₁, hrefcon, ← href]
    simp [setZfin, Sys.setFifo, setPipe]
  | some rest =>
    rw [if_neg (Option.some_ne_none rest)]
    have hblocked : Blocked ((setZfin s addr state).setFifo .inputMaster f s.kernel) := by
      rw [Blocked, fifo_setFifo, hfound (Option.some_ne_none rest)]
      cases (s.zfins addr).found <;> decide
    cases hf : state.found with
    | zfinNooo =>
      rw [hf] at h
      exact (zfinNooo_blocked hblocked h).outlet
    | zfinTerm =>
      rw [hf] at h
      exact (zfinTerm_blocked h).outlet

/-- No end scanner uses an answer of write(). -/
theorem callProc_writes {proc : FifoProc} (hne : proc ≠ .echoScannerFilterProc)
    (h : callProc s .inputMaster proc buf fd = .ok s') : s'.kernel.writes = s.kernel.writes := by
  have hkills := callProc_kills hne s .inputMaster buf fd
  rw [h] at hkills
  obtain hk | ⟨pid, hk⟩ : Kills s s' := hkills
  · rw [hk]
  · rw [hk]
    rfl

/-- A filter that lets nothing through leaves the queue and goes on letting nothing through. -/
theorem Blocked.gets (hs : Blocked s) (hring : (s'.fifo .inputMaster).toBuffer = (s.fifo .inputMaster).toBuffer)
    (hs' : Blocked s') (buf : List UInt8) :
    (s'.fifo .inputMaster).level = (s.backlog.gets buf).level ∧ s'.outlet = (s.backlog.gets buf).outlet := by
  rw [Backlog.gets, Sys.backlog, hs.outlet, hs'.outlet]
  exact ⟨(Fifo.level_of_ring hring).trans (s.fifo .inputMaster).level_append_zero.symm, rfl⟩

/-- What the procs of the end scanners make of the queue and of themselves. -/
theorem callProc_gets {proc : FifoProc} (hproc : (s.fifo .inputMaster).proc = some proc)
    (hne : proc ≠ .echoScannerFilterProc) (hrefcon : (s.fifo .inputMaster).refcon = .zfin addr)
    (h : callProc s .inputMaster proc buf fd = .ok s') :
    (s'.fifo .inputMaster).level = (s.backlog.gets buf).level ∧ s'.outlet = (s.backlog.gets buf).outlet := by
  have hblocked : proc ≠ .zfinScan → Blocked s := by
    intro hzfin
    rw [Blocked, hproc]
    exact ⟨Option.some_ne_none proc, fun he => hzfin (Option.some.inj he)⟩
  cases proc with
  | echoScannerFilterProc => exact absurd rfl hne
  | zfinScan => exact zfinScanProc_backlog hproc hrefcon h
  | zfinNooo =>
    have hs := hblocked (by decide)
    exact hs.gets (zfinNooo_ring h) (zfinNooo_blocked hs h) buf
  | zfinSave =>
    have hs := hblocked (by decide)
    have hring : (s'.fifo .inputMaster).toBuffer = (s.fifo .inputMaster).toBuffer := by
      rw [Sys.fifo, zfinSave_pipes h]
      rfl
    exact hs.gets hring (zfinSave_blocked hs h) buf
  | zfinTerm => exact (hblocked (by decide)).gets (zfinTerm_ring h) (zfinTerm_blocked h) buf
  | zfinDrop =>
    have hs := hblocked (by decide)
    cases h
    exact hs.gets rfl hs buf

/-- The filter's proc, by the filter: it keeps the master and the answers of write(). -/
theorem callProc_backlog {proc : FifoProc} (hfilter : ChildFilter s) (hproc : (s.fifo .inputMaster).proc = some proc)
    (h : callProc s .inputMaster proc buf fd = .ok s') :
    s'.backlog = s.backlog.gets buf ∧ s'.kernel.writes = s.kernel.writes ∧
      (s'.pipes .inputMaster).writeAtom = (s.pipes .inputMaster).writeAtom := by
  obtain hnone | ⟨hscan, addr, hrefcon, -⟩ := hfilter
  · rw [hproc] at hnone
    cases hnone
  · have hne : proc ≠ .echoScannerFilterProc := by
      intro he
      rw [he] at hproc
      exact hscan hproc
    have hfiltered : Filtered .inputMaster s s' := by
      have heffect := callProc_ok hproc h
      cases heffect with
      | filtered h => exact h
      | started hstart => exact absurd (hproc.symm.trans hstart.2.1) fun he => hne (Option.some.inj he)
    obtain ⟨hlevel, houtlet⟩ := callProc_gets hproc hne hrefcon h
    refine ⟨?_, callProc_writes hne h, (hfiltered.ends .inputMaster).2⟩
    rw [Sys.backlog, hlevel, houtlet, decide_eq_decide.mpr hfiltered.sameAtoms.live]
    rfl

/-- A packet that is handed over makes the fifo as full as the filter says. -/
theorem HandsOver.backlog (hfilter : ChildFilter s) (h : HandsOver buf fd s s') :
    s'.backlog = s.backlog.gets buf ∧ s'.kernel.writes = s.kernel.writes ∧
      (s'.pipes .inputMaster).writeAtom = (s.pipes .inputMaster).writeAtom := by
  have hall : (s.fifo .inputMaster).proc = none → s.outlet = .all := by
    intro hproc
    rw [Sys.outlet, hproc]
  cases h with
  | proc hproc h => exact callProc_backlog hfilter hproc h
  | plain hproc hbuf =>
    refine ⟨?_, rfl, by rw [setFifo_same]⟩
    rw [Sys.backlog, Backlog.gets, Sys.backlog, hall hproc, fifo_setFifo, fifoUnsafeAppend_level, Sys.outlet,
      fifo_setFifo, fifoUnsafeAppend_proc, hproc]
    rfl
  | nothing hproc hbuf =>
    refine ⟨?_, rfl, rfl⟩
    rw [hbuf, Backlog.gets, Sys.backlog, hall hproc, Outlet.take, List.length_nil, Fifo.level_append_zero]

end Packets

section Flow

variable {s s' : Sys} {cnt : Int}

/-- A closed master takes nothing, and is not closed once more. -/
theorem fifoWrite_closed {f : Fifo} {fd : Int} {k : Kernel} (hfd : fd < 0) :
    (fifoWrite f fd k).2.1 = f ∧ (fifoWrite f fd k).2.2.writes = k.writes ∧
      ¬ ((fifoWrite f fd k).1 = -1 ∧ (fifoWrite f fd k).2.2.errno = some .epipe) := by
  have hblock : ∀ len, fifoWriteBlock f fd len k = (none, f, { k with errno := some .ebadf }) := by
    intro len
    rw [fifoWriteBlock, Kernel.write, if_pos hfd]
  rw [fifoWrite]
  split
  · rw [hblock]
    exact ⟨rfl, rfl, by simp⟩
  · split
    · rw [hblock]
      exact ⟨rfl, rfl, by simp⟩
    · exact ⟨rfl, rfl, by simp⟩

theorem pipeFifoWrite_parts {w : AtomRef} {p : PipeRef} (hw : (s.pipes p).writeAtom = some w)
    (h : pipeFifoWrite s p = .ok (cnt, s')) :
    s'.fifo p = (fifoWrite (s.fifo p) (s.atoms w).fd s.kernel).2.1 ∧
      s'.kernel.writes = (fifoWrite (s.fifo p) (s.atoms w).fd s.kernel).2.2.writes ∧
      (s'.live w ↔ s.live w ∧ ¬ ((fifoWrite (s.fifo p) (s.atoms w).fd s.kernel).1 = -1 ∧
        (fifoWrite (s.fifo p) (s.atoms w).fd s.kernel).2.2.errno = some .epipe)) := by
  rw [pipeFifoWrite, Sys.writeAtom, hw] at h
  generalize hres : fifoWrite (s.fifo p) (s.atoms w).fd s.kernel = res
  obtain ⟨c, f, k⟩ := res
  simp only [bind, Except.bind, hres, Except.ok.injEq, Prod.mk.injEq] at h
  obtain ⟨rfl, rfl⟩ := h
  have hcount : ∀ s₁ : Sys, (if 0 < c then s₁.setPipe p { s₁.pipes p with
        bytesWritten := wrapInt ((s₁.pipes p).bytesWritten + c) } else s₁).fifo p = s₁.fifo p ∧
      (if 0 < c then s₁.setPipe p { s₁.pipes p with
        bytesWritten := wrapInt ((s₁.pipes p).bytesWritten + c) } else s₁).kernel = s₁.kernel ∧
      ((if 0 < c then s₁.setPipe p { s₁.pipes p with
        bytesWritten := wrapInt ((s₁.pipes p).bytesWritten + c) } else s₁).live w ↔ s₁.live w) := by
    intro s₁
    split
    · exact ⟨by rw [Sys.fifo, setPipe_same]; rfl, rfl, Iff.rfl⟩
    · exact ⟨rfl, rfl, Iff.rfl⟩
  obtain ⟨hfifo, hkernel, hlive⟩ := hcount
    (if c = -1 ∧ k.errno = some .epipe then closeAtom (s.setFifo p f k) w else s.setFifo p f k)
  rw [hfifo, hkernel, hlive]
  by_cases hclose : c = -1 ∧ k.errno = some .epipe
  · simp only [if_pos hclose]
    obtain ⟨hpipes, -, -, hk⟩ := closeAtom_rest (s.setFifo p f k) w
    refine ⟨?_, by rw [hk]; rfl, ?_⟩
    · rw [Sys.fifo, hpipes]
      exact fifo_setFifo s p f k
    · rw [live_closeAtom]
      exact iff_of_false (fun h => h.1 rfl) fun h => h.2 hclose
  · simp only [if_neg hclose]
    exact ⟨fifo_setFifo s p f k, rfl, ⟨fun h => ⟨h, hclose⟩, fun h => h.1⟩⟩

/-- pipe_fifo_write leaves the fifo and the master as the answers of write() have it. -/
theorem pipeFifoWrite_backlog (hw : (s.pipes .inputMaster).writeAtom = some .master)
    (h : pipeFifoWrite s .inputMaster = .ok (cnt, s')) :
    s'.backlog = (s.backlog.write s.kernel.writes).1 ∧
      s'.kernel.writes = (s.backlog.write s.kernel.writes).2 := by
  obtain ⟨w, sent, hw', hflushed, -⟩ := pipeFifoWrite_ok h
  obtain ⟨k, hwrote, -⟩ := hflushed.wrote
  have houtlet : s'.outlet = s.outlet := by
    rw [Sys.outlet, Sys.outlet, hwrote.proc, hwrote.refcon, hflushed.zfins]
  obtain ⟨hfifo, hwrites, hlive⟩ := pipeFifoWrite_parts hw h
  rw [Backlog.write]
  by_cases hmaster : s.live .master
  · obtain ⟨hlevel, hw₁, hfails, herrno⟩ := fifoWrite_level (s.fifo .inputMaster) s.kernel hmaster
    have hbroken : (fifoWrite (s.fifo .inputMaster) (s.atoms .master).fd s.kernel).1 = -1 ∧
        (fifoWrite (s.fifo .inputMaster) (s.atoms .master).fd s.kernel).2.2.errno = some .epipe ↔
        ((s.fifo .inputMaster).level.write s.kernel.writes).1 = some .epipe := by
      rw [hfails]
      cases herr : ((s.fifo .inputMaster).level.write s.kernel.writes).1 with
      | none => simp
      | some e => simp [herrno e herr]
    rw [if_pos (show s.backlog.opened = true from decide_eq_true hmaster)]
    have hopened : s'.live .master ↔ ((s.fifo .inputMaster).level.write s.kernel.writes).1 ≠ some .epipe := by
      rw [hlive, hbroken]
      exact and_iff_right hmaster
    refine ⟨?_, hwrites.trans hw₁⟩
    rw [Sys.backlog, houtlet, hfifo, hlevel]
    exact congrArg (Backlog.mk _ _) (decide_eq_decide.mpr hopened)
  · obtain ⟨hsame, hw₁, -⟩ := fifoWrite_closed (f := s.fifo .inputMaster) (k := s.kernel) (Int.not_le.mp hmaster)
    have hclosed : ¬ s.backlog.opened = true := by
      rw [show s.backlog.opened = decide (s.live .master) from rfl, decide_eq_true_eq]
      exact hmaster
    rw [if_neg hclosed]
    have hstays : s'.live .master ↔ s.live .master := iff_of_false (fun h => hmaster (hlive.mp h).1) hmaster
    refine ⟨?_, hwrites.trans hw₁⟩
    rw [Sys.backlog, houtlet, hfifo, hsame]
    exact congrArg (Backlog.mk _ _) (decide_eq_decide.mpr hstays)

/-- The second half of a pass is one write, or none if nothing is queued. -/
theorem pipeAutoReadRest_backlog (hw : (s.pipes .inputMaster).writeAtom = some .master)
    (h : pipeAutoReadRest s .inputMaster = .ok s') :
    s'.backlog = (s.backlog.write s.kernel.writes).1 ∧
      s'.kernel.writes = (s.backlog.write s.kernel.writes).2 := by
  rw [pipeAutoReadRest] at h
  split at h
  · next hcount =>
    cases h
    have hlevel : s.backlog.level.write s.kernel.writes = (none, s.backlog.level, s.kernel.writes) := by
      rw [Level.write]
      exact if_pos hcount
    rw [Backlog.write, hlevel]
    split
    · next hopened => exact ⟨congrArg (Backlog.mk _ _) hopened, rfl⟩
    · exact ⟨rfl, rfl⟩
  · obtain ⟨⟨cnt, s₁⟩, hwrite, h⟩ := Result.bind_ok h
    have hflow := pipeFifoWrite_backlog hw hwrite
    have hsame : s'.backlog = s₁.backlog ∧ s'.kernel = s₁.kernel := by
      simp only at h
      split at h
      · cases h
        exact ⟨rfl, rfl⟩
      · obtain ⟨w, -, h⟩ := Result.bind_ok h
        split at h
        · obtain ⟨r, -, h⟩ := Result.bind_ok h
          cases h
          refine ⟨?_, rfl⟩
          simp only [Sys.backlog, Sys.outlet, Sys.fifo, setPipe_same]
          rfl
        · cases h
          exact ⟨rfl, rfl⟩
    rw [hsame.1, hsame.2]
    exact hflow

end Flow

/-- If the descriptor is open, the answers come to the end of the file with room all the way. -/
def RunsOut (r : AtomRef) (s : Sys) : Prop :=
  (s.atoms r).fd ≠ -1 → s.backlog.EndsWithRoom s.kernel.reads s.kernel.writes

section Loops

variable {task : TaskState} {s s' : Sys} {n : Nat}

theorem Kernel.read_arrived (k : Kernel) {fd : Int} (hfd : 0 ≤ fd) (cnt : Nat) :
    (k.read fd cnt).1.getD [] = (retryRead k.reads).1.arrived cnt := by
  rw [Kernel.read, if_neg (by omega)]
  generalize retryRead k.reads = res
  obtain ⟨r, rs⟩ := res
  cases r with
  | data b bs => rfl
  | eof => rfl
  | fail e => rfl

/-- A pass in front of the end of the file makes of the fifo what the answers say. -/
theorem DrainPass.backlog (h : Draining task s) (hopen : (s.atoms (.read task.addr)).fd ≠ -1)
    (hpass : DrainPass (.read task.addr) s s') (hne : (retryRead s.kernel.reads).1 ≠ .eof) :
    s'.backlog = (s.backlog.pass (retryRead s.kernel.reads).1 s.kernel.writes).1 ∧
      s'.kernel.writes = (s.backlog.pass (retryRead s.kernel.reads).1 s.kernel.writes).2 := by
  obtain ⟨s₁, hhands, hflow⟩ := hpass.hands
  have hfd : 0 ≤ (s.atoms (.read task.addr)).fd := by
    have hnumber := h.number
    omega
  have harrived : arriving s .inputMaster (s.atoms (.read task.addr)).fd =
      (retryRead s.kernel.reads).1.arrived (min s.backlog.level.room bufsiz) := by
    rw [arriving, s.kernel.read_arrived hfd, Sys.backlog, Fifo.level_room]
  obtain ⟨hgets, hwrites, hw⟩ :=
    hhands.backlog (s := { s with kernel := readKernel s (s.atoms (.read task.addr)).fd }) h.filter
  obtain ⟨hbacklog, hwrites'⟩ := pipeAutoReadRest_backlog (hw.trans h.wf.masterIn) (hflow hne)
  have hread : (readKernel s (s.atoms (.read task.addr)).fd).writes = s.kernel.writes := s.kernel.read_writes _ _
  rw [hgets, hwrites] at hbacklog hwrites'
  rw [Backlog.pass, ← harrived, ← hread]
  exact ⟨hbacklog, hwrites'⟩

/-- Whether the answers run out is decided by the pass and by those behind it. -/
theorem DrainPass.runsOut_iff (h : Draining task s) (hopen : (s.atoms (.read task.addr)).fd ≠ -1)
    (hroom : fifoAvail (s.fifo .inputMaster) ≠ 0) (hpass : DrainPass (.read task.addr) s s')
    (hne : (retryRead s.kernel.reads).1 ≠ .eof) :
    RunsOut (.read task.addr) s ↔ RunsOut (.read task.addr) s' := by
  obtain ⟨hbacklog, hwrites⟩ := hpass.backlog h hopen hne
  have hroom' : s.backlog.level.room ≠ 0 := by
    rw [Sys.backlog, Fifo.level_room]
    exact hroom
  rw [RunsOut, RunsOut, hpass.stays hne, endsWithRoom_iff, hbacklog, hwrites, hpass.reads]
  simp only [hne, hroom', false_or, ne_eq, not_false_eq_true, true_and]

theorem readOut_done (hclosed : (s.atoms (.read task.addr)).fd = -1) (n : Nat) :
    readOut (n + 1) s (.read task.addr) = pure s := by
  rw [readOut, if_pos hclosed]

theorem readOut_next (hopen : (s.atoms (.read task.addr)).fd ≠ -1)
    (h : pipeIoProc s (.read task.addr) [.read] = .ok s') (n : Nat) :
    readOut (n + 1) s (.read task.addr) = readOut n s' (.read task.addr) := by
  rw [readOut, if_neg hopen, h]
  rfl

/-- Answers that come to the end of the file are used up one after the other. -/
theorem Backlog.EndsWithRoom.shorter {b : Backlog} {rs : List ReadRes} {ws : List WriteRes}
    (h : b.EndsWithRoom rs ws) (hne : (retryRead rs).1 ≠ .eof) : (retryRead rs).2.length < rs.length := by
  have hnil : rs ≠ [] := by
    rintro rfl
    exact h
  obtain ⟨used, -, ⟨he, -⟩ | ⟨-, hrs, hused⟩⟩ := retryRead_rest rs
  · exact absurd he hne
  · have hpos := List.length_pos_of_ne_nil (hused hnil)
    have hlength := congrArg List.length hrs
    rw [List.length_append] at hlength
    omega

/-- With the end of the file to come and room for every packet, the inner loop comes to its end. -/
theorem readOut_ends (h : Draining task s) (hroom : RunsOut (.read task.addr) s) :
    ∃ m packets s₁, (∀ n, m ≤ n → readOut n s (.read task.addr) = pure s₁) ∧
      DrainedTo (.read task.addr) s packets s₁ := by
  induction hlength : s.kernel.reads.length using Nat.strongRecOn generalizing s with
  | ind length ih =>
    by_cases hclosed : (s.atoms (.read task.addr)).fd = -1
    · refine ⟨1, [], s, ?_, .done s, hclosed, by rw [List.flatten_nil, List.append_nil],
        fun hopen => absurd hclosed hopen⟩
      intro n hn
      obtain ⟨n, rfl⟩ : ∃ k, n = k + 1 := ⟨n - 1, by omega⟩
      exact readOut_done hclosed n
    · have hends := hroom hclosed
      have hfirst : fifoAvail (s.fifo .inputMaster) ≠ 0 := by
        rw [← Fifo.level_room]
        exact ((endsWithRoom_iff _ _ _).mp hends).1
      obtain ⟨s', hpass, hs'⟩ := h.pass hclosed hfirst
      obtain ⟨s₁, hhands, -⟩ := hpass.hands
      have hproc := hpass.proc
      have hreads := hpass.reads
      have hbytes := hpass.bytes
      obtain ⟨used, hnone, ⟨he, hrs⟩ | ⟨hne, hrs, -⟩⟩ := retryRead_rest s.kernel.reads
      · have hfd := hpass.ended he
        refine ⟨2, _, s', ?_, .pass hclosed hhands hproc (.done s'), hfd, ?_, ?_⟩
        · intro n hn
          obtain ⟨n, rfl⟩ : ∃ k, n = k + 2 := ⟨n - 2, by omega⟩
          rw [readOut_next hclosed hproc, readOut_done hfd]
        · rw [hbytes, List.flatten_cons, List.flatten_nil, List.append_nil]
        · intro _
          rw [hreads]
          exact ⟨used, hrs, hnone⟩
      · have hfd := hpass.stays hne
        have hnext := (hpass.runsOut_iff h hclosed hfirst hne).mp hroom
        have hlt := hends.shorter hne
        rw [← hreads] at hlt
        obtain ⟨m, packets, s'', hout, hdrained⟩ := ih _ (hlength ▸ hlt) hs' hnext rfl
        refine ⟨m + 1, _, s'', ?_, .pass hclosed hhands hproc hdrained.run, hdrained.closed, ?_, ?_⟩
        · intro n hn
          obtain ⟨n, rfl⟩ : ∃ k, n = k + 1 := ⟨n - 1, by omega⟩
          rw [readOut_next hclosed hproc]
          exact hout n (by omega)
        · have hrest := hdrained.bytes
          rw [hfd, hbytes] at hrest
          rw [hrest, List.flatten_cons, List.append_assoc]
        · intro _
          obtain ⟨before, hbefore, hnone'⟩ := hdrained.ended (hfd ▸ hclosed)
          refine ⟨used ++ before, ?_, by simp [hnone, hnone']⟩
          rw [List.append_assoc, ← hbefore, hreads]
          exact hrs

/-- An inner loop that has come to its end has come to the end of the file, and has found room all
the way. -/
theorem readOut_ended (h : Draining task s) (hs : readOut n s (.read task.addr) = pure s') :
    RunsOut (.read task.addr) s := by
  induction n generalizing s with
  | zero => cases hs
  | succ n ih =>
    by_cases hclosed : (s.atoms (.read task.addr)).fd = -1
    · exact fun hopen => absurd hclosed hopen
    · cases hproc : pipeIoProc s (.read task.addr) [.read] with
      | error e =>
        rw [readOut, if_neg hclosed, hproc] at hs
        cases hs
      | ok s₁ =>
        have hroom := pipeIoProc_room h hproc
        obtain ⟨s₁', hpass, hs₁⟩ := h.pass hclosed hroom
        obtain rfl : s₁ = s₁' := Except.ok.inj (hproc.symm.trans hpass.proc)
        rw [readOut_next hclosed hproc] at hs
        by_cases he : (retryRead s.kernel.reads).1 = .eof
        · intro _
          rw [endsWithRoom_iff]
          refine ⟨?_, .inl he⟩
          rw [Sys.backlog, Fifo.level_room]
          exact hroom
        · exact (hpass.runsOut_iff h hclosed hroom he).mpr (ih hs₁ hs)

theorem DrainRun.draining {packets : List (List UInt8)} (h : Draining task s)
    (run : DrainRun (.read task.addr) s packets s') : Draining task s' := by
  induction run with
  | done => exact h
  | pass hopen _ hproc _ ih =>
    obtain ⟨s₁, hpass, hs₁⟩ := h.pass hopen (pipeIoProc_room h hproc)
    obtain rfl := Except.ok.inj (hproc.symm.trans hpass.proc)
    exact ih hs₁

theorem drained_of_runsOut (h : Draining task s) (hroom : RunsOut (.read task.addr) s) : Drained task s := by
  obtain ⟨m, packets, s₁, hout, hdrained⟩ := readOut_ends h hroom
  by_cases hclosed : (s.atoms (.read task.addr)).fd = -1
  · refine ⟨1, s, packets, s₁, masterPipeFindTask_top h.top 0, ?_, hdrained, by rw [if_pos hclosed]⟩
    rw [drainReader, if_pos hclosed]
  · have hs₁ : s₁.WF := (hdrained.run.draining h).wf
    obtain ⟨s', hfinal, hfd⟩ := finalWrite_total hs₁ (.read task.addr)
    refine ⟨m + 2, s', packets, s₁, masterPipeFindTask_top h.top (m + 1), ?_, hdrained, ?_⟩
    swap
    · rw [if_neg hclosed]
      exact hfinal
    rw [drainReader, if_neg hclosed, hout (m + 1) (by omega)]
    show (liftM (finalWrite s₁) >>= fun s => drainReader (m + 1) s (.read task.addr) : Looping Sys) = _
    rw [hfinal]
    show drainReader (m + 1) s' (.read task.addr) = _
    rw [drainReader, if_pos (hfd.trans hdrained.closed)]

theorem runsOut_of_drained (h : Draining task s) (hd : Drained task s) : RunsOut (.read task.addr) s := by
  obtain ⟨n, s', packets, s₁, -, hdrain, -⟩ := hd
  cases n with
  | zero => cases hdrain
  | succ n =>
    by_cases hclosed : (s.atoms (.read task.addr)).fd = -1
    · exact readOut_ended h (readOut_done hclosed 0)
    · rw [drainReader, if_neg hclosed] at hdrain
      cases hout : readOut n s (.read task.addr) with
      | none =>
        rw [hout] at hdrain
        cases hdrain
      | some x =>
        cases x with
        | error e =>
          rw [hout] at hdrain
          cases hdrain
        | ok s₂ => exact readOut_ended h hout

end Loops

/-- The loops of the final drain end, whatever the master takes and whatever has been left in the pipe,
exactly if read() gets to the end of the file and there is room in front of each of its answers. -/
theorem drained_iff {task : TaskState} {s : Sys} (h : Draining task s) :
    Drained task s ↔ RunsOut (.read task.addr) s :=
  ⟨runsOut_of_drained h, drained_of_runsOut h⟩

/-- A kernel under which a child has left these outcomes behind, and a master that takes nothing. -/
def leftBehind (reads : List ReadRes) : Kernel where
  reads := reads
  writes := []
  forks := []
  errno := none
  trace := []

/-- Whether there is one task and it passes a test. -/
def topOne (s : Sys) (test : TaskState → Bool) : Bool :=
  match s.tasks with
  | [task] => test task
  | _ => false

theorem leftBehind_draining (reads : List ReadRes)
    (h : ((launch (leftBehind reads)).passes fun s₀ => (play s₀ [.install (exitedSpec 3 7 8 100)]).passes fun s =>
      topOne s fun task => decide ((s.atoms (.read task.addr)).readPipe = .pipe .inputMaster ∧
        (s.atoms (.read task.addr)).fd = 7 ∧ (s.fifo .inputMaster).proc = none ∧
        fifoAvail (s.fifo .inputMaster) = 8191 ∧ s.kernel.reads = reads)) = true) :
    ∃ task s, Draining task s ∧ (s.atoms (.read task.addr)).fd = 7 ∧
      fifoAvail (s.fifo .inputMaster) = 8191 ∧ s.kernel.reads = reads := by
  obtain ⟨s₀, s, h₀, hrun, htest⟩ := played_run (leftBehind reads) [.install (exitedSpec 3 7 8 100)] _ h
  rw [topOne] at htest
  split at htest
  · next task htasks =>
    obtain ⟨hreader, hfd, hproc, havail, hreads⟩ := of_decide_eq_true htest
    refine ⟨task, s, ⟨mainRun_wf h₀.1 hrun, ⟨[], htasks⟩, hreader, ?_, .inl hproc⟩, hfd, havail, hreads⟩
    rw [hfd]
    decide
  · cases htest

/-- Two letters and the end of the file, with nothing for a while between them. -/
theorem drained_iff_hi : ∃ task s, Draining task s ∧ (s.atoms (.read task.addr)).fd = 7 ∧ Drained task s := by
  obtain ⟨task, s, h, hfd, havail, hreads⟩ :=
    leftBehind_draining [.data 104 [105], .fail .eagain, .eof] (by decide +kernel)
  refine ⟨task, s, h, hfd, (drained_iff h).mpr fun _ => endsWithRoom_of_bytes ?_ ?_⟩
  · rw [hreads]
    decide
  · rw [hreads, Sys.backlog, Fifo.level_room, havail]
    decide

/-- Somebody else keeps the pipe open: the loop asks for ever. -/
theorem drained_never : ¬ ∀ task s, Draining task s → Drained task s := by
  intro h
  obtain ⟨task, s, hs, hfd, -, hreads⟩ := leftBehind_draining [] (by decide +kernel)
  have hends := runsOut_of_drained hs (h task s hs) (by rw [hfd]; decide)
  rw [hreads] at hends
  exact hends

end Rzh
