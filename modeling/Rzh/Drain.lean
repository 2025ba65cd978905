import Rzh.ChildExit
import Rzh.Routing
import Rzh.ZfinThrough

/-!
# The final drain

What a child that has exited has left in its pipe is read to the end, by two loops that know of one
way out: that the end of the file closes the descriptor.
-/
namespace Rzh

open Circular Sys

/-- The bytes that a descriptor has delivered, in order. -/
def readFrom (fd : Int) (trace : List Call) : List UInt8 :=
  trace.flatMap fun
    | .read fd' bs => if fd' = fd then bs else []
    | _ => []

/-- fifo_read hands a packet over: the proc gets it, or it goes into the ring. -/
inductive HandsOver (buf : List UInt8) (fd : Int) (s : Sys) : Sys → Prop where
  | proc {proc : FifoProc} {s' : Sys} (hproc : (s.fifo .inputMaster).proc = some proc)
    (h : callProc s .inputMaster proc buf fd = .ok s') : HandsOver buf fd s s'
  | plain (hproc : (s.fifo .inputMaster).proc = none) (h : buf ≠ []) :
    HandsOver buf fd s (s.setFifo .inputMaster (fifoUnsafeAppend (s.fifo .inputMaster) buf) s.kernel)
  | nothing (hproc : (s.fifo .inputMaster).proc = none) (h : buf = []) : HandsOver buf fd s s

/-- The kernel behind the read() of fifo_read. -/
def readKernel (s : Sys) (fd : Int) : Kernel :=
  (s.kernel.read fd (min (fifoAvail (s.fifo .inputMaster)) bufsiz)).2

/-- Passes of the inner loop, with the packets that the filter is given. -/
inductive DrainRun (r : AtomRef) : Sys → List (List UInt8) → Sys → Prop where
  | done (s : Sys) : DrainRun r s [] s
  | pass {packets : List (List UInt8)} {s s₁ s' s'' : Sys} (hopen : (s.atoms r).fd ≠ -1)
    (hands : HandsOver (arriving s .inputMaster (s.atoms r).fd) (s.atoms r).fd
      { s with kernel := readKernel s (s.atoms r).fd } s₁)
    (h : pipeIoProc s r [.read] = .ok s') (run : DrainRun r s' packets s'') :
    DrainRun r s (arriving s .inputMaster (s.atoms r).fd :: packets) s''

/-- The filter of the child's output is none, or one of the end scanner's procs with its state. -/
def ChildFilter (s : Sys) : Prop :=
  (s.fifo .inputMaster).proc = none ∨
    (s.fifo .inputMaster).proc ≠ some .echoScannerFilterProc ∧
      ∃ addr, (s.fifo .inputMaster).refcon = .zfin addr ∧ ∀ ref ∈ (s.zfins addr).ref, ref < zfinLength

/-- The topmost task, whose child's output goes through the pipe to the master. -/
structure Draining (task : TaskState) (s : Sys) : Prop where
  wf : s.WF
  top : ∃ below, s.tasks = task :: below
  reader : (s.atoms (.read task.addr)).readPipe = .pipe .inputMaster
  number : -1 ≤ (s.atoms (.read task.addr)).fd
  filter : ChildFilter s

/-- All that comes before the end of the file has been handed over when the descriptor is closed. -/
structure DrainedTo (r : AtomRef) (s : Sys) (packets : List (List UInt8)) (s' : Sys) : Prop where
  run : DrainRun r s packets s'
  closed : (s'.atoms r).fd = -1
  bytes : readFrom (s.atoms r).fd s'.kernel.trace = readFrom (s.atoms r).fd s.kernel.trace ++ packets.flatten
  ended : (s.atoms r).fd ≠ -1 →
    ∃ before, s.kernel.reads = before ++ .eof :: s'.kernel.reads ∧ ReadRes.eof ∉ before

/-- The loops of task_default_sigchild come to an end for the topmost task, with its output read and
handed over. -/
def Drained (task : TaskState) (s : Sys) : Prop :=
  ∃ n s' packets s₁, masterPipeFindTask n s task.spec = pure (some task) ∧
    drainReader n s (.read task.addr) = pure s' ∧ DrainedTo (.read task.addr) s packets s₁ ∧
    if (s.atoms (.read task.addr)).fd = -1 then s' = s else finalWrite s₁ = .ok s'

section Filter

variable {s s' : Sys} {addr : Nat} {buf : List UInt8} {fd : Int}

/-- What a filter that has taken a packet leaves. Nothing is read. -/
structure Took (s s' : Sys) : Prop where
  filtered : Filtered .inputMaster s s'
  avail : fifoAvail (s'.fifo .inputMaster) ≤ fifoAvail (s.fifo .inputMaster)
  reads : s'.kernel.reads = s.kernel.reads
  quiet : ∀ fd, readFrom fd s'.kernel.trace = readFrom fd s.kernel.trace
  filter : ChildFilter s'

/-- The filter is one of the end scanner's procs, with its state inside the pattern. -/
structure EndFilter (addr : Nat) (s : Sys) : Prop where
  proc : (s.fifo .inputMaster).proc ≠ some .echoScannerFilterProc
  refcon : (s.fifo .inputMaster).refcon = .zfin addr
  inside : ∀ ref ∈ (s.zfins addr).ref, ref < zfinLength

theorem EndFilter.childFilter (h : EndFilter addr s) : ChildFilter s := .inr ⟨h.proc, addr, h.refcon, h.inside⟩

theorem EndFilter.setZfin {state : ZfinScanState} (h : EndFilter addr s)
    (hinside : ∀ ref ∈ state.ref, ref < zfinLength) : EndFilter addr (setZfin s addr state) where
  proc := h.proc
  refcon := h.refcon
  inside := by
    intro ref href
    simp only [Rzh.setZfin, Function.update_self] at href
    exact hinside ref href

theorem EndFilter.setProc {proc : FifoProc} (h : EndFilter addr s) (hproc : proc ≠ .echoScannerFilterProc) :
    EndFilter addr (setProc s .inputMaster (some proc) (s.fifo .inputMaster).refcon) where
  proc := by
    rw [Rzh.setProc, fifo_setFifo]
    exact fun he => hproc (Option.some.inj he)
  refcon := by
    rw [Rzh.setProc, fifo_setFifo]
    exact h.refcon
  inside := h.inside

theorem Took.refl (h : ChildFilter s) : Took s s where
  filtered := .refl _ s
  avail := Nat.le_refl _
  reads := rfl
  quiet _ := rfl
  filter := h

theorem Took.trans {s'' : Sys} (h : Took s s') (h' : Took s' s'') : Took s s'' where
  filtered := h.filtered.trans h'.filtered
  avail := Nat.le_trans h'.avail h.avail
  reads := h'.reads.trans h.reads
  quiet fd := (h'.quiet fd).trans (h.quiet fd)
  filter := h'.filter

theorem setZfin_took {state : ZfinScanState} (h : EndFilter addr s)
    (hinside : ∀ ref ∈ state.ref, ref < zfinLength) : Took s (setZfin s addr state) where
  filtered := .setZfin s addr state
  avail := Nat.le_refl _
  reads := rfl
  quiet _ := rfl
  filter := (h.setZfin hinside).childFilter

theorem setProc_took {proc : FifoProc} (h : EndFilter addr s) (hproc : proc ≠ .echoScannerFilterProc) :
    Took s (setProc s .inputMaster (some proc) (s.fifo .inputMaster).refcon) where
  filtered := .setProc s (some proc) _
  avail := by
    rw [setProc, fifo_setFifo]
    exact Nat.le_refl _
  reads := rfl
  quiet _ := rfl
  filter := (h.setProc hproc).childFilter

theorem zfinSave_took (h : EndFilter addr s) (buf : List UInt8) :
    ∃ s', zfinSave s .inputMaster buf = .ok s' ∧ Took s s' := by
  rw [zfinSave]
  split
  · exact ⟨s, rfl, .refl h.childFilter⟩
  · rw [zfinState, h.refcon]
    exact ⟨_, rfl, setZfin_took h h.inside⟩

theorem zfinNooo_took (h : EndFilter addr s) (buf : List UInt8) :
    ∃ s', zfinNooo s .inputMaster buf = .ok s' ∧ Took s s' := by
  rw [zfinNooo]
  split
  · exact ⟨s, rfl, .refl h.childFilter⟩
  · rw [zfinState, h.refcon]
    let state : ZfinScanState := { s.zfins addr with oocount := (noooLoop (s.zfins addr).oocount buf).1 }
    have hinside : ∀ ref ∈ state.ref, ref < zfinLength := h.inside
    have h₁ := h.setZfin hinside
    have htook := setZfin_took h hinside
    by_cases hrest : (noooLoop (s.zfins addr).oocount buf).2 = []
    · refine ⟨setZfin s addr state, ?_, htook⟩
      show (if _ = [] then _ else _) = _
      rw [if_pos hrest]
    · have hne : FifoProc.zfinSave ≠ .echoScannerFilterProc := by decide
      obtain ⟨s', hs', hsave⟩ := zfinSave_took (h₁.setProc hne) (noooLoop (s.zfins addr).oocount buf).2
      refine ⟨s', ?_, htook.trans ((setProc_took h₁ hne).trans hsave)⟩
      show (if _ = [] then _ else _) = _
      rw [if_neg hrest]
      exact hs'

/-- The child of the transfer is told to go, once more. -/
theorem zfinTerm_took (htop : s.tasks ≠ []) (h : EndFilter addr s) :
    ∃ s', zfinTerm s .inputMaster = .ok s' ∧ Took s s' := by
  have hkill : ∃ s₁, taskTerminate s = .ok s₁ ∧ Took s s₁ ∧ EndFilter addr s₁ := by
    rw [taskTerminate]
    split
    · next hnil => exact absurd hnil htop
    · split
      · refine ⟨_, rfl, ⟨(Filtered.refl _ s).kernel _, Nat.le_refl _, rfl, ?_, h.childFilter⟩,
          h.proc, h.refcon, h.inside⟩
        intro fd
        simp [Kernel.log, readFrom]
      · exact ⟨s, rfl, .refl h.childFilter, h⟩
  obtain ⟨s₁, hs₁, htook, h₁⟩ := hkill
  refine ⟨_, ?_, htook.trans (setProc_took h₁ (show FifoProc.zfinDrop ≠ .echoScannerFilterProc by decide))⟩
  rw [zfinTerm, zfinState, h.refcon]
  show (taskTerminate s >>= _) = _
  rw [hs₁]
  rfl

/-- What the scan leaves is a filter again. -/
theorem zfinScanCall_endFilter {f : Fifo} {state : ZfinScanState} {rest : Option (List UInt8)} (h : EndFilter addr s)
    (hcall : zfinScanCall (s.fifo .inputMaster) (s.zfins addr) buf = .ok (f, state, rest)) :
    EndFilter addr ((setZfin s addr state).setFifo .inputMaster f s.kernel) := by
  obtain ⟨-, -, hrefcon, hsame, hfound⟩ := zfinScanCall_leaves hcall
  have hfifo : ((setZfin s addr state).setFifo .inputMaster f s.kernel).fifo .inputMaster = f :=
    fifo_setFifo _ _ _ _
  constructor
  · rw [hfifo]
    cases rest with
    | none =>
      rw [hsame rfl]
      exact h.proc
    | some rest =>
      rw [hfound (Option.some_ne_none rest)]
      cases (s.zfins addr).found <;> simp [ZfinFound.proc]
  · rw [hfifo, hrefcon, h.refcon]
  · simp only [setZfin, Sys.setFifo, setPipe, Function.update_self]
    exact ref_inside h.inside hcall

theorem zfinScanProc_took (htop : s.tasks ≠ []) (h : EndFilter addr s)
    (hfit : buf.length ≤ fifoAvail (s.fifo .inputMaster)) :
    ∃ s', zfinScanProc s .inputMaster buf = .ok s' ∧ Took s s' := by
  have hrefcon := h.refcon
  obtain ⟨f, state, rest, hcall, hpassed⟩ := zfinScanCall_passed h.inside hfit
  let s₁ := (setZfin s addr state).setFifo .inputMaster f s.kernel
  have hfifo : s₁.fifo .inputMaster = f := fifo_setFifo _ _ _ _
  have hend : EndFilter addr s₁ := zfinScanCall_endFilter h hcall
  have htook : Took s s₁ := by
    have hlength := congrArg List.length hpassed.contents
    rw [List.length_append, Buffer.toList_length, Buffer.toList_length] at hlength
    have hold := (s.fifo .inputMaster).count_add_avail
    have hnew := f.count_add_avail
    have hsize := zfinScanCall_size hcall
    refine ⟨(Filtered.setZfin s addr state).trans (.setFifo (setZfin s addr state) s.kernel hsize), ?_, rfl,
      fun _ => rfl, hend.childFilter⟩
    rw [hfifo, fifoAvail_eq, fifoAvail_eq]
    omega
  have htop₁ : s₁.tasks ≠ [] := htop
  cases rest with
  | none =>
    refine ⟨s₁, ?_, htook⟩
    simp only [zfinScanProc, zfinState, hrefcon, bind, Except.bind, hcall]
    rfl
  | some rest =>
    cases hf : state.found with
    | zfinNooo =>
      obtain ⟨s', hs', hnooo⟩ := zfinNooo_took hend rest
      refine ⟨s', ?_, htook.trans hnooo⟩
      simp only [zfinScanProc, zfinState, hrefcon, bind, Except.bind, hcall, hf]
      exact hs'
    | zfinTerm =>
      obtain ⟨s', hs', hterm⟩ := zfinTerm_took htop₁ hend
      refine ⟨s', ?_, htook.trans hterm⟩
      simp only [zfinScanProc, zfinState, hrefcon, bind, Except.bind, hcall, hf]
      exact hs'

/-- A filter takes every packet that there is room for. -/
theorem handsOver_took (htop : s.tasks ≠ []) (h : ChildFilter s)
    (hfit : buf.length ≤ fifoAvail (s.fifo .inputMaster)) (fd : Int) :
    ∃ s', HandsOver buf fd s s' ∧ Took s s' := by
  cases hproc : (s.fifo .inputMaster).proc with
  | none =>
    by_cases hbuf : buf = []
    · exact ⟨s, .nothing hproc hbuf, .refl h⟩
    · have havail := fifoUnsafeAppend_avail (s.fifo .inputMaster) buf hfit
      refine ⟨_, .plain hproc hbuf, .setFifo s s.kernel rfl, ?_, rfl, fun _ => rfl, .inl ?_⟩
      · rw [fifo_setFifo, fifoAvail_eq, fifoAvail_eq]
        omega
      · rw [fifo_setFifo, fifoUnsafeAppend_proc, hproc]
  | some proc =>
    obtain hnone | ⟨hne, addr, hrefcon, href⟩ := h
    · rw [hproc] at hnone
      cases hnone
    · have hend : EndFilter addr s := ⟨hne, hrefcon, href⟩
      have hcall : ∃ s', callProc s .inputMaster proc buf fd = .ok s' ∧ Took s s' := by
        cases proc with
        | echoScannerFilterProc => exact absurd hproc hne
        | zfinScan => exact zfinScanProc_took htop hend hfit
        | zfinNooo => exact zfinNooo_took hend buf
        | zfinSave => exact zfinSave_took hend buf
        | zfinTerm => exact zfinTerm_took htop hend
        | zfinDrop => exact ⟨s, rfl, .refl hend.childFilter⟩
      obtain ⟨s', hs', htook⟩ := hcall
      exact ⟨s', .proc hproc hs', htook⟩

/-- fifo_read tells the end of the file from everything else. -/
theorem fifoRead_hands (htop : s.tasks ≠ []) (h : ChildFilter s) (fd : Int) :
    ∃ cnt s₁, HandsOver (arriving s .inputMaster fd) fd { s with kernel := readKernel s fd } s₁ ∧
      Took { s with kernel := readKernel s fd } s₁ ∧ fifoRead s .inputMaster fd = .ok (cnt, s₁) ∧
      (cnt = -2 ↔ (s.kernel.read fd (min (fifoAvail (s.fifo .inputMaster)) bufsiz)).1 = some []) := by
  obtain ⟨s₁, hhands, htook⟩ := handsOver_took (s := { s with kernel := readKernel s fd }) htop h
    (arriving_length s .inputMaster fd) fd
  have havail : fifoAvail (s₁.fifo .inputMaster) ≤ fifoAvail (s.fifo .inputMaster) := htook.avail
  have hcount : ∀ r : Option (List UInt8), readCount r = -2 ↔ r = some [] := by
    intro r
    obtain _ | ⟨_ | ⟨b, bs⟩⟩ := r
    · simp [readCount]
    · simp [readCount]
    · simp [readCount]
      omega
  have hread : fifoRead s .inputMaster fd = .ok
      (if 0 < readCount (s.kernel.read fd (min (fifoAvail (s.fifo .inputMaster)) bufsiz)).1 ∧
          (s.fifo .inputMaster).proc ≠ none then
        (fifoAvail (s.fifo .inputMaster) : Int) - fifoAvail (s₁.fifo .inputMaster)
      else readCount (s.kernel.read fd (min (fifoAvail (s.fifo .inputMaster)) bufsiz)).1, s₁) := by
    rw [arriving, readKernel] at hhands
    rw [fifoRead]
    generalize s.kernel.read fd (min (fifoAvail (s.fifo .inputMaster)) bufsiz) = res at hhands ⊢
    obtain ⟨r, k⟩ := res
    cases hhands with
    | proc hproc hcall =>
      have hproc' : (s.fifo .inputMaster).proc = some _ := hproc
      simp only [hproc, hproc', hcall, bind, Except.bind, ne_eq, reduceCtorEq, not_false_eq_true, and_true]
      split
      · rfl
      · rfl
    | plain hproc hbuf =>
      have hproc' : (s.fifo .inputMaster).proc = none := hproc
      have hpos : 0 < readCount r := by
        obtain _ | ⟨_ | ⟨b, bs⟩⟩ := r
        · exact absurd rfl hbuf
        · exact absurd rfl hbuf
        · simp only [readCount, List.length_cons]
          omega
      simp only [hproc, hproc', ne_eq, not_true_eq_false, and_false, if_false, if_pos hpos]
    | nothing hproc hbuf =>
      have hproc' : (s.fifo .inputMaster).proc = none := hproc
      have hneg : ¬ 0 < readCount r := by
        obtain _ | ⟨_ | ⟨b, bs⟩⟩ := r
        · decide
        · decide
        · cases hbuf
      simp only [hproc, hproc', ne_eq, not_true_eq_false, and_false, if_false, if_neg hneg]
  refine ⟨_, s₁, hhands, htook, hread, ?_⟩
  split
  · next hpos =>
    constructor
    · omega
    · intro heof
      rw [heof] at hpos
      exact absurd hpos.1 (by decide)
  · exact hcount _

end Filter

section Outcomes

variable {k k' : Kernel} {fd : Int} {cnt : Nat}

@[simp] theorem readFrom_append (fd : Int) (t t' : List Call) :
    readFrom fd (t ++ t') = readFrom fd t ++ readFrom fd t' := by simp [readFrom]

theorem Sent.readFrom {fd' : Int} {bytes : List UInt8} (h : Sent fd' bytes k k') (fd : Int) :
    Rzh.readFrom fd k'.trace = Rzh.readFrom fd k.trace := by
  obtain ⟨chunks, -, ht⟩ := h.trace
  rw [ht, readFrom_append]
  have hnone : Rzh.readFrom fd (chunks.map (Call.write fd')) = [] := by
    simp [Rzh.readFrom]
  rw [hnone, List.append_nil]

/-- Some outcomes are used up, and the end of the file is the last of them or is not among them. -/
theorem retryRead_rest (rs : List ReadRes) : ∃ used, ReadRes.eof ∉ used ∧
    ((retryRead rs).1 = .eof ∧ rs = used ++ .eof :: (retryRead rs).2 ∨
      (retryRead rs).1 ≠ .eof ∧ rs = used ++ (retryRead rs).2 ∧ (rs ≠ [] → used ≠ [])) := by
  induction rs with
  | nil => exact ⟨[], List.not_mem_nil, .inr ⟨by simp [retryRead], rfl, fun h => absurd rfl h⟩⟩
  | cons r rs ih =>
    by_cases hint : r = .fail .eintr
    · subst hint
      obtain ⟨used, hnone, ⟨heof, hrs⟩ | ⟨hne, hrs, -⟩⟩ := ih
      · exact ⟨.fail .eintr :: used, by simp [hnone], .inl ⟨heof, congrArg (.fail .eintr :: ·) hrs⟩⟩
      · exact ⟨.fail .eintr :: used, by simp [hnone], .inr ⟨hne, congrArg (.fail .eintr :: ·) hrs, by simp⟩⟩
    · have hfirst : retryRead (r :: rs) = (r, rs) := by
        rw [retryRead]
        exact hint
      rw [hfirst]
      by_cases heof : r = .eof
      · exact ⟨[], List.not_mem_nil, .inl ⟨heof, by rw [heof, List.nil_append]⟩⟩
      · exact ⟨[r], by simpa using Ne.symm heof, .inr ⟨heof, rfl, by simp⟩⟩

/-- A read of at least one byte comes back with none at the end of the file only. -/
theorem Kernel.read_outcome (k : Kernel) (hfd : 0 ≤ fd) (hcnt : 0 < cnt) :
    (k.read fd cnt).2.reads = (retryRead k.reads).2 ∧
      ((k.read fd cnt).1 = some [] ↔ (retryRead k.reads).1 = .eof) ∧
      Rzh.readFrom fd (k.read fd cnt).2.trace = Rzh.readFrom fd k.trace ++ (k.read fd cnt).1.getD [] := by
  have hneg : ¬ fd < 0 := by omega
  obtain ⟨n, rfl⟩ : ∃ n, cnt = n + 1 := ⟨cnt - 1, by omega⟩
  rw [Kernel.read, if_neg hneg]
  generalize retryRead k.reads = res
  obtain ⟨r, rs⟩ := res
  cases r with
  | data b bs => simp [Kernel.log, Rzh.readFrom]
  | eof => simp [Kernel.log, Rzh.readFrom]
  | fail e => simp

end Outcomes

section Passes

variable {task : TaskState} {s s' : Sys} {w : AtomRef}

/-- What the second half of a pass leaves alone. -/
structure Flowed (w : AtomRef) (s s' : Sys) : Prop where
  zfins : s'.zfins = s.zfins
  proc : (s'.fifo .inputMaster).proc = (s.fifo .inputMaster).proc
  refcon : (s'.fifo .inputMaster).refcon = (s.fifo .inputMaster).refcon
  reads : s'.kernel.reads = s.kernel.reads
  quiet : ∀ fd, readFrom fd s'.kernel.trace = readFrom fd s.kernel.trace
  atoms : ∀ a, a ≠ w → s'.atoms a = s.atoms a

theorem Flushed.flowed {cnt : Int} {sent : List UInt8} (h : Flushed .inputMaster w cnt sent s s') : Flowed w s s' := by
  obtain ⟨k, hwrote, hk⟩ := h.wrote
  have hkernel : s'.kernel.reads = k.reads ∧ ∀ fd, readFrom fd s'.kernel.trace = readFrom fd k.trace := by
    obtain hk | hk := hk
    · rw [hk]
      exact ⟨rfl, fun _ => rfl⟩
    · rw [hk]
      refine ⟨rfl, fun fd => ?_⟩
      simp [Kernel.close, Kernel.log, readFrom]
  refine ⟨h.zfins, hwrote.proc, hwrote.refcon, hkernel.1.trans hwrote.sent.reads, ?_, ?_⟩
  · intro fd
    rw [hkernel.2 fd, hwrote.sent.readFrom fd]
  · intro a ha
    cases h.atoms with
    | same h => rw [h.atoms]
    | closed h => rw [h.atoms, closeAtom_atoms, Function.update_of_ne ha]

theorem ReadRest.flowed (h : ReadRest s .inputMaster s') (hw : (s.pipes .inputMaster).writeAtom = some w) :
    Flowed w s s' := by
  cases h with
  | idle => exact ⟨rfl, rfl, rfl, rfl, fun _ => rfl, fun _ _ => rfl⟩
  | sent hw' h =>
    obtain rfl := Option.some.inj (hw.symm.trans hw')
    exact h.flowed
  | left hw' h =>
    obtain rfl := Option.some.inj (hw.symm.trans hw')
    exact ⟨h.flowed.zfins, h.flowed.proc, h.flowed.refcon, h.flowed.reads, h.flowed.quiet,
      h.flowed.atoms⟩
  | full hw' hr h =>
    obtain rfl := Option.some.inj (hw.symm.trans hw')
    refine ⟨h.flowed.zfins, ?_, ?_, h.flowed.reads, h.flowed.quiet, h.flowed.atoms⟩
    · simp only [Sys.fifo, setPipe_same]
      exact h.flowed.proc
    · simp only [Sys.fifo, setPipe_same]
      exact h.flowed.refcon

/-- The reader is closed or not, and nothing else happens between the two halves of a pass. -/
structure Parted (r : AtomRef) (cnt : Int) (s s' : Sys) : Prop where
  pipes : s'.pipes = s.pipes
  zfins : s'.zfins = s.zfins
  shape : s'.shape = s.shape
  reads : s'.kernel.reads = s.kernel.reads
  quiet : ∀ fd, readFrom fd s'.kernel.trace = readFrom fd s.kernel.trace
  reader : s'.atoms r = if cnt = -2 then { s.atoms r with fd := -1 } else s.atoms r

theorem closeAtom_parted (s : Sys) (r : AtomRef) (cnt : Int) :
    Parted r cnt s (if cnt = -2 then closeAtom s r else s) := by
  obtain ⟨hpipes, -, hzfins, hkernel⟩ := closeAtom_rest s r
  by_cases hc : cnt = -2
  · simp only [if_pos hc]
    refine ⟨hpipes, hzfins, shape_closeAtom s r, by rw [hkernel]; rfl, ?_, ?_⟩
    · intro fd
      simp [hkernel, Kernel.close, Kernel.log, readFrom]
    · rw [if_pos hc, closeAtom_atoms, Function.update_self]
  · simp only [if_neg hc]
    exact ⟨rfl, rfl, rfl, rfl, fun _ => rfl, (if_neg hc).symm⟩

/-- What a packet that is taken, the closing and the flow behind it come to. -/
structure Passed (r : AtomRef) (cnt : Int) (s s' : Sys) : Prop where
  tasks : s'.tasks = s.tasks
  reader : s'.atoms r = if cnt = -2 then { s.atoms r with fd := -1 } else s.atoms r
  reads : s'.kernel.reads = s.kernel.reads
  quiet : ∀ fd, readFrom fd s'.kernel.trace = readFrom fd s.kernel.trace
  filter : ChildFilter s'

theorem Took.passed {r w : AtomRef} {cnt : Int} {s₁ s₂ : Sys} (htook : Took s s₁)
    (hparted : Parted r cnt s₁ s₂) (hflowed : Flowed w s₂ s') (hshape : s'.shape = s₂.shape) (hr : r ≠ w) :
    Passed r cnt s s' where
  tasks := by
    have htasks : s'.tasks = s₁.tasks := congrArg Shape.tasks (hshape.trans hparted.shape)
    rw [htasks, htook.filtered.tasks]
  reader := by rw [hflowed.atoms r hr, hparted.reader, htook.filtered.sameAtoms.atoms]
  reads := by rw [hflowed.reads, hparted.reads, htook.reads]
  quiet := by
    intro fd
    rw [hflowed.quiet, hparted.quiet, htook.quiet]
  filter := by
    have hfilter := htook.filter
    rw [ChildFilter, Sys.fifo, ← hparted.pipes, ← hparted.zfins] at hfilter
    rw [ChildFilter, hflowed.proc, hflowed.refcon, hflowed.zfins]
    exact hfilter

/-- What one pass does: a packet is handed over, and at the end of the file the descriptor is closed. -/
structure DrainPass (r : AtomRef) (s s' : Sys) : Prop where
  hands : ∃ s₁, HandsOver (arriving s .inputMaster (s.atoms r).fd) (s.atoms r).fd
    { s with kernel := readKernel s (s.atoms r).fd } s₁ ∧
      ((retryRead s.kernel.reads).1 ≠ .eof → pipeAutoReadRest s₁ .inputMaster = .ok s')
  proc : pipeIoProc s r [.read] = .ok s'
  reads : s'.kernel.reads = (retryRead s.kernel.reads).2
  ended : (retryRead s.kernel.reads).1 = .eof → (s'.atoms r).fd = -1
  stays : (retryRead s.kernel.reads).1 ≠ .eof → (s'.atoms r).fd = (s.atoms r).fd
  bytes : readFrom (s.atoms r).fd s'.kernel.trace =
    readFrom (s.atoms r).fd s.kernel.trace ++ arriving s .inputMaster (s.atoms r).fd

/-- pipe_auto_read, put together from its two halves. -/
theorem pipeAutoRead_halves {r : AtomRef} {cnt : Int} {s₁ : Sys} (hroom : fifoAvail (s.fifo .inputMaster) ≠ 0)
    (hr : (s.pipes .inputMaster).readAtom = some r) (hread : fifoRead s .inputMaster (s.atoms r).fd = .ok (cnt, s₁))
    (hr₁ : (s₁.pipes .inputMaster).readAtom = some r)
    (hrest : pipeAutoReadRest (if cnt = -2 then closeAtom s₁ r else s₁) .inputMaster = .ok s') :
    pipeAutoRead s .inputMaster = .ok s' := by
  have hfifoRead : pipeFifoRead s .inputMaster = .ok (cnt, if cnt = -2 then closeAtom s₁ r else s₁) := by
    rw [pipeFifoRead, Sys.readAtom, hr]
    show (fifoRead s .inputMaster (s.atoms r).fd >>= _) = _
    rw [hread]
    show (if cnt = -2 then (s₁.readAtom .inputMaster >>= fun r => .ok (cnt, closeAtom s₁ r)) else .ok (cnt, s₁)) = _
    rw [Sys.readAtom, hr₁]
    by_cases hc : cnt = -2
    · rw [if_pos hc, if_pos hc]
      rfl
    · rw [if_neg hc, if_neg hc]
  rw [pipeAutoRead, if_neg hroom, hfifoRead]
  exact hrest

/-- With room in the fifo a pass comes back, whatever the outcomes of read() and write(). -/
theorem Draining.pass (h : Draining task s) (hopen : (s.atoms (.read task.addr)).fd ≠ -1)
    (hroom : fifoAvail (s.fifo .inputMaster) ≠ 0) :
    ∃ s', DrainPass (.read task.addr) s s' ∧ Draining task s' := by
  obtain ⟨below, htasks⟩ := h.top
  have htop : s.tasks ≠ [] := by
    rw [htasks]
    exact List.cons_ne_nil task below
  have hr := (h.wf.top task below htasks).1
  have hnumber := h.number
  generalize hrname : AtomRef.read task.addr = r at hopen hnumber hr ⊢
  have hmaster : r ≠ .master := by simp [← hrname]
  have hreader : (s.atoms r).readPipe = .pipe .inputMaster := hrname ▸ h.reader
  obtain ⟨cnt, s₁, hhands, htook, hread, hcnt⟩ := fifoRead_hands htop h.filter (s.atoms r).fd
  have hfd : 0 ≤ (s.atoms r).fd := by omega
  have hasked : 0 < min (fifoAvail (s.fifo .inputMaster)) bufsiz := by
    have hbufsiz := bufsiz_pos
    omega
  obtain ⟨hreads, heof, htrace⟩ := s.kernel.read_outcome hfd hasked
  rw [← hcnt] at heof
  have hends₁ : (s₁.pipes .inputMaster).readAtom = some r ∧ (s₁.pipes .inputMaster).writeAtom = some .master := by
    rw [(htook.filtered.ends .inputMaster).1, (htook.filtered.ends .inputMaster).2]
    exact ⟨hr, h.wf.masterIn⟩
  have hparted := closeAtom_parted s₁ r cnt
  have hends₂ := hends₁
  rw [← hparted.pipes] at hends₂
  obtain ⟨s', hrest⟩ := pipeAutoReadRest_total hends₂.1 hends₂.2
  have hflowed := (pipeAutoReadRest_ok hrest).flowed hends₂.2
  have hpassed := htook.passed hparted hflowed (pipeAutoReadRest_ok hrest).shape hmaster
  have hauto := pipeAutoRead_halves hroom hr hread hends₁.1 hrest
  have hproc : pipeIoProc s r [.read] = .ok s' := by
    rw [pipeIoProc, if_pos (List.mem_singleton_self _), hreader]
    simp only [hauto, bind, Except.bind]
    rw [if_neg (by simp)]
  have hatoms' : s'.atoms r = if cnt = -2 then { s.atoms r with fd := -1 } else s.atoms r := hpassed.reader
  have hfd' : (s'.atoms r).fd = if cnt = -2 then -1 else (s.atoms r).fd := by
    rw [hatoms']
    split <;> rfl
  have hflow : (retryRead s.kernel.reads).1 ≠ .eof → pipeAutoReadRest s₁ .inputMaster = .ok s' := by
    intro hne
    rw [if_neg fun hc => hne (heof.mp hc)] at hrest
    exact hrest
  refine ⟨s', ⟨⟨s₁, hhands, hflow⟩, hproc, hpassed.reads.trans hreads, ?_, ?_, (hpassed.quiet _).trans htrace⟩,
    ⟨pipeAutoRead_wf h.wf hauto, ⟨below, hpassed.tasks.trans htasks⟩, ?_, ?_, hpassed.filter⟩⟩
  · intro he
    rw [hfd', if_pos (heof.mpr he)]
  · intro he
    rw [hfd', if_neg fun hc => he (heof.mp hc)]
  · rw [hrname, hatoms']
    split <;> exact hreader
  · rw [hrname, hfd']
    split
    · exact Int.le_refl _
    · exact hnumber

/-- A pass that comes back has found room. -/
theorem pipeIoProc_room (h : Draining task s) (hs : pipeIoProc s (.read task.addr) [.read] = .ok s') :
    fifoAvail (s.fifo .inputMaster) ≠ 0 := by
  intro hfull
  have hauto : pipeAutoRead s .inputMaster = .error (.abort, s) := by
    rw [pipeAutoRead, if_pos hfull]
  rw [pipeIoProc, if_pos (List.mem_singleton_self _), h.reader] at hs
  simp only [hauto] at hs
  cases hs

end Passes

section Loops

variable {task : TaskState} {s s' : Sys}

theorem masterPipeFindTask_top (h : ∃ below, s.tasks = task :: below) (n : Nat) :
    masterPipeFindTask (n + 1) s task.spec = pure (some task) := by
  obtain ⟨below, htasks⟩ := h
  rw [masterPipeFindTask]
  simp only [htasks, if_true]

/-- What is queued is written to the master whenever there is one; the reader stays closed. -/
theorem finalWrite_total (hwf : s.WF) (a : AtomRef) :
    ∃ s', finalWrite s = .ok s' ∧ (s'.atoms a).fd = (s.atoms a).fd := by
  rw [finalWrite, Sys.writeAtom, hwf.masterIn]
  simp only [bind, Except.bind]
  split
  · exact ⟨_, rfl, rfl⟩
  · exact ⟨s, rfl, rfl⟩

end Loops

end Rzh
