import Rzh.Program
import Rzh.RawFifo
import Rzh.Restore

/-!
# The transfer counters

A pipe counts the bytes that pipe_fifo_write gets rid of. Bytes also go through a pipe past that
function, and the count is an int.
-/
namespace Rzh

open Circular Sys

/-- What each pipe's data has had accepted, with a move from `s` to `s'` added. -/
def tally (m : Move) (s s' : Sys) (n : PipeRef → Nat) (p : PipeRef) : Nat :=
  n p + if m.pipe = some p then acceptedBytes s'.kernel.trace - acceptedBytes s.kernel.trace else 0

/-- The next write() that is not interrupted is not going to accept anything. -/
def Kernel.TakesNone (k : Kernel) (fd : Int) : Prop :=
  fd < 0 ∨ (retryWrite k.writes).1 = .accept 0 ∨ ∃ e, (retryWrite k.writes).1 = .fail e

/-- None of the texts, written one after the other, goes straight to the descriptor. -/
def NoneTaken (fd : Int) : Stage → List (List UInt8) → Prop
  | _, [] => True
  | g, text :: texts =>
    (g.queued ≠ 0 ∨ g.kernel.TakesNone fd) ∧ NoneTaken fd (g.write fd text) texts

/-- If the packet starts a transfer, nothing is queued then, the text in front of the start sequence
included, and what is left of the packet fits behind the start string. -/
def StartsDry (f : Fifo) (conn : ZScanState) (buf : List UInt8) : Prop :=
  ∀ rest, (zrqScan conn buf).start = some rest →
    fifoCount (runPuts f (zrqScan conn buf).puts) = 0 ∧
      rest.length ≤ fifoAvail (fifoUnsafeAppend (runPuts f (zrqScan conn buf).puts) startString)

/-- All that a move has accepted goes through pipe_fifo_write. -/
def AllCounted (s : Sys) : Move → Prop
  | .event (.autoRead p) => ∀ r addr, (s.pipes p).readAtom = some r →
      (s.fifo p).proc = some .echoScannerFilterProc → (s.fifo p).refcon = .zscan addr →
      arriving s p (s.atoms r).fd ≠ [] →
      StartsDry (s.fifo p) (s.zscans addr) (arriving s p (s.atoms r).fd)
  | .event (.write p buf) => ∀ w, (s.pipes p).writeAtom = some w →
      buf = [] ∨ fifoCount (s.fifo p) ≠ 0 ∨ s.kernel.TakesNone (s.atoms w).fd
  | .event .remove => ∀ task top below, s.tasks = task :: top :: below →
      NoneTaken (s.atoms (.write top.addr)).fd (stage s) (farewell s task.spec)
  | .finalWrite => ∀ w, (s.pipes .inputMaster).writeAtom = some w →
      fifoCount (s.fifo .inputMaster) = 0 ∨ s.kernel.TakesNone (s.atoms w).fd
  | _ => True

/-- A run in which every move meets a condition, with the totals of what each pipe's data has had
accepted. -/
inductive TalliedRun (Ok : (PipeRef → Nat) → Sys → Move → Sys → Prop) (s₀ : Sys) :
    (PipeRef → Nat) → Sys → Prop where
  | start : TalliedRun Ok s₀ (fun _ => 0) s₀
  | next {n : PipeRef → Nat} {s s' : Sys} (run : TalliedRun Ok s₀ n s) (m : Move)
    (hcalled : m.Called s) (h : m.run s = .ok s') (hok : Ok n s m s') :
    TalliedRun Ok s₀ (tally m s s' n) s'

/-- Every move counts all that it has accepted, and no total outgrows an int. -/
def CountsOn (n : PipeRef → Nat) (s : Sys) (m : Move) (s' : Sys) : Prop :=
  AllCounted s m ∧ ∀ p, tally m s s' n p ≤ 0x7fffffff

/-- The pipe of `p` has passed on bytes of which it has counted some. -/
structure Passes (p : PipeRef) (uncounted counted : Nat) (s s' : Sys) : Prop where
  accepted : acceptedBytes s'.kernel.trace = acceptedBytes s.kernel.trace + uncounted + counted
  counter : (s'.pipes p).bytesWritten =
    if counted = 0 then (s.pipes p).bytesWritten else wrapInt ((s.pipes p).bytesWritten + counted)
  other : ∀ q, q ≠ p → (s'.pipes q).bytesWritten = (s.pipes q).bytesWritten

section Accepted

variable {fd : Int} {k k' : Kernel} {bytes : List UInt8}

@[simp] theorem accepted_append (t t' : List Call) : acceptedBytes (t ++ t') = acceptedBytes t + acceptedBytes t' := by
  simp [acceptedBytes]

theorem accepted_log (k : Kernel) {c : Call} (hc : ∀ fd bytes, c ≠ .write fd bytes) :
    acceptedBytes (k.log c).trace = acceptedBytes k.trace := by
  rw [Kernel.log, accepted_append]
  cases c with
  | write fd' bytes => exact absurd rfl (hc fd' bytes)
  | read => rfl
  | close => rfl
  | kill => rfl
  | startProc => rfl

theorem accepted_chunks (fd : Int) (chunks : List (List UInt8)) :
    acceptedBytes (chunks.map (Call.write fd)) = chunks.flatten.length := by
  rw [acceptedBytes, Sent.receivers_chunks, List.length_replicate]

theorem Sent.accepts (h : Sent fd bytes k k') : acceptedBytes k'.trace = acceptedBytes k.trace + bytes.length := by
  obtain ⟨chunks, hb, ht⟩ := h.trace
  rw [ht, accepted_append, accepted_chunks, hb]

theorem accepted_close (k : Kernel) (fd : Int) : acceptedBytes (k.close fd).trace = acceptedBytes k.trace :=
  accepted_log k (by simp)

theorem accepted_read (k : Kernel) (fd : Int) (cnt : Nat) :
    acceptedBytes (k.read fd cnt).2.trace = acceptedBytes k.trace := by
  rw [Kernel.read]
  split
  · rfl
  · split
    · rfl
    · exact accepted_log _ (by simp)
    · exact accepted_log _ (by simp)

/-- A text that is not empty is taken in part unless nothing is going to be taken. -/
theorem write_none_taken (k : Kernel) (fd : Int) {buf : List UInt8} (hbuf : buf ≠ []) :
    ((k.write fd buf).1).getD 0 = 0 ↔ k.TakesNone fd := by
  have hpos := List.length_pos_iff.mpr hbuf
  rw [Kernel.write, Kernel.TakesNone]
  by_cases hfd : fd < 0
  · simp [hfd]
  · rw [if_neg hfd]
    generalize retryWrite k.writes = res
    obtain ⟨r, ws⟩ := res
    cases r with
    | accept n =>
      have hmin : min n buf.length = 0 ↔ n = 0 := by omega
      simp [hfd, hmin]
    | fail e => simp

theorem fifoWriteBlock_takesNone (h : k.TakesNone fd) (f : Fifo) {len : Nat} (hlen : 0 < len) :
    (∃ f' k', fifoWriteBlock f fd len k = (none, f', k')) ∨
      ∃ f' k', fifoWriteBlock f fd len k = (some 0, f', k') := by
  have hne : block f.buf f.beg len ≠ [] := by
    rw [← List.length_pos_iff, block_length]
    exact hlen
  have hnone := (write_none_taken k fd hne).mpr h
  obtain ⟨k', he, -⟩ | ⟨n, k', he, -, -⟩ := k.write_cases fd (block f.buf f.beg len)
  · exact .inl ⟨f, k', fifoWriteBlock_none he⟩
  · rw [he] at hnone
    obtain rfl : n = 0 := hnone
    exact .inr ⟨_, k', fifoWriteBlock_some he⟩

/-- fifo_write gets rid of nothing if there is nothing queued or nothing is going to be taken. -/
theorem fifoWrite_none_taken (f : Fifo) (fd : Int) (k : Kernel) :
    (fifoWrite f fd k).1 ≤ 0 ↔ fifoCount f = 0 ∨ k.TakesNone fd := by
  constructor
  · intro hle
    by_contra hnot
    obtain ⟨hcount, htakes⟩ := not_or.mp hnot
    rw [Kernel.TakesNone, not_or, not_or] at htakes
    obtain ⟨hfd, haccept, hfail⟩ := htakes
    generalize hk : retryWrite k.writes = res at haccept hfail
    obtain ⟨r, ws⟩ := res
    cases r with
    | accept n =>
      cases n with
      | zero => exact haccept rfl
      | succ n =>
        have hpos := fifoWrite_pos (Int.not_lt.mp hfd) hcount hk
        omega
    | fail e => exact hfail ⟨e, rfl⟩
  · rintro (hcount | htakes)
    · obtain ⟨sent, hwrote, hcnt⟩ := fifoWrite_wrote f fd k
      have hcontents := congrArg List.length hwrote.contents
      rw [List.length_append, Buffer.toList_length, Buffer.toList_length] at hcontents
      rw [fifoCount_eq] at hcount
      omega
    · have hneg : (-1 : Int) ≤ 0 := by decide
      have hbeg := f.beg_lt
      rw [fifoWrite]
      split
      · obtain ⟨f', k', he⟩ | ⟨f', k', he⟩ := fifoWriteBlock_takesNone htakes f (show 0 < f.stop - f.beg by omega)
        · rw [he]
          exact hneg
        · rw [he]
          exact Int.le_refl 0
      · split
        · obtain ⟨f', k', he⟩ | ⟨f', k', he⟩ := fifoWriteBlock_takesNone htakes f (show 0 < f.size - f.beg by omega)
          · rw [he]
            exact hneg
          · rw [he]
            simp only
            rw [if_neg (by omega)]
            exact Int.le_refl 0
        · exact Int.le_refl 0

end Accepted

namespace Passes

variable {p : PipeRef} {a b c : Nat} {s s' s'' : Sys}

/-- Where nothing is accepted and no pipe is counted for. -/
theorem still (p : PipeRef) (hk : acceptedBytes s'.kernel.trace = acceptedBytes s.kernel.trace)
    (hbytes : ∀ q, (s'.pipes q).bytesWritten = (s.pipes q).bytesWritten) : Passes p 0 0 s s' :=
  ⟨hk, hbytes p, fun q _ => hbytes q⟩

/-- What is not counted comes first. -/
theorem trans (h : Passes p a 0 s s') (h' : Passes p b c s' s'') : Passes p (a + b) c s s'' where
  accepted := by
    rw [h'.accepted, h.accepted]
    omega
  counter := by
    rw [h'.counter, h.counter]
    rfl
  other q hq := (h'.other q hq).trans (h.other q hq)

theorem trans_still (h : Passes p a b s s') (h' : Passes p 0 0 s' s'') : Passes p a b s s'' where
  accepted := by
    have hk := h'.accepted
    have hk' := h.accepted
    omega
  counter := by
    rw [h'.counter, h.counter]
    rfl
  other q hq := (h'.other q hq).trans (h.other q hq)

theorem of_pipes (p : PipeRef) (hk : acceptedBytes s'.kernel.trace = acceptedBytes s.kernel.trace)
    (hpipes : s'.pipes = s.pipes) : Passes p 0 0 s s' :=
  still p hk fun q => by rw [hpipes]

theorem refl (p : PipeRef) (s : Sys) : Passes p 0 0 s s := of_pipes p rfl rfl

end Passes

section Pipes

variable {p : PipeRef} {r w : AtomRef} {s s' s'' : Sys} {buf : List UInt8} {cnt : Int} {total n : Nat}

theorem closeAtom_passes (p : PipeRef) (s : Sys) (a : AtomRef) : Passes p 0 0 s (closeAtom s a) := by
  obtain ⟨hpipes, -, -, hkernel⟩ := closeAtom_rest s a
  refine .of_pipes p ?_ hpipes
  rw [hkernel, accepted_close]

theorem setFifo_bytes (s : Sys) (p q : PipeRef) (f : Fifo) (k : Kernel) :
    ((s.setFifo p f k).pipes q).bytesWritten = (s.pipes q).bytesWritten := by
  by_cases hq : q = p
  · rw [hq, setFifo_same]
  · rw [setFifo_ne s f k hq]

/-- pipe_fifo_write counts what is accepted. -/
theorem pipeFifoWrite_passes (h : pipeFifoWrite s p = .ok (cnt, s')) : ∃ n, Passes p 0 n s s' := by
  obtain ⟨w, -, h⟩ := Result.bind_ok h
  obtain ⟨sent, hwrote, hcnt⟩ := fifoWrite_wrote (s.fifo p) (s.atoms w).fd s.kernel
  generalize fifoWrite (s.fifo p) (s.atoms w).fd s.kernel = res at h hwrote hcnt
  obtain ⟨c, f, k⟩ := res
  simp only [Except.ok.injEq, Prod.mk.injEq] at h hwrote hcnt
  obtain ⟨rfl, rfl⟩ := h
  have hwritten : Passes p sent.length 0 s (s.setFifo p f k) :=
    ⟨hwrote.sent.accepts, setFifo_bytes s p p f k, fun q _ => setFifo_bytes s p q f k⟩
  by_cases hpos : 0 < c
  · have hlen : (sent.length : Int) = c := by omega
    have hne : sent.length ≠ 0 := by omega
    have hclose : ¬ (c = -1 ∧ k.errno = some .epipe) := by omega
    rw [if_neg hclose, if_pos hpos]
    refine ⟨sent.length, ?_, ?_, ?_⟩
    · rw [Nat.add_zero]
      exact hwrote.sent.accepts
    · rw [setPipe_same, if_neg hne, setFifo_bytes, hlen]
    · intro q hq
      rw [setPipe_ne _ _ hq, setFifo_bytes]
  · have hnil : sent = [] := by
      obtain hc | ⟨-, hc⟩ := hcnt
      · exact List.eq_nil_of_length_eq_zero (by omega)
      · exact hc
    rw [hnil] at hwritten
    rw [if_neg hpos]
    split
    · exact ⟨0, hwritten.trans_still (closeAtom_passes p _ w)⟩
    · exact ⟨0, hwritten⟩

theorem pipeAutoReadRest_passes (h : pipeAutoReadRest s p = .ok s') : ∃ n, Passes p 0 n s s' := by
  rw [pipeAutoReadRest] at h
  split at h
  · cases h
    exact ⟨0, .refl p s⟩
  · obtain ⟨⟨cnt, s₁⟩, hwrite, h⟩ := Result.bind_ok h
    obtain ⟨n, hpasses⟩ := pipeFifoWrite_passes hwrite
    refine ⟨n, hpasses.trans_still ?_⟩
    simp only at h
    split at h
    · cases h
      exact .refl p _
    · obtain ⟨w, -, h⟩ := Result.bind_ok h
      split at h
      · obtain ⟨r, -, h⟩ := Result.bind_ok h
        cases h
        refine .still p rfl fun q => ?_
        by_cases hq : q = p
        · rw [hq, setPipe_same]
          rfl
        · rw [setPipe_ne _ _ hq]
          rfl
      · cases h
        exact .of_pipes p rfl rfl

theorem pipeAutoWrite_passes (h : pipeAutoWrite s p = .ok s') : ∃ n, Passes p 0 n s s' := by
  obtain ⟨⟨cnt, s₁⟩, hwrite, h⟩ := Result.bind_ok h
  obtain ⟨n, hpasses⟩ := pipeFifoWrite_passes hwrite
  refine ⟨n, hpasses.trans_still ?_⟩
  simp only at h
  split at h
  · cases h
  · obtain ⟨s₂, hunblock, h⟩ := Result.bind_ok h
    have h₂ : Passes p 0 0 s₁ s₂ := by
      cases pipeUnblock_ok hunblock with
      | «open» => exact .refl p _
      | dead => exact .refl p _
      | resume =>
        refine .still p rfl fun q => ?_
        by_cases hq : q = p
        · rw [hq, setPipe_same]
        · rw [setPipe_ne _ _ hq]
          rfl
    refine h₂.trans_still ?_
    split at h
    · obtain ⟨w, -, h⟩ := Result.bind_ok h
      cases h
      exact .of_pipes p rfl rfl
    · cases h
      exact .refl p _

/-- pipe_write counts nothing, whatever it gets rid of at once. -/
theorem pipeWrite_passes (hw : (s.pipes p).writeAtom = some w) (h : pipeWrite s p buf = .ok (total, s')) :
    Passes p (immediate s p w buf) 0 s s' := by
  obtain ⟨w', hw', -, hs'⟩ := pipeWrite_ok h
  obtain rfl := Option.some.inj (hw'.symm.trans hw)
  obtain ⟨hn, hsent⟩ := sent_immediate s p w' buf
  have haccepts := hsent.accepts
  rw [List.length_take, Nat.min_eq_left hn] at haccepts
  obtain ⟨-, rfl⟩ | ⟨-, rfl⟩ := hs'
  · exact ⟨haccepts, rfl, fun _ _ => rfl⟩
  · let s₁ := s.setFifo p (fifoUnsafeAppend (s.fifo p) (stored s p w' buf)) (afterImmediate s p w' buf)
    have hbytes : ∀ q, (s₁.pipes q).bytesWritten = (s.pipes q).bytesWritten :=
      fun q => setFifo_bytes s p q _ _
    exact ⟨haccepts, hbytes p, fun q _ => hbytes q⟩

theorem immediate_eq_zero_iff (s : Sys) (p : PipeRef) (w : AtomRef) (buf : List UInt8) :
    immediate s p w buf = 0 ↔
      buf = [] ∨ fifoCount (s.fifo p) ≠ 0 ∨ s.kernel.TakesNone (s.atoms w).fd := by
  by_cases hbuf : buf = []
  · have hle := (sent_immediate s p w buf).1
    rw [hbuf, List.length_nil] at hle
    simp only [hbuf, true_or, iff_true]
    omega
  · rw [immediate]
    split
    · next hcount =>
      rw [write_none_taken _ _ hbuf]
      simp only [hbuf, hcount, ne_eq, not_true_eq_false, false_or]
    · next hcount => simp only [hcount, ne_eq, not_false_eq_true, true_or, or_true]

/-- The texts of a destructor go past the count, too. -/
theorem pipeWrites_passes {texts : List (List UInt8)} (hw : (s.pipes .masterOutput).writeAtom = some w)
    (htexts : ∀ t ∈ texts, t ≠ []) (h : PipeWrites .masterOutput texts s s') :
    ∃ n, Passes .masterOutput n 0 s s' ∧ (n = 0 ↔ NoneTaken (s.atoms w).fd (stage s) texts) := by
  induction h with
  | nil s => exact ⟨0, .refl _ s, iff_of_true rfl trivial⟩
  | @cons text texts total s s₁ s₂ hwrite hs ih =>
    have hpoured := pipeWrite_poured hw hwrite
    obtain ⟨n, hpasses, hiff⟩ := ih (by rw [hpoured.pipe, hw]) fun t ht => htexts t (List.mem_cons_of_mem _ ht)
    rw [hpoured.atoms, (pipeWrite_delivered hw hwrite).2.1] at hiff
    refine ⟨_, (pipeWrite_passes hw hwrite).trans hpasses, ?_⟩
    rw [Nat.add_eq_zero_iff, immediate_eq_zero_iff, hiff, NoneTaken]
    simp only [htexts text List.mem_cons_self, false_or]
    rfl

end Pipes

section Starts

variable {p : PipeRef} {s s' : Sys} {buf : List UInt8} {fd : Int}

theorem Filtered.passes {n : Nat} (h : Filtered p s s')
    (hk : acceptedBytes s'.kernel.trace = acceptedBytes s.kernel.trace + n) : Passes p n 0 s s' := by
  refine ⟨hk, ?_, fun q hq => ?_⟩
  · rw [h.pipe]
    rfl
  · rw [h.other q hq]

theorem Kills.accepts (h : Kills s s') : acceptedBytes s'.kernel.trace = acceptedBytes s.kernel.trace := by
  obtain h | ⟨pid, h⟩ := h
  · rw [h]
  · rw [h, accepted_log _ (by simp)]

theorem Installed.passes {spec : TaskSpec} (h : Installed spec s s') (p : PipeRef) : Passes p 0 0 s s' := by
  refine .still p ?_ fun q => ?_
  · rw [h.rest]
  · cases q with
    | inputMaster => rw [h.inputMaster]
    | masterOutput => rw [h.masterOutput]

theorem forkRzProcess_accepts {x : (Int × Int × Int × Int) × Sys} (h : forkRzProcess s = .ok x) :
    acceptedBytes x.2.kernel.trace = acceptedBytes s.kernel.trace := by
  rw [forkRzProcess] at h
  split at h
  · cases h
  · cases h
  · cases h
    simp only [Sys.close, accepted_close]

theorem rztaskInstall_passes (hwf : s.WF) (p : PipeRef) (h : rztaskInstall s = .ok s') : Passes p 0 0 s s' := by
  obtain ⟨⟨⟨infd, outfd, errfd, childPid⟩, s₁⟩, hfork, h⟩ := Result.bind_ok h
  have haccepts := forkRzProcess_accepts hfork
  obtain ⟨-, -, k, rfl⟩ := forkRzProcess_ok hfork
  let s₂ : Sys := (rzCreateSpec { s with kernel := k } infd outfd errfd childPid).2
  have hs₂ : Filtered p s s₂ := ⟨rfl, Nat.le_add_right _ _, fun _ _ => rfl, rfl, rfl⟩
  exact (hs₂.passes (n := 0) haccepts).trans_still ((taskInstall_ok (hs₂.wf hwf) h).passes p)

/-- What is left of the packet is written past the count as far as it does not fit. -/
theorem zscanRemaining_passes (hproc : (s.fifo p).proc = some .zfinScan)
    (h : zscanRemaining s p buf fd = .ok s') :
    ∃ n, Passes p n 0 s s' ∧ (n = 0 ↔ buf.length ≤ fifoAvail (s.fifo p)) := by
  have hfiltered := zscanRemaining_ok h
  rw [zscanRemaining] at h
  split at h
  · next hnil =>
    cases h
    exact ⟨0, .refl p s, iff_of_true rfl (by rw [hnil]; exact Nat.zero_le _)⟩
  · have hroom : ∃ sent f k, Wrote fd sent (s.fifo p) f s.kernel k ∧
        (sent = [] ↔ buf.length ≤ fifoAvail (s.fifo p)) ∧
        zscanMakeRoom (s.fifo p) fd buf.length s.kernel = .ok (f, k) := by
      obtain ⟨sent, f, k, hw, ⟨he, hfits⟩ | he⟩ := zscanMakeRoom_wrote (s.fifo p) fd buf.length s.kernel
      · by_cases hneed : fifoAvail (s.fifo p) < buf.length
        · refine ⟨sent, f, k, hw, iff_of_false ?_ (by omega), he⟩
          rintro rfl
          have hcontents := congrArg List.length hw.contents
          rw [List.nil_append, Buffer.toList_length, Buffer.toList_length] at hcontents
          have hsum := (s.fifo p).count_add_avail
          have hsum' := f.count_add_avail
          rw [hw.size] at hsum'
          rw [fifoAvail_eq] at hneed hfits
          omega
        · refine ⟨[], s.fifo p, s.kernel, .nothing _ (.refl fd _), iff_of_true rfl (by omega), ?_⟩
          rw [zscanMakeRoom, if_neg hneed]
      · rw [he] at h
        cases h
    obtain ⟨sent, f, k, hw, hiff, he⟩ := hroom
    have hproc' : f.proc = some .zfinScan := by rw [hw.proc, hproc]
    rw [he] at h
    simp only [hproc'] at h
    have hkills := zfinScanProc_kills (s.setFifo p f k) p buf
    rw [h] at hkills
    have haccepts : acceptedBytes s'.kernel.trace = acceptedBytes s.kernel.trace + sent.length :=
      (Kills.accepts hkills).trans hw.sent.accepts
    refine ⟨sent.length, hfiltered.passes haccepts, ?_⟩
    rw [List.length_eq_zero_iff, hiff]

theorem zscanPrepare_accepts {f f' : Fifo} {k k' : Kernel} (h : zscanPrepare f fd k = .ok (f', k')) :
    acceptedBytes k'.trace = acceptedBytes k.trace + fifoCount f ∧
      (fifoCount f = 0 → f' = fifoUnsafeAppend f startString) := by
  rw [zscanPrepare] at h
  constructor
  · obtain ⟨-, f₁, k₁, he, -, hw⟩ | ⟨-, sent, f₁, k₁, he, -⟩ := fifoDrainCompletely_cases f fd k
    · rw [he] at h
      cases h
      rw [hw.sent.accepts, Fifo.contents, Buffer.toList_length]
      rfl
    · rw [he] at h
      cases h
  · intro hcount
    have hdry : fifoDrainCompletely f fd k = .ok (f, k) := by
      rw [fifoDrainCompletely, drainLoop, if_pos (decide_eq_true hcount)]
    rw [hdry] at h
    cases h
    rfl

/-- A start goes past the count unless it is dry. -/
theorem echoScannerFilterProc_passes {addr : Nat} (hwf : s.WF) (hrefcon : (s.fifo p).refcon = .zscan addr)
    (hbuf : buf ≠ []) (h : echoScannerFilterProc s p buf fd = .ok s') :
    ∃ n, Passes p n 0 s s' ∧ (n = 0 ↔ StartsDry (s.fifo p) (s.zscans addr) buf) := by
  rw [echoScannerFilterProc, if_neg hbuf, hrefcon] at h
  simp only [echoScannerCall, if_neg hbuf, zrqScanCall] at h
  rw [StartsDry]
  generalize hpassed : runPuts (s.fifo p) (zrqScan (s.zscans addr) buf).puts = f at h ⊢
  have hsize : f.size = (s.fifo p).size := by
    rw [← hpassed]
    exact runPuts_size _ _
  let s₀ : Sys := { s with zscans := Function.update s.zscans addr (zrqScan (s.zscans addr) buf).conn }
  have hs₀ : Filtered p s s₀ := ⟨rfl, Nat.le_refl _, fun _ _ => rfl, rfl, rfl⟩
  cases hstart : (zrqScan (s.zscans addr) buf).start with
  | none =>
    simp only [hstart] at h
    cases h
    refine ⟨0, (hs₀.trans (.setFifo s₀ s.kernel hsize)).passes rfl, iff_of_true rfl ?_⟩
    intro rest hrest
    cases hrest
  | some rest =>
    simp only [hstart] at h
    cases hprep : zscanPrepare f fd s.kernel with
    | error e =>
      rw [hprep] at h
      cases h
    | ok x =>
      obtain ⟨f', k⟩ := x
      rw [hprep] at h
      obtain ⟨haccepts, hdry⟩ := zscanPrepare_accepts hprep
      have hsize' : f'.size = (s.fifo p).size := (zscanPrepare_size hprep).trans hsize
      obtain ⟨s₁, hinstall, h⟩ := Result.bind_ok h
      let s₂ : Sys := { s₀.setFifo p f' k with kernel := k.log .startProc }
      have hs₂ : Filtered p s s₂ := (hs₀.trans (.setFifo s₀ k hsize')).kernel _
      have hk : acceptedBytes s₂.kernel.trace = acceptedBytes s.kernel.trace + fifoCount f := by
        rw [← haccepts]
        exact accepted_log k (by simp)
      have hwf₂ : s₂.WF := hs₂.wf hwf
      obtain ⟨hring, hfresh⟩ := rztaskInstall_fifo hwf₂ p hinstall
      obtain ⟨n, hpasses, hiff⟩ := zscanRemaining_passes hfresh.1 h
      have havail : fifoAvail (s₁.fifo p) = fifoAvail f' := by
        have hf' : s₂.fifo p = f' := fifo_setFifo s₀ p f' k
        rw [avail_of_ring hring, hf']
      refine ⟨_, ((hs₂.passes hk).trans (rztaskInstall_passes hwf₂ p hinstall)).trans hpasses, ?_⟩
      rw [Nat.add_zero, Nat.add_eq_zero_iff, hiff, havail]
      constructor
      · rintro ⟨hcount, hfits⟩ rest' hrest'
        cases hrest'
        rw [← hdry hcount]
        exact ⟨hcount, hfits⟩
      · intro hstarts
        obtain ⟨hcount, hfits⟩ := hstarts rest rfl
        rw [hdry hcount]
        exact ⟨hcount, hfits⟩

end Starts

section Moves

variable {p : PipeRef} {s s' s₀ : Sys} {m : Move} {n : PipeRef → Nat}

theorem taskInstall_passes {spec : TaskSpec} (hwf : s.WF) (p : PipeRef) (h : taskInstall s spec = .ok s') :
    Passes p 0 0 s s' :=
  (taskInstall_ok hwf h).passes p

/-- The part of a read event that counts nothing. -/
theorem fifoRead_passes {fd cnt : Int} (hwf : s.WF) (h : fifoRead s p fd = .ok (cnt, s')) :
    ∃ a, Passes p a 0 s s' ∧ (a = 0 ↔ ∀ addr, (s.fifo p).proc = some .echoScannerFilterProc →
      (s.fifo p).refcon = .zscan addr → arriving s p fd ≠ [] →
      StartsDry (s.fifo p) (s.zscans addr) (arriving s p fd)) := by
  have hread := accepted_read s.kernel fd (min (fifoAvail (s.fifo p)) bufsiz)
  cases hproc : (s.fifo p).proc with
  | none =>
    rw [fifoRead_noProc hproc] at h
    cases h
    refine ⟨0, .still p hread fun q => setFifo_bytes s p q _ _, iff_of_true rfl ?_⟩
    intro addr hscan
    cases hscan
  | some proc =>
    obtain ⟨k, rfl, hcall⟩ := fifoRead_callProc hproc h
    generalize (s.kernel.read fd (min (fifoAvail (s.fifo p)) bufsiz)).2 = k at hread hcall
    have hk : Passes p 0 0 s { s with kernel := k } := .of_pipes p hread rfl
    by_cases hscan : proc = .echoScannerFilterProc
    · subst hscan
      by_cases harriving : arriving s p fd = []
      · rw [harriving] at hcall ⊢
        cases hcall
        exact ⟨0, hk, iff_of_true rfl fun _ _ _ hne => absurd rfl hne⟩
      · have hrefcon : ∃ addr, (s.fifo p).refcon = .zscan addr := by
          rw [callProc, echoScannerFilterProc, if_neg harriving] at hcall
          split at hcall
          · next addr heq => exact ⟨addr, heq⟩
          · cases hcall
        obtain ⟨addr, hrefcon⟩ := hrefcon
        obtain ⟨a, hpasses, hiff⟩ := echoScannerFilterProc_passes (s := { s with kernel := k })
          (hwf.of_shape rfl hwf.held) hrefcon harriving hcall
        refine ⟨_, hk.trans hpasses, ?_⟩
        rw [Nat.zero_add, hiff]
        constructor
        · intro hdry addr' _ haddr' _
          rw [hrefcon] at haddr'
          cases haddr'
          exact hdry
        · exact fun hall => hall addr rfl hrefcon harriving
    · have hkills := callProc_kills hscan { s with kernel := k } p (arriving s p fd) fd
      rw [hcall] at hkills
      have hfiltered : Filtered p { s with kernel := k } s' := by
        cases callProc_ok (s := { s with kernel := k }) hproc hcall with
        | filtered hf => exact hf
        | started hstart =>
          obtain ⟨-, hscanner, -⟩ := hstart
          exact absurd (Option.some.inj (hproc.symm.trans hscanner)) hscan
      refine ⟨0, hk.trans (hfiltered.passes (n := 0) (Kills.accepts hkills)), iff_of_true rfl ?_⟩
      exact fun _ hscanner => absurd (Option.some.inj hscanner) hscan

theorem pipeAutoRead_passes (hwf : s.WF) (h : pipeAutoRead s p = .ok s') :
    ∃ a b, Passes p a b s s' ∧ (a = 0 ↔ AllCounted s (.event (.autoRead p))) := by
  obtain ⟨cnt, r, s₁, s₂, hr, -, hfifo, hs₂, h⟩ := pipeAutoRead_steps h
  obtain ⟨a, hpasses, hiff⟩ := fifoRead_passes hwf hfifo
  obtain ⟨b, hrest⟩ := pipeAutoReadRest_passes h
  have hclose : Passes p 0 0 s₁ s₂ := by
    obtain rfl | ⟨r', -, rfl⟩ := hs₂
    · exact .refl p _
    · exact closeAtom_passes p s₁ r'
  refine ⟨a, b, (hpasses.trans_still hclose).trans hrest, hiff.trans ?_⟩
  constructor
  · intro hall r' addr hr'
    obtain rfl := Option.some.inj (hr'.symm.trans hr)
    exact hall addr
  · exact fun hall addr => hall r addr hr

theorem Unstacked.passes {top : TaskState} {below : List TaskState} (h : Unstacked top below s s')
    (p : PipeRef) : Passes p 0 0 s s' := by
  refine .still p ?_ fun q => ?_
  · rw [h.rest]
  · cases q with
    | inputMaster => rw [h.inputMaster]
    | masterOutput => rw [h.masterOutput]

theorem closes_accepts (k : Kernel) (fds : List Int) :
    acceptedBytes (k.closes fds).trace = acceptedBytes k.trace := by
  induction fds generalizing k with
  | nil => rfl
  | cons fd fds ih =>
    rw [Kernel.closes, List.foldl_cons]
    exact (ih (k.close fd)).trans (accepted_close k fd)

theorem Unstacked.stage {top : TaskState} {below : List TaskState} (h : Unstacked top below s s') :
    Rzh.stage s' = Rzh.stage s := by
  have hkernel : s'.kernel = s.kernel := by rw [h.rest]
  rw [Rzh.stage, Rzh.stage, Sys.fifo, Sys.fifo, h.masterOutput, hkernel]
  rfl

theorem taskRemove_passes (hwf : s.WF) (h : taskRemove s = .ok s') :
    ∃ a, Passes .masterOutput a 0 s s' ∧ (a = 0 ↔ AllCounted s (.event .remove)) := by
  obtain ⟨task, top, below, s₁, s₂, htasks, hun, hwrites, rfl⟩ := taskRemove_ok hwf h
  have hw : (s₁.pipes .masterOutput).writeAtom = some (.write top.addr) := by rw [hun.masterOutput]
  obtain ⟨a, hpasses, hiff⟩ := pipeWrites_passes hw (farewell_ne_nil s task.spec) hwrites
  have hcloses : Passes .masterOutput 0 0 s₂ { s₂ with kernel := s₂.kernel.closes task.spec.closed } :=
    .of_pipes _ (closes_accepts _ _) rfl
  rw [hun.stage, hun.fd _ (.write List.mem_cons_self)] at hiff
  refine ⟨_, ((hun.passes _).trans hpasses).trans_still hcloses, ?_⟩
  rw [Nat.zero_add, hiff]
  constructor
  · intro hnone task' top' below' htasks'
    rw [htasks] at htasks'
    obtain ⟨rfl, htail⟩ := List.cons.inj htasks'
    obtain ⟨rfl, rfl⟩ := List.cons.inj htail
    exact hnone
  · exact fun hall => hall task top below htasks

theorem kills_accepts (k : Kernel) (pids : List Int) :
    acceptedBytes (k.kills pids).trace = acceptedBytes k.trace := by
  induction pids generalizing k with
  | nil => rfl
  | cons pid pids ih =>
    rw [Kernel.kills, List.foldl_cons]
    exact (ih (k.log (.kill pid))).trans (accepted_log k (by simp))

theorem finalWrite_passes (h : finalWrite s = .ok s') :
    ∃ a, Passes .inputMaster a 0 s s' ∧ (a = 0 ↔ AllCounted s .finalWrite) := by
  obtain ⟨w, hw, h⟩ := finalWrite_ok h
  have hall : AllCounted s .finalWrite ↔
      (fifoCount (s.fifo .inputMaster) = 0 ∨ s.kernel.TakesNone (s.atoms w).fd) := by
    constructor
    · exact fun hall => hall w hw
    · intro hnone w' hw'
      obtain rfl := Option.some.inj (hw'.symm.trans hw)
      exact hnone
  obtain ⟨rfl, hneg⟩ | rfl := h
  · exact ⟨0, .refl _ _, iff_of_true rfl (hall.mpr (.inr (.inl hneg)))⟩
  · obtain ⟨sent, hwrote, hcnt⟩ := fifoWrite_wrote (s.fifo .inputMaster) (s.atoms w).fd s.kernel
    refine ⟨sent.length, ⟨hwrote.sent.accepts, setFifo_bytes s _ _ _ _,
      fun q _ => setFifo_bytes s _ q _ _⟩, ?_⟩
    rw [hall, ← fifoWrite_none_taken, List.length_eq_zero_iff]
    constructor
    · rintro rfl
      simp only [List.length_nil] at hcnt
      omega
    · intro hle
      obtain hlen | ⟨-, hnil⟩ := hcnt
      · exact List.eq_nil_of_length_eq_zero (by omega)
      · exact hnil

/-- What a move has accepted, and what of it is counted. -/
theorem move_passes (hwf : s.WF) (h : m.run s = .ok s') :
    ∃ a b, Passes (m.pipe.getD .inputMaster) a b s s' ∧ (a = 0 ↔ AllCounted s m) ∧
      (m.pipe = none → a = 0 ∧ b = 0) := by
  have hstill : Passes .inputMaster 0 0 s s' → m.pipe = none → AllCounted s m →
      ∃ a b, Passes (m.pipe.getD .inputMaster) a b s s' ∧ (a = 0 ↔ AllCounted s m) ∧
        (m.pipe = none → a = 0 ∧ b = 0) := by
    intro hpasses hpipe hall
    rw [hpipe]
    exact ⟨0, 0, hpasses, iff_of_true rfl hall, fun _ => ⟨rfl, rfl⟩⟩
  cases m with
  | event e =>
    cases e with
    | echoScanner =>
      have hfiltered := echoScannerCreateSpec_filtered s .inputMaster
      exact hstill ((hfiltered.passes (n := 0) rfl).trans_still
        (taskInstall_passes (hfiltered.wf hwf) _ h)) rfl trivial
    | autoRead p =>
      obtain ⟨a, b, hpasses, hiff⟩ := pipeAutoRead_passes hwf h
      exact ⟨a, b, hpasses, hiff, fun hpipe => by cases hpipe⟩
    | autoWrite p =>
      obtain ⟨b, hpasses⟩ := pipeAutoWrite_passes h
      exact ⟨0, b, hpasses, iff_of_true rfl trivial, fun hpipe => by cases hpipe⟩
    | write p buf =>
      obtain ⟨⟨total, s₁⟩, hwrite, h⟩ := Result.bind_ok h
      cases h
      obtain ⟨w, hw, -⟩ := pipeWrite_ok hwrite
      refine ⟨_, 0, pipeWrite_passes hw hwrite, ?_, fun hpipe => by cases hpipe⟩
      rw [immediate_eq_zero_iff]
      constructor
      · intro hnone w' hw'
        obtain rfl := Option.some.inj (hw'.symm.trans hw)
        exact hnone
      · exact fun hall => hall w hw
    | install spec => exact hstill (taskInstall_passes hwf _ h) rfl trivial
    | remove =>
      obtain ⟨a, hpasses, hiff⟩ := taskRemove_passes hwf h
      exact ⟨a, 0, hpasses, hiff, fun hpipe => by cases hpipe⟩
  | finalWrite =>
    obtain ⟨a, hpasses, hiff⟩ := finalWrite_passes h
    exact ⟨a, 0, hpasses, hiff, fun hpipe => by cases hpipe⟩
  | typing a =>
    obtain ⟨pids, rfl⟩ := typingIoProc_ok h
    exact hstill (.of_pipes _ ((kills_accepts _ pids).trans (accepted_read _ _ _)) rfl) rfl trivial
  | cherr a =>
    obtain ⟨-, hrest⟩ := cherrProc_ok h
    refine hstill (.of_pipes _ ?_ ?_) rfl trivial
    · rw [hrest]
      exact accepted_read _ _ _
    · rw [hrest]

end Moves

section Runs

variable {p : PipeRef} {s s' s₀ : Sys} {m : Move} {n : PipeRef → Nat}

theorem wrapInt_lt (a : Int) : wrapInt a < 0x80000000 := by
  have h : Int.bmod a 0x100000000 < (0x100000000 + 1) / 2 := Int.bmod_lt (by decide)
  rw [wrapInt]
  omega

/-- A move adds what it has accepted to the total of its pipe. -/
theorem tally_step (hwf : s.WF) (h : m.run s = .ok s') :
    ∃ a b, Passes (m.pipe.getD .inputMaster) a b s s' ∧ (a = 0 ↔ AllCounted s m) ∧
      ∀ p, tally m s s' n p = n p + if p = m.pipe.getD .inputMaster then a + b else 0 := by
  obtain ⟨a, b, hpasses, hall, hnone⟩ := move_passes hwf h
  refine ⟨a, b, hpasses, hall, fun p => ?_⟩
  have hk := hpasses.accepted
  rw [tally]
  cases hpipe : m.pipe with
  | none =>
    obtain ⟨rfl, rfl⟩ := hnone hpipe
    simp
  | some q =>
    by_cases hp : p = q
    · subst hp
      simp only [Option.getD_some, if_true]
      omega
    · rw [if_neg (fun he => hp (Option.some.inj he).symm), Option.getD_some, if_neg hp]

/-- The counters go on to be right over a move exactly if it counts all that it has accepted and
the totals remain ints. -/
theorem counts_step (hwf : s.WF) (h : m.run s = .ok s') (hcounts : ∀ p, (s.pipes p).bytesWritten = n p)
    (hint : ∀ p, n p ≤ 0x7fffffff) :
    (∀ p, (s'.pipes p).bytesWritten = tally m s s' n p ∧
      (s.pipes p).bytesWritten ≤ (s'.pipes p).bytesWritten) ↔ CountsOn n s m s' := by
  obtain ⟨a, b, hpasses, hall, htally⟩ := tally_step (n := n) hwf h
  rw [CountsOn, ← hall]
  generalize m.pipe.getD .inputMaster = q at hpasses htally
  have hcounter := hpasses.counter
  have hq := htally q
  have hbound := hint q
  rw [if_pos rfl] at hq
  rw [hcounts q] at hcounter
  constructor
  · intro hright
    have hright := (hright q).1
    have hzero : a = 0 ∧ n q + b ≤ 0x7fffffff := by
      by_cases hb : b = 0
      · rw [if_pos hb] at hcounter
        omega
      · rw [if_neg hb] at hcounter
        have hlt := wrapInt_lt ((n q : Int) + b)
        have hwrap : wrapInt ((n q : Int) + b) = (n q : Int) + b := wrapInt_of_range (by omega) (by omega)
        omega
    refine ⟨hzero.1, fun p => ?_⟩
    have hp := htally p
    have hn := hint p
    split at hp
    · next he =>
      subst he
      omega
    · omega
  · rintro ⟨rfl, hle⟩ p
    have hp := htally p
    rw [hcounts p]
    by_cases he : p = q
    · subst he
      have hle := hle p
      by_cases hb : b = 0
      · rw [if_pos hb] at hcounter
        omega
      · have hwrap : wrapInt ((n p : Int) + b) = (n p : Int) + b := wrapInt_of_range (by omega) (by omega)
        rw [if_neg hb, hwrap] at hcounter
        omega
    · rw [hpasses.other p he, hcounts p]
      rw [if_neg he] at hp
      omega

/-- The totals add up to what has been accepted. -/
theorem talliedRun_total {Ok : (PipeRef → Nat) → Sys → Move → Sys → Prop} (h₀ : Started s₀)
    (run : TalliedRun Ok s₀ n s) : s.WF ∧
      acceptedBytes s.kernel.trace = acceptedBytes s₀.kernel.trace + n .inputMaster + n .masterOutput := by
  induction run with
  | start => exact ⟨started_wf h₀, rfl⟩
  | @next n s s' run m hcalled h hok ih =>
    obtain ⟨hwf, htotal⟩ := ih
    refine ⟨move_wf hwf hcalled h, ?_⟩
    obtain ⟨a, b, hpasses, -, htally⟩ := tally_step (n := n) hwf h
    have hk := hpasses.accepted
    rw [htally, htally]
    cases m.pipe.getD .inputMaster with
    | inputMaster =>
      rw [if_pos rfl, if_neg (by decide)]
      omega
    | masterOutput =>
      rw [if_neg (by decide), if_pos rfl]
      omega

theorem countedRun_counts (h₀ : Started s₀) (run : TalliedRun CountsOn s₀ n s) :
    (∀ p, (s.pipes p).bytesWritten = n p) ∧ ∀ p, n p ≤ 0x7fffffff := by
  induction run with
  | start =>
    refine ⟨fun p => ?_, fun _ => Nat.zero_le _⟩
    obtain ⟨_, _, _, _, _, _, hinit⟩ := h₀
    obtain ⟨-, -, hin, hout⟩ := masterPipeInit_ok hinit
    cases p with
    | inputMaster =>
      rw [hin]
      rfl
    | masterOutput =>
      rw [hout]
      rfl
  | next run m hcalled h hok ih =>
    obtain ⟨hcounts, hint⟩ := ih
    have hstep := (counts_step (talliedRun_total h₀ run).1 h hcounts hint).mpr hok
    exact ⟨fun p => (hstep p).1, hok.2⟩

/-- While every move counts all that it has accepted and no total outgrows an int, the counters of
both pipes are their totals and do not decrease, and no other move keeps them so. -/
theorem counters_true_iff (h₀ : Started s₀) (run : TalliedRun CountsOn s₀ n s) :
    acceptedBytes s.kernel.trace =
        acceptedBytes s₀.kernel.trace + n .inputMaster + n .masterOutput ∧
      (∀ p, (s.pipes p).bytesWritten = n p) ∧
      ∀ m s', m.Called s → m.run s = .ok s' →
        ((∀ p, (s'.pipes p).bytesWritten = tally m s s' n p ∧
          (s.pipes p).bytesWritten ≤ (s'.pipes p).bytesWritten) ↔ CountsOn n s m s') := by
  obtain ⟨hwf, htotal⟩ := talliedRun_total h₀ run
  obtain ⟨hcounts, hint⟩ := countedRun_counts h₀ run
  exact ⟨htotal, hcounts, fun m s' _ h => counts_step hwf h hcounts hint⟩

end Runs

/-- The kernel under a short text for a task that has no procs. -/
def shortText : Kernel := ⟨[.data 104 [105]], [.accept 2], [], none, []⟩

/-- The task that the text is for. -/
def plainSpec : TaskSpec := { taskCreateSpec 9 with infd := 7, outfd := 8 }

theorem counters_true_iff_two : ∃ s₀ s n, Started s₀ ∧ TalliedRun CountsOn s₀ n s ∧
    n .masterOutput = 2 ∧ (s.pipes .masterOutput).bytesWritten = 2 := by
  obtain ⟨s₀, h₀, htest⟩ := Result.ok_of_passes (show (launch shortText).passes (fun s₀ =>
    (step s₀ (.install plainSpec)).passes fun s₁ => (step s₁ (.autoRead .masterOutput)).passes fun s =>
      (s₁.fifo .masterOutput).proc = none ∧ acceptedBytes s₀.kernel.trace = 0 ∧
        acceptedBytes s₁.kernel.trace = 0 ∧ acceptedBytes s.kernel.trace = 2) = true by decide +kernel)
  obtain ⟨s₁, h₁, htest⟩ := Result.ok_of_passes htest
  obtain ⟨s, h₂, htest⟩ := Result.ok_of_passes htest
  obtain ⟨hproc, hzero, hone, htwo⟩ := of_decide_eq_true htest
  have hstarted := (launch_ok h₀).1
  have hrun₁ : TalliedRun CountsOn s₀ (tally (.event (.install plainSpec)) s₀ s₁ fun _ => 0) s₁ :=
    .next .start (.event (.install plainSpec)) trivial h₁ ⟨trivial, fun p => by simp [tally, Move.pipe]⟩
  have hcounts : CountsOn (tally (.event (.install plainSpec)) s₀ s₁ fun _ => 0) s₁
      (.event (.autoRead .masterOutput)) s := by
    refine ⟨fun r addr _ hscan => ?_, fun p => ?_⟩
    · rw [hproc] at hscan
      cases hscan
    · cases p <;> simp [tally, Move.pipe, hone, htwo]
  have hrun := TalliedRun.next hrun₁ (.event (.autoRead .masterOutput)) trivial h₂ hcounts
  have htotal : tally (.event (.autoRead .masterOutput)) s₁ s
      (tally (.event (.install plainSpec)) s₀ s₁ fun _ => 0) .masterOutput = 2 := by
    simp [tally, Move.pipe, hone, htwo]
  refine ⟨s₀, s, _, hstarted, hrun, htotal, ?_⟩
  rw [(counters_true_iff hstarted hrun).2.1 .masterOutput, htotal]
  rfl

theorem play_tallied {es : List Event} {s₀ s s' : Sys} {n : PipeRef → Nat}
    (run : TalliedRun (fun _ _ _ _ => True) s₀ n s) (h : play s es = .ok s') :
    ∃ n', TalliedRun (fun _ _ _ _ => True) s₀ n' s' := by
  induction es generalizing s n with
  | nil =>
    cases h
    exact ⟨n, run⟩
  | cons e es ih =>
    obtain ⟨s₁, h₁, h⟩ := Result.bind_ok h
    exact ih (.next run (.event e) trivial h₁ trivial) h

/-- The kernel under a transfer that begins and ends, and under a child and a terminal that take
all that they are given. -/
def taken : Kernel where
  reads := [.data chStar [chStar, chCan, chB, ch0, ch0]]
  writes := [.accept 6, .accept 80]
  forks := [.child (7, 8) (9, 10) (11, 12) 99]
  errno := none
  trace := []

/-- The status line is written past the count. -/
theorem status_uncounted : ∃ s₀ n s, Started s₀ ∧ TalliedRun (fun _ _ _ _ => True) s₀ n s ∧
    ¬ ∀ p, (s.pipes p).bytesWritten = n p := by
  obtain ⟨s₀, h₀, htest⟩ := Result.ok_of_passes (show (launch taken).passes (fun s₀ =>
    (play s₀ [.echoScanner, .autoRead .masterOutput, .remove]).passes fun s =>
      acceptedBytes s₀.kernel.trace = 0 ∧
        (s.pipes .inputMaster).bytesWritten + (s.pipes .masterOutput).bytesWritten <
          acceptedBytes s.kernel.trace) = true by decide +kernel)
  obtain ⟨s, hplay, htest⟩ := Result.ok_of_passes htest
  obtain ⟨hzero, hless⟩ := of_decide_eq_true htest
  have hstarted := (launch_ok h₀).1
  obtain ⟨n, hrun⟩ := play_tallied .start hplay
  have htotal := (talliedRun_total hstarted hrun).2
  refine ⟨s₀, n, s, hstarted, hrun, fun hcounts => ?_⟩
  rw [hcounts .inputMaster, hcounts .masterOutput] at hless
  omega

end Rzh
