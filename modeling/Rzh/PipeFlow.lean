import Rzh.PipeStream

/-!
# The flow through a pipe

Text that is queued has a wake-up, and reading is suspended only while the ring is full.
-/
namespace Rzh

open Circular Sys

/-- The kernel keeps the promise of a write event: the first write accepts something, if there
is anything to write, or finds the descriptor broken. -/
def Writable (s : Sys) (p : PipeRef) : Prop :=
  fifoCount (s.fifo p) = 0 ∨ (∃ n ws, retryWrite s.kernel.writes = (.accept (n + 1), ws)) ∨
    ∃ ws, retryWrite s.kernel.writes = (.fail .epipe, ws)

/-- A run of a pipe from `r` to `w` that reads and writes when it is told to by select(). -/
inductive FlowRun (p : PipeRef) (r w : AtomRef) (s : Sys) : Sys → Prop where
  | start : FlowRun p r w s s
  | readEvent {s₁ s₂ : Sys} (run : FlowRun p r w s s₁) (hwants : s₁.wants .read r = true)
    (h : pipeAutoRead s₁ p = .ok s₂) : FlowRun p r w s s₂
  | writeEvent {s₁ s₂ : Sys} (run : FlowRun p r w s s₁) (hwants : s₁.wants .write w = true)
    (hkernel : Writable s₁ p) (h : pipeAutoWrite s₁ p = .ok s₂) : FlowRun p r w s s₂
  | write {s₁ s₂ : Sys} (run : FlowRun p r w s s₁) {buf : List UInt8} (hbuf : buf ≠ []) {total : Nat}
    (h : pipeWrite s₁ p buf = .ok (total, s₂)) : FlowRun p r w s s₂

/-- The ends of a pipe without a proc. -/
structure Piped (p : PipeRef) (r w : AtomRef) (s : Sys) : Prop where
  readAtom : (s.pipes p).readAtom = some r
  writeAtom : (s.pipes p).writeAtom = some w
  proc : (s.fifo p).proc = none
  heldR : s.Held r
  heldW : s.Held w

/-- The invariant of the flow: it says nothing about a pipe of which one end is closed. -/
structure Flow (p : PipeRef) (r w : AtomRef) (s : Sys) : Prop extends Piped p r w s where
  queued : s.live r → s.live w → fifoCount (s.fifo p) ≠ 0 → s.wants .write w = true
  suspended : s.live r → s.live w → s.wants .read r = false →
    (s.pipes p).blockRead = true ∧ fifoAvail (s.fifo p) = 0 ∧ fifoCount (s.fifo p) ≠ 0

section Steps

variable {p : PipeRef} {r w : AtomRef} {s s₁ s' : Sys}

theorem Piped.enable (h : Piped p r w s) (a : AtomRef) (flags : List Interest) :
    Piped p r w (s.enable a flags) :=
  ⟨h.readAtom, h.writeAtom, h.proc, held_enable h.heldR flags, held_enable h.heldW flags⟩

theorem Piped.disable (h : Piped p r w s) (a : AtomRef) (flags : List Interest) :
    Piped p r w (s.disable a flags) :=
  ⟨h.readAtom, h.writeAtom, h.proc, held_disable h.heldR flags, held_disable h.heldW flags⟩

theorem Piped.block (h : Piped p r w s) (b : Bool) :
    Piped p r w (s.setPipe p { s.pipes p with blockRead := b }) where
  readAtom := by rw [setPipe_same, h.readAtom]
  writeAtom := by rw [setPipe_same, h.writeAtom]
  proc := by
    rw [Sys.fifo, setPipe_same]
    exact h.proc
  heldR := (sameAtoms_setPipe s p _).held.mpr h.heldR
  heldW := (sameAtoms_setPipe s p _).held.mpr h.heldW

theorem Piped.fill {bytes : List UInt8} (h : Piped p r w s) (hf : Filled p r bytes s s₁) :
    Piped p r w s₁ where
  readAtom := by
    rw [← h.readAtom]
    exact congrFun (congrArg Shape.readAtom hf.shape) p
  writeAtom := by
    rw [← h.writeAtom]
    exact congrFun (congrArg Shape.writeAtom hf.shape) p
  proc := by rw [hf.fifo, fifoUnsafeAppend_proc, h.proc]
  heldR := hf.atoms.held h.heldR h.heldR
  heldW := hf.atoms.held h.heldR h.heldW

theorem Piped.flush {cnt : Int} {sent : List UInt8} (h : Piped p r w s)
    (hf : Flushed p w cnt sent s s₁) : Piped p r w s₁ where
  readAtom := by rw [(hf.ends p).1, h.readAtom]
  writeAtom := by rw [(hf.ends p).2, h.writeAtom]
  proc := by rw [hf.fifo.2.1, h.proc]
  heldR := hf.atoms.held h.heldW h.heldR
  heldW := hf.atoms.held h.heldW h.heldW

/-- After a flush there is not more queued than before. -/
theorem Flushed.count_ne_zero {cnt : Int} {sent : List UInt8} (hf : Flushed p w cnt sent s s₁)
    (h : fifoCount (s₁.fifo p) ≠ 0) : fifoCount (s.fifo p) ≠ 0 := by
  have hlen := congrArg List.length hf.contents
  simp only [List.length_append, Buffer.toList_length, fifoCount_eq] at hlen h ⊢
  omega

/-- The second half of a read event, while select() is asked about the reader: the writer is
woken up for what is left, and reading is suspended when the ring is full. -/
theorem Piped.readRest (h : Piped p r w s) (hreads : s.live r → s.wants .read r = true)
    (hr : ReadRest s p s') : Flow p r w s' := by
  have hreads' : ∀ {cnt sent s₁}, Flushed p w cnt sent s s₁ → s₁.live r → s₁.wants .read r = true := by
    intro cnt sent s₁ hf hl
    rw [hf.atoms.wants h.heldW h.heldR hl]
    exact hreads (hf.atoms.live hl)
  cases hr with
  | idle hcount =>
    refine ⟨h, fun _ _ hne => absurd hcount hne, fun hl _ hno => ?_⟩
    rw [hreads hl] at hno
    cases hno
  | sent hw hf hcount =>
    obtain rfl := Option.some.inj (hw.symm.trans h.writeAtom)
    refine ⟨h.flush hf, fun _ _ hne => absurd hcount hne, fun hl _ hno => ?_⟩
    rw [hreads' hf hl] at hno
    cases hno
  | left hw hf hcount havail =>
    obtain rfl := Option.some.inj (hw.symm.trans h.writeAtom)
    have h₁ := h.flush hf
    refine ⟨h₁.enable _ _, fun _ hl _ => ?_, fun hl _ hno => ?_⟩
    · rw [wants_enable h₁.heldW h₁.heldW, if_pos ⟨rfl, hl, by simp⟩]
    · rw [wants_enable h₁.heldW h₁.heldR, if_neg (by simp), hreads' hf hl] at hno
      cases hno
  | @full w' r' _ _ s₁ hw hr hf hcount havail =>
    obtain rfl := Option.some.inj (hw.symm.trans h.writeAtom)
    obtain rfl := Option.some.inj (hr.symm.trans h.readAtom)
    have h₁ := h.flush hf
    have h₂ := h₁.enable w' [.write]
    refine ⟨(h₂.disable _ _).block true, fun _ hl _ => ?_, fun _ _ _ => ?_⟩
    · rw [(sameAtoms_setPipe _ _ _).wants, wants_disable h₂.heldR h₂.heldW, if_neg (by simp),
        wants_enable h₁.heldW h₁.heldW, if_pos ⟨rfl, hl, by simp⟩]
    · rw [Sys.fifo, setPipe_same]
      exact ⟨rfl, havail, hcount⟩

theorem Flow.readEvent (h : Flow p r w s) (hwants : s.wants .read r = true)
    (he : pipeAutoRead s p = .ok s') : Flow p r w s' := by
  rw [pipeAutoRead] at he
  split at he
  · cases he
  · obtain ⟨⟨cnt, s₁⟩, hread, he⟩ := Result.bind_ok he
    obtain ⟨r', hr', hfilled⟩ := pipeFifoRead_noProc h.proc hread
    obtain rfl := Option.some.inj (hr'.symm.trans h.readAtom)
    apply (h.toPiped.fill hfilled).readRest
    · intro hl
      rw [hfilled.atoms.wants h.heldR h.heldR hl, hwants]
    · exact pipeAutoReadRest_ok he

/-- A write event leaves reading enabled, whatever it has achieved. -/
theorem Flow.writeEvent (h : Flow p r w s) (he : pipeAutoWrite s p = .ok s') :
    Flow p r w s' ∧ (s'.live r → s'.live w → s'.wants .read r = true) := by
  obtain ⟨w', cnt, sent, s₁, s₂, hw, hf, -, -, hunblock, hs'⟩ := pipeAutoWrite_ok he
  obtain rfl := Option.some.inj (hw.symm.trans h.writeAtom)
  have h₁ := h.toPiped.flush hf
  have hqueued : s₁.live r → s₁.live w' → fifoCount (s₁.fifo p) ≠ 0 → s₁.wants .write w' = true := by
    intro hlr hlw hne
    rw [hf.atoms.wants h.heldW h.heldW hlw]
    exact h.queued (hf.atoms.live hlr) (hf.atoms.live hlw) (hf.count_ne_zero hne)
  have h₂ : Piped p r w' s₂ ∧ (s₂.live r → s₁.live r) ∧ (s₂.live w' → s₁.live w') ∧
      (s₂.live r → s₂.live w' → s₂.wants .read r = true) ∧
      s₂.fifo p = s₁.fifo p ∧ s₂.wants .write w' = s₁.wants .write w' := by
    cases hunblock with
    | «open» hblock =>
      refine ⟨h₁, id, id, fun hlr hlw => ?_, rfl, rfl⟩
      rw [hf.atoms.wants h.heldW h.heldR hlr]
      by_contra hno
      have hsusp := h.suspended (hf.atoms.live hlr) (hf.atoms.live hlw) (by simpa using hno)
      rw [hf.blockRead, hsusp.1] at hblock
      cases hblock
    | dead hr hl =>
      obtain rfl := Option.some.inj (hr.symm.trans h₁.readAtom)
      exact ⟨h₁, id, id, fun hlr _ => absurd hlr hl, rfl, rfl⟩
    | resume hr hl =>
      obtain rfl := Option.some.inj (hr.symm.trans h₁.readAtom)
      refine ⟨(h₁.enable _ _).block false, id, id, fun _ _ => ?_, by simp [Sys.fifo], ?_⟩
      · rw [(sameAtoms_setPipe _ _ _).wants, wants_enable h₁.heldR h₁.heldR, if_pos ⟨rfl, hl, by simp⟩]
      · rw [(sameAtoms_setPipe _ _ _).wants, wants_enable h₁.heldR h₁.heldW, if_neg (by simp)]
  obtain ⟨h₂, hlr, hlw, hreads, hfifo, hwrites⟩ := h₂
  obtain ⟨hcount, rfl⟩ | ⟨hcount, rfl⟩ := hs'
  · have hreads' : s₂.live r → s₂.live w' → (s₂.disable w' [.write]).wants .read r = true := by
      intro hr hw
      rw [wants_disable h₂.heldW h₂.heldR, if_neg (by simp), hreads hr hw]
    refine ⟨⟨h₂.disable _ _, fun _ _ hne => ?_, fun hr hw hno => ?_⟩, hreads'⟩
    · have hcount' : fifoCount (s₂.fifo p) = 0 := by rw [hfifo, hcount]
      exact absurd hcount' hne
    · rw [hreads' hr hw] at hno
      cases hno
  · refine ⟨⟨h₂, fun hr hw hne => ?_, fun hr hw hno => ?_⟩, hreads⟩
    · rw [hwrites]
      exact hqueued (hlr hr) (hlw hw) hcount
    · rw [hreads hr hw] at hno
      cases hno

theorem Flow.write (h : Flow p r w s) {buf : List UInt8} (hbuf : buf ≠ []) {total : Nat}
    (he : pipeWrite s p buf = .ok (total, s')) : Flow p r w s' := by
  obtain ⟨w', hw, -, hs'⟩ := pipeWrite_ok he
  obtain rfl := Option.some.inj (hw.symm.trans h.writeAtom)
  have hpos := List.length_pos_iff.mpr hbuf
  obtain ⟨hall, rfl⟩ | ⟨-, rfl⟩ := hs'
  · -- the text went past the ring, so nothing is queued
    have hcount : fifoCount (s.fifo p) = 0 := by
      by_contra hne
      rw [immediate, if_neg hne] at hall
      omega
    let s₁ : Sys := { s with kernel := afterImmediate s p w' buf }
    have h₁ : Piped p r w' s₁ := ⟨h.readAtom, h.writeAtom, h.proc, h.heldR, h.heldW⟩
    refine ⟨h₁.disable _ _, fun _ _ hne => absurd hcount hne, fun hr hw hno => ?_⟩
    rw [wants_disable h₁.heldW h₁.heldR, if_neg (by simp)] at hno
    exact absurd hcount (h.suspended hr hw hno).2.2
  · let s₁ := s.setFifo p (fifoUnsafeAppend (s.fifo p) (stored s p w' buf)) (afterImmediate s p w' buf)
    have hsame : SameAtoms s s₁ := sameAtoms_setFifo s p _ _
    have h₁ : Piped p r w' s₁ :=
      ⟨by rw [setFifo_same, h.readAtom], by rw [setFifo_same, h.writeAtom],
        by rw [fifo_setFifo, fifoUnsafeAppend_proc, h.proc], hsame.held.mpr h.heldR,
        hsame.held.mpr h.heldW⟩
    refine ⟨h₁.enable _ _, fun _ hw _ => ?_, fun hr hw hno => ?_⟩
    · rw [wants_enable h₁.heldW h₁.heldW, if_pos ⟨rfl, hw, by simp⟩]
    · rw [wants_enable h₁.heldW h₁.heldR, if_neg (by simp), hsame.wants] at hno
      obtain ⟨hblock, havail, hcount⟩ := h.suspended hr hw hno
      have hnil : stored s p w' buf = [] := by rw [stored, havail, List.take_zero]
      have hfifo : (s₁.enable w' [.write]).fifo p = s.fifo p := by
        change s₁.fifo p = s.fifo p
        rw [fifo_setFifo, hnil, fifoUnsafeAppend_nil]
      rw [hfifo]
      refine ⟨?_, havail, hcount⟩
      change (s₁.pipes p).blockRead = true
      rw [setFifo_same, hblock]

/-- A write event that moves something cannot find the ring full, and it closes nothing. -/
theorem Flow.writeEvent_returns (h : Flow p r w s) (hlr : s.live r) (hlw : s.live w)
    (hne : fifoCount (s.fifo p) ≠ 0) {n : Nat} {ws : List WriteRes}
    (hk : retryWrite s.kernel.writes = (.accept (n + 1), ws)) :
    ∃ s', pipeAutoWrite s p = .ok s' ∧ s'.live r ∧ s'.live w := by
  have hpos := fifoWrite_pos hlw hne hk
  have hroom : ∀ {cnt s₁}, pipeFifoWrite s p = .ok (cnt, s₁) → Piped p r w s₁ ∧ SameAtoms s s₁ ∧
      fifoAvail (s₁.fifo p) ≠ 0 := by
    intro cnt s₁ hwrite
    obtain ⟨w', sent, hw, hf, hcnt⟩ := pipeFifoWrite_ok hwrite
    obtain rfl := Option.some.inj (hw.symm.trans h.writeAtom)
    refine ⟨h.toPiped.flush hf, hf.same (by omega), ?_⟩
    have hlen := congrArg List.length hf.contents
    have hsum := (s₁.fifo p).count_add_avail
    have hsum' := (s.fifo p).count_add_avail
    have hsize := hf.fifo.1
    have hcount := hf.count
    rw [List.length_append, Buffer.toList_length, Buffer.toList_length] at hlen
    rw [fifoAvail_eq]
    omega
  cases he : pipeAutoWrite s p with
  | ok s' =>
    obtain ⟨w', cnt, sent, s₁, s₂, hw, hf, hcnt, -, hunblock, hs'⟩ := pipeAutoWrite_ok he
    obtain rfl := Option.some.inj (hw.symm.trans h.writeAtom)
    have hsame := hf.same (by omega)
    have hlive : ∀ a, s'.live a ↔ s₁.live a := by
      intro a
      obtain ⟨-, rfl⟩ | ⟨-, rfl⟩ := hs'
      · cases hunblock <;> rfl
      · cases hunblock <;> rfl
    exact ⟨s', rfl, (hlive r).mpr (hsame.live.mpr hlr), (hlive w').mpr (hsame.live.mpr hlw)⟩
  | error e =>
    exfalso
    obtain he | ⟨⟨cnt, s₁⟩, hwrite, he⟩ := Result.bind_error he
    · obtain he | ⟨w', -, he⟩ := Result.bind_error he
      · rw [Sys.writeAtom, h.writeAtom] at he
        cases he
      · cases he
    · obtain ⟨h₁, hsame, havail⟩ := hroom hwrite
      simp only at he
      rw [if_neg havail] at he
      obtain he | ⟨s₂, hunblock, he⟩ := Result.bind_error he
      · rw [pipeUnblock] at he
        split at he
        · rw [Sys.readAtom, h₁.readAtom] at he
          change (if _ then _ else _) = _ at he
          split at he
          · cases he
          · cases he
        · cases he
      · have hw₂ : (s₂.pipes p).writeAtom = some w := by
          rw [← h₁.writeAtom]
          cases pipeUnblock_ok hunblock with
          | «open» => rfl
          | dead => rfl
          | resume => rw [setPipe_same]
        split at he
        · rw [Sys.writeAtom, hw₂] at he
          cases he
        · cases he

end Steps

theorem flowRun_flow {p : PipeRef} {r w : AtomRef} {s s' : Sys} (run : FlowRun p r w s s')
    (h : Flow p r w s) : Flow p r w s' := by
  induction run with
  | start => exact h
  | readEvent run hwants he ih => exact ih.readEvent hwants he
  | writeEvent run hwants hkernel he ih => exact (ih.writeEvent he).1
  | write run hbuf he ih => exact ih.write hbuf he

/-- A new pipe is empty, and its reader is listened to. -/
theorem pipeInit_flow {s : Sys} {r w : AtomRef} (p : PipeRef) {size : Nat} (h : 0 < size)
    (hr : s.io.Registered r (s.atoms r).fd) (hw : s.io.Registered w (s.atoms w).fd) :
    Flow p r w (pipeInit s p (some r) (some w) size h) := by
  have hpipes := pipeInit_pipes s p r w size h
  have hempty := fifoInit_contents size h
  rw [Fifo.contents, Buffer.toList_eq_nil_iff, ← fifoCount_eq] at hempty
  let s₁ := s.setAtom r { s.atoms r with readPipe := .pipe p }
  let s₂ := (s₁.setAtom w { s₁.atoms w with writePipe := some p }).setPipe p
    ⟨fifoInit size h, some r, some w, false, 0⟩
  have hfd : ∀ a, (s₂.atoms a).fd = (s.atoms a).fd :=
    (pipeInit_splices s p (some r) (some w) size h (by simp : ∀ a, some r = some a → a ∈ [r])).fd
  have hheld : ∀ a, s.io.Registered a (s.atoms a).fd → s₂.Held a := by
    intro a ha _
    rw [hfd]
    exact ha
  have hlive : s₂.live r := by
    rw [live, hfd]
    exact hr.nonneg
  have hwants : (s₂.enable r [.read]).wants .read r = true := by
    rw [wants_enable (hheld r hr) (hheld r hr), if_pos ⟨rfl, hlive, by simp⟩]
  refine ⟨⟨by rw [hpipes], by rw [hpipes], by rw [Sys.fifo, hpipes]; rfl,
    held_enable (hheld r hr) _, held_enable (hheld w hw) _⟩, fun _ _ hne => ?_, fun _ _ hno => ?_⟩
  · rw [Sys.fifo, hpipes] at hne
    exact absurd hempty hne
  · have hno' : (s₂.enable r [.read]).wants .read r = false := hno
    rw [hwants] at hno'
    cases hno'

end Rzh
