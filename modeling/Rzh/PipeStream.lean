import Rzh.Pipe

/-!
# The stream through a pipe

A pipe without a proc hands over what it takes in, byte for byte and in order. Bytes go
through the ring or past it; the descriptor may break off each write wherever it likes.
-/
namespace Rzh

open Circular Sys

/-- A run of a pipe that reads from the atom `r`: calls that return, in any order, and the
text that they take in. -/
inductive PipeRun (p : PipeRef) (r : AtomRef) (s : Sys) : List UInt8 → Sys → Prop where
  | start : PipeRun p r s [] s
  | autoRead {text : List UInt8} {s₁ s₂ : Sys} (run : PipeRun p r s text s₁)
    (h : pipeAutoRead s₁ p = .ok s₂) : PipeRun p r s (text ++ arriving s₁ p (s₁.atoms r).fd) s₂
  | autoWrite {text : List UInt8} {s₁ s₂ : Sys} (run : PipeRun p r s text s₁)
    (h : pipeAutoWrite s₁ p = .ok s₂) : PipeRun p r s text s₂
  | write {text : List UInt8} {s₁ s₂ : Sys} (run : PipeRun p r s text s₁) (buf : List UInt8)
    {total : Nat} (h : pipeWrite s₁ p buf = .ok (total, s₂)) :
    PipeRun p r s (text ++ buf.take total) s₂

/-- The pipe's books in a state `s` that began as `s₀`: the text that has been taken in is what
the descriptor of `w` has accepted and then what is queued. -/
structure Books (p : PipeRef) (r w : AtomRef) (s₀ : Sys) (text : List UInt8) (s : Sys) : Prop where
  readAtom : (s.pipes p).readAtom = some r
  writeAtom : (s.pipes p).writeAtom = some w
  proc : (s.fifo p).proc = none
  fd : (s.atoms w).fd = (s₀.atoms w).fd ∨ (s.atoms w).fd = -1
  stream : ∃ accepted,
    written (s₀.atoms w).fd s.kernel.trace = written (s₀.atoms w).fd s₀.kernel.trace ++ accepted ∧
      accepted ++ (s.fifo p).contents = text

namespace Books

variable {p : PipeRef} {r w : AtomRef} {s₀ s s' : Sys} {text : List UInt8}

/-- Where atoms and kernel are left alone, and the pipe but for the flag block_read. -/
theorem quiet (h : Books p r w s₀ text s) (hends : ∀ a, (s'.atoms a).fd = (s.atoms a).fd)
    (hk : s'.kernel = s.kernel) (hr : (s'.pipes p).readAtom = (s.pipes p).readAtom)
    (hw : (s'.pipes p).writeAtom = (s.pipes p).writeAtom) (hf : s'.fifo p = s.fifo p) :
    Books p r w s₀ text s' where
  readAtom := by rw [hr, h.readAtom]
  writeAtom := by rw [hw, h.writeAtom]
  proc := by rw [hf, h.proc]
  fd := by
    rw [hends]
    exact h.fd
  stream := by
    rw [hk, hf]
    exact h.stream

theorem enable (h : Books p r w s₀ text s) (a : AtomRef) (flags : List Interest) :
    Books p r w s₀ text (s.enable a flags) :=
  h.quiet (fun _ => rfl) rfl rfl rfl rfl

theorem disable (h : Books p r w s₀ text s) (a : AtomRef) (flags : List Interest) :
    Books p r w s₀ text (s.disable a flags) :=
  h.quiet (fun _ => rfl) rfl rfl rfl rfl

theorem block (h : Books p r w s₀ text s) (b : Bool) :
    Books p r w s₀ text (s.setPipe p { s.pipes p with blockRead := b }) :=
  h.quiet (fun _ => rfl) rfl (by rw [setPipe_same]) (by rw [setPipe_same]) (by simp [Sys.fifo])

theorem fd_of_mayClose {a : AtomRef} (h : Books p r w s₀ text s) (hm : MayClose a s s') :
    (s'.atoms w).fd = (s₀.atoms w).fd ∨ (s'.atoms w).fd = -1 := by
  obtain hfd | ⟨-, hfd⟩ := hm.fd w
  · rw [hfd]
    exact h.fd
  · exact .inr hfd

theorem fill {bytes : List UInt8} (h : Books p r w s₀ text s) (hf : Filled p r bytes s s')
    (hlen : bytes.length ≤ fifoAvail (s.fifo p)) : Books p r w s₀ (text ++ bytes) s' where
  readAtom := by
    rw [← h.readAtom]
    exact congrFun (congrArg Shape.readAtom hf.shape) p
  writeAtom := by
    rw [← h.writeAtom]
    exact congrFun (congrArg Shape.writeAtom hf.shape) p
  proc := by rw [hf.fifo, fifoUnsafeAppend_proc, h.proc]
  fd := h.fd_of_mayClose hf.atoms
  stream := by
    obtain ⟨accepted, hw, hq⟩ := h.stream
    refine ⟨accepted, by rw [hf.written, hw], ?_⟩
    rw [hf.fifo, fifoUnsafeAppend_contents _ _ hlen, ← List.append_assoc, hq]

theorem flush {cnt : Int} {sent : List UInt8} (h : Books p r w s₀ text s)
    (hf : Flushed p w cnt sent s s') : Books p r w s₀ text s' where
  readAtom := by rw [(hf.ends p).1, h.readAtom]
  writeAtom := by rw [(hf.ends p).2, h.writeAtom]
  proc := by rw [hf.fifo.2.1, h.proc]
  fd := h.fd_of_mayClose hf.atoms
  stream := by
    obtain ⟨accepted, hw, hq⟩ := h.stream
    refine ⟨accepted ++ sent, ?_, ?_⟩
    · rw [hf.accepted h.fd, hw, List.append_assoc]
    · rw [List.append_assoc, ← hf.contents, hq]

theorem stable (p : PipeRef) (r w : AtomRef) (s₀ : Sys) (text : List UInt8) :
    Stable p (Books p r w s₀ text) where
  flush h hw hf := by
    obtain rfl := Option.some.inj (hw.symm.trans h.writeAtom)
    exact h.flush hf
  enable h a flags := h.enable a flags
  disable h a flags := h.disable a flags
  block h b := h.block b

theorem autoRead (h : Books p r w s₀ text s) (he : pipeAutoRead s p = .ok s') :
    Books p r w s₀ (text ++ arriving s p (s.atoms r).fd) s' := by
  rw [pipeAutoRead] at he
  split at he
  · cases he
  · obtain ⟨⟨cnt, s₁⟩, hread, he⟩ := Result.bind_ok he
    obtain ⟨r', hr', hfilled⟩ := pipeFifoRead_noProc h.proc hread
    obtain rfl := Option.some.inj (hr'.symm.trans h.readAtom)
    exact (stable p r' w s₀ _).readRest (h.fill hfilled (arriving_length s p _)) (pipeAutoReadRest_ok he)

/-- An immediate write only happens when nothing is queued in front of it. -/
theorem immediate_comm (s : Sys) (p : PipeRef) (w : AtomRef) (buf : List UInt8) :
    buf.take (immediate s p w buf) ++ (s.fifo p).contents =
      (s.fifo p).contents ++ buf.take (immediate s p w buf) := by
  rw [immediate]
  split
  · next hcount =>
    have hnil : (s.fifo p).contents = [] := by
      rw [Fifo.contents, Buffer.toList_eq_nil_iff]
      exact hcount
    rw [hnil, List.append_nil, List.nil_append]
  · rw [List.take_zero, List.append_nil, List.nil_append]

theorem take_total (s : Sys) (p : PipeRef) (w : AtomRef) (buf : List UInt8) :
    buf.take (immediate s p w buf + (stored s p w buf).length) =
      buf.take (immediate s p w buf) ++ stored s p w buf := by
  rw [List.take_add, stored, List.length_take, ← List.take_take, List.take_length]

theorem stored_length (s : Sys) (p : PipeRef) (w : AtomRef) (buf : List UInt8) :
    (stored s p w buf).length ≤ fifoAvail (s.fifo p) := by
  rw [stored]
  exact List.length_take_le _ _

theorem write {buf : List UInt8} {total : Nat} (h : Books p r w s₀ text s)
    (he : pipeWrite s p buf = .ok (total, s')) : Books p r w s₀ (text ++ buf.take total) s' := by
  obtain ⟨w', hw, htotal, hs'⟩ := pipeWrite_ok he
  obtain rfl := Option.some.inj (hw.symm.trans h.writeAtom)
  obtain ⟨hn, hsent⟩ := sent_immediate s p w' buf
  have hstream : ∃ accepted, written (s₀.atoms w').fd (afterImmediate s p w' buf).trace =
      written (s₀.atoms w').fd s₀.kernel.trace ++ accepted ∧
        accepted ++ ((s.fifo p).contents ++ stored s p w' buf) = text ++ buf.take total := by
    obtain ⟨accepted, hacc, hq⟩ := h.stream
    refine ⟨accepted ++ buf.take (immediate s p w' buf), ?_, ?_⟩
    · rw [hsent.accepted h.fd, hacc, List.append_assoc]
    · rw [htotal, take_total, ← hq]
      simp only [List.append_assoc]
      rw [← List.append_assoc (buf.take _), immediate_comm, List.append_assoc]
  obtain ⟨hall, rfl⟩ | ⟨-, rfl⟩ := hs'
  · have hnil : stored s p w' buf = [] := by
      rw [stored, hall, List.drop_length, List.take_nil]
    rw [hnil, List.append_nil] at hstream
    apply disable
    exact ⟨h.readAtom, h.writeAtom, h.proc, h.fd, hstream⟩
  · apply enable
    refine ⟨?_, ?_, ?_, h.fd, ?_⟩
    · rw [setFifo_same, h.readAtom]
    · rw [setFifo_same, h.writeAtom]
    · rw [fifo_setFifo, fifoUnsafeAppend_proc, h.proc]
    · rw [fifo_setFifo, fifoUnsafeAppend_contents _ _ (stored_length s p w' buf)]
      exact hstream

theorem run (hrun : PipeRun p r s text s') (h : Books p r w s₀ [] s) : Books p r w s₀ text s' := by
  induction hrun with
  | start => exact h
  | autoRead run he ih => exact ih.autoRead he
  | autoWrite run he ih => exact (stable p r w s₀ _).autoWrite ih he
  | write run buf he ih => exact ih.write he

end Books

theorem pipeInit_pipes (s : Sys) (p : PipeRef) (r w : AtomRef) (size : Nat) (h : 0 < size) :
    (pipeInit s p (some r) (some w) size h).pipes p = ⟨fifoInit size h, some r, some w, false, 0⟩ :=
  setPipe_same _ p _

theorem pipeInit_books (s : Sys) (p : PipeRef) (r w : AtomRef) (size : Nat) (h : 0 < size) :
    Books p r w s [] (pipeInit s p (some r) (some w) size h) := by
  have hpipes := pipeInit_pipes s p r w size h
  refine ⟨by rw [hpipes], by rw [hpipes], by rw [Sys.fifo, hpipes]; rfl, .inl ?_, [], ?_, ?_⟩
  · have hsplice : Splices [r] s (pipeInit s p (some r) (some w) size h) :=
      pipeInit_splices s p (some r) (some w) size h (by simp)
    exact hsplice.fd w
  · exact (List.append_nil _).symm
  · rw [Sys.fifo, hpipes]
    exact fifoInit_contents size h

/-- Two atoms, for the descriptors 5 and 6, and a kernel that has three bytes to read and
takes one, then another. -/
def twoAtoms : Sys :=
  { blank ⟨[.data 97 [98, 99]], [.accept 1, .accept 1], [], none, []⟩ with
    io := (ioAdd (ioAdd ioInit (.read 0) 5 []).2 (.write 0) 6 []).2
    atoms := fun
      | .read _ => ⟨5, .pipeIoProc, .null, none⟩
      | _ => ⟨6, .pipeIoProc, .null, none⟩ }

def twoAtomsPipe : Sys :=
  pipeInit twoAtoms .inputMaster (some (.read 0)) (some (.write 0)) 8 (Nat.succ_pos 7)

end Rzh
