import Rzh.Atoms
import Rzh.Filter

/-!
# pipe.c

What happens to a pipe when one of its atoms is ready, and what each of its calls can do.
-/
namespace Rzh

open Sys

/-- The descriptor is closed when its file has ended. -/
def pipeFifoRead (s : Sys) (p : PipeRef) : Result (Int × Sys) := do
  let r ← s.readAtom p
  let (cnt, s) ← fifoRead s p (s.atoms r).fd
  if cnt = -2 then
    let r ← s.readAtom p
    .ok (cnt, closeAtom s r)
  else .ok (cnt, s)

def pipeAutoRead (s : Sys) (p : PipeRef) : Result Sys :=
  if fifoAvail (s.fifo p) = 0 then .error (.abort, s)
  else do
    let (_, s) ← pipeFifoRead s p
    pipeAutoReadRest s p

/-- The proc of every atom that ends a pipe. -/
def pipeIoProc (s : Sys) (a : AtomRef) (flags : List Interest) : Result Sys := do
  let s ←
    if .read ∈ flags then
      match (s.atoms a).readPipe with
      | .pipe p => pipeAutoRead s p
      | _ => .error (.segv, s)
    else .ok s
  if .write ∈ flags then
    match (s.atoms a).writePipe with
    | some p => pipeAutoWrite s p
    | none => .error (.segv, s)
  else .ok s

/-- The master pipe before its first task: one descriptor, and no other ends yet. -/
def masterPipeInit (s : Sys) (masterfd : Int) (inma maou : Nat) (hinma : 0 < inma) (hmaou : 0 < maou) :
    Result Sys := do
  let s ← pipeAtomInit s .master masterfd
  let s := pipeInit s .inputMaster none (some .master) inma hinma
  let s := pipeInit s .masterOutput (some .master) none maou hmaou
  .ok { s with tasks := [] }

/-- The descriptor is a socket's, or else that of a terminal that bgio opens. -/
def masterSetup (s : Sys) (fd : Int) (pty : Int × Int) (inma maou : Nat) (hinma : 0 < inma) (hmaou : 0 < maou) :
    Result Sys :=
  if fd < 0 then
    masterPipeInit { s with stMasterFd := pty.1, stSlaveFd := pty.2 } pty.1 inma maou hinma hmaou
  else masterPipeInit s fd inma maou hinma hmaou

/-- What pipe_fifo_write does, with the count it returns: `sent` goes from the fifo to the
descriptor, which is closed if it turns out to be broken. -/
structure Flushed (p : PipeRef) (w : AtomRef) (cnt : Int) (sent : List UInt8) (s s' : Sys) :
    Prop where
  shape : s'.shape = s.shape
  zscans : s'.zscans = s.zscans
  zfins : s'.zfins = s.zfins
  other : ∀ q, q ≠ p → s'.pipes q = s.pipes q
  blockRead : (s'.pipes p).blockRead = (s.pipes p).blockRead
  wrote : ∃ k, Wrote (s.atoms w).fd sent (s.fifo p) (s'.fifo p) s.kernel k ∧
    (s'.kernel = k ∨ s'.kernel = k.close (s.atoms w).fd)
  count : cnt = sent.length ∨ cnt = -1 ∧ sent = []
  atoms : MayClose w s s'
  same : 0 ≤ cnt → SameAtoms s s'

theorem shape_closeAtom (s : Sys) (a : AtomRef) : (closeAtom s a).shape = s.shape := by
  by_cases hl : 0 ≤ (s.atoms a).fd
  · simp [closeAtom, pipeAtomDestroy, Sys.close, setAtom, shape, hl]
  · simp [closeAtom, pipeAtomDestroy, Sys.close, setAtom, shape, hl]

theorem closeAtom_rest (s : Sys) (a : AtomRef) :
    (closeAtom s a).pipes = s.pipes ∧ (closeAtom s a).zscans = s.zscans ∧
      (closeAtom s a).zfins = s.zfins ∧
      (closeAtom s a).kernel = s.kernel.close (s.atoms a).fd := by
  by_cases hl : 0 ≤ (s.atoms a).fd
  · simp [closeAtom, pipeAtomDestroy, Sys.close, setAtom, hl]
  · simp [closeAtom, pipeAtomDestroy, Sys.close, setAtom, hl]

section Flushed

variable {s s' : Sys} {p : PipeRef} {w : AtomRef} {cnt : Int} {sent : List UInt8} {f : Fifo}
  {k : Kernel}

theorem flushed_writes (h : Wrote (s.atoms w).fd sent (s.fifo p) f s.kernel k)
    (hcnt : cnt = sent.length ∨ cnt = -1 ∧ sent = []) :
    Flushed p w cnt sent s (s.setFifo p f k) where
  shape := shape_setFifo s p f k
  zscans := rfl
  zfins := rfl
  other q hq := setFifo_ne s f k hq
  blockRead := by rw [setFifo_same]
  wrote := ⟨k, by rw [fifo_setFifo]; exact h, .inl rfl⟩
  count := hcnt
  atoms := .same (sameAtoms_setFifo s p f k)
  same _ := sameAtoms_setFifo s p f k

theorem flushed_closes (h : Wrote (s.atoms w).fd [] (s.fifo p) f s.kernel k) :
    Flushed p w (-1) [] s (closeAtom (s.setFifo p f k) w) := by
  obtain ⟨hpipes, hzscans, hzfins, hkernel⟩ := closeAtom_rest (s.setFifo p f k) w
  have hf : (closeAtom (s.setFifo p f k) w).fifo p = f := by
    rw [Sys.fifo, hpipes, setFifo_same]
  exact {
    shape := by rw [shape_closeAtom, shape_setFifo]
    zscans := hzscans
    zfins := hzfins
    other := fun q hq => by rw [hpipes, setFifo_ne s f k hq]
    blockRead := by rw [hpipes, setFifo_same]
    wrote := ⟨k, by rw [hf]; exact h, .inr hkernel⟩
    count := .inr ⟨rfl, rfl⟩
    atoms := .closed (sameAtoms_closeAtom (sameAtoms_setFifo s p f k) w)
    same := fun hcnt => absurd hcnt (by decide) }

theorem Flushed.counts (h : Flushed p w cnt sent s s') (n : Int) :
    Flushed p w cnt sent s (s'.setPipe p { s'.pipes p with bytesWritten := n }) where
  shape := by
    rw [shape_setPipe s' p { s'.pipes p with bytesWritten := n } rfl rfl]
    exact h.shape
  zscans := h.zscans
  zfins := h.zfins
  other q hq := by
    rw [setPipe_ne _ _ hq]
    exact h.other q hq
  blockRead := by
    rw [setPipe_same]
    exact h.blockRead
  wrote := by
    simp only [Sys.fifo, setPipe_same]
    exact h.wrote
  count := h.count
  atoms := h.atoms.trans_same (sameAtoms_setPipe _ _ _)
  same hc := (h.same hc).trans (sameAtoms_setPipe _ _ _)

theorem Flushed.ends (h : Flushed p w cnt sent s s') (q : PipeRef) :
    (s'.pipes q).readAtom = (s.pipes q).readAtom ∧ (s'.pipes q).writeAtom = (s.pipes q).writeAtom :=
  ⟨congrFun (congrArg Shape.readAtom h.shape) q, congrFun (congrArg Shape.writeAtom h.shape) q⟩

theorem Flushed.contents (h : Flushed p w cnt sent s s') :
    (s.fifo p).contents = sent ++ (s'.fifo p).contents := by
  obtain ⟨k, hwrote, -⟩ := h.wrote
  exact hwrote.contents

theorem Flushed.fifo (h : Flushed p w cnt sent s s') : (s'.fifo p).size = (s.fifo p).size ∧
    (s'.fifo p).proc = (s.fifo p).proc ∧ (s'.fifo p).refcon = (s.fifo p).refcon := by
  obtain ⟨k, hwrote, -⟩ := h.wrote
  exact ⟨hwrote.size, hwrote.proc, hwrote.refcon⟩

/-- The descriptor accepts what is sent, also if it is closed then, and if it has been closed
before nothing is sent. -/
theorem Flushed.accepted {fd : Int} (h : Flushed p w cnt sent s s')
    (hfd : (s.atoms w).fd = fd ∨ (s.atoms w).fd = -1) :
    written fd s'.kernel.trace = written fd s.kernel.trace ++ sent := by
  obtain ⟨k, hwrote, hk | hk⟩ := h.wrote
  · rw [hk, hwrote.sent.accepted hfd]
  · rw [hk, Kernel.written_close, hwrote.sent.accepted hfd]

theorem Flushed.silent {fd fd' : Int} (h : Flushed p w cnt sent s s')
    (hfd : (s.atoms w).fd = fd ∨ (s.atoms w).fd = -1) (hne : fd' ≠ fd) :
    written fd' s'.kernel.trace = written fd' s.kernel.trace := by
  obtain ⟨k, hwrote, hk | hk⟩ := h.wrote
  · rw [hk, hwrote.sent.silent hfd hne]
  · rw [hk, Kernel.written_close, hwrote.sent.silent hfd hne]

end Flushed

theorem pipeFifoWrite_ok {s s' : Sys} {p : PipeRef} {cnt : Int}
    (h : pipeFifoWrite s p = .ok (cnt, s')) :
    ∃ w sent, (s.pipes p).writeAtom = some w ∧ Flushed p w cnt sent s s' ∧
      cnt = (fifoWrite (s.fifo p) (s.atoms w).fd s.kernel).1 := by
  obtain ⟨w, hw, h⟩ := Result.bind_ok h
  obtain ⟨sent, hwrote, hcnt⟩ := fifoWrite_wrote (s.fifo p) (s.atoms w).fd s.kernel
  refine ⟨w, sent, writeAtom_ok hw, ?_⟩
  generalize fifoWrite (s.fifo p) (s.atoms w).fd s.kernel = res at h hwrote hcnt
  obtain ⟨c, f, k⟩ := res
  simp only [Except.ok.injEq, Prod.mk.injEq] at h
  obtain ⟨rfl, rfl⟩ := h
  refine ⟨?_, rfl⟩
  by_cases hclose : c = -1 ∧ k.errno = some .epipe
  · rw [if_neg (by omega), if_pos hclose]
    obtain ⟨rfl, -⟩ := hclose
    have hnil : sent = [] := by
      rcases hcnt with hc | ⟨-, hc⟩
      · omega
      · exact hc
    subst hnil
    exact flushed_closes hwrote
  · rw [if_neg hclose]
    split
    · exact (flushed_writes hwrote hcnt).counts _
    · exact flushed_writes hwrote hcnt

/-- The ways that the second half of pipe_auto_read goes. -/
inductive ReadRest (s : Sys) (p : PipeRef) : Sys → Prop where
  | idle (hcount : fifoCount (s.fifo p) = 0) : ReadRest s p s
  | sent {w : AtomRef} {cnt : Int} {sent : List UInt8} {s₁ : Sys}
    (hw : (s.pipes p).writeAtom = some w) (h : Flushed p w cnt sent s s₁)
    (hcount : fifoCount (s₁.fifo p) = 0) : ReadRest s p s₁
  | left {w : AtomRef} {cnt : Int} {sent : List UInt8} {s₁ : Sys}
    (hw : (s.pipes p).writeAtom = some w) (h : Flushed p w cnt sent s s₁)
    (hcount : fifoCount (s₁.fifo p) ≠ 0) (havail : fifoAvail (s₁.fifo p) ≠ 0) :
    ReadRest s p (s₁.enable w [.write])
  | full {w r : AtomRef} {cnt : Int} {sent : List UInt8} {s₁ : Sys}
    (hw : (s.pipes p).writeAtom = some w) (hr : (s.pipes p).readAtom = some r)
    (h : Flushed p w cnt sent s s₁) (hcount : fifoCount (s₁.fifo p) ≠ 0)
    (havail : fifoAvail (s₁.fifo p) = 0) :
    ReadRest s p (((s₁.enable w [.write]).disable r [.read]).setPipe p
      { s₁.pipes p with blockRead := true })

theorem pipeAutoReadRest_ok {s s' : Sys} {p : PipeRef} (h : pipeAutoReadRest s p = .ok s') :
    ReadRest s p s' := by
  rw [pipeAutoReadRest] at h
  split at h
  · next hcount =>
    cases h
    exact .idle hcount
  · obtain ⟨⟨cnt, s₁⟩, hwrite, h⟩ := Result.bind_ok h
    obtain ⟨w, sent, hw, hf, -⟩ := pipeFifoWrite_ok hwrite
    simp only at h
    split at h
    · next hcount =>
      cases h
      exact .sent hw hf hcount
    · next hcount =>
      obtain ⟨w', hw', h⟩ := Result.bind_ok h
      obtain rfl : w' = w := by
        have hw₁ := writeAtom_ok hw'
        rw [(hf.ends p).2, hw] at hw₁
        exact (Option.some.inj hw₁).symm
      split at h
      · next havail =>
        obtain ⟨r, hr, h⟩ := Result.bind_ok h
        have hr₁ : (s₁.pipes p).readAtom = some r := readAtom_ok (s := s₁.enable w' [.write]) hr
        rw [(hf.ends p).1] at hr₁
        cases h
        exact .full hw hr₁ hf hcount havail
      · next havail =>
        cases h
        exact .left hw hf hcount havail

theorem ReadRest.shape {s s' : Sys} {p : PipeRef} (h : ReadRest s p s') : s'.shape = s.shape := by
  cases h with
  | idle => rfl
  | sent _ hf => exact hf.shape
  | left _ hf => exact hf.shape
  | @full w r _ _ s₁ _ _ hf =>
    exact (shape_setPipe ((s₁.enable w [.write]).disable r [.read]) p
      { s₁.pipes p with blockRead := true } rfl rfl).trans hf.shape

theorem ReadRest.other {s s' : Sys} {p q : PipeRef} (h : ReadRest s p s') (hq : q ≠ p) : s'.pipes q = s.pipes q := by
  cases h with
  | idle => rfl
  | sent _ hf => exact hf.other q hq
  | left _ hf => exact hf.other q hq
  | full _ _ hf => exact (setPipe_ne _ _ hq).trans (hf.other q hq)

/-- Reading goes on if it was suspended and there is still something to read from. -/
inductive Unblock (p : PipeRef) (s : Sys) : Sys → Prop where
  | open (h : (s.pipes p).blockRead = false) : Unblock p s s
  | dead {r : AtomRef} (hr : (s.pipes p).readAtom = some r) (hl : ¬ s.live r) : Unblock p s s
  | resume {r : AtomRef} (hr : (s.pipes p).readAtom = some r) (hl : s.live r) :
    Unblock p s ((s.enable r [.read]).setPipe p { s.pipes p with blockRead := false })

theorem pipeUnblock_ok {s s' : Sys} {p : PipeRef} (h : pipeUnblock s p = .ok s') : Unblock p s s' := by
  rw [pipeUnblock] at h
  split at h
  · obtain ⟨r, hr, h⟩ := Result.bind_ok h
    split at h
    · next hl =>
      cases h
      exact .resume (readAtom_ok hr) hl
    · next hl =>
      cases h
      exact .dead (readAtom_ok hr) hl
  · next hblock =>
    cases h
    exact .open (by simpa using hblock)

theorem pipeAutoWrite_ok {s s' : Sys} {p : PipeRef} (h : pipeAutoWrite s p = .ok s') :
    ∃ w cnt sent s₁ s₂, (s.pipes p).writeAtom = some w ∧ Flushed p w cnt sent s s₁ ∧
      cnt = (fifoWrite (s.fifo p) (s.atoms w).fd s.kernel).1 ∧
      fifoAvail (s₁.fifo p) ≠ 0 ∧ Unblock p s₁ s₂ ∧
      (fifoCount (s₁.fifo p) = 0 ∧ s' = s₂.disable w [.write] ∨
        fifoCount (s₁.fifo p) ≠ 0 ∧ s' = s₂) := by
  obtain ⟨⟨cnt, s₁⟩, hwrite, h⟩ := Result.bind_ok h
  obtain ⟨w, sent, hw, hf, hcnt⟩ := pipeFifoWrite_ok hwrite
  simp only at h
  split at h
  · cases h
  · next havail =>
    obtain ⟨s₂, hs₂, h⟩ := Result.bind_ok h
    have hunblock := pipeUnblock_ok hs₂
    have hsame : s₂.fifo p = s₁.fifo p ∧ (s₂.pipes p).writeAtom = (s₁.pipes p).writeAtom := by
      cases hunblock with
      | «open» => exact ⟨rfl, rfl⟩
      | dead => exact ⟨rfl, rfl⟩
      | resume => exact ⟨by simp [Sys.fifo], by simp⟩
    refine ⟨w, cnt, sent, s₁, s₂, hw, hf, hcnt, havail, hunblock, ?_⟩
    split at h
    · next hcount =>
      obtain ⟨w', hw', h⟩ := Result.bind_ok h
      obtain rfl : w' = w := by
        have hw₁ := writeAtom_ok hw'
        rw [hsame.2, (hf.ends p).2, hw] at hw₁
        exact (Option.some.inj hw₁).symm
      cases h
      exact .inl ⟨by rw [← hsame.1]; exact hcount, rfl⟩
    · next hcount =>
      cases h
      exact .inr ⟨by rw [← hsame.1]; exact hcount, rfl⟩

/-- A property that no step disturbs of those that the handling of a pipe is made of. -/
structure Stable (p : PipeRef) (P : Sys → Prop) : Prop where
  flush {s s' : Sys} {w : AtomRef} {cnt : Int} {sent : List UInt8} (hs : P s)
    (hw : (s.pipes p).writeAtom = some w) (h : Flushed p w cnt sent s s') : P s'
  enable {s : Sys} (hs : P s) (a : AtomRef) (flags : List Interest) : P (s.enable a flags)
  disable {s : Sys} (hs : P s) (a : AtomRef) (flags : List Interest) : P (s.disable a flags)
  block {s : Sys} (hs : P s) (b : Bool) : P (s.setPipe p { s.pipes p with blockRead := b })

namespace Stable

variable {p : PipeRef} {P : Sys → Prop} {s s' : Sys}

theorem readRest (hP : Stable p P) (hs : P s) (h : ReadRest s p s') : P s' := by
  cases h with
  | idle => exact hs
  | sent hw hf => exact hP.flush hs hw hf
  | left hw hf => exact hP.enable (hP.flush hs hw hf) _ _
  | full hw hr hf => exact hP.block (hP.disable (hP.enable (hP.flush hs hw hf) _ _) _ _) true

theorem unblock (hP : Stable p P) (hs : P s) (h : Unblock p s s') : P s' := by
  cases h with
  | «open» => exact hs
  | dead => exact hs
  | resume => exact hP.block (hP.enable hs _ _) false

theorem autoWrite (hP : Stable p P) (hs : P s) (h : pipeAutoWrite s p = .ok s') : P s' := by
  obtain ⟨w, cnt, sent, s₁, s₂, hw, hf, -, -, hunblock, hs'⟩ := pipeAutoWrite_ok h
  have h₂ := hP.unblock (hP.flush hs hw hf) hunblock
  obtain ⟨-, rfl⟩ | ⟨-, rfl⟩ := hs'
  · exact hP.disable h₂ _ _
  · exact h₂

end Stable

/-- The part of a text that pipe_write hands to the descriptor at once: none of it if
other text is queued. -/
def immediate (s : Sys) (p : PipeRef) (w : AtomRef) (buf : List UInt8) : Nat :=
  if fifoCount (s.fifo p) = 0 then ((s.kernel.write (s.atoms w).fd buf).1).getD 0 else 0

/-- The kernel that pipe_write leaves. -/
def afterImmediate (s : Sys) (p : PipeRef) (w : AtomRef) (buf : List UInt8) : Kernel :=
  if fifoCount (s.fifo p) = 0 then (s.kernel.write (s.atoms w).fd buf).2 else s.kernel

theorem sent_immediate (s : Sys) (p : PipeRef) (w : AtomRef) (buf : List UInt8) :
    immediate s p w buf ≤ buf.length ∧
      Sent (s.atoms w).fd (buf.take (immediate s p w buf)) s.kernel (afterImmediate s p w buf) := by
  rw [immediate, afterImmediate]
  split
  · obtain ⟨k, hk, hs⟩ | ⟨n, k, hk, hn, hs⟩ := s.kernel.write_cases (s.atoms w).fd buf
    · rw [hk]
      exact ⟨Nat.zero_le _, hs⟩
    · rw [hk]
      exact ⟨hn, hs⟩
  · exact ⟨Nat.zero_le _, .refl _ _⟩

/-- The part that is stored. -/
def stored (s : Sys) (p : PipeRef) (w : AtomRef) (buf : List UInt8) : List UInt8 :=
  (buf.drop (immediate s p w buf)).take (fifoAvail (s.fifo p))

theorem pipeWriteRest_ok {s s' : Sys} {k : Kernel} {p : PipeRef} {w : AtomRef} {rest : List UInt8}
    {n total : Nat} (h : pipeWriteRest { s with kernel := k } p rest n = .ok (total, s'))
    (hw : (s.pipes p).writeAtom = some w) :
    (rest = [] ∧ total = n ∧ s' = ({ s with kernel := k } : Sys).disable w [.write]) ∨
    (rest ≠ [] ∧ total = n + (rest.take (fifoAvail (s.fifo p))).length ∧
      s' = (s.setFifo p (fifoUnsafeAppend (s.fifo p) (rest.take (fifoAvail (s.fifo p)))) k).enable w
        [.write]) := by
  obtain ⟨w', hw', h⟩ := Result.bind_ok h
  have hw₁ : (s.pipes p).writeAtom = some w' := writeAtom_ok (s := { s with kernel := k }) hw'
  obtain rfl : w' = w := Option.some.inj (hw₁.symm.trans hw)
  split at h
  · next hnil =>
    cases h
    exact .inl ⟨hnil, rfl, rfl⟩
  · next hne =>
    have htake : rest.take (min rest.length (fifoAvail (s.fifo p))) =
        rest.take (fifoAvail (s.fifo p)) := by
      rw [Nat.min_comm, ← List.take_take, List.take_length]
    have hlen : (rest.take (fifoAvail (s.fifo p))).length = min rest.length (fifoAvail (s.fifo p)) := by
      rw [List.length_take, Nat.min_comm]
    cases h
    rw [hlen, ← htake]
    exact .inr ⟨hne, rfl, rfl⟩

/-- pipe_write as a whole, with what it returns. -/
theorem pipeWrite_ok {s s' : Sys} {p : PipeRef} {buf : List UInt8} {total : Nat}
    (h : pipeWrite s p buf = .ok (total, s')) :
    ∃ w, (s.pipes p).writeAtom = some w ∧
      total = immediate s p w buf + (stored s p w buf).length ∧
      (immediate s p w buf = buf.length ∧
          s' = ({ s with kernel := afterImmediate s p w buf } : Sys).disable w [.write] ∨
        immediate s p w buf < buf.length ∧
          s' = (s.setFifo p (fifoUnsafeAppend (s.fifo p) (stored s p w buf))
            (afterImmediate s p w buf)).enable w [.write]) := by
  have hrest : ∃ w, (s.pipes p).writeAtom = some w ∧
      pipeWriteRest { s with kernel := afterImmediate s p w buf } p (buf.drop (immediate s p w buf))
        (immediate s p w buf) = .ok (total, s') := by
    rw [pipeWrite] at h
    split at h
    · next hcount =>
      obtain ⟨w, hw, h⟩ := Result.bind_ok h
      refine ⟨w, writeAtom_ok hw, ?_⟩
      rw [immediate, if_pos hcount, afterImmediate, if_pos hcount]
      generalize s.kernel.write (s.atoms w).fd buf = res at h
      obtain ⟨cnt, k⟩ := res
      cases cnt with
      | none => exact h
      | some n => exact h
    · next hcount =>
      obtain ⟨w, hw, -⟩ := Result.bind_ok h
      refine ⟨w, writeAtom_ok hw, ?_⟩
      rw [immediate, if_neg hcount, afterImmediate, if_neg hcount]
      exact h
  obtain ⟨w, hw, hrest⟩ := hrest
  have hn := (sent_immediate s p w buf).1
  refine ⟨w, hw, ?_⟩
  rw [stored]
  obtain ⟨hnil, ht, hs⟩ | ⟨hne, ht, hs⟩ := pipeWriteRest_ok hrest hw
  · refine ⟨by simp [ht, hnil], .inl ⟨?_, hs⟩⟩
    rw [List.drop_eq_nil_iff] at hnil
    omega
  · refine ⟨ht, .inr ⟨?_, hs⟩⟩
    rw [ne_eq, List.drop_eq_nil_iff] at hne
    omega

/-- The bytes that fifo_read is about to get. -/
def arriving (s : Sys) (p : PipeRef) (fd : Int) : List UInt8 :=
  ((s.kernel.read fd (min (fifoAvail (s.fifo p)) bufsiz)).1).getD []

theorem arriving_length (s : Sys) (p : PipeRef) (fd : Int) :
    (arriving s p fd).length ≤ fifoAvail (s.fifo p) := by
  have h := s.kernel.read_length fd (min (fifoAvail (s.fifo p)) bufsiz)
  rw [arriving]
  omega

/-- What a read event brings when no proc looks at it. -/
structure Filled (p : PipeRef) (r : AtomRef) (bytes : List UInt8) (s s' : Sys) : Prop where
  shape : s'.shape = s.shape
  other : ∀ q, q ≠ p → s'.pipes q = s.pipes q
  blockRead : (s'.pipes p).blockRead = (s.pipes p).blockRead
  fifo : s'.fifo p = fifoUnsafeAppend (s.fifo p) bytes
  written : ∀ fd, written fd s'.kernel.trace = written fd s.kernel.trace
  atoms : MayClose r s s'

theorem fifoRead_noProc {s : Sys} {p : PipeRef} (h : (s.fifo p).proc = none) (fd : Int) :
    fifoRead s p fd = .ok (readCount (s.kernel.read fd (min (fifoAvail (s.fifo p)) bufsiz)).1,
      s.setFifo p (fifoUnsafeAppend (s.fifo p) (arriving s p fd))
        (s.kernel.read fd (min (fifoAvail (s.fifo p)) bufsiz)).2) := by
  rw [fifoRead, arriving]
  generalize s.kernel.read fd (min (fifoAvail (s.fifo p)) bufsiz) = res
  obtain ⟨r, k⟩ := res
  have hp : (({ s with kernel := k } : Sys).fifo p).proc = none := h
  simp only [hp]
  split
  · rfl
  · next hcnt =>
    have hnil : r.getD [] = [] := by
      rcases r with _ | _ | ⟨b, bs⟩
      · rfl
      · rfl
      · exact absurd (by simp only [readCount, List.length_cons]; omega) hcnt
    rw [hnil, fifoUnsafeAppend_nil, setFifo_self]

theorem filled_setFifo {s : Sys} (p : PipeRef) (r : AtomRef) (bytes : List UInt8) {k : Kernel}
    (hk : ∀ fd, written fd k.trace = written fd s.kernel.trace) :
    Filled p r bytes s (s.setFifo p (fifoUnsafeAppend (s.fifo p) bytes) k) where
  shape := shape_setFifo s p _ k
  other q hq := setFifo_ne s _ k hq
  blockRead := by rw [setFifo_same]
  fifo := fifo_setFifo s p _ k
  written := hk
  atoms := .same (sameAtoms_setFifo s p _ k)

theorem Filled.closes {s s' : Sys} {p : PipeRef} {r : AtomRef} {bytes : List UInt8}
    (h : Filled p r bytes s s') (hs : SameAtoms s s') : Filled p r bytes s (closeAtom s' r) := by
  obtain ⟨hpipes, -, -, hkernel⟩ := closeAtom_rest s' r
  exact {
    shape := (shape_closeAtom s' r).trans h.shape
    other := fun q hq => by rw [hpipes, h.other q hq]
    blockRead := by rw [hpipes, h.blockRead]
    fifo := by
      rw [Sys.fifo, hpipes]
      exact h.fifo
    written := fun fd => by rw [hkernel, Kernel.written_close, h.written fd]
    atoms := .closed (sameAtoms_closeAtom hs r) }

theorem pipeFifoRead_noProc {s s' : Sys} {p : PipeRef} {cnt : Int} (hproc : (s.fifo p).proc = none)
    (h : pipeFifoRead s p = .ok (cnt, s')) :
    ∃ r, (s.pipes p).readAtom = some r ∧ Filled p r (arriving s p (s.atoms r).fd) s s' := by
  obtain ⟨r, hr, h⟩ := Result.bind_ok h
  rw [fifoRead_noProc hproc] at h
  have hfilled := filled_setFifo p r (arriving s p (s.atoms r).fd)
    (s.kernel.written_read (s.atoms r).fd (min (fifoAvail (s.fifo p)) bufsiz))
  refine ⟨r, readAtom_ok hr, ?_⟩
  change (if _ then _ else _) = _ at h
  split at h
  · obtain ⟨r', hr', h⟩ := Result.bind_ok h
    obtain rfl : r' = r := by
      have h' := readAtom_ok hr'
      rw [setFifo_same] at h'
      exact Option.some.inj (h'.symm.trans (readAtom_ok hr))
    cases h
    exact hfilled.closes (sameAtoms_setFifo s p _ _)
  · cases h
    exact hfilled

end Rzh
