import Rzh.TaskStack

/-!
# What a read event can do

The filter procs change nothing but their own fifo and the scanners, except that a packet
may complete a start sequence, and then a task is installed in the middle of the event.
-/
namespace Rzh

open Circular Sys

/-- What a proc that is called for the fifo of `p` leaves alone. -/
structure Filtered (p : PipeRef) (s s' : Sys) : Prop where
  rest : s' = { s with
    kernel := s'.kernel, pipes := s'.pipes, zscans := s'.zscans, zfins := s'.zfins, fresh := s'.fresh }
  fresh : s.fresh ≤ s'.fresh
  other : ∀ q, q ≠ p → s'.pipes q = s.pipes q
  pipe : s'.pipes p = { s.pipes p with fifo := s'.fifo p }
  size : (s'.fifo p).size = (s.fifo p).size

namespace Filtered

variable {p : PipeRef} {s s' s'' : Sys}

theorem refl (p : PipeRef) (s : Sys) : Filtered p s s :=
  ⟨rfl, Nat.le_refl _, fun _ _ => rfl, rfl, rfl⟩

theorem trans (h : Filtered p s s') (h' : Filtered p s' s'') : Filtered p s s'' where
  rest := by
    have hr := h'.rest
    rw [h.rest] at hr
    exact hr
  fresh := h.fresh.trans h'.fresh
  other q hq := (h'.other q hq).trans (h.other q hq)
  pipe := by rw [h'.pipe, h.pipe]
  size := h'.size.trans h.size

theorem sameAtoms (h : Filtered p s s') : SameAtoms s s' :=
  ⟨by rw [h.rest], by rw [h.rest]⟩

theorem tasks (h : Filtered p s s') : s'.tasks = s.tasks := by rw [h.rest]

theorem ends (h : Filtered p s s') (q : PipeRef) :
    (s'.pipes q).readAtom = (s.pipes q).readAtom ∧ (s'.pipes q).writeAtom = (s.pipes q).writeAtom := by
  by_cases hq : q = p
  · rw [hq, h.pipe]
    exact ⟨rfl, rfl⟩
  · rw [h.other q hq]
    exact ⟨rfl, rfl⟩

theorem wf (h : Filtered p s s') (hwf : s.WF) : s'.WF where
  held a ha := by
    rw [h.tasks] at ha
    exact h.sameAtoms.held.mpr (hwf.held a ha)
  below t ht := by
    rw [h.tasks] at ht
    exact Nat.lt_of_lt_of_le (hwf.below t ht) h.fresh
  nodup := by
    rw [h.tasks]
    exact hwf.nodup
  inUse q a ha := by
    rw [(h.ends q).1, (h.ends q).2] at ha
    rw [h.tasks]
    exact hwf.inUse q a ha
  masterIn := by rw [(h.ends _).2, hwf.masterIn]
  masterOut := by rw [(h.ends _).1, hwf.masterOut]
  top t below he := by
    rw [h.tasks] at he
    rw [(h.ends _).1, (h.ends _).2]
    exact hwf.top t below he

theorem kernel (h : Filtered p s s') (k : Kernel) : Filtered p s { s' with kernel := k } where
  rest := by
    have hr := h.rest
    rw [hr]
  fresh := h.fresh
  other := h.other
  pipe := h.pipe
  size := h.size

theorem setFifo (s : Sys) {f : Fifo} (k : Kernel) (h : f.size = (s.fifo p).size) :
    Filtered p s (s.setFifo p f k) where
  rest := rfl
  fresh := Nat.le_refl _
  other q hq := setFifo_ne s f k hq
  pipe := by rw [setFifo_same, fifo_setFifo]
  size := by rw [fifo_setFifo, h]

theorem setProc (s : Sys) (proc : Option FifoProc) (refcon : Refcon) :
    Filtered p s (Rzh.setProc s p proc refcon) :=
  setFifo s s.kernel rfl

theorem setZfin (s : Sys) (addr : Nat) (state : ZfinScanState) :
    Filtered p s (Rzh.setZfin s addr state) :=
  ⟨rfl, Nat.le_refl _, fun _ _ => rfl, rfl, rfl⟩

end Filtered

section Procs

variable {p : PipeRef} {s s' : Sys} {buf : List UInt8}

theorem zfinSave_ok (h : zfinSave s p buf = .ok s') : Filtered p s s' := by
  rw [zfinSave] at h
  split at h
  · cases h
    exact .refl p s
  · obtain ⟨⟨addr, state⟩, -, h⟩ := Result.bind_ok h
    cases h
    exact .setZfin s _ _

theorem zfinNooo_ok (h : zfinNooo s p buf = .ok s') : Filtered p s s' := by
  rw [zfinNooo] at h
  split at h
  · cases h
    exact .refl p s
  · obtain ⟨⟨addr, state⟩, -, h⟩ := Result.bind_ok h
    simp only at h
    split at h
    · cases h
      exact .setZfin s _ _
    · exact ((Filtered.setZfin s _ _).trans (.setProc _ _ _)).trans (zfinSave_ok h)

theorem taskTerminate_ok (h : taskTerminate s = .ok s') : Filtered p s s' := by
  rw [taskTerminate] at h
  split at h
  · cases h
  · split at h
    · cases h
      exact (Filtered.refl p s).kernel _
    · cases h
      exact .refl p s

theorem zfinTerm_ok (h : zfinTerm s p = .ok s') : Filtered p s s' := by
  obtain ⟨⟨addr, state⟩, -, h⟩ := Result.bind_ok h
  obtain ⟨s₁, h₁, h⟩ := Result.bind_ok h
  cases h
  exact (taskTerminate_ok h₁).trans (.setProc s₁ _ _)

theorem zfinScanCall_size {f f' : Fifo} {state state' : ZfinScanState} {rest : Option (List UInt8)}
    (h : zfinScanCall f state buf = .ok (f', state', rest)) : f'.size = f.size := by
  rw [zfinScanCall] at h
  simp only at h
  split at h
  · cases h
  · split at h
    · cases h
      exact runPuts_size f _
    · cases h
      exact runPuts_size f _

theorem zfinScanProc_ok (h : zfinScanProc s p buf = .ok s') : Filtered p s s' := by
  obtain ⟨⟨addr, state⟩, -, h⟩ := Result.bind_ok h
  simp only at h
  split at h
  · cases h
  · next f state' rest hcall =>
    have h₁ : Filtered p s ((setZfin s addr state').setFifo p f s.kernel) :=
      (Filtered.setZfin s addr state').trans (.setFifo (setZfin s addr state') s.kernel (zfinScanCall_size hcall))
    split at h
    · cases h
      exact h₁
    · split at h
      · exact h₁.trans (zfinNooo_ok h)
      · exact h₁.trans (zfinTerm_ok h)

theorem zscanMakeRoom_size {f f' : Fifo} {fd : Int} {n : Nat} {k k' : Kernel}
    (h : zscanMakeRoom f fd n k = .ok (f', k')) : f'.size = f.size := by
  obtain ⟨sent, f₁, k₁, hw, ⟨he, -⟩ | he⟩ := zscanMakeRoom_wrote f fd n k
  · rw [he] at h
    cases h
    exact hw.size
  · rw [he] at h
    cases h

theorem zscanRemaining_ok {fd : Int} (h : zscanRemaining s p buf fd = .ok s') : Filtered p s s' := by
  rw [zscanRemaining] at h
  split at h
  · cases h
    exact .refl p s
  · split at h
    · cases h
    · next f k hroom =>
      have h₁ : Filtered p s (s.setFifo p f k) := .setFifo s k (zscanMakeRoom_size hroom)
      simp only at h
      split at h
      · exact h₁.trans (zfinScanProc_ok h)
      · exact h₁.trans (zfinNooo_ok h)
      · exact h₁.trans (zfinSave_ok h)
      · exact h₁.trans (zfinTerm_ok h)
      · cases h
        exact h₁
      · cases h
      · cases h
        refine h₁.trans (.setFifo _ k ?_)
        rw [fifo_setFifo, fifoUnsafeAppend_size]

end Procs

/-- A packet that completes a start sequence, on a fifo with a start scanner. -/
def StartsTask (s : Sys) (p : PipeRef) (buf : List UInt8) : Prop :=
  buf ≠ [] ∧ (s.fifo p).proc = some .echoScannerFilterProc ∧
    ∃ addr, (s.fifo p).refcon = .zscan addr ∧ (zrqScan (s.zscans addr) buf).start ≠ none

/-- The ways that a read event goes up to the point where the fifo is written out. -/
inductive ReadEffect (p : PipeRef) (buf : List UInt8) (s : Sys) : Sys → Prop where
  | filtered {s' : Sys} (h : Filtered p s s') : ReadEffect p buf s s'
  | started {s₁ s₂ s' : Sys} {spec : TaskSpec} (hstart : StartsTask s p buf) (h₁ : Filtered p s s₁)
    (hfd : 0 ≤ spec.infd ∧ 0 ≤ spec.outfd) (h₂ : taskInstall s₁ spec = .ok s₂)
    (h₃ : Filtered p s₂ s') : ReadEffect p buf s s'

theorem forkRzProcess_ok {s s' : Sys} {infd outfd errfd pid : Int}
    (h : forkRzProcess s = .ok ((infd, outfd, errfd, pid), s')) :
    0 ≤ infd ∧ 0 ≤ outfd ∧ ∃ k, s' = { s with kernel := k } := by
  rw [forkRzProcess] at h
  split at h
  · cases h
  · cases h
  · cases h
    exact ⟨Int.natCast_nonneg _, Int.natCast_nonneg _, _, rfl⟩

theorem rztaskInstall_ok {s s' : Sys} (p : PipeRef) (h : rztaskInstall s = .ok s') :
    ∃ s₁ spec, Filtered p s s₁ ∧ (0 ≤ spec.infd ∧ 0 ≤ spec.outfd) ∧ taskInstall s₁ spec = .ok s' := by
  obtain ⟨⟨⟨infd, outfd, errfd, pid⟩, s₁⟩, hfork, h⟩ := Result.bind_ok h
  obtain ⟨hin, hout, k, rfl⟩ := forkRzProcess_ok hfork
  refine ⟨(rzCreateSpec { s with kernel := k } infd outfd errfd pid).2, _, ?_, ⟨hin, hout⟩, h⟩
  exact ⟨rfl, Nat.le_add_right _ _, fun _ _ => rfl, rfl, rfl⟩

theorem zscanPrepare_size {f f' : Fifo} {fd : Int} {k k' : Kernel}
    (h : zscanPrepare f fd k = .ok (f', k')) : f'.size = f.size := by
  rw [zscanPrepare] at h
  obtain ⟨-, f₁, k₁, he, -, hw⟩ | ⟨-, sent, f₁, k₁, he, -⟩ := fifoDrainCompletely_cases f fd k
  · rw [he] at h
    cases h
    exact hw.size
  · rw [he] at h
    cases h

theorem echoScannerCall_ok {f : Fifo} {conn : ZScanState} {buf : List UInt8} {fd : Int} {k : Kernel}
    {c : ZrqCall} (hbuf : buf ≠ []) (h : echoScannerCall f conn buf fd k = .ok c) :
    c.fifo.size = f.size ∧ c.started = (zrqScan conn buf).start := by
  rw [echoScannerCall, if_neg hbuf, zrqScanCall] at h
  split at h
  · next hstart =>
    cases h
    exact ⟨runPuts_size f _, hstart.symm⟩
  · next rest hstart =>
    split at h
    · cases h
    · next f' k' hprep =>
      cases h
      exact ⟨(zscanPrepare_size hprep).trans (runPuts_size f _), hstart.symm⟩

theorem echoScannerFilterProc_ok {s s' : Sys} {p : PipeRef} {buf : List UInt8} {fd : Int}
    (hproc : (s.fifo p).proc = some .echoScannerFilterProc)
    (h : echoScannerFilterProc s p buf fd = .ok s') : ReadEffect p buf s s' := by
  rw [echoScannerFilterProc] at h
  split at h
  · cases h
    exact .filtered (.refl p s)
  · next hbuf =>
    split at h
    · next addr hrefcon =>
      split at h
      · cases h
      · next c hcall =>
        obtain ⟨hsize, hstarted⟩ := echoScannerCall_ok hbuf hcall
        let s₀ : Sys := { s with zscans := Function.update s.zscans addr c.conn }
        have hs₀ : Filtered p s s₀ := ⟨rfl, Nat.le_refl _, fun _ _ => rfl, rfl, rfl⟩
        have h₁ : Filtered p s (s₀.setFifo p c.fifo c.kernel) := hs₀.trans (.setFifo s₀ c.kernel hsize)
        simp only at h
        split at h
        · cases h
          exact .filtered h₁
        · next rest hrest =>
          obtain ⟨s₂, hinstall, h⟩ := Result.bind_ok h
          obtain ⟨s₃, spec, h₃, hfd, htask⟩ := rztaskInstall_ok p hinstall
          refine .started ⟨hbuf, hproc, addr, hrefcon, ?_⟩ ((h₁.kernel _).trans h₃) hfd htask
            (zscanRemaining_ok h)
          rw [← hstarted, hrest]
          exact Option.some_ne_none rest
    · cases h

theorem callProc_ok {s s' : Sys} {p : PipeRef} {proc : FifoProc} {buf : List UInt8} {fd : Int}
    (hproc : (s.fifo p).proc = some proc) (h : callProc s p proc buf fd = .ok s') :
    ReadEffect p buf s s' := by
  cases proc with
  | echoScannerFilterProc => exact echoScannerFilterProc_ok hproc h
  | zfinScan => exact .filtered (zfinScanProc_ok h)
  | zfinNooo => exact .filtered (zfinNooo_ok h)
  | zfinSave => exact .filtered (zfinSave_ok h)
  | zfinTerm => exact .filtered (zfinTerm_ok h)
  | zfinDrop =>
    cases h
    exact .filtered (.refl p s)

theorem ReadEffect.kernel {p : PipeRef} {buf : List UInt8} {s s' : Sys} {k : Kernel}
    (h : ReadEffect p buf { s with kernel := k } s') : ReadEffect p buf s s' := by
  have hk : Filtered p s { s with kernel := k } := (Filtered.refl p s).kernel k
  cases h with
  | filtered h => exact .filtered (hk.trans h)
  | started hstart h₁ hfd h₂ h₃ => exact .started hstart (hk.trans h₁) hfd h₂ h₃

/-- fifo_read, whatever the proc, and whatever the count. -/
theorem fifoRead_ok {s s' : Sys} {p : PipeRef} {fd cnt : Int} (h : fifoRead s p fd = .ok (cnt, s')) :
    ReadEffect p (arriving s p fd) s s' := by
  rw [fifoRead] at h
  rw [arriving]
  generalize s.kernel.read fd (min (fifoAvail (s.fifo p)) bufsiz) = res at h
  obtain ⟨r, k⟩ := res
  simp only at h
  split at h
  · next proc hproc =>
    obtain ⟨s₁, h₁, h⟩ := Result.bind_ok h
    have heffect := (callProc_ok hproc h₁).kernel
    split at h
    · cases h
      exact heffect
    · cases h
      exact heffect
  · have hk : Filtered p s { s with kernel := k } := (Filtered.refl p s).kernel k
    split at h
    · cases h
      exact .filtered (hk.trans (.setFifo { s with kernel := k } k (fifoUnsafeAppend_size _ _)))
    · cases h
      exact .filtered hk

/-- pipe_fifo_read is a fifo_read, and the closing of the reader perhaps. -/
theorem pipeFifoRead_ok {s s' : Sys} {p : PipeRef} {cnt : Int} (h : pipeFifoRead s p = .ok (cnt, s')) :
    ∃ r s₁, (s.pipes p).readAtom = some r ∧ fifoRead s p (s.atoms r).fd = .ok (cnt, s₁) ∧
      ((cnt ≠ -2 ∧ s' = s₁) ∨
        (cnt = -2 ∧ ∃ r', (s₁.pipes p).readAtom = some r' ∧ s' = closeAtom s₁ r')) := by
  obtain ⟨r, hr, h⟩ := Result.bind_ok h
  obtain ⟨⟨cnt', s₁⟩, hfifo, h⟩ := Result.bind_ok h
  simp only at h
  split at h
  · next heof =>
    obtain ⟨r', hr', h⟩ := Result.bind_ok h
    cases h
    exact ⟨r, s₁, readAtom_ok hr, hfifo, .inr ⟨heof, r', readAtom_ok hr', rfl⟩⟩
  · next hno =>
    cases h
    exact ⟨r, s', readAtom_ok hr, hfifo, .inl ⟨hno, rfl⟩⟩

/-- The steps of pipe_auto_read: the packet, perhaps the closing of the reader, and the rest. -/
theorem pipeAutoRead_steps {s s' : Sys} {p : PipeRef} (h : pipeAutoRead s p = .ok s') :
    ∃ cnt r s₁ s₂, (s.pipes p).readAtom = some r ∧ fifoAvail (s.fifo p) ≠ 0 ∧
      fifoRead s p (s.atoms r).fd = .ok (cnt, s₁) ∧
      (s₂ = s₁ ∨ ∃ r', (s₁.pipes p).readAtom = some r' ∧ s₂ = closeAtom s₁ r') ∧
      pipeAutoReadRest s₂ p = .ok s' := by
  rw [pipeAutoRead] at h
  split at h
  · cases h
  · next havail =>
    obtain ⟨⟨cnt, s₂⟩, hread, h⟩ := Result.bind_ok h
    obtain ⟨r, s₁, hr, hfifo, hclose⟩ := pipeFifoRead_ok hread
    refine ⟨cnt, r, s₁, s₂, hr, havail, hfifo, ?_, h⟩
    obtain ⟨-, hsame⟩ | ⟨-, hclosed⟩ := hclose
    · exact .inl hsame
    · exact .inr hclosed

/-- pipe_auto_read as a whole: what the packet does, the closing of the reader perhaps, and
then what is queued is written out. -/
theorem pipeAutoRead_ok {s s' : Sys} {p : PipeRef} (h : pipeAutoRead s p = .ok s') :
    ∃ r s₁ s₂, (s.pipes p).readAtom = some r ∧ fifoAvail (s.fifo p) ≠ 0 ∧
      ReadEffect p (arriving s p (s.atoms r).fd) s s₁ ∧
      (s₂ = s₁ ∨ ∃ r', (s₁.pipes p).readAtom = some r' ∧ s₂ = closeAtom s₁ r') ∧
      ReadRest s₂ p s' := by
  obtain ⟨cnt, r, s₁, s₂, hr, havail, hfifo, hclose, h⟩ := pipeAutoRead_steps h
  exact ⟨r, s₁, s₂, hr, havail, fifoRead_ok hfifo, hclose, pipeAutoReadRest_ok h⟩

end Rzh
