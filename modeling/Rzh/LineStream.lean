import Rzh.Session
import Rzh.ZfinThrough

/-!
# The stream to the master

What is typed goes to the master, and during a transfer what the receive process says, up to its ZFIN. Tasks
come and go, and all of it takes the same ring.
-/
namespace Rzh

open Circular Sys

/-- The bytes that have been accepted, whatever the descriptor. -/
def sentBytes (calls : List Call) : List UInt8 :=
  calls.flatMap fun
    | .write _ bytes => bytes
    | _ => []

/-- What a read event of the input is about to take in. -/
def inputPacket (s : Sys) : List UInt8 :=
  match (s.pipes .inputMaster).readAtom with
  | some r => arriving s .inputMaster (s.atoms r).fd
  | none => []

/-- What the proc of the input leaves of a packet. -/
def letThrough (s : Sys) (packet : List UInt8) : List UInt8 :=
  match (s.fifo .inputMaster).proc, (s.fifo .inputMaster).refcon with
  | none, _ => packet
  | some .zfinScan, .zfin a => putBytes (zfinScan (s.zfins a).ref packet).puts
  | _, _ => []

/-- What a move adds to the stream. -/
def heard (s : Sys) : Move → List UInt8
  | .event (.autoRead .inputMaster) => letThrough s (inputPacket s)
  | _ => []

/-- What a move takes from its front. -/
def told (m : Move) (s s' : Sys) : List UInt8 :=
  if m.pipe = some .inputMaster then sentBytes (newCalls s s') else []

section Tells

variable {W : Int → Prop} {s s' s'' : Sys} {went went' : List UInt8}

theorem sentBytes_append (calls calls' : List Call) :
    sentBytes (calls ++ calls') = sentBytes calls ++ sentBytes calls' := by simp [sentBytes]

theorem sentBytes_chunks (fd : Int) (chunks : List (List UInt8)) :
    sentBytes (chunks.map (Call.write fd)) = chunks.flatten := by
  induction chunks with
  | nil => rfl
  | cons bytes chunks ih => exact congrArg (bytes ++ ·) ih

/-- Every byte has gone somewhere. -/
theorem length_sentBytes (calls : List Call) : (sentBytes calls).length = (receivers calls).length := by
  induction calls with
  | nil => rfl
  | cons c calls ih =>
    rw [← List.singleton_append, sentBytes_append, receivers_append, List.length_append, List.length_append, ih]
    cases c with
    | write fd bytes => simp [sentBytes, receivers]
    | read => rfl
    | close => rfl
    | kill => rfl
    | startProc => rfl

/-- From `s` to `s'` these bytes have been accepted, by descriptors that `W` is true of. -/
def Tells (W : Int → Prop) (went : List UInt8) (s s' : Sys) : Prop :=
  ∃ calls, s'.kernel.trace = s.kernel.trace ++ calls ∧ (∀ fd ∈ receivers calls, W fd) ∧ sentBytes calls = went

theorem Tells.newCalls (h : Tells W went s s') :
    sentBytes (newCalls s s') = went ∧ ∀ fd ∈ receivers (newCalls s s'), W fd := by
  obtain ⟨calls, htrace, hto, hsent⟩ := h
  rw [Rzh.newCalls, htrace, List.drop_left]
  exact ⟨hsent, hto⟩

theorem Tells.trans (h : Tells W went s s') (h' : Tells W went' s' s'') : Tells W (went ++ went') s s'' := by
  obtain ⟨calls, htrace, hto, hsent⟩ := h
  obtain ⟨calls', htrace', hto', hsent'⟩ := h'
  refine ⟨calls ++ calls', ?_, fun fd hfd => ?_, ?_⟩
  · rw [htrace', htrace, List.append_assoc]
  · rw [receivers_append] at hfd
    obtain hfd | hfd := List.mem_append.mp hfd
    · exact hto fd hfd
    · exact hto' fd hfd
  · rw [sentBytes_append, hsent, hsent']

/-- Where nothing is written nothing is told. -/
theorem Tells.of_does {n : Nat} {fds : List Int} (h : Does (fun _ => False) n fds s s') : Tells W [] s s' := by
  obtain ⟨-, calls, htrace, hto, -⟩ := h
  have hnone : receivers calls = [] := List.eq_nil_iff_forall_not_mem.mpr hto
  refine ⟨calls, htrace, fun fd hfd => (hto fd hfd).elim, ?_⟩
  apply List.eq_nil_of_length_eq_zero
  rw [length_sentBytes, hnone]
  rfl

theorem Tells.sent {fd : Int} {bytes : List UInt8} (hW : 0 ≤ fd → W fd) (h : Sent fd bytes s.kernel s'.kernel) :
    Tells W bytes s s' := by
  obtain ⟨chunks, hbytes, htrace⟩ := h.trace
  refine ⟨_, htrace, fun fd' hfd' => ?_, by rw [sentBytes_chunks, hbytes]⟩
  rw [Sent.receivers_chunks, hbytes] at hfd'
  obtain ⟨hne, rfl⟩ := List.mem_replicate.mp hfd'
  apply hW
  by_contra hneg
  rw [h.closed (Int.not_le.mp hneg)] at hne
  exact hne rfl

end Tells

section Carries

variable {s s' s₀ : Sys} {came : List UInt8} {fd : Int}

/-- What was queued and what has come in has been told, or is still queued; all of it to the master. -/
structure Carries (fd : Int) (came : List UInt8) (s s' : Sys) : Prop where
  writer : (s'.pipes .inputMaster).writeAtom = some .master
  master : (s'.atoms .master).fd = fd ∨ (s'.atoms .master).fd = -1
  queue : ∃ went, Tells (· = fd) went s s' ∧
    (s.fifo .inputMaster).contents ++ came = went ++ (s'.fifo .inputMaster).contents

theorem Carries.quiet {s'' : Sys} (h : Carries fd came s s')
    (hw : (s''.pipes .inputMaster).writeAtom = (s'.pipes .inputMaster).writeAtom)
    (hmaster : (s''.atoms .master).fd = (s'.atoms .master).fd) (hkernel : s''.kernel = s'.kernel)
    (hfifo : s''.fifo .inputMaster = s'.fifo .inputMaster) : Carries fd came s s'' where
  writer := hw.trans h.writer
  master := by
    rw [hmaster]
    exact h.master
  queue := by
    obtain ⟨went, ⟨calls, htrace, hto, hsent⟩, hqueue⟩ := h.queue
    refine ⟨went, ⟨calls, ?_, hto, hsent⟩, ?_⟩
    · rw [hkernel, htrace]
    · rw [hfifo, hqueue]

theorem Carries.sent {s'' : Sys} {bytes : List UInt8} {k : Kernel} (h : Carries fd came s s')
    (hw : (s''.pipes .inputMaster).writeAtom = (s'.pipes .inputMaster).writeAtom)
    (hmaster : (s''.atoms .master).fd = (s'.atoms .master).fd ∨ (s''.atoms .master).fd = -1)
    (hwrote : Wrote (s'.atoms .master).fd bytes (s'.fifo .inputMaster) (s''.fifo .inputMaster) s'.kernel k)
    (hkernel : s''.kernel = k ∨ s''.kernel = k.close (s'.atoms .master).fd) : Carries fd came s s'' where
  writer := hw.trans h.writer
  master := by
    obtain he | he := hmaster
    · rw [he]
      exact h.master
    · exact .inr he
  queue := by
    obtain ⟨went, htold, hqueue⟩ := h.queue
    have hW : 0 ≤ (s'.atoms .master).fd → (s'.atoms .master).fd = fd := by
      intro hl
      obtain he | he := h.master
      · exact he
      · omega
    let s₁ : Sys := { s'' with kernel := k }
    have hsent : Tells (· = fd) bytes s' s₁ := .sent hW hwrote.sent
    have hclose : Tells (· = fd) [] s₁ s'' := by
      obtain he | he := hkernel
      · exact .of_does (.of_kernel he)
      · refine ⟨[.close (s'.atoms .master).fd], ?_, fun fd hfd => ?_, rfl⟩
        · rw [he]
          rfl
        · cases hfd
    refine ⟨went ++ bytes, ?_, ?_⟩
    · have htold' := (htold.trans hsent).trans hclose
      rwa [List.append_nil] at htold'
    · rw [hqueue, hwrote.contents, List.append_assoc]

theorem stable_carries (fd : Int) (came : List UInt8) (s : Sys) : Stable .inputMaster (Carries fd came s) where
  flush {s' s'' w cnt sent} h hw hf := by
    obtain rfl := Option.some.inj (hw.symm.trans h.writer)
    obtain ⟨k, hwrote, hkernel⟩ := hf.wrote
    refine h.sent (hf.ends .inputMaster).2 ?_ hwrote hkernel
    obtain he | ⟨-, he⟩ := hf.atoms.fd .master
    · exact .inl he
    · exact .inr he
  enable h _ _ := h.quiet rfl rfl rfl rfl
  disable h _ _ := h.quiet rfl rfl rfl rfl
  block h b := h.quiet (by rw [setPipe_same]) rfl rfl (by simp [Sys.fifo])

end Carries

section Moves

variable {s s' s₁ : Sys} {mode : Mode} {m : Move} {fd cnt : Int} {came : List UInt8}

theorem Carries.refl (hwf : s.WF) : Carries (s.atoms .master).fd [] s s where
  writer := hwf.masterIn
  master := .inl rfl
  queue := ⟨[], .of_does (.refl _ s), List.append_nil _⟩

/-- Its reader is not the master's atom. -/
theorem Carries.closeAtom {a : AtomRef} (h : Carries fd came s s') (ha : a ≠ .master) :
    Carries fd came s (Rzh.closeAtom s' a) := by
  obtain ⟨hpipes, -, -, -⟩ := closeAtom_rest s' a
  obtain ⟨went, htold, hqueue⟩ := h.queue
  refine ⟨?_, ?_, went ++ [], htold.trans (.of_does (.closeAtom s' a)), ?_⟩
  · rw [hpipes]
    exact h.writer
  · rw [closeAtom_atoms, Function.update_of_ne ha.symm]
    exact h.master
  · rw [List.append_nil, hqueue, Sys.fifo, Sys.fifo, hpipes]

/-- What an end scanner of the input does to the ring. -/
theorem EndScanner.carries {a : Nat} {k : Kernel} {proc : FifoProc} {packet : List UInt8}
    (hs : EndScanner .inputMaster a .zfinTerm s) (hproc : (s.fifo .inputMaster).proc = some proc)
    (hfits : packet.length ≤ fifoAvail (s.fifo .inputMaster))
    (h : callProc { s with kernel := k } .inputMaster proc packet fd = .ok s') :
    (s'.fifo .inputMaster).contents = (s.fifo .inputMaster).contents ++ letThrough s packet := by
  have hmem : proc ∈ ZfinFound.procs .zfinTerm := by
    obtain ⟨proc', hmem, hproc'⟩ := hs.proc
    obtain rfl := Option.some.inj (hproc'.symm.trans hproc)
    exact hmem
  rw [letThrough, hproc, hs.refcon]
  simp only [ZfinFound.procs, List.mem_cons, List.not_mem_nil, or_false] at hmem
  obtain rfl | rfl | rfl := hmem
  · obtain ⟨addr, hrefcon, hring⟩ := zfinScanProc_ring h
    obtain rfl := Refcon.zfin.inj (hrefcon.symm.trans hs.refcon)
    have hpre := zfinScan_begins (s.zfins addr).ref packet
    rw [← runPuts_contents (s.fifo .inputMaster) _ (hpre.length_le.trans hfits), Fifo.contents, Fifo.contents, hring]
    rfl
  · rw [Fifo.contents, zfinTerm_ring h]
    exact (List.append_nil _).symm
  · cases h
    exact (List.append_nil _).symm

theorem fifoRead_carries (hwf : s.WF) (hmode : InMode s mode) (h : fifoRead s .inputMaster fd = .ok (cnt, s')) :
    Carries (s.atoms .master).fd (letThrough s (arriving s .inputMaster fd)) s s' := by
  have hfits := arriving_length s .inputMaster fd
  cases hproc : (s.fifo .inputMaster).proc with
  | none =>
    rw [fifoRead_noProc hproc] at h
    cases h
    refine ⟨?_, .inl rfl, [], .of_does (.read s fd _), ?_⟩
    · rw [setFifo_same]
      exact hwf.masterIn
    · rw [letThrough, hproc, fifo_setFifo, fifoUnsafeAppend_contents _ _ hfits]
      rfl
  | some proc =>
    cases hmode with
    | echo _ _ hin =>
      rw [hin] at hproc
      cases hproc
    | @transfer _ _ a _ _ _ _ hin =>
      have hscan : proc ≠ .echoScannerFilterProc := by
        rintro rfl
        obtain ⟨proc', hmem, hproc'⟩ := hin.proc
        obtain rfl := Option.some.inj (hproc'.symm.trans hproc)
        simp [ZfinFound.procs] at hmem
      obtain ⟨k, hk, hcall⟩ := fifoRead_callProc hproc h
      have hread : Does (fun _ => False) 0 [] s { s with kernel := k } := by
        rw [← hk]
        exact .read s fd _
      have hdoes := callProc_does (W := fun _ => False) hscan { s with kernel := k } .inputMaster
        (arriving s .inputMaster fd) fd
      rw [hcall] at hdoes
      have hcontents := hin.carries hproc hfits hcall
      have hrest : (s'.pipes .inputMaster).writeAtom = (s.pipes .inputMaster).writeAtom ∧ s'.atoms = s.atoms := by
        cases callProc_ok (s := { s with kernel := k }) hproc hcall with
        | filtered hf => exact ⟨by rw [hf.pipe], hf.sameAtoms.atoms⟩
        | started hstart =>
          obtain ⟨-, hscanner, -⟩ := hstart
          exact absurd (Option.some.inj (hproc.symm.trans hscanner)) hscan
      refine ⟨hrest.1.trans hwf.masterIn, .inl (by rw [hrest.2]), [], .of_does (hread.trans hdoes), ?_⟩
      rw [hcontents]
      rfl

theorem autoRead_carries (hwf : s.WF) (hmode : InMode s mode) (h : pipeAutoRead s .inputMaster = .ok s') :
    Carries (s.atoms .master).fd (letThrough s (inputPacket s)) s s' := by
  obtain ⟨cnt, r, s₁, s₂, hr, -, hfifo, hclose, hrest⟩ := pipeAutoRead_steps h
  have hpacket : inputPacket s = arriving s .inputMaster (s.atoms r).fd := by rw [inputPacket, hr]
  have hwf₁ := (fifoRead_ok hfifo).wf hwf
  have hread := fifoRead_carries hwf hmode hfifo
  rw [← hpacket] at hread
  have hclosed : Carries (s.atoms .master).fd (letThrough s (inputPacket s)) s s₂ := by
    obtain rfl | ⟨r', hr', rfl⟩ := hclose
    · exact hread
    · apply hread.closeAtom
      rintro rfl
      cases htasks : s₁.tasks with
      | nil =>
        have hgoes := (fifoRead_mode hwf hmode .inputMaster (s.atoms r).fd).of_ok hfifo
        exact hgoes.tasks_ne_nil htasks
      | cons top below =>
        rw [(hwf₁.top top below htasks).1] at hr'
        cases hr'
  exact (stable_carries _ _ s).readRest hclosed (pipeAutoReadRest_ok hrest)

theorem finalWrite_carries (hwf : s.WF) (h : finalWrite s = .ok s') : Carries (s.atoms .master).fd [] s s' := by
  obtain ⟨w, hw, ⟨rfl, -⟩ | rfl⟩ := finalWrite_ok h
  · exact .refl hwf
  · obtain rfl := Option.some.inj (hw.symm.trans hwf.masterIn)
    obtain ⟨sent, hwrote, -⟩ := fifoWrite_wrote (s.fifo .inputMaster) (s.atoms .master).fd s.kernel
    let s' := s.setFifo .inputMaster (fifoWrite (s.fifo .inputMaster) (s.atoms .master).fd s.kernel).2.1
      (fifoWrite (s.fifo .inputMaster) (s.atoms .master).fd s.kernel).2.2
    have hwrote' :
        Wrote (s.atoms .master).fd sent (s.fifo .inputMaster) (s'.fifo .inputMaster) s.kernel s'.kernel := by
      rw [fifo_setFifo]
      exact hwrote
    exact (Carries.refl hwf).sent (by rw [setFifo_same]) (.inl rfl) hwrote' (.inl rfl)

/-- What is typed or said goes into the ring behind what is there, and from its front to the master. -/
theorem move_carries (hwf : s.WF) (hmode : InMode s mode) (hown : m.Own) (hm : m.pipe = some .inputMaster)
    (h : m.run s = .ok s') : Carries (s.atoms .master).fd (heard s m) s s' := by
  cases m with
  | event e =>
    cases e with
    | echoScanner => cases hm
    | install spec => cases hm
    | write p buf => exact hown.elim
    | autoRead p =>
      cases hm
      exact autoRead_carries hwf hmode h
    | autoWrite p =>
      cases hm
      exact (stable_carries _ [] s).autoWrite (.refl hwf) h
    | remove => cases hm
  | finalWrite => exact finalWrite_carries hwf h
  | typing a => cases hm
  | cherr a => cases hm

theorem fifo_blocked (p : PipeRef) {q : PipeRef} (hq : q ≠ p) (s : Sys) (b : Bool) :
    (s.setPipe p { s.pipes p with blockRead := b }).fifo q = s.fifo q := fifo_eq (setPipe_ne _ _ hq)

/-- The events of the other pipe do nothing to this ring. -/
theorem stable_aside {p q : PipeRef} (hq : q ≠ p) (f : Fifo) : Stable p (fun s => s.fifo q = f) where
  flush hs _ h := by rw [fifo_eq (h.other q hq), hs]
  enable hs _ _ := hs
  disable hs _ _ := hs
  block hs b := by rw [fifo_blocked _ hq, hs]

theorem autoRead_aside (hwf : s.WF) (h : pipeAutoRead s .masterOutput = .ok s') :
    (s'.fifo .inputMaster).contents = (s.fifo .inputMaster).contents := by
  obtain ⟨cnt, r, s₁, s₂, -, -, hfifo, hclose, hrest⟩ := pipeAutoRead_steps h
  have hread : (s₁.fifo .inputMaster).contents = (s.fifo .inputMaster).contents := by
    cases fifoRead_ok hfifo with
    | filtered hf => rw [fifo_eq (hf.other .inputMaster (by decide))]
    | started _ h₁ hfd h₂ h₃ =>
      have hin := (taskInstall_ok (h₁.wf hwf) h₂).inputMaster
      rw [fifo_eq (h₃.other .inputMaster (by decide)), ← fifo_eq (h₁.other .inputMaster (by decide)), Sys.fifo, hin]
  have hclosed : (s₂.fifo .inputMaster).contents = (s.fifo .inputMaster).contents := by
    obtain rfl | ⟨r', -, rfl⟩ := hclose
    · exact hread
    · obtain ⟨hpipes, -, -, -⟩ := closeAtom_rest s₁ r'
      rw [Sys.fifo, hpipes]
      exact hread
  rw [(stable_aside (q := .inputMaster) (by decide) _).readRest rfl (pipeAutoReadRest_ok hrest), hclosed]

theorem taskRemove_aside (hwf : s.WF) (h : taskRemove s = .ok s') :
    (s'.fifo .inputMaster).contents = (s.fifo .inputMaster).contents := by
  obtain ⟨task, top, below, s₁, s₂, -, hun, hwrites, rfl⟩ := taskRemove_ok hwf h
  have hw : (s₁.pipes .masterOutput).writeAtom = some (.write top.addr) := by rw [hun.masterOutput]
  change (s₂.fifo .inputMaster).contents = _
  rw [fifo_eq ((pipeWrites_poured hwrites hw).other .inputMaster (by decide)), Sys.fifo, hun.inputMaster]

/-- Nothing else that the program does adds to the ring or takes from it. -/
theorem move_aside (hwf : s.WF) (hown : m.Own) (hm : m.pipe ≠ some .inputMaster) (h : m.run s = .ok s') :
    heard s m = [] ∧ told m s s' = [] ∧ (s'.fifo .inputMaster).contents = (s.fifo .inputMaster).contents := by
  have htold : told m s s' = [] := by rw [told, if_neg hm]
  cases m with
  | event e =>
    cases e with
    | echoScanner => exact hown.elim
    | install spec => exact hown.elim
    | write p buf => exact hown.elim
    | autoRead p =>
      cases p with
      | inputMaster => exact absurd rfl hm
      | masterOutput => exact ⟨rfl, htold, autoRead_aside hwf h⟩
    | autoWrite p =>
      cases p with
      | inputMaster => exact absurd rfl hm
      | masterOutput =>
        have hkept := (stable_aside (q := .inputMaster) (by decide) _).autoWrite (s := s) rfl h
        exact ⟨rfl, htold, congrArg Fifo.contents hkept⟩
    | remove => exact ⟨rfl, htold, taskRemove_aside hwf h⟩
  | finalWrite => exact absurd rfl hm
  | typing a =>
    obtain ⟨pids, rfl⟩ := typingIoProc_ok h
    exact ⟨rfl, htold, rfl⟩
  | cherr a =>
    obtain ⟨-, hrest⟩ := cherrProc_ok h
    refine ⟨rfl, htold, ?_⟩
    rw [hrest]
    rfl

end Moves

end Rzh
