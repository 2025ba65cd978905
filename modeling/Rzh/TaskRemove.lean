import Rzh.TaskStack

/-!
# Taking a task off the stack

The task below gets the pipes back before the destructor of the removed task runs, so what
the destructor writes goes to the task below.
-/
namespace Rzh

open Circular Sys

/-- Calls of pipe_write one after the other. -/
inductive PipeWrites (p : PipeRef) : List (List UInt8) → Sys → Sys → Prop where
  | nil (s : Sys) : PipeWrites p [] s s
  | cons {text : List UInt8} {texts : List (List UInt8)} {total : Nat} {s s₁ s₂ : Sys}
    (h : pipeWrite s p text = .ok (total, s₁)) (hs : PipeWrites p texts s₁ s₂) :
    PipeWrites p (text :: texts) s s₂

theorem PipeWrites.append {p : PipeRef} {ts us : List (List UInt8)} {s s₁ s₂ : Sys}
    (h : PipeWrites p ts s s₁) (h' : PipeWrites p us s₁ s₂) : PipeWrites p (ts ++ us) s s₂ := by
  induction h with
  | nil => exact h'
  | cons hw _ ih => exact .cons hw (ih h')

/-- What only goes through the pipe `p` and its writer `w`. -/
structure Poured (p : PipeRef) (w : AtomRef) (s s' : Sys) : Prop where
  rest : s' = { s with kernel := s'.kernel, io := s'.io, pipes := s'.pipes }
  connections : s'.io.connections = s.io.connections
  other : ∀ q, q ≠ p → s'.pipes q = s.pipes q
  pipe : s'.pipes p = { s.pipes p with fifo := s'.fifo p }
  size : (s'.fifo p).size = (s.fifo p).size
  wants : s.Held w → ∀ b, s.Held b → ∀ i, b = w ∧ i = .write ∨ s'.wants i b = s.wants i b

namespace Poured

variable {p : PipeRef} {w : AtomRef} {s s' s'' : Sys}

theorem refl (p : PipeRef) (w : AtomRef) (s : Sys) : Poured p w s s :=
  ⟨rfl, rfl, fun _ _ => rfl, rfl, rfl, fun _ _ _ _ => .inr rfl⟩

theorem atoms (h : Poured p w s s') : s'.atoms = s.atoms := by
  rw [h.rest]

theorem tasks (h : Poured p w s s') : s'.tasks = s.tasks := by
  rw [h.rest]

theorem held (h : Poured p w s s') {a : AtomRef} (ha : s.Held a) : s'.Held a := by
  intro hl
  rw [Sys.live, h.atoms] at hl
  obtain ⟨hn, hle, hc⟩ := ha hl
  rw [h.atoms]
  exact ⟨hn, hle, by rw [h.connections, hc]⟩

theorem trans (h : Poured p w s s') (h' : Poured p w s' s'') : Poured p w s s'' where
  rest := by
    have hr := h'.rest
    rw [h.rest] at hr
    exact hr
  connections := h'.connections.trans h.connections
  other q hq := (h'.other q hq).trans (h.other q hq)
  pipe := by
    rw [h'.pipe, h.pipe]
  size := h'.size.trans h.size
  wants hw b hb i := by
    obtain he | he := h'.wants (h.held hw) b (h.held hb) i
    · exact .inl he
    · rw [he]
      exact h.wants hw b hb i

theorem shape (h : Poured p w s s') : s'.shape = s.shape := by
  have hends : ∀ q, (s'.pipes q).readAtom = (s.pipes q).readAtom ∧
      (s'.pipes q).writeAtom = (s.pipes q).writeAtom := by
    intro q
    by_cases hq : q = p
    · rw [hq, h.pipe]
      exact ⟨rfl, rfl⟩
    · rw [h.other q hq]
      exact ⟨rfl, rfl⟩
  have hread : (fun q => (s'.pipes q).readAtom) = fun q => (s.pipes q).readAtom := by
    funext q
    exact (hends q).1
  have hwrite : (fun q => (s'.pipes q).writeAtom) = fun q => (s.pipes q).writeAtom := by
    funext q
    exact (hends q).2
  have hr := h.rest
  simp only [Sys.shape, hread, hwrite]
  rw [hr]

theorem kernel (h : Poured p w s s') (k : Kernel) : Poured p w s { s' with kernel := k } where
  rest := by
    have hr := h.rest
    rw [hr]
  connections := h.connections
  other := h.other
  pipe := h.pipe
  size := h.size
  wants := h.wants

end Poured

section PipeWrite

variable {p : PipeRef} {w : AtomRef} {s s' : Sys} {buf : List UInt8} {total : Nat}

theorem pipeWrite_poured (hw : (s.pipes p).writeAtom = some w)
    (h : pipeWrite s p buf = .ok (total, s')) : Poured p w s s' := by
  obtain ⟨w', hw', -, hs'⟩ := pipeWrite_ok h
  obtain rfl := Option.some.inj (hw'.symm.trans hw)
  obtain ⟨-, rfl⟩ | ⟨-, rfl⟩ := hs'
  · refine ⟨rfl, ioDisable_connections, fun _ _ => rfl, rfl, rfl, fun hheld b hb i => ?_⟩
    have hd := wants_disable (s := { s with kernel := afterImmediate s p w' buf }) hheld hb
      [.write] i
    rw [hd]
    split
    · next he => exact .inl ⟨he.1, by simpa using he.2⟩
    · exact .inr rfl
  · let s₁ := s.setFifo p (fifoUnsafeAppend (s.fifo p) (stored s p w' buf)) (afterImmediate s p w' buf)
    have hsame : SameAtoms s s₁ := sameAtoms_setFifo s p _ _
    refine ⟨rfl, ioEnable_connections, fun q hq => setFifo_ne s _ (afterImmediate s p w' buf) hq,
      ?_, ?_, fun hheld b hb i => ?_⟩
    · change s₁.pipes p = { s.pipes p with fifo := s₁.fifo p }
      rw [setFifo_same, fifo_setFifo]
    · change (s₁.fifo p).size = _
      rw [fifo_setFifo, fifoUnsafeAppend_size]
    · rw [wants_enable (hsame.held.mpr hheld) (hsame.held.mpr hb)]
      split
      · next he => exact .inl ⟨he.1, by simpa using he.2.2⟩
      · exact .inr (hsame.wants i)

/-- Text that pipe_write has left in the ring has a write event coming. -/
theorem pipeWrite_wakes (hw : (s.pipes p).writeAtom = some w) (hheld : s.Held w) (hbuf : buf ≠ [])
    (h : pipeWrite s p buf = .ok (total, s')) :
    fifoCount (s'.fifo p) ≠ 0 → s'.live w → s'.wants .write w = true := by
  obtain ⟨w', hw', -, hs'⟩ := pipeWrite_ok h
  obtain rfl := Option.some.inj (hw'.symm.trans hw)
  have hpos := List.length_pos_iff.mpr hbuf
  obtain ⟨hall, rfl⟩ | ⟨-, rfl⟩ := hs'
  · intro hne _
    have hne' : fifoCount (s.fifo p) ≠ 0 := hne
    rw [immediate, if_neg hne'] at hall
    omega
  · intro _ hl
    let s₁ := s.setFifo p (fifoUnsafeAppend (s.fifo p) (stored s p w' buf)) (afterImmediate s p w' buf)
    have hsame : SameAtoms s s₁ := sameAtoms_setFifo s p _ _
    have hheld₁ := hsame.held.mpr hheld
    rw [wants_enable hheld₁ hheld₁, if_pos ⟨rfl, hl, by simp⟩]

theorem pipeWrites_poured {texts : List (List UInt8)} (h : PipeWrites p texts s s')
    (hw : (s.pipes p).writeAtom = some w) : Poured p w s s' := by
  induction h with
  | nil s => exact .refl p w s
  | cons hwrite _ ih =>
    have h₁ := pipeWrite_poured hw hwrite
    exact h₁.trans (ih (by rw [h₁.pipe, hw]))

theorem pipeWrites_wakes {texts : List (List UInt8)} (h : PipeWrites p texts s s')
    (hw : (s.pipes p).writeAtom = some w) (hheld : s.Held w) (hne : texts ≠ [])
    (htexts : ∀ t ∈ texts, t ≠ []) :
    fifoCount (s'.fifo p) ≠ 0 → s'.live w → s'.wants .write w = true := by
  induction h with
  | nil s => exact absurd rfl hne
  | @cons text texts total s s₁ s₂ hwrite hs ih =>
    have h₁ := pipeWrite_poured hw hwrite
    cases hs with
    | nil s => exact pipeWrite_wakes hw hheld (htexts text List.mem_cons_self) hwrite
    | cons hwrite' hs' =>
      apply ih
      · rw [h₁.pipe, hw]
      · exact h₁.held hheld
      · exact List.cons_ne_nil _ _
      · exact fun t ht => htexts t (List.mem_cons_of_mem _ ht)

end PipeWrite

/-- The texts that a task's destructor writes to the pipe: the status line, unless the program
is quiet, and what the end scanner has saved, if anything. -/
def farewell (s : Sys) (spec : TaskSpec) : List (List UInt8) :=
  match spec.destructProc, spec.maoutRefcon with
  | .rzt, .zfin addr =>
    (if s.optQuiet then [] else [s.status.text]) ++
      if (s.zfins addr).savebuf = [] then [] else [(s.zfins addr).savebuf]
  | _, _ => []

theorem farewell_ne_nil (s : Sys) (spec : TaskSpec) : ∀ t ∈ farewell s spec, t ≠ [] := by
  intro t ht
  rw [farewell] at ht
  split at ht
  · obtain ht | ht := List.mem_append.mp ht
    · split at ht
      · cases ht
      · obtain rfl := List.mem_singleton.mp ht
        exact s.status.ne_nil
    · split at ht
      · cases ht
      · next hne =>
        obtain rfl := List.mem_singleton.mp ht
        exact hne
  · cases ht

def Kernel.closes (k : Kernel) (fds : List Int) : Kernel := fds.foldl Kernel.close k

theorem Kernel.written_closes (k : Kernel) (fds : List Int) (fd : Int) :
    written fd (k.closes fds).trace = written fd k.trace := by
  induction fds generalizing k with
  | nil => rfl
  | cons fd' fds ih => exact (ih (k.close fd')).trans (k.written_close fd' fd)

/-- The descriptors that a destructor closes: those of the spec, unless they are the terminal's. -/
def TaskSpec.closed (spec : TaskSpec) : List Int :=
  match spec.destructProc with
  | .taskDefault => [spec.infd, spec.outfd, spec.errfd].filter fun fd => 0 ≤ fd
  | .rzt => [spec.infd, spec.outfd, spec.errfd].filter fun fd => 0 ≤ fd
  | .echo => []
  | .echoScanner => []

theorem closeFd_eq (s : Sys) (fd : Int) :
    closeFd s fd = { s with kernel := s.kernel.closes ([fd].filter fun fd => 0 ≤ fd) } := by
  by_cases hfd : 0 ≤ fd
  · simp [closeFd, hfd, Sys.close, Kernel.closes]
  · simp [closeFd, hfd, Kernel.closes]

theorem taskDefaultDestructor_eq (s : Sys) (spec : TaskSpec) :
    taskDefaultDestructor s spec =
      { s with kernel := s.kernel.closes ([spec.infd, spec.outfd, spec.errfd].filter fun fd => 0 ≤ fd) } := by
  have hsplit : [spec.infd, spec.outfd, spec.errfd].filter (fun fd => 0 ≤ fd) =
      [spec.infd].filter (fun fd => 0 ≤ fd) ++ [spec.outfd].filter (fun fd => 0 ≤ fd) ++
        [spec.errfd].filter (fun fd => 0 ≤ fd) := by
    rw [← List.filter_append, ← List.filter_append]
    rfl
  rw [taskDefaultDestructor, closeFd_eq, closeFd_eq, closeFd_eq, hsplit]
  simp only [Kernel.closes, List.foldl_append]

theorem echoDestructor_eq (s : Sys) (spec : TaskSpec) : echoDestructor s spec = s :=
  taskDefaultDestructor_eq s { spec with infd := -1, outfd := -1, errfd := -1 }

theorem destruct_ok {s s' : Sys} {spec : TaskSpec} (h : destruct s spec = .ok s')
    {w : AtomRef} (hw : (s.pipes .masterOutput).writeAtom = some w) :
    ∃ s₁, PipeWrites .masterOutput (farewell s spec) s s₁ ∧
      s' = { s₁ with kernel := s₁.kernel.closes spec.closed } := by
  rw [destruct] at h
  rw [farewell]
  simp only [TaskSpec.closed]
  cases hproc : spec.destructProc with
  | taskDefault =>
    rw [hproc] at h
    cases h
    exact ⟨s, .nil s, taskDefaultDestructor_eq s spec⟩
  | echo =>
    rw [hproc] at h
    cases h
    exact ⟨s, .nil s, echoDestructor_eq s spec⟩
  | echoScanner =>
    rw [hproc] at h
    cases h
    exact ⟨s, .nil s, echoDestructor_eq s spec⟩
  | rzt =>
    rw [hproc] at h
    obtain ⟨s₁, h₁, h⟩ := Result.bind_ok h
    obtain ⟨s₂, h₂, h⟩ := Result.bind_ok h
    cases h
    have hidle : PipeWrites .masterOutput (if s.optQuiet then [] else [s.status.text]) s s₁ := by
      rw [idleEnd] at h₁
      split at h₁
      · next hq =>
        cases h₁
        rw [if_pos hq]
        exact .nil s
      · next hq =>
        obtain ⟨⟨total, s₃⟩, hwrite, h₁⟩ := Result.bind_ok h₁
        cases h₁
        rw [if_neg hq]
        exact .cons hwrite (.nil s₁)
    have hzfins : s₁.zfins = s.zfins := by rw [(pipeWrites_poured hidle hw).rest]
    rw [restoreSaved] at h₂
    split at h₂
    · next addr hrefcon =>
      rw [hzfins] at h₂
      simp only [hrefcon]
      refine ⟨s₂, hidle.append ?_, taskDefaultDestructor_eq s₂ spec⟩
      split at h₂
      · next hsave =>
        cases h₂
        rw [if_pos hsave]
        exact .nil s₁
      · next hsave =>
        obtain ⟨⟨total, s₃⟩, hwrite, h₂⟩ := Result.bind_ok h₂
        cases h₂
        rw [if_neg hsave]
        exact .cons hwrite (.nil s₂)
    · cases h₂

/-- The three atoms of a task are taken out of the registry. -/
theorem destroyAtoms {s : Sys} {n : Nat} (hr : s.Held (.read n)) (hw : s.Held (.write n))
    (he : s.Held (.err n)) {s' : Sys}
    (h : s' = pipeAtomDestroy (pipeAtomDestroy (pipeAtomDestroy s (.read n)) (.write n)) (.err n)) :
    s'.atoms = s.atoms ∧ s' = { s with io := s'.io } ∧
      ∀ a, a ≠ .read n → a ≠ .write n → a ≠ .err n → s.Held a →
        s'.Held a ∧ ∀ i, s'.wants i a = s.wants i a := by
  have hio : ∀ (s : Sys) (a : AtomRef), pipeAtomDestroy s a = { s with io := (pipeAtomDestroy s a).io } := by
    intro s a
    rw [pipeAtomDestroy]
    split <;> rfl
  let s₁ := pipeAtomDestroy s (.read n)
  let s₂ := pipeAtomDestroy s₁ (.write n)
  have h₁ : s₁ = { s with io := s₁.io } := hio s _
  have h₂ : s₂ = { s₁ with io := s₂.io } := hio s₁ _
  have h₃ : s' = { s₂ with io := s'.io } := by
    rw [h]
    exact hio s₂ _
  have hrw : AtomRef.write n ≠ .read n := by simp
  have hre : AtomRef.err n ≠ .read n := by simp
  have hwe : AtomRef.err n ≠ .write n := by simp
  have hw₁ : s₁.Held (.write n) := held_pipeAtomDestroy hr hw hrw
  have he₁ : s₁.Held (.err n) := held_pipeAtomDestroy hr he hre
  have he₂ : s₂.Held (.err n) := held_pipeAtomDestroy hw₁ he₁ hwe
  refine ⟨?_, ?_, ?_⟩
  · rw [h, pipeAtomDestroy_atoms, pipeAtomDestroy_atoms, pipeAtomDestroy_atoms]
  · rw [h₁] at h₂
    rw [h₂] at h₃
    exact h₃
  · intro a har haw hae ha
    have ha₁ : s₁.Held a := held_pipeAtomDestroy hr ha har
    have ha₂ : s₂.Held a := held_pipeAtomDestroy hw₁ ha₁ haw
    subst h
    refine ⟨held_pipeAtomDestroy he₂ ha₂ hae, fun i => ?_⟩
    have hi₁ := wants_pipeAtomDestroy hr ha i
    have hi₂ := wants_pipeAtomDestroy hw₁ ha₁ i
    have hi₃ := wants_pipeAtomDestroy he₂ ha₂ i
    rw [if_neg har] at hi₁
    rw [if_neg haw] at hi₂
    rw [if_neg hae] at hi₃
    exact hi₃.trans (hi₂.trans hi₁)

/-- The pipes are back with the task below, against the state before, and the atoms of the
removed task are gone; its destructor has not run. -/
structure Unstacked (top : TaskState) (below : List TaskState) (s s' : Sys) : Prop where
  rest : s' = { s with io := s'.io, atoms := s'.atoms, pipes := s'.pipes, tasks := top :: below }
  wf : s'.WF
  fd : ∀ a, InUse (top :: below) a → (s'.atoms a).fd = (s.atoms a).fd
  wants : ∀ a, InUse (top :: below) a → ∀ i,
    s'.wants i a = s.wants i a ∨ i = .read ∧ a ∈ readers top below
  inputMaster : s'.pipes .inputMaster = { s.pipes .inputMaster with
    readAtom := some (.read top.addr), blockRead := false
    fifo := { s.fifo .inputMaster with proc := top.spec.inmaProc, refcon := top.spec.inmaRefcon } }
  masterOutput : s'.pipes .masterOutput = { s.pipes .masterOutput with
    writeAtom := some (.write top.addr)
    fifo := { s.fifo .masterOutput with
      proc := top.spec.maoutProc, refcon := top.spec.maoutRefcon } }

theorem InUse.ne_of_nodup {task : TaskState} {ts : List TaskState}
    (h : ((task :: ts).map TaskState.addr).Nodup) {a : AtomRef} (ha : InUse ts a) :
    a ≠ .read task.addr ∧ a ≠ .write task.addr ∧ a ≠ .err task.addr := by
  rw [List.map_cons, List.nodup_cons] at h
  have hne : ∀ t ∈ ts, t.addr ≠ task.addr := by
    intro t ht he
    exact h.1 (List.mem_map.mpr ⟨t, ht, he⟩)
  cases ha with
  | master => simp
  | read ht => simpa using hne _ ht
  | write ht => simpa using hne _ ht
  | err ht => simpa using hne _ ht

theorem taskRemove_ok {s s' : Sys} (hwf : s.WF) (h : taskRemove s = .ok s') :
    ∃ task top below s₁ s₂, s.tasks = task :: top :: below ∧ Unstacked top below s s₁ ∧
      PipeWrites .masterOutput (farewell s task.spec) s₁ s₂ ∧
      s' = { s₂ with kernel := s₂.kernel.closes task.spec.closed } := by
  rw [taskRemove] at h
  split at h
  · cases h
  · obtain ⟨s₁, -, h⟩ := Result.bind_ok h
    cases h
  · next task top below htasks =>
    let s₀ : Sys := taskPipeSetup { s with tasks := top :: below } top below
    let s₁ := pipeAtomDestroy (pipeAtomDestroy (pipeAtomDestroy s₀ (.read task.addr)) (.write task.addr))
      (.err task.addr)
    have hsplice : Splices (readers top below) { s with tasks := top :: below } s₀ :=
      taskPipeSetup_splices _ top below
    obtain ⟨hin, hout⟩ := taskPipeSetup_pipes { s with tasks := top :: below } top below
    have hheld : ∀ a, InUse s.tasks a → s.Held a := hwf.held
    have hnodup := hwf.nodup
    have hbelow := hwf.below
    rw [htasks] at hheld hnodup hbelow
    have hheld₀ : ∀ a, InUse (task :: top :: below) a → s₀.Held a :=
      fun a ha => hsplice.held (hheld a ha)
    have hmem : ∀ t ∈ top :: below, t ∈ task :: top :: below := fun t ht => List.mem_cons_of_mem _ ht
    obtain ⟨hatoms, hio, hothers⟩ := destroyAtoms (s := s₀) (n := task.addr)
      (hheld₀ _ (.read List.mem_cons_self)) (hheld₀ _ (.write List.mem_cons_self))
      (hheld₀ _ (.err List.mem_cons_self)) (rfl : s₁ = _)
    have hold : ∀ a, InUse (top :: below) a → s₁.Held a ∧ ∀ i, s₁.wants i a = s₀.wants i a := by
      intro a ha
      obtain ⟨hr, hw, he⟩ := ha.ne_of_nodup hnodup
      exact hothers a hr hw he (hheld₀ a (ha.mono hmem))
    have hpipes : s₁.pipes = s₀.pipes := by rw [hio]
    have hrest : s₁ = { s with
        io := s₁.io, atoms := s₁.atoms, pipes := s₁.pipes, tasks := top :: below } := by
      have hr := hsplice.rest
      rw [hr] at hio
      rw [hatoms, hpipes]
      exact hio
    have htasks₁ : s₁.tasks = top :: below := by rw [hrest]
    have hfresh₁ : s₁.fresh = s.fresh := by rw [hrest]
    have hun : Unstacked top below s s₁ := by
      refine ⟨hrest, .of_top htasks₁ (fun a ha => (hold a ha).1) ?_ ?_ ?_ ?_, ?_, ?_, ?_, ?_⟩
      · rw [hfresh₁]
        exact fun t ht => hbelow t (hmem t ht)
      · rw [List.map_cons, List.nodup_cons] at hnodup
        exact hnodup.2
      · rw [hpipes, hin]
        exact ⟨rfl, hwf.masterIn⟩
      · rw [hpipes, hout]
        exact ⟨hwf.masterOut, rfl⟩
      · intro a _
        rw [hatoms]
        exact hsplice.fd a
      · intro a ha i
        rw [(hold a ha).2 i]
        exact hsplice.wants (fun b hb => hheld b ((readers_inUse top below b hb).mono hmem)) a i
          (hheld a (ha.mono hmem))
      · rw [hpipes, hin]
        rfl
      · rw [hpipes, hout]
        rfl
    have hfarewell : farewell s₁ task.spec = farewell s task.spec := by
      rw [hrest]
      rfl
    have hw₁ : (s₁.pipes .masterOutput).writeAtom = some (.write top.addr) := by rw [hun.masterOutput]
    obtain ⟨s₂, hwrites, hs'⟩ := destruct_ok h hw₁
    rw [hfarewell] at hwrites
    exact ⟨task, top, below, s₁, s₂, htasks, hun, hwrites, hs'⟩

end Rzh
