import Rzh.MainLoop

/-!
# Suspended reading

A pipe must not be read from while its ring is full. Every event that fills a ring or that
starts to listen to a reader has to keep the two in step.
-/
namespace Rzh

open Circular Sys

/-- A reader that select() is asked about has room to read into. -/
def Matches (s : Sys) (p : PipeRef) : Prop :=
  ∀ r, (s.pipes p).readAtom = some r → s.wants .read r = true → fifoAvail (s.fifo p) ≠ 0

/-- The bytes of texts, written one after the other, that the descriptor does not take at once.
What comes behind queued text is not even offered to it. -/
def unsent (fd : Int) : Bool → Kernel → List (List UInt8) → Nat
  | _, _, [] => 0
  | true, k, text :: texts => text.length + unsent fd true k texts
  | false, k, text :: texts =>
    let left := text.length - ((k.write fd text).1).getD 0
    left + unsent fd (left ≠ 0) (k.write fd text).2 texts

/-- The texts leave room in the ring for at least one byte more. -/
def FitsBehind (s : Sys) (p : PipeRef) (w : AtomRef) (texts : List (List UInt8)) : Prop :=
  unsent (s.atoms w).fd (fifoCount (s.fifo p) ≠ 0) s.kernel texts < fifoAvail (s.fifo p)

/-- The new reader of the input pipe has room, unless it has no descriptor. The text of a
pipe_write fits if its pipe is being read from, and so do the texts of a destructor. -/
def KeepsRoom (s : Sys) : Event → Prop
  | .echoScanner => fifoAvail (s.fifo .inputMaster) ≠ 0
  | .autoRead p => ∀ r, p = .masterOutput → (s.pipes p).readAtom = some r →
      StartsTask s p (arriving s p (s.atoms r).fd) → fifoAvail (s.fifo .inputMaster) ≠ 0
  | .autoWrite _ => True
  | .write p buf => ∀ r w, (s.pipes p).readAtom = some r → (s.pipes p).writeAtom = some w →
      s.wants .read r = true → FitsBehind s p w [buf]
  | .install spec => 0 ≤ spec.infd → fifoAvail (s.fifo .inputMaster) ≠ 0
  | .remove => ∀ task top below, s.tasks = task :: top :: below →
      (s.live (.read top.addr) → fifoAvail (s.fifo .inputMaster) ≠ 0) ∧
      (s.wants .read .master = true →
        FitsBehind s .masterOutput (.write top.addr) (farewell s task.spec))

/-- The runs of the main loop in which no step takes the last room of a pipe that is read from. -/
inductive RoomyRun (s₀ : Sys) : Sys → Prop where
  | start : RoomyRun s₀ s₀
  | next {s s' : Sys} (run : RoomyRun s₀ s) (e : Event) (hroom : KeepsRoom s e)
    (h : step s e = .ok s') : RoomyRun s₀ s'

/-- What every step that keeps room preserves. -/
structure Matched (s : Sys) : Prop where
  wf : s.WF
  apart : ∀ p q r, (s.pipes p).readAtom = some r → (s.pipes q).readAtom = some r → p = q
  size : ∀ p, 2 ≤ (s.fifo p).size
  room : ∀ p, Matches s p

theorem avail_of_empty {f : Fifo} (hsize : 2 ≤ f.size) (h : fifoCount f = 0) : fifoAvail f ≠ 0 := by
  have hsum := f.count_add_avail
  rw [fifoCount_eq] at h
  rw [fifoAvail_eq]
  omega

section Calm

variable {p : PipeRef} {a : AtomRef} {s s' s'' : Sys}

theorem wants_live {i : Interest} (h : s.wants i a = true) : s.live a := by
  by_contra hl
  rw [wants_of_not_live hl i] at h
  cases h

/-- Nothing is listened to that was not listened to before. -/
def Calm (s s' : Sys) : Prop :=
  ∀ b, InUse s.tasks b → s'.wants .read b = true → s.wants .read b = true

theorem Calm.trans (h : Calm s s') (htasks : s'.tasks = s.tasks) (h' : Calm s' s'') : Calm s s'' := by
  intro b hb hwants
  exact h b hb (h' b (by rw [htasks]; exact hb) hwants)

theorem calm_sameAtoms (h : SameAtoms s s') : Calm s s' := by
  intro b _ hwants
  rw [← h.wants]
  exact hwants

theorem calm_mayClose (hwf : s.WF) (ha : InUse s.tasks a) (h : MayClose a s s') : Calm s s' := by
  intro b hb hwants
  rw [← h.wants (hwf.held a ha) (hwf.held b hb) (wants_live hwants)]
  exact hwants

theorem calm_enable (hwf : s.WF) (ha : InUse s.tasks a) : Calm s (s.enable a [.write]) := by
  intro b hb hwants
  rw [wants_enable (hwf.held a ha) (hwf.held b hb), if_neg (by simp)] at hwants
  exact hwants

theorem calm_disable (hwf : s.WF) (ha : InUse s.tasks a) (flags : List Interest) :
    Calm s (s.disable a flags) := by
  intro b hb hwants
  rw [wants_disable (hwf.held a ha) (hwf.held b hb)] at hwants
  split at hwants
  · cases hwants
  · exact hwants

/-- A step that takes no room and starts to listen to nothing. -/
theorem Matches.calm (h : Matches s p) (hwf : s.WF) (hcalm : Calm s s')
    (hread : (s'.pipes p).readAtom = (s.pipes p).readAtom)
    (havail : fifoAvail (s'.fifo p) = fifoAvail (s.fifo p)) : Matches s' p := by
  intro r hr hwants
  rw [hread] at hr
  rw [havail]
  exact h r hr (hcalm r (hwf.inUse p r (.inl hr)) hwants)

theorem Matches.other (h : Matches s p) (hwf : s.WF) (hcalm : Calm s s')
    (hpipe : s'.pipes p = s.pipes p) : Matches s' p := by
  refine h.calm hwf hcalm ?_ ?_
  · rw [hpipe]
  · rw [Sys.fifo, Sys.fifo, hpipe]

end Calm

section Steps

variable {p q : PipeRef} {r w a : AtomRef} {s s' s'' : Sys}

theorem Matches.of_avail (h : fifoAvail (s.fifo p) ≠ 0) : Matches s p := fun _ _ _ => h

theorem fifo_eq (h : s'.pipes p = s.pipes p) : s'.fifo p = s.fifo p := by
  rw [Sys.fifo, Sys.fifo, h]

/-- In a state with tasks the two readers are different atoms. -/
theorem Sys.WF.apart (hwf : s.WF) {t : TaskState} {below : List TaskState}
    (htasks : s.tasks = t :: below) (hp : (s.pipes p).readAtom = some r)
    (hq : (s.pipes q).readAtom = some r) : p = q := by
  have hin := (hwf.top t below htasks).1
  have hout := hwf.masterOut
  cases p with
  | inputMaster =>
    cases q with
    | inputMaster => rfl
    | masterOutput =>
      rw [hin] at hp
      rw [hout, ← hp] at hq
      cases hq
  | masterOutput =>
    cases q with
    | inputMaster =>
      rw [hin] at hq
      rw [hout, ← hq] at hp
      cases hp
    | masterOutput => rfl

theorem apart_of_shape (h : s'.shape = s.shape)
    (hapart : ∀ p q r, (s.pipes p).readAtom = some r → (s.pipes q).readAtom = some r → p = q) :
    ∀ p q r, (s'.pipes p).readAtom = some r → (s'.pipes q).readAtom = some r → p = q := by
  have hread : ∀ p, (s'.pipes p).readAtom = (s.pipes p).readAtom :=
    congrFun (congrArg Shape.readAtom h)
  intro p q r hp hq
  rw [hread] at hp hq
  exact hapart p q r hp hq

theorem Flushed.size {cnt : Int} {sent : List UInt8} (h : Flushed p w cnt sent s s') (q : PipeRef) :
    (s'.fifo q).size = (s.fifo q).size := by
  by_cases hq : q = p
  · subst hq
    exact h.fifo.1
  · rw [fifo_eq (h.other q hq)]

theorem Filtered.sizes (h : Filtered p s s') (q : PipeRef) : (s'.fifo q).size = (s.fifo q).size := by
  by_cases hq : q = p
  · subst hq
    exact h.size
  · rw [fifo_eq (h.other q hq)]

theorem Installed.size {spec : TaskSpec} (h : Installed spec s s') (q : PipeRef) :
    (s'.fifo q).size = (s.fifo q).size := by
  cases q with
  | inputMaster => rw [Sys.fifo, h.inputMaster]
  | masterOutput => rw [Sys.fifo, h.masterOutput]

theorem Installed.avail {spec : TaskSpec} (h : Installed spec s s') (q : PipeRef) :
    fifoAvail (s'.fifo q) = fifoAvail (s.fifo q) := by
  cases q with
  | inputMaster =>
    rw [Sys.fifo, h.inputMaster]
    rfl
  | masterOutput =>
    rw [Sys.fifo, h.masterOutput]
    rfl

/-- An installation listens to the new reader. -/
theorem Installed.matchesNew {spec : TaskSpec} (h : Installed spec s s')
    (hroom : 0 ≤ spec.infd → fifoAvail (s.fifo .inputMaster) ≠ 0) : Matches s' .inputMaster := by
  intro r hr hwants
  rw [h.inputMaster] at hr
  obtain rfl := Option.some.inj hr
  rw [h.avail]
  exact hroom (h.liveR.mp (wants_live hwants))

/-- The reader of the master stays as it is. -/
theorem Installed.matchesMaster {spec : TaskSpec} (hwf : s.WF) (h : Installed spec s s')
    (hm : Matches s .masterOutput) : Matches s' .masterOutput := by
  intro r hr hwants
  rw [h.masterOutput] at hr
  obtain rfl := Option.some.inj (hr.symm.trans hwf.masterOut)
  rw [h.avail]
  obtain he | ⟨-, hmem⟩ := h.wants .master .master .read
  · rw [he] at hwants
    exact hm .master hwf.masterOut hwants
  · exact absurd hmem (master_not_reader _ _)

/-- What a packet does to the pipe that it does not come from. -/
theorem ReadEffect.matches {buf : List UInt8} (hm : Matched s) (h : ReadEffect p buf s s')
    (hroom : p = .masterOutput → StartsTask s p buf → fifoAvail (s.fifo .inputMaster) ≠ 0)
    (hq : q ≠ p) : Matches s' q := by
  cases h with
  | filtered h => exact (hm.room q).other hm.wf (calm_sameAtoms h.sameAtoms) (h.other q hq)
  | @started s₁ s₂ _ spec hstart h₁ _ h₂ h₃ =>
    have hwf₁ := h₁.wf hm.wf
    have hin := taskInstall_ok hwf₁ h₂
    have hq₁ : Matches s₁ q := (hm.room q).other hm.wf (calm_sameAtoms h₁.sameAtoms) (h₁.other q hq)
    have hq₂ : Matches s₂ q := by
      cases p with
      | inputMaster =>
        cases q with
        | inputMaster => exact absurd rfl hq
        | masterOutput => exact hin.matchesMaster hwf₁ hq₁
      | masterOutput =>
        cases q with
        | inputMaster =>
          apply hin.matchesNew
          intro _
          rw [fifo_eq (h₁.other _ hq)]
          exact hroom rfl hstart
        | masterOutput => exact absurd rfl hq
    exact hq₂.other hin.wf (calm_sameAtoms h₃.sameAtoms) (h₃.other q hq)

theorem Flushed.calm {cnt : Int} {sent : List UInt8} (hwf : s.WF)
    (hw : (s.pipes p).writeAtom = some w) (h : Flushed p w cnt sent s s') : Calm s s' :=
  calm_mayClose hwf (hwf.inUse p w (.inr hw)) h.atoms

theorem ReadRest.calm (hwf : s.WF) (h : ReadRest s p s') : Calm s s' := by
  cases h with
  | idle => exact calm_sameAtoms (.refl s)
  | sent hw hf => exact hf.calm hwf hw
  | @left w _ _ s₁ hw hf =>
    have hwf₁ := hf.wf hwf hw
    have hw₁ : InUse s₁.tasks w := hwf₁.inUse p w (.inr (by rw [(hf.ends p).2, hw]))
    exact (hf.calm hwf hw).trans (congrArg Shape.tasks hf.shape) (calm_enable hwf₁ hw₁)
  | @full w r _ _ s₁ hw hr hf =>
    have htasks : s₁.tasks = s.tasks := congrArg Shape.tasks hf.shape
    have hwf₁ := hf.wf hwf hw
    have hw₁ : InUse s₁.tasks w := hwf₁.inUse p w (.inr (by rw [(hf.ends p).2, hw]))
    have hr₁ : InUse s₁.tasks r := hwf₁.inUse p r (.inl (by rw [(hf.ends p).1, hr]))
    have h₂ : Calm s (s₁.enable w [.write]) := (hf.calm hwf hw).trans htasks (calm_enable hwf₁ hw₁)
    have h₃ : Calm s ((s₁.enable w [.write]).disable r [.read]) :=
      h₂.trans htasks (calm_disable (hwf₁.enable w _) hr₁ _)
    exact h₃.trans htasks (calm_sameAtoms (sameAtoms_setPipe _ _ _))

theorem ReadRest.size (h : ReadRest s p s') (q : PipeRef) : (s'.fifo q).size = (s.fifo q).size := by
  cases h with
  | idle => rfl
  | sent _ hf => exact hf.size q
  | left _ hf => exact hf.size q
  | full _ _ hf =>
    rw [← hf.size]
    by_cases hq : q = p
    · rw [hq, Sys.fifo, setPipe_same]
      rfl
    · rw [Sys.fifo, setPipe_ne _ _ hq]
      rfl

/-- Reading goes on behind a read event only if there is room. -/
theorem ReadRest.matches (hwf : s.WF) (hsize : 2 ≤ (s.fifo p).size) (h : ReadRest s p s') :
    Matches s' p := by
  cases h with
  | idle hcount => exact .of_avail (avail_of_empty hsize hcount)
  | sent hw hf hcount => exact .of_avail (avail_of_empty (by rw [hf.size]; exact hsize) hcount)
  | left hw hf hcount havail => exact .of_avail havail
  | @full w r _ _ s₁ hw hr hf =>
    have hwf₁ := hf.wf hwf hw
    have hr₁ : s₁.Held r := hwf₁.held r (hwf₁.inUse p r (.inl (by rw [(hf.ends p).1, hr])))
    intro r' hr' hwants
    rw [setPipe_same] at hr'
    obtain rfl : r = r' := by
      have hr₂ : (s₁.pipes p).readAtom = some r' := hr'
      rw [(hf.ends p).1, hr] at hr₂
      exact Option.some.inj hr₂
    have hno : ((s₁.enable w [.write]).disable r [.read]).wants .read r = false := by
      rw [wants_disable (held_enable hr₁ _) (held_enable hr₁ _), if_pos ⟨rfl, by simp⟩]
    rw [(sameAtoms_setPipe _ _ _).wants, hno] at hwants
    cases hwants

theorem Unblock.matches (hwf : s.WF)
    (hapart : ∀ p q r, (s.pipes p).readAtom = some r → (s.pipes q).readAtom = some r → p = q)
    (h : Unblock p s s') (hq : q ≠ p) (hm : Matches s q) : Matches s' q := by
  cases h with
  | «open» => exact hm
  | dead => exact hm
  | @resume r hr hl =>
    intro r' hr' hwants
    rw [setPipe_ne _ _ hq] at hr'
    have hr₁ : (s.pipes q).readAtom = some r' := hr'
    have hne : r' ≠ r := by
      intro he
      rw [he] at hr₁
      exact hq (hapart q p r hr₁ hr)
    rw [(sameAtoms_setPipe _ _ _).wants, wants_enable (hwf.held r (hwf.inUse p r (.inl hr)))
      (hwf.held r' (hwf.inUse q r' (.inl hr₁))), if_neg (fun he => hne he.1)] at hwants
    rw [Sys.fifo, setPipe_ne _ _ hq]
    exact hm r' hr₁ hwants

theorem Poured.calm (hwf : s.WF) (hw : InUse s.tasks w) (h : Poured p w s s') : Calm s s' := by
  intro b hb hwants
  obtain ⟨-, he⟩ | he := h.wants (hwf.held w hw) b (hwf.held b hb) .read
  · cases he
  · rw [← he]
    exact hwants

/-- The first text decides what is offered of those behind it. -/
theorem unsent_cons (s : Sys) (p : PipeRef) (w : AtomRef) (text : List UInt8)
    (texts : List (List UInt8)) :
    unsent (s.atoms w).fd (fifoCount (s.fifo p) ≠ 0) s.kernel (text :: texts) =
      (text.length - immediate s p w text) +
        unsent (s.atoms w).fd (fifoCount (s.fifo p) + (text.length - immediate s p w text) ≠ 0)
          (afterImmediate s p w text) texts := by
  by_cases hcount : fifoCount (s.fifo p) = 0
  · simp only [hcount, immediate, afterImmediate, if_true, Nat.zero_add, ne_eq, not_true_eq_false,
      decide_false, unsent]
  · have hmore : fifoCount (s.fifo p) + (text.length - immediate s p w text) ≠ 0 := by omega
    rw [decide_eq_true hcount, decide_eq_true hmore, unsent, immediate, if_neg hcount, afterImmediate,
      if_neg hcount, Nat.sub_zero]

theorem pipeWrite_avail {buf : List UInt8} {total : Nat} (hw : (s.pipes p).writeAtom = some w)
    (hfits : buf.length - immediate s p w buf ≤ fifoAvail (s.fifo p))
    (h : pipeWrite s p buf = .ok (total, s')) :
    fifoAvail (s'.fifo p) + (buf.length - immediate s p w buf) = fifoAvail (s.fifo p) ∧
      fifoCount (s'.fifo p) = fifoCount (s.fifo p) + (buf.length - immediate s p w buf) ∧
      s'.kernel = afterImmediate s p w buf := by
  obtain ⟨w', hw', -, hs'⟩ := pipeWrite_ok h
  obtain rfl := Option.some.inj (hw'.symm.trans hw)
  obtain ⟨hall, rfl⟩ | ⟨-, rfl⟩ := hs'
  · rw [hall, Nat.sub_self]
    exact ⟨rfl, rfl, rfl⟩
  · have hlength : (stored s p w' buf).length = buf.length - immediate s p w' buf := by
      rw [stored, List.length_take, List.length_drop]
      omega
    have hfifo : ((s.setFifo p (fifoUnsafeAppend (s.fifo p) (stored s p w' buf))
        (afterImmediate s p w' buf)).enable w' [.write]).fifo p =
          fifoUnsafeAppend (s.fifo p) (stored s p w' buf) :=
      fifo_setFifo s p _ (afterImmediate s p w' buf)
    rw [← hlength] at hfits ⊢
    have havail := fifoUnsafeAppend_avail (s.fifo p) (stored s p w' buf) hfits
    have hsum := (s.fifo p).count_add_avail
    have hsum' := (fifoUnsafeAppend (s.fifo p) (stored s p w' buf)).count_add_avail
    rw [fifoUnsafeAppend_size] at hsum'
    rw [hfifo]
    simp only [fifoAvail_eq, fifoCount_eq]
    exact ⟨havail, by omega, rfl⟩

/-- The ring is left with the room that the texts do not take. -/
theorem pipeWrites_avail {texts : List (List UInt8)} (h : PipeWrites p texts s s')
    (hw : (s.pipes p).writeAtom = some w) (hfits : FitsBehind s p w texts) :
    fifoAvail (s'.fifo p) ≠ 0 := by
  induction h with
  | nil s =>
    intro hzero
    rw [FitsBehind, hzero] at hfits
    omega
  | @cons text texts total s s₁ s₂ hwrite _ ih =>
    have hpoured := pipeWrite_poured hw hwrite
    rw [FitsBehind, unsent_cons] at hfits
    obtain ⟨havail, hcount, hkernel⟩ := pipeWrite_avail hw (by omega) hwrite
    apply ih
    · rw [hpoured.pipe, hw]
    · rw [FitsBehind, hpoured.atoms, hcount, hkernel]
      omega

end Steps

section Events

variable {p q : PipeRef} {s s' : Sys}

theorem Matched.install {spec : TaskSpec} (hm : Matched s)
    (hroom : 0 ≤ spec.infd → fifoAvail (s.fifo .inputMaster) ≠ 0) (h : taskInstall s spec = .ok s') :
    Matched s' := by
  have hin := taskInstall_ok hm.wf h
  have htasks : s'.tasks = ⟨s.fresh, spec⟩ :: s.tasks := by rw [hin.rest]
  refine ⟨hin.wf, fun p q r hp hq => hin.wf.apart htasks hp hq, fun q => ?_, fun q => ?_⟩
  · rw [hin.size]
    exact hm.size q
  · cases q with
    | inputMaster => exact hin.matchesNew hroom
    | masterOutput => exact hin.matchesMaster hm.wf (hm.room _)

theorem Filtered.matched (hm : Matched s) (h : Filtered p s s') (hroom : Matches s' p) : Matched s' where
  wf := h.wf hm.wf
  apart q q' r hq hq' := by
    rw [(h.ends _).1] at hq hq'
    exact hm.apart q q' r hq hq'
  size q := by
    rw [h.sizes]
    exact hm.size q
  room q := by
    by_cases hq : q = p
    · rw [hq]
      exact hroom
    · exact (hm.room q).other hm.wf (calm_sameAtoms h.sameAtoms) (h.other q hq)

theorem Matched.autoRead (hm : Matched s) (hroom : KeepsRoom s (.autoRead p))
    (h : pipeAutoRead s p = .ok s') : Matched s' := by
  obtain ⟨r, s₁, s₂, hr, -, heffect, hclose, hrest⟩ := pipeAutoRead_ok h
  have hwf₁ := heffect.wf hm.wf
  have hothers := fun q hq => heffect.matches (q := q) hm (fun hp => hroom r hp hr) hq
  have h₂ : s₂.WF ∧ s₂.shape = s₁.shape ∧ Calm s₁ s₂ ∧ s₂.pipes = s₁.pipes := by
    obtain rfl | ⟨r', hr', rfl⟩ := hclose
    · exact ⟨hwf₁, rfl, calm_sameAtoms (.refl _), rfl⟩
    · have hinUse := hwf₁.inUse p r' (.inl hr')
      have hc : MayClose r' s₁ (closeAtom s₁ r') := .closed (.refl _)
      exact ⟨hwf₁.mayClose hinUse (shape_closeAtom s₁ r') hc, shape_closeAtom s₁ r',
        calm_mayClose hwf₁ hinUse hc, (closeAtom_rest s₁ r').1⟩
  obtain ⟨hwf₂, hshape₂, hcalm, hpipes⟩ := h₂
  have hsizes : ∀ q, 2 ≤ (s₁.fifo q).size := by
    intro q
    have hsize := hm.size q
    cases heffect with
    | filtered h => rw [h.sizes]; exact hsize
    | started _ h₁ _ h₂ h₃ =>
      rw [h₃.sizes, (taskInstall_ok (h₁.wf hm.wf) h₂).size, h₁.sizes]
      exact hsize
  have hsizes₂ : ∀ q, 2 ≤ (s₂.fifo q).size := by
    intro q
    rw [Sys.fifo, hpipes]
    exact hsizes q
  refine ⟨hrest.wf hwf₂, apart_of_shape (hrest.shape.trans hshape₂) ?_, fun q => ?_, fun q => ?_⟩
  · cases heffect with
    | filtered h =>
      intro q q' r hq hq'
      rw [(h.ends _).1] at hq hq'
      exact hm.apart q q' r hq hq'
    | @started s₃ s₄ _ spec _ h₁ _ h₂ h₃ =>
      have htasks : s₁.tasks = ⟨s₃.fresh, spec⟩ :: s₃.tasks := by
        rw [h₃.tasks, (taskInstall_ok (h₁.wf hm.wf) h₂).rest]
      exact fun q q' r hq hq' => hwf₁.apart htasks hq hq'
  · rw [hrest.size]
    exact hsizes₂ q
  · by_cases hq : q = p
    · subst hq
      exact hrest.matches hwf₂ (hsizes₂ q)
    · exact ((hothers q hq).other hwf₁ hcalm (by rw [hpipes])).other hwf₂ (hrest.calm hwf₂)
        (hrest.other hq)

theorem Matched.autoWrite (hm : Matched s) (h : pipeAutoWrite s p = .ok s') : Matched s' := by
  have hwf' := (Sys.WF.stable _).autoWrite hm.wf h
  obtain ⟨w, cnt, sent, s₁, s₂, hw, hf, -, havail, hunblock, hs'⟩ := pipeAutoWrite_ok h
  have hwf₁ := hf.wf hm.wf hw
  have hapart₁ := apart_of_shape hf.shape hm.apart
  have h₂ : s₂.shape = s₁.shape ∧ (∀ q, (s₂.fifo q) = s₁.fifo q) ∧ s₂.WF := by
    cases hunblock with
    | «open» => exact ⟨rfl, fun _ => rfl, hwf₁⟩
    | dead => exact ⟨rfl, fun _ => rfl, hwf₁⟩
    | @resume r hr hl =>
      refine ⟨shape_setPipe (s₁.enable r [.read]) p _ rfl rfl, fun q => ?_,
        (hwf₁.enable r [.read]).block p false⟩
      by_cases hq : q = p
      · rw [hq, Sys.fifo, setPipe_same]
        rfl
      · rw [Sys.fifo, setPipe_ne _ _ hq]
        rfl
  obtain ⟨hshape₂, hfifo₂, hwf₂⟩ := h₂
  have hm₂ : Matched s₂ := by
    refine ⟨hwf₂, apart_of_shape hshape₂ hapart₁, fun q => ?_, fun q => ?_⟩
    · rw [hfifo₂, hf.size]
      exact hm.size q
    · by_cases hq : q = p
      · rw [hq]
        apply Matches.of_avail
        rw [hfifo₂]
        exact havail
      · exact hunblock.matches hwf₁ hapart₁ hq
          ((hm.room q).other hm.wf (hf.calm hm.wf hw) (hf.other q hq))
  obtain ⟨-, rfl⟩ | ⟨-, rfl⟩ := hs'
  · have hends : (s₂.pipes p).writeAtom = (s.pipes p).writeAtom :=
      congrFun (congrArg Shape.writeAtom (hshape₂.trans hf.shape)) p
    have hw₂ : (s₂.pipes p).writeAtom = some w := hends.trans hw
    exact ⟨hwf', hm₂.apart, hm₂.size, fun q => (hm₂.room q).other hwf₂
      (calm_disable hwf₂ (hwf₂.inUse p w (.inr hw₂)) _) rfl⟩
  · exact hm₂

/-- Texts that are poured into a pipe concern the room of that pipe alone. -/
theorem Poured.matched {w : AtomRef} (hm : Matched s) (hw : InUse s.tasks w) (h : Poured p w s s')
    (hroom : Matches s' p) : Matched s' where
  wf := h.wf hm.wf
  apart := apart_of_shape h.shape hm.apart
  size q := by
    by_cases hq : q = p
    · rw [hq, h.size]
      exact hm.size p
    · rw [fifo_eq (h.other q hq)]
      exact hm.size q
  room q := by
    by_cases hq : q = p
    · rw [hq]
      exact hroom
    · exact (hm.room q).other hm.wf (h.calm hm.wf hw) (h.other q hq)

theorem PipeWrites.matched {w : AtomRef} {texts : List (List UInt8)} (hm : Matched s)
    (hw : (s.pipes p).writeAtom = some w) (h : PipeWrites p texts s s')
    (hroom : ∀ r, (s.pipes p).readAtom = some r → s.wants .read r = true → FitsBehind s p w texts) :
    Matched s' := by
  have hpoured := pipeWrites_poured h hw
  have hinUse := hm.wf.inUse p w (.inr hw)
  apply hpoured.matched hm hinUse
  intro r hr hwants
  rw [hpoured.pipe] at hr
  exact pipeWrites_avail h hw (hroom r hr
    (hpoured.calm hm.wf hinUse r (hm.wf.inUse p r (.inl hr)) hwants))

theorem Matched.remove (hm : Matched s) (hroom : KeepsRoom s .remove) (h : taskRemove s = .ok s') :
    Matched s' := by
  obtain ⟨task, top, below, s₁, s₂, htasks, hun, hwrites, rfl⟩ := taskRemove_ok hm.wf h
  obtain ⟨hnew, hfits⟩ := hroom task top below htasks
  have htasks₁ : s₁.tasks = top :: below := by rw [hun.rest]
  have hw₁ : (s₁.pipes .masterOutput).writeAtom = some (.write top.addr) := by rw [hun.masterOutput]
  have hmaster : s₁.wants .read .master = true → s.wants .read .master = true := by
    intro hwants
    obtain he | ⟨-, hmem⟩ := hun.wants .master .master .read
    · rw [← he]
      exact hwants
    · exact absurd hmem (master_not_reader _ _)
  have havail : ∀ q, fifoAvail (s₁.fifo q) = fifoAvail (s.fifo q) ∧
      (s₁.fifo q).size = (s.fifo q).size := by
    intro q
    cases q with
    | inputMaster =>
      rw [Sys.fifo, hun.inputMaster]
      exact ⟨rfl, rfl⟩
    | masterOutput =>
      rw [Sys.fifo, hun.masterOutput]
      exact ⟨rfl, rfl⟩
  have hm₁ : Matched s₁ := by
    refine ⟨hun.wf, fun p q r hp hq => hun.wf.apart htasks₁ hp hq, fun q => ?_, fun q => ?_⟩
    · rw [(havail q).2]
      exact hm.size q
    · intro r hr hwants
      rw [(havail q).1]
      cases q with
      | inputMaster =>
        rw [hun.inputMaster] at hr
        obtain rfl := Option.some.inj hr
        apply hnew
        have hl := wants_live hwants
        rw [Sys.live, hun.fd _ (.read List.mem_cons_self)] at hl
        exact hl
      | masterOutput =>
        obtain rfl := Option.some.inj (hr.symm.trans hun.wf.masterOut)
        exact hm.room _ _ hm.wf.masterOut (hmaster hwants)
  have hkernel : s₁.kernel = s.kernel := by rw [hun.rest]
  have hcount : fifoCount (s₁.fifo .masterOutput) = fifoCount (s.fifo .masterOutput) := by
    rw [Sys.fifo, hun.masterOutput]
    rfl
  have hm₂ : Matched s₂ := by
    refine hwrites.matched hm₁ hw₁ fun r hr hwants => ?_
    obtain rfl := Option.some.inj (hr.symm.trans hun.wf.masterOut)
    have hfits₁ := hfits (hmaster hwants)
    rw [FitsBehind, hun.fd _ (.write List.mem_cons_self), hcount, hkernel, (havail _).1]
    exact hfits₁
  exact ((Filtered.refl .inputMaster s₂).kernel _).matched hm₂ (hm₂.room _)

theorem Matched.step {e : Event} (hm : Matched s) (hroom : KeepsRoom s e) (h : step s e = .ok s') :
    Matched s' := by
  cases e with
  | echoScanner =>
    have hspec := echoScannerCreateSpec_filtered s .masterOutput
    exact (hspec.matched hm (hm.room _)).install (fun _ => hroom) h
  | autoRead p => exact hm.autoRead hroom h
  | autoWrite p => exact hm.autoWrite h
  | write p buf =>
    obtain ⟨⟨total, s₁⟩, hwrite, h⟩ := Result.bind_ok h
    cases h
    obtain ⟨w, hw, -⟩ := pipeWrite_ok hwrite
    exact PipeWrites.matched hm hw (.cons hwrite (.nil s')) fun r hr hwants => hroom r w hr hw hwants
  | install spec => exact hm.install hroom h
  | remove => exact hm.remove hroom h

end Events

/-- At the start both rings are empty. -/
theorem started_matched {s : Sys} (h₀ : Started s) (hsize : ∀ p, 2 ≤ (s.fifo p).size) : Matched s := by
  have hwf := started_wf h₀
  obtain ⟨s₀, masterfd, inma, maou, hinma, hmaou, h⟩ := h₀
  obtain ⟨-, -, hin, hout⟩ := masterPipeInit_ok h
  refine ⟨hwf, fun p q r hp hq => ?_, hsize, fun p => ?_⟩
  · cases p with
    | inputMaster =>
      rw [hin] at hp
      cases hp
    | masterOutput =>
      cases q with
      | inputMaster =>
        rw [hin] at hq
        cases hq
      | masterOutput => rfl
  · apply Matches.of_avail
    apply avail_of_empty (hsize p)
    cases p with
    | inputMaster =>
      rw [Sys.fifo, hin, fifoCount_eq, ← Buffer.toList_eq_nil_iff]
      exact fifoInit_contents inma hinma
    | masterOutput =>
      rw [Sys.fifo, hout, fifoCount_eq, ← Buffer.toList_eq_nil_iff]
      exact fifoInit_contents maou hmaou

theorem roomyRun_matched {s₀ s : Sys} (h₀ : Started s₀) (hsize : ∀ p, 2 ≤ (s₀.fifo p).size)
    (run : RoomyRun s₀ s) : Matched s := by
  induction run with
  | start => exact started_matched h₀ hsize
  | next run e hroom h ih => exact ih.step hroom h

/-- An open atom whose read events go to a pipe. -/
def Listens (s : Sys) (a : AtomRef) : Prop :=
  s.live a ∧ (s.atoms a).proc = .pipeIoProc ∧ s.wants .read a = true

instance (s : Sys) (a : AtomRef) : Decidable (Listens s a) := inferInstanceAs (Decidable (_ ∧ _ ∧ _))

/-- When a read event comes, the assertion of pipe_auto_read holds and read() is asked for at
least one byte. -/
theorem roomyRun_reads_with_room {s₀ s : Sys} (h₀ : Started s₀) (hsize : ∀ p, 2 ≤ (s₀.fifo p).size)
    (run : RoomyRun s₀ s) (p : PipeRef) (r : AtomRef) (hr : (s.pipes p).readAtom = some r)
    (hlistens : Listens s r) :
    0 < fifoAvail (s.fifo p) ∧ 0 < min (fifoAvail (s.fifo p)) bufsiz ∧
      pipeAutoRead s p = (pipeFifoRead s p >>= fun x => pipeAutoReadRest x.2 p) := by
  have havail := (roomyRun_matched h₀ hsize run).room p r hr hlistens.2.2
  have hpos := Nat.pos_of_ne_zero havail
  refine ⟨hpos, Nat.lt_min.mpr ⟨hpos, by decide⟩, ?_⟩
  rw [pipeAutoRead, if_neg havail]

/-- The kernel under a user who types a ring full that nobody takes, and then is sent a file. -/
def typedAhead : Kernel where
  reads := [.data 104 (List.replicate 8190 104), .data chStar [chStar, chCan, chB, ch0, ch0]]
  writes := []
  forks := [.child (7, 8) (9, 10) (11, 12) 99]
  errno := none
  trace := []

/-- The reader of the new task is listened to while the text that was typed ahead still fills
the ring; its first read event ends the program. -/
theorem reads_without_room : ∃ s₀ s, Started s₀ ∧ (∀ p, 2 ≤ (s₀.fifo p).size) ∧ MainRun s₀ s ∧
    ∃ r, (s.pipes .inputMaster).readAtom = some r ∧ Listens s r ∧
      fifoAvail (s.fifo .inputMaster) = 0 ∧ pipeAutoRead s .inputMaster = .error (.abort, s) := by
  obtain ⟨s₀, s, h₀, hrun, htest⟩ := played_run typedAhead
    [.echoScanner, .autoRead .inputMaster, .autoRead .masterOutput]
    (fun _ s => fifoAvail (s.fifo .inputMaster) = 0 ∧
      ∃ r ∈ (s.pipes .inputMaster).readAtom, Listens s r) (by decide +kernel)
  obtain ⟨havail, r, hr, hlistens⟩ := of_decide_eq_true htest
  refine ⟨s₀, s, h₀.1, fun p => ?_, hrun, r, hr, hlistens, havail, ?_⟩
  · rw [h₀.2]
    decide
  · rw [pipeAutoRead, if_pos havail]

/-- A full ring towards the master takes nothing from the other direction. -/
theorem roomyRun_reads_with_room_typed : ∃ s₀ s, RoomyRun s₀ s ∧
    fifoAvail (s.fifo .inputMaster) = 0 ∧ Listens s .master ∧ 0 < fifoAvail (s.fifo .masterOutput) := by
  obtain ⟨s₀, h₀, htest⟩ := Result.ok_of_passes (show (launch typedAhead).passes (fun s₀ =>
    fifoAvail (s₀.fifo .inputMaster) ≠ 0 ∧ (step s₀ .echoScanner).passes (fun s₁ =>
      (step s₁ (.autoRead .inputMaster)).passes (fun s => fifoAvail (s.fifo .inputMaster) = 0 ∧
        (s.pipes .masterOutput).readAtom = some .master ∧ Listens s .master)) = true) = true
    by decide +kernel)
  obtain ⟨hroom, htest⟩ := of_decide_eq_true htest
  obtain ⟨s₁, h₁, htest⟩ := Result.ok_of_passes htest
  obtain ⟨s, h₂, htest⟩ := Result.ok_of_passes htest
  obtain ⟨hfull, hr, hlistens⟩ := of_decide_eq_true htest
  obtain ⟨hstarted, hsizes⟩ := launch_ok h₀
  have hrun : RoomyRun s₀ s :=
    .next (.next .start .echoScanner hroom h₁) (.autoRead .inputMaster) (fun _ hp => by cases hp) h₂
  have hsize : ∀ p, 2 ≤ (s₀.fifo p).size := by
    intro p
    rw [hsizes]
    decide
  exact ⟨s₀, s, hrun, hfull, hlistens,
    (roomyRun_reads_with_room hstarted hsize hrun .masterOutput .master hr hlistens).1⟩

end Rzh
