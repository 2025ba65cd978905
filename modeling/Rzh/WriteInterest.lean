import Rzh.MainLoop

/-!
# Who is woken up to write

The interest in writing belongs to a descriptor, the text that waits to be written to a
pipe. When the pipe is spliced to another task the interest does not go with it.
-/
namespace Rzh

open Circular Sys

/-- The topmost task is woken up for what is queued, and no other task is woken up at all. -/
def WriteFollows (s : Sys) : Prop :=
  ∀ t below, s.tasks = t :: below →
    (fifoCount (s.fifo .masterOutput) ≠ 0 → s.live (.write t.addr) →
      s.wants .write (.write t.addr) = true) ∧
    ∀ b ∈ below, s.wants .write (.write b.addr) = false

/-- The three ways to get another topmost task; `start` is the scanner's, inside a read event. -/
inductive Switch where
  | install (spec : TaskSpec)
  | start (p : PipeRef)
  | remove

def Switches (s : Sys) : Switch → Sys → Prop
  | .install spec, s' => taskInstall s spec = .ok s'
  | .start p, s' => pipeAutoRead s p = .ok s' ∧ s'.tasks ≠ s.tasks
  | .remove, s' => taskRemove s = .ok s'

/-- No task that stays below is being woken up. In an installation nothing is queued that the new
writer would have to be woken up for; the read event of the pipe itself wakes it up. After a
removal the destructor's text does, or the task that comes back is still being woken up. -/
def FollowsWhen (s : Sys) : Switch → Prop
  | .install spec =>
    (∀ t ∈ s.tasks, s.wants .write (.write t.addr) = false) ∧
      (fifoCount (s.fifo .masterOutput) = 0 ∨ spec.outfd < 0)
  | .start p =>
    (∀ t ∈ s.tasks, s.wants .write (.write t.addr) = false) ∧
      (p = .inputMaster → fifoCount (s.fifo .masterOutput) = 0)
  | .remove =>
    ∀ task top below, s.tasks = task :: top :: below →
      (∀ b ∈ below, s.wants .write (.write b.addr) = false) ∧
      (fifoCount (s.fifo .masterOutput) = 0 ∨ ¬ s.live (.write top.addr) ∨
        s.wants .write (.write top.addr) = true ∨ farewell s task.spec ≠ [])

section Rest

variable {p : PipeRef} {w a : AtomRef} {s s' : Sys}

/-- Writing the fifo out concerns no other atom than the writer, and the reader's reading. -/
theorem ReadRest.bystander (hwf : s.WF) (h : ReadRest s p s') (hw : (s.pipes p).writeAtom = some w)
    (ha : InUse s.tasks a) (hne : a ≠ w) :
    (s'.live a ↔ s.live a) ∧ s'.wants .write a = s.wants .write a := by
  have hheld := hwf.held a ha
  have hheldW := hwf.held w (hwf.inUse p w (.inr hw))
  have hflush : ∀ {cnt sent s₁}, Flushed p w cnt sent s s₁ →
      (s₁.live a ↔ s.live a) ∧ s₁.wants .write a = s.wants .write a := by
    intro cnt sent s₁ hf
    exact ⟨hf.atoms.live_of_ne hne, hf.atoms.wants_of_ne hheldW hheld hne .write⟩
  cases h with
  | idle => exact ⟨Iff.rfl, rfl⟩
  | sent hw' hf =>
    obtain rfl := Option.some.inj (hw'.symm.trans hw)
    exact hflush hf
  | left hw' hf =>
    obtain rfl := Option.some.inj (hw'.symm.trans hw)
    obtain ⟨hl, hwants⟩ := hflush hf
    refine ⟨hl, ?_⟩
    rw [wants_enable (hf.atoms.held hheldW hheldW) (hf.atoms.held hheldW hheld), if_neg (fun he => hne he.1)]
    exact hwants
  | @full w' r' _ _ s₁ hw' hr hf =>
    obtain rfl := Option.some.inj (hw'.symm.trans hw)
    obtain ⟨hl, hwants⟩ := hflush hf
    have hw₁ := hf.atoms.held hheldW hheldW
    have ha₁ := hf.atoms.held hheldW hheld
    have hr₁ := hf.atoms.held hheldW (hwf.held r' (hwf.inUse p r' (.inl hr)))
    refine ⟨hl, ?_⟩
    rw [(sameAtoms_setPipe _ _ _).wants,
      wants_disable (held_enable hr₁ [.write]) (held_enable ha₁ [.write]), if_neg (by simp),
      wants_enable hw₁ ha₁, if_neg (fun he => hne he.1)]
    exact hwants

/-- What is left in the ring has a write event coming. -/
theorem ReadRest.wakes (hwf : s.WF) (h : ReadRest s p s') (hw : (s.pipes p).writeAtom = some w) :
    fifoCount (s'.fifo p) ≠ 0 → s'.live w → s'.wants .write w = true := by
  have hheldW := hwf.held w (hwf.inUse p w (.inr hw))
  intro hne hl
  cases h with
  | idle hcount => exact absurd hcount hne
  | sent hw' hf hcount => exact absurd hcount hne
  | left hw' hf =>
    obtain rfl := Option.some.inj (hw'.symm.trans hw)
    have hw₁ := hf.atoms.held hheldW hheldW
    rw [wants_enable hw₁ hw₁, if_pos ⟨rfl, hl, by simp⟩]
  | @full w' r' _ _ s₁ hw' hr hf =>
    obtain rfl := Option.some.inj (hw'.symm.trans hw)
    have hw₁ := hf.atoms.held hheldW hheldW
    have hr₁ := hf.atoms.held hheldW (hwf.held r' (hwf.inUse p r' (.inl hr)))
    rw [(sameAtoms_setPipe _ _ _).wants,
      wants_disable (held_enable hr₁ [.write]) (held_enable hw₁ [.write]), if_neg (by simp),
      wants_enable hw₁ hw₁, if_pos ⟨rfl, hl, by simp⟩]

end Rest

/-- The property as it is decided by the topmost task and those below it. -/
theorem writeFollows_iff {s : Sys} {t : TaskState} {below : List TaskState} (h : s.tasks = t :: below) :
    WriteFollows s ↔
      (fifoCount (s.fifo .masterOutput) ≠ 0 → s.live (.write t.addr) →
        s.wants .write (.write t.addr) = true) ∧
      ∀ b ∈ below, s.wants .write (.write b.addr) = false := by
  constructor
  · exact fun hs => hs t below h
  · intro hs t' below' h'
    rw [h] at h'
    obtain ⟨rfl, rfl⟩ := List.cons.inj h'
    exact hs

/-- The tasks that are below before and after are woken up after if they were before. -/
theorem quiet_iff {s s' : Sys} {tasks : List TaskState}
    (h : ∀ b ∈ tasks, s'.wants .write (.write b.addr) = s.wants .write (.write b.addr)) :
    (∀ b ∈ tasks, s'.wants .write (.write b.addr) = false) ↔
      ∀ b ∈ tasks, s.wants .write (.write b.addr) = false := by
  constructor
  · intro hquiet b hb
    rw [← h b hb]
    exact hquiet b hb
  · intro hquiet b hb
    rw [h b hb]
    exact hquiet b hb

theorem woken_iff {count : Nat} {live : Prop} {woken : Bool} :
    (count ≠ 0 → live → woken = true) ↔ (count = 0 ∨ ¬ live ∨ woken = true) := by
  by_cases hzero : count = 0
  · exact ⟨fun _ => .inl hzero, fun _ hne => absurd hzero hne⟩
  · by_cases hlive : live
    · simp [hzero, hlive]
    · exact ⟨fun _ => .inr (.inl hlive), fun _ _ hl => absurd hl hlive⟩

theorem writeFollows_install {s s' : Sys} {spec : TaskSpec} (hwf : s.WF)
    (h : taskInstall s spec = .ok s') : WriteFollows s' ↔ FollowsWhen s (.install spec) := by
  have hin := taskInstall_ok hwf h
  have htasks : s'.tasks = ⟨s.fresh, spec⟩ :: s.tasks := by rw [hin.rest]
  have hcount : fifoCount (s'.fifo .masterOutput) = fifoCount (s.fifo .masterOutput) := by
    rw [Sys.fifo, hin.masterOutput]
    rfl
  have hbelow : ∀ t ∈ s.tasks, s'.wants .write (.write t.addr) = s.wants .write (.write t.addr) := by
    intro t ht
    obtain he | ⟨he, -⟩ := hin.wants _ (.write ht) .write
    · exact he
    · cases he
  have hoff : (¬ 0 ≤ spec.outfd ∨ false = true) ↔ spec.outfd < 0 := by simp
  rw [writeFollows_iff htasks, hcount, hin.liveW, hin.writeW, FollowsWhen, quiet_iff hbelow, woken_iff, hoff,
    and_comm]

theorem writeFollows_remove {s s' : Sys} (hwf : s.WF) (h : taskRemove s = .ok s') :
    WriteFollows s' ↔ FollowsWhen s .remove := by
  obtain ⟨task, top, below, s₁, s₂, htasks, hun, hwrites, rfl⟩ := taskRemove_ok hwf h
  have hw : (s₁.pipes .masterOutput).writeAtom = some (.write top.addr) := by rw [hun.masterOutput]
  have hpoured := pipeWrites_poured hwrites hw
  have htasks₁ : s₁.tasks = top :: below := by rw [hun.rest]
  have htasks' : ({ s₂ with kernel := s₂.kernel.closes task.spec.closed } : Sys).tasks = top :: below :=
    hpoured.tasks.trans htasks₁
  have hinUse : ∀ t ∈ top :: below, InUse s₁.tasks (.write t.addr) := by
    rw [htasks₁]
    exact fun t ht => .write ht
  have hheld : s₁.Held (.write top.addr) := hun.wf.held _ (hinUse top List.mem_cons_self)
  have hwants₁ : ∀ t ∈ top :: below, s₁.wants .write (.write t.addr) = s.wants .write (.write t.addr) := by
    intro t ht
    obtain he | ⟨he, -⟩ := hun.wants _ (.write ht) .write
    · exact he
    · cases he
  have hnodup := hun.wf.nodup
  rw [htasks₁] at hnodup
  have hbelow : ∀ b ∈ below, s₂.wants .write (.write b.addr) = s.wants .write (.write b.addr) := by
    intro b hb
    have hmem := List.mem_cons_of_mem top hb
    obtain ⟨he, -⟩ | he := hpoured.wants hheld _ (hun.wf.held _ (hinUse b hmem)) .write
    · exact absurd he (InUse.ne_of_nodup hnodup (.write hb)).2.1
    · rw [he, hwants₁ b hmem]
  have hlive : s₂.live (.write top.addr) ↔ s.live (.write top.addr) := by
    rw [Sys.live, Sys.live, hpoured.atoms, hun.fd _ (.write List.mem_cons_self)]
  have hcount₁ : fifoCount (s₁.fifo .masterOutput) = fifoCount (s.fifo .masterOutput) := by
    rw [Sys.fifo, hun.masterOutput]
    rfl
  have htop : (fifoCount (s₂.fifo .masterOutput) ≠ 0 → s₂.live (.write top.addr) →
        s₂.wants .write (.write top.addr) = true) ↔
      (fifoCount (s.fifo .masterOutput) = 0 ∨ ¬ s.live (.write top.addr) ∨
        s.wants .write (.write top.addr) = true ∨ farewell s task.spec ≠ []) := by
    by_cases hfarewell : farewell s task.spec = []
    · -- nothing is written, so all is as it was before
      rw [hfarewell] at hwrites
      obtain rfl : s₁ = s₂ := by
        cases hwrites
        rfl
      have hsilent : (s.wants .write (.write top.addr) = true ∨ farewell s task.spec ≠ []) ↔
          s.wants .write (.write top.addr) = true := by simp [hfarewell]
      rw [hcount₁, hlive, hwants₁ top List.mem_cons_self, woken_iff, hsilent]
    · exact ⟨fun _ => .inr (.inr (.inr hfarewell)), fun _ =>
        pipeWrites_wakes hwrites hw hheld hfarewell (farewell_ne_nil s task.spec)⟩
  have hwhen : FollowsWhen s .remove ↔ (∀ b ∈ below, s.wants .write (.write b.addr) = false) ∧
      (fifoCount (s.fifo .masterOutput) = 0 ∨ ¬ s.live (.write top.addr) ∨
        s.wants .write (.write top.addr) = true ∨ farewell s task.spec ≠ []) := by
    constructor
    · exact fun hwhen => hwhen task top below htasks
    · intro hwhen task' top' below' htasks''
      rw [htasks] at htasks''
      obtain ⟨rfl, htail⟩ := List.cons.inj htasks''
      obtain ⟨rfl, rfl⟩ := List.cons.inj htail
      exact hwhen
  rw [writeFollows_iff htasks', hwhen, ← htop, ← quiet_iff hbelow, and_comm]
  exact Iff.rfl

theorem ReadEffect.tasks {p : PipeRef} {buf : List UInt8} {s s' : Sys} (hwf : s.WF)
    (h : ReadEffect p buf s s') :
    s'.tasks = s.tasks ∨ ∃ s₁ s₂ spec, Filtered p s s₁ ∧ (0 ≤ spec.infd ∧ 0 ≤ spec.outfd) ∧
      Installed spec s₁ s₂ ∧ Filtered p s₂ s' := by
  cases h with
  | filtered h => exact .inl h.tasks
  | started _ h₁ hfd h₂ h₃ => exact .inr ⟨_, _, _, h₁, hfd, taskInstall_ok (h₁.wf hwf) h₂, h₃⟩

/-- The closing of the reader does not concern a writer. -/
theorem closed_writers {p : PipeRef} {s s' : Sys} {top : TaskState} {below : List TaskState} (hwf : s.WF)
    (htasks : s.tasks = top :: below) (h : s' = s ∨ ∃ r, (s.pipes p).readAtom = some r ∧ s' = closeAtom s r) :
    s'.WF ∧ s'.shape = s.shape ∧ s'.pipes = s.pipes ∧ ∀ t ∈ s.tasks,
      (s'.live (.write t.addr) ↔ s.live (.write t.addr)) ∧
        s'.wants .write (.write t.addr) = s.wants .write (.write t.addr) := by
  obtain rfl | ⟨r, hr, rfl⟩ := h
  · exact ⟨hwf, rfl, rfl, fun t ht => ⟨Iff.rfl, rfl⟩⟩
  · have hm : MayClose r s (closeAtom s r) := .closed (.refl _)
    have hinUse := hwf.inUse p r (.inl hr)
    refine ⟨hwf.mayClose hinUse (shape_closeAtom s r) hm, shape_closeAtom s r, (closeAtom_rest s r).1, ?_⟩
    intro t ht
    have hne := hwf.write_ne_reader htasks hr t.addr
    exact ⟨hm.live_of_ne hne, hm.wants_of_ne (hwf.held r hinUse) (hwf.held _ (.write ht)) hne .write⟩

theorem writeFollows_start {p : PipeRef} {s s' : Sys} (hwf : s.WF) (h : pipeAutoRead s p = .ok s')
    (hne : s'.tasks ≠ s.tasks) : WriteFollows s' ↔ FollowsWhen s (.start p) := by
  obtain ⟨r, s₃, s₄, -, -, heffect, hclose, hrest⟩ := pipeAutoRead_ok h
  have hwf₃ := heffect.wf hwf
  obtain htasks | ⟨s₁, s₂, spec, h₁, ⟨-, hfd⟩, hin, h₃⟩ := heffect.tasks hwf
  · have hshape : s'.shape = s₃.shape := by
      obtain rfl | ⟨r', -, rfl⟩ := hclose
      · exact hrest.shape
      · exact hrest.shape.trans (shape_closeAtom s₃ r')
    exact absurd ((congrArg Shape.tasks hshape).trans htasks) hne
  have htasks₂ : s₂.tasks = ⟨s₁.fresh, spec⟩ :: s.tasks := by rw [hin.rest, h₁.tasks]
  have htasks₃ : s₃.tasks = ⟨s₁.fresh, spec⟩ :: s.tasks := h₃.tasks.trans htasks₂
  obtain ⟨hwf₄, hshape₄, hpipes₄, hclosed⟩ := closed_writers hwf₃ htasks₃ hclose
  have htasks₄ : s₄.tasks = ⟨s₁.fresh, spec⟩ :: s.tasks := (congrArg Shape.tasks hshape₄).trans htasks₃
  have htasks' : s'.tasks = s₃.tasks := congrArg Shape.tasks (hrest.shape.trans hshape₄)
  have hwriter : ∀ t ∈ (⟨s₁.fresh, spec⟩ :: s.tasks : List TaskState),
      (s₄.live (.write t.addr) ↔ s₂.live (.write t.addr)) ∧
        s₄.wants .write (.write t.addr) = s₂.wants .write (.write t.addr) := by
    rw [← htasks₃]
    intro t ht
    rw [← h₃.sameAtoms.live, ← h₃.sameAtoms.wants]
    exact hclosed t ht
  have hbelow₂ : ∀ b ∈ s.tasks, s₂.wants .write (.write b.addr) = s.wants .write (.write b.addr) := by
    intro b hb
    rw [← h₁.sameAtoms.wants]
    obtain he | ⟨he, -⟩ := hin.wants (.write b.addr) (by rw [h₁.tasks]; exact .write hb) .write
    · exact he
    · cases he
  have hmem : ∀ b ∈ s.tasks, b ∈ (⟨s₁.fresh, spec⟩ :: s.tasks : List TaskState) :=
    fun b hb => List.mem_cons_of_mem _ hb
  have hinUse₄ : ∀ t ∈ (⟨s₁.fresh, spec⟩ :: s.tasks : List TaskState), InUse s₄.tasks (.write t.addr) := by
    rw [htasks₄]
    exact fun t ht => .write ht
  rw [writeFollows_iff (htasks'.trans htasks₃), FollowsWhen]
  cases p with
  | masterOutput =>
    have hw₄ := (hwf₄.top _ _ htasks₄).2
    have hwakes := hrest.wakes hwf₄ hw₄
    have hbelow : ∀ b ∈ s.tasks, s'.wants .write (.write b.addr) = s.wants .write (.write b.addr) := by
      intro b hb
      have hnodup := hwf₄.nodup
      rw [htasks₄] at hnodup
      have hne' := (InUse.ne_of_nodup hnodup (.write hb)).2.1
      rw [(hrest.bystander hwf₄ hw₄ (hinUse₄ b (hmem b hb)) hne').2, (hwriter b (hmem b hb)).2, hbelow₂ b hb]
    rw [quiet_iff hbelow]
    exact ⟨fun hfollows => ⟨hfollows.2, fun he => by cases he⟩, fun hwhen => ⟨hwakes, hwhen.1⟩⟩
  | inputMaster =>
    have hall : ∀ t ∈ (⟨s₁.fresh, spec⟩ :: s.tasks : List TaskState),
        (s'.live (.write t.addr) ↔ s₂.live (.write t.addr)) ∧
          s'.wants .write (.write t.addr) = s₂.wants .write (.write t.addr) := by
      intro t ht
      obtain ⟨hl, hwants⟩ := hrest.bystander hwf₄ hwf₄.masterIn (hinUse₄ t ht) (by simp)
      obtain ⟨hl₄, hwants₄⟩ := hwriter t ht
      exact ⟨hl.trans hl₄, hwants.trans hwants₄⟩
    obtain ⟨hl, hwants⟩ := hall _ List.mem_cons_self
    have hlive := hin.liveW.mpr hfd
    have hcount : fifoCount (s'.fifo .masterOutput) = fifoCount (s.fifo .masterOutput) := by
      have hne' : PipeRef.masterOutput ≠ .inputMaster := by decide
      rw [Sys.fifo, hrest.other hne', hpipes₄, h₃.other _ hne', hin.masterOutput, Sys.fifo, Sys.fifo,
        h₁.other _ hne']
      rfl
    have hbelow : ∀ b ∈ s.tasks, s'.wants .write (.write b.addr) = s.wants .write (.write b.addr) :=
      fun b hb => (hall b (hmem b hb)).2.trans (hbelow₂ b hb)
    have htop : (fifoCount (s.fifo .masterOutput) = 0 ∨ ¬ s₂.live (.write s₁.fresh) ∨ false = true) ↔
        (PipeRef.inputMaster = .inputMaster → fifoCount (s.fifo .masterOutput) = 0) := by simp [hlive]
    rw [hcount, hl, hwants, hin.writeW, quiet_iff hbelow, woken_iff, htop, and_comm]

/-- After a task has come or gone, write interest follows the splice exactly in these states. -/
theorem writeFollows_iff_followsWhen {s s' : Sys} (hwf : s.WF) (e : Switch) (h : Switches s e s') :
    WriteFollows s' ↔ FollowsWhen s e := by
  cases e with
  | install spec => exact writeFollows_install hwf h
  | start p => exact writeFollows_start hwf h.1 h.2
  | remove => exact writeFollows_remove hwf h

/-- The kernel under a terminal that takes two bytes of a greeting, and under a child that is
sent for next. -/
def greeting : Kernel where
  reads := [.data 104 [101, 108, 108, 111], .data chStar [chStar, chCan, chB, ch0, ch0]]
  writes := [.accept 2, .accept 3, .accept 6]
  forks := [.child (7, 8) (9, 10) (11, 12) 99]
  errno := none
  trace := []

/-- The scanner starts a transfer while the terminal is being woken up for the rest of the
greeting, and nobody tells it that there is nothing left to write. -/
theorem writeFollows_fails : ∃ s₀ s s', Started s₀ ∧ MainRun s₀ s ∧
    Switches s (.start .masterOutput) s' ∧ ¬ WriteFollows s' := by
  obtain ⟨s₀, s, h₀, hrun, htest⟩ := played_run greeting [.echoScanner, .autoRead .masterOutput]
    (fun _ s => s.tasks.length = 1 ∧ (pipeAutoRead s .masterOutput).passes (fun s' =>
      s'.tasks.length = 2 ∧ ∃ b ∈ s'.tasks.tail, s'.wants .write (.write b.addr)) = true)
    (by decide +kernel)
  obtain ⟨hone, htest⟩ := of_decide_eq_true htest
  obtain ⟨s', hread, htest⟩ := Result.ok_of_passes htest
  obtain ⟨htwo, b, hb, hwants⟩ := of_decide_eq_true htest
  refine ⟨s₀, s, s', h₀.1, hrun, ⟨hread, fun he => ?_⟩, fun hfollows => ?_⟩
  · rw [he, hone] at htwo
    cases htwo
  · cases htasks : s'.tasks with
    | nil =>
      rw [htasks] at hb
      cases hb
    | cons t below =>
      rw [htasks] at hb
      rw [(hfollows t below htasks).2 b hb] at hwants
      cases hwants

/-- A task on top of the scanner, before anything has come. -/
theorem writeFollows_iff_followsWhen_second : ∃ s s', s.WF ∧ WriteFollows s' ∧
    (WriteFollows s' ↔ FollowsWhen s (.install { taskCreateSpec 9 with infd := 7, outfd := 8 })) := by
  obtain ⟨s₀, s, h₀, hrun, htest⟩ := played_run greeting [.echoScanner]
    (fun _ s => fifoCount (s.fifo .masterOutput) = 0 ∧
      (∀ t ∈ s.tasks, s.wants .write (.write t.addr) = false) ∧
      (taskInstall s { taskCreateSpec 9 with infd := 7, outfd := 8 }).passes (fun _ => true) = true)
    (by decide +kernel)
  obtain ⟨hzero, hquiet, htest⟩ := of_decide_eq_true htest
  obtain ⟨s', hinstall, -⟩ := Result.ok_of_passes htest
  have hwf : s.WF := mainRun_wf h₀.1 hrun
  have hiff := writeFollows_iff_followsWhen hwf (.install _) hinstall
  exact ⟨s, s', hwf, hiff.mpr ⟨hquiet, .inl hzero⟩, hiff⟩

end Rzh
