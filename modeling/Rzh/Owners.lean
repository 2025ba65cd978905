import Mathlib.Data.List.Infix
import Rzh.Calls

/-!
# Whose text is queued

One ring holds the text for every task that comes and goes. Each byte in it is owed to the task
that was topmost when it came in; a removal hands what is left of it to the task below.
-/
namespace Rzh

open Circular Sys

/-- The stack as it was when a byte came in: whose byte it is, and who is below. -/
abbrev Owner := List TaskState

/-- Bytes of `owner` come in behind `q` while bytes go out in order, until `left` are left. If more
come in than there is room for, the ring keeps the newest and `lost` are lost. The descriptor that
each byte has gone out to, and whose bytes are left. -/
def passage (owner : Owner) (q : List Owner) (calls : List Call) (left lost : Nat) :
    List (Owner × Int) × List Owner :=
  let fds := receivers calls
  let all := q ++ List.replicate (fds.length + left - q.length + lost) owner
  let passing := all.drop (all.length - (fds.length + left))
  ((passing.take fds.length).zip fds, passing.drop fds.length)

/-- What a move does with the bytes in the ring of the master's output. What comes in is owed to
the topmost task. When a transfer starts, zscan_start drains the ring and leaves the start string
in it before the receive process is installed. -/
def settle (s s' : Sys) (q : List Owner) (early late : Nat) : Move → List (Owner × Int) × List Owner
  | .event (.autoRead .masterOutput) =>
    let calls := newCalls s s'
    if .startProc ∈ calls then
      let drained := passage s.tasks q (calls.takeWhile (· ≠ .startProc)) startString.length early
      let passed := passage s'.tasks drained.2 (calls.dropWhile (· ≠ .startProc))
        (fifoCount (s'.fifo .masterOutput)) late
      (drained.1 ++ passed.1, passed.2)
    else passage s'.tasks q calls (fifoCount (s'.fifo .masterOutput)) late
  | m =>
    if m.pipe = some .masterOutput then
      passage s'.tasks q (newCalls s s') (fifoCount (s'.fifo .masterOutput)) late
    else ([], q)

/-- A run in which every move meets a condition, with the owners of what is in the ring. -/
inductive OwnedRun (Ok : List Owner → Sys → Move → Prop) (s₀ : Sys) : List Owner → Sys → Prop where
  | start : OwnedRun Ok s₀ [] s₀
  | next {q : List Owner} {s s' : Sys} (run : OwnedRun Ok s₀ q s) (m : Move) (hcalled : m.Called s)
    (h : m.run s = .ok s') (hok : Ok q s m) (early late : Nat) :
    OwnedRun Ok s₀ (settle s s' q early late m).2 s'

/-- No receive process is removed while any of its bytes are still in the ring. -/
def LeavesNothing (q : List Owner) (s : Sys) : Move → Prop
  | .event .remove => ∀ task below, s.tasks = task :: below → task.spec.destructProc = .rzt → s.tasks ∉ q
  | _ => True

/-- No byte of a receive process has gone to the descriptor of a task below it. -/
def KeptOff (s : Sys) (out : List (Owner × Int)) : Prop :=
  ∀ x ∈ out, ∀ task ∈ x.1.head?, task.spec.destructProc = .rzt →
    ∀ b ∈ x.1.tail, b ∈ s.tasks → x.2 ≠ (s.atoms (.write b.addr)).fd

instance (s : Sys) (out : List (Owner × Int)) : Decidable (KeptOff s out) :=
  inferInstanceAs (Decidable (∀ x ∈ out, ∀ task ∈ x.1.head?, task.spec.destructProc = .rzt →
    ∀ b ∈ x.1.tail, b ∈ s.tasks → x.2 ≠ (s.atoms (.write b.addr)).fd))

section Passage

variable {owner o : Owner} {q : List Owner} {calls : List Call} {left lost : Nat} {fd : Int}

theorem passage_mem (h : (o, fd) ∈ (passage owner q calls left lost).1) :
    (o ∈ q ∨ o = owner) ∧ fd ∈ receivers calls := by
  obtain ⟨ho, hfd⟩ := List.of_mem_zip h
  have hall := List.mem_of_mem_drop (List.mem_of_mem_take ho)
  obtain hq | hnew := List.mem_append.mp hall
  · exact ⟨.inl hq, hfd⟩
  · exact ⟨.inr (List.eq_of_mem_replicate hnew), hfd⟩

theorem passage_rest (h : o ∈ (passage owner q calls left lost).2) : o ∈ q ∨ o = owner := by
  have hall := List.mem_of_mem_drop (List.mem_of_mem_drop h)
  obtain hq | hnew := List.mem_append.mp hall
  · exact .inl hq
  · exact .inr (List.eq_of_mem_replicate hnew)

theorem passage_left : (passage owner q calls left lost).2.length = left := by
  simp only [passage, List.length_drop, List.length_append, List.length_replicate]
  omega

theorem receivers_takeWhile (h : fd ∈ receivers (calls.takeWhile (· ≠ .startProc))) : fd ∈ receivers calls := by
  rw [← List.takeWhile_append_dropWhile (p := fun c => decide (c ≠ .startProc)) (l := calls), receivers_append]
  exact List.mem_append_left _ h

theorem receivers_dropWhile (h : fd ∈ receivers (calls.dropWhile (· ≠ .startProc))) : fd ∈ receivers calls := by
  rw [← List.takeWhile_append_dropWhile (p := fun c => decide (c ≠ .startProc)) (l := calls), receivers_append]
  exact List.mem_append_right _ h

end Passage

section Settle

variable {s s' : Sys} {q : List Owner} {o : Owner} {fd : Int} {early late : Nat} {m : Move}

/-- What goes out was in the ring or has just come in. -/
theorem settle_out (h : (o, fd) ∈ (settle s s' q early late m).1) :
    m.pipe = some .masterOutput ∧ fd ∈ receivers (newCalls s s') ∧
      (o ∈ q ∨ o = s'.tasks ∨ m ≠ .event .remove ∧ o = s.tasks) := by
  unfold settle at h
  split at h
  · simp only at h
    split at h
    · obtain h | h := List.mem_append.mp h
      · obtain ⟨ho, hfd⟩ := passage_mem h
        refine ⟨rfl, receivers_takeWhile hfd, ?_⟩
        exact ho.imp_right fun ho => .inr ⟨by simp, ho⟩
      · obtain ⟨ho, hfd⟩ := passage_mem h
        refine ⟨rfl, receivers_dropWhile hfd, ?_⟩
        obtain ho | ho := ho
        · exact (passage_rest ho).imp_right fun ho => .inr ⟨by simp, ho⟩
        · exact .inr (.inl ho)
    · obtain ⟨ho, hfd⟩ := passage_mem h
      exact ⟨rfl, hfd, ho.imp_right .inl⟩
  · split at h
    · next hpipe =>
      obtain ⟨ho, hfd⟩ := passage_mem h
      exact ⟨hpipe, hfd, ho.imp_right .inl⟩
    · cases h

theorem settle_rest (h : o ∈ (settle s s' q early late m).2) :
    o ∈ q ∨ o = s'.tasks ∨ m ≠ .event .remove ∧ o = s.tasks := by
  unfold settle at h
  split at h
  · simp only at h
    split at h
    · obtain ho | ho := passage_rest h
      · exact (passage_rest ho).imp_right fun ho => .inr ⟨by simp, ho⟩
      · exact .inr (.inl ho)
    · exact (passage_rest h).imp_right .inl
  · split at h
    · exact (passage_rest h).imp_right .inl
    · exact .inl h

/-- Every byte in the ring has an owner. -/
theorem settle_left (hpipe : m.pipe = some .masterOutput) :
    (settle s s' q early late m).2.length = fifoCount (s'.fifo .masterOutput) := by
  unfold settle
  split
  · simp only
    split
    · exact passage_left
    · exact passage_left
  · rw [if_pos hpipe]
    exact passage_left

theorem settle_other (hpipe : m.pipe ≠ some .masterOutput) : settle s s' q early late m = ([], q) := by
  unfold settle
  split
  · exact absurd rfl hpipe
  · rw [if_neg hpipe]

end Settle

/-- A stretch after which no byte has gone to a descriptor that `W` is not true of. -/
def Writes (W : Int → Prop) (s s' : Sys) : Prop := ∃ n fds, Does W n fds s s'

namespace Writes

variable {W W' : Int → Prop} {s s' s'' : Sys}

theorem refl (W : Int → Prop) (s : Sys) : Writes W s s := ⟨0, [], .refl W s⟩

theorem trans (h : Writes W s s') (h' : Writes W s' s'') : Writes W s s'' := by
  obtain ⟨n, fds, h⟩ := h
  obtain ⟨n', fds', h'⟩ := h'
  exact ⟨n + n', fds ++ fds', h.trans h'⟩

theorem mono (h : Writes W s s') (hW : ∀ fd, W fd → W' fd) : Writes W' s s' := by
  obtain ⟨n, fds, hforks, calls, htrace, hto, hclosed⟩ := h
  exact ⟨n, fds, hforks, calls, htrace, fun fd hfd => hW fd (hto fd hfd), hclosed⟩

theorem of_mayFork (h : MayFork W s s') : Writes W s s' := by
  obtain h | h := h
  · exact ⟨_, _, h⟩
  · exact ⟨_, _, h⟩

theorem of_shuts {a : Option AtomRef} (h : Shuts W a s s') : Writes W s s' := by
  obtain ⟨fds, h⟩ := h.does
  exact ⟨_, fds, h⟩

/-- What the new calls show. -/
theorem newCalls (h : Writes W s s') : ∀ fd ∈ receivers (newCalls s s'), W fd := by
  obtain ⟨n, fds, -, calls, htrace, hto, -⟩ := h
  rw [Rzh.newCalls, htrace, List.drop_left]
  exact hto

end Writes

/-- Not the descriptor of any of these tasks. -/
def Spares (bs : List TaskState) (s : Sys) (fd : Int) : Prop := ∀ b ∈ bs, fd ≠ (s.atoms (.write b.addr)).fd

section Moves

variable {s s' : Sys} {p : PipeRef} {m : Move}

/-- An atom shares its descriptor with no other. -/
theorem spares_of_ne {a : AtomRef} {bs : List TaskState} (hwf : s.WF) (ha : InUse s.tasks a)
    (hbs : ∀ b ∈ bs, b ∈ s.tasks ∧ .write b.addr ≠ a) (hl : s.live a) : Spares bs s (s.atoms a).fd := by
  intro b hb he
  obtain ⟨hmem, hne⟩ := hbs b hb
  exact hne ((hwf.held a ha).eq_of_fd (hwf.held _ (.write hmem)) hl he.symm)

/-- A task's descriptor is not that of a task below it. -/
theorem spares_below {t : TaskState} {above below : List TaskState} (hwf : s.WF)
    (htasks : s.tasks = above ++ t :: below) (hl : s.live (.write t.addr)) :
    Spares below s (s.atoms (.write t.addr)).fd := by
  have hnodup := hwf.nodup
  rw [htasks, List.map_append, List.map_cons] at hnodup
  have hbelow := (List.nodup_cons.mp (List.nodup_append.mp hnodup).2.1).1
  have hmem : ∀ b ∈ t :: below, b ∈ s.tasks := by
    rw [htasks]
    exact fun b hb => List.mem_append_right above hb
  refine spares_of_ne hwf (.write (hmem t List.mem_cons_self)) (fun b hb => ?_) hl
  refine ⟨hmem b (List.mem_cons_of_mem t hb), fun he => hbelow ?_⟩
  exact List.mem_map.mpr ⟨b, hb, AtomRef.write.inj he⟩

/-- What goes out of the ring goes to no task below the topmost one. -/
theorem writer_spares (hwf : s.WF) : ∀ w, (s.pipes .masterOutput).writeAtom = some w →
    0 ≤ (s.atoms w).fd → Spares s.tasks.tail s (s.atoms w).fd := by
  intro w hw hl
  cases htasks : s.tasks with
  | nil =>
    intro b hb
    cases hb
  | cons t below =>
    obtain rfl := Option.some.inj (hw.symm.trans (hwf.top t below htasks).2)
    have hsplit : s.tasks = [] ++ t :: below := htasks
    exact spares_below hwf hsplit hl

theorem pipeFifoRead_writes {W : Int → Prop}
    (hW : ∀ r, (s.pipes p).readAtom = some r → 0 ≤ (s.atoms r).fd → W (s.atoms r).fd) :
    Result.Ends Prod.snd (Writes W s) (pipeFifoRead s p) := by
  apply (readAtom_ends s p (.refl W s)).bind
  intro r hr _
  apply ((fifoRead_does (hW r (readAtom_ok hr)) s p).mono fun _ h => .of_mayFork h).bind
  intro x _ h₁
  obtain ⟨cnt, s₁⟩ := x
  simp only
  split
  · apply (readAtom_ends s₁ p h₁).bind
    intro r' _ _
    exact h₁.trans ⟨_, _, .closeAtom s₁ r'⟩
  · exact h₁

/-- A read event of the master leaves the tasks there are in place, perhaps below a new one. -/
theorem pipeFifoRead_stack {cnt : Int} (hwf : s.WF) (h : pipeFifoRead s .masterOutput = .ok (cnt, s')) :
    s'.WF ∧ (∀ b ∈ s.tasks, (s'.atoms (.write b.addr)).fd = (s.atoms (.write b.addr)).fd) ∧
      (s'.tasks = s.tasks ∨ ∃ t, s'.tasks = t :: s.tasks) := by
  obtain ⟨r, s₁, -, hfifo, hclose⟩ := pipeFifoRead_ok h
  have heffect := fifoRead_ok hfifo
  have hwf₁ := heffect.wf hwf
  have hstack : (∀ b ∈ s.tasks, (s₁.atoms (.write b.addr)).fd = (s.atoms (.write b.addr)).fd) ∧
      (s₁.tasks = s.tasks ∨ ∃ t, s₁.tasks = t :: s.tasks) := by
    cases heffect with
    | filtered h₁ =>
      refine ⟨fun b _ => ?_, .inl h₁.tasks⟩
      rw [h₁.sameAtoms.atoms]
    | @started s₃ s₄ _ spec _ h₁ _ h₂ h₃ =>
      have hinstalled := taskInstall_ok (h₁.wf hwf) h₂
      have htasks : s₄.tasks = ⟨s₃.fresh, spec⟩ :: s₃.tasks := by rw [hinstalled.rest]
      refine ⟨fun b hb => ?_, .inr ⟨⟨s₃.fresh, spec⟩, ?_⟩⟩
      · rw [h₃.sameAtoms.atoms, hinstalled.fd _ (.write (h₁.tasks.symm ▸ hb)), h₁.sameAtoms.atoms]
      · rw [h₃.tasks, htasks, h₁.tasks]
  obtain ⟨-, rfl⟩ | ⟨-, r', hr', rfl⟩ := hclose
  · exact ⟨hwf₁, hstack⟩
  · obtain rfl := Option.some.inj (hr'.symm.trans hwf₁.masterOut)
    have hshape := shape_closeAtom s₁ .master
    refine ⟨hwf₁.mayClose .master hshape (.closed (.refl _)), fun b hb => ?_, ?_⟩
    · rw [closeAtom_atoms, Function.update_of_ne (by simp), hstack.1 b hb]
    · rw [show (closeAtom s₁ .master).tasks = s₁.tasks from congrArg Shape.tasks hshape]
      exact hstack.2

/-- What is drained goes back to the master, and the rest to the topmost task, which may be new. -/
theorem pipeAutoRead_spares (hwf : s.WF) :
    Writes (Spares s.tasks s) s (pipeAutoRead s .masterOutput).endState ∨
      Writes (Spares s.tasks.tail s) s (pipeAutoRead s .masterOutput).endState ∧
        (pipeAutoRead s .masterOutput).endState.tasks = s.tasks := by
  have hread : Result.Ends Prod.snd (Writes (Spares s.tasks s) s) (pipeFifoRead s .masterOutput) := by
    apply pipeFifoRead_writes
    intro r hr hl
    obtain rfl := Option.some.inj (hr.symm.trans hwf.masterOut)
    exact spares_of_ne hwf .master (fun b hb => ⟨hb, by simp⟩) hl
  rw [pipeAutoRead]
  split
  · exact .inl (.refl _ s)
  · cases hres : pipeFifoRead s .masterOutput with
    | error e =>
      rw [hres] at hread
      exact .inl hread
    | ok x =>
      obtain ⟨cnt, s₂⟩ := x
      obtain ⟨hwf₂, hfd, hstack⟩ := pipeFifoRead_stack hwf hres
      rw [hres] at hread
      have hread : Writes (Spares s.tasks s) s s₂ := hread
      have hrest : ∀ {W}, (∀ w, (s₂.pipes .masterOutput).writeAtom = some w → 0 ≤ (s₂.atoms w).fd →
          W (s₂.atoms w).fd) → Writes W s₂ (pipeAutoReadRest s₂ .masterOutput).endState ∧
            (pipeAutoReadRest s₂ .masterOutput).endState.tasks = s₂.tasks := by
        intro W hW
        have hshuts := ends_id.mp (pipeAutoReadRest_shuts hW)
        exact ⟨.of_shuts hshuts, hshuts.tasks⟩
      change Writes _ s (pipeAutoReadRest s₂ .masterOutput).endState ∨
        Writes _ s (pipeAutoReadRest s₂ .masterOutput).endState ∧
          (pipeAutoReadRest s₂ .masterOutput).endState.tasks = s.tasks
      have hbelow : ∀ b ∈ s₂.tasks.tail, b ∈ s.tasks := by
        obtain hsame | ⟨t, hpushed⟩ := hstack
        · rw [hsame]
          exact fun b hb => List.mem_of_mem_tail hb
        · rw [hpushed]
          exact fun b hb => hb
      have htop : ∀ w, (s₂.pipes .masterOutput).writeAtom = some w → 0 ≤ (s₂.atoms w).fd →
          Spares s₂.tasks.tail s (s₂.atoms w).fd := by
        intro w hw hl b hb
        rw [← hfd b (hbelow b hb)]
        exact writer_spares hwf₂ w hw hl b hb
      obtain ⟨hwrites, htasks⟩ := hrest htop
      obtain hsame | ⟨t, hpushed⟩ := hstack
      · rw [hsame] at hwrites htasks
        exact .inr ⟨(hread.mono fun fd hfd b hb => hfd b (List.mem_of_mem_tail hb)).trans hwrites, htasks⟩
      · rw [hpushed] at hwrites
        exact .inl (hread.trans hwrites)

theorem move_spares (hwf : s.WF) (hpipe : m.pipe = some .masterOutput) (hm : m ≠ .event .remove) :
    Writes (Spares s.tasks s) s (m.run s).endState ∨
      Writes (Spares s.tasks.tail s) s (m.run s).endState ∧ (m.run s).endState.tasks = s.tasks := by
  cases m with
  | event e =>
    cases e with
    | echoScanner => cases hpipe
    | autoRead p =>
      obtain rfl := Option.some.inj hpipe
      exact pipeAutoRead_spares hwf
    | autoWrite p =>
      obtain rfl := Option.some.inj hpipe
      have hshuts := ends_id.mp (pipeAutoWrite_shuts (writer_spares hwf))
      exact .inr ⟨.of_shuts hshuts, hshuts.tasks⟩
    | write p buf =>
      obtain rfl := Option.some.inj hpipe
      have hkeeps : Result.Ends id (Keeps (Spares s.tasks.tail s) s)
          ((Move.event (.write .masterOutput buf)).run s) := by
        apply (pipeWrite_keeps (writer_spares hwf) buf).bind
        intro x _ h
        exact h
      have hkeeps := ends_id.mp hkeeps
      exact .inr ⟨⟨0, [], hkeeps.does⟩, hkeeps.tasks⟩
    | install spec => cases hpipe
    | remove => exact absurd rfl hm
  | finalWrite => cases hpipe
  | typing a => cases hpipe
  | cherr a => cases hpipe

/-- What a destructor writes goes to the task that is topmost then. -/
theorem remove_spares (hwf : s.WF) :
    Writes (Spares s.tasks.tail.tail s) s (taskRemove s).endState ∧
      (taskRemove s).endState.tasks = s.tasks.tail := by
  cases htasks : s.tasks with
  | nil =>
    have heq : taskRemove s = .error (.segv, s) := by rw [taskRemove, htasks]
    rw [heq]
    exact ⟨.refl _ s, htasks⟩
  | cons task below =>
    cases below with
    | nil =>
      have hw := (hwf.top task [] htasks).2
      obtain ⟨htasks', fds, -, hdoes⟩ := ends_id.mp (taskRemove_last (W := Spares [] s) htasks hw
        fun _ b hb => by cases hb)
      exact ⟨⟨0, fds, hdoes⟩, htasks'⟩
    | cons top below =>
      have hsplit : s.tasks = [task] ++ top :: below := htasks
      obtain ⟨htasks', fds, -, hdoes⟩ := ends_id.mp (taskRemove_does (W := Spares below s) htasks
        fun hl => spares_below hwf hsplit hl)
      exact ⟨⟨0, fds, hdoes⟩, htasks'⟩

end Moves

/-- What is owed to a receive process is owed to one that is on the stack, with the same tasks below. -/
def Due (tasks : List TaskState) (q : List Owner) : Prop :=
  ∀ task below, task :: below ∈ q → task.spec.destructProc = .rzt → task :: below <:+ tasks

section Runs

variable {s₀ s s' : Sys} {q : List Owner} {m : Move} {early late : Nat}

/-- A removal that leaves nothing behind leaves what is owed to the tasks below. -/
theorem due_remove {task : TaskState} {below : List TaskState} (hdue : Due s.tasks q)
    (hok : LeavesNothing q s (.event .remove)) (ho : task :: below ∈ q) (hrz : task.spec.destructProc = .rzt) :
    task :: below <:+ s.tasks.tail := by
  have hsuffix := hdue task below ho hrz
  cases htasks : s.tasks with
  | nil =>
    rw [htasks] at hsuffix
    cases List.suffix_nil.mp hsuffix
  | cons t ts =>
    rw [htasks] at hsuffix
    obtain he | hsuffix := List.suffix_cons_iff.mp hsuffix
    · obtain ⟨rfl, rfl⟩ := List.cons.inj he
      exact absurd (htasks ▸ ho) (hok task below htasks hrz)
    · exact hsuffix

/-- After a move that leaves nothing behind, all that is owed is still owed to a task on the stack. -/
theorem due_step (hwf : s.WF) (hdue : Due s.tasks q) (hok : LeavesNothing q s m) (h : m.run s = .ok s') :
    Due s'.tasks (settle s s' q early late m).2 := by
  intro task below ho hrz
  by_cases hm : m = .event .remove
  · subst hm
    have htasks : s'.tasks = s.tasks.tail := by
      have hremove := (remove_spares hwf).2
      have heq : taskRemove s = .ok s' := h
      rw [heq] at hremove
      exact hremove
    obtain ho | ho | ⟨hne, -⟩ := settle_rest ho
    · rw [htasks]
      exact due_remove hdue hok ho hrz
    · rw [ho]
    · exact absurd rfl hne
  · have hsuffix : s.tasks <:+ s'.tasks := by
      obtain hsame | ⟨t, hpushed⟩ := move_tasks hwf hm h
      · rw [hsame]
      · rw [hpushed]
        exact List.suffix_cons t s.tasks
    obtain ho | ho | ⟨-, ho⟩ := settle_rest ho
    · exact (hdue task below ho hrz).trans hsuffix
    · rw [ho]
    · rw [ho]
      exact hsuffix

/-- So no byte of a receive process goes to a task below it, even if the move halts. -/
theorem keptOff_step (hwf : s.WF) (hdue : Due s.tasks q) (hok : LeavesNothing q s m) :
    KeptOff s (settle s (m.run s).endState q early late m).1 := by
  intro x ho task htask hrz b hb hmem
  obtain ⟨o, fd⟩ := x
  obtain ⟨below, rfl⟩ := List.head?_eq_some_iff.mp htask
  have htail : ∀ {ts : List TaskState}, task :: below <:+ ts → b ∈ ts.tail := by
    intro ts hsuffix
    obtain ⟨above, rfl⟩ := hsuffix
    cases above with
    | nil => exact hb
    | cons t above => exact List.mem_append_right above (List.mem_cons_of_mem task hb)
  obtain ⟨hpipe, hfd, ho⟩ := settle_out ho
  by_cases hm : m = .event .remove
  · subst hm
    obtain ⟨hwrites, htasks⟩ := remove_spares hwf
    apply hwrites.newCalls fd hfd b
    apply htail
    obtain ho | ho | ⟨hne, -⟩ := ho
    · exact due_remove hdue hok ho hrz
    · rw [ho, ← htasks]
      exact List.suffix_rfl
    · exact absurd rfl hne
  · obtain hwrites | ⟨hwrites, htasks⟩ := move_spares hwf hpipe hm
    · exact hwrites.newCalls fd hfd b hmem
    · apply hwrites.newCalls fd hfd b
      apply htail
      obtain ho | ho | ⟨-, ho⟩ := ho
      · exact hdue task below ho hrz
      · rw [ho, htasks]
      · rw [ho]

theorem stable_ring (n : Nat) : Stable .inputMaster fun s => fifoCount (s.fifo .masterOutput) = n where
  flush h _ hf := by rw [Sys.fifo, hf.other _ (by simp), ← Sys.fifo, h]
  enable h _ _ := h
  disable h _ _ := h
  block h b := by rw [Sys.fifo, setPipe_ne _ _ (by simp), ← Sys.fifo, h]

/-- A move that writes nothing of the ring leaves the ring alone. -/
theorem move_ring (hwf : s.WF) (hpipe : m.pipe ≠ some .masterOutput) (h : m.run s = .ok s') :
    fifoCount (s'.fifo .masterOutput) = fifoCount (s.fifo .masterOutput) := by
  have hinstall : ∀ {s s' : Sys} {spec : TaskSpec}, s.WF → taskInstall s spec = .ok s' →
      fifoCount (s'.fifo .masterOutput) = fifoCount (s.fifo .masterOutput) := by
    intro s s' spec hwf h
    rw [Sys.fifo, (taskInstall_ok hwf h).masterOutput]
    rfl
  have hfiltered : ∀ {s s' : Sys}, Filtered .inputMaster s s' →
      fifoCount (s'.fifo .masterOutput) = fifoCount (s.fifo .masterOutput) := by
    intro s s' h
    rw [Sys.fifo, h.other _ (by simp), ← Sys.fifo]
  cases m with
  | event e =>
    cases e with
    | echoScanner =>
      have hspec := echoScannerCreateSpec_filtered s .inputMaster
      rw [hinstall (hspec.wf hwf) h, hfiltered hspec]
    | autoRead p =>
      cases p with
      | masterOutput => exact absurd rfl hpipe
      | inputMaster =>
        obtain ⟨r, s₁, s₂, -, -, heffect, hclose, hrest⟩ := pipeAutoRead_ok h
        have hafter : fifoCount (s'.fifo .masterOutput) = fifoCount (s₁.fifo .masterOutput) := by
          rw [(stable_ring _).readRest rfl hrest]
          obtain rfl | ⟨r', -, rfl⟩ := hclose
          · rfl
          · rw [Sys.fifo, (closeAtom_rest s₁ r').1, ← Sys.fifo]
        rw [hafter]
        cases heffect with
        | filtered h₁ => exact hfiltered h₁
        | started _ h₁ _ h₂ h₃ => rw [hfiltered h₃, hinstall (h₁.wf hwf) h₂, hfiltered h₁]
    | autoWrite p =>
      cases p with
      | masterOutput => exact absurd rfl hpipe
      | inputMaster => exact (stable_ring _).autoWrite rfl h
    | write p buf =>
      cases p with
      | masterOutput => exact absurd rfl hpipe
      | inputMaster =>
        obtain ⟨⟨total, s₁⟩, hwrite, h⟩ := Result.bind_ok h
        cases h
        obtain ⟨w, hw, -⟩ := pipeWrite_ok hwrite
        rw [Sys.fifo, (pipeWrite_poured hw hwrite).other _ (by simp), ← Sys.fifo]
    | install spec => exact hinstall hwf h
    | remove => exact absurd rfl hpipe
  | finalWrite =>
    obtain ⟨w, -, ⟨rfl, -⟩ | rfl⟩ := finalWrite_ok h
    · rfl
    · rw [Sys.fifo, setFifo_ne _ _ _ (by simp), ← Sys.fifo]
  | typing a =>
    obtain ⟨pids, rfl⟩ := typingIoProc_ok h
    rfl
  | cherr a =>
    obtain ⟨-, hrest⟩ := cherrProc_ok h
    rw [hrest]
    rfl

/-- The owners are those of the bytes in the ring. -/
theorem ownedRun_length {Ok : List Owner → Sys → Move → Prop} (h₀ : Started s₀) (run : OwnedRun Ok s₀ q s) :
    s.WF ∧ q.length = fifoCount (s.fifo .masterOutput) := by
  induction run with
  | start =>
    refine ⟨started_wf h₀, ?_⟩
    obtain ⟨_, _, _, _, _, _, hinit⟩ := h₀
    rw [Sys.fifo, (masterPipeInit_ok hinit).2.2.2]
    exact ((Buffer.toList_eq_nil_iff _).mp (fifoInit_contents _ _)).symm
  | next run m hcalled h hok early late ih =>
    obtain ⟨hwf, hlength⟩ := ih
    refine ⟨move_wf hwf hcalled h, ?_⟩
    by_cases hpipe : m.pipe = some .masterOutput
    · exact settle_left hpipe
    · rw [settle_other hpipe, move_ring hwf hpipe h]
      exact hlength

theorem ownedRun_due (h₀ : Started s₀) (run : OwnedRun LeavesNothing s₀ q s) : s.WF ∧ Due s.tasks q := by
  induction run with
  | start =>
    refine ⟨started_wf h₀, ?_⟩
    intro task below ho
    cases ho
  | next run m hcalled h hok early late ih => exact ⟨move_wf ih.1 hcalled h, due_step ih.1 ih.2 hok h⟩

/-- While no receive process is removed with bytes of its own still in the ring, none of its bytes
goes to the descriptor of a task below it, not even in a move that halts the program. -/
theorem ownedRun_keptOff (h₀ : Started s₀) (run : OwnedRun LeavesNothing s₀ q s) :
    q.length = fifoCount (s.fifo .masterOutput) ∧ ∀ m early late, LeavesNothing q s m →
      KeptOff s (settle s (m.run s).endState q early late m).1 := by
  obtain ⟨hwf, hdue⟩ := ownedRun_due h₀ run
  exact ⟨(ownedRun_length h₀ run).2, fun m early late hok => keptOff_step hwf hdue hok⟩

end Runs

/-- So many events from a state with so many owners, with nothing lost. -/
def playOwned : List Owner × Sys → List Event → Result (List Owner × Sys)
  | x, [] => .ok x
  | (q, s), e :: es => do
    let s' ← step s e
    playOwned ((settle s s' q 0 0 (.event e)).2, s') es

theorem playOwned_run {Ok : List Owner → Sys → Move → Prop} {es : List Event} {s₀ s s' : Sys}
    {q q' : List Owner} (hok : ∀ q s, ∀ e ∈ es, Ok q s (.event e)) (run : OwnedRun Ok s₀ q s)
    (h : playOwned (q, s) es = .ok (q', s')) : OwnedRun Ok s₀ q' s' := by
  induction es generalizing q s with
  | nil =>
    cases h
    exact run
  | cons e es ih =>
    obtain ⟨s₁, h₁, h⟩ := Result.bind_ok h
    exact ih (fun q s e he => hok q s e (List.mem_cons_of_mem _ he))
      (.next run (.event e) trivial h₁ (hok q s e List.mem_cons_self) 0 0) h

/-- The kernel under a transfer whose child takes what it is sent. -/
def flowing : Kernel where
  reads := [.data chStar [chStar, chCan, chB, ch0, ch0], .data 104 [105]]
  writes := [.accept 6, .accept 2]
  forks := [.child (7, 8) (9, 10) (11, 12) 99]
  errno := none
  trace := []

theorem ownedRun_keptOff_hi : ∃ s₀ q s out, Started s₀ ∧ OwnedRun LeavesNothing s₀ q s ∧
    out = (settle s (pipeAutoRead s .masterOutput).endState q 0 0 (.event (.autoRead .masterOutput))).1 ∧
    out.map Prod.snd = [8, 8] ∧ KeptOff s out := by
  obtain ⟨s₀, h₀, htest⟩ := Result.ok_of_passes (show (launch flowing).passes (fun s₀ =>
    (playOwned ([], s₀) [.echoScanner, .autoRead .masterOutput]).passes fun x =>
      (settle x.2 (pipeAutoRead x.2 .masterOutput).endState x.1 0 0
        (.event (.autoRead .masterOutput))).1.map Prod.snd = [8, 8]) = true by decide +kernel)
  obtain ⟨⟨q, s⟩, hplay, htest⟩ := Result.ok_of_passes htest
  have hstarted := (launch_ok h₀).1
  have hrun : OwnedRun LeavesNothing s₀ q s := by
    apply playOwned_run _ .start hplay
    intro q s e he
    obtain rfl | he := List.mem_cons.mp he
    · trivial
    · obtain rfl := List.mem_singleton.mp he
      trivial
  exact ⟨s₀, q, s, _, hstarted, hrun, rfl, of_decide_eq_true htest,
    (ownedRun_keptOff hstarted hrun).2 (.event (.autoRead .masterOutput)) 0 0 trivial⟩

/-- The kernel under a transfer whose child takes nothing of what it is sent, and under a terminal that
takes everything. -/
def clogged : Kernel where
  reads := [.data chStar [chStar, chCan, chB, ch0, ch0], .data 104 [105]]
  writes := [.fail .eagain, .fail .eagain, .accept 200]
  forks := [.child (7, 8) (9, 10) (11, 12) 99]
  errno := none
  trace := []

/-- What the child has not taken when its task is removed goes to the terminal. -/
theorem leftovers_leak : ∃ s₀ q s, Started s₀ ∧ OwnedRun (fun _ _ _ => True) s₀ q s ∧
    ¬ KeptOff s (settle s (pipeAutoWrite s .masterOutput).endState q 0 0 (.event (.autoWrite .masterOutput))).1 := by
  obtain ⟨s₀, h₀, htest⟩ := Result.ok_of_passes (show (launch clogged).passes (fun s₀ =>
    (playOwned ([], s₀) [.echoScanner, .autoRead .masterOutput, .autoRead .masterOutput, .remove]).passes
      fun x => ¬ KeptOff x.2 (settle x.2 (pipeAutoWrite x.2 .masterOutput).endState x.1 0 0
        (.event (.autoWrite .masterOutput))).1) = true by decide +kernel)
  obtain ⟨⟨q, s⟩, hplay, htest⟩ := Result.ok_of_passes htest
  exact ⟨s₀, q, s, (launch_ok h₀).1, playOwned_run (fun _ _ _ _ => trivial) .start hplay,
    of_decide_eq_true htest⟩

end Rzh
