import Rzh.Closings

/-!
# Children that exit

The handler of SIGCHLD counts, and the main loop waits for a child when the count is not zero. The
kernel keeps one signal pending at most, and a child may exit, and the handler run, at any time.
-/
namespace Rzh

open Sys

/-- Where the main loop is: outside of master_check_sigchild, or in front of one of its steps. -/
inductive CheckPc where
  | outside
  | waitpid
  | dispatch (pid : Int)
  | reset
  deriving DecidableEq, Repr

/-- How many children are waited for before the count is set back to 0. -/
def CheckPc.waits : CheckPc → Nat
  | .outside | .waitpid => 1
  | .dispatch _ | .reset => 0

/-- The child that has been waited for and that nobody has been told of yet. -/
def CheckPc.inFlight : CheckPc → List Int
  | .dispatch pid => [pid]
  | _ => []

/-- The program, its children and the signal between them. `exited` and `dispatched` are read by no
code: who has exited, and whom task_dispatch_sigchild has been called for. -/
structure SigState where
  sys : Sys
  running : List Int
  zombies : List Int
  exited : List Int
  dispatched : List Int
  pending : Bool
  inHandler : Bool
  sigchildReceived : Nat
  pc : CheckPc

/-- What the children, the kernel, the handler and the main loop do next. -/
inductive SigAct where
  | exit (pid : Int)
  | stop
  | deliver
  | sigchild
  | move (m : Move)
  | check
  | waitpid (pid : Int)
  | noChild
  | dispatch (n : Nat) (pid : Int)
  | reset

def ForkRes.childPid : ForkRes → Option Int
  | .child _ _ _ pid => some pid
  | .fail _ => none

/-- The children that have been forked from one state to another. -/
def forked (s s' : Sys) : List Int :=
  (s.kernel.forks.take (s.kernel.forks.length - s'.kernel.forks.length)).filterMap ForkRes.childPid

namespace SigState

variable (s : SigState)

/-- Neither interrupted by the handler nor anywhere else. -/
def At (pc : CheckPc) : Prop := s.inHandler = false ∧ s.pc = pc

instance (pc : CheckPc) : Decidable (s.At pc) := inferInstanceAs (Decidable (_ ∧ _))

/-- The main loop has got to `sys`. -/
def goOn (sys : Sys) : SigState := { s with sys := sys, running := s.running ++ forked s.sys sys }

/-- One step. The handler interrupts the main loop anywhere, and is not interrupted itself. -/
def step (stChildPid : Int) : SigAct → Option SigState
  | .exit pid =>
    if pid ∈ s.running then
      some { s with
        running := s.running.erase pid, zombies := s.zombies ++ [pid], exited := s.exited ++ [pid]
        pending := true }
    else none
  | .stop => if s.running = [] then none else some { s with pending := true }
  | .deliver =>
    if s.pending = true ∧ s.inHandler = false then some { s with pending := false, inHandler := true } else none
  | .sigchild =>
    if s.inHandler = true then
      some { s with inHandler := false, sigchildReceived := s.sigchildReceived + 1 }
    else none
  | .move m =>
    if s.At .outside then
      match m.run s.sys with
      | .ok sys => some (s.goOn sys)
      | .error _ => none
    else none
  | .check =>
    if s.At .outside ∧ s.sigchildReceived ≠ 0 then some { s with pc := .waitpid } else none
  | .waitpid pid =>
    if s.At .waitpid ∧ pid ∈ s.zombies then
      some { s with zombies := s.zombies.erase pid, pc := .dispatch pid }
    else none
  | .noChild => if s.At .waitpid ∧ s.zombies = [] then some { s with pc := .outside } else none
  | .dispatch n pid =>
    if s.At (.dispatch pid) then
      match (taskDispatchSigchild n stChildPid s.sys pid).run with
      | some (.ok sys) => some { s.goOn sys with dispatched := s.dispatched ++ [pid], pc := .reset }
      | _ => none
    else none
  | .reset => if s.At .reset then some { s with sigchildReceived := 0, pc := .outside } else none

end SigState

/-- The program with its first children, before any of them has exited. -/
def sigInit (sys : Sys) (running : List Int) : SigState where
  sys := sys
  running := running
  zombies := []
  exited := []
  dispatched := []
  pending := false
  inHandler := false
  sigchildReceived := 0
  pc := .outside

/-- An interleaving in which every step meets a condition. -/
inductive SigRun (stChildPid : Int) (Ok : SigState → SigAct → Prop) (s₀ : SigState) : SigState → Prop where
  | start : SigRun stChildPid Ok s₀ s₀
  | next {s s' : SigState} (run : SigRun stChildPid Ok s₀ s) (a : SigAct)
    (hcalled : ∀ m, a = .move m → m.Called s.sys) (hok : Ok s a) (h : s.step stChildPid a = some s') :
    SigRun stChildPid Ok s₀ s'

/-- No signal is under way, and the main loop sees no reason to wait for a child. -/
def Quiet (s : SigState) : Prop := s.At .outside ∧ s.sigchildReceived = 0 ∧ s.pending = false

instance (s : SigState) : Decidable (Quiet s) := inferInstanceAs (Decidable (_ ∧ _))

/-- Whoever has exited has been waited for, and its pid has been dispatched once. -/
def AllReaped (s : SigState) : Prop := s.zombies = [] ∧ s.dispatched.Perm s.exited

/-- When the handler is called, at most one child that has exited has not been waited for, and none if
the main loop is behind the waitpid. -/
def OneAtATime (s : SigState) : SigAct → Prop
  | .deliver => s.zombies.length ≤ s.pc.waits
  | _ => True

/-- No child exits or stops. -/
def SigAct.Unsignalled : SigAct → Prop
  | .exit _ | .stop => False
  | _ => True

/-- The children that are going to be waited for although no signal is pending. -/
def SigState.awaited (s : SigState) : Nat :=
  if s.At .outside ∧ s.sigchildReceived = 0 then 0 else s.pc.waits

/-- Each exit is in one place. -/
def Counted (s : SigState) : Prop :=
  ∀ pid, s.zombies.count pid + s.pc.inFlight.count pid + s.dispatched.count pid = s.exited.count pid

/-- As long as a child has to be waited for, it is going to be, or there is a signal. -/
def Noticed (s : SigState) : Prop := s.pending = true ∨ s.zombies.length ≤ s.awaited

/-- There is a child that nothing is going to make the main loop wait for. -/
def Forgotten (s : SigState) : Prop := s.pending = false ∧ s.awaited < s.zombies.length

section Runs

variable {stChildPid : Int} {s s' s₀ : SigState} {a : SigAct}

namespace SigState

/-- What a step does to the signal and to the children, and where it can be taken. -/
inductive Steps (s : SigState) : SigAct → SigState → Prop where
  | exit (pid : Int) : Steps s (.exit pid) { s with
      running := s.running.erase pid, zombies := s.zombies ++ [pid], exited := s.exited ++ [pid]
      pending := true }
  | stop : Steps s .stop { s with pending := true }
  | deliver (hpending : s.pending = true) (hhandler : s.inHandler = false) :
      Steps s .deliver { s with pending := false, inHandler := true }
  | sigchild (hhandler : s.inHandler = true) :
      Steps s .sigchild { s with inHandler := false, sigchildReceived := s.sigchildReceived + 1 }
  | move (m : Move) (sys : Sys) : Steps s (.move m) (s.goOn sys)
  | check (hat : s.At .outside) (hcount : s.sigchildReceived ≠ 0) : Steps s .check { s with pc := .waitpid }
  | waitpid (pid : Int) (hpc : s.pc = .waitpid) (hmem : pid ∈ s.zombies) :
      Steps s (.waitpid pid) { s with zombies := s.zombies.erase pid, pc := .dispatch pid }
  | noChild (hpc : s.pc = .waitpid) (hnone : s.zombies = []) : Steps s .noChild { s with pc := .outside }
  | dispatch (n : Nat) (pid : Int) (sys : Sys) (hpc : s.pc = .dispatch pid) :
      Steps s (.dispatch n pid) { s.goOn sys with dispatched := s.dispatched ++ [pid], pc := .reset }
  | reset (hat : s.At .reset) : Steps s .reset { s with sigchildReceived := 0, pc := .outside }

theorem step_steps (h : s.step stChildPid a = some s') : s.Steps a s' := by
  cases a with
  | exit pid =>
    simp only [step] at h
    split at h
    · cases h
      exact .exit pid
    · cases h
  | stop =>
    simp only [step] at h
    split at h
    · cases h
    · cases h
      exact .stop
  | deliver =>
    simp only [step] at h
    split at h
    · next hat =>
      cases h
      exact .deliver hat.1 hat.2
    · cases h
  | sigchild =>
    simp only [step] at h
    split at h
    · next hhandler =>
      cases h
      exact .sigchild hhandler
    · cases h
  | move m =>
    simp only [step] at h
    split at h
    · split at h
      · cases h
        exact .move m _
      · cases h
    · cases h
  | check =>
    simp only [step] at h
    split at h
    · next hat =>
      cases h
      exact .check hat.1 hat.2
    · cases h
  | waitpid pid =>
    simp only [step] at h
    split at h
    · next hat =>
      cases h
      exact .waitpid pid hat.1.2 hat.2
    · cases h
  | noChild =>
    simp only [step] at h
    split at h
    · next hat =>
      cases h
      exact .noChild hat.1.2 hat.2
    · cases h
  | dispatch n pid =>
    simp only [step] at h
    split at h
    · next hat =>
      split at h
      · cases h
        exact .dispatch n pid _ hat.2
      · cases h
    · cases h
  | reset =>
    simp only [step] at h
    split at h
    · next hat =>
      cases h
      exact .reset hat
    · cases h

end SigState

open SigState

theorem awaited_le (s : SigState) : s.awaited ≤ s.pc.waits := by
  rw [awaited]
  split
  · exact Nat.zero_le _
  · exact Nat.le_refl _

theorem Counted.step (hs : Counted s) (h : s.Steps a s') : Counted s' := by
  intro pid
  have hcount := hs pid
  cases h with
  | exit pid' =>
    simp only [List.count_append]
    omega
  | stop => exact hcount
  | deliver => exact hcount
  | sigchild => exact hcount
  | move m sys => exact hcount
  | check hat =>
    rw [hat.2] at hcount
    exact hcount
  | waitpid pid' hpc hmem =>
    have htaken := (List.perm_cons_erase hmem).count_eq pid
    rw [hpc] at hcount
    rw [List.count_cons] at htaken
    simp only [CheckPc.inFlight, List.count_nil, List.count_singleton] at hcount ⊢
    omega
  | noChild hpc =>
    rw [hpc] at hcount
    exact hcount
  | dispatch n pid' sys hpc =>
    rw [hpc] at hcount
    simp only [goOn, CheckPc.inFlight, List.count_nil, List.count_append] at hcount ⊢
    omega
  | reset hat =>
    rw [hat.2] at hcount
    exact hcount

theorem Noticed.step (hs : Noticed s) (hok : OneAtATime s a) (h : s.Steps a s') : Noticed s' := by
  cases h with
  | exit pid => exact .inl rfl
  | stop => exact .inl rfl
  | deliver =>
    right
    rw [awaited, if_neg (by simp [At])]
    exact hok
  | sigchild hhandler =>
    refine hs.imp_right fun hle => ?_
    rw [awaited, if_neg (by simp)]
    exact hle.trans (awaited_le s)
  | move m sys => exact hs
  | check hat hcount =>
    refine hs.imp_right fun hle => ?_
    have hone := hle.trans (awaited_le s)
    rw [hat.2] at hone
    rw [awaited, if_neg (by simp [At])]
    exact hone
  | waitpid pid hpc hmem =>
    refine hs.imp_right fun hle => ?_
    have hone := hle.trans (awaited_le s)
    rw [hpc, CheckPc.waits] at hone
    have hlength := List.length_erase_of_mem hmem
    simp only
    omega
  | noChild hpc hnone =>
    right
    simp [hnone]
  | dispatch n pid sys hpc =>
    refine hs.imp_right fun hle => ?_
    have hnone := hle.trans (awaited_le s)
    rw [hpc] at hnone
    exact hnone.trans (Nat.zero_le _)
  | reset hat =>
    refine hs.imp_right fun hle => ?_
    have hnone := hle.trans (awaited_le s)
    rw [hat.2] at hnone
    exact hnone.trans (Nat.zero_le _)

/-- The handler has been called when more children had exited than are going to be waited for. -/
theorem forgotten_of_deliver (hlate : ¬ OneAtATime s .deliver) (h : s.Steps .deliver s') : Forgotten s' := by
  cases h with
  | deliver => exact ⟨rfl, Nat.lt_of_le_of_lt (awaited_le _) (Nat.not_le.mp hlate)⟩

theorem Forgotten.step (hs : Forgotten s) (hno : a.Unsignalled) (h : s.Steps a s') : Forgotten s' := by
  obtain ⟨hpending, hlt⟩ := hs
  cases h with
  | exit pid => exact hno.elim
  | stop => exact hno.elim
  | deliver hpending' =>
    rw [hpending] at hpending'
    cases hpending'
  | sigchild hhandler =>
    rw [awaited, if_neg (by simp [At, hhandler])] at hlt
    exact ⟨hpending, Nat.lt_of_le_of_lt (awaited_le _) hlt⟩
  | move m sys => exact ⟨hpending, hlt⟩
  | check hat hcount =>
    rw [awaited, if_neg (fun hno => hcount hno.2), hat.2] at hlt
    exact ⟨hpending, Nat.lt_of_le_of_lt (awaited_le _) hlt⟩
  | waitpid pid hpc hmem =>
    refine ⟨hpending, Nat.lt_of_le_of_lt (awaited_le _) ?_⟩
    rw [awaited, if_neg (by simp [At, hpc]), hpc, CheckPc.waits] at hlt
    have hlength := List.length_erase_of_mem hmem
    simp only [CheckPc.waits]
    omega
  | noChild hpc hnone =>
    rw [hnone] at hlt
    cases hlt
  | dispatch n pid sys hpc =>
    exact ⟨hpending, Nat.lt_of_le_of_lt (awaited_le _) (Nat.lt_of_le_of_lt (Nat.zero_le _) hlt)⟩
  | reset hat =>
    refine ⟨hpending, Nat.lt_of_le_of_lt ?_ hlt⟩
    rw [awaited, if_pos ⟨⟨hat.1, rfl⟩, rfl⟩]
    exact Nat.zero_le _

/-- An interleaving keeps what its steps keep. -/
theorem SigRun.keeps {Ok : SigState → SigAct → Prop} {P : SigState → Prop}
    (hstep : ∀ {s a s'}, P s → Ok s a → s.Steps a s' → P s') (h₀ : P s₀) (run : SigRun stChildPid Ok s₀ s) :
    P s := by
  induction run with
  | start => exact h₀
  | next _ a _ hok h ih => exact hstep ih hok (step_steps h)

theorem SigRun.counted {Ok : SigState → SigAct → Prop} {sys : Sys} {running : List Int}
    (run : SigRun stChildPid Ok (sigInit sys running) s) : Counted s :=
  run.keeps (fun hs _ h => hs.step h) fun _ => rfl

theorem Noticed.allReaped (hs : Noticed s) (hcounted : Counted s) (hq : Quiet s) : AllReaped s := by
  obtain ⟨hat, hcount, hpending⟩ := hq
  have hnone : s.zombies = [] := by
    obtain h | hle := hs
    · rw [hpending] at h
      cases h
    · rw [awaited, if_pos ⟨hat, hcount⟩] at hle
      exact List.length_eq_zero_iff.mp (Nat.le_zero.mp hle)
  refine ⟨hnone, List.perm_iff_count.mpr fun pid => ?_⟩
  have hpid := hcounted pid
  rw [hnone, hat.2] at hpid
  simpa [CheckPc.inFlight] using hpid

/-- Every child is waited for and dispatched if the handler is called for one child at a time. A call
that comes when more have exited leaves one that nobody waits for until another child exits or stops. -/
theorem sigRun_allReaped (stChildPid : Int) (sys : Sys) (running : List Int) :
    (∀ s, SigRun stChildPid OneAtATime (sigInit sys running) s → Quiet s → AllReaped s) ∧
      ∀ s a s' s'', SigRun stChildPid (fun _ _ => True) (sigInit sys running) s →
        s.step stChildPid a = some s' → ¬ OneAtATime s a →
        SigRun stChildPid (fun _ a => a.Unsignalled) s' s'' → ¬ AllReaped s'' := by
  constructor
  · intro s run hq
    have hs : Noticed s := run.keeps Noticed.step (.inr (Nat.zero_le _))
    exact hs.allReaped run.counted hq
  · intro s a s' s'' _ h hlate run hall
    have hdeliver : a = .deliver := by
      cases a with
      | deliver => rfl
      | _ => exact absurd trivial hlate
    subst hdeliver
    have hs : Forgotten s'' := run.keeps Forgotten.step (forgotten_of_deliver hlate (step_steps h))
    have hlt := hs.2
    rw [hall.1] at hlt
    cases hlt

end Runs

instance (s : SigState) : (a : SigAct) → Decidable (OneAtATime s a)
  | .deliver => inferInstanceAs (Decidable (_ ≤ _))
  | .exit _ => .isTrue trivial
  | .stop => .isTrue trivial
  | .sigchild => .isTrue trivial
  | .move _ => .isTrue trivial
  | .check => .isTrue trivial
  | .waitpid _ => .isTrue trivial
  | .noChild => .isTrue trivial
  | .dispatch _ _ => .isTrue trivial
  | .reset => .isTrue trivial

/-- So many steps that meet a condition, with the events of the main loop among them. -/
def playSig (stChildPid : Int) (ok : SigState → SigAct → Bool) : SigState → List SigAct → Option SigState
  | s, [] => some s
  | s, a :: as => if ok s a = true then (s.step stChildPid a).bind fun s => playSig stChildPid ok s as else none

theorem playSig_run {stChildPid : Int} {Ok : SigState → SigAct → Prop} {ok : SigState → SigAct → Bool}
    (hok : ∀ s a, ok s a = true → Ok s a ∧ ∀ m, a = .move m → m.Called s.sys) {as : List SigAct}
    {s₀ s s' : SigState} (run : SigRun stChildPid Ok s₀ s) (h : playSig stChildPid ok s as = some s') :
    SigRun stChildPid Ok s₀ s' := by
  induction as generalizing s with
  | nil =>
    cases h
    exact run
  | cons a as ih =>
    rw [playSig] at h
    split at h
    · next htrue =>
      obtain ⟨s₁, h₁, h⟩ := Option.bind_eq_some_iff.mp h
      exact ih (.next run a (hok s a htrue).2 (hok s a htrue).1 h₁) h
    · cases h

/-- Whether a step is none of the main loop or one of its events. -/
def SigAct.isEvent : SigAct → Bool
  | .move (.event _) => true
  | .move _ => false
  | _ => true

theorem called_of_isEvent {a : SigAct} {s : Sys} (h : a.isEvent = true) : ∀ m, a = .move m → m.Called s := by
  intro m hm
  subst hm
  cases m with
  | event e => trivial
  | finalWrite => trivial
  | typing b => trivial
  | cherr b => cases h

/-- From the shell's start to that of a transfer. -/
def begins : List SigAct := [.move (.event .echoScanner), .move (.event (.autoRead .masterOutput))]

/-- The receive process exits, and its signal is handled before it is waited for. -/
theorem sigRun_allReaped_transfer : ∃ sys s, launch finished = .ok sys ∧
    SigRun 100 OneAtATime (sigInit sys [100]) s ∧ s.dispatched = [99] ∧ AllReaped s := by
  obtain ⟨sys, hsys, htest⟩ := Result.ok_of_passes (show (launch finished).passes (fun sys =>
    (playSig 100 (fun s a => decide (OneAtATime s a) && a.isEvent) (sigInit sys [100])
      (begins ++ [.exit 99, .deliver, .sigchild, .check, .waitpid 99, .dispatch 3 99, .reset])).elim false fun s =>
        Quiet s ∧ s.dispatched = [99]) = true by decide +kernel)
  cases hplay : playSig 100 (fun s a => decide (OneAtATime s a) && a.isEvent) (sigInit sys [100])
      (begins ++ [.exit 99, .deliver, .sigchild, .check, .waitpid 99, .dispatch 3 99, .reset]) with
  | none =>
    rw [hplay] at htest
    cases htest
  | some s =>
    rw [hplay] at htest
    obtain ⟨hquiet, hdispatched⟩ := of_decide_eq_true htest
    have hrun : SigRun 100 OneAtATime (sigInit sys [100]) s := by
      apply playSig_run _ .start hplay
      intro s a h
      rw [Bool.and_eq_true] at h
      exact ⟨of_decide_eq_true h.1, called_of_isEvent h.2⟩
    exact ⟨sys, s, hsys, hrun, hdispatched, (sigRun_allReaped 100 sys [100]).1 s hrun hquiet⟩

/-- The receive process and the shell exit, and there is one signal for both. -/
theorem shell_lost : ∃ sys s, launch finished = .ok sys ∧
    SigRun 100 (fun _ _ => True) (sigInit sys [100]) s ∧ Quiet s ∧ ¬ AllReaped s := by
  obtain ⟨sys, hsys, htest⟩ := Result.ok_of_passes (show (launch finished).passes (fun sys =>
    (playSig 100 (fun _ a => a.isEvent) (sigInit sys [100])
      (begins ++ [.exit 99, .exit 100, .deliver, .sigchild, .check, .waitpid 99, .dispatch 3 99, .reset])).elim
        false fun s => Quiet s ∧ s.zombies = [100]) = true by decide +kernel)
  cases hplay : playSig 100 (fun _ a => a.isEvent) (sigInit sys [100])
      (begins ++ [.exit 99, .exit 100, .deliver, .sigchild, .check, .waitpid 99, .dispatch 3 99, .reset]) with
  | none =>
    rw [hplay] at htest
    cases htest
  | some s =>
    rw [hplay] at htest
    obtain ⟨hquiet, hzombies⟩ := of_decide_eq_true htest
    have hrun : SigRun 100 (fun _ _ => True) (sigInit sys [100]) s :=
      playSig_run (fun s a h => ⟨trivial, called_of_isEvent h⟩) .start hplay
    refine ⟨sys, s, hsys, hrun, hquiet, fun hall => ?_⟩
    have hnone := hall.1
    rw [hzombies] at hnone
    cases hnone

end Rzh
