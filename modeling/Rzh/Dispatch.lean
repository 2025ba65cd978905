import Mathlib.Data.List.Nodup
import Rzh.IoCalls

/-!
# io_wait and io_dispatch

The loop that calls the procs walks the answer of select() while the procs change the registry
under it: they add and delete atoms, also on numbers that the loop has yet to come to.
-/
namespace Rzh

/-- An atom keeps its descriptor for as long as it is registered. -/
def IoCall.Fits (io : IoSelect) : IoCall → Prop
  | .add atom fd _ => ∀ n, io.connections n = some atom → fd = n
  | _ => True

/-- The registries that calls lead to, none of them about the number that is let into the array
wrongly. -/
inductive IoRun : IoSelect → Prop where
  | init : IoRun ioInit
  | call {io : IoSelect} (run : IoRun io) (c : IoCall) (hfd : c.fd ≠ fdSetsize) (h : c.Fits io) :
    IoRun (ioCall io c).2

/-- Select() is asked about registered descriptors alone, the loop gets to all of them, and an
atom has one number. -/
structure IoSelect.Consistent (io : IoSelect) : Prop where
  asked : ∀ i n, io.fdSets i n = true → io.connections n ≠ none
  covered : ∀ n, io.connections n ≠ none → (n : Int) ≤ io.maxFd
  unique : ∀ m n atom, io.connections m = some atom → io.connections n = some atom → m = n

abbrev FdSets := Interest → Nat → Bool

/-- What select() comes back with. -/
inductive SelectRet where
  | ready (fds : FdSets)
  | eintr
  | error

/-- The sets after select(): the bits of the first `nfds` descriptors say which are ready. -/
def select (nfds : Int) (asked ready : FdSets) : FdSets := fun i fd =>
  if (fd : Int) < nfds then asked i fd && ready i fd else asked i fd

/-- An error leaves the sets as they were; an interrupted call is made again. -/
def ioWait (io : IoSelect) : List SelectRet → Option (SelectRet × FdSets)
  | [] => none
  | .eintr :: rets => ioWait io rets
  | .error :: _ => some (.error, io.fdSets)
  | .ready fds :: _ => some (.ready fds, select (1 + io.maxFd) io.fdSets fds)

/-- What select() has said of the descriptors that it was asked about. -/
def SelectRet.reported (io : IoSelect) : SelectRet → FdSets
  | .ready fds => fun i fd => decide ((fd : Int) ≤ io.maxFd) && (io.fdSets i fd && fds i fd)
  | _ => fun _ _ => false

/-- A proc is called, and the registries that there have been since io_wait. -/
@[ext] structure ProcCall where
  fd : Nat
  atom : AtomRef
  flags : List Interest
  since : List IoSelect

/-- The loop underway: all registries since io_wait, the calls that the procs have made with what
came back (the latest first), where these have touched the array and the sets, and the procs called. -/
structure Dispatching where
  io : IoSelect
  history : List IoSelect
  made : List (IoCall × Option IoError)
  places : List Int
  procs : List ProcCall

namespace Dispatching

def call (p : Dispatching) (c : IoCall) : Dispatching :=
  { p with
    io := (ioCall p.io c).2
    history := (ioCall p.io c).2 :: p.history
    made := (c, (ioCall p.io c).1) :: p.made
    places := p.places ++ c.places p.io }

/-- A proc is called and does what `does` says. -/
def proc (p : Dispatching) (does : ProcCall → List IoCall) (c : ProcCall) : Dispatching :=
  (does c).foldl call { p with procs := p.procs ++ [c] }

end Dispatching

def flagsOf (gfd : FdSets) (fd : Nat) : List Interest :=
  [.read, .write, .except].filter fun i => gfd i fd

/-- The body of the loop. -/
def ioVisit (gfd : FdSets) (does : ProcCall → List IoCall) (p : Dispatching) (fd : Nat) : Dispatching :=
  let flags := flagsOf gfd fd
  if flags = [] then p
  else match p.io.connections fd with
    | some atom => p.proc does ⟨fd, atom, flags, p.history⟩
    -- only a message: an event on an unknown connection
    | none => p

/-- Whether the last call to change who has a number has given it to an atom. -/
def renewed (fd : Nat) : List (IoCall × Option IoError) → Bool
  | [] => false
  | (.add _ fd' _, none) :: made => decide (fd'.toNat = fd) || renewed fd made
  | (.del fd', none) :: made => decide (fd'.toNat ≠ fd) && renewed fd made
  | _ :: made => renewed fd made

section Loop

variable (io : IoSelect) (gfd : FdSets) (does : ProcCall → List IoCall)

/-- The loop up to a descriptor. -/
def dispatchTo : Nat → Dispatching
  | 0 => ⟨io, [io], [], [], []⟩
  | fd + 1 => ioVisit gfd does (dispatchTo fd) fd

/-- The bound of the loop is the one at its start. -/
def ioDispatch : Dispatching := dispatchTo io gfd does (io.maxFd + 1).toNat

/-- What is asked of a pass over `gfd`, where select() has reported `ready`. -/
structure Fresh (ready : FdSets) : Prop where
  inside : io.maxFd < fdSetsize ∧ ∀ n ∈ (ioDispatch io gfd does).places, 0 ≤ n ∧ n < fdSetsize
  registered : ∀ c ∈ (ioDispatch io gfd does).procs, ∀ io' ∈ c.since,
    io'.connections c.fd = some c.atom
  reported : ∀ c ∈ (ioDispatch io gfd does).procs, ∀ i ∈ c.flags, ready i c.fd = true
  once : ((ioDispatch io gfd does).procs.map ProcCall.atom).Nodup
  called : ∀ fd atom i, ready i fd = true →
    (∀ io' ∈ (dispatchTo io gfd does fd).history, io'.connections fd = some atom) →
    ∃ c ∈ (ioDispatch io gfd does).procs, c.fd = fd ∧ c.atom = atom

/-- Select() has not failed, or was asked about nothing; no proc makes a call about FD_SETSIZE; and none
has given a number to an atom that is in the sets and that the loop comes to after it. -/
def NoneRenewed (ret : SelectRet) : Prop :=
  (ret ≠ .error ∨ ∀ i fd, io.fdSets i fd = false) ∧
    (∀ made ∈ (ioDispatch io gfd does).made, made.1.fd ≠ fdSetsize) ∧
    ∀ fd, flagsOf gfd fd ≠ [] → renewed fd (dispatchTo io gfd does fd).made = false

end Loop

/-! ## The registry -/

section Registry

variable {io : IoSelect}

/-- What a call does to who has a number: nothing, or the number was free and is an atom's, or it
is free. -/
theorem ioCall_slot (io : IoSelect) (c : IoCall) (fd : Nat) :
    ((ioCall io c).2.connections fd = io.connections fd ∧
        ∀ made, renewed fd ((c, (ioCall io c).1) :: made) = renewed fd made) ∨
      (io.connections fd = none ∧ (ioCall io c).2.connections fd ≠ none ∧
        ∀ made, renewed fd ((c, (ioCall io c).1) :: made) = true) ∨
      ((ioCall io c).2.connections fd = none ∧
        ∀ made, renewed fd ((c, (ioCall io c).1) :: made) = false) := by
  cases c with
  | add atom fd' flags =>
    simp only [ioCall, ioAdd]
    split
    · exact .inl ⟨rfl, fun made => rfl⟩
    · next n hn =>
      obtain ⟨-, -, rfl, hfree⟩ := IoSelect.lookup_ok hn
      by_cases h : fd = fd'.toNat
      · subst h
        refine .inr (.inl ⟨by simpa using hfree, ?_, fun made => ?_⟩)
        · simp [IoSelect.install]
        · simp [renewed]
      · refine .inl ⟨?_, fun made => ?_⟩
        · simp [IoSelect.install, h]
        · simp [renewed, Ne.symm h]
  | set fd' flags =>
    simp only [ioCall, ioSet]
    split <;> exact .inl ⟨rfl, fun made => rfl⟩
  | enable fd' flags =>
    simp only [ioCall, ioEnable]
    split <;> exact .inl ⟨rfl, fun made => rfl⟩
  | disable fd' flags =>
    simp only [ioCall, ioDisable]
    split <;> exact .inl ⟨rfl, fun made => rfl⟩
  | del fd' =>
    simp only [ioCall, ioDel]
    split
    · exact .inl ⟨rfl, fun made => rfl⟩
    · next n hn =>
      obtain ⟨-, -, rfl, -⟩ := IoSelect.lookup_ok hn
      by_cases h : fd = fd'.toNat
      · subst h
        refine .inr (.inr ⟨?_, fun made => ?_⟩)
        · simp [IoSelect.install]
        · simp [renewed]
      · refine .inl ⟨?_, fun made => ?_⟩
        · simp [IoSelect.install, h]
        · simp [renewed, Ne.symm h]

theorem ioInit_consistent : ioInit.Consistent where
  asked := ioInit_covers.asked
  covered := ioInit_covers.covered
  unique _ _ _ h := nomatch h

/-- A number that an atom gets by a call was free, and no other number is the atom's. -/
theorem ioCall_given {c : IoCall} (hc : c.Fits io) {n : Nat} {atom : AtomRef}
    (h : (ioCall io c).2.connections n = some atom) (hnew : io.connections n ≠ some atom) :
    ∀ m, io.connections m ≠ some atom := by
  cases c with
  | add atom' fd flags =>
    simp only [ioCall, ioAdd] at h
    split at h
    · exact absurd h hnew
    · next k hk =>
      obtain ⟨h0, -, rfl, hfree⟩ := IoSelect.lookup_ok hk
      simp only [IoSelect.install] at h
      split at h
      · cases h
        intro m hm
        have heq : fd.toNat = m := by
          have := hc m hm
          omega
        rw [heq, hm] at hfree
        cases hfree
      · exact absurd h hnew
  | set fd flags =>
    simp only [ioCall, ioSet] at h
    split at h <;> exact absurd h hnew
  | enable fd flags =>
    rw [ioCall, ioEnable_connections] at h
    exact absurd h hnew
  | disable fd flags =>
    rw [ioCall, ioDisable_connections] at h
    exact absurd h hnew
  | del fd =>
    simp only [ioCall, ioDel] at h
    split at h
    · exact absurd h hnew
    · simp only [IoSelect.install] at h
      split at h
      · cases h
      · exact absurd h hnew

theorem IoSelect.Consistent.call (h : io.Consistent) {c : IoCall} (hc : c.Fits io) :
    (ioCall io c).2.Consistent := by
  have hcovers : io.Covers := ⟨h.asked, h.covered⟩
  refine ⟨(hcovers.call c).asked, (hcovers.call c).covered, ?_⟩
  intro m n atom hm hn
  by_cases hold : io.connections m = some atom ∧ io.connections n = some atom
  · exact h.unique m n atom hold.1 hold.2
  · have hnone : ∀ k, io.connections k ≠ some atom := by
      by_cases hm' : io.connections m = some atom
      · exact ioCall_given hc hn fun hn' => hold ⟨hm', hn'⟩
      · exact ioCall_given hc hm hm'
    obtain ⟨e, -, hret⟩ | ⟨k, io', hret, hdone⟩ := ioCall_done io c
    · rw [hret] at hm
      exact absurd hm (hnone m)
    · -- only the number of the call has a new atom
      have hk : ∀ k', io'.connections k' = some atom → k' = k := by
        intro k' hk'
        by_contra hne
        rw [(hdone.others k' hne).1] at hk'
        exact hnone k' hk'
      rw [hret] at hm hn
      rw [hk m hm, hk n hn]

theorem IoRun.consistent (h : IoRun io) : io.Consistent := by
  induction h with
  | init => exact ioInit_consistent
  | call run c hfd hc ih => exact ih.call hc

theorem ioCall_maxFd {c : IoCall} (hio : io.maxFd < fdSetsize) (hc : c.fd ≠ fdSetsize) :
    (ioCall io c).2.maxFd < fdSetsize := by
  have hcs : ∀ c' ∈ [c], c'.fd ≠ fdSetsize := by
    intro c' hc'
    rw [List.mem_singleton.mp hc']
    exact hc
  exact ioCalls_maxFd hio hcs

theorem IoRun.maxFd (h : IoRun io) : io.maxFd < fdSetsize := by
  induction h with
  | init => decide
  | call run c hfd hc ih => exact ioCall_maxFd ih hfd

end Registry

/-! ## The loop -/

theorem mem_flagsOf {gfd : FdSets} {fd : Nat} {i : Interest} : i ∈ flagsOf gfd fd ↔ gfd i fd = true := by
  cases i <;> simp [flagsOf]

/-- Either the number has not been given away since the start of the pass, and is free or has been
what it was all the time; or it has, and there was a time when it was free. -/
structure Tracked (io : IoSelect) (fd : Nat) (p : Dispatching) : Prop where
  now : p.io ∈ p.history
  kept : renewed fd p.made = false →
    p.io.connections fd = none ∨ ∀ io' ∈ p.history, io'.connections fd = io.connections fd
  given : renewed fd p.made = true →
    p.io.connections fd ≠ none ∧ ∃ io' ∈ p.history, io'.connections fd = none

namespace Tracked

variable {io : IoSelect} {fd : Nat} {p : Dispatching}

theorem start (io : IoSelect) (fd : Nat) : Tracked io fd ⟨io, [io], [], [], []⟩ where
  now := List.mem_singleton_self io
  kept _ := by
    right
    intro io' hio'
    rw [List.mem_singleton.mp hio']
  given h := nomatch h

theorem call (h : Tracked io fd p) (c : IoCall) : Tracked io fd (p.call c) := by
  refine ⟨List.mem_cons_self, ?_, ?_⟩
  · intro hold
    obtain ⟨hslot, hmade⟩ | ⟨-, -, hmade⟩ | ⟨hslot, -⟩ := ioCall_slot p.io c fd
    · rw [Dispatching.call, hmade] at hold
      obtain hnone | hall := h.kept hold
      · left
        exact hslot.trans hnone
      · right
        intro io' hio'
        obtain rfl | hio' := List.mem_cons.mp hio'
        · exact hslot.trans (hall p.io h.now)
        · exact hall io' hio'
    · rw [Dispatching.call, hmade] at hold
      cases hold
    · left
      exact hslot
  · intro hnew
    obtain ⟨hslot, hmade⟩ | ⟨hfree, hslot, -⟩ | ⟨-, hmade⟩ := ioCall_slot p.io c fd
    · rw [Dispatching.call, hmade] at hnew
      obtain ⟨hsome, io', hio', hnone⟩ := h.given hnew
      refine ⟨?_, io', List.mem_cons_of_mem _ hio', hnone⟩
      intro hnone'
      exact hsome (hslot.symm.trans hnone')
    · exact ⟨hslot, p.io, List.mem_cons_of_mem _ h.now, hfree⟩
    · rw [Dispatching.call, hmade] at hnew
      cases hnew

theorem calls (h : Tracked io fd p) (cs : List IoCall) : Tracked io fd (cs.foldl Dispatching.call p) := by
  induction cs generalizing p with
  | nil => exact h
  | cons c cs ih => exact ih (h.call c)

theorem proc (h : Tracked io fd p) (does : ProcCall → List IoCall) (c : ProcCall) :
    Tracked io fd (p.proc does c) := by
  have hlogged : Tracked io fd { p with procs := p.procs ++ [c] } := ⟨h.now, h.kept, h.given⟩
  exact hlogged.calls (does c)

end Tracked

/-- As long as no call is about FD_SETSIZE nothing is touched outside; such a call touches it. -/
structure Bounded (p : Dispatching) : Prop where
  inside : (∀ made ∈ p.made, made.1.fd ≠ fdSetsize) →
    p.io.maxFd < fdSetsize ∧ ∀ n ∈ p.places, 0 ≤ n ∧ n < fdSetsize
  touched : ∀ made ∈ p.made, made.1.fd = fdSetsize → fdSetsize ∈ p.places

namespace Bounded

variable {p : Dispatching}

theorem call (h : Bounded p) (c : IoCall) : Bounded (p.call c) := by
  constructor
  · intro hmade
    obtain ⟨hmax, hinside⟩ := h.inside fun made hm => hmade made (List.mem_cons_of_mem _ hm)
    have hne : c.fd ≠ fdSetsize := hmade _ List.mem_cons_self
    refine ⟨ioCall_maxFd hmax hne, fun n hn => ?_⟩
    obtain hn | hn := List.mem_append.mp hn
    · exact hinside n hn
    · exact places_inside hmax hne hn
  · intro made hmade heq
    obtain rfl | hold := List.mem_cons.mp hmade
    · refine List.mem_append_right _ ?_
      have htouches : c.fd ∈ c.places p.io :=
        (touch_calls p.io c).touches (by rw [heq]; decide) (Int.le_of_eq heq)
      rw [← heq]
      exact htouches
    · exact List.mem_append_left _ (h.touched made hold heq)

theorem calls (h : Bounded p) (cs : List IoCall) : Bounded (cs.foldl Dispatching.call p) := by
  induction cs generalizing p with
  | nil => exact h
  | cons c cs ih => exact ih (h.call c)

end Bounded

theorem Dispatching.calls_procs (p : Dispatching) (cs : List IoCall) : (cs.foldl call p).procs = p.procs := by
  induction cs generalizing p with
  | nil => rfl
  | cons c cs ih => exact ih (p.call c)

theorem Dispatching.proc_procs (p : Dispatching) (does : ProcCall → List IoCall) (c : ProcCall) :
    (p.proc does c).procs = p.procs ++ [c] := calls_procs _ (does c)

section Visit

variable {gfd : FdSets} {does : ProcCall → List IoCall} {io : IoSelect} {p : Dispatching} {c : ProcCall}
  {fd k : Nat}

/-- No proc is called, or the one of the atom that has the number. -/
theorem ioVisit_cases (gfd : FdSets) (does : ProcCall → List IoCall) (p : Dispatching) (fd : Nat) :
    (ioVisit gfd does p fd = p ∧ (flagsOf gfd fd = [] ∨ p.io.connections fd = none)) ∨
      ∃ atom, flagsOf gfd fd ≠ [] ∧ p.io.connections fd = some atom ∧
        ioVisit gfd does p fd = p.proc does ⟨fd, atom, flagsOf gfd fd, p.history⟩ := by
  by_cases hflags : flagsOf gfd fd = []
  · exact .inl ⟨if_pos hflags, .inl hflags⟩
  · rw [ioVisit, if_neg hflags]
    cases hatom : p.io.connections fd with
    | none => exact .inl ⟨rfl, .inr rfl⟩
    | some atom => exact .inr ⟨atom, hflags, rfl, rfl⟩

/-- The call of a proc at a number, if the loop has come to it in the state `p`. -/
structure CalledAt (gfd : FdSets) (p : Dispatching) (fd : Nat) (c : ProcCall) : Prop where
  here : c.fd = fd
  atom : p.io.connections fd = some c.atom
  flags : c.flags = flagsOf gfd fd
  ne_nil : flagsOf gfd fd ≠ []
  since : c.since = p.history

theorem ioVisit_procs :
    c ∈ (ioVisit gfd does p fd).procs ↔ c ∈ p.procs ∨ CalledAt gfd p fd c := by
  obtain ⟨hsame, hno⟩ | ⟨atom, hflags, hatom, hvisit⟩ := ioVisit_cases gfd does p fd
  · rw [hsame]
    refine ⟨.inl, ?_⟩
    rintro (hc | hc)
    · exact hc
    · obtain hflags | hnone := hno
      · exact (hc.ne_nil hflags).elim
      · have := hc.atom
        rw [hnone] at this
        cases this
  · rw [hvisit, Dispatching.proc_procs, List.mem_append, List.mem_singleton]
    refine or_congr_right ⟨?_, ?_⟩
    · rintro rfl
      exact ⟨rfl, hatom, rfl, hflags, rfl⟩
    · intro hc
      have hsame := hc.atom
      rw [hatom] at hsame
      exact ProcCall.ext hc.here (Option.some.inj hsame).symm hc.flags hc.since

theorem dispatchTo_tracked (io : IoSelect) (fd k : Nat) : Tracked io fd (dispatchTo io gfd does k) := by
  induction k with
  | zero => exact .start io fd
  | succ k ih =>
    obtain ⟨hsame, -⟩ | ⟨atom, -, -, hvisit⟩ := ioVisit_cases gfd does (dispatchTo io gfd does k) k
    · rw [dispatchTo, hsame]
      exact ih
    · rw [dispatchTo, hvisit]
      exact ih.proc does _

theorem dispatchTo_bounded (hio : io.maxFd < fdSetsize) (k : Nat) : Bounded (dispatchTo io gfd does k) := by
  induction k with
  | zero => exact ⟨fun _ => ⟨hio, nofun⟩, nofun⟩
  | succ k ih =>
    obtain ⟨hsame, -⟩ | ⟨atom, -, -, hvisit⟩ := ioVisit_cases gfd does (dispatchTo io gfd does k) k
    · rw [dispatchTo, hsame]
      exact ih
    · rw [dispatchTo, hvisit]
      have hlogged (procs) : Bounded { dispatchTo io gfd does k with procs := procs } :=
        ⟨ih.inside, ih.touched⟩
      exact (hlogged _).calls (does _)

/-- The procs called are those of the numbers that the loop has passed, as it found them. -/
theorem dispatchTo_procs :
    c ∈ (dispatchTo io gfd does k).procs ↔
      c.fd < k ∧ CalledAt gfd (dispatchTo io gfd does c.fd) c.fd c := by
  induction k with
  | zero =>
    refine ⟨nofun, ?_⟩
    rintro ⟨hlt, -⟩
    exact (Nat.not_lt_zero _ hlt).elim
  | succ k ih =>
    rw [dispatchTo, ioVisit_procs, ih]
    constructor
    · rintro (⟨hlt, hc⟩ | hc)
      · exact ⟨Nat.lt_succ_of_lt hlt, hc⟩
      · obtain rfl := hc.here
        exact ⟨Nat.lt_succ_self _, hc⟩
    · rintro ⟨hlt, hc⟩
      obtain hlt | heq := Nat.lt_succ_iff_lt_or_eq.mp hlt
      · exact .inl ⟨hlt, hc⟩
      · rw [heq] at hc
        exact .inr hc

/-- The loop does not come to a number twice. -/
theorem dispatchTo_fds (k : Nat) : ((dispatchTo io gfd does k).procs.map ProcCall.fd).Nodup := by
  induction k with
  | zero => exact List.nodup_nil
  | succ k ih =>
    obtain ⟨hsame, -⟩ | ⟨atom, -, -, hvisit⟩ := ioVisit_cases gfd does (dispatchTo io gfd does k) k
    · rw [dispatchTo, hsame]
      exact ih
    · rw [dispatchTo, hvisit, Dispatching.proc_procs, List.map_append, List.nodup_append]
      refine ⟨ih, List.nodup_singleton _, ?_⟩
      intro a ha b hb heq
      obtain ⟨c, hc, rfl⟩ := List.mem_map.mp ha
      have hlt := (dispatchTo_procs.mp hc).1
      rw [heq, List.mem_singleton.mp hb] at hlt
      exact Nat.lt_irrefl k hlt

/-- While no proc has been called the registry is the one that io_wait saw. -/
theorem dispatchTo_quiet (h : (dispatchTo io gfd does k).procs = []) :
    (dispatchTo io gfd does k).io = io := by
  induction k with
  | zero => rfl
  | succ k ih =>
    obtain ⟨hsame, -⟩ | ⟨atom, -, -, hvisit⟩ := ioVisit_cases gfd does (dispatchTo io gfd does k) k
    · rw [dispatchTo, hsame] at h ⊢
      exact ih h
    · rw [dispatchTo, hvisit, Dispatching.proc_procs] at h
      exact (List.append_ne_nil_of_right_ne_nil _ (List.cons_ne_nil _ _) h).elim

end Visit

/-! ## What a pass does -/

section Dispatch

variable {io : IoSelect} {rets : List SelectRet} {ret : SelectRet} {gfd : FdSets}
  {does : ProcCall → List IoCall} {fd : Nat} {atom : AtomRef} {i : Interest}

theorem ioWait_ok (h : ioWait io rets = some (ret, gfd)) :
    (ret = .error ∧ gfd = io.fdSets) ∨
      ∃ fds, ret = .ready fds ∧ gfd = select (1 + io.maxFd) io.fdSets fds := by
  induction rets with
  | nil => cases h
  | cons r rets ih =>
    cases r with
    | ready fds =>
      cases h
      exact .inr ⟨fds, rfl, rfl⟩
    | eintr => exact ih h
    | error =>
      cases h
      exact .inl ⟨rfl, rfl⟩

theorem select_asked {nfds : Int} {asked ready : FdSets} (h : select nfds asked ready i fd = true) :
    asked i fd = true := by
  rw [select] at h
  split at h
  · exact (Bool.and_eq_true_iff.mp h).1
  · exact h

theorem ioWait_asked (h : ioWait io rets = some (ret, gfd)) (hi : gfd i fd = true) :
    io.fdSets i fd = true := by
  obtain ⟨-, rfl⟩ | ⟨fds, -, rfl⟩ := ioWait_ok h
  · exact hi
  · exact select_asked hi

/-- Unless select() fails, the sets say what it has reported. -/
theorem ioWait_reported (h : ioWait io rets = some (ret, gfd)) (hret : ret ≠ .error)
    (hle : (fd : Int) ≤ io.maxFd) : gfd i fd = ret.reported io i fd := by
  obtain ⟨herror, -⟩ | ⟨fds, rfl, rfl⟩ := ioWait_ok h
  · exact (hret herror).elim
  · rw [select, if_pos (by omega)]
    simp only [SelectRet.reported, decide_eq_true hle, Bool.true_and]

theorem reported_ok (h : ret.reported io i fd = true) : ret ≠ .error ∧ (fd : Int) ≤ io.maxFd := by
  cases ret with
  | ready fds => exact ⟨nofun, of_decide_eq_true (Bool.and_eq_true_iff.mp h).1⟩
  | eintr => cases h
  | error => cases h

theorem ioDispatch_lt {c : ProcCall} (hc : c ∈ (ioDispatch io gfd does).procs) :
    (c.fd : Int) ≤ io.maxFd := by
  have hlt := (dispatchTo_procs.mp hc).1
  omega

/-- The proc of the atom that the loop finds at a number in the sets is called. -/
theorem ioDispatch_calls (hle : (fd : Int) ≤ io.maxFd) (hflags : flagsOf gfd fd ≠ [])
    (hatom : (dispatchTo io gfd does fd).io.connections fd = some atom) :
    ⟨fd, atom, flagsOf gfd fd, (dispatchTo io gfd does fd).history⟩ ∈
      (ioDispatch io gfd does).procs := by
  apply dispatchTo_procs.mpr
  have hlt : fd < (io.maxFd + 1).toNat := by omega
  exact ⟨hlt, rfl, hatom, rfl, hflags, rfl⟩

theorem flagsOf_ne_nil (h : gfd i fd = true) : flagsOf gfd fd ≠ [] :=
  List.ne_nil_of_mem (mem_flagsOf.mpr h)

theorem exists_of_flagsOf (h : flagsOf gfd fd ≠ []) : ∃ i, gfd i fd = true := by
  obtain ⟨i, hi⟩ := List.exists_mem_of_ne_nil _ h
  exact ⟨i, mem_flagsOf.mp hi⟩

/-- At a number that has not been given away there is the atom that io_wait saw. -/
theorem found_registered (h : renewed fd (dispatchTo io gfd does fd).made = false)
    (hatom : (dispatchTo io gfd does fd).io.connections fd = some atom) :
    io.connections fd = some atom ∧
      ∀ io' ∈ (dispatchTo io gfd does fd).history, io'.connections fd = some atom := by
  have htracked : Tracked io fd (dispatchTo io gfd does fd) := dispatchTo_tracked io fd fd
  obtain hnone | hall := htracked.kept h
  · rw [hnone] at hatom
    cases hatom
  · have hstart : io.connections fd = some atom := (hall _ htracked.now).symm.trans hatom
    refine ⟨hstart, ?_⟩
    intro io' hio'
    exact (hall io' hio').trans hstart

theorem NoneRenewed.fresh (hio : io.Consistent) (hmax : io.maxFd < fdSetsize)
    (hwait : ioWait io rets = some (ret, gfd)) (h : NoneRenewed io gfd does ret) :
    Fresh io gfd does (ret.reported io) := by
  obtain ⟨hret, hmade, hnone⟩ := h
  have hfound : ∀ c ∈ (ioDispatch io gfd does).procs, io.connections c.fd = some c.atom ∧
      ∀ io' ∈ c.since, io'.connections c.fd = some c.atom := by
    intro c hc
    have hcalled := (dispatchTo_procs.mp hc).2
    rw [hcalled.since]
    exact found_registered (hnone c.fd hcalled.ne_nil) hcalled.atom
  refine ⟨⟨hmax, ((dispatchTo_bounded hmax _).inside hmade).2⟩, fun c hc => (hfound c hc).2, ?_, ?_, ?_⟩
  · intro c hc i hi
    rw [(dispatchTo_procs.mp hc).2.flags] at hi
    have hgfd := mem_flagsOf.mp hi
    obtain hret | hidle := hret
    · rw [← ioWait_reported hwait hret (ioDispatch_lt hc)]
      exact hgfd
    · have hasked := ioWait_asked hwait hgfd
      rw [hidle] at hasked
      cases hasked
  · have hfds : ((ioDispatch io gfd does).procs.map ProcCall.fd).Nodup := dispatchTo_fds _
    apply List.Nodup.map_on _ (.of_map _ hfds)
    intro c hc c' hc' heq
    have hfd := (hfound c hc).1
    rw [heq] at hfd
    exact List.inj_on_of_nodup_map hfds hc hc' (hio.unique _ _ _ hfd (hfound c' hc').1)
  · intro fd atom i hi hall
    obtain ⟨hret, hle⟩ := reported_ok hi
    rw [← ioWait_reported hwait hret hle] at hi
    have hatom := hall _ (dispatchTo_tracked io fd fd).now
    exact ⟨_, ioDispatch_calls hle (flagsOf_ne_nil hi) hatom, rfl, rfl⟩

/-- When select() has failed, the first proc of a number that it was asked about is called. -/
theorem Fresh.not_error (hio : io.Consistent) (hwait : ioWait io rets = some (ret, gfd))
    (h : Fresh io gfd does (ret.reported io)) : ret ≠ .error ∨ ∀ i fd, io.fdSets i fd = false := by
  by_contra hnot
  obtain ⟨hret, i, fd, hasked⟩ : ret = .error ∧ ∃ i fd, io.fdSets i fd = true := by
    simpa using hnot
  have hnil : (ioDispatch io gfd does).procs = [] := by
    apply List.eq_nil_iff_forall_not_mem.mpr
    intro c hc
    have hcalled := (dispatchTo_procs.mp hc).2
    obtain ⟨j, hj⟩ := exists_of_flagsOf hcalled.ne_nil
    have hready := h.reported c hc j (by rw [hcalled.flags]; exact mem_flagsOf.mpr hj)
    exact (reported_ok hready).1 hret
  have hle := hio.covered fd (hio.asked i fd hasked)
  have hquiet : (dispatchTo io gfd does fd).io = io := by
    apply dispatchTo_quiet
    apply List.eq_nil_iff_forall_not_mem.mpr
    intro c hc
    have hcalled := dispatchTo_procs.mp hc
    have hmem : c ∈ (ioDispatch io gfd does).procs := dispatchTo_procs.mpr ⟨by omega, hcalled.2⟩
    rw [hnil] at hmem
    cases hmem
  have hgfd : gfd i fd = true := by
    obtain ⟨-, rfl⟩ | ⟨fds, hready, -⟩ := ioWait_ok hwait
    · exact hasked
    · rw [hret] at hready
      cases hready
  obtain ⟨atom, hatom⟩ := Option.ne_none_iff_exists'.mp (hio.asked i fd hasked)
  rw [← hquiet] at hatom
  have hmem : _ ∈ (ioDispatch io gfd does).procs := ioDispatch_calls hle (flagsOf_ne_nil hgfd) hatom
  rw [hnil] at hmem
  cases hmem

theorem Fresh.noneRenewed (hio : io.Consistent) (hwait : ioWait io rets = some (ret, gfd))
    (h : Fresh io gfd does (ret.reported io)) : NoneRenewed io gfd does ret := by
  have hmade : ∀ made ∈ (ioDispatch io gfd does).made, made.1.fd ≠ fdSetsize := by
    intro made hmade heq
    obtain ⟨hmax, hinside⟩ := h.inside
    have htouched := (dispatchTo_bounded hmax _).touched made hmade heq
    exact absurd (hinside fdSetsize htouched).2 (Int.lt_irrefl _)
  refine ⟨h.not_error hio hwait, hmade, ?_⟩
  intro fd hflags
  by_contra hnew
  rw [Bool.not_eq_false] at hnew
  obtain ⟨hsome, io', hio', hfree⟩ := (dispatchTo_tracked io fd fd).given hnew
  obtain ⟨atom, hatom⟩ := Option.ne_none_iff_exists'.mp hsome
  obtain ⟨i, hi⟩ := exists_of_flagsOf hflags
  have hle := hio.covered fd (hio.asked i fd (ioWait_asked hwait hi))
  have hregistered := h.registered _ (ioDispatch_calls hle hflags hatom) io' hio'
  rw [hfree] at hregistered
  cases hregistered

/-- A pass keeps to the atoms that io_wait saw, and inside the array, if and only if no number is given
away before the loop has come to it, no call is about FD_SETSIZE, and select() has not failed. -/
theorem ioDispatch_fresh (hrun : IoRun io) (hwait : ioWait io rets = some (ret, gfd))
    (does : ProcCall → List IoCall) :
    Fresh io gfd does (ret.reported io) ↔ NoneRenewed io gfd does ret :=
  ⟨fun h => h.noneRenewed hrun.consistent hwait, fun h => h.fresh hrun.consistent hrun.maxFd hwait⟩

end Dispatch

/-! ## Two atoms -/

def firstAtom : IoSelect := (ioCall ioInit (.add (.read 1) 3 [.read])).2

def twoReaders : IoSelect := (ioCall firstAtom (.add (.read 2) 5 [.read])).2

def readable : FdSets := fun i _ => decide (i = .read)

/-- The proc at 3 deletes the atom at 5 and adds another one. -/
def gives (fd : Int) (c : ProcCall) : List IoCall :=
  if c.fd = 3 then [.del 5, .add (.write 2) fd [.write]] else []

theorem twoReaders_run : IoRun twoReaders := by
  have hfirst : IoRun firstAtom := .call .init _ (by decide) nofun
  apply IoRun.call hfirst _ (by decide)
  intro n hn
  change (if n = 3 then some (AtomRef.read 1) else none) = some (.read 2) at hn
  split at hn <;> simp at hn

theorem twoReaders_asked {i : Interest} {fd : Nat} (h : twoReaders.fdSets i fd = true) :
    fd = 3 ∨ fd = 5 := by
  change (if fd = 5 then decide (i ∈ [Interest.read]) else
    if fd = 3 then decide (i ∈ [Interest.read]) else false) = true at h
  split at h
  · next heq => exact .inr heq
  · split at h
    · next heq => exact .inl heq
    · cases h

/-- The new atom has a number of its own, and the one that is deleted is not called. -/
theorem ioDispatch_fresh_deleted :
    Fresh twoReaders (select (1 + twoReaders.maxFd) twoReaders.fdSets readable) (gives 4)
      ((SelectRet.ready readable).reported twoReaders) := by
  have hwait : ioWait twoReaders [.eintr, .ready readable] =
      some (.ready readable, select (1 + twoReaders.maxFd) twoReaders.fdSets readable) := rfl
  apply (ioDispatch_fresh twoReaders_run hwait (gives 4)).mpr
  refine ⟨.inl nofun, by decide +kernel, ?_⟩
  intro fd hflags
  obtain ⟨i, hi⟩ := exists_of_flagsOf hflags
  obtain rfl | rfl := twoReaders_asked (select_asked hi)
  · decide +kernel
  · decide +kernel

/-- The new atom gets the number of the old one, and with it what select() has said of that one. -/
theorem dispatch_stale : ∃ io rets ret gfd does, IoRun io ∧ ioWait io rets = some (ret, gfd) ∧
    ¬ Fresh io gfd does (ret.reported io) := by
  refine ⟨twoReaders, [.ready readable], _, _, gives 5, twoReaders_run, rfl, ?_⟩
  intro hfresh
  have hstale : ((ioDispatch twoReaders (select (1 + twoReaders.maxFd) twoReaders.fdSets readable)
      (gives 5)).procs.any fun c =>
        c.since.any fun io' => decide (io'.connections c.fd ≠ some c.atom)) = true := by
    decide +kernel
  obtain ⟨c, hc, hsince⟩ := List.any_eq_true.mp hstale
  obtain ⟨io', hio', hne⟩ := List.any_eq_true.mp hsince
  exact of_decide_eq_true hne (hfresh.registered c hc io' hio')

end Rzh
