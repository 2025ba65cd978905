import Mathlib.Data.List.Basic

/-!
# io_select.c

The registry of atoms and the three sets of descriptors that select() is asked about.
The size of the arrays is FD_SETSIZE; the range check lets that number itself pass.
-/
namespace Rzh

/-- The atoms of the program: that of the master, and those inside the task states. -/
inductive AtomRef where
  | master
  | read (task : Nat)
  | write (task : Nat)
  | err (task : Nat)
  deriving DecidableEq, Repr

/-- The flags IO_READ, IO_WRITE and IO_EXCEPT. -/
inductive Interest where
  | read | write | except
  deriving DecidableEq, Repr

structure IoSelect where
  connections : Nat → Option AtomRef
  fdSets : Interest → Nat → Bool
  maxFd : Int

/-- The error codes, without their sign. -/
inductive IoError where
  | erange | ealready
  deriving DecidableEq, Repr

def fdSetsize : Int := 1024

def ioInit : IoSelect := ⟨fun _ => none, fun _ _ => false, 0⟩

/-- How many atoms have been leaked. -/
def ioExitCheck (io : IoSelect) : Nat :=
  ((List.range fdSetsize.toNat).filter fun i => (io.connections i).isSome).length

namespace IoSelect

variable (io : IoSelect)

def install (fd : Nat) (flags : List Interest) : IoSelect :=
  { io with fdSets := fun i n => if n = fd then decide (i ∈ flags) else io.fdSets i n }

/-- The check at the top of each call: the error, or the index that the call works on. -/
def lookup (fd : Int) (registered : Bool) : Except IoError Nat :=
  if fd < 0 ∨ fdSetsize < fd then .error .erange
  else if (io.connections fd.toNat).isSome ≠ registered then .error .ealready
  else .ok fd.toNat

end IoSelect

def ioAdd (io : IoSelect) (atom : AtomRef) (fd : Int) (flags : List Interest) :
    Option IoError × IoSelect :=
  match io.lookup fd false with
  | .error e => (some e, io)
  | .ok n =>
    (none, { io with
      connections := fun m => if m = n then some atom else io.connections m
      maxFd := max io.maxFd n }.install n flags)

def ioSet (io : IoSelect) (fd : Int) (flags : List Interest) : Option IoError × IoSelect :=
  match io.lookup fd true with
  | .error e => (some e, io)
  | .ok n => (none, io.install n flags)

def ioEnable (io : IoSelect) (fd : Int) (flags : List Interest) : Option IoError × IoSelect :=
  match io.lookup fd true with
  | .error e => (some e, io)
  | .ok n =>
    (none, { io with fdSets := fun i m => if m = n ∧ i ∈ flags then true else io.fdSets i m })

def ioDisable (io : IoSelect) (fd : Int) (flags : List Interest) : Option IoError × IoSelect :=
  match io.lookup fd true with
  | .error e => (some e, io)
  | .ok n =>
    (none, { io with fdSets := fun i m => if m = n ∧ i ∈ flags then false else io.fdSets i m })

/-- The backward scan of io_del. -/
def lowerMaxFd (connections : Nat → Option AtomRef) : Nat → Int
  | 0 => if connections 0 = none then -1 else 0
  | n + 1 => if connections (n + 1) = none then lowerMaxFd connections n else n + 1

def ioDel (io : IoSelect) (fd : Int) : Option IoError × IoSelect :=
  match io.lookup fd true with
  | .error e => (some e, io)
  | .ok n =>
    let connections := fun m => if m = n then none else io.connections m
    (none, { io with
      connections := connections
      maxFd := if 0 ≤ io.maxFd then lowerMaxFd connections io.maxFd.toNat else io.maxFd }.install n [])

namespace IoSelect

variable {io : IoSelect} {fd : Int}

/-- The descriptor is in range and `atom` is registered for it. -/
structure Registered (io : IoSelect) (atom : AtomRef) (fd : Int) : Prop where
  nonneg : 0 ≤ fd
  le : fd ≤ fdSetsize
  connected : io.connections fd.toNat = some atom

/-- Whether select() is asked about a descriptor. -/
def wants (io : IoSelect) (i : Interest) (fd : Int) : Bool := decide (0 ≤ fd) && io.fdSets i fd.toNat

theorem Registered.lookup {atom : AtomRef} (h : io.Registered atom fd) :
    io.lookup fd true = .ok fd.toNat := by
  have hneg : ¬ (fd < 0 ∨ fdSetsize < fd) := by
    have := h.nonneg
    have := h.le
    omega
  rw [IoSelect.lookup, if_neg hneg, h.connected, if_neg (by simp)]

theorem Registered.unique {a b : AtomRef} (ha : io.Registered a fd) (hb : io.Registered b fd) :
    a = b := by
  have h := ha.connected
  rw [hb.connected] at h
  exact (Option.some.inj h).symm

theorem lookup_ok {registered : Bool} {n : Nat} (h : io.lookup fd registered = .ok n) :
    0 ≤ fd ∧ fd ≤ fdSetsize ∧ n = fd.toNat ∧ (io.connections n).isSome = registered := by
  rw [IoSelect.lookup] at h
  split at h
  · cases h
  · next hrange =>
    split at h
    · cases h
    · next hreg =>
      cases h
      exact ⟨by omega, by omega, rfl, by simpa using hreg⟩

/-- A closed atom has no descriptor, and nothing is done for it. -/
theorem lookup_of_neg (h : fd < 0) (registered : Bool) :
    io.lookup fd registered = .error .erange := by
  rw [IoSelect.lookup, if_pos (.inl h)]

theorem wants_of_neg (h : fd < 0) (i : Interest) : io.wants i fd = false := by
  rw [wants, decide_eq_false (by omega), Bool.false_and]

end IoSelect

section Effects

variable {io : IoSelect} {atom : AtomRef} {fd fd' : Int} {flags : List Interest}

@[simp] theorem ioEnable_connections : (ioEnable io fd flags).2.connections = io.connections := by
  rw [ioEnable]
  split <;> rfl

@[simp] theorem ioDisable_connections : (ioDisable io fd flags).2.connections = io.connections := by
  rw [ioDisable]
  split <;> rfl

theorem ioEnable_of_neg (h : fd < 0) : (ioEnable io fd flags).2 = io := by
  rw [ioEnable, io.lookup_of_neg h]

theorem ioDisable_of_neg (h : fd < 0) : (ioDisable io fd flags).2 = io := by
  rw [ioDisable, io.lookup_of_neg h]

theorem ioEnable_wants (h : io.Registered atom fd) (i : Interest) :
    (ioEnable io fd flags).2.wants i fd' =
      if fd' = fd ∧ i ∈ flags then true else io.wants i fd' := by
  have hn := h.nonneg
  rw [ioEnable, h.lookup]
  simp only [IoSelect.wants]
  by_cases h0 : 0 ≤ fd'
  · have hiff : fd'.toNat = fd.toNat ↔ fd' = fd := by omega
    simp only [hiff, h0, decide_true, Bool.true_and]
  · have hne : fd' ≠ fd := by omega
    simp [h0, hne]

theorem ioDisable_wants (h : io.Registered atom fd) (i : Interest) :
    (ioDisable io fd flags).2.wants i fd' =
      if fd' = fd ∧ i ∈ flags then false else io.wants i fd' := by
  rw [ioDisable, h.lookup]
  simp only [IoSelect.wants]
  by_cases h0 : 0 ≤ fd'
  · have hn := h.nonneg
    have hiff : fd'.toNat = fd.toNat ↔ fd' = fd := by omega
    simp only [hiff, h0, decide_true, Bool.true_and]
  · simp [h0]

theorem ioDel_connections (h : io.Registered atom fd) (m : Nat) :
    (ioDel io fd).2.connections m = if m = fd.toNat then none else io.connections m := by
  rw [ioDel, h.lookup]
  rfl

theorem ioDel_wants (h : io.Registered atom fd) (i : Interest) :
    (ioDel io fd).2.wants i fd' = if fd' = fd then false else io.wants i fd' := by
  have hn := h.nonneg
  rw [ioDel, h.lookup]
  simp only [IoSelect.wants, IoSelect.install]
  by_cases h0 : 0 ≤ fd'
  · have hiff : fd'.toNat = fd.toNat ↔ fd' = fd := by omega
    simp [hiff, h0]
  · simp [h0]

/-- A successful io_add: the descriptor was free, and now it is the atom's, with the flags. -/
theorem ioAdd_ok {io' : IoSelect} (h : ioAdd io atom fd flags = (none, io')) :
    (0 ≤ fd ∧ fd ≤ fdSetsize ∧ io.connections fd.toNat = none) ∧ io'.Registered atom fd ∧
      (∀ m, m ≠ fd.toNat → io'.connections m = io.connections m) ∧
      ∀ i fd', io'.wants i fd' = if fd' = fd then decide (i ∈ flags) else io.wants i fd' := by
  rw [ioAdd] at h
  split at h
  · cases h
  · next n hn =>
    cases h
    obtain ⟨h0, hle, rfl, hfree⟩ := IoSelect.lookup_ok hn
    refine ⟨⟨h0, hle, by simpa using hfree⟩, ⟨h0, hle, ?_⟩, ?_, ?_⟩
    · simp [IoSelect.install]
    · intro m hm
      simp [IoSelect.install, hm]
    · intro i fd'
      simp only [IoSelect.wants, IoSelect.install]
      by_cases h0' : 0 ≤ fd'
      · have hiff : fd'.toNat = fd.toNat ↔ fd' = fd := by omega
        simp [hiff, h0']
      · have hne : fd' ≠ fd := by omega
        simp [h0', hne]

end Effects

end Rzh
