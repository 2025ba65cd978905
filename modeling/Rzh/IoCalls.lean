import Rzh.IoSelect

/-!
# The calls into io_select.c

Five calls share the array, the three sets and the bound of the loops; each checks the range of the
number that it gets in the same way.
-/
namespace Rzh

/-- A call into io_select.c; the descriptor is the one in the atom. -/
inductive IoCall where
  | add (atom : AtomRef) (fd : Int) (flags : List Interest)
  | set (fd : Int) (flags : List Interest)
  | enable (fd : Int) (flags : List Interest)
  | disable (fd : Int) (flags : List Interest)
  | del (fd : Int)

def ioCall (io : IoSelect) : IoCall → Option IoError × IoSelect
  | .add atom fd flags => ioAdd io atom fd flags
  | .set fd flags => ioSet io fd flags
  | .enable fd flags => ioEnable io fd flags
  | .disable fd flags => ioDisable io fd flags
  | .del fd => ioDel io fd

namespace IoCall

def fd : IoCall → Int
  | .add _ fd _ => fd
  | .set fd _ => fd
  | .enable fd _ => fd
  | .disable fd _ => fd
  | .del fd => fd

/-- What becomes of the bits of the descriptor. -/
def bits (old : Interest → Bool) : IoCall → Interest → Bool
  | .add _ _ flags => fun i => decide (i ∈ flags)
  | .set _ flags => fun i => decide (i ∈ flags)
  | .enable _ flags => fun i => old i || decide (i ∈ flags)
  | .disable _ flags => fun i => old i && !decide (i ∈ flags)
  | .del _ => fun _ => false

/-- The descriptor is one that select() can be asked about. -/
def InRange (c : IoCall) : Prop := 0 ≤ c.fd ∧ c.fd < fdSetsize

end IoCall

def ioCalls (io : IoSelect) (cs : List IoCall) : IoSelect := cs.foldl (fun io c => (ioCall io c).2) io

/-- Select() is asked about registered descriptors alone, and the loops get to all of them. -/
structure IoSelect.Covers (io : IoSelect) : Prop where
  asked : ∀ i n, io.fdSets i n = true → io.connections n ≠ none
  covered : ∀ n, io.connections n ≠ none → (n : Int) ≤ io.maxFd

/-! ## Where the calls reach -/

/-- The registry, with the indices at which the array and the sets have been touched. -/
structure Touched where
  io : IoSelect
  places : List Int

abbrev Touch := StateM Touched

namespace Touch

def connection (fd : Int) : Touch (Option AtomRef) := fun t =>
  (t.io.connections fd.toNat, { t with places := t.places ++ [fd] })

def connect (fd : Int) (atom : Option AtomRef) : Touch Unit := fun t =>
  ((), { io := { t.io with connections := fun m => if m = fd.toNat then atom else t.io.connections m }
         places := t.places ++ [fd] })

/-- FD_SET and FD_CLR. -/
def fdPut (bit : Bool) (i : Interest) (fd : Int) : Touch Unit := fun t =>
  ((), { io := { t.io with
           fdSets := fun j m => if m = fd.toNat ∧ j = i then bit else t.io.fdSets j m }
         places := t.places ++ [fd] })

def install (fd : Int) (flags : List Interest) : Touch Unit := do
  fdPut (decide (.read ∈ flags)) .read fd
  fdPut (decide (.write ∈ flags)) .write fd
  fdPut (decide (.except ∈ flags)) .except fd

/-- A bit of the set for each of the flags, none for the others. -/
def fdFlag (bit : Bool) (flags : List Interest) (i : Interest) (fd : Int) : Touch Unit :=
  if i ∈ flags then fdPut bit i fd else pure ()

/-- The range check and the look into the array, in front of the rest of a call. -/
def checked (fd : Int) (registered : Bool) (rest : Touch Unit) : Touch (Option IoError) :=
  if fd < 0 ∨ fdSetsize < fd then pure (some .erange)
  else do
    let atom ← connection fd
    if atom.isSome ≠ registered then pure (some .ealready)
    else do
      rest
      pure none

/-- The while loop of io_del: the indices at which it looks, and the bound that it leaves. -/
def scanBack (connections : Nat → Option AtomRef) (maxFd : Int) : List Int × Int :=
  if 0 ≤ maxFd then
    if connections maxFd.toNat = none then
      (maxFd :: (scanBack connections (maxFd - 1)).1, (scanBack connections (maxFd - 1)).2)
    else ([maxFd], maxFd)
  else ([], maxFd)
  termination_by (maxFd + 1).toNat

def call : IoCall → Touch (Option IoError)
  | .add atom fd flags => checked fd false do
    connect fd (some atom)
    install fd flags
    modify fun t => { t with io := { t.io with maxFd := max t.io.maxFd fd } }
  | .set fd flags => checked fd true (install fd flags)
  | .enable fd flags => checked fd true do
    fdFlag true flags .read fd
    fdFlag true flags .write fd
    fdFlag true flags .except fd
  | .disable fd flags => checked fd true do
    fdFlag false flags .read fd
    fdFlag false flags .write fd
    fdFlag false flags .except fd
  | .del fd => checked fd true do
    install fd []
    connect fd none
    modify fun t =>
      { io := { t.io with maxFd := (scanBack t.io.connections t.io.maxFd).2 }
        places := t.places ++ (scanBack t.io.connections t.io.maxFd).1 }

end Touch

/-- The indices at which a call touches the array or the sets. -/
def IoCall.places (io : IoSelect) (c : IoCall) : List Int := (Touch.call c ⟨io, []⟩).2.places

section Touching

variable {io : IoSelect} {connections : Nat → Option AtomRef} {fd maxFd : Int} {flags : List Interest}
  {places : List Int}

/-- The while loop leaves the bound that ioDel computes. -/
theorem scanBack_bound (connections : Nat → Option AtomRef) (maxFd : Int) :
    (Touch.scanBack connections maxFd).2 =
      if 0 ≤ maxFd then lowerMaxFd connections maxFd.toNat else maxFd := by
  induction maxFd using Touch.scanBack.induct connections with
  | case1 maxFd h0 hnone ih =>
    rw [Touch.scanBack, if_pos h0, if_pos hnone, if_pos h0, ih]
    obtain ⟨n, rfl⟩ := Int.eq_ofNat_of_zero_le h0
    rw [Int.toNat_natCast] at hnone ⊢
    cases n with
    | zero =>
      rw [lowerMaxFd, if_pos hnone]
      rfl
    | succ n =>
      have hpred : ((n + 1 : Nat) : Int) - 1 = n := by omega
      rw [lowerMaxFd, if_pos hnone, hpred, if_pos (Int.natCast_nonneg n), Int.toNat_natCast]
  | case2 maxFd h0 hsome =>
    rw [Touch.scanBack, if_pos h0, if_neg hsome, if_pos h0]
    obtain ⟨n, rfl⟩ := Int.eq_ofNat_of_zero_le h0
    rw [Int.toNat_natCast] at hsome ⊢
    cases n with
    | zero =>
      rw [lowerMaxFd, if_neg hsome]
      rfl
    | succ n =>
      rw [lowerMaxFd, if_neg hsome]
      rfl
  | case3 maxFd hneg => rw [Touch.scanBack, if_neg hneg, if_neg hneg]

/-- It looks nowhere below the array nor above the bound that it starts with. -/
theorem scanBack_places {i : Int} (h : i ∈ (Touch.scanBack connections maxFd).1) : 0 ≤ i ∧ i ≤ maxFd := by
  induction maxFd using Touch.scanBack.induct connections with
  | case1 maxFd h0 hnone ih =>
    rw [Touch.scanBack, if_pos h0, if_pos hnone] at h
    obtain rfl | h := List.mem_cons.mp h
    · exact ⟨h0, Int.le_refl i⟩
    · have hi := ih h
      omega
  | case2 maxFd h0 hsome =>
    rw [Touch.scanBack, if_pos h0, if_neg hsome] at h
    rw [List.mem_singleton.mp h]
    exact ⟨h0, Int.le_refl maxFd⟩
  | case3 maxFd hneg =>
    rw [Touch.scanBack, if_neg hneg] at h
    cases h

/-- A part of a call turns `io` into `io'`, and touches `fd` or what lies below the bound. -/
def Touch.Does (part : Touch Unit) (fd maxFd : Int) (io io' : IoSelect) : Prop :=
  ∀ places, ∃ new, part ⟨io, places⟩ = ((), ⟨io', places ++ new⟩) ∧
    ∀ p ∈ new, p = fd ∨ (0 ≤ p ∧ p ≤ maxFd)

theorem Touch.Does.bind {first second : Touch Unit} {io₁ io₂ : IoSelect} (h : first.Does fd maxFd io io₁)
    (h' : second.Does fd maxFd io₁ io₂) : Touch.Does (do first; second) fd maxFd io io₂ := by
  intro places
  obtain ⟨new, hfirst, hnew⟩ := h places
  obtain ⟨new', hsecond, hnew'⟩ := h' (places ++ new)
  refine ⟨new ++ new', ?_, ?_⟩
  · show second (first ⟨io, places⟩).2 = _
    rw [hfirst, hsecond, List.append_assoc]
  · intro p hp
    obtain hp | hp := List.mem_append.mp hp
    · exact hnew p hp
    · exact hnew' p hp

theorem fdPut_does (bit : Bool) (i : Interest) :
    (Touch.fdPut bit i fd).Does fd maxFd io
      { io with fdSets := fun j m => if m = fd.toNat ∧ j = i then bit else io.fdSets j m } := by
  intro places
  exact ⟨[fd], rfl, fun p hp => .inl (List.mem_singleton.mp hp)⟩

theorem connect_does (atom : Option AtomRef) :
    (Touch.connect fd atom).Does fd maxFd io
      { io with connections := fun m => if m = fd.toNat then atom else io.connections m } := by
  intro places
  exact ⟨[fd], rfl, fun p hp => .inl (List.mem_singleton.mp hp)⟩

theorem install_does (flags : List Interest) :
    (Touch.install fd flags).Does fd maxFd io (io.install fd.toNat flags) := by
  have hsets : io.install fd.toNat flags = { io with
      fdSets := fun j m => if m = fd.toNat ∧ j = .except then decide (.except ∈ flags) else
        if m = fd.toNat ∧ j = .write then decide (.write ∈ flags) else
        if m = fd.toNat ∧ j = .read then decide (.read ∈ flags) else io.fdSets j m } := by
    rw [IoSelect.install]
    congr 1
    funext i m
    by_cases hm : m = fd.toNat
    · cases i <;> simp [hm]
    · simp [hm]
  rw [hsets]
  exact (fdPut_does _ .read).bind ((fdPut_does _ .write).bind (fdPut_does _ .except))

/-- A flag that is not given leaves the set alone. -/
theorem fdFlag_does (bit : Bool) (flags : List Interest) (i : Interest) :
    (Touch.fdFlag bit flags i fd).Does fd maxFd io { io with
      fdSets := fun j m => if m = fd.toNat ∧ j = i ∧ i ∈ flags then bit else io.fdSets j m } := by
  intro places
  rw [Touch.fdFlag]
  by_cases hi : i ∈ flags
  · rw [if_pos hi]
    simp only [hi, and_true]
    exact fdPut_does bit i places
  · rw [if_neg hi]
    refine ⟨[], ?_, nofun⟩
    simp only [hi, and_false, if_false, List.append_nil]
    rfl

theorem fdFlags_does (bit : Bool) (flags : List Interest) :
    Touch.Does (do
      Touch.fdFlag bit flags .read fd
      Touch.fdFlag bit flags .write fd
      Touch.fdFlag bit flags .except fd) fd maxFd io { io with
        fdSets := fun j m => if m = fd.toNat ∧ j ∈ flags then bit else io.fdSets j m } := by
  have hsets : (fun j m => if m = fd.toNat ∧ j ∈ flags then bit else io.fdSets j m) = fun j m =>
      if m = fd.toNat ∧ j = .except ∧ .except ∈ flags then bit else
      if m = fd.toNat ∧ j = .write ∧ .write ∈ flags then bit else
      if m = fd.toNat ∧ j = .read ∧ .read ∈ flags then bit else io.fdSets j m := by
    funext i m
    by_cases hm : m = fd.toNat
    · cases i <;> simp [hm]
    · simp [hm]
  rw [hsets]
  exact (fdFlag_does bit flags .read).bind ((fdFlag_does bit flags .write).bind
    (fdFlag_does bit flags .except))

theorem scanBack_does : Touch.Does (modify fun t =>
      { io := { t.io with maxFd := (Touch.scanBack t.io.connections t.io.maxFd).2 }
        places := t.places ++ (Touch.scanBack t.io.connections t.io.maxFd).1 }) fd io.maxFd io
    { io with
      maxFd := if 0 ≤ io.maxFd then lowerMaxFd io.connections io.maxFd.toNat else io.maxFd } := by
  intro places
  rw [← scanBack_bound]
  exact ⟨_, rfl, fun p hp => .inr (scanBack_places hp)⟩

/-- What a call does, where it reaches, and that it reaches its own number as soon as that passes the
check. -/
structure Touch.Calls (call : Touch (Option IoError)) (fd : Int) (io : IoSelect)
    (ret : Option IoError × IoSelect) : Prop where
  returns : call ⟨io, []⟩ = (ret.1, ⟨ret.2, (call ⟨io, []⟩).2.places⟩)
  places : ∀ p ∈ (call ⟨io, []⟩).2.places, p = fd ∧ 0 ≤ fd ∧ fd ≤ fdSetsize ∨ 0 ≤ p ∧ p ≤ io.maxFd
  touches : 0 ≤ fd → fd ≤ fdSetsize → fd ∈ (call ⟨io, []⟩).2.places

/-- The check, with what the rest of the call does behind it. -/
theorem Touch.Does.checked {rest : Touch Unit} {io' : IoSelect} {registered : Bool}
    {ret : Option IoError × IoSelect} (h : rest.Does fd io.maxFd io io')
    (herror : ∀ e, io.lookup fd registered = .error e → ret = (some e, io))
    (hok : ∀ n, io.lookup fd registered = .ok n → ret = (none, io')) :
    (Touch.checked fd registered rest).Calls fd io ret := by
  by_cases hrange : fd < 0 ∨ fdSetsize < fd
  · have hcall : Touch.checked fd registered rest ⟨io, []⟩ = (some .erange, ⟨io, []⟩) := by
      rw [Touch.checked, if_pos hrange]
      rfl
    obtain rfl := herror .erange (by rw [IoSelect.lookup, if_pos hrange])
    refine ⟨?_, ?_, by omega⟩
    · rw [hcall]
    · rw [hcall]
      intro p hp
      exact absurd hp List.not_mem_nil
  · have hin : 0 ≤ fd ∧ fd ≤ fdSetsize := by omega
    by_cases hreg : (io.connections fd.toNat).isSome ≠ registered
    · have hcall : Touch.checked fd registered rest ⟨io, []⟩ = (some .ealready, ⟨io, [fd]⟩) := by
        rw [Touch.checked, if_neg hrange]
        show (if (io.connections fd.toNat).isSome ≠ registered then pure (some .ealready)
          else do rest; pure none : Touch (Option IoError)) ⟨io, [fd]⟩ = _
        rw [if_pos hreg]
        rfl
      obtain rfl := herror .ealready (by rw [IoSelect.lookup, if_neg hrange, if_pos hreg])
      refine ⟨?_, ?_, ?_⟩
      · rw [hcall]
      · rw [hcall]
        intro p hp
        exact .inl ⟨List.mem_singleton.mp hp, hin⟩
      · rw [hcall]
        intro _ _
        exact List.mem_singleton_self fd
    · obtain ⟨new, hrest, hnew⟩ := h [fd]
      have hcall : Touch.checked fd registered rest ⟨io, []⟩ = (none, ⟨io', [fd] ++ new⟩) := by
        rw [Touch.checked, if_neg hrange]
        show (if (io.connections fd.toNat).isSome ≠ registered then pure (some .ealready)
          else do rest; pure none : Touch (Option IoError)) ⟨io, [fd]⟩ = _
        rw [if_neg hreg]
        show (none, (rest ⟨io, [fd]⟩).2) = _
        rw [hrest]
      obtain rfl := hok fd.toNat (by rw [IoSelect.lookup, if_neg hrange, if_neg hreg])
      refine ⟨?_, ?_, ?_⟩
      · rw [hcall]
      · rw [hcall]
        intro p hp
        obtain hp | hp := List.mem_append.mp hp
        · exact .inl ⟨List.mem_singleton.mp hp, hin⟩
        · obtain rfl | hbelow := hnew p hp
          · exact .inl ⟨rfl, hin⟩
          · exact .inr hbelow
      · rw [hcall]
        intro _ _
        exact List.mem_append_left _ (List.mem_singleton_self fd)

/-- Step by step, a call does what it does to the registry as a whole. -/
theorem touch_calls (io : IoSelect) (c : IoCall) : (Touch.call c).Calls c.fd io (ioCall io c) := by
  cases c with
  | add atom fd flags =>
    have hmax : Touch.Does (modify fun t => { t with io := { t.io with maxFd := max t.io.maxFd fd } }) fd
        io.maxFd ({ io with connections := fun m => if m = fd.toNat then some atom else io.connections m
          }.install fd.toNat flags)
        ({ io with
          connections := fun m => if m = fd.toNat then some atom else io.connections m
          maxFd := max io.maxFd fd }.install fd.toNat flags) := by
      intro places
      refine ⟨[], ?_, nofun⟩
      rw [List.append_nil]
      rfl
    refine ((connect_does (some atom)).bind ((install_does flags).bind hmax)).checked ?_ ?_
    · intro e he
      rw [ioCall, ioAdd, he]
    · intro n hn
      obtain ⟨h0, -, rfl, -⟩ := IoSelect.lookup_ok hn
      rw [ioCall, ioAdd, hn]
      simp only [Int.toNat_of_nonneg h0]
  | set fd flags =>
    refine (install_does flags).checked ?_ ?_
    · intro e he
      rw [ioCall, ioSet, he]
    · intro n hn
      obtain ⟨-, -, rfl, -⟩ := IoSelect.lookup_ok hn
      rw [ioCall, ioSet, hn]
  | enable fd flags =>
    refine (fdFlags_does true flags).checked ?_ ?_
    · intro e he
      rw [ioCall, ioEnable, he]
    · intro n hn
      obtain ⟨-, -, rfl, -⟩ := IoSelect.lookup_ok hn
      rw [ioCall, ioEnable, hn]
  | disable fd flags =>
    refine (fdFlags_does false flags).checked ?_ ?_
    · intro e he
      rw [ioCall, ioDisable, he]
    · intro n hn
      obtain ⟨-, -, rfl, -⟩ := IoSelect.lookup_ok hn
      rw [ioCall, ioDisable, hn]
  | del fd =>
    refine ((install_does []).bind ((connect_does none).bind scanBack_does)).checked ?_ ?_
    · intro e he
      rw [ioCall, ioDel, he]
    · intro n hn
      obtain ⟨-, -, rfl, -⟩ := IoSelect.lookup_ok hn
      rw [ioCall, ioDel, hn]
      rfl

end Touching

/-! ## What a call leaves behind -/

section Covers

variable {io : IoSelect}

theorem lowerMaxFd_covers {connections : Nat → Option AtomRef} {n m : Nat} (hn : connections n ≠ none)
    (hle : n ≤ m) : (n : Int) ≤ lowerMaxFd connections m := by
  induction m with
  | zero =>
    obtain rfl := Nat.le_zero.mp hle
    rw [lowerMaxFd, if_neg hn]
    exact Int.le_refl 0
  | succ m ih =>
    rw [lowerMaxFd]
    split
    · next hnone =>
      apply ih
      by_contra hlt
      have heq : n = m + 1 := by omega
      rw [heq] at hn
      exact hn hnone
    · omega

theorem lowerMaxFd_le (connections : Nat → Option AtomRef) (m : Nat) : lowerMaxFd connections m ≤ m := by
  induction m with
  | zero =>
    rw [lowerMaxFd]
    split <;> decide
  | succ m ih =>
    rw [lowerMaxFd]
    split <;> omega

theorem ioInit_covers : ioInit.Covers where
  asked _ _ h := nomatch h
  covered _ h := absurd rfl h

theorem IoSelect.lookup_erange {fd : Int} (h : fd < 0 ∨ fdSetsize < fd) (registered : Bool) :
    io.lookup fd registered = .error .erange := by
  rw [IoSelect.lookup, if_pos h]

theorem IoSelect.lookup_outside {fd : Int} {registered : Bool} {e : IoError}
    (h : io.lookup fd registered = .error e) (he : e = .erange) : fd < 0 ∨ fdSetsize < fd := by
  by_contra hrange
  rw [IoSelect.lookup, if_neg hrange, he] at h
  split at h <;> cases h

/-- A descriptor outside the array is refused. -/
theorem ioCall_erange {c : IoCall} (h : c.fd < 0 ∨ fdSetsize < c.fd) : ioCall io c = (some .erange, io) := by
  cases c with
  | add atom fd flags => rw [ioCall, ioAdd, IoSelect.lookup_erange (show fd < 0 ∨ fdSetsize < fd from h)]
  | set fd flags => rw [ioCall, ioSet, IoSelect.lookup_erange (show fd < 0 ∨ fdSetsize < fd from h)]
  | enable fd flags => rw [ioCall, ioEnable, IoSelect.lookup_erange (show fd < 0 ∨ fdSetsize < fd from h)]
  | disable fd flags => rw [ioCall, ioDisable, IoSelect.lookup_erange (show fd < 0 ∨ fdSetsize < fd from h)]
  | del fd => rw [ioCall, ioDel, IoSelect.lookup_erange (show fd < 0 ∨ fdSetsize < fd from h)]

/-- What a successful call makes of the registry: the number `n` is registered behind it, or it is free
and the bound has been lowered. -/
structure IoCall.Done (c : IoCall) (io : IoSelect) (n : Nat) (io' : IoSelect) : Prop where
  fd : c.fd = n
  le : (n : Int) ≤ fdSetsize
  bits : ∀ i, io'.fdSets i n = c.bits (fun j => io.fdSets j n) i
  others : ∀ m, m ≠ n → io'.connections m = io.connections m ∧ ∀ i, io'.fdSets i m = io.fdSets i m
  slot : (io'.connections n ≠ none ∧
      (io'.maxFd = max io.maxFd n ∨ io'.maxFd = io.maxFd ∧ io.connections n ≠ none)) ∨
    (io'.connections n = none ∧ (∀ i, io'.fdSets i n = false) ∧
      io'.maxFd = if 0 ≤ io.maxFd then lowerMaxFd io'.connections io.maxFd.toNat else io.maxFd)

/-- Three of the calls look for a registered descriptor and change nothing but its bits. -/
theorem ioCall_flags {c : IoCall} (sets : Nat → Interest → Nat → Bool)
    (herror : ∀ e, io.lookup c.fd true = .error e → ioCall io c = (some e, io))
    (hok : ∀ n, io.lookup c.fd true = .ok n → ioCall io c = (none, { io with fdSets := sets n }))
    (hbits : ∀ n i, sets n i n = c.bits (fun j => io.fdSets j n) i)
    (hothers : ∀ n i m, m ≠ n → sets n i m = io.fdSets i m) :
    (∃ e, (e = .erange → c.fd < 0 ∨ fdSetsize < c.fd) ∧ ioCall io c = (some e, io)) ∨
      ∃ n io', ioCall io c = (none, io') ∧ c.Done io n io' := by
  cases h : io.lookup c.fd true with
  | error e => exact .inl ⟨e, IoSelect.lookup_outside h, herror e h⟩
  | ok n =>
    obtain ⟨h0, hle, hn, hreg⟩ := IoSelect.lookup_ok h
    have hfd : c.fd = n := by omega
    have hsome := Option.isSome_iff_ne_none.mp hreg
    refine .inr ⟨n, _, hok n h, hfd, by omega, hbits n, ?_, .inl ⟨hsome, .inr ⟨rfl, hsome⟩⟩⟩
    intro m hm
    exact ⟨rfl, fun i => hothers n i m hm⟩

/-- A call fails and leaves the registry alone, or it is done. -/
theorem ioCall_done (io : IoSelect) (c : IoCall) :
    (∃ e, (e = .erange → c.fd < 0 ∨ fdSetsize < c.fd) ∧ ioCall io c = (some e, io)) ∨
      ∃ n io', ioCall io c = (none, io') ∧ c.Done io n io' := by
  cases c with
  | add atom fd flags =>
    rw [ioCall, ioAdd]
    cases h : io.lookup fd false with
    | error e => exact .inl ⟨e, IoSelect.lookup_outside h, rfl⟩
    | ok n =>
      obtain ⟨h0, hle, rfl, -⟩ := IoSelect.lookup_ok h
      refine .inr ⟨fd.toNat, _, rfl, (Int.toNat_of_nonneg h0).symm, by omega, ?_, ?_, .inl ⟨?_, .inl rfl⟩⟩
      · intro i
        exact if_pos rfl
      · intro m hm
        exact ⟨if_neg hm, fun i => if_neg hm⟩
      · simp [IoSelect.install]
  | set fd flags =>
    apply ioCall_flags fun n i m => if m = n then decide (i ∈ flags) else io.fdSets i m
    · intro e h
      rw [ioCall, ioSet, show io.lookup fd true = _ from h]
    · intro n h
      rw [ioCall, ioSet, show io.lookup fd true = _ from h]
      rfl
    · intro n i
      exact if_pos rfl
    · intro n i m hm
      exact if_neg hm
  | enable fd flags =>
    apply ioCall_flags fun n i m => if m = n ∧ i ∈ flags then true else io.fdSets i m
    · intro e h
      rw [ioCall, ioEnable, show io.lookup fd true = _ from h]
    · intro n h
      rw [ioCall, ioEnable, show io.lookup fd true = _ from h]
    · intro n i
      by_cases hi : i ∈ flags <;> simp [IoCall.bits, hi]
    · intro n i m hm
      exact if_neg fun hand => hm hand.1
  | disable fd flags =>
    apply ioCall_flags fun n i m => if m = n ∧ i ∈ flags then false else io.fdSets i m
    · intro e h
      rw [ioCall, ioDisable, show io.lookup fd true = _ from h]
    · intro n h
      rw [ioCall, ioDisable, show io.lookup fd true = _ from h]
    · intro n i
      by_cases hi : i ∈ flags <;> simp [IoCall.bits, hi]
    · intro n i m hm
      exact if_neg fun hand => hm hand.1
  | del fd =>
    rw [ioCall, ioDel]
    cases h : io.lookup fd true with
    | error e => exact .inl ⟨e, IoSelect.lookup_outside h, rfl⟩
    | ok n =>
      obtain ⟨h0, hle, rfl, -⟩ := IoSelect.lookup_ok h
      refine .inr ⟨fd.toNat, _, rfl, (Int.toNat_of_nonneg h0).symm, by omega, ?_, ?_,
        .inr ⟨if_pos rfl, ?_, rfl⟩⟩
      · intro i
        simp [IoCall.bits, IoSelect.install]
      · intro m hm
        exact ⟨if_neg hm, fun i => if_neg hm⟩
      · intro i
        simp [IoSelect.install]

theorem IoCall.Done.covers {c : IoCall} {n : Nat} {io' : IoSelect} (h : c.Done io n io') (hio : io.Covers) :
    io'.Covers := by
  constructor
  · intro i m hm
    by_cases heq : m = n
    · obtain ⟨hsome, -⟩ | ⟨-, hclear, -⟩ := h.slot
      · rw [heq]
        exact hsome
      · rw [heq, hclear i] at hm
        cases hm
    · obtain ⟨hconn, hsets⟩ := h.others m heq
      rw [hsets i] at hm
      rw [hconn]
      exact hio.asked i m hm
  · intro m hm
    obtain ⟨-, hmax⟩ | ⟨hnone, -, hmax⟩ := h.slot
    · have hle : io.maxFd ≤ io'.maxFd := by omega
      by_cases heq : m = n
      · obtain hmax | ⟨hmax, hsome⟩ := hmax
        · omega
        · rw [heq, hmax]
          exact hio.covered n hsome
      · rw [(h.others m heq).1] at hm
        exact Int.le_trans (hio.covered m hm) hle
    · have heq : m ≠ n := by
        intro heq
        rw [heq] at hm
        exact hm hnone
      have hold := hm
      rw [(h.others m heq).1] at hold
      have hle := hio.covered m hold
      rw [hmax, if_pos (by omega)]
      exact lowerMaxFd_covers hm (by omega)

theorem IoSelect.Covers.call (h : io.Covers) (c : IoCall) : (ioCall io c).2.Covers := by
  obtain ⟨e, -, hret⟩ | ⟨n, io', hret, hdone⟩ := ioCall_done io c
  · rw [hret]
    exact h
  · rw [hret]
    exact hdone.covers h

theorem IoSelect.Covers.calls (h : io.Covers) (cs : List IoCall) : (ioCalls io cs).Covers := by
  induction cs generalizing io with
  | nil => exact h
  | cons c cs ih => exact ih (h.call c)

/-- Without the number that the check lets pass, the bound stays inside the array. -/
theorem ioCalls_maxFd {cs : List IoCall} (hio : io.maxFd < fdSetsize) (hcs : ∀ c ∈ cs, c.fd ≠ fdSetsize) :
    (ioCalls io cs).maxFd < fdSetsize := by
  induction cs generalizing io with
  | nil => exact hio
  | cons c cs ih =>
    refine ih ?_ fun c' hc' => hcs c' (List.mem_cons_of_mem c hc')
    show (ioCall io c).2.maxFd < fdSetsize
    obtain ⟨e, -, hret⟩ | ⟨n, io', hret, hdone⟩ := ioCall_done io c
    · rw [hret]
      exact hio
    · have hne := hcs c List.mem_cons_self
      rw [hdone.fd] at hne
      have hle := hdone.le
      rw [hret]
      show io'.maxFd < fdSetsize
      obtain ⟨-, hmax | ⟨hmax, -⟩⟩ | ⟨-, -, hmax⟩ := hdone.slot
      · omega
      · omega
      · split at hmax
        · have hlower := lowerMaxFd_le io'.connections io.maxFd.toNat
          omega
        · omega

/-- Then a call touches the array inside its bounds only. -/
theorem places_inside {c : IoCall} {p : Int} (hio : io.maxFd < fdSetsize) (hc : c.fd ≠ fdSetsize)
    (hp : p ∈ c.places io) : 0 ≤ p ∧ p < fdSetsize := by
  obtain ⟨rfl, h0, hle⟩ | ⟨h0, hle⟩ := (touch_calls io c).places p hp
  · omega
  · omega

end Covers

/-- After any calls the sets and the bound agree with the registry. A further call does to the bits of
its descriptor what it is there for, or nothing at all, and all that it touches, also by the scan of
io_del, lies inside the array. -/
theorem ioCalls_covers (cs : List IoCall) (hcs : ∀ c ∈ cs, c.InRange) :
    (∀ i n, (ioCalls ioInit cs).fdSets i n = true → (ioCalls ioInit cs).connections n ≠ none) ∧
      (∀ n, (ioCalls ioInit cs).connections n ≠ none → (n : Int) < 1 + (ioCalls ioInit cs).maxFd) ∧
      ∀ c : IoCall, c.InRange →
        ((ioCall (ioCalls ioInit cs) c).1 = none →
          (∀ i, (ioCall (ioCalls ioInit cs) c).2.fdSets i c.fd.toNat =
            c.bits (fun j => (ioCalls ioInit cs).fdSets j c.fd.toNat) i) ∧
          ∀ i m, m ≠ c.fd.toNat →
            (ioCall (ioCalls ioInit cs) c).2.fdSets i m = (ioCalls ioInit cs).fdSets i m) ∧
        ((ioCall (ioCalls ioInit cs) c).1 = some .ealready →
          (ioCall (ioCalls ioInit cs) c).2 = ioCalls ioInit cs) ∧
        ∀ p ∈ c.places (ioCalls ioInit cs), 0 ≤ p ∧ p < fdSetsize := by
  have hcovers := ioInit_covers.calls cs
  have hmax : (ioCalls ioInit cs).maxFd < fdSetsize :=
    ioCalls_maxFd (by decide) fun c hc => Int.ne_of_lt (hcs c hc).2
  refine ⟨hcovers.asked, ?_, ?_⟩
  · intro n hn
    have hle := hcovers.covered n hn
    omega
  · intro c hc
    have hplaces : ∀ p ∈ c.places (ioCalls ioInit cs), 0 ≤ p ∧ p < fdSetsize := by
      intro p hp
      exact places_inside hmax (Int.ne_of_lt hc.2) hp
    obtain ⟨e, -, hret⟩ | ⟨n, io', hret, hdone⟩ := ioCall_done (ioCalls ioInit cs) c
    · rw [hret]
      exact ⟨nofun, fun _ => rfl, hplaces⟩
    · rw [hret, hdone.fd, Int.toNat_natCast]
      exact ⟨fun _ => ⟨hdone.bits, fun i m hm => (hdone.others m hm).2 i⟩, nofun, hplaces⟩

/-- The numbers of a terminal's atoms, and of a task's that comes and goes. -/
def fewCalls : List IoCall :=
  [.add .master 0 [.read], .add (.read 1) 5 [.read], .enable 5 [.write], .disable 0 [.read], .del 5]

theorem ioCalls_covers_fewCalls :
    (ioCalls ioInit fewCalls).fdSets .read 0 = false ∧
      (∀ n, (ioCalls ioInit fewCalls).connections n ≠ none → (n : Int) < 1 + (ioCalls ioInit fewCalls).maxFd) ∧
      (ioCalls ioInit fewCalls).maxFd = 0 := by
  refine ⟨by decide, ?_, by decide⟩
  have hrange : ∀ c ∈ fewCalls, c.InRange := by
    simp [fewCalls, IoCall.InRange, IoCall.fd, fdSetsize]
  exact (ioCalls_covers fewCalls hrange).2.1

/-- A call is refused and changes nothing, or all that it touches lies inside the array. -/
def IoCall.Tight (c : IoCall) (io : IoSelect) : Prop :=
  ((ioCall io c).1 = some .erange ∧ (ioCall io c).2 = io) ∨ ∀ p ∈ c.places io, 0 ≤ p ∧ p < fdSetsize

/-- The array, the loop of io_exit_check and that of io_dispatch get to all that is registered. -/
def IoSelect.Reached (io : IoSelect) : Prop :=
  ∀ n, io.connections n ≠ none → (n : Int) < fdSetsize ∧ (n : Int) ≤ io.maxFd

/-- The check is tight in all runs in which no descriptor is FD_SETSIZE, and in no others. -/
theorem ioCalls_tight_iff (cs : List IoCall) :
    (∀ before c after, cs = before ++ c :: after →
      c.Tight (ioCalls ioInit before) ∧ (ioCall (ioCalls ioInit before) c).2.Reached) ↔
      ∀ c ∈ cs, c.fd ≠ fdSetsize := by
  constructor
  · intro h c hc heq
    obtain ⟨before, after, hsplit⟩ := List.append_of_mem hc
    have htouches : c.fd ∈ c.places (ioCalls ioInit before) := by
      refine (touch_calls (ioCalls ioInit before) c).touches ?_ (Int.le_of_eq heq)
      rw [heq]
      decide
    obtain ⟨⟨hrefused, -⟩ | hinside, -⟩ := h before c after hsplit
    · obtain ⟨e, hrange, hret⟩ | ⟨n, io', hret, -⟩ := ioCall_done (ioCalls ioInit before) c
      · rw [hret] at hrefused
        have hout := hrange (Option.some.inj hrefused)
        rw [heq] at hout
        revert hout
        decide
      · rw [hret] at hrefused
        cases hrefused
    · have hlt := (hinside c.fd htouches).2
      omega
  · intro h before c after hsplit
    have hbefore : ∀ c' ∈ before ++ [c], c'.fd ≠ fdSetsize := by
      intro c' hc'
      apply h c'
      rw [hsplit]
      obtain hc' | hc' := List.mem_append.mp hc'
      · exact List.mem_append_left _ hc'
      · rw [List.mem_singleton.mp hc']
        exact List.mem_append_right _ List.mem_cons_self
    have hmax : (ioCalls ioInit before).maxFd < fdSetsize :=
      ioCalls_maxFd (by decide) fun c' hc' => hbefore c' (List.mem_append_left _ hc')
    have hne : c.fd ≠ fdSetsize := hbefore c (List.mem_append_right _ (List.mem_singleton_self c))
    have hcall : (ioCall (ioCalls ioInit before) c).2 = ioCalls ioInit (before ++ [c]) := by
      rw [ioCalls, ioCalls, List.foldl_append]
      rfl
    constructor
    · by_cases hrange : c.fd < 0 ∨ fdSetsize < c.fd
      · left
        rw [ioCall_erange hrange]
        exact ⟨rfl, rfl⟩
      · right
        intro p hp
        exact places_inside hmax hne hp
    · intro n hn
      rw [hcall] at hn ⊢
      have hle := (ioInit_covers.calls (before ++ [c])).covered n hn
      have hlt : (ioCalls ioInit (before ++ [c])).maxFd < fdSetsize := ioCalls_maxFd (by decide) hbefore
      omega

/-- The first descriptor that select() cannot be asked about is let into the array. -/
theorem ioAdd_fdSetsize :
    ¬ ∀ (cs : List IoCall) before c after, cs = before ++ c :: after →
      c.Tight (ioCalls ioInit before) ∧ (ioCall (ioCalls ioInit before) c).2.Reached := by
  intro h
  obtain ⟨-, hreached⟩ := h [.add .master 1024 [.read]] [] (.add .master 1024 [.read]) [] rfl
  have hlt := (hreached 1024 (by decide)).1
  revert hlt
  decide

end Rzh
