import Rzh.System

/-!
# Pipes and atoms of a state

How the calls that change one pipe, one atom or one descriptor show in the others.
-/
namespace Rzh

namespace Sys

variable {s s' : Sys} {p q : PipeRef} {a b : AtomRef}

@[simp] theorem setPipe_same (s : Sys) (p : PipeRef) (x : Pipe) : (s.setPipe p x).pipes p = x := by
  simp [setPipe]

theorem setPipe_ne (s : Sys) (x : Pipe) (h : q ≠ p) : (s.setPipe p x).pipes q = s.pipes q := by
  simp [setPipe, h]

@[simp] theorem setFifo_same (s : Sys) (p : PipeRef) (f : Fifo) (k : Kernel) :
    (s.setFifo p f k).pipes p = { s.pipes p with fifo := f } := by
  simp [setFifo, setPipe]

theorem setFifo_ne (s : Sys) (f : Fifo) (k : Kernel) (h : q ≠ p) :
    (s.setFifo p f k).pipes q = s.pipes q := by
  simp [setFifo, setPipe, h]

@[simp] theorem fifo_setFifo (s : Sys) (p : PipeRef) (f : Fifo) (k : Kernel) :
    (s.setFifo p f k).fifo p = f := by
  simp [fifo]

theorem setFifo_self (s : Sys) (p : PipeRef) (k : Kernel) :
    s.setFifo p (s.fifo p) k = { s with kernel := k } := by
  simp [setFifo, setPipe, fifo]

/-- A change to an atom that leaves its descriptor alone. -/
theorem fd_setAtom (s : Sys) (b : AtomRef) {x : Atom} (h : x.fd = (s.atoms a).fd) :
    ((s.setAtom a x).atoms b).fd = (s.atoms b).fd := by
  by_cases hb : b = a
  · subst hb
    simp [setAtom, h]
  · simp [setAtom, hb]

theorem readAtom_ok (h : s.readAtom p = .ok a) : (s.pipes p).readAtom = some a := by
  rw [readAtom] at h
  split at h
  · cases h
  · next heq =>
    cases h
    exact heq

theorem writeAtom_ok (h : s.writeAtom p = .ok a) : (s.pipes p).writeAtom = some a := by
  rw [writeAtom] at h
  split at h
  · cases h
  · next heq =>
    cases h
    exact heq

/-- What only the installing and the removing of a task change. -/
structure Shape where
  tasks : List TaskState
  fresh : Nat
  optQuiet : Bool
  status : StatusLine
  readAtom : PipeRef → Option AtomRef
  writeAtom : PipeRef → Option AtomRef

def shape (s : Sys) : Shape where
  tasks := s.tasks
  fresh := s.fresh
  optQuiet := s.optQuiet
  status := s.status
  readAtom p := (s.pipes p).readAtom
  writeAtom p := (s.pipes p).writeAtom

theorem shape_setPipe (s : Sys) (p : PipeRef) (x : Pipe) (hr : x.readAtom = (s.pipes p).readAtom)
    (hw : x.writeAtom = (s.pipes p).writeAtom) : (s.setPipe p x).shape = s.shape := by
  have hread : (fun q => ((s.setPipe p x).pipes q).readAtom) = fun q => (s.pipes q).readAtom := by
    funext q
    by_cases hq : q = p
    · rw [hq, setPipe_same, hr]
    · rw [setPipe_ne s x hq]
  have hwrite : (fun q => ((s.setPipe p x).pipes q).writeAtom) = fun q => (s.pipes q).writeAtom := by
    funext q
    by_cases hq : q = p
    · rw [hq, setPipe_same, hw]
    · rw [setPipe_ne s x hq]
  simp only [shape, hread, hwrite]
  rfl

@[simp] theorem shape_setFifo (s : Sys) (p : PipeRef) (f : Fifo) (k : Kernel) :
    (s.setFifo p f k).shape = s.shape :=
  shape_setPipe s p { s.pipes p with fifo := f } rfl rfl

/-- An atom has a descriptor. -/
def live (s : Sys) (a : AtomRef) : Prop := 0 ≤ (s.atoms a).fd

instance (s : Sys) (a : AtomRef) : Decidable (s.live a) := inferInstanceAs (Decidable (_ ≤ _))

/-- Whether select() is asked about an atom. -/
def wants (s : Sys) (i : Interest) (a : AtomRef) : Bool := s.io.wants i (s.atoms a).fd

/-- With a descriptor an atom is registered for it. -/
def Held (s : Sys) (a : AtomRef) : Prop := s.live a → s.io.Registered a (s.atoms a).fd

/-- Nothing has happened to any atom. -/
structure SameAtoms (s s' : Sys) : Prop where
  io : s'.io = s.io
  atoms : s'.atoms = s.atoms

namespace SameAtoms

theorem refl (s : Sys) : SameAtoms s s := ⟨rfl, rfl⟩

theorem trans {s'' : Sys} (h : SameAtoms s s') (h' : SameAtoms s' s'') : SameAtoms s s'' :=
  ⟨h'.io.trans h.io, h'.atoms.trans h.atoms⟩

theorem live (h : SameAtoms s s') : s'.live a ↔ s.live a := by
  rw [Sys.live, Sys.live, h.atoms]

theorem wants (h : SameAtoms s s') (i : Interest) : s'.wants i a = s.wants i a := by
  rw [Sys.wants, Sys.wants, h.io, h.atoms]

theorem held (h : SameAtoms s s') : s'.Held a ↔ s.Held a := by
  rw [Held, Held, h.live, h.io, h.atoms]

end SameAtoms

theorem sameAtoms_setPipe (s : Sys) (p : PipeRef) (x : Pipe) : SameAtoms s (s.setPipe p x) :=
  ⟨rfl, rfl⟩

theorem sameAtoms_setFifo (s : Sys) (p : PipeRef) (f : Fifo) (k : Kernel) :
    SameAtoms s (s.setFifo p f k) :=
  ⟨rfl, rfl⟩

theorem wants_of_not_live (h : ¬ s.live a) (i : Interest) : s.wants i a = false :=
  IoSelect.wants_of_neg (Int.not_le.mp h) i

theorem Held.eq_of_fd (ha : s.Held a) (hb : s.Held b) (hl : s.live a)
    (he : (s.atoms b).fd = (s.atoms a).fd) : b = a := by
  have hl' : s.live b := by
    rw [live, he]
    exact hl
  have hb' := hb hl'
  rw [he] at hb'
  exact hb'.unique (ha hl)

@[simp] theorem live_enable (s : Sys) (a b : AtomRef) (flags : List Interest) :
    (s.enable a flags).live b ↔ s.live b := Iff.rfl

@[simp] theorem live_disable (s : Sys) (a b : AtomRef) (flags : List Interest) :
    (s.disable a flags).live b ↔ s.live b := Iff.rfl

theorem held_enable (h : s.Held b) (flags : List Interest) : (s.enable a flags).Held b := by
  intro hl
  obtain ⟨hn, hle, hc⟩ := h hl
  exact ⟨hn, hle, by rw [enable, ioEnable_connections]; exact hc⟩

theorem held_disable (h : s.Held b) (flags : List Interest) : (s.disable a flags).Held b := by
  intro hl
  obtain ⟨hn, hle, hc⟩ := h hl
  exact ⟨hn, hle, by rw [disable, ioDisable_connections]; exact hc⟩

theorem wants_enable (ha : s.Held a) (hb : s.Held b) (flags : List Interest) (i : Interest) :
    (s.enable a flags).wants i b = if b = a ∧ s.live a ∧ i ∈ flags then true else s.wants i b := by
  by_cases hl : s.live a
  · have hiff : (s.atoms b).fd = (s.atoms a).fd ↔ b = a :=
      ⟨ha.eq_of_fd hb hl, fun he => by rw [he]⟩
    simp only [wants, enable, ioEnable_wants (ha hl), hiff, hl, true_and]
  · simp only [wants, enable, ioEnable_of_neg (Int.not_le.mp hl), hl, false_and, and_false, if_false]

theorem wants_disable (ha : s.Held a) (hb : s.Held b) (flags : List Interest) (i : Interest) :
    (s.disable a flags).wants i b = if b = a ∧ i ∈ flags then false else s.wants i b := by
  by_cases hl : s.live a
  · have hiff : (s.atoms b).fd = (s.atoms a).fd ↔ b = a :=
      ⟨ha.eq_of_fd hb hl, fun he => by rw [he]⟩
    simp only [wants, disable, ioDisable_wants (ha hl), hiff]
  · have hsame : (s.disable a flags).wants i b = s.wants i b := by
      simp only [wants, disable, ioDisable_of_neg (Int.not_le.mp hl)]
    rw [hsame]
    split
    · next h =>
      rw [h.1]
      exact wants_of_not_live hl i
    · rfl

end Sys

open Sys

section Destroy

variable {s : Sys} {a b : AtomRef}

@[simp] theorem pipeAtomDestroy_atoms (s : Sys) (a : AtomRef) :
    (pipeAtomDestroy s a).atoms = s.atoms := by
  rw [pipeAtomDestroy]
  split <;> rfl

theorem live_pipeAtomDestroy (s : Sys) (a b : AtomRef) :
    (pipeAtomDestroy s a).live b ↔ s.live b := by
  rw [live, live, pipeAtomDestroy_atoms]

theorem held_pipeAtomDestroy (ha : s.Held a) (hb : s.Held b) (h : b ≠ a) :
    (pipeAtomDestroy s a).Held b := by
  intro hl
  rw [live_pipeAtomDestroy] at hl
  rw [pipeAtomDestroy_atoms]
  rw [pipeAtomDestroy]
  split
  · next hla =>
    obtain ⟨hn, hle, hc⟩ := hb hl
    refine ⟨hn, hle, ?_⟩
    have hne : (s.atoms b).fd ≠ (s.atoms a).fd := fun he => h (ha.eq_of_fd hb hla he)
    have hna := (ha hla).nonneg
    simp only [ioDel_connections (ha hla)]
    rw [if_neg (by omega)]
    exact hc
  · exact hb hl

theorem wants_pipeAtomDestroy (ha : s.Held a) (hb : s.Held b) (i : Interest) :
    (pipeAtomDestroy s a).wants i b = if b = a then false else s.wants i b := by
  rw [Sys.wants, pipeAtomDestroy_atoms, pipeAtomDestroy]
  split
  · next hl =>
    have hiff : (s.atoms b).fd = (s.atoms a).fd ↔ b = a :=
      ⟨ha.eq_of_fd hb hl, fun he => by rw [he]⟩
    simp only [ioDel_wants (ha hl), hiff, Sys.wants]
  · next hl =>
    split
    · next h =>
      rw [h]
      exact wants_of_not_live hl i
    · rfl

theorem closeAtom_atoms (s : Sys) (a : AtomRef) :
    (closeAtom s a).atoms = Function.update s.atoms a { s.atoms a with fd := -1 } := by
  simp [closeAtom, setAtom, pipeAtomDestroy_atoms, Sys.close]

theorem closeAtom_io (s : Sys) (a : AtomRef) : (closeAtom s a).io = (pipeAtomDestroy s a).io := by
  by_cases hl : 0 ≤ (s.atoms a).fd
  · simp [closeAtom, setAtom, pipeAtomDestroy, Sys.close, hl]
  · simp [closeAtom, setAtom, pipeAtomDestroy, Sys.close, hl]

/-- Only the atoms matter to what a close does to them. -/
theorem sameAtoms_closeAtom {s' : Sys} (h : SameAtoms s s') (a : AtomRef) :
    SameAtoms (closeAtom s a) (closeAtom s' a) where
  io := by
    rw [closeAtom_io, closeAtom_io, pipeAtomDestroy, pipeAtomDestroy, h.atoms]
    split
    · simp only [h.io]
    · exact h.io
  atoms := by rw [closeAtom_atoms, closeAtom_atoms, h.atoms]

theorem live_closeAtom (s : Sys) (a b : AtomRef) : (closeAtom s a).live b ↔ b ≠ a ∧ s.live b := by
  rw [live, live, closeAtom_atoms]
  by_cases h : b = a
  · simp [h]
  · simp [h]

theorem held_closeAtom (ha : s.Held a) (hb : s.Held b) : (closeAtom s a).Held b := by
  intro hl
  obtain ⟨hne, hl'⟩ := (live_closeAtom s a b).mp hl
  have h := held_pipeAtomDestroy ha hb hne ((live_pipeAtomDestroy s a b).mpr hl')
  rw [pipeAtomDestroy_atoms] at h
  rw [closeAtom_io, closeAtom_atoms, Function.update_of_ne hne]
  exact h

theorem wants_closeAtom (ha : s.Held a) (hb : s.Held b) (i : Interest) :
    (closeAtom s a).wants i b = if b = a then false else s.wants i b := by
  split
  · next h =>
    apply wants_of_not_live
    rw [live_closeAtom]
    exact fun hl => hl.1 h
  · next h =>
    have hd := wants_pipeAtomDestroy ha hb i
    rw [if_neg h] at hd
    rw [← hd, Sys.wants, Sys.wants, closeAtom_io, closeAtom_atoms, Function.update_of_ne h,
      pipeAtomDestroy_atoms]

end Destroy

/-- What both ends of a pipe can do to the atom they work on: nothing, or close it. -/
inductive MayClose (a : AtomRef) (s s' : Sys) : Prop where
  | same (h : SameAtoms s s')
  | closed (h : SameAtoms (closeAtom s a) s')

namespace MayClose

variable {s s' : Sys} {a b : AtomRef}

theorem trans_same {s'' : Sys} (h : MayClose a s s') (h' : SameAtoms s' s'') : MayClose a s s'' := by
  cases h with
  | same h => exact .same (h.trans h')
  | closed h => exact .closed (h.trans h')

theorem live (h : MayClose a s s') (hl : s'.live b) : s.live b := by
  cases h with
  | same h => exact h.live.mp hl
  | closed h => exact ((live_closeAtom s a b).mp (h.live.mp hl)).2

theorem live_of_ne (h : MayClose a s s') (hne : b ≠ a) : s'.live b ↔ s.live b := by
  cases h with
  | same h => exact h.live
  | closed h => rw [h.live, live_closeAtom, and_iff_right hne]

theorem held (h : MayClose a s s') (ha : s.Held a) (hb : s.Held b) : s'.Held b := by
  cases h with
  | same h => exact h.held.mpr hb
  | closed h => exact h.held.mpr (held_closeAtom ha hb)

theorem wants (h : MayClose a s s') (ha : s.Held a) (hb : s.Held b) (hl : s'.live b)
    (i : Interest) : s'.wants i b = s.wants i b := by
  cases h with
  | same h => exact h.wants i
  | closed h =>
    obtain ⟨hne, -⟩ := (live_closeAtom s a b).mp (h.live.mp hl)
    rw [h.wants i, wants_closeAtom ha hb, if_neg hne]

theorem wants_of_ne (h : MayClose a s s') (ha : s.Held a) (hb : s.Held b) (hne : b ≠ a)
    (i : Interest) : s'.wants i b = s.wants i b := by
  cases h with
  | same h => exact h.wants i
  | closed h => rw [h.wants i, wants_closeAtom ha hb, if_neg hne]

theorem fd (h : MayClose a s s') (b : AtomRef) :
    (s'.atoms b).fd = (s.atoms b).fd ∨ b = a ∧ (s'.atoms b).fd = -1 := by
  cases h with
  | same h => exact .inl (by rw [h.atoms])
  | closed h =>
    rw [h.atoms, closeAtom_atoms]
    by_cases hb : b = a
    · subst hb
      exact .inr ⟨rfl, by simp⟩
    · exact .inl (by rw [Function.update_of_ne hb])

theorem proc (h : MayClose a s s') (b : AtomRef) : (s'.atoms b).proc = (s.atoms b).proc := by
  cases h with
  | same h => rw [h.atoms]
  | closed h =>
    rw [h.atoms, closeAtom_atoms]
    by_cases hb : b = a
    · subst hb
      simp
    · rw [Function.update_of_ne hb]

end MayClose

/-- Nothing but the pipes and the interests has changed; the atoms keep their descriptors. -/
structure Rewired (s s' : Sys) : Prop where
  rest : s' = { s with io := s'.io, atoms := s'.atoms, pipes := s'.pipes }
  fd : ∀ a, (s'.atoms a).fd = (s.atoms a).fd
  connections : s'.io.connections = s.io.connections

namespace Rewired

variable {s s' s'' : Sys} {a : AtomRef}

theorem trans (h : Rewired s s') (h' : Rewired s' s'') : Rewired s s'' where
  rest := by
    have hr := h'.rest
    rw [h.rest] at hr
    exact hr
  fd a := (h'.fd a).trans (h.fd a)
  connections := h'.connections.trans h.connections

theorem live (h : Rewired s s') : s'.live a ↔ s.live a := by
  rw [Sys.live, Sys.live, h.fd]

theorem held (h : Rewired s s') (ha : s.Held a) : s'.Held a := by
  intro hl
  obtain ⟨hn, hle, hc⟩ := ha (h.live.mp hl)
  rw [h.fd]
  exact ⟨hn, hle, by rw [h.connections, hc]⟩

end Rewired

/-- The calls that a splice is made of: each changes no descriptor, and asks select() about
no more than the reading of `rs`. -/
structure Splices (rs : List AtomRef) (s s' : Sys) : Prop extends Rewired s s' where
  wants : (∀ a ∈ rs, s.Held a) → ∀ b i, s.Held b →
    s'.wants i b = s.wants i b ∨ i = .read ∧ b ∈ rs

namespace Splices

variable {s s' s'' : Sys} {rs : List AtomRef}

theorem trans (h : Splices rs s s') (h' : Splices rs s' s'') : Splices rs s s'' where
  toRewired := h.toRewired.trans h'.toRewired
  wants hrs b i hb := by
    obtain he | hr := h'.wants (fun a ha => h.held (hrs a ha)) b i (h.held hb)
    · rw [he]
      exact h.wants hrs b i hb
    · exact .inr hr

theorem setAtom (rs : List AtomRef) (s : Sys) (a : AtomRef) {x : Atom} (h : x.fd = (s.atoms a).fd) :
    Splices rs s (s.setAtom a x) where
  rest := rfl
  fd b := fd_setAtom s b h
  connections := rfl
  wants _ b i _ := by
    left
    rw [Sys.wants, Sys.wants, fd_setAtom s b h]
    rfl

theorem setPipe (rs : List AtomRef) (s : Sys) (p : PipeRef) (x : Pipe) :
    Splices rs s (s.setPipe p x) where
  rest := rfl
  fd _ := rfl
  connections := rfl
  wants _ _ _ _ := .inl rfl

theorem enable {rs : List AtomRef} (s : Sys) {a : AtomRef} (ha : a ∈ rs) :
    Splices rs s (s.enable a [.read]) where
  rest := rfl
  fd _ := rfl
  connections := ioEnable_connections
  wants hrs b i hb := by
    rw [wants_enable (hrs a ha) hb]
    split
    · next h =>
      obtain ⟨rfl, -, hi⟩ := h
      exact .inr ⟨by simpa using hi, ha⟩
    · exact .inl rfl

theorem refl (rs : List AtomRef) (s : Sys) : Splices rs s s :=
  ⟨⟨rfl, fun _ => rfl, rfl⟩, fun _ _ _ _ => .inl rfl⟩

end Splices

/-- A pipe that is set up on its atoms: its reader is listened to. -/
theorem pipeInit_splices {rs : List AtomRef} (s : Sys) (p : PipeRef) (ratom watom : Option AtomRef)
    (size : Nat) (h : 0 < size) (hr : ∀ a, ratom = some a → a ∈ rs) :
    Splices rs s (pipeInit s p ratom watom size h) := by
  let x : Pipe := ⟨fifoInit size h, ratom, watom, false, 0⟩
  have hwrite : ∀ s w, Splices rs s (s.setAtom w { s.atoms w with writePipe := some p }) :=
    fun s w => .setAtom rs s w rfl
  cases ratom with
  | none =>
    cases watom with
    | none => exact .setPipe rs s p x
    | some w => exact (hwrite s w).trans (.setPipe rs _ p x)
  | some r =>
    let s₁ := s.setAtom r { s.atoms r with readPipe := .pipe p }
    have h₁ : Splices rs s s₁ := .setAtom rs s r rfl
    cases watom with
    | none => exact (h₁.trans (.setPipe rs _ p x)).trans (.enable _ (hr r rfl))
    | some w => exact ((h₁.trans (hwrite s₁ w)).trans (.setPipe rs _ p x)).trans (.enable _ (hr r rfl))

end Rzh
