import Mathlib.Logic.Function.Basic
import Rzh.RawFifo

/-!
# Fifos as bounded queues

Any number of fifos under any sequence of calls. What the calls mean is said on lists of
bytes; the machine does that as long as the sizes of the rings can be doubled.
-/
namespace Rzh

open Circular

/-- A call on one fifo, or fifo_copy between two. -/
inductive FifoOp (ι : Type) where
  | clear (i : ι)
  | addchar (i : ι) (c : UInt8)
  | getchar (i : ι)
  | append (i : ι) (buf : List UInt8)
  | prepend (i : ι) (buf : List UInt8)
  | unpend (i : ι) (cnt : Nat)
  | copy (src dst : ι) (h : src ≠ dst)

/-- What a call hands back: bytes, or a count. -/
inductive FifoAnswer where
  | done
  | bytes (bs : List UInt8)
  | count (n : Int)

section Queue

variable {ι : Type}

/-- A ring is in the state that a queue is in, and its own count and room say so. -/
structure Refines (f : RawFifo) (q : List UInt8) : Prop where
  beg : 0 ≤ f.beg ∧ f.beg < f.size
  stop : 0 ≤ f.stop ∧ f.stop < f.size
  contents : f.contents = q
  count : f.count = q.length
  avail : f.avail = f.size - 1 - q.length
  bounded : (q.length : Int) ≤ f.size - 1

/-- fifo_init, on memory that malloc() has left as it was. -/
def rawInit (size : Int) (mem : Nat → UInt8) : RawFifo := ⟨mem, 0, 0, size⟩

/-- Rings of the program, each with the contents of its queue. -/
def Hold (size : ι → Int) (gs : ι → Fifo) (qs : ι → List UInt8) : Prop :=
  ∀ i, ((gs i).size : Int) = size i ∧ (gs i).contents = qs i

section Hold

variable {size : ι → Int} {gs : ι → Fifo} {qs : ι → List UInt8}

/-- The room of a queue is that of its ring. -/
theorem Hold.avail (h : Hold size gs qs) (i : ι) :
    (qs i).length + (gs i).avail = (size i - 1).toNat ∧ (qs i).length = (gs i).count := by
  obtain ⟨hsize, hcontents⟩ := h i
  have hsum := (gs i).count_add_avail
  have hlen := congrArg List.length hcontents
  rw [Buffer.toList_length] at hlen
  constructor
  · omega
  · exact hlen.symm

theorem Hold.doubles (h : Hold size gs qs) (hroom : ∀ i, size i ≤ 0x40000000) (i : ι) :
    (gs i).Doubles := by
  rw [Fifo.Doubles, (h i).1]
  exact hroom i

/-- A ring that holds what a queue does is in its state. -/
theorem Hold.refines (h : Hold size gs qs) (hroom : ∀ i, size i ≤ 0x40000000) (i : ι) :
    Refines (gs i).raw (qs i) := by
  have hb := (gs i).beg_lt
  have hs := (gs i).stop_lt
  have hsum := (gs i).count_add_avail
  obtain ⟨-, hcount⟩ := h.avail i
  refine ⟨?_, ?_, ?_, ?_, ?_, ?_⟩
  · rw [raw_beg, raw_size]
    omega
  · rw [raw_stop, raw_size]
    omega
  · rw [raw_contents, (h i).2]
  · rw [raw_count (h.doubles hroom i), fifoCount_eq, hcount]
  · rw [raw_avail (h.doubles hroom i), fifoAvail_eq, raw_size]
    omega
  · rw [raw_size]
    omega

end Hold

theorem rawInit_hold {size : ι → Int} (hsize : ∀ i, 1 ≤ size i) (mem : ι → Nat → UInt8) :
    ∃ gs : ι → Fifo, (fun i => rawInit (size i) (mem i)) = (fun i => (gs i).raw) ∧
      Hold size gs fun _ => [] := by
  have hpos : ∀ i, 0 < (size i).toNat := fun i => by
    have := hsize i
    omega
  have hnat : ∀ i, (((size i).toNat : Nat) : Int) = size i := fun i =>
    Int.toNat_of_nonneg (Int.le_trans (by decide) (hsize i))
  refine ⟨fun i => { fifoInit (size i).toNat (hpos i) with buf := mem i }, ?_, ?_⟩
  · funext i
    simp only [rawInit, Fifo.raw, fifoInit, hnat i]
    rfl
  · intro i
    refine ⟨hnat i, ?_⟩
    rw [Fifo.contents, Buffer.toList_eq_nil_iff, Buffer.count_eq_zero_iff]
    rfl

variable [DecidableEq ι]

/-- The calls on queues that hold up to `room i` bytes. A call that is not allowed, because
there is too little room or too little data, has no result. -/
def queueStep (room : ι → Nat) (qs : ι → List UInt8) :
    FifoOp ι → Option (FifoAnswer × (ι → List UInt8))
  | .clear i => some (.done, Function.update qs i [])
  | .addchar i c =>
    if (qs i).length + 1 ≤ room i then some (.done, Function.update qs i (qs i ++ [c])) else none
  | .getchar i =>
    match qs i with
    | [] => none
    | c :: cs => some (.bytes [c], Function.update qs i cs)
  | .append i buf =>
    if (qs i).length + buf.length ≤ room i then some (.done, Function.update qs i (qs i ++ buf))
    else none
  | .prepend i buf =>
    if (qs i).length + buf.length ≤ room i then some (.done, Function.update qs i (buf ++ qs i))
    else none
  | .unpend i cnt =>
    if cnt ≤ (qs i).length then
      some (.bytes ((qs i).take cnt), Function.update qs i ((qs i).drop cnt))
    else none
  | .copy src dst _ =>
    let n := min (qs src).length (room dst - (qs dst).length)
    some (.count n, Function.update (Function.update qs dst (qs dst ++ (qs src).take n)) src
      ((qs src).drop n))

/-- The calls on the rings of the machine. -/
def rawStep (fs : ι → RawFifo) : FifoOp ι → Option (FifoAnswer × (ι → RawFifo))
  | .clear i => some (.done, Function.update fs i (fs i).clear)
  | .addchar i c => do some (.done, Function.update fs i (← (fs i).unsafeAddchar c))
  | .getchar i => do
    let (c, f) ← (fs i).unsafeGetchar
    some (.bytes [c], Function.update fs i f)
  | .append i buf => do some (.done, Function.update fs i (← (fs i).unsafeAppend buf))
  | .prepend i buf => do some (.done, Function.update fs i (← (fs i).unsafePrepend buf))
  | .unpend i cnt => do
    let (bs, f) ← (fs i).unsafeUnpend cnt
    some (.bytes bs, Function.update fs i f)
  | .copy src dst _ => do
    let (n, f, g) ← RawFifo.copy (fs src) (fs dst)
    some (.count n, Function.update (Function.update fs dst g) src f)

/-- Calls one after the other, with what they hand back. -/
def runOps {σ : Type} (step : σ → FifoOp ι → Option (FifoAnswer × σ)) (s : σ) :
    List (FifoOp ι) → Option (List FifoAnswer × σ)
  | [] => some ([], s)
  | op :: ops => do
    let (a, s) ← step s op
    let (as, s) ← runOps step s ops
    some (a :: as, s)

/-- Fifos of these sizes are bounded queues: every sequence of allowed calls stays inside the
buffers, hands back what it does on queues, and leaves rings in the states of the queues. -/
def BoundedQueues (size : ι → Int) : Prop :=
  ∀ (mem : ι → Nat → UInt8) (ops : List (FifoOp ι)) (answers : List FifoAnswer)
    (qs : ι → List UInt8),
    runOps (queueStep fun i => (size i - 1).toNat) (fun _ => []) ops = some (answers, qs) →
    ∃ fs, runOps rawStep (fun i => rawInit (size i) (mem i)) ops = some (answers, fs) ∧
      ∀ i, (fs i).size = size i ∧ Refines (fs i) (qs i)

section Step

variable {size : ι → Int} {gs : ι → Fifo} {qs : ι → List UInt8} {i : ι}

theorem raw_update (gs : ι → Fifo) (i : ι) (g : Fifo) :
    Function.update (fun j => (gs j).raw) i g.raw = fun j => (Function.update gs i g j).raw := by
  funext j
  by_cases hj : j = i
  · subst hj
    simp
  · simp [hj]

theorem Hold.update (h : Hold size gs qs) {g : Fifo} {q : List UInt8} (hsize : g.size = (gs i).size)
    (hq : g.contents = q) : Hold size (Function.update gs i g) (Function.update qs i q) := by
  intro j
  by_cases hj : j = i
  · subst hj
    simp only [Function.update_self]
    exact ⟨by rw [hsize]; exact (h j).1, hq⟩
  · simp only [Function.update_of_ne hj]
    exact h j

/-- fifo_copy takes from one queue what the other has room for. -/
theorem rawStep_copy (h : Hold size gs qs) (hroom : ∀ i, size i ≤ 0x40000000) {src dst : ι} (hne : src ≠ dst)
    {a : FifoAnswer} {qs' : ι → List UInt8}
    (hq : queueStep (fun i => (size i - 1).toNat) qs (.copy src dst hne) = some (a, qs')) :
    ∃ gs', rawStep (fun j => (gs j).raw) (.copy src dst hne) = some (a, fun j => (gs' j).raw) ∧ Hold size gs' qs' := by
  have hsrc := h.avail src
  have hdst := h.avail dst
  let n := min (gs src).count (gs dst).avail
  have hn : n = min (qs src).length ((size dst - 1).toNat - (qs dst).length) := by
    change min _ _ = _
    omega
  have hcopy := raw_copy (h.doubles hroom src) (h.doubles hroom dst) (n := n) rfl
  have hlen : ((gs src).contents.take n).length ≤ (gs dst).avail := by
    rw [List.length_take]
    omega
  have hdst' : Hold size (Function.update gs dst (fifoUnsafeAppend (gs dst) ((gs src).contents.take n)))
      (Function.update qs dst (qs dst ++ (qs src).take n)) :=
    h.update rfl (by rw [fifoUnsafeAppend_contents _ _ hlen, (h dst).2, (h src).2])
  have hsrc' : ((gs src).advance n).contents = (qs src).drop n := by
    rw [advance_contents (by omega), (h src).2]
  rw [queueStep, ← hn] at hq
  cases hq
  refine ⟨_, ?_, hdst'.update (g := (gs src).advance n) ?_ hsrc'⟩
  · rw [rawStep, hcopy, ← raw_update, ← raw_update]
    rfl
  · rw [Function.update_of_ne hne]
    rfl

/-- Each call does to the rings what it does to the queues. -/
theorem rawStep_queueStep (h : Hold size gs qs) (hroom : ∀ i, size i ≤ 0x40000000) {op : FifoOp ι}
    {a : FifoAnswer} {qs' : ι → List UInt8}
    (hq : queueStep (fun i => (size i - 1).toNat) qs op = some (a, qs')) :
    ∃ gs', rawStep (fun j => (gs j).raw) op = some (a, fun j => (gs' j).raw) ∧ Hold size gs' qs' := by
  cases op with
  | clear i =>
    let g : Fifo :=
      { gs i with beg := 0, stop := 0, beg_lt := (gs i).size_pos, stop_lt := (gs i).size_pos }
    have hg : g.contents = [] := by
      rw [Fifo.contents, Buffer.toList_eq_nil_iff, Buffer.count_eq_zero_iff]
    cases hq
    refine ⟨Function.update gs i g, ?_, h.update rfl hg⟩
    rw [rawStep, ← raw_update]
    rfl
  | addchar i c =>
    have hav := h.avail i
    rw [queueStep] at hq
    split at hq
    · next hfit =>
      cases hq
      refine ⟨Function.update gs i (fifoUnsafeAddchar (gs i) c), ?_, h.update rfl ?_⟩
      · rw [rawStep, raw_unsafeAddchar, ← raw_update]
        rfl
      · rw [fifoUnsafeAddchar_eq_append, fifoUnsafeAppend_contents _ _ (by simp; omega), (h i).2]
    · cases hq
  | getchar i =>
    rw [queueStep] at hq
    split at hq
    · cases hq
    · next c cs hcs =>
      have hc : (gs i).contents = c :: cs := (h i).2.trans hcs
      have hcount : 1 ≤ (gs i).count := by
        rw [← (h.avail i).2, hcs, List.length_cons]
        omega
      cases hq
      refine ⟨Function.update gs i ((gs i).advance 1), ?_, h.update rfl ?_⟩
      · rw [rawStep, raw_unsafeGetchar hc, ← raw_update]
        rfl
      · rw [advance_contents hcount, hc]
        rfl
  | append i buf =>
    have hav := h.avail i
    rw [queueStep] at hq
    split at hq
    · next hfit =>
      have hfit' : buf.length ≤ (gs i).avail := by omega
      cases hq
      refine ⟨Function.update gs i (fifoUnsafeAppend (gs i) buf), ?_, h.update rfl ?_⟩
      · rw [rawStep, raw_unsafeAppend (h.doubles hroom i) hfit', ← raw_update]
        rfl
      · rw [fifoUnsafeAppend_contents _ _ hfit', (h i).2]
    · cases hq
  | prepend i buf =>
    have hav := h.avail i
    rw [queueStep] at hq
    split at hq
    · next hfit =>
      have hroom : buf.length ≤ (gs i).avail := by omega
      obtain ⟨g, hg, hsize, hcontents⟩ := raw_unsafePrepend hroom
      cases hq
      refine ⟨Function.update gs i g, ?_, h.update hsize ?_⟩
      · rw [rawStep, hg, ← raw_update]
        rfl
      · rw [hcontents, (h i).2]
    · cases hq
  | unpend i cnt =>
    have hav := h.avail i
    rw [queueStep] at hq
    split at hq
    · next hfit =>
      have hcnt : cnt ≤ (gs i).count := by omega
      cases hq
      refine ⟨Function.update gs i ((gs i).advance cnt), ?_, h.update rfl ?_⟩
      · rw [rawStep, raw_unsafeUnpend (h.doubles hroom i) hcnt, ← raw_update, (h i).2]
        rfl
      · rw [advance_contents hcnt, (h i).2]
    · cases hq
  | copy src dst hne => exact rawStep_copy h hroom hne hq

/-- So does every sequence of them. -/
theorem runOps_rawStep (hroom : ∀ i, size i ≤ 0x40000000) {ops : List (FifoOp ι)}
    {answers : List FifoAnswer} {qs' : ι → List UInt8} (h : Hold size gs qs)
    (hq : runOps (queueStep fun i => (size i - 1).toNat) qs ops = some (answers, qs')) :
    ∃ gs', runOps rawStep (fun j => (gs j).raw) ops = some (answers, fun j => (gs' j).raw) ∧
      Hold size gs' qs' := by
  induction ops generalizing gs qs answers with
  | nil =>
    cases hq
    exact ⟨gs, rfl, h⟩
  | cons op ops ih =>
    rw [runOps, Option.bind_eq_bind, Option.bind_eq_some_iff] at hq
    obtain ⟨x, hstep, hq⟩ := hq
    obtain ⟨a, qs₁⟩ := x
    simp only at hq
    rw [Option.bind_eq_bind, Option.bind_eq_some_iff] at hq
    obtain ⟨y, hrest, hq⟩ := hq
    obtain ⟨as, qs₂⟩ := y
    cases hq
    obtain ⟨gs₁, hraw, h₁⟩ := rawStep_queueStep h hroom hstep
    obtain ⟨gs', hraws, h'⟩ := ih h₁ hrest
    refine ⟨gs', ?_, h'⟩
    rw [runOps, hraw, Option.bind_eq_bind, Option.bind_some]
    simp only
    rw [hraws]
    rfl

end Step

theorem copyIn_beg {f f' : RawFifo} {off : Int} {src : List UInt8} {start n : Int}
    (h : f.copyIn off src start n = some f') : f'.beg = f.beg := by
  rw [RawFifo.copyIn] at h
  split at h
  · cases h
    rfl
  · cases h

theorem unsafeAppend_beg {f f' : RawFifo} {buf : List UInt8} (h : f.unsafeAppend buf = some f') :
    f'.beg = f.beg := by
  simp only [RawFifo.unsafeAppend] at h
  split at h
  · simp only [Option.bind_eq_bind, Option.bind_eq_some_iff] at h
    obtain ⟨f₁, h₁, f₂, h₂, h⟩ := h
    cases h
    have hbeg := (copyIn_beg h₂).trans (copyIn_beg h₁)
    exact hbeg
  · simp only [Option.bind_eq_bind, Option.bind_eq_some_iff] at h
    obtain ⟨f₁, h₁, h⟩ := h
    cases h
    have hbeg := copyIn_beg h₁
    exact hbeg

/-- A full ring of a larger size counts itself wrongly: the sum of its size and its last index
is no int. -/
theorem not_refines {f : RawFifo} {q : List UInt8} (hsize : 0x40000000 < f.size)
    (hmax : f.size ≤ intMax) (hbeg : f.beg = 0) (hfull : (q.length : Int) = f.size - 1) :
    ¬ Refines f q := by
  intro h
  have hmax' : intMax = 0x7fffffff := rfl
  obtain ⟨hs, hs'⟩ := h.stop
  have hstop : f.stop = f.size - 1 := by
    have hlen := congrArg List.length h.contents
    rw [RawFifo.contents, List.length_map, List.length_range, hbeg, Int.sub_zero,
      Int.emod_eq_of_lt hs hs'] at hlen
    omega
  have hcount := h.count
  have hwrap : wrapInt (f.size + f.stop - f.beg) = 2 * f.size - 1 - 0x100000000 := by
    rw [hstop, hbeg, wrapInt, Int.bmod_def]
    split <;> omega
  have hneg : (wrapInt (f.size + f.stop - f.beg)).tmod f.size ≤ 0 := by
    have hpos := Int.tmod_nonneg f.size (show 0 ≤ 0x100000000 + 1 - 2 * f.size by omega)
    have hopp : wrapInt (f.size + f.stop - f.beg) = -(0x100000000 + 1 - 2 * f.size) := by
      rw [hwrap]
      omega
    rw [hopp, Int.neg_tmod]
    omega
  rw [RawFifo.count] at hcount
  omega

theorem not_boundedQueues {size : ι → Int} {i : ι} (hsize : 0x40000000 < size i)
    (hmax : size i ≤ intMax) : ¬ BoundedQueues size := by
  intro h
  let buf : List UInt8 := List.replicate (size i - 1).toNat 0
  have hlen : buf.length = (size i - 1).toNat := List.length_replicate
  have hq : queueStep (fun i => (size i - 1).toNat) (fun _ => []) (.append i buf) =
      some (.done, Function.update (fun _ => []) i buf) := by
    rw [queueStep, if_pos (by simp [hlen])]
    rfl
  obtain ⟨fs, hfs, href⟩ := h (fun _ _ => 0) [.append i buf] [.done]
    (Function.update (fun _ => []) i buf) (by rw [runOps, hq]; rfl)
  obtain ⟨hs, hr⟩ := href i
  have hbeg : (fs i).beg = 0 := by
    simp only [runOps, rawStep, Option.bind_eq_bind, Option.bind_eq_some_iff] at hfs
    obtain ⟨x, ⟨f, hf, hx⟩, y, hy, hfs⟩ := hfs
    cases hx
    cases hy
    cases hfs
    simp only [Function.update_self]
    exact unsafeAppend_beg hf
  rw [Function.update_self] at hr
  refine not_refines (by omega) (by omega) hbeg ?_ hr
  rw [hlen, hs]
  omega

theorem boundedQueues_of_room {size : ι → Int} (hsize : ∀ i, 1 ≤ size i) (hroom : ∀ i, size i ≤ 0x40000000) :
    BoundedQueues size := by
  intro mem ops answers qs hq
  obtain ⟨gs, hinit, hold⟩ := rawInit_hold hsize mem
  obtain ⟨gs', hraw, hold'⟩ := runOps_rawStep hroom hold hq
  rw [hinit]
  exact ⟨_, hraw, fun i => ⟨(hold' i).1, hold'.refines hroom i⟩⟩

/-- The fifos are bounded queues exactly as long as no size is more than half of what an int
can hold. -/
theorem boundedQueues_iff (size : ι → Int) (hsize : ∀ i, 1 ≤ size i ∧ size i ≤ intMax) :
    BoundedQueues size ↔ ∀ i, size i ≤ 0x40000000 := by
  constructor
  · intro h i
    by_contra hlt
    exact not_boundedQueues (by omega) (hsize i).2 h
  · exact boundedQueues_of_room fun i => (hsize i).1

end Queue

/-- The sizes of the program. -/
theorem boundedQueues_iff_8192 :
    BoundedQueues (fun _ : Bool => 8192) ∧ ∀ _ : Bool, (8192 : Int) ≤ 0x40000000 := by
  have h := boundedQueues_iff (fun _ : Bool => 8192) fun _ => ⟨by decide, by decide⟩
  exact ⟨h.mpr fun _ => by decide, fun _ => by decide⟩

/-- The largest size that an option can ask for. -/
theorem boundedQueues_overflow :
    ¬ ∀ size : Unit → Int, (∀ i, 1 ≤ size i ∧ size i ≤ intMax) → BoundedQueues size := by
  intro h
  have hall := h (fun _ => intMax) fun _ => ⟨by decide, Int.le_refl _⟩
  exact not_boundedQueues (i := ()) (by decide) (Int.le_refl _) hall

end Rzh
