import Mathlib.Data.List.Basic

/-!
# The operating system under rzh

Every result of read(), write() and fork() that a stretch of the program is
going to see is listed in advance, so a statement about all such lists is a
statement about every behaviour of the kernel. What the program has done to its
descriptors is kept in a trace that no code reads.
-/
namespace Rzh

/-- The values of errno that the code tells apart. -/
inductive Errno where
  | eintr | eagain | epipe | ebadf
  | other (n : Nat)
  deriving DecidableEq, Repr

/-- A read() hands over some bytes, finds the end of the file, or fails. -/
inductive ReadRes where
  | data (b : UInt8) (bs : List UInt8)
  | eof
  | fail (e : Errno)
  deriving DecidableEq, Repr

/-- A write() accepts up to `k` bytes or fails. -/
inductive WriteRes where
  | accept (k : Nat)
  | fail (e : Errno)
  deriving DecidableEq, Repr

/-- The two ends of each of the three pipes to a child, and its pid, or the code that is
bailed with. -/
inductive ForkRes where
  | child (chstdin chstdout chstderr : Nat × Nat) (pid : Nat)
  | fail (val : Nat)
  deriving DecidableEq, Repr

/-- What has been done: bytes taken and bytes accepted, by descriptor, closes and
kills, and the moment at which a start proc was invoked. -/
inductive Call where
  | read (fd : Int) (bytes : List UInt8)
  | write (fd : Int) (bytes : List UInt8)
  | close (fd : Int)
  | kill (pid : Int)
  | startProc
  deriving DecidableEq, Repr

structure Kernel where
  reads : List ReadRes
  writes : List WriteRes
  forks : List ForkRes
  errno : Option Errno
  trace : List Call
  deriving DecidableEq, Repr

/-- The way a run ends before its time: longjmp through bail, a failed assertion, or a
pointer that is NULL or points to something else than it should. -/
inductive Halt where
  | bail (val : Nat)
  | abort
  | segv
  deriving DecidableEq, Repr

/-- `do { errno = 0; n = read(..) } while(n == -1 && errno == EINTR)`: the result
that ends the loop, and the results left for later. -/
def retryRead : List ReadRes → ReadRes × List ReadRes
  | [] => (.fail .eagain, [])
  | .fail .eintr :: rs => retryRead rs
  | r :: rs => (r, rs)

def retryWrite : List WriteRes → WriteRes × List WriteRes
  | [] => (.fail .eagain, [])
  | .fail .eintr :: rs => retryWrite rs
  | r :: rs => (r, rs)

namespace Kernel

def log (k : Kernel) (c : Call) : Kernel := { k with trace := k.trace ++ [c] }

/-- `none` is the return value -1; `some []` is the return value 0. -/
def read (k : Kernel) (fd : Int) (cnt : Nat) : Option (List UInt8) × Kernel :=
  if fd < 0 then (none, { k with errno := some .ebadf })
  else
    match retryRead k.reads with
    | (.fail e, rs) => (none, { k with reads := rs, errno := some e })
    | (.eof, rs) => (some [], { k with reads := rs, errno := none }.log (.read fd []))
    | (.data b bs, rs) =>
      let bs := (b :: bs).take cnt
      (some bs, { k with reads := rs, errno := none }.log (.read fd bs))

/-- The count that write() returns never exceeds what it was offered. -/
def write (k : Kernel) (fd : Int) (buf : List UInt8) : Option Nat × Kernel :=
  if fd < 0 then (none, { k with errno := some .ebadf })
  else
    match retryWrite k.writes with
    | (.fail e, ws) => (none, { k with writes := ws, errno := some e })
    | (.accept n, ws) =>
      let n := min n buf.length
      (some n, { k with writes := ws, errno := none }.log (.write fd (buf.take n)))

def close (k : Kernel) (fd : Int) : Kernel := k.log (.close fd)

end Kernel

/-- The bytes accepted by a descriptor, in order. -/
def written (fd : Int) (trace : List Call) : List UInt8 :=
  trace.flatMap fun
    | .write fd' bs => if fd' = fd then bs else []
    | _ => []

/-- The descriptor that each byte accepted has gone to, in order. -/
def receivers (trace : List Call) : List Int :=
  trace.flatMap fun
    | .write fd bytes => List.replicate bytes.length fd
    | _ => []

/-- The number of bytes that have been accepted, by whatever descriptor. -/
def acceptedBytes (trace : List Call) : Nat := (receivers trace).length

/-- The descriptors that have been closed, in order. -/
def closings (trace : List Call) : List Int :=
  trace.flatMap fun
    | .close fd => [fd]
    | _ => []

@[simp] theorem receivers_append (t t' : List Call) : receivers (t ++ t') = receivers t ++ receivers t' := by
  simp [receivers]

@[simp] theorem closings_append (t t' : List Call) : closings (t ++ t') = closings t ++ closings t' := by
  simp [closings]

@[simp] theorem written_append (fd : Int) (t t' : List Call) :
    written fd (t ++ t') = written fd t ++ written fd t' := by simp [written]

/-- Between two kernel states nothing has happened but that a descriptor has
accepted `bytes`, in any number of writes. What is closed accepts nothing. -/
structure Sent (fd : Int) (bytes : List UInt8) (k k' : Kernel) : Prop where
  reads : k'.reads = k.reads
  forks : k'.forks = k.forks
  closed : fd < 0 → bytes = []
  trace : ∃ chunks : List (List UInt8),
    chunks.flatten = bytes ∧ k'.trace = k.trace ++ chunks.map (Call.write fd)

namespace Sent

variable {fd : Int} {bs cs : List UInt8} {k k' k'' : Kernel}

theorem refl (fd : Int) (k : Kernel) : Sent fd [] k k :=
  ⟨rfl, rfl, fun _ => rfl, [], by simp⟩

theorem trans (h : Sent fd bs k k') (h' : Sent fd cs k' k'') : Sent fd (bs ++ cs) k k'' := by
  obtain ⟨chunks, hb, ht⟩ := h.trace
  obtain ⟨chunks', hc, ht'⟩ := h'.trace
  refine ⟨h'.reads.trans h.reads, h'.forks.trans h.forks, ?_, chunks ++ chunks', ?_, ?_⟩
  · intro hfd
    rw [h.closed hfd, h'.closed hfd, List.append_nil]
  · rw [List.flatten_append, hb, hc]
  · rw [ht', ht, List.map_append, List.append_assoc]

theorem written_chunks (fd fd' : Int) (chunks : List (List UInt8)) :
    written fd' (chunks.map (Call.write fd)) = if fd = fd' then chunks.flatten else [] := by
  induction chunks with
  | nil => simp [written]
  | cons c cs ih =>
    simp only [List.map_cons, written, List.flatMap_cons] at ih ⊢
    rw [ih]
    split <;> simp

theorem receivers_chunks (fd : Int) (chunks : List (List UInt8)) :
    receivers (chunks.map (Call.write fd)) = List.replicate chunks.flatten.length fd := by
  induction chunks with
  | nil => rfl
  | cons c cs ih =>
    rw [List.flatten_cons, List.length_append, ← List.replicate_append_replicate, ← ih]
    rfl

theorem closings_chunks (fd : Int) (chunks : List (List UInt8)) :
    closings (chunks.map (Call.write fd)) = [] := by
  induction chunks with
  | nil => rfl
  | cons c cs ih => exact ih

theorem written (h : Sent fd bs k k') : written fd k'.trace = written fd k.trace ++ bs := by
  obtain ⟨chunks, hb, ht⟩ := h.trace
  rw [ht, written_append, written_chunks, if_pos rfl, hb]

theorem written_other (h : Sent fd bs k k') {fd' : Int} (hne : fd ≠ fd') :
    Rzh.written fd' k'.trace = Rzh.written fd' k.trace := by
  obtain ⟨chunks, -, ht⟩ := h.trace
  rw [ht, written_append, written_chunks, if_neg hne, List.append_nil]

end Sent

/-- A descriptor that may have been closed since accepts what is sent to it, if anything is. -/
theorem Sent.accepted {fd fd₀ : Int} {bytes : List UInt8} {k k' : Kernel} (hs : Sent fd bytes k k')
    (hfd : fd = fd₀ ∨ fd = -1) :
    Rzh.written fd₀ k'.trace = Rzh.written fd₀ k.trace ++ bytes := by
  obtain rfl | rfl := hfd
  · exact hs.written
  · have hnil : bytes = [] := hs.closed (by decide)
    subst hnil
    by_cases he : (-1 : Int) = fd₀
    · rw [← he]
      exact hs.written
    · rw [List.append_nil]
      exact hs.written_other he

theorem Sent.silent {fd fd₀ fd' : Int} {bytes : List UInt8} {k k' : Kernel} (hs : Sent fd bytes k k')
    (hfd : fd = fd₀ ∨ fd = -1) (hne : fd' ≠ fd₀) :
    Rzh.written fd' k'.trace = Rzh.written fd' k.trace := by
  obtain rfl | rfl := hfd
  · exact hs.written_other hne.symm
  · have hw : Rzh.written fd' k'.trace = Rzh.written fd' k.trace ++ bytes := hs.accepted (.inr rfl)
    rw [hw, hs.closed (by decide), List.append_nil]

/-- What one retried write() does: it fails and moves nothing, or its return
value counts the bytes that the descriptor has accepted. -/
theorem Kernel.write_cases (k : Kernel) (fd : Int) (buf : List UInt8) :
    (∃ k', k.write fd buf = (none, k') ∧ Sent fd [] k k') ∨
    (∃ n k', k.write fd buf = (some n, k') ∧ n ≤ buf.length ∧ Sent fd (buf.take n) k k') := by
  unfold Kernel.write
  split
  · exact .inl ⟨_, rfl, rfl, rfl, fun _ => rfl, [], by simp⟩
  · next hfd =>
    split
    · exact .inl ⟨_, rfl, rfl, rfl, fun _ => rfl, [], by simp⟩
    · next n ws _ =>
      refine .inr ⟨_, _, rfl, Nat.min_le_right .., rfl, rfl, fun h => absurd h hfd,
        [buf.take (min n buf.length)], ?_⟩
      simp [Kernel.log]

/-- A read() brings no more than was asked for. -/
theorem Kernel.read_length (k : Kernel) (fd : Int) (cnt : Nat) :
    ((k.read fd cnt).1.getD []).length ≤ cnt := by
  rw [Kernel.read]
  split
  · exact Nat.zero_le _
  · split
    · exact Nat.zero_le _
    · exact Nat.zero_le _
    · exact List.length_take_le _ _

theorem Kernel.read_writes (k : Kernel) (fd : Int) (cnt : Nat) : (k.read fd cnt).2.writes = k.writes := by
  rw [Kernel.read]
  split
  · rfl
  · split <;> rfl

theorem Kernel.read_forks (k : Kernel) (fd : Int) (cnt : Nat) : (k.read fd cnt).2.forks = k.forks := by
  rw [Kernel.read]
  split
  · rfl
  · split <;> rfl

@[simp] theorem Kernel.written_close (k : Kernel) (fd fd' : Int) :
    written fd' (k.close fd).trace = written fd' k.trace := by
  simp [Kernel.close, Kernel.log, written]

theorem Kernel.written_read (k : Kernel) (fd : Int) (cnt : Nat) (fd' : Int) :
    written fd' (k.read fd cnt).2.trace = written fd' k.trace := by
  rw [Kernel.read]
  split
  · rfl
  · split
    · rfl
    · simp [Kernel.log, written]
    · simp [Kernel.log, written]

end Rzh
