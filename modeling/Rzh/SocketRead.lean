import Rzh.Kernel

/-!
# io_socket_read

What read() is going to do is listed, so a list that is long enough is every behaviour there is. A read that
does not fail leaves errno as it was: the loop looks at what some earlier call has left there.
-/
namespace Rzh

def Errno.code : Errno → Nat
  | eintr => 4
  | ebadf => 9
  | eagain => 11
  | epipe => 32
  | other n => n

namespace ReadRes

/-- The bytes that are taken from the descriptor when up to `cnt` are asked for. -/
def taken (cnt : Nat) : ReadRes → List UInt8
  | data b bs => (b :: bs).take cnt
  | eof => []
  | fail _ => []

def len (cnt : Nat) : ReadRes → Int
  | data b bs => ((b :: bs).take cnt).length
  | eof => 0
  | fail _ => -1

/-- errno behind a read. -/
def errno (old : Option Errno) : ReadRes → Option Errno
  | data _ _ => old
  | eof => old
  | fail e => some e

end ReadRes

/-- The loop has ended: the last length, the buffer and errno then, and the results left for later. -/
structure ReadLoop where
  len : Int
  buf : List UInt8
  errno : Option Errno
  rest : List ReadRes

/-- A call that has used up all results is still in the loop. -/
def readLoop (cnt : Nat) (buf : List UInt8) (errno : Option Errno) : List ReadRes → Option ReadLoop
  | [] => none
  | r :: rs =>
    let buf := r.taken cnt ++ buf.drop (r.taken cnt).length
    let errno := r.errno errno
    if errno = some .eintr then readLoop cnt buf errno rs else some ⟨r.len cnt, buf, errno, rs⟩

/-- The return value, `*readlen`, and what is left behind. -/
structure SocketRead where
  ret : Int
  readlen : Nat
  buf : List UInt8
  errno : Option Errno
  rest : List ReadRes

/-- What follows the loop. -/
def ReadLoop.answer (l : ReadLoop) : SocketRead :=
  if 0 < l.len then ⟨0, l.len.toNat, l.buf, l.errno, l.rest⟩
  -- the remote has closed the connection
  else if l.len = 0 then ⟨-Errno.epipe.code, 0, l.buf, l.errno, l.rest⟩
  -- EWOULDBLOCK is the same number
  else if l.errno = some .eagain then ⟨0, 0, l.buf, l.errno, l.rest⟩
  else
    let errno := l.errno.elim 0 Errno.code
    ⟨if errno ≠ 0 then errno else -1, 0, l.buf, l.errno, l.rest⟩

def ioSocketRead (cnt : Nat) (buf : List UInt8) (errno : Option Errno) (results : List ReadRes) :
    Option SocketRead :=
  (readLoop cnt buf errno results).map ReadLoop.answer

/-- Everything that a call takes it hands over, and it reads again only behind a read that has failed with
EINTR; as long as it has not returned, that is all it has seen. -/
def HandsAll (cnt : Nat) (buf : List UInt8) (errno : Option Errno) (results : List ReadRes) : Prop :=
  (ioSocketRead cnt buf errno results = none → ∀ r ∈ results, r = .fail .eintr) ∧
    ∀ o, ioSocketRead cnt buf errno results = some o → ∃ used, results = used ++ o.rest ∧
      (∀ r ∈ used.dropLast, r = .fail .eintr) ∧ o.buf.take o.readlen = used.flatMap (ReadRes.taken cnt) ∧
      (o.readlen ≠ 0 → o.ret = 0)

/-- If the first read that is not interrupted succeeds, it is the very first, and errno is not EINTR
already. -/
def FirstFresh (errno : Option Errno) (results : List ReadRes) : Prop :=
  ∀ front r rest, results = front ++ r :: rest → (∀ x ∈ front, x = .fail .eintr) → (∀ e, r ≠ .fail e) →
    front = [] ∧ errno ≠ some .eintr

section Reads

variable {cnt : Nat} {buf : List UInt8} {errno : Option Errno} {results front rest : List ReadRes} {r : ReadRes}
  {l : ReadLoop}

theorem readLoop_again (h : r.errno errno = some .eintr) :
    ∃ buf', readLoop cnt buf errno (r :: rest) = readLoop cnt buf' (some .eintr) rest := by
  rw [readLoop]
  simp only [h, if_true]
  exact ⟨_, rfl⟩

theorem readLoop_stops (h : r.errno errno ≠ some .eintr) :
    ∃ l, readLoop cnt buf errno (r :: rest) = some l ∧ l.rest = rest ∧ l.len = r.len cnt ∧
      l.buf = r.taken cnt ++ buf.drop (r.taken cnt).length := by
  rw [readLoop]
  simp only [if_neg h]
  exact ⟨_, rfl, rfl, rfl, rfl⟩

/-- Interrupted reads leave nothing but errno behind. -/
theorem readLoop_interrupted (h : ∀ x ∈ front, x = .fail .eintr) (results : List ReadRes) :
    readLoop cnt buf errno (front ++ results) =
      readLoop cnt buf (if front = [] then errno else some .eintr) results := by
  induction front generalizing errno with
  | nil => rfl
  | cons x front ih =>
    obtain rfl := h x List.mem_cons_self
    have hfront : readLoop cnt buf (some .eintr) (front ++ results) = _ :=
      ih fun y hy => h y (List.mem_cons_of_mem _ hy)
    rw [ite_self] at hfront
    rw [if_neg (List.cons_ne_nil _ _)]
    exact hfront

/-- A loop that ends has used a result. -/
theorem readLoop_rest (h : readLoop cnt buf errno results = some l) :
    ∃ front r, results = front ++ r :: l.rest := by
  induction results generalizing buf errno with
  | nil => cases h
  | cons r rs ih =>
    by_cases hagain : r.errno errno = some .eintr
    · obtain ⟨buf', hloop⟩ : ∃ buf', readLoop cnt buf errno (r :: rs) = readLoop cnt buf' _ rs :=
        readLoop_again hagain
      rw [hloop] at h
      obtain ⟨front, r', hrs⟩ := ih h
      exact ⟨r :: front, r', congrArg (r :: ·) hrs⟩
    · obtain ⟨l', hloop, hrest, -⟩ : ∃ l', readLoop cnt buf errno (r :: rs) = some l' ∧ l'.rest = rs ∧ _ :=
        readLoop_stops hagain
      rw [hloop] at h
      cases h
      exact ⟨[], r, congrArg (r :: ·) hrest.symm⟩

@[simp] theorem answer_rest (l : ReadLoop) : l.answer.rest = l.rest := by
  rw [ReadLoop.answer]
  split <;> [rfl; split <;> [rfl; split <;> rfl]]

theorem take_taken (cnt : Nat) (r : ReadRes) (buf : List UInt8) :
    (r.taken cnt ++ buf.drop (r.taken cnt).length).take (r.len cnt).toNat = r.taken cnt := by
  cases r with
  | data b bs => exact List.take_left' rfl
  | eof => rfl
  | fail e => rfl

/-- The bytes of the last read are handed over. -/
theorem answer_taken (h : l.len = r.len cnt) (hbuf : l.buf = r.taken cnt ++ buf.drop (r.taken cnt).length) :
    l.answer.buf.take l.answer.readlen = r.taken cnt ∧ (l.answer.readlen ≠ 0 → l.answer.ret = 0) := by
  have htake := take_taken cnt r buf
  rw [← h, ← hbuf] at htake
  rw [ReadLoop.answer]
  by_cases hlen : 0 < l.len
  · rw [if_pos hlen]
    exact ⟨htake, fun _ => rfl⟩
  · have hnone : r.taken cnt = [] := by
      rw [← htake, Int.toNat_of_nonpos (Int.not_lt.mp hlen)]
      rfl
    rw [if_neg hlen, hnone]
    split
    · exact ⟨rfl, fun hne => absurd rfl hne⟩
    · split
      · exact ⟨rfl, fun hne => absurd rfl hne⟩
      · exact ⟨rfl, fun hne => absurd rfl hne⟩

/-- The results begin with interrupted reads, and then there is another one, or none. -/
theorem interrupted_split (results : List ReadRes) :
    (∀ r ∈ results, r = .fail .eintr) ∨
      ∃ front r rest, results = front ++ r :: rest ∧ (∀ x ∈ front, x = .fail .eintr) ∧ r ≠ .fail .eintr := by
  induction results with
  | nil => exact .inl nofun
  | cons x results ih =>
    by_cases hx : x = .fail .eintr
    · obtain hall | ⟨front, r, rest, rfl, hfront, hr⟩ := ih
      · exact .inl (List.forall_mem_cons.mpr ⟨hx, hall⟩)
      · exact .inr ⟨x :: front, r, rest, rfl, List.forall_mem_cons.mpr ⟨hx, hfront⟩, hr⟩
    · exact .inr ⟨[], x, results, rfl, nofun, hx⟩

theorem interrupted_taken (h : ∀ x ∈ front, x = .fail .eintr) : front.flatMap (ReadRes.taken cnt) = [] := by
  apply List.flatMap_eq_nil_iff.mpr
  intro x hx
  rw [h x hx]
  rfl

theorem handsAll_of_interrupted (h : ∀ r ∈ results, r = .fail .eintr) : HandsAll cnt buf errno results := by
  have hloop : readLoop cnt buf errno (results ++ []) = _ := readLoop_interrupted h []
  rw [List.append_nil, readLoop] at hloop
  rw [HandsAll, ioSocketRead, hloop]
  exact ⟨fun _ => h, nofun⟩

/-- Behind interrupted reads one that ends the loop is all that is handed over. -/
theorem handsAll_of_stop (hfront : ∀ x ∈ front, x = .fail .eintr)
    (hstop : r.errno (if front = [] then errno else some .eintr) ≠ some .eintr) :
    HandsAll cnt buf errno (front ++ r :: rest) := by
  have hloop : readLoop cnt buf errno (front ++ r :: rest) = _ := readLoop_interrupted hfront (r :: rest)
  obtain ⟨l, hl, hrest, hlen, hbuf⟩ : ∃ l, readLoop cnt buf _ (r :: rest) = some l ∧ l.rest = rest ∧ _ :=
    readLoop_stops hstop
  obtain ⟨htaken, hret⟩ := answer_taken hlen hbuf
  rw [hl] at hloop
  rw [HandsAll, ioSocketRead, hloop, Option.map_some]
  refine ⟨nofun, ?_⟩
  intro o ho
  obtain rfl := Option.some.inj ho
  refine ⟨front ++ [r], ?_, ?_, ?_, hret⟩
  · rw [answer_rest, hrest, List.append_assoc]
    rfl
  · rw [List.dropLast_concat]
    exact hfront
  · rw [htaken, List.flatMap_append, interrupted_taken hfront]
    simp

/-- A read that does not fail is repeated if errno is EINTR. -/
theorem not_handsAll (hr : ∀ e, r ≠ .fail e) (hfront : ∀ x ∈ front, x = .fail .eintr)
    (hold : front ≠ [] ∨ errno = some .eintr) : ¬ HandsAll cnt buf errno (front ++ r :: rest) := by
  rintro ⟨hgoing, hdone⟩
  have hnot : r ≠ .fail .eintr := hr .eintr
  have hold : (if front = [] then errno else some .eintr) = some .eintr := by
    obtain hne | rfl := hold
    · exact if_neg hne
    · exact ite_self _
  have hagain : r.errno (some .eintr) = some .eintr := by
    cases r with
    | fail e => exact absurd rfl (hr e)
    | data b bs => rfl
    | eof => rfl
  have hloop : readLoop cnt buf errno (front ++ r :: rest) = _ := readLoop_interrupted hfront (r :: rest)
  obtain ⟨buf', hrest⟩ : ∃ buf', readLoop cnt buf (some .eintr) (r :: rest) = readLoop cnt buf' _ rest :=
    readLoop_again hagain
  rw [hold, hrest] at hloop
  rw [ioSocketRead, hloop] at hgoing hdone
  cases hend : readLoop cnt buf' (some .eintr) rest with
  | none =>
    rw [hend] at hgoing
    exact hnot (hgoing rfl r (List.mem_append_right front List.mem_cons_self))
  | some l =>
    rw [hend] at hdone
    obtain ⟨used, hused, hretried, -⟩ := hdone l.answer rfl
    obtain ⟨between, last, hbetween⟩ := readLoop_rest hend
    -- the read is followed by another one
    have hall : used = front ++ r :: between ++ [last] := by
      rw [answer_rest, hbetween] at hused
      have hcut : used ++ l.rest = front ++ r :: between ++ [last] ++ l.rest := by simp [← hused]
      exact List.append_cancel_right hcut
    rw [hall, List.dropLast_concat] at hretried
    exact hnot (hretried r (List.mem_append_right front List.mem_cons_self))

end Reads

/-- For every errno on entry and all results the call hands over everything exactly as long as the first
read that is not interrupted finds errno clear of EINTR, or fails. -/
theorem ioSocketRead_handsAll_iff (cnt : Nat) (buf : List UInt8) (errno : Option Errno) (results : List ReadRes) :
    HandsAll cnt buf errno results ↔ FirstFresh errno results := by
  constructor
  · rintro h front r rest rfl hfront hr
    by_contra hnot
    refine not_handsAll hr hfront ?_ h
    by_cases hnil : front = []
    · exact .inr (by_contra fun hne => hnot ⟨hnil, hne⟩)
    · exact .inl hnil
  · intro h
    obtain hall | ⟨front, r, rest, rfl, hfront, hr⟩ := interrupted_split results
    · exact handsAll_of_interrupted hall
    · apply handsAll_of_stop hfront
      cases r with
      | fail e => exact fun he => hr (congrArg ReadRes.fail (Option.some.inj he))
      | data b bs =>
        obtain ⟨rfl, hclear⟩ := h front _ rest rfl hfront nofun
        exact hclear
      | eof =>
        obtain ⟨rfl, hclear⟩ := h front _ rest rfl hfront nofun
        exact hclear

/-- errno is EINTR on entry: the first read is lost. -/
theorem ioSocketRead_stale : ¬ HandsAll 4 [0, 0, 0, 0] (some .eintr) [.data 1 [2], .fail .eagain] := by
  rintro ⟨-, h⟩
  obtain ⟨used, hused, -, hbytes, -⟩ := h _ rfl
  have hall : used = [.data 1 [2], .fail .eagain] := by
    rw [← List.append_nil used]
    exact hused.symm
  rw [hall] at hbytes
  exact absurd hbytes (by decide)

end Rzh
