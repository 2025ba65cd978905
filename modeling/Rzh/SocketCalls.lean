import Rzh.Descriptors
import Rzh.IoSelect
import Rzh.Socket

/-!
# Sockets and their descriptors

io_socket.c opens a socket for an atom, registers it and closes it again. Any of the calls of the system on the
way may fail; what has been opened by then must not stay open.
-/
namespace Rzh

/-- An address of the system, with a port of 16 bits. -/
structure SockaddrIn where
  sinAddr : UInt32
  sinPort : UInt16
  deriving DecidableEq, Repr

/-- htons() takes what it needs of an int. -/
def SocketAddr.sockaddr (a : SocketAddr) : SockaddrIn := ⟨a.addr, a.port.toUInt32.toUInt16⟩

def SockaddrIn.socketAddr (a : SockaddrIn) : SocketAddr := ⟨a.sinAddr, Int32.ofNat a.sinPort.toNat⟩

structure OpenSocket where
  nonblock : Bool
  listening : Bool
  bound : Option SockaddrIn
  peer : Option SockaddrIn
  deriving DecidableEq, Repr

/-- The files of a process: those that it has besides, and its sockets. -/
inductive SocketFile (α : Type) where
  | given (x : α)
  | socket (s : OpenSocket)

/-- How the ways to make a socket nonblocking come out. -/
structure NonblockCalls where
  ioctl : Bool
  getfl : Bool
  setfl : Bool

/-- If the ioctl() fails the alternative is tried. -/
def setNonblock (c : NonblockCalls) : Bool := c.ioctl || (c.getfl && c.setfl)

structure ConnectCalls extends NonblockCalls where
  socket : Bool
  bind : Bool
  connect : Bool

structure ListenCalls extends NonblockCalls where
  socket : Bool
  bind : Bool
  listen : Bool

inductive AcceptRes where
  | eintr
  | fail
  | conn (pin : SockaddrIn)
  deriving DecidableEq, Repr

/-- The loop of accept(): it ends with a connection or with an error other than EINTR. -/
def acceptLoop : List AcceptRes → Option (Option SockaddrIn)
  | [] => none
  | .eintr :: results => acceptLoop results
  | .fail :: _ => some none
  | .conn pin :: _ => some (some pin)

structure IoAtom (P : Type) where
  fd : Int
  proc : Option P

/-- The program, as far as io_socket.c goes. -/
structure Sockets (α P : Type) where
  table : FdTable (SocketFile α)
  io : IoSelect
  atoms : AtomRef → IoAtom P

variable {α P : Type}

def freshSocket : OpenSocket := ⟨false, false, none, none⟩

def inaddrAny : SockaddrIn := ⟨0, 0⟩

def ioSocketConnectFd (c : ConnectCalls) (remote : SocketAddr) (t : FdTable (SocketFile α)) :
    Int × FdTable (SocketFile α) :=
  if !c.socket then (-1, t)
  else
    let fd := t.lowest
    let t := t.openFile (.socket freshSocket)
    if !c.bind then (-1, t.close fd)
    else if !c.connect then (-1, t.close fd)
    else if !setNonblock c.toNonblockCalls then (-1, t.close fd)
    else (fd, t.put (some (.socket ⟨true, false, some inaddrAny, some remote.sockaddr⟩)) fd)

namespace Sockets

variable (s : Sockets α P)

def setAtom (a : AtomRef) (x : IoAtom P) : Sockets α P := { s with atoms := Function.update s.atoms a x }

def close (fd : Int) : Sockets α P := if 0 ≤ fd then { s with table := s.table.close fd.toNat } else s

/-- The end of the calls: the atom is registered, or the descriptor is closed and, if it says so, forgotten. -/
def register (a : AtomRef) (proc : P) (flags : List Interest) (forget : Bool) : Int × Sockets α P :=
  let s := s.setAtom a { s.atoms a with proc := some proc }
  let fd := (s.atoms a).fd
  if (ioAdd s.io a fd flags).1 = none then (fd, { s with io := (ioAdd s.io a fd flags).2 })
  else
    let s := s.close fd
    (-1, if forget then s.setAtom a { s.atoms a with fd := -1 } else s)

end Sockets

def ioSocketConnect (c : ConnectCalls) (a : AtomRef) (proc : P) (remote : SocketAddr) (flags : List Interest)
    (s : Sockets α P) : Int × Sockets α P :=
  let opened := ioSocketConnectFd c remote s.table
  let s := { s with table := opened.2 }.setAtom a { s.atoms a with fd := opened.1 }
  if opened.1 < 0 then (-1, s) else s.register a proc flags true

/-- Which socket listens is for the kernel to know. The third result is what is stored for the caller who asks for
the remote address. -/
def ioSocketAccept (results : List AcceptRes) (c : NonblockCalls) (a : AtomRef) (proc : P) (flags : List Interest)
    (remote : Bool) (s : Sockets α P) : Option (Int × Sockets α P × Option SocketAddr) :=
  (acceptLoop results).map fun pin => pin.elim (-1, s.setAtom a { s.atoms a with fd := -1 }, none) fun pin =>
    let fd := s.table.lowest
    let s := { s with table := s.table.openFile (.socket { freshSocket with peer := some pin }) }
    let s := s.setAtom a { s.atoms a with fd := fd }
    if !setNonblock c then (-1, s.close fd, none)
    else
      let s := { s with table := s.table.put (some (.socket ⟨true, false, none, some pin⟩)) fd }
      let r := s.register a proc flags false
      (r.1, r.2, if 0 ≤ r.1 ∧ remote then some pin.socketAddr else none)

def ioSocketListen (c : ListenCalls) (a : AtomRef) (proc : P) (addr : SocketAddr) (s : Sockets α P) :
    Int × Sockets α P :=
  if !c.socket then (-1, s.setAtom a { s.atoms a with fd := -1 })
  else
    let fd := s.table.lowest
    let s := { s with table := s.table.openFile (.socket freshSocket) }.setAtom a { s.atoms a with fd := fd }
    if !setNonblock c.toNonblockCalls then (-1, s.close fd)
    else if !c.bind then (-1, s.close fd)
    else if !c.listen then (-1, s.close fd)
    else
      let s := { s with table := s.table.put (some (.socket ⟨true, true, some addr.sockaddr, none⟩)) fd }
      s.register a proc [.read] false

def ioSocketClose (a : AtomRef) (s : Sockets α P) : Sockets α P :=
  let fd := (s.atoms a).fd
  let s := { s with io := (ioDel s.io fd).2 }.close fd
  s.setAtom a { s.atoms a with fd := -1 }

inductive SocketCall (P : Type) where
  | connect (c : ConnectCalls) (a : AtomRef) (proc : P) (remote : SocketAddr) (flags : List Interest)
  | accept (results : List AcceptRes) (c : NonblockCalls) (a : AtomRef) (proc : P) (flags : List Interest)
    (remote : Bool)
  | listen (c : ListenCalls) (a : AtomRef) (proc : P) (addr : SocketAddr)
  | close (a : AtomRef)

namespace SocketCall

/-- The result is none where the call does not return one. -/
def run (s : Sockets α P) : SocketCall P → Option (Option Int × Sockets α P)
  | connect c a proc remote flags => some (some (ioSocketConnect c a proc remote flags s).1,
    (ioSocketConnect c a proc remote flags s).2)
  | accept results c a proc flags remote => (ioSocketAccept results c a proc flags remote s).map fun r =>
    (some r.1, r.2.1)
  | listen c a proc addr => some (some (ioSocketListen c a proc addr s).1, (ioSocketListen c a proc addr s).2)
  | close a => some (none, ioSocketClose a s)

def atom : SocketCall P → AtomRef
  | connect _ a _ _ _ => a
  | accept _ _ a _ _ _ => a
  | listen _ a _ _ => a
  | close a => a

/-- What the atom is watched for if the call succeeds. -/
def flags : SocketCall P → List Interest
  | connect _ _ _ _ flags => flags
  | accept _ _ _ _ flags _ => flags
  | listen _ _ _ _ => [.read]
  | close _ => []

/-- An atom is given to one call, and to io_socket_close before the next. -/
def Allowed (s : Sockets α P) (call : SocketCall P) : Prop :=
  (∃ n, s.io.connections n = some call.atom) ↔ call = .close call.atom

/-- io_add lets FD_SETSIZE pass and stores it behind the end of its arrays: no socket is to get that number. -/
def InRange (s : Sockets α P) (call : SocketCall P) : Prop :=
  call ≠ .close call.atom → (s.table.lowest : Int) ≠ fdSetsize

end SocketCall

/-- What comes of a call that opens a socket: nothing, or the lowest descriptor is a socket, nonblocking and
registered for the atom. -/
inductive OpensSocket (a : AtomRef) (flags : List Interest) (s : Sockets α P) : Int → Sockets α P → Prop where
  | fails {s' : Sockets α P} (hio : s'.io = s.io) (htable : ∀ n, s'.table.file n = s.table.file n)
    (hatoms : ∀ b, b ≠ a → s'.atoms b = s.atoms b) : OpensSocket a flags s (-1) s'
  | opens {s' : Sockets α P} {sock : OpenSocket} (hnonblock : sock.nonblock = true)
    (htable : ∀ n, s'.table.file n = if n = s.table.lowest then some (.socket sock) else s.table.file n)
    (hfd : (s'.atoms a).fd = s.table.lowest) (hatoms : ∀ b, b ≠ a → s'.atoms b = s.atoms b)
    (hregistered : s'.io.Registered a s.table.lowest)
    (hothers : ∀ n, n ≠ s.table.lowest → s'.io.connections n = s.io.connections n)
    (hwants : ∀ i, s'.io.wants i s.table.lowest = decide (i ∈ flags)) : OpensSocket a flags s s.table.lowest s'

/-- What comes of io_socket_close: the descriptor of the atom is free again, and nobody else's. -/
structure ClosesSocket (a : AtomRef) (n : Nat) (s s' : Sockets α P) : Prop where
  table : ∀ m, s'.table.file m = if m = n then none else s.table.file m
  connections : ∀ m, s'.io.connections m = if m = n then none else s.io.connections m
  fd : (s'.atoms a).fd = -1
  atoms : ∀ b, b ≠ a → s'.atoms b = s.atoms b

/-- The descriptors that are registered are open sockets, one for each atom, and all others are as at the start. -/
structure Balanced (t₀ : FdTable (SocketFile α)) (s : Sockets α P) : Prop where
  free : ∀ n, s.io.connections n = none → s.table.file n = t₀.file n
  taken : ∀ n a, s.io.connections n = some a → (s.atoms a).fd = n ∧ n < fdSetsize ∧ t₀.file n = none ∧
    ∃ sock, s.table.file n = some (.socket sock) ∧ sock.nonblock = true

/-- Any number of calls, however those to the system come out. -/
inductive SocketRun (t₀ : FdTable (SocketFile α)) : Sockets α P → Prop where
  | start (atoms : AtomRef → IoAtom P) : SocketRun t₀ ⟨t₀, ioInit, atoms⟩
  | next {s s' : Sockets α P} {r : Option Int} (run : SocketRun t₀ s) (call : SocketCall P)
    (hallowed : call.Allowed s) (hrange : call.InRange s) (h : call.run s = some (r, s')) : SocketRun t₀ s'

section Opens

variable {t t₀ : FdTable (SocketFile α)} {s s' : Sockets α P} {a : AtomRef} {flags : List Interest}
  {sock : OpenSocket}

theorem FdTable.file_open_close (t : FdTable α) (x : α) (n : Nat) :
    ((t.openFile x).close t.lowest).file n = t.file n := by
  rw [FdTable.file_close, FdTable.file_openFile]
  by_cases h : n = t.lowest
  · rw [if_pos h, h, FdTable.file_lowest]
  · rw [if_neg h, if_neg h]

theorem FdTable.file_open_put (t : FdTable α) (x y : α) (n : Nat) :
    ((t.openFile x).put (some y) t.lowest).file n = if n = t.lowest then some y else t.file n := by
  rw [FdTable.file_put, FdTable.file_openFile]
  by_cases h : n = t.lowest
  · rw [if_pos h, if_pos h]
  · rw [if_neg h, if_neg h, if_neg h]

/-- The socket that has been opened for an atom, which has not been registered. -/
structure Ready (a : AtomRef) (sock : OpenSocket) (s s₁ : Sockets α P) : Prop where
  io : s₁.io = s.io
  table : ∀ n, s₁.table.file n = if n = s.table.lowest then some (.socket sock) else s.table.file n
  fd : (s₁.atoms a).fd = s.table.lowest
  atoms : ∀ b, b ≠ a → s₁.atoms b = s.atoms b

variable {s₁ : Sockets α P}

theorem setAtom_self (s : Sockets α P) (a : AtomRef) (x : IoAtom P) : (s.setAtom a x).atoms a = x :=
  Function.update_self ..

theorem setAtom_other {b : AtomRef} (hb : b ≠ a) (s : Sockets α P) (x : IoAtom P) :
    (s.setAtom a x).atoms b = s.atoms b := Function.update_of_ne hb ..

theorem close_natCast (s : Sockets α P) (n : Nat) : s.close n = { s with table := s.table.close n } := by
  rw [Sockets.close, if_pos (Int.natCast_nonneg n), Int.toNat_natCast]

/-- Closed again it is as if there had been nothing. -/
theorem Ready.close (h : Ready a sock s s₁) (n : Nat) :
    (s₁.close s.table.lowest).table.file n = s.table.file n := by
  rw [close_natCast, FdTable.file_close]
  by_cases hn : n = s.table.lowest
  · rw [if_pos hn, hn, FdTable.file_lowest]
  · rw [if_neg hn, h.table, if_neg hn]

theorem Ready.fails (h : Ready a sock s s₁) : OpensSocket a flags s (-1) (s₁.close s.table.lowest) := by
  refine .fails ?_ h.close ?_
  · rw [close_natCast]
    exact h.io
  · rw [close_natCast]
    exact h.atoms

theorem OpensSocket.nothing (s : Sockets α P) : OpensSocket a flags s (-1) s :=
  .fails rfl (fun _ => rfl) fun _ _ => rfl

theorem OpensSocket.setAtom {s' : Sockets α P} (h : OpensSocket a flags s (-1) s') (x : IoAtom P) :
    OpensSocket a flags s (-1) (s'.setAtom a x) := by
  generalize hr : (-1 : Int) = r at h
  cases h with
  | fails hio htable hatoms =>
    exact .fails hio htable fun b hb => (setAtom_other hb s' x).trans (hatoms b hb)
  | opens => omega

theorem Ready.setProc (h : Ready a sock s s₁) (proc : P) :
    Ready a sock s (s₁.setAtom a { s₁.atoms a with proc := some proc }) where
  io := h.io
  table := h.table
  fd := by
    rw [setAtom_self]
    exact h.fd
  atoms b hb := (setAtom_other hb s₁ _).trans (h.atoms b hb)

/-- If it cannot be registered the descriptor is closed. -/
theorem Ready.register (h : Ready a sock s s₁) (hnonblock : sock.nonblock = true) (proc : P) (forget : Bool) :
    OpensSocket a flags s (s₁.register a proc flags forget).1 (s₁.register a proc flags forget).2 := by
  have hready := h.setProc proc
  rw [Sockets.register]
  generalize s₁.setAtom a { s₁.atoms a with proc := some proc } = s₂ at hready ⊢
  simp only [hready.fd]
  cases hadd : ioAdd s₂.io a s.table.lowest flags with
  | mk e io =>
    cases e with
    | none =>
      obtain ⟨-, hregistered, hothers, hwants⟩ := ioAdd_ok hadd
      rw [if_pos rfl]
      refine .opens hnonblock hready.table hready.fd hready.atoms hregistered (fun n hn => ?_) fun i => ?_
      · rw [← hready.io]
        exact hothers n hn
      · rw [hwants, if_pos rfl]
    | some e =>
      rw [if_neg (Option.some_ne_none e)]
      cases forget with
      | false => exact hready.fails
      | true => exact hready.fails.setAtom _

theorem ioSocketConnectFd_cases (c : ConnectCalls) (remote : SocketAddr) (t : FdTable (SocketFile α)) :
    (∃ t', ioSocketConnectFd c remote t = (-1, t') ∧ ∀ n, t'.file n = t.file n) ∨
      ∃ t' sock, ioSocketConnectFd c remote t = ((t.lowest : Int), t') ∧ sock.nonblock = true ∧
        ∀ n, t'.file n = if n = t.lowest then some (.socket sock) else t.file n := by
  have hclosed := FdTable.file_open_close t (.socket freshSocket)
  rw [ioSocketConnectFd]
  cases c.socket with
  | false => exact .inl ⟨t, rfl, fun _ => rfl⟩
  | true =>
    cases c.bind with
    | false => exact .inl ⟨_, rfl, hclosed⟩
    | true =>
      cases c.connect with
      | false => exact .inl ⟨_, rfl, hclosed⟩
      | true =>
        cases setNonblock c.toNonblockCalls with
        | false => exact .inl ⟨_, rfl, hclosed⟩
        | true => exact .inr ⟨_, _, rfl, rfl, FdTable.file_open_put t (.socket freshSocket) _⟩

/-- A socket of the table and its atom. -/
theorem ready_setAtom {t : FdTable (SocketFile α)}
    (htable : ∀ n, t.file n = if n = s.table.lowest then some (.socket sock) else s.table.file n) (proc : Option P) :
    Ready a sock s ({ s with table := t }.setAtom a ⟨s.table.lowest, proc⟩) where
  io := rfl
  table := htable
  fd := by rw [setAtom_self]
  atoms b hb := setAtom_other hb _ _

theorem Ready.put (h : Ready a sock s s₁) (sock' : OpenSocket) :
    Ready a sock' s { s₁ with table := s₁.table.put (some (.socket sock')) s.table.lowest } where
  io := h.io
  table n := by
    change (FdTable.put _ _ s₁.table).file n = _
    rw [FdTable.file_put]
    by_cases hn : n = s.table.lowest
    · rw [if_pos hn, if_pos hn]
    · rw [if_neg hn, if_neg hn, h.table, if_neg hn]
  fd := h.fd
  atoms := h.atoms

theorem ioSocketConnect_opens (c : ConnectCalls) (a : AtomRef) (proc : P) (remote : SocketAddr)
    (flags : List Interest) (s : Sockets α P) :
    OpensSocket a flags s (ioSocketConnect c a proc remote flags s).1
      (ioSocketConnect c a proc remote flags s).2 := by
  rw [ioSocketConnect]
  obtain ⟨t, hopened, htable⟩ | ⟨t, sock, hopened, hnonblock, htable⟩ := ioSocketConnectFd_cases c remote s.table
  · simp only [hopened]
    rw [if_pos (by decide)]
    exact (OpensSocket.fails rfl htable fun _ _ => rfl : OpensSocket a flags s (-1) { s with table := t }).setAtom _
  · simp only [hopened]
    rw [if_neg (by omega)]
    exact (ready_setAtom htable _).register hnonblock proc true

theorem ioSocketListen_opens (c : ListenCalls) (a : AtomRef) (proc : P) (addr : SocketAddr) (s : Sockets α P) :
    OpensSocket a [.read] s (ioSocketListen c a proc addr s).1 (ioSocketListen c a proc addr s).2 := by
  have hready : Ready a freshSocket s _ :=
    ready_setAtom (FdTable.file_openFile s.table (.socket freshSocket)) (s.atoms a).proc
  rw [ioSocketListen]
  cases c.socket with
  | false => exact (OpensSocket.nothing s).setAtom _
  | true =>
    cases setNonblock c.toNonblockCalls with
    | false => exact hready.fails
    | true =>
      cases c.bind with
      | false => exact hready.fails
      | true =>
        cases c.listen with
        | false => exact hready.fails
        | true => exact (hready.put _).register rfl proc false

theorem ioSocketAccept_opens {results : List AcceptRes} {c : NonblockCalls} {proc : P} {remote : Bool} {r : Int}
    {out : Option SocketAddr} (h : ioSocketAccept results c a proc flags remote s = some (r, s', out)) :
    OpensSocket a flags s r s' := by
  obtain ⟨pin, -, h⟩ := Option.map_eq_some_iff.mp h
  cases pin with
  | none =>
    cases h
    exact (OpensSocket.nothing s).setAtom _
  | some pin =>
    have hready : Ready a { freshSocket with peer := some pin } s _ :=
      ready_setAtom (FdTable.file_openFile s.table (.socket { freshSocket with peer := some pin })) (s.atoms a).proc
    rw [Option.elim_some] at h
    cases hset : setNonblock c with
    | false =>
      rw [hset] at h
      cases h
      exact hready.fails
    | true =>
      rw [hset] at h
      cases h
      exact (hready.put _).register rfl proc false

end Opens

section Run

variable {t₀ : FdTable (SocketFile α)} {s s' : Sockets α P} {a : AtomRef} {flags : List Interest} {r : Int}

theorem Balanced.opens (hs : Balanced t₀ s) (ha : ∀ n, s.io.connections n ≠ some a)
    (hrange : (s.table.lowest : Int) ≠ fdSetsize) (h : OpensSocket a flags s r s') : Balanced t₀ s' := by
  cases h with
  | fails hio htable hatoms =>
    constructor
    · intro n hn
      rw [htable]
      exact hs.free n (by rwa [← hio])
    · intro n b hb
      rw [hio] at hb
      have hne : b ≠ a := by
        rintro rfl
        exact ha n hb
      rw [htable, hatoms b hne]
      exact hs.taken n b hb
  | @opens s' sock hnonblock htable hfd hatoms hregistered hothers hwants =>
    have hconnected : s'.io.connections s.table.lowest = some a := hregistered.connected
    -- what is free for the kernel is free for io_add
    have hunused : s.io.connections s.table.lowest = none := by
      cases hb : s.io.connections s.table.lowest with
      | none => rfl
      | some b =>
        obtain ⟨-, -, -, sock', hopen, -⟩ := hs.taken _ b hb
        rw [FdTable.file_lowest] at hopen
        cases hopen
    constructor
    · intro n hn
      have hne : n ≠ s.table.lowest := by
        rintro rfl
        rw [hconnected] at hn
        cases hn
      rw [htable, if_neg hne]
      exact hs.free n (by rwa [← hothers n hne])
    · intro n b hb
      by_cases hn : n = s.table.lowest
      · subst hn
        obtain rfl := Option.some.inj (hconnected.symm.trans hb)
        refine ⟨hfd, Int.lt_iff_le_and_ne.mpr ⟨hregistered.le, hrange⟩, ?_, sock, ?_, hnonblock⟩
        · rw [← hs.free _ hunused, FdTable.file_lowest]
        · rw [htable, if_pos rfl]
      · rw [hothers n hn] at hb
        have hne : b ≠ a := by
          rintro rfl
          exact ha n hb
        rw [htable, if_neg hn, hatoms b hne]
        exact hs.taken n b hb

theorem Balanced.close {n : Nat} (hs : Balanced t₀ s) (ha : s.io.connections n = some a) :
    ClosesSocket a n s (ioSocketClose a s) := by
  obtain ⟨hfd, hle, -⟩ := hs.taken n a ha
  have hregistered : s.io.Registered a n := ⟨Int.natCast_nonneg n, Int.le_of_lt hle, ha⟩
  have hclose : ioSocketClose a s = Sockets.setAtom { s with
      table := s.table.close n
      io := (ioDel s.io n).2 } a { s.atoms a with fd := -1 } := by
    rw [ioSocketClose, hfd, close_natCast]
  rw [hclose]
  exact ⟨FdTable.file_close s.table n, ioDel_connections hregistered, by rw [setAtom_self],
    fun b hb => setAtom_other hb _ _⟩

theorem Balanced.closes {n : Nat} (hs : Balanced t₀ s) (ha : s.io.connections n = some a)
    (h : ClosesSocket a n s s') : Balanced t₀ s' := by
  obtain ⟨hfd, -, hgiven, -⟩ := hs.taken n a ha
  constructor
  · intro m hm
    rw [h.table]
    rw [h.connections] at hm
    by_cases hmn : m = n
    · rw [if_pos hmn, hmn, hgiven]
    · rw [if_neg hmn] at hm ⊢
      exact hs.free m hm
  · intro m b hb
    rw [h.connections] at hb
    by_cases hmn : m = n
    · rw [if_pos hmn] at hb
      cases hb
    · rw [if_neg hmn] at hb
      have hne : b ≠ a := by
        rintro rfl
        have hm := (hs.taken m b hb).1
        rw [hfd] at hm
        omega
      rw [h.table, if_neg hmn, h.atoms b hne]
      exact hs.taken m b hb

/-- A call opens a socket for an atom that has none, or closes that of one that has. -/
theorem Balanced.call {call : SocketCall P} {result : Option Int} (hs : Balanced t₀ s) (hallowed : call.Allowed s)
    (h : call.run s = some (result, s')) :
    (∃ r, result = some r ∧ call ≠ .close call.atom ∧ (∀ n, s.io.connections n ≠ some call.atom) ∧
        OpensSocket call.atom call.flags s r s') ∨
      result = none ∧ ∃ n, s.io.connections n = some call.atom ∧ ClosesSocket call.atom n s s' := by
  have hunused : call ≠ .close call.atom → ∀ n, s.io.connections n ≠ some call.atom :=
    fun hne n hn => hne (hallowed.mp ⟨n, hn⟩)
  cases call with
  | connect c a proc remote flags =>
    cases h
    exact .inl ⟨_, rfl, by simp, hunused (by simp), ioSocketConnect_opens c a proc remote flags s⟩
  | accept results c a proc flags remote =>
    obtain ⟨⟨r, s₁, out⟩, haccept, h⟩ := Option.map_eq_some_iff.mp h
    cases h
    exact .inl ⟨r, rfl, by simp, hunused (by simp), ioSocketAccept_opens haccept⟩
  | listen c a proc addr =>
    cases h
    exact .inl ⟨_, rfl, by simp, hunused (by simp), ioSocketListen_opens c a proc addr s⟩
  | close a =>
    cases h
    obtain ⟨n, hn⟩ := hallowed.mpr rfl
    exact .inr ⟨rfl, n, hn, hs.close hn⟩

theorem socketRun_kept (run : SocketRun t₀ s) : Balanced t₀ s := by
  induction run with
  | start atoms =>
    constructor
    · intro n _
      rfl
    · intro n a ha
      cases ha
  | next run call hallowed hrange h ih =>
    obtain ⟨r, -, hne, hunused, hopens⟩ | ⟨-, n, hn, hcloses⟩ := ih.call hallowed h
    · exact ih.opens hunused (hrange hne) hopens
    · exact ih.closes hn hcloses

end Run

end Rzh
