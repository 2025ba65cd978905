import Rzh.CString

/-!
# Strings in io_socket.c

A string is read as an int, or as an address and a port. What gethostbyname finds is a parameter, and so
is what the variable `i` holds before something is stored in it.
-/
namespace Rzh

/-- The values of h_errno that the code tells apart. -/
inductive HErrno where
  | hostNotFound | noAddress | noData
  | other (n : Nat)
  deriving DecidableEq, Repr

abbrev Gethostbyname := List UInt8 → Except HErrno UInt32

structure SocketAddr where
  addr : UInt32
  port : Int32
  deriving DecidableEq, Repr

inductive SpecError where
  | tooLong
  | hostNotFound
  | noAddress
  | resolving
  | invalidPort
  deriving DecidableEq, Repr

/-- Whether the conversion was successful, and what is then in `*num`. -/
def ioSafeAtoi (str : List UInt8) (num : Int32) : Bool × Int32 :=
  -- strtol would parse a blank string as 0
  if str = [] then (false, num)
  else
    let converted := strtol str
    let num := Int32.ofInt converted.value
    if converted.erange then (false, num)
    else if converted.remainder ≠ [] then (false, num)
    else (true, num)

def HErrno.error : HErrno → SpecError
  | hostNotFound => .hostNotFound
  | noAddress => .noAddress
  | noData => .noAddress
  | other _ => .resolving

/-- The part of io_socket_parse that has the address in `buf`. -/
def parseAddr (gethostbyname : Gethostbyname) (buf : List UInt8) (sock : SocketAddr) :
    Except SpecError SocketAddr :=
  if buf = [] then .ok sock
  else ((gethostbyname buf).map fun addr => { sock with addr := addr }).mapError HErrno.error

/-- The part that has the port in `spec`. -/
def parsePort (spec : Option (List UInt8)) (i : Int32) (sock : SocketAddr) : Option SpecError × SocketAddr :=
  spec.elim (none, sock) fun port =>
    if port = [] then (none, sock)
    else if (ioSafeAtoi port i).1 then (none, { sock with port := (ioSafeAtoi port i).2 })
    else (some .invalidPort, sock)

/-- What io_socket_parse does once `buf` and `spec` are set. -/
def parseParts (gethostbyname : Gethostbyname) (buf : List UInt8) (spec : Option (List UInt8)) (i : Int32)
    (sock : SocketAddr) : Option SpecError × SocketAddr :=
  match parseAddr gethostbyname buf sock with
  | .error e => (some e, sock)
  | .ok sock => parsePort spec i sock

/-- The room that the buffer for an address has, without its NUL. -/
def addrRoom : Nat := 255

/-- The error, if there is one, and what is then in `*sock`. -/
def ioSocketParse (gethostbyname : Gethostbyname) (spec : List UInt8) (i : Int32) (sock : SocketAddr) :
    Option SpecError × SocketAddr :=
  match strchr 58 spec with
  | some colon =>
    let buf := spec.take (spec.length - colon.length)
    if addrRoom < buf.length then (some .tooLong, sock)
    else parseParts gethostbyname buf (some colon.tail) i sock
  | none =>
    if (ioSafeAtoi spec i).1 then (none, { sock with port := (ioSafeAtoi spec i).2 })
    else if addrRoom < spec.length then (some .tooLong, sock)
    else parseParts gethostbyname spec none i sock

/-- The address and the port that a spec gives, empty where it gives none. -/
inductive Parts : List UInt8 → List UInt8 → List UInt8 → Prop where
  | both {a p : List UInt8} (ha : 58 ∉ a) : Parts (a ++ 58 :: p) a p
  | port {spec : List UInt8} {v : Int} (hspec : 58 ∉ spec) (hv : decimal.Writes spec v) : Parts spec [] spec
  | addr {spec : List UInt8} (hspec : 58 ∉ spec) (hv : ∀ v, ¬ decimal.Writes spec v) : Parts spec spec []

/-- What is given is set, and nothing else. -/
structure Assigned (gethostbyname : Gethostbyname) (a p : List UInt8) (sock sock' : SocketAddr) : Prop where
  addr : a ≠ [] → gethostbyname a = .ok sock'.addr
  addr_same : a = [] → sock'.addr = sock.addr
  port : p ≠ [] → decimal.Writes p sock'.port.toInt
  port_same : p = [] → sock'.port = sock.port

/-- An error leaves everything as it was. -/
def AllOrNothing (gethostbyname : Gethostbyname) (spec : List UInt8) (sock : SocketAddr)
    (result : Option SpecError × SocketAddr) : Prop :=
  (result.1 ≠ none ∧ result.2 = sock) ∨
    (result.1 = none ∧ ∃ a p, Parts spec a p ∧ Assigned gethostbyname a p sock result.2)

/-- The address is the one that is looked up, or there is none. -/
def Resolves (gethostbyname : Gethostbyname) (a : List UInt8) (old new : UInt32) : Prop :=
  (a = [] ∧ new = old) ∨ (a ≠ [] ∧ a.length ≤ addrRoom ∧ gethostbyname a = .ok new)

/-- What goes wrong: a port that is a long but no int, an address that is set before the port is found to be
invalid, and a number that is no long and is taken for a host. -/
inductive Slip (gethostbyname : Gethostbyname) (sock : SocketAddr) : List UInt8 → Prop where
  | truncated {a p : List UInt8} {new : UInt32} {v : Int} (ha : 58 ∉ a)
    (hnew : Resolves gethostbyname a sock.addr new) (hv : decimal.Writes p v) (hlong : LongRange v)
    (hint : ¬ IntRange v) : Slip gethostbyname sock (a ++ 58 :: p)
  | early {a p : List UInt8} {new : UInt32} (ha : 58 ∉ a) (hnew : Resolves gethostbyname a sock.addr new)
    (hne : p ≠ []) (hp : ∀ v, decimal.Writes p v → ¬ LongRange v) (hold : new ≠ sock.addr) :
    Slip gethostbyname sock (a ++ 58 :: p)
  | truncatedLone {spec : List UInt8} {v : Int} (hspec : 58 ∉ spec) (hv : decimal.Writes spec v)
    (hlong : LongRange v) (hint : ¬ IntRange v) : Slip gethostbyname sock spec
  | host {spec : List UInt8} {new : UInt32} {v : Int} (hspec : 58 ∉ spec) (hv : decimal.Writes spec v)
    (hlong : ¬ LongRange v) (hnew : Resolves gethostbyname spec sock.addr new) : Slip gethostbyname sock spec

section Parsing

variable {gethostbyname : Gethostbyname} {spec str a p : List UInt8} {i num : Int32} {sock : SocketAddr} {v : Int}

theorem ioSafeAtoi_accepts (h : decimal.Writes str v) (hlong : LongRange v) :
    ioSafeAtoi str num = (true, Int32.ofInt v) := by
  rw [ioSafeAtoi, if_neg h.ne_nil, strtol_writes h, longSat_range hlong]
  simp [hlong]

theorem ioSafeAtoi_rejects (h : ∀ v, decimal.Writes str v → ¬ LongRange v) : (ioSafeAtoi str num).1 = false := by
  rw [ioSafeAtoi]
  by_cases hnil : str = []
  · rw [if_pos hnil]
  · rw [if_neg hnil]
    by_cases hv : ∃ v, decimal.Writes str v
    · obtain ⟨v, hv⟩ := hv
      have hlong := h v hv
      rw [strtol_writes hv]
      simp [hlong]
    · have hrest := strtol_remainder hnil (not_exists.mp hv)
      simp only [if_pos hrest]
      split <;> rfl

/-- The two ways that io_safe_atoi ends. -/
theorem ioSafeAtoi_cases (str : List UInt8) (num : Int32) :
    (∃ v, decimal.Writes str v ∧ LongRange v ∧ ioSafeAtoi str num = (true, Int32.ofInt v)) ∨
      ((∀ v, decimal.Writes str v → ¬ LongRange v) ∧ (ioSafeAtoi str num).1 = false) := by
  by_cases h : ∃ v, decimal.Writes str v ∧ LongRange v
  · obtain ⟨v, hv, hlong⟩ := h
    exact .inl ⟨v, hv, hlong, ioSafeAtoi_accepts hv hlong⟩
  · have hnot : ∀ v, decimal.Writes str v → ¬ LongRange v := fun v hv hlong => h ⟨v, hv, hlong⟩
    exact .inr ⟨hnot, ioSafeAtoi_rejects hnot⟩

theorem parseParts_resolves {new : UInt32} (h : Resolves gethostbyname a sock.addr new) (spec : Option (List UInt8)) :
    parseParts gethostbyname a spec i sock = parsePort spec i { sock with addr := new } := by
  have haddr : parseAddr gethostbyname a sock = .ok { sock with addr := new } := by
    rw [parseAddr]
    obtain ⟨hnil, rfl⟩ | ⟨hne, -, hnew⟩ := h
    · rw [if_pos hnil]
    · rw [if_neg hne, hnew]
      rfl
  rw [parseParts, haddr]

theorem Resolves.le {new : UInt32} (h : Resolves gethostbyname a sock.addr new) : a.length ≤ addrRoom := by
  obtain ⟨rfl, -⟩ | ⟨-, hle, -⟩ := h
  · exact Nat.zero_le _
  · exact hle

theorem ioSocketParse_both (ha : 58 ∉ a) :
    ioSocketParse gethostbyname (a ++ 58 :: p) i sock =
      if addrRoom < a.length then (some .tooLong, sock) else parseParts gethostbyname a (some p) i sock := by
  have hbuf : (a ++ 58 :: p).take ((a ++ 58 :: p).length - (58 :: p).length) = a := by
    rw [List.length_append, Nat.add_sub_cancel, List.take_left' rfl]
  rw [ioSocketParse, strchr_append ha]
  simp only [hbuf, List.tail_cons]

theorem ioSocketParse_lone (hspec : 58 ∉ spec) :
    ioSocketParse gethostbyname spec i sock =
      if (ioSafeAtoi spec i).1 then (none, { sock with port := (ioSafeAtoi spec i).2 })
      else if addrRoom < spec.length then (some .tooLong, sock)
      else parseParts gethostbyname spec none i sock := by
  obtain ⟨hnone, -⟩ | ⟨front, back, -, rfl, -⟩ := strchr_split 58 spec
  · rw [ioSocketParse, hnone]
  · exact absurd (List.mem_append_right front List.mem_cons_self) hspec

/-- With a colon the parts are what is on its sides. -/
theorem Parts.of_colon {a' p' : List UInt8} (ha : 58 ∉ a) (h : Parts (a ++ 58 :: p) a' p') : a' = a ∧ p' = p := by
  have hcolon : 58 ∈ a ++ 58 :: p := List.mem_append_right a List.mem_cons_self
  generalize hspec : a ++ 58 :: p = spec at h hcolon
  cases h with
  | both ha' =>
    obtain ⟨rfl, rfl⟩ := strchr_unique ha ha' hspec
    exact ⟨rfl, rfl⟩
  | port hnot => exact absurd hcolon hnot
  | addr hnot => exact absurd hcolon hnot

/-- Without one a number is a port. -/
theorem Parts.of_number (hspec : 58 ∉ spec) (hv : decimal.Writes spec v) (h : Parts spec a p) : a = [] ∧ p = spec := by
  cases h with
  | both ha => exact absurd (List.mem_append_right a List.mem_cons_self) hspec
  | port => exact ⟨rfl, rfl⟩
  | addr _ hnot => exact absurd hv (hnot v)

theorem toInt_longRange (n : Int32) : LongRange n.toInt := by
  have hlo := n.le_toInt
  have hhi := n.toInt_lt
  constructor <;> omega

/-- A port that is set to something else than its number. -/
theorem Assigned.port_eq {sock' : SocketAddr} (h : Assigned gethostbyname a p sock sock')
    (hv : decimal.Writes p v) : sock'.port.toInt = v :=
  (h.port hv.ne_nil).unique hv

/-- A spec with the number of a port in it that is not the port that is set. -/
theorem not_allOrNothing_of_port {result : Option SpecError × SocketAddr} (hresult : result.1 = none)
    (hparts : ∀ a' p', Parts spec a' p' → p' = p) (hv : decimal.Writes p v) (hne : result.2.port.toInt ≠ v) :
    ¬ AllOrNothing gethostbyname spec sock result := by
  rintro (⟨hnone, -⟩ | ⟨-, a', p', hgiven, hset⟩)
  · exact hnone hresult
  · obtain rfl := hparts a' p' hgiven
    exact hne (hset.port_eq hv)

theorem Slip.not_allOrNothing (h : Slip gethostbyname sock spec) :
    ¬ AllOrNothing gethostbyname spec sock (ioSocketParse gethostbyname spec i sock) := by
  cases h with
  | @truncated a p new v ha hnew hv hlong hint =>
    have hport : ioSocketParse gethostbyname (a ++ 58 :: p) i sock = (none, ⟨new, Int32.ofInt v⟩) := by
      rw [ioSocketParse_both ha, if_neg (Nat.not_lt.mpr hnew.le), parseParts_resolves hnew, parsePort,
        Option.elim_some, if_neg hv.ne_nil, ioSafeAtoi_accepts hv hlong, if_pos rfl]
    rw [hport]
    apply not_allOrNothing_of_port rfl (fun a' p' hparts => (hparts.of_colon ha).2) hv
    exact fun hsame => hint (intRange_iff.mp hsame)
  | @early a p new ha hnew hne hp hold =>
    have herror : ioSocketParse gethostbyname (a ++ 58 :: p) i sock =
        (some .invalidPort, { sock with addr := new }) := by
      rw [ioSocketParse_both ha, if_neg (Nat.not_lt.mpr hnew.le), parseParts_resolves hnew, parsePort,
        Option.elim_some, if_neg hne, ioSafeAtoi_rejects hp]
      rfl
    rw [herror]
    rintro (⟨-, hsame⟩ | ⟨hnone, -⟩)
    · exact hold (congrArg SocketAddr.addr hsame)
    · cases hnone
  | @truncatedLone _ v hspec hv hlong hint =>
    have hport : ioSocketParse gethostbyname spec i sock = (none, { sock with port := Int32.ofInt v }) := by
      rw [ioSocketParse_lone hspec, ioSafeAtoi_accepts hv hlong, if_pos rfl]
    rw [hport]
    apply not_allOrNothing_of_port rfl (fun a' p' hparts => (hparts.of_number hspec hv).2) hv
    exact fun hsame => hint (intRange_iff.mp hsame)
  | @host _ new v hspec hv hlong hnew =>
    have hrejects : ∀ w, decimal.Writes spec w → ¬ LongRange w := by
      intro w hw
      rw [hw.unique hv]
      exact hlong
    have haddr : ioSocketParse gethostbyname spec i sock = (none, { sock with addr := new }) := by
      rw [ioSocketParse_lone hspec, ioSafeAtoi_rejects hrejects, if_neg (by decide),
        if_neg (Nat.not_lt.mpr hnew.le), parseParts_resolves hnew]
      rfl
    rw [haddr]
    apply not_allOrNothing_of_port rfl (fun a' p' hparts => (hparts.of_number hspec hv).2) hv
    intro hsame
    apply hlong
    rw [← hsame]
    exact toInt_longRange _

/-- An address that is found, or none, and a port that is one. -/
theorem Resolves.assigned {new : UInt32} {port : Int32} (h : Resolves gethostbyname a sock.addr new)
    (hport : p ≠ [] → decimal.Writes p port.toInt) (hsame : p = [] → port = sock.port) :
    Assigned gethostbyname a p sock ⟨new, port⟩ := by
  obtain ⟨hnil, rfl⟩ | ⟨hne, -, hnew⟩ := h
  · exact ⟨fun hne => absurd hnil hne, fun _ => rfl, hport, hsame⟩
  · exact ⟨fun _ => hnew, fun hnil => absurd hnil hne, hport, hsame⟩

theorem writes_ofInt (hv : decimal.Writes str v) (hint : IntRange v) : decimal.Writes str (Int32.ofInt v).toInt := by
  rw [intRange_iff.mpr hint]
  exact hv

/-- A lookup that does not find the address leaves everything as it was. -/
theorem parts_or_error (ha : ¬ addrRoom < a.length) (spec : Option (List UInt8)) :
    (∃ e, parseParts gethostbyname a spec i sock = (some e, sock)) ∨
      ∃ new, Resolves gethostbyname a sock.addr new ∧
        parseParts gethostbyname a spec i sock = parsePort spec i { sock with addr := new } := by
  by_cases hnil : a = []
  · have hnew : Resolves gethostbyname a sock.addr sock.addr := .inl ⟨hnil, rfl⟩
    exact .inr ⟨sock.addr, hnew, parseParts_resolves hnew spec⟩
  · cases hlookup : gethostbyname a with
    | error e =>
      refine .inl ⟨e.error, ?_⟩
      rw [parseParts, parseAddr, if_neg hnil, hlookup]
      rfl
    | ok new =>
      have hnew : Resolves gethostbyname a sock.addr new := .inr ⟨hnil, Nat.not_lt.mp ha, hlookup⟩
      exact .inr ⟨new, hnew, parseParts_resolves hnew spec⟩

theorem both_or_slip (ha : 58 ∉ a) :
    AllOrNothing gethostbyname (a ++ 58 :: p) sock (ioSocketParse gethostbyname (a ++ 58 :: p) i sock) ∨
      Slip gethostbyname sock (a ++ 58 :: p) := by
  rw [ioSocketParse_both ha]
  by_cases hroom : addrRoom < a.length
  · rw [if_pos hroom]
    exact .inl (.inl ⟨nofun, rfl⟩)
  · rw [if_neg hroom]
    obtain ⟨e, he⟩ | ⟨new, hnew, hport⟩ := parts_or_error hroom (some p)
    · rw [he]
      exact .inl (.inl ⟨nofun, rfl⟩)
    · rw [hport, parsePort, Option.elim_some]
      by_cases hnil : p = []
      · rw [if_pos hnil]
        exact .inl (.inr ⟨rfl, a, p, .both ha, hnew.assigned (fun hne => absurd hnil hne) fun _ => rfl⟩)
      · rw [if_neg hnil]
        obtain ⟨v, hv, hlong, hatoi⟩ | ⟨hp, hatoi⟩ := ioSafeAtoi_cases p i
        · rw [hatoi, if_pos rfl]
          by_cases hint : IntRange v
          · exact .inl (.inr ⟨rfl, a, p, .both ha, hnew.assigned (fun _ => writes_ofInt hv hint)
              fun hnil' => absurd hnil' hnil⟩)
          · exact .inr (.truncated ha hnew hv hlong hint)
        · rw [hatoi, if_neg (by decide)]
          by_cases hold : new = sock.addr
          · subst hold
            exact .inl (.inl ⟨nofun, rfl⟩)
          · exact .inr (.early ha hnew hnil hp hold)

theorem lone_or_slip (hspec : 58 ∉ spec) :
    AllOrNothing gethostbyname spec sock (ioSocketParse gethostbyname spec i sock) ∨
      Slip gethostbyname sock spec := by
  rw [ioSocketParse_lone hspec]
  obtain ⟨v, hv, hlong, hatoi⟩ | ⟨hnot, hatoi⟩ := ioSafeAtoi_cases spec i
  · rw [hatoi, if_pos rfl]
    by_cases hint : IntRange v
    · exact .inl (.inr ⟨rfl, [], spec, .port hspec hv, ⟨nofun, fun _ => rfl, fun _ => writes_ofInt hv hint,
        fun hnil => absurd hnil hv.ne_nil⟩⟩)
    · exact .inr (.truncatedLone hspec hv hlong hint)
  · rw [hatoi, if_neg (by decide)]
    by_cases hroom : addrRoom < spec.length
    · rw [if_pos hroom]
      exact .inl (.inl ⟨nofun, rfl⟩)
    · rw [if_neg hroom]
      obtain ⟨e, he⟩ | ⟨new, hnew, hport⟩ := parts_or_error hroom none
      · rw [he]
        exact .inl (.inl ⟨nofun, rfl⟩)
      · rw [hport]
        by_cases hv : ∃ v, decimal.Writes spec v
        · obtain ⟨v, hv⟩ := hv
          exact .inr (.host hspec hv (hnot v hv) hnew)
        · exact .inl (.inr ⟨rfl, spec, [], .addr hspec (not_exists.mp hv), hnew.assigned nofun fun _ => rfl⟩)

end Parsing

/-- Every spec is parsed whole or not at all, but for the three ways in which it goes wrong. -/
theorem ioSocketParse_allOrNothing_iff (gethostbyname : Gethostbyname) (spec : List UInt8) (i : Int32)
    (sock : SocketAddr) :
    AllOrNothing gethostbyname spec sock (ioSocketParse gethostbyname spec i sock) ↔
      ¬ Slip gethostbyname sock spec := by
  constructor
  · intro h hslip
    exact hslip.not_allOrNothing h
  · intro hslip
    obtain ⟨-, hspec⟩ | ⟨a, p, -, rfl, ha⟩ := strchr_split 58 spec
    · exact (lone_or_slip hspec).resolve_right hslip
    · exact (both_or_slip ha).resolve_right hslip

/-- "h:x": the port is invalid, and the address is that of the host. -/
theorem ioSocketParse_early :
    ¬ AllOrNothing (fun _ => .ok 1) [104, 58, 120] ⟨0, 22⟩
      (ioSocketParse (fun _ => .ok 1) [104, 58, 120] 0 ⟨0, 22⟩) := by
  have herror : ioSocketParse (fun _ => .ok 1) [104, 58, 120] 0 ⟨0, 22⟩ = (some .invalidPort, ⟨1, 22⟩) := by
    decide
  rw [herror]
  rintro (⟨-, hsame⟩ | ⟨hnone, -⟩)
  · cases hsame
  · cases hnone

end Rzh
