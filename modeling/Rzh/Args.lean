import Rzh.FifoQueue
import Rzh.Cmd
import Rzh.Socket

/-!
# Arguments

process_args works on the options one after the other, as getopt_long hands them over. An option sets
something, or it ends the program.
-/
namespace Rzh

/-- The options that set the size of a fifo. -/
inductive FifoOption where
  | inma
  | maou
  deriving DecidableEq, Repr

/-- What getopt_long finds; everything that has no case of its own is unknown. -/
inductive Opt where
  | help | info | quiet | version
  | rz (arg : List UInt8)
  | connect (arg : List UInt8)
  | debugAttach
  | logFile (arg : List UInt8)
  | logLevel (arg : List UInt8)
  | fifoSize (o : FifoOption) (arg : List UInt8)
  | unknown
  deriving DecidableEq, Repr

/-- What is printed. -/
inductive Message where
  | usage
  | version
  | downloading (dir : List UInt8)
  | notRunning
  | spec (e : SpecError) (arg : List UInt8)
  | waiting
  | openingLog
  | invalidNumber (arg : List UInt8)
  | invalidLevel (i : Int32)
  | maximumLevel
  | levelSet (i : Int32)
  | outOfRange (i : Int32)
  | tooMany (args : List (List UInt8))
  | noPort
  deriving DecidableEq, Repr

/-- The variables that the options set, and what has been printed. -/
structure Settings where
  connAddr : SocketAddr
  optQuiet : Nat
  rzcmd : Command
  inmaFifoSize : Int32
  maouFifoSize : Int32
  logPriority : Int32
  logFile : Option (List UInt8)
  downloadDir : Option (List UInt8)
  addrSpecified : Nat
  printed : List Message

/-- The way process_args ends before its time. -/
inductive Stop where
  | exit (code : Nat) (printed : List Message)
  | fault (e : CmdFault)

def argumentError : Nat := 1

/-- What surrounds the program: the resolver, the environment variable of an rzh that is running already,
the files that can be opened, and what the variable `i` and the memory for the arguments of a command hold
before something is stored in them. -/
structure Surroundings where
  gethostbyname : Gethostbyname
  getenv : Option (List UInt8)
  fopen : List UInt8 → Bool
  i : Int32
  memory : Nat → Option (List UInt8)

namespace Settings

variable (s : Settings)

def print (m : Message) : Settings := { s with printed := s.printed ++ [m] }

def exit (code : Nat) (m : Message) : Except Stop Settings := .error (.exit code (s.print m).printed)

def logSetPriority (prio : Int32) : Settings :=
  if prio < 0 then s.print (.invalidLevel prio)
  else if 8 < prio then { s.print .maximumLevel with logPriority := 8 }
  else { s with logPriority := prio }

end Settings

def FifoOption.size (s : Settings) : FifoOption → Int32
  | inma => s.inmaFifoSize
  | maou => s.maouFifoSize

def FifoOption.store (s : Settings) (i : Int32) : FifoOption → Settings
  | inma => { s with inmaFifoSize := i }
  | maou => { s with maouFifoSize := i }

/-- Options that take an integer. -/
def integerOption (env : Surroundings) (s : Settings) (arg : List UInt8) (store : Int32 → Settings) :
    Except Stop Settings :=
  if (ioSafeAtoi arg env.i).1 then .ok (store (ioSafeAtoi arg env.i).2)
  else s.exit argumentError (.invalidNumber arg)

/-- One round of the loop. -/
def processOpt (env : Surroundings) (s : Settings) : Opt → Except Stop Settings
  | .help => s.exit 0 .usage
  | .connect arg =>
    let parsed := ioSocketParse env.gethostbyname arg env.i s.connAddr
    let s := { s with connAddr := parsed.2, addrSpecified := s.addrSpecified + 1 }
    parsed.1.elim (.ok s) fun e => s.exit argumentError (.spec e arg)
  -- the loop that waits for the debugger is stepped past by hand
  | .debugAttach => .ok (s.print .waiting)
  | .logFile arg => if env.fopen arg then .ok { s with logFile := some arg } else s.exit 99 .openingLog
  | .logLevel arg => integerOption env s arg fun i =>
    let s := s.logSetPriority i
    if s.optQuiet = 0 then s.print (.levelSet i) else s
  | .fifoSize o arg => integerOption env s arg fun i =>
    let s := if i < 0 ∨ 1024 * 1024 < i then s.print (.outOfRange i) else s
    o.store s i
  | .info => env.getenv.elim (s.exit 1 .notRunning) fun dir => s.exit 0 (.downloading dir)
  | .quiet => .ok { s with optQuiet := s.optQuiet + 1 }
  | .rz arg => ((cmdParse env.memory s.rzcmd arg).map fun cmd => { s with rzcmd := cmd }).mapError .fault
  | .version => s.exit 0 .version
  | .unknown => .error (.exit argumentError s.printed)

def processOpts (env : Surroundings) : List Opt → Settings → Except Stop Settings
  | [], s => .ok s
  | opt :: opts, s => processOpt env s opt >>= processOpts env opts

/-- `args` is what getopt_long leaves over. -/
def processArgs (env : Surroundings) (opts : List Opt) (args : List (List UInt8)) (s : Settings) :
    Except Stop Settings :=
  processOpts env opts s >>= fun s =>
    let s := { s with downloadDir := args.head? }
    -- supplying more than one directory is an error
    if args.tail ≠ [] then s.exit argumentError (.tooMany args.tail)
    else if 0 < s.addrSpecified ∧ s.connAddr.port = 0 then s.exit argumentError .noPort
    else .ok s

/-- What main has set before: the address is 127.0.0.1, as it lies in memory. -/
def defaultSettings : Settings where
  connAddr := ⟨0x0100007f, 0⟩
  optQuiet := 0
  rzcmd := cmdInit
  inmaFifoSize := 8192
  maouFifoSize := 8192
  logPriority := 0
  logFile := none
  downloadDir := none
  addrSpecified := 0
  printed := []

/-- A number that fits in a long is the size of a fifo. -/
def SizeRange (arg : List UInt8) : Prop := ∀ v, decimal.Writes arg v → LongRange v → 1 ≤ v ∧ v ≤ 1048576

/-- The value is the number that is written, and the size of a fifo. -/
def IsSize (arg : List UInt8) (size : Int32) : Prop :=
  decimal.Writes arg size.toInt ∧ 1 ≤ size.toInt ∧ size.toInt ≤ 1048576

/-- If the program goes on behind an option, it has stored the size. -/
def Validates (env : Surroundings) (s : Settings) (o : FifoOption) (arg : List UInt8) : Prop :=
  ∀ s', processOpt env s (.fifoSize o arg) = .ok s' → IsSize arg (o.size s')

/-- The argument, if an option sets the size. -/
def Opt.sizeArg (o : FifoOption) : Opt → Option (List UInt8)
  | .fifoSize o' arg => if o' = o then some arg else none
  | _ => none

/-- The last option for a size has stored it; without one it is what it was. -/
def Stored (o : FifoOption) (opts : List Opt) (s s' : Settings) : Prop :=
  (opts.filterMap (Opt.sizeArg o)).getLast?.elim (o.size s' = o.size s) fun arg => IsSize arg (o.size s')

section Options

variable {env : Surroundings} {s s' : Settings} {o : FifoOption} {arg str : List UInt8} {num : Int32} {opt : Opt}
  {opts : List Opt} {args : List (List UInt8)} {v : Int}

theorem size_store (s : Settings) (o : FifoOption) (i : Int32) : o.size (o.store s i) = i := by
  cases o <;> rfl

theorem size_store_ne {o' : FifoOption} (h : o' ≠ o) (s : Settings) (i : Int32) :
    o.size (o'.store s i) = o.size s := by
  cases o <;> cases o' <;> first | rfl | exact absurd rfl h

@[simp] theorem size_print (s : Settings) (o : FifoOption) (m : Message) : o.size (s.print m) = o.size s := by
  cases o <;> rfl

@[simp] theorem size_logSetPriority (s : Settings) (o : FifoOption) (prio : Int32) :
    o.size (s.logSetPriority prio) = o.size s := by
  rw [Settings.logSetPriority]
  cases o <;> split <;> first | rfl | split <;> rfl

theorem integerOption_cases (env : Surroundings) (s : Settings) (arg : List UInt8) (store : Int32 → Settings) :
    (∃ v, decimal.Writes arg v ∧ LongRange v ∧ integerOption env s arg store = .ok (store (Int32.ofInt v))) ∨
      ((∀ v, decimal.Writes arg v → ¬ LongRange v) ∧
        integerOption env s arg store = s.exit argumentError (.invalidNumber arg)) := by
  obtain ⟨v, hv, hlong, hatoi⟩ | ⟨hnot, hatoi⟩ := ioSafeAtoi_cases arg env.i
  · refine .inl ⟨v, hv, hlong, ?_⟩
    rw [integerOption, hatoi, if_pos rfl]
  · refine .inr ⟨hnot, ?_⟩
    rw [integerOption, hatoi, if_neg (by decide)]

theorem integerOption_ok {store : Int32 → Settings} (h : integerOption env s arg store = .ok s') :
    ∃ v, decimal.Writes arg v ∧ LongRange v ∧ s' = store (Int32.ofInt v) := by
  obtain ⟨v, hv, hlong, hok⟩ | ⟨-, hexit⟩ := integerOption_cases env s arg store
  · rw [hok] at h
    exact ⟨v, hv, hlong, (Except.ok.inj h).symm⟩
  · rw [hexit] at h
    cases h

/-- An argument that is a long is stored, whatever it is. -/
theorem processOpt_stores (env : Surroundings) (s : Settings) (o : FifoOption) (hv : decimal.Writes arg v)
    (hlong : LongRange v) : ∃ s', processOpt env s (.fifoSize o arg) = .ok s' ∧ o.size s' = Int32.ofInt v := by
  rw [processOpt]
  obtain ⟨w, hw, -, hok⟩ | ⟨hnot, -⟩ := integerOption_cases env s arg _
  · rw [hok, hw.unique hv]
    exact ⟨_, rfl, size_store _ o _⟩
  · exact absurd hlong (hnot v hv)

theorem processOpt_writes (h : processOpt env s (.fifoSize o arg) = .ok s') :
    ∃ v, decimal.Writes arg v ∧ LongRange v ∧ o.size s' = Int32.ofInt v := by
  rw [processOpt] at h
  obtain ⟨v, hv, hlong, rfl⟩ := integerOption_ok h
  exact ⟨v, hv, hlong, size_store _ o _⟩

theorem validates_iff (env : Surroundings) (s : Settings) (o : FifoOption) (arg : List UInt8) :
    Validates env s o arg ↔ SizeRange arg := by
  constructor
  · intro h v hv hlong
    obtain ⟨s', hs', -⟩ := processOpt_stores env s o hv hlong
    obtain ⟨hsize, hlo, hhi⟩ := h s' hs'
    rw [hv.unique hsize]
    exact ⟨hlo, hhi⟩
  · intro h s' hs'
    obtain ⟨v, hv, hlong, hsize⟩ := processOpt_writes hs'
    obtain ⟨hlo, hhi⟩ := h v hv hlong
    have hint : (Int32.ofInt v).toInt = v := intRange_iff.mpr ⟨by omega, by omega⟩
    rw [IsSize, hsize, hint]
    exact ⟨hv, hlo, hhi⟩

theorem ioSafeAtoi_exact_iff (str : List UInt8) (num : Int32) :
    ((ioSafeAtoi str num).1 = true → decimal.Writes str (ioSafeAtoi str num).2.toInt) ↔
      ∀ v, decimal.Writes str v → LongRange v → IntRange v := by
  constructor
  · intro h v hv hlong
    rw [ioSafeAtoi_accepts hv hlong] at h
    exact intRange_iff.mp ((h rfl).unique hv)
  · intro h haccept
    obtain ⟨v, hv, hlong, hatoi⟩ | ⟨-, hatoi⟩ := ioSafeAtoi_cases str num
    · rw [hatoi]
      exact writes_ofInt hv (h v hv hlong)
    · rw [hatoi] at haccept
      cases haccept

/-- Another option leaves a size alone. -/
theorem processOpt_size (h : processOpt env s opt = .ok s') (hopt : opt.sizeArg o = none) : o.size s' = o.size s := by
  cases opt with
  | help => cases h
  | version => cases h
  | unknown => cases h
  | info =>
    rw [processOpt] at h
    cases henv : env.getenv with
    | none =>
      rw [henv] at h
      cases h
    | some dir =>
      rw [henv] at h
      cases h
  | quiet =>
    cases h
    cases o <;> rfl
  | debugAttach =>
    cases h
    exact size_print s o _
  | rz arg =>
    rw [processOpt] at h
    cases hcmd : cmdParse env.memory s.rzcmd arg with
    | error e =>
      rw [hcmd] at h
      cases h
    | ok cmd =>
      rw [hcmd] at h
      cases h
      cases o <;> rfl
  | connect arg =>
    rw [processOpt] at h
    cases hparsed : (ioSocketParse env.gethostbyname arg env.i s.connAddr).1 with
    | some e =>
      simp only [hparsed] at h
      cases h
    | none =>
      simp only [hparsed] at h
      cases h
      cases o <;> rfl
  | logFile arg =>
    rw [processOpt] at h
    split at h
    · cases h
      cases o <;> rfl
    · cases h
  | logLevel arg =>
    rw [processOpt] at h
    obtain ⟨v, -, -, rfl⟩ := integerOption_ok h
    simp only
    split <;> simp
  | fifoSize o' arg =>
    have hne : o' ≠ o := by
      rintro rfl
      rw [Opt.sizeArg, if_pos rfl] at hopt
      cases hopt
    rw [processOpt] at h
    obtain ⟨v, -, -, rfl⟩ := integerOption_ok h
    rw [size_store_ne hne]
    split <;> simp

/-- What one option does to a size. -/
theorem processOpt_stored (hargs : ∀ arg, opt = .fifoSize o arg → SizeRange arg)
    (h : processOpt env s opt = .ok s') : Stored o [opt] s s' := by
  cases hsize : opt.sizeArg o with
  | none =>
    rw [Stored, List.filterMap_cons_none hsize]
    exact processOpt_size h hsize
  | some arg =>
    have hopt : opt = .fifoSize o arg := by
      cases opt with
      | fifoSize o' arg' =>
        rw [Opt.sizeArg] at hsize
        split at hsize
        · rename_i heq
          cases hsize
          rw [heq]
        · cases hsize
      | _ => cases hsize
    subst hopt
    rw [Stored, List.filterMap_cons_some hsize]
    exact (validates_iff env s o arg).mpr (hargs arg rfl) s' h

/-- The last of the options counts. -/
theorem Stored.cons {s₁ : Settings} (hopt : Stored o [opt] s s₁) (h : Stored o opts s₁ s') :
    Stored o (opt :: opts) s s' := by
  rw [Stored] at h ⊢
  cases hlast : (opts.filterMap (Opt.sizeArg o)).getLast? with
  | some arg =>
    rw [hlast] at h
    cases hsize : opt.sizeArg o with
    | none =>
      rw [List.filterMap_cons_none hsize, hlast]
      exact h
    | some arg' =>
      rw [List.filterMap_cons_some hsize, List.getLast?_cons, hlast]
      exact h
  | none =>
    rw [hlast] at h
    have hsame : o.size s' = o.size s₁ := h
    rw [Stored] at hopt
    rw [hsame, ← List.singleton_append, List.filterMap_append, List.getLast?_eq_none_iff.mp hlast,
      List.append_nil]
    exact hopt

/-- Behind all options each size is the one that its last option gives. -/
theorem processOpts_stored (hargs : ∀ arg, .fifoSize o arg ∈ opts → SizeRange arg)
    (h : processOpts env opts s = .ok s') : Stored o opts s s' := by
  induction opts generalizing s with
  | nil =>
    cases h
    rfl
  | cons opt opts ih =>
    rw [processOpts] at h
    cases hopt : processOpt env s opt with
    | error e =>
      rw [hopt] at h
      cases h
    | ok s₁ =>
      rw [hopt] at h
      have hfirst : Stored o [opt] s s₁ := by
        apply processOpt_stored _ hopt
        rintro arg rfl
        exact hargs arg List.mem_cons_self
      exact hfirst.cons (ih (fun arg harg => hargs arg (List.mem_cons_of_mem opt harg)) h)

theorem processArgs_stored (hargs : ∀ arg, .fifoSize o arg ∈ opts → SizeRange arg)
    (h : processArgs env opts args s = .ok s') : Stored o opts s s' := by
  rw [processArgs] at h
  cases hopts : processOpts env opts s with
  | error e =>
    rw [hopts] at h
    cases h
  | ok s₁ =>
    rw [hopts] at h
    have hsize : o.size s' = o.size s₁ := by
      simp only [bind, Except.bind] at h
      split at h
      · cases h
      · split at h
        · cases h
        · cases h
          cases o <;> rfl
    have hstored := processOpts_stored hargs hopts
    rw [Stored, hsize]
    exact hstored

/-- A size that is stored is one for a fifo. -/
theorem Stored.range (h : Stored o opts defaultSettings s') : 1 ≤ (o.size s').toInt ∧ (o.size s').toInt ≤ 1048576 := by
  rw [Stored] at h
  cases hlast : (opts.filterMap (Opt.sizeArg o)).getLast? with
  | none =>
    rw [hlast] at h
    rw [show o.size s' = o.size defaultSettings from h]
    cases o <;> decide
  | some arg =>
    rw [hlast] at h
    exact h.2

end Options

/-- A string is an int, and an argument a size, as long as no number that is written fits in a long but
not where it goes; and then the fifos that the program starts with are bounded queues. -/
theorem processArgs_sizes_iff (env : Surroundings) (arg : List UInt8) :
    (∀ num, ((ioSafeAtoi arg num).1 = true → decimal.Writes arg (ioSafeAtoi arg num).2.toInt) ↔
      ∀ v, decimal.Writes arg v → LongRange v → IntRange v) ∧
    (∀ s o, Validates env s o arg ↔ SizeRange arg) ∧
    ∀ opts args s', (∀ o size, .fifoSize o size ∈ opts → SizeRange size) →
      processArgs env opts args defaultSettings = .ok s' →
      (∀ o, Stored o opts defaultSettings s') ∧ BoundedQueues fun o : FifoOption => (o.size s').toInt := by
  refine ⟨ioSafeAtoi_exact_iff arg, fun s o => validates_iff env s o arg, ?_⟩
  intro opts args s' hargs h
  have hstored : ∀ o, Stored o opts defaultSettings s' := fun o => processArgs_stored (hargs o) h
  refine ⟨hstored, boundedQueues_of_room (fun o => (hstored o).range.1) ?_⟩
  intro o
  have hhi := (hstored o).range.2
  omega

/-- No host, no file and no other rzh. -/
def bareSurroundings : Surroundings := ⟨fun _ => .error .hostNotFound, none, fun _ => false, 0, fun _ => none⟩

/-- The size 4096, and then quiet. -/
theorem processArgs_sizes_iff_4096 :
    ∃ s', processArgs bareSurroundings [.fifoSize .inma [52, 48, 57, 54], .quiet] [] defaultSettings = .ok s' ∧
      BoundedQueues fun o : FifoOption => (o.size s').toInt := by
  have hnumber : decimal.Writes [52, 48, 57, 54] 4096 := Figures.writes_of_scan (by decide)
  have hrange : ∀ o arg, .fifoSize o arg ∈ [.fifoSize .inma [52, 48, 57, 54], Opt.quiet] → SizeRange arg := by
    intro o arg harg v hv _
    have harg : arg = [52, 48, 57, 54] := by simp_all
    rw [harg] at hv
    rw [hv.unique hnumber]
    decide
  have hrun : processArgs bareSurroundings [.fifoSize .inma [52, 48, 57, 54], .quiet] [] defaultSettings =
      .ok { defaultSettings with inmaFifoSize := 4096, optQuiet := 1 } := by
    rfl
  exact ⟨_, hrun, ((processArgs_sizes_iff bareSurroundings []).2.2 _ _ _ hrange hrun).2⟩

/-- The size -1 is out of range, which is only printed. -/
theorem processOpt_minusOne : ¬ Validates bareSurroundings defaultSettings .inma [45, 49] := by
  have hnumber : decimal.Writes [45, 49] (-1) := Figures.writes_of_scan (by decide)
  obtain ⟨s', hs', hsize⟩ := processOpt_stores bareSurroundings defaultSettings .inma hnumber (by decide)
  intro h
  obtain ⟨-, hlo, -⟩ := h s' hs'
  rw [hsize] at hlo
  exact absurd hlo (by decide)

end Rzh
