import Rzh.Args
import Rzh.IdleNumbers
import Rzh.IoSelect
import Rzh.Outcome

/-!
# Where the files go

Before the loop preflight() goes to the download directory, leaves its path in an environment variable for those
who ask with --info, looks at the rz executable from there, and comes back. Each rz process goes there by itself.
-/
namespace Rzh

/-- What preflight() uses of what stat() finds. -/
structure Stat where
  mode : UInt32
  uid : Nat
  gid : Nat
  deriving DecidableEq, Repr

/-- The effective ids of the process. -/
structure Ids where
  euid : Nat
  egid : Nat
  deriving DecidableEq, Repr

def sIrwxu : UInt32 := 0o700

def sIrwxg : UInt32 := 0o070

def sIrwxo : UInt32 := 0o007

def sIfmt : UInt32 := 0o170000

def sIfdir : UInt32 := 0o040000

def sIfreg : UInt32 := 0o100000

def canRead : UInt32 := 0o444

def canWrite : UInt32 := 0o222

def canExecute : UInt32 := 0o111

def iHavePermission (ids : Ids) (st : Stat) (op : UInt32) : Bool :=
  (st.mode &&& sIrwxu &&& op != 0 && ids.euid == st.uid) ||
    (st.mode &&& sIrwxg &&& op != 0 && ids.egid == st.gid) || st.mode &&& sIrwxo &&& op != 0

/-- What the calls of the system find; a directory is what a process can be in. -/
structure Files (Dir : Type) where
  chdir : Dir → List UInt8 → Option Dir
  getcwd : Dir → Option (List UInt8)
  stat : Dir → List UInt8 → Option Stat
  setenv : List UInt8 → Bool

/-- The path that getcwd() gives is absolute: wherever a process is, it leads to the directory if anywhere. -/
def Files.Names {Dir : Type} (files : Files Dir) : Prop :=
  ∀ dir path, files.getcwd dir = some path → ∀ here there, files.chdir here path = some there → there = dir

/-- What is printed before the loop, and by a child that is on its way to the download directory. -/
inductive Notice where
  | overriding (dir : List UInt8)
  | noCwd
  | noCd (dir : List UInt8)
  | noDldir
  | noSetenv (dir : List UInt8)
  | noStat (dir : List UInt8)
  | noDirectory (dir : List UInt8)
  | noWrite (dir : List UInt8)
  | noRz (path : Option (List UInt8))
  | irregular (path : Option (List UInt8))
  | unreadable (path : Option (List UInt8))
  | unexecutable (path : Option (List UInt8))
  | saving (dir : List UInt8)
  | unknownCwd
  | noReturn (dir : List UInt8)
  | notStarted
  | noChdir (dir : List UInt8)
  deriving DecidableEq, Repr

/-- The exit status that goes with what has gone wrong. -/
def Notice.code : Notice → Option Nat
  | noCwd => some 24
  | noCd _ => some 25
  | noDldir => some 26
  | noReturn _ => some 27
  | noSetenv _ => some 39
  | noStat _ => some 49
  | noRz _ => some 70
  | irregular _ => some 71
  | unreadable _ => some 72
  | unexecutable _ => some 73
  | _ => none

/-- Where rzh is, what the environment says, and what has been printed. -/
structure Process (Dir : Type) where
  cwd : Dir
  rzhdir : Option (List UInt8)
  printed : List Notice

/-- How the start is given up: the value that main() exits with. -/
structure Abort (Dir : Type) where
  val : Nat
  process : Process Dir

namespace Process

variable {Dir α : Type} (p : Process Dir)

def print (m : Notice) : Process Dir := { p with printed := p.printed ++ [m] }

def warn (bad : Bool) (m : Notice) : Process Dir := if bad then p.print m else p

def preabort (val : Nat) (m : Notice) : Except (Abort Dir) α := .error ⟨val, (p.print m).print .notStarted⟩

/-- Something that a call has to give. -/
def need (x : Option α) (val : Nat) (m : Notice) : Except (Abort Dir) α := x.elim (p.preabort val m) .ok

def check (good : Bool) (val : Nat) (m : Notice) : Except (Abort Dir) Unit :=
  if good then .ok () else p.preabort val m

def chdir (there : Option Dir) (val : Nat) (m : Notice) : Except (Abort Dir) (Process Dir) :=
  (p.need there val m).map fun cwd => { p with cwd := cwd }

end Process

section Start

variable {Dir : Type} (files : Files Dir) (ids : Ids) (s : Settings)

def printGreeting (p : Process Dir) : Process Dir :=
  p.print ((files.getcwd p.cwd).elim .unknownCwd .saving)

/-- Nobody else changes a file or a directory meanwhile. -/
def preflight (p : Process Dir) : Except (Abort Dir) (Process Dir) := do
  let p := if s.optQuiet = 0 then p.rzhdir.elim p fun dir => p.print (.overriding dir) else p
  let buf ← p.need (files.getcwd p.cwd) 24 .noCwd
  let p ← s.downloadDir.elim (.ok p) fun dir => p.chdir (files.chdir p.cwd dir) 25 (.noCd dir)
  let var ← p.need (files.getcwd p.cwd) 26 .noDldir
  p.check (files.setenv var) 39 (.noSetenv var)
  let p := { p with rzhdir := some var }
  -- check the destination directory
  let st ← p.need (files.stat p.cwd var) 49 (.noStat var)
  let p := p.warn (st.mode &&& sIfdir == 0) (.noDirectory var)
  let p := p.warn (!iHavePermission ids st canWrite) (.noWrite var)
  -- check the rz executable
  let st ← p.need (s.rzcmd.path.bind (files.stat p.cwd)) 70 (.noRz s.rzcmd.path)
  p.check (st.mode &&& sIfmt == sIfreg) 71 (.irregular s.rzcmd.path)
  p.check (iHavePermission ids st canRead) 72 (.unreadable s.rzcmd.path)
  p.check (iHavePermission ids st canExecute) 73 (.unexecutable s.rzcmd.path)
  let p := if s.optQuiet = 0 then printGreeting files p else p
  s.downloadDir.elim (.ok p) fun _ => p.chdir (files.chdir p.cwd buf) 27 (.noReturn buf)

/-- What it returns, and where the process is then. -/
def chdirToDldir (p : Process Dir) : Int × Process Dir :=
  s.downloadDir.elim (0, p) fun dir =>
    (files.chdir p.cwd dir).elim (-1, p.print (.noChdir dir)) fun cwd => (0, { p with cwd := cwd })

end Start

def defaultRzCommand : List UInt8 := ascii "/usr/bin/rz"

/-- What is allocated between preflight() and the loop. -/
inductive Alloc where
  | masterPipe
  | ring (size : Int32)
  | taskSpec
  | zscan
  | taskState
  deriving DecidableEq, Repr

/-- What master_setup() and task_install() get from the system: the master side of the terminal, a process for the
shell, and memory. -/
structure SetupCalls where
  openpty : Option Nat
  fork : Bool
  malloc : Alloc → Bool

/-- What goes wrong there. -/
inductive SetupFailure where
  | noPty
  | noFork
  | noMemory (a : Alloc)
  | noPlace (fd : Nat)
  | overrun (fd : Nat)
  deriving DecidableEq, Repr

def Alloc.code : Alloc → Nat
  | masterPipe => 49
  | ring _ => 99
  | taskSpec => 45
  | zscan => 55
  | taskState => 42

/-- What bail() is called with; without a terminal or a shell rzh sends SIGTERM to its own process group first. -/
def SetupFailure.code : SetupFailure → Option Nat
  | noPty => none
  | noFork => none
  | noMemory a => some a.code
  | noPlace _ => some 77
  | overrun _ => none

/-- The way main() ends before its loop; without a connection the exit status is 2. -/
inductive Ending (Dir : Type) where
  | args (stop : Stop)
  | noConnection (addr : SocketAddr)
  | abort (a : Abort Dir)
  | setup (failure : SetupFailure)

/-- What main() goes into its loop with. -/
structure AtLoop (Dir : Type) where
  settings : Settings
  connFd : Option Nat
  process : Process Dir
  masterFd : Nat

/-- The options, and rz if they do not name another command. -/
def mainSettings (env : Surroundings) (opts : List Opt) (args : List (List UInt8)) : Except Stop Settings := do
  let s ← processArgs env opts args defaultSettings
  if s.rzcmd.path = none then
    ((cmdParse env.memory s.rzcmd defaultRzCommand).map fun cmd => { s with rzcmd := cmd }).mapError .fault
  else .ok s

def mainConnect {Dir : Type} (connectFd : SocketAddr → Option Nat) (s : Settings) :
    Except (Ending Dir) (Option Nat) :=
  if 0 < s.connAddr.port then (connectFd s.connAddr).elim (.error (.noConnection s.connAddr)) fun fd => .ok (some fd)
  else .ok none

namespace SetupCalls

variable (sys : SetupCalls)

def alloc (a : Alloc) : Except SetupFailure Unit := if sys.malloc a then .ok () else .error (.noMemory a)

def bgioStart : Except SetupFailure Nat :=
  sys.openpty.elim (.error .noPty) fun fd => if sys.fork then .ok fd else .error .noFork

/-- pipe_atom_init while `taken` are in the registry. -/
def addAtom (taken : List Nat) (fd : Nat) : Except SetupFailure Unit :=
  if fdSetsize < fd then .error (.noPlace fd)
  -- io_add lets this one pass and stores it behind the end of connections[]
  else if fd = fdSetsize then .error (.overrun fd)
  else if fd ∈ taken then .error (.noPlace fd)
  else .ok ()

/-- From master_setup() to the installation of the echo task, which has stdin and stdout. -/
def mainSetup (s : Settings) (connFd : Option Nat) : Except SetupFailure Nat := do
  let fd ← connFd.elim sys.bgioStart .ok
  sys.alloc .masterPipe
  addAtom [] fd
  sys.alloc (.ring s.inmaFifoSize)
  sys.alloc (.ring s.maouFifoSize)
  sys.alloc .taskSpec
  sys.alloc .zscan
  sys.alloc .taskState
  addAtom [fd] 0
  addAtom [fd, 0] 1
  .ok fd

end SetupCalls

def mainStart {Dir : Type} (env : Surroundings) (connectFd : SocketAddr → Option Nat) (files : Files Dir) (ids : Ids)
    (sys : SetupCalls) (cwd : Dir) (opts : List Opt) (args : List (List UInt8)) :
    Except (Ending Dir) (AtLoop Dir) := do
  let s ← (mainSettings env opts args).mapError .args
  let connFd ← mainConnect connectFd s
  let p ← (preflight files ids s ⟨cwd, env.getenv, []⟩).mapError .abort
  let fd ← (sys.mainSetup s connFd).mapError .setup
  .ok ⟨s, connFd, p, fd⟩

/-- The connection, or the terminal with its shell. -/
def SetupCalls.Gives (sys : SetupCalls) (connFd : Option Nat) (fd : Nat) : Prop :=
  connFd = some fd ∨ connFd = none ∧ sys.openpty = some fd ∧ sys.fork = true

def allocations (s : Settings) : List Alloc :=
  [.masterPipe, .ring s.inmaFifoSize, .ring s.maouFifoSize, .taskSpec, .zscan, .taskState]

/-- What the setup takes: the connection, or a terminal and a shell on it; memory for everything; and a number
that is in the range of select() and neither stdin nor stdout. -/
structure Equipped (sys : SetupCalls) (s : Settings) (connFd : Option Nat) (fd : Nat) : Prop where
  gives : sys.Gives connFd fd
  malloc : ∀ a ∈ allocations s, sys.malloc a = true
  place : 1 < fd ∧ fd < fdSetsize

/-- What has gone wrong really has. -/
inductive SetupFails (sys : SetupCalls) (s : Settings) (connFd : Option Nat) : SetupFailure → Prop where
  | noPty (hconn : connFd = none) (h : sys.openpty = none) : SetupFails sys s connFd .noPty
  | noFork (hconn : connFd = none) (h : sys.fork = false) : SetupFails sys s connFd .noFork
  | noMemory {a : Alloc} (ha : a ∈ allocations s) (h : sys.malloc a = false) : SetupFails sys s connFd (.noMemory a)
  | tooLarge {fd : Nat} (hgives : sys.Gives connFd fd) (h : fdSetsize < fd) : SetupFails sys s connFd (.noPlace fd)
  | taken {fd : Nat} (hgives : sys.Gives connFd fd) (h : fd ≤ 1) : SetupFails sys s connFd (.noPlace fd)
  | overrun {fd : Nat} (hgives : sys.Gives connFd fd) (h : fd = fdSetsize) : SetupFails sys s connFd (.overrun fd)

/-- What has to be so for rzh to start: the download directory can be found and left again, and the rz executable
is there when it is looked for from the download directory. -/
structure Sane {Dir : Type} (files : Files Dir) (ids : Ids) (s : Settings) (cwd dir : Dir) (path : List UInt8) :
    Prop where
  leads : s.downloadDir.elim (some cwd) (files.chdir cwd) = some dir
  back : ∃ buf, files.getcwd cwd = some buf ∧ (s.downloadDir ≠ none → files.chdir dir buf ≠ none)
  named : files.getcwd dir = some path
  setenv : files.setenv path = true
  stat : files.stat dir path ≠ none
  rz : ∃ st, s.rzcmd.path.bind (files.stat dir) = some st ∧ st.mode &&& sIfmt = sIfreg ∧
    iHavePermission ids st canRead = true ∧ iHavePermission ids st canExecute = true

/-- An abort says what has gone wrong, and its value is the one for that. -/
def Abort.Named {Dir : Type} (a : Abort Dir) : Prop :=
  ∃ (p : Process Dir) (m : Notice), m.code = some a.val ∧ a.process = (p.print m).print .notStarted

section Setup

variable {sys : SetupCalls} {s : Settings} {connFd : Option Nat} {fd : Nat}

theorem within_alloc {a : Alloc} (ha : a ∈ allocations s) :
    Within (SetupFails sys s connFd) (fun _ => sys.malloc a = true) (sys.alloc a) := by
  rw [SetupCalls.alloc]
  split
  · next h => exact h
  · next h => exact .noMemory ha (Bool.eq_false_of_not_eq_true h)

/-- Something to read and write, or no terminal or no shell. -/
theorem within_gives :
    Within (SetupFails sys s connFd) (fun fd => sys.Gives connFd fd) (connFd.elim sys.bgioStart .ok) := by
  cases connFd with
  | some fd => exact .inl rfl
  | none =>
    rw [Option.elim_none, SetupCalls.bgioStart]
    cases hpty : sys.openpty with
    | none => exact .noPty rfl hpty
    | some fd =>
      rw [Option.elim_some]
      split
      · next hfork => exact .inr ⟨rfl, hpty, hfork⟩
      · next hfork => exact .noFork rfl (Bool.eq_false_of_not_eq_true hfork)

/-- Whatever fails in the setup is missing, and with nothing missing there is a master. -/
theorem mainSetup_within :
    Within (SetupFails sys s connFd) (Equipped sys s connFd) (sys.mainSetup s connFd) := by
  rw [SetupCalls.mainSetup]
  refine within_gives.bind fun fd hgives => ?_
  refine (within_alloc (by simp [allocations])).bind fun _ hpipe => ?_
  have hmaster : Within (SetupFails sys s connFd) (fun _ => fd < fdSetsize) (SetupCalls.addAtom [] fd) := by
    rw [SetupCalls.addAtom]
    split
    · next h => exact .tooLarge hgives h
    · split
      · next h => exact .overrun hgives h
      · rw [if_neg List.not_mem_nil]
        change (fd : Int) < fdSetsize
        omega
  refine hmaster.bind fun _ hrange => ?_
  refine (within_alloc (by simp [allocations])).bind fun _ hinma => ?_
  refine (within_alloc (by simp [allocations])).bind fun _ hmaou => ?_
  refine (within_alloc (by simp [allocations])).bind fun _ hspec => ?_
  refine (within_alloc (by simp [allocations])).bind fun _ hzscan => ?_
  refine (within_alloc (by simp [allocations])).bind fun _ hstate => ?_
  have hstdin : Within (SetupFails sys s connFd) (fun _ => fd ≠ 0) (SetupCalls.addAtom [fd] 0) := by
    rw [SetupCalls.addAtom, if_neg (by decide), if_neg (by decide)]
    split
    · next h =>
      obtain rfl := List.mem_singleton.mp h
      exact .taken hgives (Nat.zero_le 1)
    · next h => exact fun he => h (List.mem_singleton.mpr he.symm)
  have hstdout : Within (SetupFails sys s connFd) (fun _ => fd ≠ 1) (SetupCalls.addAtom [fd, 0] 1) := by
    rw [SetupCalls.addAtom, if_neg (by decide), if_neg (by decide)]
    split
    · next h =>
      obtain rfl : 1 = fd := by simpa using h
      exact .taken hgives (Nat.le_refl 1)
    · next h => exact fun he => h (by simp [he])
  refine hstdin.bind fun _ hzero => ?_
  refine hstdout.bind fun _ hone => ?_
  refine ⟨hgives, fun a ha => ?_, by omega, hrange⟩
  simp only [allocations, List.mem_cons, List.not_mem_nil, or_false] at ha
  obtain rfl | rfl | rfl | rfl | rfl | rfl := ha
  all_goals assumption

/-- Nothing else can go wrong. -/
theorem mainSetup_equipped (h : Equipped sys s connFd fd) : sys.mainSetup s connFd = .ok fd := by
  obtain ⟨hgives, hmalloc, hlow, hrange⟩ := h
  have halloc : ∀ a ∈ allocations s, sys.alloc a = .ok () := fun a ha => if_pos (hmalloc a ha)
  have hfd : connFd.elim sys.bgioStart .ok = .ok fd := by
    obtain rfl | ⟨rfl, hpty, hfork⟩ := hgives
    · rfl
    · rw [Option.elim_none, SetupCalls.bgioStart, hpty, Option.elim_some, if_pos hfork]
  have hmaster : SetupCalls.addAtom [] fd = .ok () := by
    rw [SetupCalls.addAtom, if_neg (by omega), if_neg (by omega), if_neg List.not_mem_nil]
  have hstdin : SetupCalls.addAtom [fd] 0 = .ok () := by
    rw [SetupCalls.addAtom, if_neg (by decide), if_neg (by decide), if_neg (by simp; omega)]
  have hstdout : SetupCalls.addAtom [fd, 0] 1 = .ok () := by
    rw [SetupCalls.addAtom, if_neg (by decide), if_neg (by decide), if_neg (by simp; omega)]
  simp only [allocations, List.forall_mem_cons] at halloc
  obtain ⟨hpipe, hinma, hmaou, hspec, hzscan, hstate, -⟩ := halloc
  rw [SetupCalls.mainSetup, hfd]
  simp only [bind, Except.bind, hpipe, hmaster, hinma, hmaou, hspec, hzscan, hstate, hstdin, hstdout]

end Setup

section Preflight

variable {Dir α : Type} {files : Files Dir} {ids : Ids} {s : Settings} {p : Process Dir} {val : Nat} {m : Notice}

theorem within_preabort (P : α → Prop) (h : m.code = some val) :
    Within Abort.Named P (p.preabort val m) := ⟨p, m, h, rfl⟩

theorem within_need {x : Option α} {P : α → Prop} (h : m.code = some val) (hx : ∀ a, x = some a → P a) :
    Within Abort.Named P (p.need x val m) := by
  cases x with
  | none => exact within_preabort P h
  | some a => exact hx a rfl

theorem within_check {good : Bool} {P : Prop} (h : m.code = some val) (hgood : good = true → P) :
    Within Abort.Named (fun _ => P) (p.check good val m) := by
  cases good with
  | false => exact within_preabort _ h
  | true => exact hgood rfl

theorem within_chdir {there : Option Dir} {P : Process Dir → Prop} (h : m.code = some val)
    (hthere : ∀ cwd, there = some cwd → P { p with cwd := cwd }) :
    Within Abort.Named P (p.chdir there val m) := by
  cases there with
  | none => exact within_preabort P h
  | some cwd => exact hthere cwd rfl

@[simp] theorem print_cwd (p : Process Dir) (m : Notice) : (p.print m).cwd = p.cwd := rfl

@[simp] theorem print_rzhdir (p : Process Dir) (m : Notice) : (p.print m).rzhdir = p.rzhdir := rfl

@[simp] theorem warn_cwd (p : Process Dir) (bad : Bool) (m : Notice) : (p.warn bad m).cwd = p.cwd := by
  cases bad <;> rfl

@[simp] theorem warn_rzhdir (p : Process Dir) (bad : Bool) (m : Notice) : (p.warn bad m).rzhdir = p.rzhdir := by
  cases bad <;> rfl

/-- It is given up with a name for what is wrong, or everything is right and rzh is where it was. -/
theorem preflight_within (hnames : files.Names) (p : Process Dir) :
    Within Abort.Named (fun p' => ∃ dir path, Sane files ids s p.cwd dir path ∧ p'.cwd = p.cwd ∧
      p'.rzhdir = some path ∧ (s.optQuiet = 0 → .saving path ∈ p'.printed)) (preflight files ids s p) := by
  rw [preflight]
  have hcwd₁ : (if s.optQuiet = 0 then p.rzhdir.elim p fun dir => p.print (.overriding dir) else p).cwd = p.cwd := by
    cases p.rzhdir <;> split <;> rfl
  generalize (if s.optQuiet = 0 then p.rzhdir.elim p fun dir => p.print (.overriding dir) else p) = p₁ at *
  refine (within_need rfl fun buf hbuf => hbuf).bind fun buf hbuf => ?_
  have hleads : Within Abort.Named (fun p₂ : Process Dir =>
      s.downloadDir.elim (some p.cwd) (files.chdir p.cwd) = some p₂.cwd)
      (s.downloadDir.elim (.ok p₁) fun dir => p₁.chdir (files.chdir p₁.cwd dir) 25 (.noCd dir)) := by
    rw [hcwd₁]
    cases s.downloadDir with
    | none => exact congrArg some hcwd₁.symm
    | some dir => exact within_chdir rfl fun cwd hcwd => hcwd
  refine hleads.bind fun p₂ hleads => ?_
  refine (within_need rfl fun path hpath => hpath).bind fun path hpath => ?_
  refine (within_check rfl id).bind fun _ hsetenv => ?_
  refine (within_need rfl fun st hst => hst).bind fun st hst => ?_
  refine (within_need rfl fun rz hrz => hrz).bind fun rz hrz => ?_
  refine (within_check rfl id).bind fun _ hregular => ?_
  refine (within_check rfl id).bind fun _ hread => ?_
  refine (within_check rfl id).bind fun _ hexecute => ?_
  generalize hwarned : ((⟨p₂.cwd, some path, p₂.printed⟩ : Process Dir).warn (st.mode &&& sIfdir == 0)
    (.noDirectory path)).warn (!iHavePermission ids st canWrite) (.noWrite path) = p₃ at hrz ⊢
  have hcwd₃ : p₃.cwd = p₂.cwd := by rw [← hwarned, warn_cwd, warn_cwd]
  have hrzhdir₃ : p₃.rzhdir = some path := by rw [← hwarned, warn_rzhdir, warn_rzhdir]
  rw [hcwd₃] at hrz
  obtain ⟨p₄, hp₄, hcwd₄, hrzhdir₄, hsaving⟩ : ∃ p₄, (if s.optQuiet = 0 then printGreeting files p₃ else p₃) = p₄ ∧
      p₄.cwd = p₂.cwd ∧ p₄.rzhdir = some path ∧ (s.optQuiet = 0 → .saving path ∈ p₄.printed) := by
    refine ⟨_, rfl, ?_⟩
    by_cases hquiet : s.optQuiet = 0
    · rw [if_pos hquiet, printGreeting, hcwd₃, hpath]
      exact ⟨hcwd₃, hrzhdir₃, fun _ => List.mem_append_right _ List.mem_cons_self⟩
    · rw [if_neg hquiet]
      exact ⟨hcwd₃, hrzhdir₃, fun h => absurd h hquiet⟩
  rw [hp₄]
  rw [hcwd₁] at hbuf
  have hsane : (s.downloadDir ≠ none → files.chdir p₂.cwd buf ≠ none) → Sane files ids s p.cwd p₂.cwd path := by
    intro hback
    refine ⟨hleads, ⟨buf, hbuf, hback⟩, hpath, hsetenv, ?_, rz, hrz, beq_iff_eq.mp hregular, hread, hexecute⟩
    rw [hst]
    exact Option.some_ne_none st
  cases hdir : s.downloadDir with
  | none =>
    rw [hdir] at hleads
    exact ⟨p₂.cwd, path, hsane fun hne => absurd hdir hne, hcwd₄.trans (Option.some.inj hleads).symm, hrzhdir₄,
      hsaving⟩
  | some dir =>
    refine within_chdir rfl fun cwd hcwd => ?_
    rw [hcwd₄] at hcwd
    refine ⟨p₂.cwd, path, hsane fun _ => ?_, hnames p.cwd buf hbuf _ _ hcwd, hrzhdir₄, hsaving⟩
    rw [hcwd]
    exact Option.some_ne_none cwd

/-- Nothing else can go wrong. -/
theorem preflight_starts {dir : Dir} {path : List UInt8} (h : Sane files ids s p.cwd dir path) :
    ∃ p', preflight files ids s p = .ok p' := by
  obtain ⟨hleads, ⟨buf, hbuf, hback⟩, hpath, hsetenv, hstat, rz, hrz, hregular, hread, hexecute⟩ := h
  obtain ⟨st, hst⟩ := Option.ne_none_iff_exists'.mp hstat
  have hfirst (p₁ : Process Dir) (hcwd₁ : p₁.cwd = p.cwd) : ∃ p₂ : Process Dir, p₂.cwd = dir ∧
      (s.downloadDir.elim (.ok p₁) fun dir => p₁.chdir (files.chdir p.cwd dir) 25 (.noCd dir)) = .ok p₂ := by
    cases hdir : s.downloadDir with
    | none =>
      rw [hdir] at hleads
      exact ⟨p₁, hcwd₁.trans (Option.some.inj hleads), rfl⟩
    | some name =>
      rw [hdir, Option.elim_some] at hleads
      rw [Option.elim_some, hleads]
      exact ⟨_, rfl, rfl⟩
  have hlast (p₄ : Process Dir) (hcwd₄ : p₄.cwd = dir) : ∃ p',
      (s.downloadDir.elim (.ok p₄) fun _ => p₄.chdir (files.chdir p₄.cwd buf) 27 (.noReturn buf)) = .ok p' := by
    cases hdir : s.downloadDir with
    | none => exact ⟨p₄, rfl⟩
    | some name =>
      obtain ⟨cwd, hcwd⟩ := Option.ne_none_iff_exists'.mp (hback (by rw [hdir]; exact Option.some_ne_none name))
      rw [Option.elim_some, hcwd₄, hcwd]
      exact ⟨_, rfl⟩
  rw [preflight]
  have hcwd₁ : (if s.optQuiet = 0 then p.rzhdir.elim p fun dir => p.print (.overriding dir) else p).cwd = p.cwd := by
    cases p.rzhdir <;> split <;> rfl
  generalize (if s.optQuiet = 0 then p.rzhdir.elim p fun dir => p.print (.overriding dir) else p) = p₁ at *
  obtain ⟨p₂, rfl, hp₂⟩ := hfirst p₁ hcwd₁
  simp only [Process.need, Process.check, hcwd₁, hbuf, Option.elim_some, hp₂, hpath, hsetenv, hst, warn_cwd, hrz,
    hregular, beq_self_eq_true, hread, hexecute, if_true, bind, Except.bind]
  apply hlast
  split <;> simp [printGreeting]

end Preflight

/-- What execv() wants: a path, and the name, the other arguments and the NULL. -/
def Command.Whole (cmd : Command) : Prop :=
  ∃ (path : List UInt8) (toks : List (List UInt8)),
    cmd = ⟨some path, some (some (cmdNameFromPath path) :: toks.map some ++ [none])⟩

section MainStart

open Tokens

variable {env : Surroundings} {opts : List Opt} {opt : Opt} {args : List (List UInt8)} {s s' : Settings}

theorem Parsed.whole {cmd : Command} (h : Parsed cmd) (hpath : cmd.path ≠ none) : cmd.Whole := by
  induction h with
  | init => exact absurd rfl hpath
  | @parse memory cmd cmd' str hcmd hparse ih =>
    obtain ⟨toks, hruns⟩ := runs_exist isspace str
    cases toks with
    | nil =>
      rw [cmdParse_blank hruns] at hparse
      obtain rfl := Except.ok.inj hparse
      exact ih hpath
    | cons path toks =>
      rw [cmdParse_tokens hcmd.ends hruns] at hparse
      exact ⟨path, toks, (Except.ok.inj hparse).symm⟩

/-- Only one option touches the command, and it goes by cmd_parse. -/
theorem processOpt_rzcmd (h : processOpt env s opt = .ok s') :
    s'.rzcmd = s.rzcmd ∨ ∃ arg, cmdParse env.memory s.rzcmd arg = .ok s'.rzcmd := by
  cases opt with
  | help => cases h
  | version => cases h
  | unknown => cases h
  | info =>
    rw [processOpt] at h
    cases henv : env.getenv with
    | none =>
      rw [henv] at h
      cases h
    | some dir =>
      rw [henv] at h
      cases h
  | quiet =>
    cases h
    exact .inl rfl
  | debugAttach =>
    cases h
    exact .inl rfl
  | rz arg =>
    rw [processOpt] at h
    cases hcmd : cmdParse env.memory s.rzcmd arg with
    | error e =>
      rw [hcmd] at h
      cases h
    | ok cmd =>
      rw [hcmd] at h
      cases h
      exact .inr ⟨arg, hcmd⟩
  | connect arg =>
    rw [processOpt] at h
    cases hparsed : (ioSocketParse env.gethostbyname arg env.i s.connAddr).1 with
    | some e =>
      simp only [hparsed] at h
      cases h
    | none =>
      simp only [hparsed] at h
      cases h
      exact .inl rfl
  | logFile arg =>
    rw [processOpt] at h
    split at h
    · cases h
      exact .inl rfl
    · cases h
  | logLevel arg =>
    rw [processOpt] at h
    obtain ⟨v, -, -, rfl⟩ := integerOption_ok h
    refine .inl ?_
    simp only [Settings.logSetPriority, Settings.print]
    split <;> split <;> first | rfl | split <;> rfl
  | fifoSize o arg =>
    rw [processOpt] at h
    obtain ⟨v, -, -, rfl⟩ := integerOption_ok h
    refine .inl ?_
    cases o <;> simp only [FifoOption.store, Settings.print] <;> split <;> rfl

theorem processOpts_parsed (hs : Parsed s.rzcmd) (h : processOpts env opts s = .ok s') : Parsed s'.rzcmd := by
  induction opts generalizing s with
  | nil =>
    cases h
    exact hs
  | cons opt opts ih =>
    rw [processOpts] at h
    cases hopt : processOpt env s opt with
    | error e =>
      rw [hopt] at h
      cases h
    | ok s₁ =>
      rw [hopt] at h
      refine ih ?_ h
      obtain heq | ⟨arg, hparse⟩ := processOpt_rzcmd hopt
      · rwa [heq]
      · exact .parse hs hparse

theorem processArgs_parsed (hs : Parsed s.rzcmd) (h : processArgs env opts args s = .ok s') :
    Parsed s'.rzcmd ∧ s'.downloadDir = args.head? := by
  rw [processArgs] at h
  cases hopts : processOpts env opts s with
  | error e =>
    rw [hopts] at h
    cases h
  | ok s₁ =>
    rw [hopts] at h
    simp only [bind, Except.bind] at h
    split at h
    · cases h
    · split at h
      · cases h
      · cases h
        have hparsed := processOpts_parsed hs hopts
        exact ⟨hparsed, rfl⟩

theorem defaultRzCommand_runs : Runs isspace defaultRzCommand [defaultRzCommand] := by
  have hne : defaultRzCommand ≠ [] := by decide +kernel
  have hrun : ∀ c ∈ defaultRzCommand, isspace c = false := by decide +kernel
  have hnil : Runs isspace [] [] := .blank (by simp)
  have h := @Runs.run _ isspace [] defaultRzCommand [] [] (by simp) hne hrun (by simp) hnil
  rwa [List.nil_append, List.append_nil] at h

/-- There is a command whatever the options are, and the arguments that execv() wants. -/
theorem mainSettings_whole (h : mainSettings env opts args = .ok s) :
    s.downloadDir = args.head? ∧ s.rzcmd.Whole := by
  rw [mainSettings] at h
  cases hargs : processArgs env opts args defaultSettings with
  | error e =>
    rw [hargs] at h
    cases h
  | ok s₁ =>
    obtain ⟨hparsed, hdir⟩ := processArgs_parsed .init hargs
    rw [hargs] at h
    simp only [bind, Except.bind] at h
    split at h
    · rw [cmdParse_tokens hparsed.ends defaultRzCommand_runs] at h
      cases h
      exact ⟨hdir, defaultRzCommand, [], rfl⟩
    · next hpath =>
      cases h
      exact ⟨hdir, hparsed.whole hpath⟩

end MainStart

/-- The directory that the files go to, for rzh and all who come of it. -/
structure SavesTo {Dir : Type} (files : Files Dir) (ids : Ids) (start : AtLoop Dir) (cwd dir : Dir)
    (path : List UInt8) : Prop where
  sane : Sane files ids start.settings cwd dir path
  home : start.process.cwd = cwd
  told : start.process.rzhdir = some path
  said : start.settings.optQuiet = 0 → .saving path ∈ start.process.printed
  info : ∀ env opts args, env.getenv = start.process.rzhdir →
    processArgs env (.info :: opts) args defaultSettings = .error (.exit 0 [.downloading path])
  child : ∀ later : Files Dir, (∀ name ∈ start.settings.downloadDir, later.chdir cwd name = files.chdir cwd name) →
    chdirToDldir later start.settings start.process = (0, { start.process with cwd := dir })
  lost : ∀ (later : Files Dir) (name : List UInt8), start.settings.downloadDir = some name →
    later.chdir cwd name = none → chdirToDldir later start.settings start.process =
      (-1, start.process.print (.noChdir name))

section SavesTo

variable {Dir : Type} {files : Files Dir} {ids : Ids} {env : Surroundings} {connectFd : SocketAddr → Option Nat}
  {opts : List Opt} {args : List (List UInt8)} {s : Settings} {connFd : Option Nat} {cwd : Dir} {sys : SetupCalls}

theorem savesTo_of_sane {start : AtLoop Dir} {dir : Dir} {path : List UInt8}
    (hsane : Sane files ids start.settings cwd dir path) (hhome : start.process.cwd = cwd)
    (htold : start.process.rzhdir = some path)
    (hsaid : start.settings.optQuiet = 0 → .saving path ∈ start.process.printed) :
    SavesTo files ids start cwd dir path where
  sane := hsane
  home := hhome
  told := htold
  said := hsaid
  info env opts args hgetenv := by
    rw [htold] at hgetenv
    rw [processArgs, processOpts, processOpt, hgetenv]
    rfl
  child later hlater := by
    have hleads := hsane.leads
    rw [chdirToDldir, hhome]
    cases hdir : start.settings.downloadDir with
    | none =>
      rw [hdir] at hleads
      obtain rfl := Option.some.inj hleads
      rw [Option.elim_none, ← hhome]
    | some name =>
      rw [hdir] at hleads
      rw [Option.elim_some, hlater name hdir, show files.chdir cwd name = some dir from hleads, Option.elim_some]
  lost later name hname hnone := by
    rw [chdirToDldir, hname, hhome, Option.elim_some, hnone, Option.elim_none]

end SavesTo

/-- A root and a directory "d" in it, and /usr/bin/rz. -/
def smallFiles : Files Bool where
  chdir _ path :=
    if path = ascii "d" ∨ path = ascii "/d" then some true else if path = ascii "/" then some false else none
  getcwd inside := some (if inside then ascii "/d" else ascii "/")
  stat _ path := some (if path = defaultRzCommand then ⟨0o100755, 0, 0⟩ else ⟨0o040755, 0, 0⟩)
  setenv _ := true

/-- A terminal, a shell and memory. -/
def plentiful : SetupCalls where
  openpty := some 3
  fork := true
  malloc _ := true

end Rzh
