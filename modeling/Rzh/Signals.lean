import Rzh.Relay
import Rzh.TableRun

/-!
# Who is told to go

The shell is sent a signal when the window changes its size. Besides that nobody but the receive process on the line
ever is: once for each key that cancels the transfer, and by the program itself once at most, where the process's
first ZFIN ends.
-/
namespace Rzh

open Circular Matcher Sys

/-- The processes that have been sent a signal, in order. -/
def killed (calls : List Call) : List Int :=
  calls.filterMap fun
    | .kill pid => some pid
    | _ => none

/-- Between two kernel states these processes have been sent a signal. -/
def Signals (pids : List Int) (k k' : Kernel) : Prop :=
  ∃ calls, k'.trace = k.trace ++ calls ∧ killed calls = pids

/-- A task's child is told so many times, if there is one. -/
def TaskSpec.ordered (spec : TaskSpec) (n : Nat) : List Int :=
  if 0 < spec.childPid then List.replicate n spec.childPid else []

/-- Whether the end scanner of the input comes to the end of its string in this packet. -/
def ended (s : Sys) (packet : List UInt8) : Bool :=
  match (s.fifo .inputMaster).proc, (s.fifo .inputMaster).refcon with
  | some .zfinScan, .zfin a => (scan zfinPattern ((s.zfins a).ref.getD 0) packet).isRight
  | _, _ => false

/-- The keys of what is about to be read from an atom that cancel a transfer. -/
def cancels (s : Sys) (a : AtomRef) : Nat :=
  ((s.kernel.read (s.atoms a).fd 128).1.getD []).countP (· ∈ cancelKeys)

/-- How often a move asks for the end of the topmost task. -/
def Move.asks (s : Sys) : Move → Nat
  | .event (.autoRead .inputMaster) => (ended s (inputPacket s)).toNat
  | .typing a => cancels s a
  | _ => 0

namespace Signals

variable {pids pids' : List Int} {k k' k'' : Kernel} {p : PipeRef} {s s' : Sys} {fd : Int}

theorem of_trace (h : k'.trace = k.trace) : Signals [] k k' := ⟨[], by rw [h, List.append_nil], rfl⟩

theorem refl (k : Kernel) : Signals [] k k := of_trace rfl

theorem trans (h : Signals pids k k') (h' : Signals pids' k' k'') : Signals (pids ++ pids') k k'' := by
  obtain ⟨calls, htrace, hpids⟩ := h
  obtain ⟨calls', htrace', hpids'⟩ := h'
  refine ⟨calls ++ calls', by rw [htrace', htrace, List.append_assoc], ?_⟩
  rw [killed, List.filterMap_append, ← killed, ← killed, hpids, hpids']

/-- What comes behind tells nobody. -/
theorem quiet (h : Signals pids k k') (h' : Signals [] k' k'') : Signals pids k k'' := by
  have hboth := h.trans h'
  rwa [List.append_nil] at hboth

theorem log (k : Kernel) (c : Call) : Signals (killed [c]) k (k.log c) := ⟨[c], rfl, rfl⟩

theorem close (k : Kernel) (fd : Int) : Signals [] k (k.close fd) := log k (.close fd)

theorem closes (k : Kernel) (fds : List Int) : Signals [] k (k.closes fds) := by
  induction fds generalizing k with
  | nil => exact refl k
  | cons fd fds ih => exact (close k fd).quiet (ih (k.close fd))

theorem kills (k : Kernel) (pids : List Int) : Signals pids k (k.kills pids) := by
  induction pids generalizing k with
  | nil => exact refl k
  | cons pid pids ih => exact (log k (.kill pid)).trans (ih (k.log (.kill pid)))

theorem sent {bytes : List UInt8} (h : Sent fd bytes k k') : Signals [] k k' := by
  obtain ⟨chunks, -, htrace⟩ := h.trace
  refine ⟨_, htrace, ?_⟩
  rw [killed, List.filterMap_map]
  exact List.filterMap_eq_nil_iff.mpr fun _ _ => rfl

theorem read (k : Kernel) (fd : Int) (cnt : Nat) : Signals [] k (k.read fd cnt).2 := by
  rw [Kernel.read]
  split
  · exact .of_trace rfl
  · split
    · exact .of_trace rfl
    · exact ⟨_, rfl, rfl⟩
    · exact ⟨_, rfl, rfl⟩

theorem closeAtom (s : Sys) (a : AtomRef) : Signals [] s.kernel (Rzh.closeAtom s a).kernel := by
  obtain ⟨-, -, -, hkernel⟩ := closeAtom_rest s a
  rw [hkernel]
  exact close s.kernel _

theorem stable (p : PipeRef) (k : Kernel) (pids : List Int) : Stable p (fun s => Signals pids k s.kernel) where
  flush {s s' w _ _} hs _ h := by
    obtain ⟨k', hwrote, hkernel⟩ := h.wrote
    obtain he | he := hkernel
    · rw [he]
      exact hs.quiet (sent hwrote.sent)
    · rw [he]
      exact (hs.quiet (sent hwrote.sent)).quiet (close k' _)
  enable hs _ _ := hs
  disable hs _ _ := hs
  block hs _ := hs

theorem newCalls (h : Signals pids s.kernel s'.kernel) : killed (newCalls s s') = pids := by
  obtain ⟨calls, htrace, hpids⟩ := h
  rw [Rzh.newCalls, htrace, List.drop_left, hpids]

end Signals

section Procs

variable {s s' : Sys} {p : PipeRef} {a : Nat} {buf packet : List UInt8} {fd : Int} {top : TaskState}
  {below : List TaskState}

theorem TaskSpec.ordered_add (spec : TaskSpec) (m n : Nat) :
    spec.ordered (m + n) = spec.ordered m ++ spec.ordered n := by
  rw [ordered, ordered, ordered]
  split
  · exact List.replicate_add ..
  · rfl

theorem TaskSpec.ordered_zero (spec : TaskSpec) : spec.ordered 0 = [] := by
  rw [ordered]
  split
  · rfl
  · rfl

/-- The topmost task's child is told once. -/
theorem taskTerminate_signals (htasks : s.tasks = top :: below) :
    ∃ s', taskTerminate s = .ok s' ∧ s'.tasks = s.tasks ∧ Signals (top.spec.ordered 1) s.kernel s'.kernel := by
  rw [taskTerminate, htasks, TaskSpec.ordered]
  simp only
  split
  · exact ⟨_, rfl, rfl, .log s.kernel (.kill top.spec.childPid)⟩
  · exact ⟨s, rfl, htasks, .refl s.kernel⟩

/-- And once more for each key that cancels. -/
theorem parseTyping_signals {refcon : ReadPipe} {keys : List UInt8} (htasks : s.tasks = top :: below)
    (h : parseTyping s refcon keys = .ok s') :
    Signals (top.spec.ordered (keys.countP (· ∈ cancelKeys))) s.kernel s'.kernel := by
  induction keys generalizing s with
  | nil =>
    cases h
    rw [List.countP_nil, TaskSpec.ordered_zero]
    exact .refl _
  | cons c cs ih =>
    unfold parseTyping at h
    split at h
    · next hc =>
      split at h
      · obtain ⟨s₁, hterm, h⟩ := Result.bind_ok h
        obtain ⟨s₂, hterm₂, htasks₂, hsignals⟩ := taskTerminate_signals htasks
        obtain rfl := Except.ok.inj (hterm₂.symm.trans hterm)
        rw [List.countP_cons_of_pos (by simpa using hc), Nat.add_comm, TaskSpec.ordered_add]
        exact hsignals.trans (ih (htasks₂.trans htasks) h)
      · cases h
    · next hc =>
      rw [List.countP_cons_of_neg (by simpa using hc)]
      exact ih htasks h

theorem zfinTerm_signals (htasks : s.tasks = top :: below) (h : zfinTerm s p = .ok s') :
    Signals (top.spec.ordered 1) s.kernel s'.kernel := by
  obtain ⟨x, -, h⟩ := Result.bind_ok h
  obtain ⟨s₁, hterm, h⟩ := Result.bind_ok h
  obtain ⟨s₂, hterm₂, -, hsignals⟩ := taskTerminate_signals htasks
  obtain rfl := Except.ok.inj (hterm₂.symm.trans hterm)
  cases h
  exact hsignals

/-- The end scanner of what the master says tells nobody. -/
theorem EndScanner.quiet (hs : EndScanner p a .zfinNooo s) {proc : FifoProc} (hproc : proc ∈ ZfinFound.zfinNooo.procs)
    (h : callProc s p proc buf fd = .ok s') : s'.kernel = s.kernel := by
  simp only [ZfinFound.procs, List.mem_cons, List.not_mem_nil, or_false] at hproc
  obtain rfl | rfl | rfl := hproc
  · cases hcall : zfinScanCall (s.fifo p) (s.zfins a) buf with
    | error e => simp [callProc, zfinScanProc, hs.state, bind, Except.bind, hcall] at h
    | ok x =>
      obtain ⟨f, state, rest⟩ := x
      obtain ⟨-, hstate, -⟩ := zfinScanCall_leaves hcall
      have hfound : state.found = .zfinNooo := by rw [hstate, hs.found]
      rw [callProc, zfinScanProc_eq hs hcall, hfound] at h
      cases rest with
      | none =>
        cases h
        rfl
      | some rest =>
        have hnooo := zfinNooo_kernel ((setZfin s a state).setFifo p f s.kernel) p rest
        rw [show zfinNooo ((setZfin s a state).setFifo p f s.kernel) p rest = .ok s' from h] at hnooo
        exact hnooo
  · have hnooo := zfinNooo_kernel s p buf
    rw [show zfinNooo s p buf = .ok s' from h] at hnooo
    exact hnooo
  · have hsave := zfinSave_kernel s p buf
    rw [show zfinSave s p buf = .ok s' from h] at hsave
    exact hsave

theorem zscanRemaining_signals (hs : EndScanner p a .zfinNooo s) (h : zscanRemaining s p buf fd = .ok s') :
    Signals [] s.kernel s'.kernel := by
  by_cases hbuf : buf = []
  · rw [zscanRemaining, if_pos hbuf] at h
    cases h
    exact .refl _
  · obtain ⟨sent, f, k, hw, ⟨he, -⟩ | he⟩ := zscanMakeRoom_wrote (s.fifo p) fd buf.length s.kernel
    · obtain ⟨proc, hmem, hproc⟩ := hs.proc
      have hne : proc ≠ .echoScannerFilterProc := by
        rintro rfl
        simp [ZfinFound.procs] at hmem
      rw [zscanRemaining_call hbuf he (hw.proc.trans hproc) hne] at h
      have hkernel := (hs.same (.setFifo s k hw.proc hw.refcon)).quiet hmem h
      rw [hkernel]
      exact .sent hw.sent
    · rw [zscanRemaining, if_neg hbuf, he] at h
      cases h

theorem rztaskInstall_signals (h : rztaskInstall s = .ok s') : Signals [] s.kernel s'.kernel := by
  obtain ⟨⟨⟨infd, outfd, errfd, childPid⟩, s₁⟩, hfork, h⟩ := Result.bind_ok h
  have hinstall := taskInstall_kernel (rzCreateSpec s₁ infd outfd errfd childPid).2
    (rzCreateSpec s₁ infd outfd errfd childPid).1
  rw [show taskInstall (rzCreateSpec s₁ infd outfd errfd childPid).2
    (rzCreateSpec s₁ infd outfd errfd childPid).1 = .ok s' from h] at hinstall
  have hkernel : s'.kernel = s₁.kernel := hinstall
  rw [hkernel]
  rw [forkRzProcess] at hfork
  split at hfork
  · cases hfork
  · cases hfork
  · next chstdin chstdout chstderr pid forks _ =>
    cases hfork
    let k : Kernel := { s.kernel with forks := forks }
    have hk : Signals [] s.kernel k := .of_trace rfl
    exact ((hk.quiet (.close k chstdin.1)).quiet (.close _ chstdout.2)).quiet (.close _ chstderr.2)

theorem echoScannerFilterProc_signals (hwf : s.WF) (hmode : InMode s .echo)
    (h : echoScannerFilterProc s .masterOutput buf fd = .ok s') : Signals [] s.kernel s'.kernel := by
  cases hmode with
  | @echo echo z htasks hecho hin hout hrefcon =>
    by_cases hbuf : buf = []
    · rw [echoScannerFilterProc, if_pos hbuf] at h
      cases h
      exact .refl _
    rw [echoScannerFilterProc, if_neg hbuf, hrefcon] at h
    obtain ⟨halt, f, k, sent, he, hs⟩ | ⟨c, sent, he, hs⟩ :=
      echoScannerCall_sent (s.fifo .masterOutput) (s.zscans z) buf fd s.kernel
    · simp only [he] at h
      cases h
    · simp only [he] at h
      split at h
      · cases h
        exact .sent hs
      · next rest _ =>
        obtain ⟨s₂, hinstall, h⟩ := Result.bind_ok h
        let s₀ : Sys := { s with zscans := Function.update s.zscans z c.conn }
        let s₁ : Sys := { s₀.setFifo .masterOutput c.fifo c.kernel with kernel := c.kernel.log .startProc }
        have hs₀ : Filtered .masterOutput s s₀ := ⟨rfl, Nat.le_refl _, fun _ _ => rfl, rfl, rfl⟩
        have hsize : c.fifo.size = (s.fifo .masterOutput).size := (echoScannerCall_ok hbuf he).1
        have hwf₁ : s₁.WF := ((hs₀.trans (.setFifo s₀ c.kernel hsize)).kernel _).wf hwf
        have htasks₁ : s₁.tasks = [echo] := htasks
        have hstarted : Signals [] s.kernel s₁.kernel := (Signals.sent hs).quiet (.log c.kernel .startProc)
        cases rztaskInstall_mode hwf₁ htasks₁ hecho hinstall with
        | transfer _ _ _ _ hout =>
          exact (hstarted.quiet (rztaskInstall_signals hinstall)).quiet (zscanRemaining_signals hout h)

end Procs

section Moves

variable {s s' s₀ : Sys} {p : PipeRef} {mode : Mode} {top : TaskState} {below : List TaskState} {l : Line} {m : Move}
  {fd cnt : Int}

/-- The end scanner of the input tells the child once, in the packet in which its string is complete. -/
theorem callProc_signals (hmode : InMode s mode) (hcut : Cut l s) (htasks : s.tasks = top :: below)
    {proc : FifoProc} (hproc : (s.fifo .inputMaster).proc = some proc) {packet : List UInt8}
    (h : callProc s .inputMaster proc packet fd = .ok s') :
    Signals (top.spec.ordered (ended s packet).toNat) s.kernel s'.kernel := by
  cases hcut with
  | whole hnone =>
    rw [hproc] at hnone
    cases hnone
  | @looking a hscan hrefcon href =>
    obtain rfl := Option.some.inj (hscan.symm.trans hproc)
    have hended : ended s packet = (scan zfinPattern ((s.zfins a).ref.getD 0) packet).isRight := by
      rw [ended, hscan, hrefcon]
    rw [hended]
    cases hmode with
    | echo _ _ hin =>
      rw [hin] at hscan
      cases hscan
    | @transfer _ _ a' _ _ _ _ hin =>
      obtain rfl := Refcon.zfin.inj (hin.refcon.symm.trans hrefcon)
      obtain ⟨f, k, -, hgoes, hcall⟩ | ⟨f, rest, hends, -, hcall⟩ :=
        zfinScanCall_cases (s.fifo .inputMaster) (s.zfins a') packet href
      · rw [callProc, zfinScanProc_eq hin hcall] at h
        cases h
        rw [hgoes]
        exact (TaskSpec.ordered_zero top.spec).symm ▸ .refl _
      · rw [callProc, zfinScanProc_eq hin hcall, Option.elim_some, hin.found] at h
        rw [hends]
        exact zfinTerm_signals (s := (setZfin s a' (s.zfins a')).setFifo .inputMaster f s.kernel) htasks h
  | past hdrop =>
    obtain rfl := Option.some.inj (hdrop.symm.trans hproc)
    cases h
    rw [ended, hdrop]
    exact (TaskSpec.ordered_zero top.spec).symm ▸ .refl _

theorem fifoRead_signals (hmode : InMode s mode) (hcut : Cut l s) (htasks : s.tasks = top :: below)
    (h : fifoRead s .inputMaster fd = .ok (cnt, s')) :
    Signals (top.spec.ordered (ended s (arriving s .inputMaster fd)).toNat) s.kernel s'.kernel := by
  cases hproc : (s.fifo .inputMaster).proc with
  | none =>
    rw [fifoRead_noProc hproc] at h
    cases h
    rw [ended, hproc]
    exact (TaskSpec.ordered_zero top.spec).symm ▸ .read ..
  | some proc =>
    obtain ⟨k, hk, hcall⟩ := fifoRead_callProc hproc h
    have hsame : SameProcs s { s with kernel := k } := ⟨rfl, fun _ => rfl, fun _ => rfl, fun _ => rfl⟩
    have hrests : Rests s { s with kernel := k } := ⟨rfl, rfl, fun _ _ => rfl⟩
    have hread : Signals [] s.kernel k := hk ▸ .read ..
    exact hread.trans (callProc_signals (hmode.same hsame) (hcut.rests hrests) (s := { s with kernel := k }) htasks
      hproc hcall)

/-- A packet from the master tells nobody. -/
theorem fifoRead_quiet (hwf : s.WF) (hmode : InMode s mode) (h : fifoRead s .masterOutput fd = .ok (cnt, s')) :
    Signals [] s.kernel s'.kernel := by
  have hread : ∀ {k : Kernel}, (s.kernel.read fd (min (fifoAvail (s.fifo .masterOutput)) bufsiz)).2 = k →
      Signals [] s.kernel k := fun hk => hk ▸ .read ..
  have hsame : ∀ k : Kernel, SameProcs s { s with kernel := k } :=
    fun _ => ⟨rfl, fun _ => rfl, fun _ => rfl, fun _ => rfl⟩
  cases mode with
  | echo =>
    have hscanner : (s.fifo .masterOutput).proc = some .echoScannerFilterProc := by
      cases hmode with
      | echo _ _ _ hout => exact hout
    obtain ⟨k, hk, hcall⟩ := fifoRead_callProc hscanner h
    have hwfk : ({ s with kernel := k } : Sys).WF := hwf.of_shape rfl hwf.held
    exact (hread hk).quiet (echoScannerFilterProc_signals hwfk (hmode.same (hsame k)) hcall)
  | transfer =>
    cases hmode with
    | transfer _ _ _ _ hout =>
      obtain ⟨proc, hmem, hproc⟩ := hout.proc
      obtain ⟨k, hk, hcall⟩ := fifoRead_callProc hproc h
      rw [(hout.same (hsame k)).quiet hmem hcall]
      exact hread hk

theorem pipeAutoRead_signals (hwf : s.WF) (hmode : InMode s mode) (hcut : Cut l s) (htasks : s.tasks = top :: below)
    (h : pipeAutoRead s p = .ok s') :
    Signals (top.spec.ordered (Move.asks s (.event (.autoRead p)))) s.kernel s'.kernel := by
  obtain ⟨cnt, r, s₁, s₂, hr, -, hfifo, hclose, hrest⟩ := pipeAutoRead_steps h
  have hread : Signals (top.spec.ordered (Move.asks s (.event (.autoRead p)))) s.kernel s₁.kernel := by
    cases p with
    | inputMaster =>
      have hpacket : inputPacket s = arriving s .inputMaster (s.atoms r).fd := by rw [inputPacket, hr]
      rw [Move.asks, hpacket]
      exact fifoRead_signals hmode hcut htasks hfifo
    | masterOutput =>
      rw [Move.asks, TaskSpec.ordered_zero]
      · exact fifoRead_quiet hwf hmode hfifo
      · simp
      · simp
  have hclosed : Signals (top.spec.ordered (Move.asks s (.event (.autoRead p)))) s.kernel s₂.kernel := by
    obtain rfl | ⟨r', -, rfl⟩ := hclose
    · exact hread
    · exact hread.quiet (.closeAtom s₁ r')
  exact (Signals.stable p s.kernel _).readRest hclosed (pipeAutoReadRest_ok hrest)

theorem pipeWrites_quiet {texts : List (List UInt8)} (h : PipeWrites p texts s s') :
    Signals [] s.kernel s'.kernel := by
  induction h with
  | nil s => exact .refl _
  | @cons text texts total s s₁ s₂ hwrite _ ih =>
    obtain ⟨w, -, -, ⟨-, rfl⟩ | ⟨-, rfl⟩⟩ := pipeWrite_ok hwrite
    · exact (Signals.sent (sent_immediate s p w text).2).quiet ih
    · exact (Signals.sent (sent_immediate s p w text).2).quiet ih

theorem taskRemove_quiet (hwf : s.WF) (h : taskRemove s = .ok s') : Signals [] s.kernel s'.kernel := by
  obtain ⟨task, top, below, s₁, s₂, -, hun, hwrites, rfl⟩ := taskRemove_ok hwf h
  have hkernel : s₁.kernel = s.kernel := by rw [hun.rest]
  have hpoured := pipeWrites_quiet hwrites
  rw [hkernel] at hpoured
  exact hpoured.quiet (.closes _ _)

/-- What one move sends: nothing but what the keys and the end scanner ask for, and only to the child on top. -/
theorem move_signals (hwf : s.WF) (hmode : InMode s mode) (hcut : Cut l s) (htasks : s.tasks = top :: below)
    (hown : m.Own) (h : m.run s = .ok s') : Signals (top.spec.ordered (m.asks s)) s.kernel s'.kernel := by
  have hnone : ∀ {k'}, m.asks s = 0 → Signals [] s.kernel k' → Signals (top.spec.ordered (m.asks s)) s.kernel k' := by
    intro k' hasks hquiet
    rwa [hasks, TaskSpec.ordered_zero]
  cases m with
  | event e =>
    cases e with
    | echoScanner => exact hown.elim
    | install spec => exact hown.elim
    | write p buf => exact hown.elim
    | autoRead p => exact pipeAutoRead_signals hwf hmode hcut htasks h
    | autoWrite p => exact hnone rfl ((Signals.stable p s.kernel []).autoWrite (.refl _) h)
    | remove => exact hnone rfl (taskRemove_quiet hwf h)
  | finalWrite =>
    apply hnone rfl
    obtain ⟨w, -, ⟨rfl, -⟩ | rfl⟩ := finalWrite_ok h
    · exact .refl _
    · obtain ⟨sent, hw, -⟩ := fifoWrite_wrote (s.fifo .inputMaster) (s.atoms w).fd s.kernel
      exact .sent hw.sent
  | typing a =>
    have hread : Signals [] s.kernel (s.kernel.read (s.atoms a).fd 128).2 := .read ..
    rw [Move.run, typingIoProc, if_pos (by simp)] at h
    exact hread.trans (parseTyping_signals (s := { s with kernel := (s.kernel.read (s.atoms a).fd 128).2 }) htasks h)
  | cherr a =>
    apply hnone rfl
    obtain ⟨-, hrest⟩ := cherrProc_ok h
    rw [hrest]
    exact .read ..

end Moves

section Run

variable {s s' s₀ : Sys} {l : Line} {m : Move} {mode : Mode} {masterfd : Int}

/-- The process that was forked last. -/
def lastChild (used : List ForkRes) : Option Nat :=
  match used.getLast? with
  | some (.child _ _ _ pid) => some pid
  | _ => none

/-- The receive process on the line is the one that was forked last. -/
def Latest (s₀ s : Sys) : Prop :=
  ∃ used, s₀.kernel.forks = used ++ s.kernel.forks ∧
    ∀ rz echo, s.tasks = [rz, echo] → ∃ pid : Nat, lastChild used = some pid ∧ rz.spec.childPid = pid

theorem Latest.next (hs : Latest s₀ s) (hmode : InMode s mode) (h : Deals s s') : Latest s₀ s' := by
  obtain ⟨used, hused, hpid⟩ := hs
  cases h with
  | keeps htasks hdoes =>
    have hforks := hdoes.1
    rw [List.drop_zero] at hforks
    refine ⟨used, by rw [hforks, hused], fun rz echo hstack => hpid rz echo ?_⟩
    rw [← htasks, hstack]
  | @begins rz _ chstdin chstdout chstderr pid forks htasks _ hforks hspec hdoes =>
    have hforks' := hdoes.1
    rw [hforks, List.drop_one, List.tail_cons] at hforks'
    refine ⟨used ++ [.child chstdin chstdout chstderr pid], ?_, fun rz' echo hstack => ⟨pid, ?_, ?_⟩⟩
    · rw [hused, hforks, hforks', List.append_assoc, List.singleton_append]
    · rw [lastChild, List.getLast?_append]
      rfl
    · rw [htasks] at hstack
      obtain ⟨rfl, -⟩ := List.cons.inj hstack
      exact hspec.2.2.2
  | ends htasks _ hdoes =>
    have hforks := hdoes.1
    rw [List.drop_zero] at hforks
    refine ⟨used, by rw [hforks, hused], fun rz echo hstack => ?_⟩
    have hdepth := hmode.depth
    rw [htasks, hstack] at hdepth
    cases mode with
    | echo => cases hdepth
    | transfer => cases hdepth

/-- window_resize, but for the terminals' own sizes: the shell is sent SIGWINCH, whatever is going on. -/
def windowResize (stChildPid : Int) (s : Sys) : Sys := { s with kernel := s.kernel.log (.kill stChildPid) }

/-- The states of the program, with what has been said on the line. Between any two moves the window may have been
resized. -/
inductive ResizedRun (stChildPid : Int) (s₀ : Sys) : Line → Sys → Prop where
  | install {s : Sys} (h : step s₀ .echoScanner = .ok s) : ResizedRun stChildPid s₀ ⟨[], [], [], []⟩ s
  | next {l : Line} {s s' : Sys} (run : ResizedRun stChildPid s₀ l s) (m : Move) (hown : m.Own)
    (hcalled : m.Called s) (h : m.run s = .ok s') : ResizedRun stChildPid s₀ (l.next s m s') s'
  | resize {l : Line} {s : Sys} (run : ResizedRun stChildPid s₀ l s) :
    ResizedRun stChildPid s₀ l (windowResize stChildPid s)

/-- What a move goes by, whoever has been sent what so far. -/
structure OnLine (s₀ : Sys) (l : Line) (s : Sys) : Prop where
  wf : s.WF
  mode : ∃ mode, InMode s mode
  cut : Cut l s
  latest : Latest s₀ s
  placed : ∃ masterfd, Placed masterfd s

theorem install_onLine (h₀ : Started s₀) (h : step s₀ .echoScanner = .ok s) : OnLine s₀ ⟨[], [], [], []⟩ s := by
  have hmode := (install_line h₀ h).1
  have hwf := started_wf h₀
  obtain ⟨s₁, masterfd, inma, maou, hinma, hmaou, hinit⟩ := h₀
  refine ⟨move_wf (m := .event .echoScanner) hwf trivial h, ⟨.echo, hmode⟩, .whole hmode.noProc rfl, ?_, masterfd, ?_⟩
  · have hinstall := taskInstall_kernel (echoScannerCreateSpec s₀).2 (echoScannerCreateSpec s₀).1
    rw [show taskInstall (echoScannerCreateSpec s₀).2 (echoScannerCreateSpec s₀).1 = .ok s from h] at hinstall
    have hkernel : s.kernel = s₀.kernel := hinstall
    refine ⟨[], by rw [hkernel, List.nil_append], fun rz echo hstack => ?_⟩
    have hdepth := hmode.depth
    rw [hstack] at hdepth
    cases hdepth
  · exact (lasting_placed masterfd).move (m := .event .echoScanner) hwf (masterPipeInit_placed hinit) trivial h

theorem OnLine.next (hs : OnLine s₀ l s) (hown : m.Own) (hcalled : m.Called s) (h : m.run s = .ok s') :
    OnLine s₀ (l.next s m s') s' := by
  obtain ⟨mode, hmode⟩ := hs.mode
  obtain ⟨masterfd, hplaced⟩ := hs.placed
  exact {
    wf := move_wf hs.wf hcalled h
    mode := (move_turns hs.wf hmode hown h).inMode
    cut := hs.cut.next hs.wf hmode hown h
    latest := hs.latest.next hmode (move_deals hs.wf hplaced hmode hown h)
    placed := ⟨masterfd, (lasting_placed masterfd).move hs.wf hplaced hcalled h⟩ }

theorem OnLine.resize (hs : OnLine s₀ l s) (stChildPid : Int) : OnLine s₀ l (windowResize stChildPid s) := by
  obtain ⟨mode, hmode⟩ := hs.mode
  obtain ⟨masterfd, hplaced⟩ := hs.placed
  exact {
    wf := hs.wf.of_shape rfl hs.wf.held
    mode := ⟨mode, hmode.same ⟨rfl, fun _ => rfl, fun _ => rfl, fun _ => rfl⟩⟩
    cut := hs.cut.rests ⟨rfl, rfl, fun _ _ => rfl⟩
    latest := hs.latest
    placed := ⟨masterfd, (lasting_placed masterfd).untouched hplaced
      ⟨rfl, rfl, rfl, Nat.le_refl _, fun _ => ⟨rfl, rfl⟩, rfl, rfl⟩⟩ }

theorem resizedRun_onLine {stChildPid : Int} (h₀ : Started s₀) (run : ResizedRun stChildPid s₀ l s) :
    OnLine s₀ l s := by
  induction run with
  | install h => exact install_onLine h₀ h
  | next _ m hown hcalled h ih => exact ih.next hown hcalled h
  | resize _ ih => exact ih.resize _

theorem ended_iff (hcut : Cut l s) (packet : List UInt8) (hmode : InMode s .transfer)
    (hstale : ¬ StaleMatch (l.packets ++ [packet])) :
    ended s packet = true ↔ ∃ rest, EndsIn (l.packets ++ [packet]) l.packets.length rest := by
  have hfeed : ∀ rest, EndsIn (l.packets ++ [packet]) l.packets.length rest ↔
      stuckFeed 0 (l.packets ++ [packet]) = some (l.packets.length, rest) := by
    intro rest
    rw [staleMatch_iff, ← (stuckFeed_eq_feed _).1 0 (by decide)] at hstale
    rw [endsIn_iff, hstale]
  simp only [hfeed]
  cases hcut with
  | whole hproc =>
    cases hmode with
    | transfer _ _ _ hin =>
      obtain ⟨proc, -, hproc'⟩ := hin.proc
      rw [hproc] at hproc'
      cases hproc'
  | @looking a hproc hrefcon _ hahead =>
    have hended : ended s packet = (scan zfinPattern ((s.zfins a).ref.getD 0) packet).isRight := by
      rw [ended, hproc, hrefcon]
    have hone := hahead [packet]
    rw [hended, hone, stuckFeed]
    cases hscan : scan zfinPattern ((s.zfins a).ref.getD 0) packet with
    | inl k =>
      cases k with
      | zero => simp [stuckFeed]
      | succ k => simp [stuckFeed]
    | inr rest => simp
  | @past i rest hproc hfound hi =>
    have hended : ended s packet = false := by rw [ended, hproc]
    rw [hended, hfound]
    constructor
    · intro h
      cases h
    · rintro ⟨rest', h⟩
      obtain ⟨rfl, -⟩ := Prod.mk.inj (Option.some.inj h)
      exact absurd hi (Nat.lt_irrefl _)

/-- What the moves of the program ask for: nobody is sent a signal while the echo task is alone, and during a transfer
nobody but the process that was forked for it is, once for each key that cancels, and once where its first ZFIN
ends. -/
structure SignalsBy (s₀ : Sys) (l : Line) (s : Sys) (m : Move) (s' : Sys) : Prop where
  echo : InMode s .echo → killed (newCalls s s') = []
  transfer : InMode s .transfer → ∃ used pid, s₀.kernel.forks = used ++ s.kernel.forks ∧ lastChild used = some pid ∧
    killed (newCalls s s') = if 0 < pid then List.replicate (m.asks s) (pid : Int) else []
  zfin : InMode s .transfer → ¬ StaleMatch (l.packets ++ [inputPacket s]) →
    (ended s (inputPacket s) = true ↔ ∃ rest, EndsIn (l.packets ++ [inputPacket s]) l.packets.length rest)

end Run

end Rzh
