import Rzh.Relay
import Rzh.ZrqPackets

/-!
# When a transfer begins

The echo task listens to the master. It starts a receive process in the packet in which the first start sequence
ends of all that the master has said since the task is alone, and a transfer leaves no trace in its scanner.
-/
namespace Rzh

open Matcher Sys

/-- The packet of a read event of the master, if there is one. -/
def overheard (s : Sys) : Move → List (List UInt8)
  | .event (.autoRead .masterOutput) => if packet s = [] then [] else [packet s]
  | _ => []

/-- The packets of the master since the task on top has taken over. -/
def hearNext (packets : List (List UInt8)) (s : Sys) (m : Move) (s' : Sys) : List (List UInt8) :=
  if s'.tasks.length = s.tasks.length then packets ++ overheard s m else []

/-- The states of the program, with what the master has said to the task on top. -/
inductive MasterRun (s₀ : Sys) : List (List UInt8) → Sys → Prop where
  | install {s : Sys} (h : step s₀ .echoScanner = .ok s) : MasterRun s₀ [] s
  | next {packets : List (List UInt8)} {s s' : Sys} (run : MasterRun s₀ packets s) (m : Move) (hown : m.Own)
    (hcalled : m.Called s) (h : m.run s = .ok s') : MasterRun s₀ (hearNext packets s m s') s'

theorem MasterRun.session {s₀ s : Sys} {packets : List (List UInt8)} (run : MasterRun s₀ packets s) :
    SessionRun s₀ s := by
  induction run with
  | install h => exact .install h
  | next _ m hown hcalled h ih => exact .next ih m hown hcalled h

/-- The scanner has been through these packets, and there has been no start sequence. -/
def Watching (packets : List (List UInt8)) (conn : ZScanState) : Prop :=
  Settled conn ∧ ∃ k, Agrees conn k ∧ ∀ qs, feed startPattern 0 (packets.map marked ++ qs) =
    (feed startPattern k qs).map (Prod.map (· + packets.length) id)

section Scanner

variable {packets : List (List UInt8)} {conn : ZScanState} {buf rest : List UInt8}

theorem Watching.init : Watching [] zscanstateInit := by
  refine ⟨settled_init, 0, agrees_init, fun qs => ?_⟩
  rw [List.map_nil, List.nil_append]
  cases feed startPattern 0 qs with
  | none => rfl
  | some x => rfl

/-- There is no start sequence in the packets so far. -/
theorem Watching.none (h : Watching packets conn) (i : Nat) (rest : List UInt8) : ¬ FirstStart packets i rest := by
  obtain ⟨-, k, -, hfeed⟩ := h
  have hall := hfeed []
  rw [List.append_nil, feed, Option.map_none] at hall
  rw [firstStart_iff, hall]
  exact (Option.some_ne_none _).symm

theorem feed_cons {k k' : Nat} {xs : List (UInt8 × Bool)} (hscan : scan startPattern k xs = .inl k')
    (qs : List (List (UInt8 × Bool))) :
    feed startPattern k (xs :: qs) = (feed startPattern k' qs).map (Prod.map (· + 1) id) := by
  rw [feed, hscan]
  rfl

/-- A packet without the end of one is the next to go by. -/
theorem Watching.packet (h : Watching packets conn) (hbuf : buf ≠ []) (hstart : (zrqScan conn buf).start = .none) :
    Watching (packets ++ [buf]) (zrqScan conn buf).conn := by
  obtain ⟨hs, k, hk, hfeed⟩ := h
  have hsees := zrqScan_sees hs hbuf hk
  have htransparent := zrqScan_transparent_of_settled hs hbuf
  rw [Transparent, hstart] at htransparent
  cases hscan : scan startPattern k (marked buf) with
  | inr r =>
    rw [hscan] at hsees
    obtain ⟨rest, hsome, -⟩ := hsees
    rw [hstart] at hsome
    cases hsome
  | inl k' =>
    rw [hscan] at hsees
    refine ⟨htransparent.2, k', hsees.2, fun qs => ?_⟩
    rw [List.map_append, List.map_singleton, List.append_assoc, List.singleton_append, hfeed, feed_cons hscan,
      Option.map_map, List.length_append]
    congr 1
    funext x
    simp only [Function.comp, Prod.map, List.length_singleton, id]
    rw [Nat.add_assoc, Nat.add_comm 1]

/-- A packet with the end of one: it is the first, and the scanner is as new. -/
theorem Watching.starts (h : Watching packets conn) (hbuf : buf ≠ [])
    (hstart : (zrqScan conn buf).start = some rest) :
    FirstStart (packets ++ [buf]) packets.length rest ∧ (zrqScan conn buf).conn = zscanstateInit := by
  obtain ⟨hs, k, hk, hfeed⟩ := h
  have hsees := zrqScan_sees hs hbuf hk
  have htransparent := zrqScan_transparent_of_settled hs hbuf
  rw [Transparent, hstart] at htransparent
  refine ⟨?_, htransparent.1⟩
  cases hscan : scan startPattern k (marked buf) with
  | inl k' =>
    rw [hscan, Sees, hstart] at hsees
    cases hsees.1
  | inr r =>
    rw [hscan] at hsees
    obtain ⟨rest', hsome, rfl⟩ := hsees
    obtain rfl := Option.some.inj (hstart.symm.trans hsome)
    rw [firstStart_iff, List.map_append, List.map_singleton, hfeed, feed, hscan]
    simp

end Scanner

section Zscans

variable {s s' : Sys} {p : PipeRef} {buf : List UInt8} {fd : Int}

theorem zfinSave_zscans (h : zfinSave s p buf = .ok s') : s'.zscans = s.zscans := by
  rw [zfinSave] at h
  split at h
  · cases h
    rfl
  · obtain ⟨⟨a, state⟩, -, h⟩ := Result.bind_ok h
    cases h
    rfl

theorem zfinNooo_zscans (h : zfinNooo s p buf = .ok s') : s'.zscans = s.zscans := by
  rw [zfinNooo] at h
  split at h
  · cases h
    rfl
  · obtain ⟨⟨a, state⟩, -, h⟩ := Result.bind_ok h
    simp only at h
    split at h
    · cases h
      rfl
    · exact (zfinSave_zscans h :)

theorem zfinTerm_zscans (h : zfinTerm s p = .ok s') : s'.zscans = s.zscans := by
  obtain ⟨x, -, h⟩ := Result.bind_ok h
  obtain ⟨s₁, hterm, h⟩ := Result.bind_ok h
  cases h
  rw [taskTerminate] at hterm
  split at hterm
  · cases hterm
  · split at hterm
    · cases hterm
      rfl
    · cases hterm
      rfl

/-- Only the start scanner moves on a start scanner. -/
theorem callProc_zscans {proc : FifoProc} (hscan : proc ≠ .echoScannerFilterProc)
    (h : callProc s p proc buf fd = .ok s') : s'.zscans = s.zscans := by
  cases proc with
  | echoScannerFilterProc => exact absurd rfl hscan
  | zfinScan =>
    obtain ⟨⟨a, state⟩, -, h⟩ := Result.bind_ok h
    simp only at h
    split at h
    · cases h
    · split at h
      · cases h
        rfl
      · split at h
        · exact (zfinNooo_zscans h :)
        · exact (zfinTerm_zscans h :)
  | zfinNooo => exact zfinNooo_zscans h
  | zfinSave => exact zfinSave_zscans h
  | zfinTerm => exact zfinTerm_zscans h
  | zfinDrop =>
    cases h
    rfl

theorem zscanRemaining_zscans {proc : FifoProc} (hproc : (s.fifo p).proc = some proc)
    (hne : proc ≠ .echoScannerFilterProc) (h : zscanRemaining s p buf fd = .ok s') : s'.zscans = s.zscans := by
  by_cases hbuf : buf = []
  · rw [zscanRemaining, if_pos hbuf] at h
    cases h
    rfl
  · obtain ⟨sent, f, k, hw, ⟨he, -⟩ | he⟩ := zscanMakeRoom_wrote (s.fifo p) fd buf.length s.kernel
    · rw [zscanRemaining_call hbuf he (hw.proc.trans hproc) hne] at h
      exact (callProc_zscans hne h :)
    · rw [zscanRemaining, if_neg hbuf, he] at h
      cases h

/-- A receive process on top of the others. -/
theorem rztaskInstall_rest (hwf : s.WF) (h : rztaskInstall s = .ok s') :
    s'.zscans = s.zscans ∧ ∃ rz, s'.tasks = rz :: s.tasks := by
  obtain ⟨⟨⟨infd, outfd, errfd, pid⟩, s₁⟩, hfork, h⟩ := Result.bind_ok h
  obtain ⟨-, -, k, rfl⟩ := forkRzProcess_ok hfork
  let s₂ : Sys := (rzCreateSpec { s with kernel := k } infd outfd errfd pid).2
  have hs₂ : Filtered .masterOutput s s₂ := ⟨rfl, Nat.le_add_right _ _, fun _ _ => rfl, rfl, rfl⟩
  have hin := taskInstall_ok (hs₂.wf hwf) h
  rw [hin.rest]
  exact ⟨rfl, _, rfl⟩

end Zscans

/-- The start scanner goes by what the echo task has heard; under a transfer it waits as it was made. -/
inductive Watches (packets : List (List UInt8)) (s : Sys) : Prop where
  | echo {echo : TaskState} {z : Nat} (hmode : InMode s .echo) (htasks : s.tasks = [echo])
    (hspec : echo.spec.maoutRefcon = .zscan z) (hrefcon : (s.fifo .masterOutput).refcon = .zscan z)
    (hconn : Watching packets (s.zscans z))
  | transfer {rz echo : TaskState} {z : Nat} (hmode : InMode s .transfer) (htasks : s.tasks = [rz, echo])
    (hspec : echo.spec.maoutRefcon = .zscan z) (hconn : s.zscans z = zscanstateInit)

/-- Nothing has happened to the start scanners, nor to who is on top. -/
structure Undisturbed (s s' : Sys) : Prop where
  tasks : s'.tasks = s.tasks
  refcon : (s'.fifo .masterOutput).refcon = (s.fifo .masterOutput).refcon
  zscans : s'.zscans = s.zscans

/-- What a packet does: it goes by, or it has the end of a start sequence in it. -/
inductive Hears (packets : List (List UInt8)) (buf : List UInt8) (s' : Sys) : Prop where
  | goes (hmode' : InMode s' .echo) (h : Watches (packets ++ if buf = [] then [] else [buf]) s')
  | starts {rest : List UInt8} (hmode' : InMode s' .transfer) (h : Watches [] s')
    (hfirst : FirstStart (packets ++ [buf]) packets.length rest)

section Moves

variable {s s' s₀ : Sys} {p : PipeRef} {mode : Mode} {m : Move} {packets : List (List UInt8)} {buf : List UInt8}
  {fd : Int}

namespace Undisturbed

theorem refl (s : Sys) : Undisturbed s s := ⟨rfl, rfl, rfl⟩

theorem trans {s'' : Sys} (h : Undisturbed s s') (h' : Undisturbed s' s'') : Undisturbed s s'' :=
  ⟨h'.tasks.trans h.tasks, h'.refcon.trans h.refcon, h'.zscans.trans h.zscans⟩

theorem of_same (h : SameProcs s s') (hzscans : s'.zscans = s.zscans) : Undisturbed s s' :=
  ⟨h.tasks, h.refcon _, hzscans⟩

theorem closeAtom (s : Sys) (a : AtomRef) : Undisturbed s (Rzh.closeAtom s a) :=
  of_same (.closeAtom s a) (closeAtom_rest s a).2.1

theorem stable (p : PipeRef) (s₀ : Sys) : Stable p (Undisturbed s₀) where
  flush {s _ _ _ _} hs hw h := hs.trans (of_same ((SameProcs.stable p s).flush (.refl s) hw h) h.zscans)
  enable hs _ _ := hs.trans ⟨rfl, rfl, rfl⟩
  disable hs _ _ := hs.trans ⟨rfl, rfl, rfl⟩
  block {s} hs b := hs.trans (of_same ((SameProcs.stable p s).block (.refl s) b) rfl)

end Undisturbed

theorem Watches.undisturbed (h : Watches packets s) (hmode' : InMode s' mode) (hl : Undisturbed s s') :
    Watches packets s' := by
  cases h with
  | echo hmode htasks hspec hrefcon hconn =>
    have htasks' := hl.tasks.trans htasks
    refine .echo ?_ htasks' hspec (hl.refcon.trans hrefcon) ?_
    · cases hmode' with
      | echo hstack hecho hin hout hrefcon' => exact .echo hstack hecho hin hout hrefcon'
      | transfer hstack =>
        rw [htasks'] at hstack
        cases hstack
    · rw [hl.zscans]
      exact hconn
  | transfer hmode htasks hspec hconn =>
    have htasks' := hl.tasks.trans htasks
    refine .transfer ?_ htasks' hspec ?_
    · cases hmode' with
      | echo hstack =>
        rw [htasks'] at hstack
        cases hstack
      | transfer hstack hrz hecho hin hout => exact .transfer hstack hrz hecho hin hout
    · rw [hl.zscans]
      exact hconn

theorem Hears.same (h : Hears packets buf s) (hsame : SameProcs s s') (hl : Undisturbed s s') :
    Hears packets buf s' := by
  cases h with
  | goes hmode hw => exact .goes (hmode.same hsame) (hw.undisturbed (hmode.same hsame) hl)
  | starts hmode hw hfirst => exact .starts (hmode.same hsame) (hw.undisturbed (hmode.same hsame) hl) hfirst

theorem echoScannerCall_scan {f : Fifo} {conn : ZScanState} {k : Kernel} {c : ZrqCall} (hbuf : buf ≠ [])
    (h : echoScannerCall f conn buf fd k = .ok c) :
    c.conn = (zrqScan conn buf).conn ∧ c.started = (zrqScan conn buf).start := by
  rw [echoScannerCall, if_neg hbuf, zrqScanCall] at h
  cases hstart : (zrqScan conn buf).start with
  | none =>
    simp only [hstart] at h
    cases h
    exact ⟨rfl, rfl⟩
  | some rest =>
    simp only [hstart] at h
    split at h
    · cases h
    · cases h
      exact ⟨rfl, rfl⟩

theorem echoScannerFilterProc_hears (hwf : s.WF) (hmode : InMode s .echo) (hw : Watches packets s)
    (h : echoScannerFilterProc s .masterOutput buf fd = .ok s') : Hears packets buf s' := by
  cases hw with
  | transfer hmode' => cases hmode.unique hmode'
  | @echo echo z _ htasks hspec hrefcon hconn =>
    by_cases hbuf : buf = []
    · rw [echoScannerFilterProc, if_pos hbuf] at h
      cases h
      refine .goes hmode ?_
      rw [if_pos hbuf, List.append_nil]
      exact .echo hmode htasks hspec hrefcon hconn
    have hgoes := (echoScannerFilterProc_mode hwf hmode buf fd).of_ok h
    rw [echoScannerFilterProc, if_neg hbuf, hrefcon] at h
    cases hcall : echoScannerCall (s.fifo .masterOutput) (s.zscans z) buf fd s.kernel with
    | error e =>
      simp only [hcall] at h
      cases h
    | ok c =>
      simp only [hcall] at h
      obtain ⟨hstate, hstart⟩ := echoScannerCall_scan hbuf hcall
      obtain ⟨f', k', he⟩ | ⟨c', he, hproc, hcref, -⟩ :=
        echoScannerCall_same (s.fifo .masterOutput) (s.zscans z) buf fd s.kernel
      · rw [hcall] at he
        cases he
      obtain rfl := Except.ok.inj (hcall.symm.trans he)
      let s₀ : Sys := { s with zscans := Function.update s.zscans z c.conn }
      have hs₀ : SameProcs s s₀ := ⟨rfl, fun _ => rfl, fun _ => rfl, fun _ => rfl⟩
      have hsame := hs₀.trans (.setFifo s₀ c.kernel hproc hcref)
      cases hstarted : c.started with
      | none =>
        rw [hstarted] at h hstart
        cases h
        refine .goes (hmode.same hsame) ?_
        rw [if_neg hbuf]
        refine .echo (hmode.same hsame) htasks hspec ((hsame.refcon _).trans hrefcon) ?_
        change Watching _ (Function.update s.zscans z c.conn z)
        rw [Function.update_self, hstate]
        exact hconn.packet hbuf hstart.symm
      | some rest =>
        rw [hstarted] at h hstart
        obtain ⟨hfirst, hinit⟩ := hconn.starts hbuf hstart.symm
        obtain ⟨s₂, hinstall, h⟩ := Result.bind_ok h
        let s₁ : Sys := { s₀.setFifo .masterOutput c.fifo c.kernel with kernel := c.kernel.log .startProc }
        have hf₀ : Filtered .masterOutput s s₀ := ⟨rfl, Nat.le_refl _, fun _ _ => rfl, rfl, rfl⟩
        have hsize : c.fifo.size = (s.fifo .masterOutput).size := (echoScannerCall_ok hbuf hcall).1
        have hwf₁ : s₁.WF := ((hf₀.trans (.setFifo s₀ c.kernel hsize)).kernel _).wf hwf
        obtain ⟨hzscans₂, rz, htasks₂⟩ := rztaskInstall_rest hwf₁ hinstall
        have hscan := (rztaskInstall_fifo hwf₁ .masterOutput hinstall).2.1
        have hzscans : s'.zscans = s₁.zscans := (zscanRemaining_zscans hscan (by decide) h).trans hzscans₂
        have htasks' : s'.tasks = [rz, echo] := by
          rw [(zscanRemaining_ok h).tasks, htasks₂]
          exact congrArg (rz :: ·) htasks
        have hmode' : InMode s' .transfer := by
          obtain hecho | ⟨-, -, ht⟩ := hgoes
          · cases hecho with
            | echo htasks'' =>
              rw [htasks'] at htasks''
              cases htasks''
          · exact ht.2
        refine .starts hmode' (.transfer hmode' htasks' hspec ?_) hfirst
        rw [hzscans]
        change Function.update s.zscans z c.conn z = _
        rw [Function.update_self, hstate, hinit]

/-- A read event of the master while the echo task is alone. -/
theorem autoRead_hears (hwf : s.WF) (hmode : InMode s .echo) (hw : Watches packets s)
    (h : pipeAutoRead s .masterOutput = .ok s') : Hears packets (packet s) s' := by
  obtain ⟨cnt, r, s₁, s₂, hr, -, hfifo, hclose, hrest⟩ := pipeAutoRead_steps h
  obtain rfl := Option.some.inj (hwf.masterOut.symm.trans hr)
  have hscanner : (s.fifo .masterOutput).proc = some .echoScannerFilterProc := by
    cases hmode with
    | echo _ _ _ hout => exact hout
  obtain ⟨k, -, hcall⟩ := fifoRead_callProc hscanner hfifo
  have hsamek : SameProcs s { s with kernel := k } := ⟨rfl, fun _ => rfl, fun _ => rfl, fun _ => rfl⟩
  have hwfk : ({ s with kernel := k } : Sys).WF := hwf.of_shape rfl hwf.held
  have hheard : Hears packets (packet s) s₁ :=
    echoScannerFilterProc_hears hwfk (hmode.same hsamek) (hw.undisturbed (hmode.same hsamek) ⟨rfl, rfl, rfl⟩) hcall
  have hclosed : SameProcs s₁ s₂ ∧ Undisturbed s₁ s₂ := by
    obtain rfl | ⟨r', -, rfl⟩ := hclose
    · exact ⟨.refl _, .refl _⟩
    · exact ⟨.closeAtom s₁ r', .closeAtom s₁ r'⟩
  exact hheard.same ((SameProcs.stable .masterOutput s₁).readRest hclosed.1 (pipeAutoReadRest_ok hrest))
    ((Undisturbed.stable .masterOutput s₁).readRest hclosed.2 (pipeAutoReadRest_ok hrest))

/-- An end scanner leaves the start scanner alone. -/
theorem EndScanner.undisturbed {a : Nat} {found : ZfinFound} (hs : EndScanner p a found s) (htasks : s.tasks ≠ [])
    {cnt : Int} (h : fifoRead s p fd = .ok (cnt, s')) : Undisturbed s s' := by
  obtain ⟨proc, hmem, hproc⟩ := hs.proc
  have hscan : proc ≠ .echoScannerFilterProc := by
    rintro rfl
    cases found <;> simp [ZfinFound.procs] at hmem
  obtain ⟨k, -, hcall⟩ := fifoRead_callProc hproc h
  have hsk : EndScanner p a found { s with kernel := k } := hs.same ⟨rfl, fun _ => rfl, fun _ => rfl, fun _ => rfl⟩
  obtain ⟨s₁, hs₁, hscans⟩ := hsk.call htasks hmem (arriving s p fd) fd
  obtain rfl := Except.ok.inj (hs₁.symm.trans hcall)
  exact ⟨hscans.tasks, hscans.refcon _, (callProc_zscans hscan hcall :)⟩

/-- So does every other read event. -/
theorem autoRead_undisturbed (hmode : InMode s mode) (hread : mode = .echo → p ≠ .masterOutput)
    (h : pipeAutoRead s p = .ok s') : Undisturbed s s' := by
  obtain ⟨cnt, r, s₁, s₂, -, -, hfifo, hclose, hrest⟩ := pipeAutoRead_steps h
  have hquiet : Undisturbed s s₁ := by
    cases hmode with
    | echo htasks hecho hin =>
      cases p with
      | inputMaster =>
        rw [fifoRead_noProc hin] at hfifo
        cases hfifo
        refine ⟨rfl, ?_, rfl⟩
        rw [fifo_eq (setFifo_ne s _ _ (by decide))]
      | masterOutput => exact absurd rfl (hread rfl)
    | transfer htasks hrz hecho hin hout =>
      have hne : s.tasks ≠ [] := by
        rw [htasks]
        exact List.cons_ne_nil _ _
      cases p with
      | inputMaster => exact hin.undisturbed hne hfifo
      | masterOutput => exact hout.undisturbed hne hfifo
  have hclosed : Undisturbed s s₂ := by
    obtain rfl | ⟨r', -, rfl⟩ := hclose
    · exact hquiet
    · exact hquiet.trans (.closeAtom s₁ r')
  exact (Undisturbed.stable p s).readRest hclosed (pipeAutoReadRest_ok hrest)

theorem move_undisturbed (hmode : InMode s mode) (hown : m.Own)
    (hread : mode = .echo → m ≠ .event (.autoRead .masterOutput)) (hremove : m ≠ .event .remove)
    (h : m.run s = .ok s') : Undisturbed s s' := by
  cases m with
  | event e =>
    cases e with
    | echoScanner => exact hown.elim
    | install spec => exact hown.elim
    | write p buf => exact hown.elim
    | autoRead p =>
      refine autoRead_undisturbed hmode (fun hecho hp => ?_) h
      subst hp
      exact hread hecho rfl
    | autoWrite p => exact (Undisturbed.stable p s).autoWrite (.refl s) h
    | remove => exact absurd rfl hremove
  | finalWrite =>
    obtain ⟨w, -, ⟨rfl, -⟩ | rfl⟩ := finalWrite_ok h
    · exact .refl _
    · obtain ⟨sent, hw, -⟩ := fifoWrite_wrote (s.fifo .inputMaster) (s.atoms w).fd s.kernel
      exact .of_same (.setFifo s _ hw.proc hw.refcon) rfl
  | typing a =>
    obtain ⟨pids, rfl⟩ := typingIoProc_ok h
    exact ⟨rfl, rfl, rfl⟩
  | cherr a =>
    obtain ⟨-, hrest⟩ := cherrProc_ok h
    rw [hrest]
    exact ⟨rfl, rfl, rfl⟩

/-- The echo task gets its scanner back as it was. -/
theorem taskRemove_watches (hwf : s.WF) (hmode : InMode s .transfer) (hw : Watches packets s)
    (h : taskRemove s = .ok s') : Watches [] s' := by
  cases hw with
  | echo hmode' => cases hmode.unique hmode'
  | @transfer rz echo z _ htasks hspec hconn =>
    have hmode' := ((taskRemove_mode hwf hmode).of_ok h).2
    obtain ⟨task, top, below, s₁, s₂, htasks', hun, hwrites, rfl⟩ := taskRemove_ok hwf h
    obtain ⟨rfl, htail⟩ := List.cons.inj (htasks'.symm.trans htasks)
    obtain ⟨rfl, rfl⟩ := List.cons.inj htail
    have hw : (s₁.pipes .masterOutput).writeAtom = some (.write top.addr) := by rw [hun.masterOutput]
    have hpoured := pipeWrites_poured hwrites hw
    have hstack : s₂.tasks = [top] := by rw [hpoured.tasks, hun.rest]
    have hrefcon : (s₂.fifo .masterOutput).refcon = .zscan z := by
      rw [(pipeWrites_procs hwrites .masterOutput).2, Sys.fifo, hun.masterOutput]
      exact hspec
    have hzscans : s₂.zscans = s.zscans := by
      rw [hpoured.rest, hun.rest]
    refine .echo hmode' hstack hspec hrefcon ?_
    change Watching [] (s₂.zscans z)
    rw [hzscans, hconn]
    exact .init

end Moves

section Run

variable {s s' s₀ : Sys} {mode : Mode} {m : Move} {packets : List (List UInt8)}

theorem overheard_other (hm : m ≠ .event (.autoRead .masterOutput)) : overheard s m = [] := by
  rw [overheard]
  intro he
  exact absurd he hm

/-- Where the same tasks go on the packets add up. -/
theorem hearNext_same (h : InMode s mode) (h' : InMode s' mode) :
    hearNext packets s m s' = packets ++ overheard s m := by
  rw [hearNext, if_pos (by rw [h'.depth, h.depth])]

theorem Watches.transfer_any (h : Watches packets s) (hmode : InMode s .transfer) (packets' : List (List UInt8)) :
    Watches packets' s := by
  cases h with
  | echo hecho => cases hmode.unique hecho
  | transfer hmode htasks hspec hconn => exact .transfer hmode htasks hspec hconn

/-- As long as the echo task is alone it has not heard a start sequence. -/
theorem Watches.none (h : Watches packets s) (hmode : InMode s .echo) (i : Nat) (rest : List UInt8) :
    ¬ FirstStart packets i rest := by
  cases h with
  | echo _ _ _ _ hconn => exact hconn.none i rest
  | transfer htransfer => cases hmode.unique htransfer

theorem FirstStart.nonempty {p rest : List UInt8} (h : FirstStart (packets ++ [p]) packets.length rest) : p ≠ [] := by
  obtain ⟨A, u, B, -, -, -, -, hps, hlength, hu, -⟩ := h.1
  obtain ⟨-, htail⟩ := List.append_inj hps hlength.symm
  rw [(List.cons.inj htail).1]
  exact List.append_ne_nil_of_left_ne_nil hu rest

/-- In the packet that is about to be read the first start sequence ends. -/
def LastOfStart (packets : List (List UInt8)) (s : Sys) : Prop :=
  ∃ rest, FirstStart (packets ++ [packet s]) packets.length rest

/-- The start scanner sees it, and sees nothing else. -/
theorem Watches.startsTask_iff (hw : Watches packets s) (hmode : InMode s .echo) :
    StartsTask s .masterOutput (packet s) ↔ LastOfStart packets s := by
  cases hw with
  | transfer htransfer => cases hmode.unique htransfer
  | @echo echo z _ htasks hspec hrefcon hconn =>
    constructor
    · rintro ⟨hbuf, -, addr, haddr, hstart⟩
      obtain rfl := Refcon.zscan.inj (haddr.symm.trans hrefcon)
      obtain ⟨rest, hrest⟩ := Option.ne_none_iff_exists'.mp hstart
      exact ⟨rest, (hconn.starts hbuf hrest).1⟩
    · rintro ⟨rest, hfirst⟩
      have hproc : (s.fifo .masterOutput).proc = some .echoScannerFilterProc := by
        cases hmode with
        | echo _ _ _ hout => exact hout
      refine ⟨hfirst.nonempty, hproc, z, hrefcon, fun hnone => ?_⟩
      exact (hconn.packet hfirst.nonempty hnone).none _ _ hfirst

/-- A read event of the master, while the echo task is alone. -/
theorem Watches.next_read (hwf : s.WF) (hmode : InMode s .echo) (hw : Watches packets s)
    (h : pipeAutoRead s .masterOutput = .ok s') :
    Watches (hearNext packets s (.event (.autoRead .masterOutput)) s') s' ∧
      (InMode s' .transfer ↔ LastOfStart packets s) := by
  cases autoRead_hears hwf hmode hw h with
  | goes hmode' hw' =>
    rw [hearNext_same hmode hmode']
    refine ⟨hw', fun ht => ?_, fun hfirst => ?_⟩
    · cases ht.unique hmode'
    · obtain ⟨rest, hfirst⟩ := hfirst
      rw [if_neg hfirst.nonempty] at hw'
      exact absurd hfirst (hw'.none hmode' _ _)
  | starts hmode' hw' hfirst => exact ⟨hw'.transfer_any hmode' _, fun _ => ⟨_, hfirst⟩, fun _ => hmode'⟩

/-- Any other move. -/
theorem Watches.next_other (hwf : s.WF) (hmode : InMode s mode) (hw : Watches packets s) (hown : m.Own)
    (hread : mode = .echo → m ≠ .event (.autoRead .masterOutput)) (h : m.run s = .ok s') :
    Watches (hearNext packets s m s') s' ∧ (mode = .echo → ¬ InMode s' .transfer) := by
  cases move_turns hwf hmode hown h with
  | @same mode' hs hs' =>
    obtain rfl := hmode.unique hs
    have hremove : m ≠ .event .remove := by
      rintro rfl
      obtain ⟨rfl, hecho⟩ := (taskRemove_mode hwf hs).of_ok h
      cases hs'.unique hecho
    have hw' := hw.undisturbed hs' (move_undisturbed hs hown hread hremove h)
    rw [hearNext_same hs hs']
    cases mode' with
    | echo =>
      rw [overheard_other (hread rfl), List.append_nil]
      refine ⟨hw', fun _ ht => ?_⟩
      cases ht.unique hs'
    | transfer =>
      refine ⟨hw'.transfer_any hs' _, fun hecho => ?_⟩
      cases hecho
  | begins hs hm =>
    obtain rfl := hmode.unique hs
    exact absurd hm (hread rfl)
  | ends hs hm hs' =>
    subst hm
    obtain rfl := hmode.unique hs
    have hturn : hearNext packets s (.event .remove) s' = [] := by
      rw [hearNext, if_neg]
      rw [hs'.depth, hs.depth]
      decide
    rw [hturn]
    refine ⟨taskRemove_watches hwf hs hw h, fun hecho => ?_⟩
    cases hecho

theorem install_watches (h₀ : Started s₀) (h : step s₀ .echoScanner = .ok s) : Watches [] s := by
  have hmode := (install_line h₀ h).1
  have hwf := started_wf h₀
  obtain ⟨s₁, masterfd, inma, maou, hinma, hmaou, hinit⟩ := h₀
  have hspec := echoScannerCreateSpec_filtered s₀ .masterOutput
  have hin : Installed (echoScannerCreateSpec s₀).1 (echoScannerCreateSpec s₀).2 s :=
    taskInstall_ok (hspec.wf hwf) h
  have htasks : s.tasks = [⟨(echoScannerCreateSpec s₀).2.fresh, (echoScannerCreateSpec s₀).1⟩] := by
    rw [hin.rest]
    exact congrArg (List.cons _) (masterPipeInit_ok hinit).1
  have hrefcon : (s.fifo .masterOutput).refcon = .zscan (s₀.fresh + 1) := by
    rw [Sys.fifo, hin.masterOutput]
    rfl
  have hzscan : s.zscans (s₀.fresh + 1) = zscanstateInit := by
    rw [hin.rest]
    exact Function.update_self ..
  refine .echo hmode htasks rfl hrefcon ?_
  rw [hzscan]
  exact .init

theorem masterRun_watches (h₀ : Started s₀) (run : MasterRun s₀ packets s) : Watches packets s := by
  induction run with
  | install h => exact install_watches h₀ h
  | @next packets s s' run m hown hcalled h ih =>
    obtain ⟨mode, hmode⟩ := sessionRun_inMode h₀ run.session
    have hwf := programRun_wf h₀ run.session.program
    by_cases hread : mode = .echo ∧ m = .event (.autoRead .masterOutput)
    · obtain ⟨rfl, rfl⟩ := hread
      exact (ih.next_read hwf hmode h).1
    · exact (ih.next_other hwf hmode hown (fun hecho hm => hread ⟨hecho, hm⟩) h).1

/-- A master that says the start sequence in two packets. -/
def hesitant (forks : List ForkRes) : Kernel where
  reads := [.data chStar [chStar, chCan], .data chB [ch0, ch0]]
  writes := []
  forks := forks
  errno := none
  trace := []

/-- Between the two. -/
theorem masterRun_hesitates {forks : List ForkRes} {s₀ s₁ s : Sys} (h₀ : launch (hesitant forks) = .ok s₀)
    (h₁ : step s₀ .echoScanner = .ok s₁) (h : (Move.event (.autoRead .masterOutput)).run s₁ = .ok s)
    (hlength : s.tasks.length = 1) :
    Started s₀ ∧ MasterRun s₀ (hearNext [] s₁ (.event (.autoRead .masterOutput)) s) s ∧ InMode s .echo := by
  have hstarted := (launch_ok h₀).1
  have hrun := (MasterRun.install h₁).next (.event (.autoRead .masterOutput)) trivial trivial h
  obtain ⟨mode, hmode⟩ := sessionRun_inMode hstarted hrun.session
  exact ⟨hstarted, hrun, hmode.of_depth hlength⟩

end Run

end Rzh
