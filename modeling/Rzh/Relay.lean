import Rzh.LineStream
import Rzh.Owners

/-!
# Who has the line

The echo task passes on all that is typed. A receive process is listened to up to the end of its ZFIN, and
nothing behind it goes to the master, however long the process goes on.
-/
namespace Rzh

open Matcher Sys

/-- What has come in for the master and what the pipe to it has got it to accept; what had come in when the task on
top took over, and the packets that have been read from it since. -/
structure Line where
  came : List UInt8
  went : List UInt8
  start : List UInt8
  packets : List (List UInt8)

/-- The packet of a read event, as it was read. -/
def said (s : Sys) : Move → List (List UInt8)
  | .event (.autoRead .inputMaster) => [inputPacket s]
  | _ => []

def Line.next (l : Line) (s : Sys) (m : Move) (s' : Sys) : Line :=
  let came := l.came ++ heard s m
  let went := l.went ++ told m s s'
  if s'.tasks.length = s.tasks.length then ⟨came, went, l.start, l.packets ++ said s m⟩
  else ⟨came, went, came, []⟩

/-- The states of the program, with what has been said on the line. -/
inductive LineRun (s₀ : Sys) : Line → Sys → Prop where
  | install {s : Sys} (h : step s₀ .echoScanner = .ok s) : LineRun s₀ ⟨[], [], [], []⟩ s
  | next {l : Line} {s s' : Sys} (run : LineRun s₀ l s) (m : Move) (hown : m.Own) (hcalled : m.Called s)
    (h : m.run s = .ok s') : LineRun s₀ (l.next s m s') s'

/-- The first ZFIN of the task on top is the last that has come in from it, or it has sent none. -/
def Line.UpToEnd (l : Line) : Prop :=
  l.came = l.start ++ l.packets.flatten ∧ ¬ zfinText <:+: l.packets.flatten ∨
    ∃ i rest, EndsIn l.packets i rest ∧ l.came ++ rest = l.start ++ (l.packets.take (i + 1)).flatten

theorem LineRun.session {s₀ s : Sys} {l : Line} (run : LineRun s₀ l s) : SessionRun s₀ s := by
  induction run with
  | install h => exact .install h
  | next _ m hown hcalled h ih => exact .next ih m hown hcalled h

section Packets

variable {ps : List (List UInt8)} {p rest : List UInt8} {ref : Option Nat} {k : Nat}

/-- The end scanner has been through these packets and is `k` characters into the string. -/
def Ahead (ps : List (List UInt8)) (k : Nat) : Prop :=
  ∀ qs, stuckFeed 0 (ps ++ qs) = (stuckFeed k qs).map (Prod.map (· + ps.length) id)

theorem Ahead.nil : Ahead [] 0 := by
  intro qs
  rw [List.nil_append]
  cases stuckFeed 0 qs with
  | none => rfl
  | some x => rfl

theorem stuckFeed_goes (hscan : scan zfinPattern (ref.getD 0) p = .inl k) (qs : List (List UInt8)) :
    stuckFeed (ref.getD 0) (p :: qs) =
      (stuckFeed ((refAfter ref k).getD 0) qs).map (Prod.map (· + 1) id) := by
  rw [stuckFeed, hscan]
  cases k with
  | zero => rfl
  | succ k => rfl

theorem Ahead.packet (h : Ahead ps (ref.getD 0)) (hscan : scan zfinPattern (ref.getD 0) p = .inl k) :
    Ahead (ps ++ [p]) ((refAfter ref k).getD 0) := by
  intro qs
  rw [List.append_assoc, List.singleton_append, h, stuckFeed_goes hscan, Option.map_map, List.length_append]
  congr 1
  funext x
  simp only [Function.comp, Prod.map, List.length_singleton, id]
  rw [Nat.add_assoc, Nat.add_comm 1]

theorem Ahead.ends (h : Ahead ps k) (hscan : scan zfinPattern k p = .inr rest) (qs : List (List UInt8)) :
    stuckFeed 0 (ps ++ [p] ++ qs) = some (ps.length, rest) := by
  rw [List.append_assoc, List.singleton_append, h, stuckFeed, hscan]
  simp

theorem Ahead.none (h : Ahead ps k) : stuckFeed 0 ps = .none := by
  have hall := h []
  rwa [List.append_nil, stuckFeed, Option.map_none] at hall

/-- Where no match is stale the last byte that has come in is the end of the first ZFIN. -/
theorem Ahead.upToEnd {l : Line} (h : Ahead l.packets k) (hcame : l.came = l.start ++ l.packets.flatten)
    (hstale : ¬ StaleMatch l.packets) : l.UpToEnd := by
  rw [staleMatch_iff, ← (stuckFeed_eq_feed _).1 0 (by decide), h.none] at hstale
  obtain ⟨k', hscan⟩ := feed_none hstale.symm
  exact .inl ⟨hcame, ((endsInside_iff k' _).mpr hscan).1⟩

theorem found_upToEnd {l : Line} {i : Nat} (hfound : stuckFeed 0 l.packets = some (i, rest))
    (hcame : l.came ++ rest = l.start ++ (l.packets.take (i + 1)).flatten) (hstale : ¬ StaleMatch l.packets) :
    l.UpToEnd := by
  rw [staleMatch_iff, ← (stuckFeed_eq_feed _).1 0 (by decide), hfound] at hstale
  exact .inr ⟨i, rest, (endsIn_iff _ i rest).mpr hstale.symm, hcame⟩

end Packets

section Scanner

variable {s s' s'' : Sys} {p : PipeRef} {a : Nat} {packet : List UInt8} {fd cnt : Int}

/-- Nothing has happened to the proc of the input nor to the end scanner that it works for. -/
structure Rests (s s' : Sys) : Prop where
  proc : (s'.fifo .inputMaster).proc = (s.fifo .inputMaster).proc
  refcon : (s'.fifo .inputMaster).refcon = (s.fifo .inputMaster).refcon
  zfin : ∀ a, (s.fifo .inputMaster).refcon = .zfin a → s'.zfins a = s.zfins a

theorem Rests.refl (s : Sys) : Rests s s := ⟨rfl, rfl, fun _ _ => rfl⟩

theorem Rests.trans (h : Rests s s') (h' : Rests s' s'') : Rests s s'' where
  proc := h'.proc.trans h.proc
  refcon := h'.refcon.trans h.refcon
  zfin a ha := (h'.zfin a (h.refcon.trans ha)).trans (h.zfin a ha)

theorem Rests.of_fifo (hfifo : (s'.fifo .inputMaster).proc = (s.fifo .inputMaster).proc ∧
    (s'.fifo .inputMaster).refcon = (s.fifo .inputMaster).refcon) (hzfins : s'.zfins = s.zfins) : Rests s s' :=
  ⟨hfifo.1, hfifo.2, fun a _ => congrFun hzfins a⟩

theorem stable_rests (p : PipeRef) (s₀ : Sys) : Stable p (Rests s₀) where
  flush {s s' _ _ _} hs _ h := by
    apply hs.trans
    apply Rests.of_fifo _ h.zfins
    by_cases hp : PipeRef.inputMaster = p
    · rw [hp]
      exact h.fifo.2
    · rw [fifo_eq (h.other _ hp)]
      exact ⟨rfl, rfl⟩
  enable hs _ _ := hs.trans (.of_fifo ⟨rfl, rfl⟩ rfl)
  disable hs _ _ := hs.trans (.of_fifo ⟨rfl, rfl⟩ rfl)
  block {s} hs b := by
    refine hs.trans (.of_fifo ?_ rfl)
    by_cases hp : PipeRef.inputMaster = p
    · rw [hp, Sys.fifo, setPipe_same]
      exact ⟨rfl, rfl⟩
    · rw [fifo_eq (setPipe_ne _ _ hp)]
      exact ⟨rfl, rfl⟩

theorem rests_closeAtom (s : Sys) (b : AtomRef) : Rests s (closeAtom s b) := by
  obtain ⟨hpipes, -, hzfins, -⟩ := closeAtom_rest s b
  apply Rests.of_fifo _ hzfins
  rw [Sys.fifo, hpipes]
  exact ⟨rfl, rfl⟩

/-- A packet in which the search goes on, or one in which it ends: all of it has come in, or
all up to the end, and nothing will from then on. -/
inductive Looks (a : Nat) (packet : List UInt8) (s s' : Sys) : Prop where
  | goes {k : Nat} (hscan : scan zfinPattern ((s.zfins a).ref.getD 0) packet = .inl k) (hk : k < zfinLength)
    (hall : letThrough s packet = packet) (hproc : (s'.fifo .inputMaster).proc = some .zfinScan)
    (href : (s'.zfins a).ref = refAfter (s.zfins a).ref k)
  | ends {rest : List UInt8} (hscan : scan zfinPattern ((s.zfins a).ref.getD 0) packet = .inr rest)
    (hpart : letThrough s packet ++ rest = packet) (hproc : (s'.fifo .inputMaster).proc = some .zfinDrop)

theorem zfinScanProc_looks (hs : EndScanner .inputMaster a .zfinTerm s)
    (hproc : (s.fifo .inputMaster).proc = some .zfinScan) (href : ∀ ref ∈ (s.zfins a).ref, ref < zfinLength)
    (h : zfinScanProc s .inputMaster packet = .ok s') : Looks a packet s s' := by
  have hlet : letThrough s packet = putBytes (zfinScan (s.zfins a).ref packet).puts := by
    rw [letThrough, hproc, hs.refcon]
  have hsays := zfinScan_says href packet
  obtain ⟨f, k, hk, hscan, hcall⟩ | ⟨f, rest, hscan, -, hcall⟩ :=
    zfinScanCall_cases (s.fifo .inputMaster) (s.zfins a) packet href
  · obtain ⟨-, -, -, hsame, -⟩ := zfinScanCall_leaves hcall
    rw [zfinScanProc_eq hs hcall] at h
    cases h
    rw [hscan] at hsays
    obtain ⟨-, -, hbuf⟩ := hsays.passed
    refine .goes hscan hk (hlet.trans hbuf.symm) ?_ ?_
    · rw [fifo_setFifo, hsame rfl, hproc]
    · change (Function.update s.zfins a _ a).ref = _
      rw [Function.update_self]
  · rw [zfinScanProc_eq hs hcall, Option.elim_some, hs.found] at h
    rw [hscan] at hsays
    obtain ⟨-, hbuf⟩ := hsays
    exact .ends hscan (by rw [hlet, ← hbuf]) (zfinTerm_drops h)

end Scanner

/-- What has come in since the task on top took over, by the proc that looks at its packets. -/
inductive Cut (l : Line) (s : Sys) : Prop where
  | whole (hproc : (s.fifo .inputMaster).proc = none) (hcame : l.came = l.start ++ l.packets.flatten)
  | looking {a : Nat} (hproc : (s.fifo .inputMaster).proc = some .zfinScan)
    (hrefcon : (s.fifo .inputMaster).refcon = .zfin a) (href : ∀ ref ∈ (s.zfins a).ref, ref < zfinLength)
    (hahead : Ahead l.packets ((s.zfins a).ref.getD 0)) (hcame : l.came = l.start ++ l.packets.flatten)
  | past {i : Nat} {rest : List UInt8} (hproc : (s.fifo .inputMaster).proc = some .zfinDrop)
    (hfound : ∀ qs, stuckFeed 0 (l.packets ++ qs) = some (i, rest)) (hi : i < l.packets.length)
    (hcame : l.came ++ rest = l.start ++ (l.packets.take (i + 1)).flatten)

section Packet

variable {s s' : Sys} {l : Line} {mode : Mode} {went : List UInt8} {fd cnt : Int}

theorem Cut.rests (h : Cut l s) (hs : Rests s s') : Cut l s' := by
  cases h with
  | whole hproc hcame => exact .whole (hs.proc.trans hproc) hcame
  | looking hproc hrefcon href hahead hcame =>
    have hzfin := hs.zfin _ hrefcon
    refine .looking (hs.proc.trans hproc) (hs.refcon.trans hrefcon) ?_ ?_ hcame
    · rw [hzfin]
      exact href
    · rw [hzfin]
      exact hahead
  | past hproc hfound hi hcame => exact .past (hs.proc.trans hproc) hfound hi hcame

/-- What the master takes makes no difference to what comes in. -/
theorem Cut.told (h : Cut l s) (went : List UInt8) : Cut ⟨l.came, went, l.start, l.packets⟩ s := by
  cases h with
  | whole hproc hcame => exact .whole hproc hcame
  | looking hproc hrefcon href hahead hcame => exact .looking hproc hrefcon href hahead hcame
  | past hproc hfound hi hcame => exact .past hproc hfound hi hcame

theorem flatten_snoc (ps : List (List UInt8)) (p : List UInt8) : (ps ++ [p]).flatten = ps.flatten ++ p := by
  rw [List.flatten_append, List.flatten_singleton]

theorem fifoRead_cut (hmode : InMode s mode) (hcut : Cut l s) (went : List UInt8)
    (h : fifoRead s .inputMaster fd = .ok (cnt, s')) :
    Cut ⟨l.came ++ letThrough s (arriving s .inputMaster fd), went, l.start,
      l.packets ++ [arriving s .inputMaster fd]⟩ s' := by
  generalize hpacket : arriving s .inputMaster fd = packet
  cases hcut with
  | whole hproc hcame =>
    rw [fifoRead_noProc hproc] at h
    cases h
    have hlet : letThrough s packet = packet := by rw [letThrough, hproc]
    refine .whole ?_ ?_
    · rw [fifo_setFifo]
      exact hproc
    · rw [hlet, flatten_snoc, ← List.append_assoc, ← hcame]
  | @looking a hproc hrefcon href hahead hcame =>
    obtain ⟨k, -, hcall⟩ := fifoRead_callProc hproc h
    rw [hpacket] at hcall
    cases hmode with
    | echo _ _ hin =>
      rw [hin] at hproc
      cases hproc
    | @transfer _ _ a' _ htasks _ _ hin =>
      obtain rfl := Refcon.zfin.inj (hin.refcon.symm.trans hrefcon)
      have hin' : EndScanner .inputMaster a' .zfinTerm { s with kernel := k } :=
        hin.same ⟨rfl, fun _ => rfl, fun _ => rfl, fun _ => rfl⟩
      have hne : ({ s with kernel := k } : Sys).tasks ≠ [] := by
        rw [htasks]
        exact List.cons_ne_nil _ _
      have hscans : Scans .inputMaster .zfinTerm { s with kernel := k } s' := by
        obtain ⟨s'', hs'', hscans⟩ := zfinScanProc_scans hin' hne packet
        obtain rfl := Except.ok.inj (hs''.symm.trans hcall)
        exact hscans
      cases zfinScanProc_looks hin' hproc href hcall with
      | goes hscan hk hall hproc' href' =>
        refine .looking hproc' ((hscans.refcon _).trans hrefcon) ?_ ?_ ?_
        · intro ref hr
          rw [href', refAfter] at hr
          split at hr
          · exact href ref hr
          · obtain rfl := Option.some.inj hr
            exact hk
        · rw [href']
          exact hahead.packet hscan
        · rw [flatten_snoc, ← List.append_assoc, ← hcame]
          exact congrArg (l.came ++ ·) hall
      | @ends rest hscan hpart hproc' =>
        refine .past hproc' (hahead.ends hscan) ?_ ?_
        · rw [List.length_append]
          exact Nat.lt_succ_self _
        · rw [List.take_of_length_le (by simp), flatten_snoc, ← List.append_assoc, ← hcame, List.append_assoc]
          exact congrArg (l.came ++ ·) hpart
  | @past i rest hproc hfound hi hcame =>
    obtain ⟨k, -, hcall⟩ := fifoRead_callProc hproc h
    cases hcall
    have hlet : letThrough s packet = [] := by rw [letThrough, hproc]
    have hlonger : l.packets.length ≤ (l.packets ++ [packet]).length := by simp
    have hstays : ∀ qs, stuckFeed 0 (l.packets ++ [packet] ++ qs) = some (i, rest) := by
      intro qs
      rw [List.append_assoc]
      exact hfound _
    refine .past hproc hstays (hi.trans_le hlonger) ?_
    · rw [hlet, List.append_nil, List.take_append_of_le_length hi]
      exact hcame

theorem autoRead_cut (hmode : InMode s mode) (hcut : Cut l s) (went : List UInt8)
    (h : pipeAutoRead s .inputMaster = .ok s') :
    Cut ⟨l.came ++ letThrough s (inputPacket s), went, l.start, l.packets ++ [inputPacket s]⟩ s' := by
  obtain ⟨cnt, r, s₁, s₂, hr, -, hfifo, hclose, hrest⟩ := pipeAutoRead_steps h
  have hpacket : inputPacket s = arriving s .inputMaster (s.atoms r).fd := by rw [inputPacket, hr]
  have hread := fifoRead_cut hmode hcut went hfifo
  rw [← hpacket] at hread
  have hclosed : Rests s₁ s₂ := by
    obtain rfl | ⟨r', -, rfl⟩ := hclose
    · exact .refl _
    · exact rests_closeAtom s₁ r'
  exact hread.rests ((stable_rests .inputMaster s₁).readRest hclosed (pipeAutoReadRest_ok hrest))

end Packet

section Moves

variable {s s' s₀ : Sys} {l : Line} {mode : Mode} {m : Move} {p : PipeRef} {buf : List UInt8} {fd : Int} {a : Nat}

/-- The two end scanners of a transfer have a state each. -/
theorem InMode.apart (h : InMode s .transfer) (ha : (s.fifo .inputMaster).refcon = .zfin a) :
    (s.fifo .masterOutput).refcon ≠ .zfin a := by
  cases h with
  | transfer _ _ _ hin hout =>
    intro hb
    obtain rfl := Refcon.zfin.inj (hin.refcon.symm.trans ha)
    obtain rfl := Refcon.zfin.inj (hout.refcon.symm.trans hb)
    cases hin.found.symm.trans hout.found

/-- During a transfer a packet from the master leaves the scanner of the other pipe alone. -/
theorem autoRead_rests (hmode : InMode s .transfer) (h : pipeAutoRead s .masterOutput = .ok s') : Rests s s' := by
  obtain ⟨cnt, r, s₁, s₂, -, -, hfifo, hclose, hrest⟩ := pipeAutoRead_steps h
  have hread : Rests s s₁ := by
    cases hmode with
    | transfer htasks hrz hecho hin hout =>
      obtain ⟨proc, hmem, hproc⟩ := hout.proc
      have hscan : proc ≠ .echoScannerFilterProc := by
        rintro rfl
        simp [ZfinFound.procs] at hmem
      obtain ⟨k, -, hcall⟩ := fifoRead_callProc hproc hfifo
      have hother : s₁.pipes .inputMaster = s.pipes .inputMaster := by
        cases callProc_ok (s := { s with kernel := k }) hproc hcall with
        | filtered hf => exact hf.other _ (by decide)
        | started hstart =>
          obtain ⟨-, hscanner, -⟩ := hstart
          exact absurd (Option.some.inj (hproc.symm.trans hscanner)) hscan
      have hmode : InMode s .transfer := .transfer htasks hrz hecho hin hout
      refine ⟨?_, ?_, fun a ha => ?_⟩
      · rw [fifo_eq hother]
      · rw [fifo_eq hother]
      · exact callProc_other (s := { s with kernel := k }) hscan (hmode.apart ha) hcall
  have hclosed : Rests s₁ s₂ := by
    obtain rfl | ⟨r', -, rfl⟩ := hclose
    · exact .refl _
    · exact rests_closeAtom s₁ r'
  exact hread.trans ((stable_rests .masterOutput s₁).readRest hclosed (pipeAutoReadRest_ok hrest))

/-- So does everything else that happens during a transfer. -/
theorem move_rests (hmode : InMode s .transfer) (hown : m.Own) (hread : m ≠ .event (.autoRead .inputMaster))
    (hremove : m ≠ .event .remove) (h : m.run s = .ok s') : Rests s s' := by
  cases m with
  | event e =>
    cases e with
    | echoScanner => exact hown.elim
    | install spec => exact hown.elim
    | write p buf => exact hown.elim
    | autoRead p =>
      cases p with
      | inputMaster => exact absurd rfl hread
      | masterOutput => exact autoRead_rests hmode h
    | autoWrite p => exact (stable_rests p s).autoWrite (.refl s) h
    | remove => exact absurd rfl hremove
  | finalWrite =>
    obtain ⟨w, -, ⟨rfl, -⟩ | rfl⟩ := finalWrite_ok h
    · exact .refl _
    · obtain ⟨sent, hw, -⟩ := fifoWrite_wrote (s.fifo .inputMaster) (s.atoms w).fd s.kernel
      refine .of_fifo ?_ rfl
      rw [fifo_setFifo]
      exact ⟨hw.proc, hw.refcon⟩
  | typing a =>
    obtain ⟨pids, rfl⟩ := typingIoProc_ok h
    exact .of_fifo ⟨rfl, rfl⟩ rfl
  | cherr a =>
    obtain ⟨-, hrest⟩ := cherrProc_ok h
    rw [hrest]
    exact .of_fifo ⟨rfl, rfl⟩ rfl

/-- What is left of the packet that starts a transfer goes to one scanner only. -/
theorem zscanRemaining_other {proc : FifoProc} (hproc : (s.fifo p).proc = some proc)
    (hne : proc ≠ .echoScannerFilterProc) (ha : (s.fifo p).refcon ≠ .zfin a)
    (h : zscanRemaining s p buf fd = .ok s') : s'.zfins a = s.zfins a := by
  by_cases hbuf : buf = []
  · rw [zscanRemaining, if_pos hbuf] at h
    cases h
    rfl
  · obtain ⟨sent, f, k, hw, ⟨he, -⟩ | he⟩ := zscanMakeRoom_wrote (s.fifo p) fd buf.length s.kernel
    · rw [zscanRemaining_call hbuf he (hw.proc.trans hproc) hne] at h
      have hrefcon : ((s.setFifo p f k).fifo p).refcon ≠ .zfin a := by
        rw [fifo_setFifo, hw.refcon]
        exact ha
      exact (callProc_other hne hrefcon h :)
    · rw [zscanRemaining, if_neg hbuf, he] at h
      cases h

theorem FreshZfin.rests (h : FreshZfin s .inputMaster) (hs : Rests s s') : FreshZfin s' .inputMaster := by
  obtain ⟨hproc, a, hrefcon, href⟩ := h
  refine ⟨hs.proc.trans hproc, a, hs.refcon.trans hrefcon, ?_⟩
  rw [hs.zfin a hrefcon]
  exact href

/-- A receive process has its input from a scanner that has seen nothing yet. -/
theorem echoScannerFilterProc_fresh (hwf : s.WF) (hmode : InMode s .echo)
    (h : echoScannerFilterProc s .masterOutput buf fd = .ok s') (hmode' : InMode s' .transfer) :
    FreshZfin s' .inputMaster := by
  cases hmode with
  | @echo echo z htasks hecho hin hout hrefcon =>
    have hstays : s'.tasks ≠ s.tasks := by
      intro he
      cases hmode' with
      | transfer htasks' =>
        rw [htasks', htasks] at he
        cases he
    by_cases hbuf : buf = []
    · rw [echoScannerFilterProc, if_pos hbuf] at h
      cases h
      exact absurd rfl hstays
    rw [echoScannerFilterProc, if_neg hbuf, hrefcon] at h
    cases hcall : echoScannerCall (s.fifo .masterOutput) (s.zscans z) buf fd s.kernel with
    | error e =>
      simp only [hcall] at h
      cases h
    | ok c =>
      simp only [hcall] at h
      split at h
      · cases h
        exact absurd rfl hstays
      · next rest _ =>
        obtain ⟨s₂, hinstall, h⟩ := Result.bind_ok h
        let s₀ : Sys := { s with zscans := Function.update s.zscans z c.conn }
        let s₁ : Sys := { s₀.setFifo .masterOutput c.fifo c.kernel with kernel := c.kernel.log .startProc }
        have hs₀ : Filtered .masterOutput s s₀ := ⟨rfl, Nat.le_refl _, fun _ _ => rfl, rfl, rfl⟩
        have hsize : c.fifo.size = (s.fifo .masterOutput).size := (echoScannerCall_ok hbuf hcall).1
        have hwf₁ : s₁.WF := ((hs₀.trans (.setFifo s₀ c.kernel hsize)).kernel _).wf hwf
        have htasks₁ : s₁.tasks = [echo] := htasks
        have hmode₂ := rztaskInstall_mode hwf₁ htasks₁ hecho hinstall
        have hfresh := (rztaskInstall_fifo hwf₁ .inputMaster hinstall).2
        have hscan := (rztaskInstall_fifo hwf₁ .masterOutput hinstall).2.1
        have hother := (zscanRemaining_ok h).other .inputMaster (by decide)
        apply hfresh.rests
        refine ⟨?_, ?_, fun a ha => ?_⟩
        · rw [fifo_eq hother]
        · rw [fifo_eq hother]
        · exact zscanRemaining_other hscan (by decide) (hmode₂.apart ha) h

theorem autoRead_fresh (hwf : s.WF) (hmode : InMode s .echo) (h : pipeAutoRead s .masterOutput = .ok s')
    (hmode' : InMode s' .transfer) : FreshZfin s' .inputMaster := by
  obtain ⟨cnt, r, s₁, s₂, -, -, hfifo, hclose, hrest⟩ := pipeAutoRead_steps h
  have hclosed : SameProcs s₁ s₂ ∧ Rests s₁ s₂ := by
    obtain rfl | ⟨r', -, rfl⟩ := hclose
    · exact ⟨.refl _, .refl _⟩
    · exact ⟨.closeAtom s₁ r', rests_closeAtom s₁ r'⟩
  have hsame := (SameProcs.stable .masterOutput s₁).readRest hclosed.1 (pipeAutoReadRest_ok hrest)
  have hrests := (stable_rests .masterOutput s₁).readRest hclosed.2 (pipeAutoReadRest_ok hrest)
  apply FreshZfin.rests _ hrests
  have hmode₁ : InMode s₁ .transfer := by
    obtain hecho | ⟨-, -, -, ht⟩ := (fifoRead_mode hwf hmode .masterOutput (s.atoms r).fd).of_ok hfifo
    · cases hmode'.unique (hecho.same hsame)
    · exact ht
  have hscanner : (s.fifo .masterOutput).proc = some .echoScannerFilterProc := by
    cases hmode with
    | echo _ _ _ hout => exact hout
  obtain ⟨k, -, hcall⟩ := fifoRead_callProc hscanner hfifo
  have hmodek : InMode { s with kernel := k } .echo :=
    hmode.same ⟨rfl, fun _ => rfl, fun _ => rfl, fun _ => rfl⟩
  have hwfk : ({ s with kernel := k } : Sys).WF := hwf.of_shape rfl hwf.held
  exact echoScannerFilterProc_fresh hwfk hmodek hcall hmode₁

end Moves

section Apart

variable {s s' : Sys} {mode : Mode} {m : Move} {fd cnt : Int}

/-- Not the descriptor of the master. -/
def Apart (s : Sys) (fd : Int) : Prop := fd ≠ (s.atoms .master).fd

theorem write_apart (hwf : s.WF) {t : TaskState} (ht : t ∈ s.tasks) (hl : s.live (.write t.addr)) :
    Apart s (s.atoms (.write t.addr)).fd := by
  intro he
  cases (hwf.held _ (.write ht)).eq_of_fd (hwf.held _ .master) hl he.symm

theorem writer_apart (hwf : s.WF) (hne : s.tasks ≠ []) :
    ∀ w, (s.pipes .masterOutput).writeAtom = some w → 0 ≤ (s.atoms w).fd → Apart s (s.atoms w).fd := by
  intro w hw hl
  obtain ⟨top, below, htasks⟩ := List.exists_cons_of_ne_nil hne
  obtain rfl := Option.some.inj (hw.symm.trans (hwf.top top below htasks).2)
  exact write_apart hwf (htasks ▸ List.mem_cons_self) hl

/-- The packet in which no start sequence ends is written nowhere. -/
theorem fifoRead_unstarted (hstart : ¬ StartsTask s .masterOutput (arriving s .masterOutput fd))
    (h : fifoRead s .masterOutput fd = .ok (cnt, s')) (W : Int → Prop) : Does W 0 [] s s' := by
  cases hproc : (s.fifo .masterOutput).proc with
  | none =>
    rw [fifoRead_noProc hproc] at h
    cases h
    exact .read s fd _
  | some proc =>
    obtain ⟨k, hk, hcall⟩ := fifoRead_callProc hproc h
    have hread : Does W 0 [] s { s with kernel := k } := by
      rw [← hk]
      exact .read s fd _
    by_cases hscan : proc = .echoScannerFilterProc
    · subst hscan
      by_cases hbuf : arriving s .masterOutput fd = []
      · rw [callProc, echoScannerFilterProc, if_pos hbuf] at hcall
        cases hcall
        exact hread
      · rw [callProc, echoScannerFilterProc, if_neg hbuf] at hcall
        split at hcall
        · next addr hrefcon =>
          have hnone : (zrqScan (s.zscans addr) (arriving s .masterOutput fd)).start = none := by
            by_contra hsome
            exact hstart ⟨hbuf, hproc, addr, hrefcon, hsome⟩
          simp only [echoScannerCall, if_neg hbuf, zrqScanCall, hnone] at hcall
          cases hcall
          exact hread
        · cases hcall
    · have hdoes := callProc_does (W := W) hscan { s with kernel := k } .masterOutput (arriving s .masterOutput fd) fd
      rw [hcall] at hdoes
      exact hread.trans hdoes

theorem autoRead_apart (hwf : s.WF) (hne : s.tasks ≠ []) (hstart : ¬ StartsTask s .masterOutput (packet s))
    (h : pipeAutoRead s .masterOutput = .ok s') : Writes (Apart s) s s' := by
  obtain ⟨cnt, r, s₁, s₂, hr, -, hfifo, hclose, hrest⟩ := pipeAutoRead_steps h
  obtain rfl := Option.some.inj (hwf.masterOut.symm.trans hr)
  have hread : Writes (Apart s) s s₁ := ⟨0, [], fifoRead_unstarted hstart hfifo _⟩
  have hfiltered : Filtered .masterOutput s s₁ := by
    cases fifoRead_ok hfifo with
    | filtered hf => exact hf
    | started hs => exact absurd hs hstart
  obtain ⟨top, below, htasks⟩ := List.exists_cons_of_ne_nil hne
  have htop : (s.pipes .masterOutput).writeAtom = some (.write top.addr) := (hwf.top top below htasks).2
  have hends : (s₁.pipes .masterOutput).readAtom = some .master ∧
      (s₁.pipes .masterOutput).writeAtom = some (.write top.addr) := by
    rw [(hfiltered.ends _).1, (hfiltered.ends _).2]
    exact ⟨hwf.masterOut, htop⟩
  -- the reader may be closed, which is not the writer
  have hclosed : Writes (Apart s) s s₂ ∧ (s₂.pipes .masterOutput).writeAtom = some (.write top.addr) ∧
      s₂.atoms (.write top.addr) = s.atoms (.write top.addr) := by
    obtain rfl | ⟨r', hr', rfl⟩ := hclose
    · exact ⟨hread, hends.2, by rw [hfiltered.sameAtoms.atoms]⟩
    · obtain rfl := Option.some.inj (hr'.symm.trans hends.1)
      refine ⟨hread.trans ⟨_, _, .closeAtom s₁ .master⟩, ?_, ?_⟩
      · rw [(closeAtom_rest s₁ .master).1]
        exact hends.2
      · rw [closeAtom_atoms, Function.update_of_ne (by simp), hfiltered.sameAtoms.atoms]
  obtain ⟨hwrites, hw, hatom⟩ := hclosed
  have hshuts : Result.Ends id (Shuts (Apart s) (s₂.pipes .masterOutput).writeAtom s₂)
      (pipeAutoReadRest s₂ .masterOutput) := by
    apply pipeAutoReadRest_shuts
    intro w hw' hl
    obtain rfl := Option.some.inj (hw'.symm.trans hw)
    rw [hatom] at hl ⊢
    exact writer_apart hwf hne _ htop hl
  rw [hrest] at hshuts
  exact hwrites.trans (.of_shuts hshuts)

theorem does_kills {W : Int → Prop} (s : Sys) (pids : List Int) :
    Does W 0 [] s { s with kernel := s.kernel.kills pids } := by
  induction pids generalizing s with
  | nil => exact .refl W s
  | cons pid pids ih =>
    have hkill : Does W 0 [] s { s with kernel := s.kernel.log (.kill pid) } := .log s rfl
    exact hkill.trans (ih { s with kernel := s.kernel.log (.kill pid) })

/-- The other pipe's events write to the master nowhere else than where a transfer starts. -/
theorem move_apart (hwf : s.WF) (hne : s.tasks ≠ []) (hown : m.Own) (hm : m.pipe ≠ some .inputMaster)
    (hstart : m = .event (.autoRead .masterOutput) → ¬ StartsTask s .masterOutput (packet s))
    (h : m.run s = .ok s') : Writes (Apart s) s s' := by
  cases m with
  | event e =>
    cases e with
    | echoScanner => exact hown.elim
    | install spec => exact hown.elim
    | write p buf => exact hown.elim
    | autoRead p =>
      cases p with
      | inputMaster => exact absurd rfl hm
      | masterOutput => exact autoRead_apart hwf hne (hstart rfl) h
    | autoWrite p =>
      cases p with
      | inputMaster => exact absurd rfl hm
      | masterOutput =>
        have hshuts := pipeAutoWrite_shuts (writer_apart hwf hne)
        rw [show pipeAutoWrite s .masterOutput = .ok s' from h] at hshuts
        exact .of_shuts hshuts
    | remove =>
      obtain ⟨task, top, below, -, -, htasks, -⟩ := taskRemove_ok hwf h
      have hdoes := taskRemove_does (W := Apart s) htasks fun hl =>
        write_apart hwf (by rw [htasks]; exact List.mem_cons_of_mem _ List.mem_cons_self) hl
      rw [show taskRemove s = .ok s' from h] at hdoes
      obtain ⟨-, fds, -, hdoes⟩ := hdoes
      exact ⟨0, fds, hdoes⟩
  | finalWrite => exact absurd rfl hm
  | typing a =>
    obtain ⟨pids, rfl⟩ := typingIoProc_ok h
    exact ⟨0, _, (Does.read s _ 128).trans (does_kills _ pids)⟩
  | cherr a =>
    obtain ⟨-, hrest⟩ := cherrProc_ok h
    have hkernel : s'.kernel = (s.kernel.read (s.atoms a).fd 512).2 := by rw [hrest]
    exact ⟨0, _, (Does.read s _ 512).trans (.of_kernel hkernel)⟩

end Apart

section Run

variable {s s' s₀ : Sys} {l : Line} {mode mode' : Mode} {m : Move}

theorem heard_other (hm : m ≠ .event (.autoRead .inputMaster)) : heard s m = [] := by
  rw [heard]
  intro he
  exact absurd he hm

theorem said_other (hm : m ≠ .event (.autoRead .inputMaster)) : said s m = [] := by
  rw [said]
  intro he
  exact absurd he hm

/-- Where the same tasks go on, the line is theirs still. -/
theorem Line.next_same (hmode : InMode s mode) (hmode' : InMode s' mode) : l.next s m s' =
    ⟨l.came ++ heard s m, l.went ++ told m s s', l.start, l.packets ++ said s m⟩ := by
  rw [Line.next, if_pos (by rw [hmode'.depth, hmode.depth])]

theorem Line.next_turn (hmode : InMode s mode) (hmode' : InMode s' mode') (hne : mode ≠ mode') :
    l.next s m s' = ⟨l.came ++ heard s m, l.went ++ told m s s', l.came ++ heard s m, []⟩ := by
  rw [Line.next, if_neg]
  rw [hmode'.depth, hmode.depth]
  cases mode with
  | echo =>
    cases mode' with
    | echo => exact absurd rfl hne
    | transfer => decide
  | transfer =>
    cases mode' with
    | echo => decide
    | transfer => exact absurd rfl hne

theorem Cut.echo (hmode : InMode s .echo) (h : Cut l s) : l.came = l.start ++ l.packets.flatten := by
  cases hmode with
  | echo _ _ hin =>
    cases h with
    | whole _ hcame => exact hcame
    | looking hproc =>
      rw [hin] at hproc
      cases hproc
    | past hproc =>
      rw [hin] at hproc
      cases hproc

theorem InMode.noProc (h : InMode s .echo) : (s.fifo .inputMaster).proc = none := by
  cases h with
  | echo _ _ hin => exact hin

/-- One move: the packet of a read event is the next to be looked at, and a task that takes over starts anew. -/
theorem Cut.next (hwf : s.WF) (hmode : InMode s mode) (hcut : Cut l s) (hown : m.Own) (h : m.run s = .ok s') :
    Cut (l.next s m s') s' := by
  cases move_turns hwf hmode hown h with
  | @same mode' hs hs' =>
    obtain rfl := hmode.unique hs
    rw [Line.next_same hs hs']
    by_cases hread : m = .event (.autoRead .inputMaster)
    · subst hread
      exact autoRead_cut hmode hcut _ h
    · rw [heard_other hread, said_other hread, List.append_nil, List.append_nil]
      cases mode' with
      | echo =>
        have hcame := hcut.echo hs
        exact .whole hs'.noProc hcame
      | transfer =>
        have hremove : m ≠ .event .remove := by
          rintro rfl
          cases hs'.unique ((taskRemove_mode hwf hs).of_ok h).2
        exact (hcut.told _).rests (move_rests hs hown hread hremove h)
  | begins hs hm _ hs' =>
    subst hm
    rw [Line.next_turn hs hs' (by decide)]
    obtain ⟨hproc, a, hrefcon, href⟩ := autoRead_fresh hwf hs h hs'
    refine .looking hproc hrefcon ?_ ?_ (List.append_nil _).symm
    · intro ref hr
      rw [href] at hr
      cases hr
    · rw [href]
      exact .nil
  | ends hs hm hs' =>
    rw [Line.next_turn hs hs' (by decide)]
    exact .whole hs'.noProc (List.append_nil _).symm

theorem Line.next_came (l : Line) (s : Sys) (m : Move) (s' : Sys) :
    (l.next s m s').came = l.came ++ heard s m ∧ (l.next s m s').went = l.went ++ told m s s' := by
  rw [Line.next]
  split
  · exact ⟨rfl, rfl⟩
  · exact ⟨rfl, rfl⟩

/-- What one move adds to the ring or takes from it. -/
theorem queue_next (hwf : s.WF) (hmode : InMode s mode) (hown : m.Own) (h : m.run s = .ok s')
    (hq : l.went ++ (s.fifo .inputMaster).contents = l.came) :
    (l.next s m s').went ++ (s'.fifo .inputMaster).contents = (l.next s m s').came := by
  obtain ⟨hcame, hwent⟩ := l.next_came s m s'
  rw [hcame, hwent]
  by_cases hm : m.pipe = some .inputMaster
  · obtain ⟨went, htells, hqueue⟩ := (move_carries hwf hmode hown hm h).queue
    obtain ⟨hsent, -⟩ := htells.newCalls
    rw [told, if_pos hm, hsent, ← hq, List.append_assoc, List.append_assoc, hqueue]
  · obtain ⟨hheard, htold, hsame⟩ := move_aside hwf hown hm h
    rw [hheard, htold, hsame, List.append_nil, List.append_nil, hq]

theorem install_line (h₀ : Started s₀) (h : step s₀ .echoScanner = .ok s) :
    InMode s .echo ∧ (s.fifo .inputMaster).contents = [] := by
  have hwf := started_wf h₀
  obtain ⟨s₁, masterfd, inma, maou, hinma, hmaou, hinit⟩ := h₀
  obtain ⟨htasks, -, hinput, -⟩ := masterPipeInit_ok hinit
  have hspec := echoScannerCreateSpec_filtered s₀ .masterOutput
  have hin : Installed (echoScannerCreateSpec s₀).1 (echoScannerCreateSpec s₀).2 s :=
    taskInstall_ok (hspec.wf hwf) h
  refine ⟨echoScanner_mode hwf htasks h, ?_⟩
  rw [Sys.fifo, hin.inputMaster]
  change ((s₀.pipes .inputMaster).fifo).contents = []
  rw [hinput]
  exact fifoInit_contents inma hinma

theorem lineRun_kept (h₀ : Started s₀) (run : LineRun s₀ l s) :
    l.went ++ (s.fifo .inputMaster).contents = l.came ∧ Cut l s := by
  induction run with
  | install h =>
    obtain ⟨hmode, hempty⟩ := install_line h₀ h
    exact ⟨hempty, .whole hmode.noProc rfl⟩
  | next run m hown _ h ih =>
    obtain ⟨hq, hcut⟩ := ih
    obtain ⟨mode, hmode⟩ := sessionRun_inMode h₀ run.session
    have hwf := programRun_wf h₀ run.session.program
    exact ⟨queue_next hwf hmode hown h hq, hcut.next hwf hmode hown h⟩

theorem Cut.upToEnd (h : Cut l s) (hmode : InMode s .transfer) (hstale : ¬ StaleMatch l.packets) : l.UpToEnd := by
  cases h with
  | whole hproc =>
    cases hmode with
    | transfer _ _ _ hin =>
      obtain ⟨proc, -, hproc'⟩ := hin.proc
      rw [hproc] at hproc'
      cases hproc'
  | looking _ _ _ hahead hcame => exact hahead.upToEnd hcame hstale
  | past _ hfound _ hcame =>
    have hall := hfound []
    rw [List.append_nil] at hall
    exact found_upToEnd hall hcame hstale

/-- Nothing comes in that has not been said. -/
theorem Cut.begins (h : Cut l s) : l.came <+: l.start ++ l.packets.flatten := by
  cases h with
  | whole _ hcame => exact hcame ▸ List.prefix_rfl
  | looking _ _ _ _ hcame => exact hcame ▸ List.prefix_rfl
  | @past i rest _ _ _ hcame =>
    have hpre : (l.packets.take (i + 1)).flatten <+: l.packets.flatten := by
      refine ⟨(l.packets.drop (i + 1)).flatten, ?_⟩
      rw [← List.flatten_append, List.take_append_drop]
    have hcame' : l.came <+: l.start ++ (l.packets.take (i + 1)).flatten := ⟨rest, hcame⟩
    exact hcame'.trans ((List.prefix_append_right_inj _).mpr hpre)

/-- The master is written what has come in for it, each byte once and in order, and nobody else is; and it is
written nothing else but where a start sequence ends, whose drains go back to it. All that is typed has come in; of a
receive process everything up to the end of its first ZFIN, and not a byte behind it. -/
theorem lineRun_stream (h₀ : Started s₀) (run : LineRun s₀ l s) :
    l.went ++ (s.fifo .inputMaster).contents = l.came ∧ l.came <+: l.start ++ l.packets.flatten ∧
      (InMode s .echo → l.came = l.start ++ l.packets.flatten) ∧
      (InMode s .transfer → ¬ StaleMatch l.packets → l.UpToEnd) ∧
      ∀ (m : Move) (s' : Sys), m.Own → m.Called s → m.run s = .ok s' →
        (m.pipe = some .inputMaster → ∀ fd ∈ receivers (newCalls s s'), fd = (s.atoms .master).fd) ∧
        (m.pipe ≠ some .inputMaster →
          (m = .event (.autoRead .masterOutput) → ¬ StartsTask s .masterOutput (packet s)) →
            ∀ fd ∈ receivers (newCalls s s'), fd ≠ (s.atoms .master).fd) := by
  obtain ⟨hq, hcut⟩ := lineRun_kept h₀ run
  refine ⟨hq, hcut.begins, fun hmode => hcut.echo hmode, fun hmode hstale => hcut.upToEnd hmode hstale, ?_⟩
  intro m s' hown _ h
  obtain ⟨mode, hmode⟩ := sessionRun_inMode h₀ run.session
  have hwf := programRun_wf h₀ run.session.program
  refine ⟨fun hm => ?_, fun hm hstart => (move_apart hwf hmode.tasks_ne_nil hown hm hstart h).newCalls⟩
  obtain ⟨went, htells, -⟩ := (move_carries hwf hmode hown hm h).queue
  exact htells.newCalls.2

/-- The kernel under a transfer whose child goes on after its ZFIN. -/
def chatty : Kernel where
  reads := [.data chStar [chStar, chCan, chB, ch0, ch0], .data 42 (zfinText.drop 1 ++ [108, 115])]
  writes := [.accept 6, .accept 12, .accept 7]
  forks := [.child (7, 8) (9, 10) (11, 12) 99]
  errno := none
  trace := []

theorem lineRun_stream_chatty : ∃ s₀ l s, Started s₀ ∧ LineRun s₀ l s ∧
    l.went ++ (s.fifo .inputMaster).contents = l.came ∧ l.came.length = 19 ∧ l.went.length = 19 ∧
      l.packets.flatten.length = 21 := by
  obtain ⟨s₀, h₀, htest⟩ := Result.ok_of_passes (show (launch chatty).passes (fun s₀ =>
    (step s₀ .echoScanner).passes fun s₁ => ((Move.event (.autoRead .masterOutput)).run s₁).passes fun s₂ =>
      ((Move.event (.autoRead .inputMaster)).run s₂).passes fun s₃ =>
        (Move.finalWrite.run s₃).passes fun s =>
          let l := (((Line.mk [] [] [] []).next s₁ (.event (.autoRead .masterOutput)) s₂).next s₂
            (.event (.autoRead .inputMaster)) s₃).next s₃ .finalWrite s
          l.came.length = 19 ∧ l.went.length = 19 ∧ l.packets.flatten.length = 21) = true by decide +kernel)
  obtain ⟨s₁, hs₁, htest⟩ := Result.ok_of_passes htest
  obtain ⟨s₂, hs₂, htest⟩ := Result.ok_of_passes htest
  obtain ⟨s₃, hs₃, htest⟩ := Result.ok_of_passes htest
  obtain ⟨s, hs, htest⟩ := Result.ok_of_passes htest
  have hstarted := (launch_ok h₀).1
  have hrun := (((LineRun.install hs₁).next (.event (.autoRead .masterOutput)) trivial trivial hs₂).next
    (.event (.autoRead .inputMaster)) trivial trivial hs₃).next .finalWrite trivial trivial hs
  exact ⟨s₀, _, s, hstarted, hrun, (lineRun_stream hstarted hrun).1, of_decide_eq_true htest⟩

end Run

end Rzh
