import Rzh.Levels
import Rzh.MainLoop
import Rzh.ZfinMatch
import Rzh.ZrqRoom

/-!
# The end of the file

fifo_read returns the growth of the fifo, and -2 for the end of the file. The growth is
computed from the free room before and after the proc, which may empty the fifo.
-/
namespace Rzh

open Circular Matcher Sys

/-- What follows the start sequence in the text that is held back: what zscan_start hands on. -/
def handedOn (conn : ZScanState) (buf : List UInt8) : List UInt8 :=
  (behindStars (heldBack conn buf)).drop fullHeader.length

/-- The bytes that a fresh end scanner passes on: all of them, or those up to the end of the
first ZFIN string. -/
def throughZfin (text : List UInt8) : Nat :=
  match scan zfinPattern 0 text with
  | .inl _ => text.length
  | .inr rest => text.length - rest.length

/-- What is left of the start string in an empty ring when there is room for `n` more bytes: the
answers of write() are used up by the two drains of zscan_start. -/
def startLeft (l : Level) (n : Nat) (ws : List WriteRes) : Nat :=
  match l.drain (·.count = 0) 5 ws with
  | none => 0
  | some (l, ws) =>
    match (l.append startString.length).drain (n ≤ ·.room) 5 ws with
    | none => 0
    | some (l, _) => l.count

/-- The fifo does not shrink while the proc looks at a packet. Without a start sequence it
grows, provided that it does not run over; at a start it is emptied, and gets six bytes and
what the end scanner passes on. In a ring of ten cells or less the six bytes may run over or be in
the way of what follows. -/
def Grows (s : Sys) (p : PipeRef) (buf : List UInt8) : Prop :=
  (s.fifo p).proc = some .echoScannerFilterProc → ∀ addr, (s.fifo p).refcon = .zscan addr →
    let text := handedOn (s.zscans addr) buf
    let passed := (passedOn (s.zscans addr) buf).length
    if Complete (heldBack (s.zscans addr) buf) then
      fifoCount (s.fifo p) ≤ throughZfin text +
        if 11 ≤ (s.fifo p).size then startString.length
        else startLeft ((s.fifo p).level.append passed) text.length s.kernel.writes
    else passed % (s.fifo p).size ≤ fifoAvail (s.fifo p)

/-- read() has been asked for something and has reported the end of the file. -/
def EofReported (s : Sys) (p : PipeRef) (fd : Int) : Prop :=
  fifoAvail (s.fifo p) ≠ 0 ∧ (s.kernel.read fd (min (fifoAvail (s.fifo p)) bufsiz)).1 = some []

/-- What is returned by fifo_read and done by pipe_fifo_read says that the file has ended if and
only if read() has said so, and bytes that have been read are no error. -/
structure EofHonest (s : Sys) (p : PipeRef) (fd : Int) (cnt : Int) (s' : Sys) : Prop where
  eof : cnt = -2 ↔ EofReported s p fd
  closes : ∀ r, (s'.pipes p).readAtom = some r → (¬ s'.live r ↔ EofReported s p fd)
  data : arriving s p fd ≠ [] → 0 ≤ cnt

/-- The call does not ask for nothing and get it, and the fifo does not shrink under a packet. -/
def CountsRight (s : Sys) (p : PipeRef) (fd : Int) : Prop :=
  match (s.kernel.read fd (min (fifoAvail (s.fifo p)) bufsiz)).1 with
  | none => True
  | some [] => fifoAvail (s.fifo p) ≠ 0
  | some (b :: bs) => Grows s p (b :: bs)

section Ring

/-- The free room does not grow exactly if what has been appended, modulo the size, fits. -/
theorem runPuts_avail_le_iff (f : Fifo) (puts : List Put) :
    fifoAvail (runPuts f puts) ≤ fifoAvail f ↔ (putBytes puts).length % f.size ≤ fifoAvail f := by
  obtain ⟨hbeg, hstop⟩ := runPuts_indices f puts
  have hb := f.beg_lt
  have hs := f.stop_lt
  have hl := Nat.mod_lt (putBytes puts).length f.size_pos
  rw [← Nat.add_mod_mod, Buffer.mod_of_wrap (by omega)] at hstop
  rw [fifoAvail_eq, fifoAvail_eq, Buffer.avail_eq, Buffer.avail_eq, hbeg, runPuts_size]
  generalize (putBytes puts).length % f.size = l at *
  split at hstop <;> split <;> split <;> omega

theorem runPuts_avail (f : Fifo) (puts : List Put) (h : (putBytes puts).length ≤ fifoAvail f) :
    fifoAvail (runPuts f puts) + (putBytes puts).length = fifoAvail f := by
  rw [fifoAvail_eq] at h
  rw [runPuts_eq f puts h]
  exact fifoUnsafeAppend_avail f _ h

end Ring

section EndScanner

variable {p : PipeRef} {s s' : Sys} {buf : List UInt8}

theorem ZfinSays.begins {saved : Option Nat} {o : ZfinOut} {r : Nat ⊕ List UInt8}
    (h : ZfinSays saved buf o r) : putBytes o.puts <+: buf := by
  obtain (k | k) | rest := r
  · obtain ⟨-, hb⟩ := h
    exact ⟨[], by rw [List.append_nil, ← hb]⟩
  · obtain ⟨-, hb⟩ := h
    exact ⟨[], by rw [List.append_nil, ← hb]⟩
  · obtain ⟨-, hb⟩ := h
    exact ⟨rest, hb.symm⟩

/-- The end scanner passes on nothing but the packet, and in order. -/
theorem zfinScan_begins (saved : Option Nat) (buf : List UInt8) :
    putBytes (zfinScan saved buf).puts <+: buf := by
  by_cases hbuf : buf = []
  · simp only [zfinScan, if_pos hbuf]
    exact List.nil_prefix
  by_cases hsaved : ∀ ref ∈ saved, ref < zfinLength
  · exact (zfinScan_matches hbuf hsaved).begins
  · -- a pointer behind the string matches nothing
    obtain ⟨ref, rfl, href⟩ : ∃ ref, saved = some ref ∧ ¬ ref < zfinLength := by
      simpa using hsaved
    obtain ⟨c, cs, rfl⟩ := List.exists_cons_of_ne_nil hbuf
    have hrun : zfinRun ref (c :: cs) = (ref, c :: cs) := by
      rw [zfinRun, if_neg (fun h => href h.2)]
    have hscan : zfinScan (some ref) (c :: cs) = (zfinMatch ref (c :: cs)).out (some ref) := by
      simp only [zfinScan, if_neg hbuf]
    rw [hscan, zfinMatch, hrun]
    simp only [Nat.sub_self, List.take_zero]
    split
    · exact List.nil_prefix
    · split
      · have hloop := (zfinLoop_matches (some ref) (c :: cs)).begins
        simpa [ZfinPass.out, ZfinOut.after, Put.bytes] using hloop
      · exact List.nil_prefix

theorem throughZfin_eq (text : List UInt8) :
    (putBytes (zfinScan none text).puts).length = throughZfin text := by
  by_cases htext : text = []
  · rw [htext]
    rfl
  · have hsays : ZfinSays none text (zfinScan none text) (scan zfinPattern 0 text) :=
      zfinScan_matches htext (by simp)
    rw [throughZfin]
    generalize scan zfinPattern 0 text = r at hsays ⊢
    obtain (k | k) | rest := r
    · rw [← hsays.2]
    · rw [← hsays.2]
    · have hlength := congrArg List.length hsays.2
      rw [List.length_append] at hlength
      simp only
      omega

/-- A ZFIN string takes its own length. -/
theorem throughZfin_ge (text : List UInt8) : text.length ≤ throughZfin text ∨ zfinLength ≤ throughZfin text := by
  rw [throughZfin]
  split
  · exact .inl (Nat.le_refl _)
  · next rest hscan =>
    right
    obtain ⟨u, rfl, hfirst⟩ := (scan_inr_iff zfin_headed text rest).mp hscan
    have hlength := (((first_ofText zfinText u).mp hfirst).1).length_le
    rw [zfinText_length] at hlength
    rw [List.length_append]
    omega

theorem zfinSave_pipes (h : zfinSave s p buf = .ok s') : s'.pipes = s.pipes := by
  rw [zfinSave] at h
  split at h
  · cases h
    rfl
  · obtain ⟨⟨addr, state⟩, -, h⟩ := Result.bind_ok h
    cases h
    rfl

theorem setProc_ring (s : Sys) (p : PipeRef) (proc : Option FifoProc) (refcon : Refcon) :
    ((setProc s p proc refcon).fifo p).toBuffer = (s.fifo p).toBuffer := by
  rw [setProc, fifo_setFifo]

theorem zfinNooo_ring (h : zfinNooo s p buf = .ok s') :
    (s'.fifo p).toBuffer = (s.fifo p).toBuffer := by
  rw [zfinNooo] at h
  split at h
  · cases h
    rfl
  · obtain ⟨⟨addr, state⟩, -, h⟩ := Result.bind_ok h
    simp only at h
    split at h
    · cases h
      rfl
    · rw [Sys.fifo, zfinSave_pipes h]
      exact setProc_ring _ p _ _

theorem zfinTerm_ring (h : zfinTerm s p = .ok s') : (s'.fifo p).toBuffer = (s.fifo p).toBuffer := by
  obtain ⟨⟨addr, state⟩, -, h⟩ := Result.bind_ok h
  obtain ⟨s₁, hterm, h⟩ := Result.bind_ok h
  cases h
  have hpipes : s₁.pipes = s.pipes := by
    rw [taskTerminate] at hterm
    split at hterm
    · cases hterm
    · split at hterm
      · cases hterm
        rfl
      · cases hterm
        rfl
  have hfifo : s₁.fifo p = s.fifo p := by rw [Sys.fifo, Sys.fifo, hpipes]
  rw [← hfifo]
  exact setProc_ring s₁ p (some .zfinDrop) (s₁.fifo p).refcon

/-- The proc that takes over from the end scanner takes itself off. -/
theorem zfinTerm_drops (h : zfinTerm s p = .ok s') : (s'.fifo p).proc = some .zfinDrop := by
  obtain ⟨x, -, h⟩ := Result.bind_ok h
  obtain ⟨s₁, -, h⟩ := Result.bind_ok h
  cases h
  rw [zfinDrop, setProc, fifo_setFifo]

theorem zfinScanProc_ring (h : zfinScanProc s p buf = .ok s') :
    ∃ addr, (s.fifo p).refcon = .zfin addr ∧
      (s'.fifo p).toBuffer = (runPuts (s.fifo p) (zfinScan (s.zfins addr).ref buf).puts).toBuffer := by
  obtain ⟨⟨addr, state⟩, hstate, h⟩ := Result.bind_ok h
  have hrefcon : (s.fifo p).refcon = .zfin addr ∧ s.zfins addr = state := by
    rw [zfinState] at hstate
    split at hstate
    · next addr' heq =>
      cases hstate
      exact ⟨heq, rfl⟩
    · cases hstate
  obtain ⟨hrefcon, rfl⟩ := hrefcon
  refine ⟨addr, hrefcon, ?_⟩
  simp only at h
  split at h
  · cases h
  · next f state' rest hcall =>
    have hf : f.toBuffer = (runPuts (s.fifo p) (zfinScan (s.zfins addr).ref buf).puts).toBuffer := by
      rw [zfinScanCall] at hcall
      simp only at hcall
      split at hcall
      · cases hcall
      · split at hcall
        · cases hcall
          rfl
        · cases hcall
          rfl
    have h₁ : (((setZfin s addr state').setFifo p f s.kernel).fifo p).toBuffer = f.toBuffer := by
      rw [fifo_setFifo]
    rw [← hf, ← h₁]
    split at h
    · cases h
      rfl
    · split at h
      · exact zfinNooo_ring h
      · exact zfinTerm_ring h

end EndScanner

section StartScanner

variable {p : PipeRef} {s s' : Sys} {buf : List UInt8} {fd : Int}

/-- The fifo under a transfer: its end scanner is fresh. -/
def FreshZfin (s : Sys) (p : PipeRef) : Prop :=
  (s.fifo p).proc = some .zfinScan ∧ ∃ addr, (s.fifo p).refcon = .zfin addr ∧ (s.zfins addr).ref = none

theorem rztaskInstall_fifo (hwf : s.WF) (p : PipeRef) (h : rztaskInstall s = .ok s') :
    (s'.fifo p).toBuffer = (s.fifo p).toBuffer ∧ FreshZfin s' p := by
  obtain ⟨⟨⟨infd, outfd, errfd, childPid⟩, s₁⟩, hfork, h⟩ := Result.bind_ok h
  obtain ⟨-, -, k, rfl⟩ := forkRzProcess_ok hfork
  let s₂ : Sys := (rzCreateSpec { s with kernel := k } infd outfd errfd childPid).2
  have hs₂ : Filtered p s s₂ := ⟨rfl, Nat.le_add_right _ _, fun _ _ => rfl, rfl, rfl⟩
  have hin := taskInstall_ok (hs₂.wf hwf) h
  have hzfins : s'.zfins = s₂.zfins := by rw [hin.rest]
  rw [FreshZfin, hzfins]
  cases p with
  | inputMaster =>
    rw [Sys.fifo, hin.inputMaster]
    refine ⟨rfl, rfl, s.fresh + 1, rfl, ?_⟩
    simp [s₂, rzCreateSpec, zfinCreate]
  | masterOutput =>
    rw [Sys.fifo, hin.masterOutput]
    refine ⟨rfl, rfl, s.fresh + 2, rfl, ?_⟩
    simp [s₂, rzCreateSpec, zfinCreate]

/-- Forking and installing the task use up no answer of write(). -/
theorem rztaskInstall_writes (hwf : s.WF) (h : rztaskInstall s = .ok s') :
    s'.kernel.writes = s.kernel.writes := by
  obtain ⟨⟨⟨infd, outfd, errfd, childPid⟩, s₁⟩, hfork, h⟩ := Result.bind_ok h
  have hwrites : s₁.kernel.writes = s.kernel.writes := by
    rw [forkRzProcess] at hfork
    split at hfork
    · cases hfork
    · cases hfork
    · cases hfork
      rfl
  obtain ⟨-, -, k, rfl⟩ := forkRzProcess_ok hfork
  have h₁ : Filtered .inputMaster s (rzCreateSpec { s with kernel := k } infd outfd errfd childPid).2 :=
    ⟨rfl, Nat.le_add_right _ _, fun _ _ => rfl, rfl, rfl⟩
  rw [(taskInstall_ok (h₁.wf hwf) h).rest]
  exact hwrites

/-- What is left of the packet goes through the end scanner, behind a drain if there is need. -/
theorem zscanRemaining_count (hfresh : FreshZfin s p) (hfd : 0 ≤ fd) (h : zscanRemaining s p buf fd = .ok s') :
    ∃ l ws, (s.fifo p).level.drain (buf.length ≤ ·.room) 5 s.kernel.writes = some (l, ws) ∧
      fifoCount (s'.fifo p) = l.count + throughZfin buf := by
  obtain ⟨hproc, addr, hrefcon, href⟩ := hfresh
  rw [zscanRemaining] at h
  split at h
  · next hnil =>
    cases h
    rw [hnil, List.length_nil, Level.drain, if_pos (decide_eq_true (Nat.zero_le _))]
    exact ⟨_, _, rfl, rfl⟩
  · obtain ⟨sent, f, k, hw, ⟨he, hroom⟩ | he⟩ := zscanMakeRoom_wrote (s.fifo p) fd buf.length s.kernel
    · refine ⟨_, _, zscanMakeRoom_level hfd he, ?_⟩
      have hproc' : f.proc = some .zfinScan := by rw [hw.proc, hproc]
      rw [he] at h
      simp only [hproc'] at h
      obtain ⟨addr', hrefcon', hring⟩ := zfinScanProc_ring h
      rw [fifo_setFifo] at hring hrefcon'
      rw [hw.refcon, hrefcon] at hrefcon'
      cases hrefcon'
      have hputs : (putBytes (zfinScan (s.zfins addr).ref buf).puts).length = throughZfin buf := by
        rw [href]
        exact throughZfin_eq buf
      have hcount := congrArg List.length (runPuts_contents f (zfinScan (s.zfins addr).ref buf).puts
        ((zfinScan_begins _ buf).length_le.trans hroom))
      rw [List.length_append, Buffer.toList_length, Buffer.toList_length, hputs] at hcount
      rw [fifoCount_eq, hring]
      exact hcount
    · rw [he] at h
      cases h

/-- What is withheld has not come to the second zero of a header. -/
theorem pending_zeros {conn : ZScanState} (hs : Settled conn) : (pending conn).count ch0 ≤ 1 := by
  have hrz : ∀ z, (rzText z).count ch0 = 0 := by
    intro z
    cases z <;> decide
  obtain he | hw := hs.withheld
  · rw [he]
    decide
  · generalize pending conn = text at hw
    cases hw with
    | line z =>
      rw [hrz]
      decide
    | stars z m k hk hk' =>
      have hstars : (List.replicate (m + 1) chStar).count ch0 = 0 := by
        rw [List.count_replicate, if_neg (by decide)]
      have hheader : ∀ k, k ≤ 3 → (header k).count ch0 ≤ 1 := by decide
      rw [sequence, List.count_append, List.count_append, hrz, hstars]
      have := hheader k hk'
      omega

/-- The rest of the packet that zscan_start is given. -/
theorem zrqScan_start {conn : ZScanState} (hs : Settled conn) (hbuf : buf ≠ []) {rest : List UInt8}
    (h : (zrqScan conn buf).start = some rest) :
    Complete (heldBack conn buf) ∧ rest = handedOn conn buf ∧ rest.length ≤ buf.length := by
  obtain ⟨htext, hcomplete⟩ := zrqScan_holdsBack hs hbuf
  have htr := zrqScan_transparent_of_settled hs hbuf
  rw [Transparent, h] at htr
  obtain ⟨-, z, m, ht⟩ := htr
  have hback : heldBack conn buf = sequence z (m + 1) 3 ++ ch0 :: rest :=
    List.append_cancel_left (htext.symm.trans ht)
  refine ⟨hcomplete.mp (by simp [h]), ?_, ?_⟩
  · have hhead : (header 3 ++ ch0 :: rest).head? ≠ some chStar := by
      have hne : chCan ≠ chStar := by decide
      simpa [header] using hne
    rw [handedOn, hback, sequence, List.append_assoc, List.append_assoc,
      (behindStars_stars z m hhead).2]
    rfl
  · -- otherwise a whole start sequence would have been withheld
    by_contra hlong
    have hlength := congrArg List.length ht
    simp only [List.length_append, List.length_cons] at hlength
    have hleft : pending conn <+: pending conn ++ buf := List.prefix_append _ _
    have hright : putBytes (zrqScan conn buf).puts ++ sequence z (m + 1) 3 ++ [ch0] <+: pending conn ++ buf := by
      rw [ht]
      exact ⟨rest, by simp⟩
    have hpre := List.prefix_of_prefix_length_le hright hleft (by
      simp only [List.length_append, List.length_cons, List.length_nil]
      omega)
    have hcount := hpre.sublist.count_le ch0
    have hheader : (header 3).count ch0 = 1 := by decide
    rw [List.count_append, List.count_append, sequence, List.count_append, hheader,
      List.count_singleton_self] at hcount
    have hzeros := pending_zeros hs
    omega

theorem avail_of_ring {f f' : Fifo} (h : f.toBuffer = f'.toBuffer) : fifoAvail f = fifoAvail f' := by
  rw [fifoAvail_eq, fifoAvail_eq, h]

theorem passedOn_eq {conn : ZScanState} (hs : Settled conn) (hbuf : buf ≠ []) :
    putBytes (zrqScan conn buf).puts = passedOn conn buf := by
  obtain ⟨htext, -⟩ := zrqScan_holdsBack hs hbuf
  rw [passedOn, htext]
  simp

/-- A start empties the fifo for the start string. -/
theorem zscanPrepare_level {f f' : Fifo} {k k' : Kernel} (hfd : 0 ≤ fd)
    (h : zscanPrepare f fd k = .ok (f', k')) :
    ∃ l, f.level.drain (·.count = 0) 5 k.writes = some (l, k'.writes) ∧
      f'.level = l.append startString.length := by
  rw [zscanPrepare] at h
  split at h
  · cases h
  · next f₁ k₁ hdrain =>
    cases h
    exact ⟨f₁.level, fifoDrainCompletely_level hfd hdrain, fifoUnsafeAppend_level f₁ startString⟩

/-- The fifo that a start leaves against the one it finds. In a ring of eleven cells a drain for the
rest of the packet is called for only if next to nothing was queued before. -/
theorem start_grows {f f' : Fifo} {l : Level} {rest : List UInt8} (hsize : f'.size = f.size)
    (hcount : fifoCount f' = l.count + throughZfin rest) (hrest : rest.length ≤ fifoAvail f)
    (hleft : 11 ≤ f.size → l.count ≤ startString.length ∧
      (l.count = startString.length ∨ f.size - 1 - startString.length < rest.length)) :
    fifoAvail f' ≤ fifoAvail f ↔
      fifoCount f ≤ throughZfin rest + if 11 ≤ f.size then startString.length else l.count := by
  have hsum := f.count_add_avail
  have hsum' := f'.count_add_avail
  have hge : rest.length ≤ throughZfin rest ∨ 19 ≤ throughZfin rest := throughZfin_ge rest
  have hsix : startString.length = 6 := rfl
  simp only [fifoCount_eq, fifoAvail_eq] at *
  split <;> omega

theorem grows_iff (hproc : (s.fifo p).proc = some .echoScannerFilterProc) {addr : Nat}
    (hrefcon : (s.fifo p).refcon = .zscan addr) :
    Grows s p buf ↔ if Complete (heldBack (s.zscans addr) buf) then
        fifoCount (s.fifo p) ≤ throughZfin (handedOn (s.zscans addr) buf) +
          if 11 ≤ (s.fifo p).size then startString.length
          else startLeft ((s.fifo p).level.append (passedOn (s.zscans addr) buf).length)
            (handedOn (s.zscans addr) buf).length s.kernel.writes
      else (passedOn (s.zscans addr) buf).length % (s.fifo p).size ≤ fifoAvail (s.fifo p) := by
  constructor
  · exact fun hg => hg hproc addr hrefcon
  · intro hg _ addr' hrefcon'
    rw [hrefcon] at hrefcon'
    cases hrefcon'
    exact hg

/-- A packet that completes a start sequence, from the drain to the end scanner. -/
theorem start_count {addr : Nat} {conn : ZScanState} {f f₁ : Fifo} {k k₁ : Kernel} {rest : List UInt8}
    (hwf : s.WF) (hfd : 0 ≤ fd) (hf : f.size = (s.fifo p).size)
    (hprep : zscanPrepare f fd k = .ok (f₁, k₁)) {s₁ s₂ : Sys}
    (hs₁ : s₁ = { s with zscans := Function.update s.zscans addr conn }.setFifo p f₁ k₁)
    (hinstall : rztaskInstall { s₁ with kernel := s₁.kernel.log .startProc } = .ok s₂)
    (h : zscanRemaining s₂ p rest fd = .ok s') :
    (s'.fifo p).size = (s.fifo p).size ∧ ∃ l : Level,
      startLeft f.level rest.length k.writes = l.count ∧
      fifoCount (s'.fifo p) = l.count + throughZfin rest ∧
      (11 ≤ (s.fifo p).size → l.count ≤ startString.length ∧
        (l.count = startString.length ∨ (s.fifo p).size - 1 - startString.length < rest.length)) := by
  have hsize₁ := zscanPrepare_size hprep
  obtain ⟨l₀, hdrain₀, hlevel₁⟩ := zscanPrepare_level hfd hprep
  let s₀ : Sys := { s with zscans := Function.update s.zscans addr conn }
  have hs₀ : Filtered p s s₀ := ⟨rfl, Nat.le_refl _, fun _ _ => rfl, rfl, rfl⟩
  have h₁ : Filtered p s s₁ := by
    rw [hs₁]
    exact hs₀.trans (.setFifo s₀ k₁ (hsize₁.trans hf))
  obtain ⟨hring, hfresh⟩ := rztaskInstall_fifo ((h₁.kernel _).wf hwf) p hinstall
  have hfifo₁ : s₁.fifo p = f₁ := by
    rw [hs₁]
    exact fifo_setFifo s₀ p f₁ k₁
  have hring' : (s₂.fifo p).toBuffer = f₁.toBuffer := by
    rw [hring]
    exact congrArg Fifo.toBuffer hfifo₁
  have hlevel₂ : (s₂.fifo p).level = l₀.append startString.length := by
    rw [← hlevel₁, Fifo.level, Fifo.level, fifoCount_eq, fifoCount_eq, hring']
  have hwrites₂ : s₂.kernel.writes = k₁.writes := by
    rw [rztaskInstall_writes ((h₁.kernel _).wf hwf) hinstall, hs₁]
    rfl
  obtain ⟨l, ws, hdrain, hcount⟩ := zscanRemaining_count hfresh hfd h
  have hsize₂ : (s₂.fifo p).size = (s.fifo p).size := by rw [hring', hsize₁, hf]
  refine ⟨?_, l, ?_, hcount, fun hsize => ?_⟩
  · rw [(zscanRemaining_ok (p := p) h).size, hsize₂]
  · rw [hlevel₂, hwrites₂] at hdrain
    rw [startLeft, hdrain₀]
    simp only [hdrain]
  · -- the ring has room for the start string
    obtain ⟨hempty, -, -⟩ := Level.drain_some hdrain₀
    have hcount₂ : (s₂.fifo p).level.count = startString.length := by
      have hl₀ : l₀.size = (s.fifo p).size := by
        rw [← hsize₂]
        exact (congrArg Level.size hlevel₂).symm
      rw [hlevel₂, Level.append, of_decide_eq_true hempty, Nat.zero_add, hl₀]
      exact Nat.mod_eq_of_lt (Nat.lt_of_lt_of_le (by decide) hsize)
    obtain ⟨-, hle, hsame | hneed⟩ := Level.drain_some hdrain
    · rw [hsame, hcount₂]
      exact ⟨Nat.le_refl _, .inl rfl⟩
    · refine ⟨hcount₂ ▸ hle, .inr ?_⟩
      have hroom := of_decide_eq_false hneed
      rw [Level.room, hcount₂] at hroom
      rw [← hsize₂]
      exact Nat.not_le.mp hroom

theorem echoScannerFilterProc_grows (hwf : s.WF) (hfd : 0 ≤ fd)
    (hscan : ∀ addr, (s.fifo p).refcon = .zscan addr → ZrqReach (s.zscans addr)) (hbuf : buf ≠ [])
    (hlen : buf.length ≤ fifoAvail (s.fifo p)) (hproc : (s.fifo p).proc = some .echoScannerFilterProc)
    (h : echoScannerFilterProc s p buf fd = .ok s') :
    fifoAvail (s'.fifo p) ≤ fifoAvail (s.fifo p) ↔ Grows s p buf := by
  rw [echoScannerFilterProc, if_neg hbuf] at h
  split at h
  · next addr hrefcon =>
    have hs := (hscan addr hrefcon).settled
    rw [grows_iff hproc hrefcon]
    rw [echoScannerCall, if_neg hbuf, zrqScanCall] at h
    cases hstart : (zrqScan (s.zscans addr) buf).start with
    | none =>
      have hno : ¬ Complete (heldBack (s.zscans addr) buf) := by
        rw [← (zrqScan_holdsBack hs hbuf).2, hstart]
        exact fun hne => hne rfl
      simp only [hstart] at h
      cases h
      rw [if_neg hno, fifo_setFifo, ← passedOn_eq hs hbuf]
      exact runPuts_avail_le_iff _ _
    | some rest =>
      obtain ⟨hcomplete, hrest, hle⟩ := zrqScan_start hs hbuf hstart
      simp only [hstart] at h
      cases hprep : zscanPrepare (runPuts (s.fifo p) (zrqScan (s.zscans addr) buf).puts) fd s.kernel with
      | error e =>
        rw [hprep] at h
        cases h
      | ok fk =>
        obtain ⟨f₁, k₁⟩ := fk
        simp only [hprep] at h
        obtain ⟨s₂, hinstall, h⟩ := Result.bind_ok h
        obtain ⟨hsize, l, hl, hcount, hleft⟩ :=
          start_count hwf hfd (runPuts_size _ _) hprep rfl hinstall h
        rw [runPuts_level, passedOn_eq hs hbuf] at hl
        rw [if_pos hcomplete, ← hrest, hl]
        exact start_grows hsize hcount (hle.trans hlen) hleft
  · cases h

theorem callProc_grows {proc : FifoProc} (hwf : s.WF) (hfd : 0 ≤ fd)
    (hscan : ∀ addr, (s.fifo p).refcon = .zscan addr → ZrqReach (s.zscans addr)) (hbuf : buf ≠ [])
    (hlen : buf.length ≤ fifoAvail (s.fifo p)) (hproc : (s.fifo p).proc = some proc)
    (h : callProc s p proc buf fd = .ok s') :
    fifoAvail (s'.fifo p) ≤ fifoAvail (s.fifo p) ↔ Grows s p buf := by
  have hother : proc ≠ .echoScannerFilterProc → Grows s p buf := by
    intro hne he
    rw [hproc] at he
    exact absurd (Option.some.inj he) hne
  have hsame : (s'.fifo p).toBuffer = (s.fifo p).toBuffer → fifoAvail (s'.fifo p) ≤ fifoAvail (s.fifo p) :=
    fun hring => Nat.le_of_eq (avail_of_ring hring)
  cases proc with
  | echoScannerFilterProc => exact echoScannerFilterProc_grows hwf hfd hscan hbuf hlen hproc h
  | zfinScan =>
    obtain ⟨addr, -, hring⟩ := zfinScanProc_ring h
    have hle := (zfinScan_begins (s.zfins addr).ref buf).length_le.trans hlen
    have havail := runPuts_avail (s.fifo p) (zfinScan (s.zfins addr).ref buf).puts hle
    rw [avail_of_ring hring]
    exact iff_of_true (by omega) (hother (by decide))
  | zfinNooo => exact iff_of_true (hsame (zfinNooo_ring h)) (hother (by decide))
  | zfinSave =>
    have hring : (s'.fifo p).toBuffer = (s.fifo p).toBuffer := by
      rw [Sys.fifo, zfinSave_pipes h]
      rfl
    exact iff_of_true (hsame hring) (hother (by decide))
  | zfinTerm => exact iff_of_true (hsame (zfinTerm_ring h)) (hother (by decide))
  | zfinDrop =>
    cases h
    exact iff_of_true (Nat.le_refl _) (hother (by decide))

end StartScanner

section Returns

variable {p : PipeRef} {s s' : Sys} {fd cnt : Int}

/-- What the count that fifo_read returns says about what read() has returned. -/
def CountSays (s : Sys) (p : PipeRef) (cnt : Int) : Option (List UInt8) → Prop
  | none => cnt = -1
  | some [] => cnt = -2
  | some (b :: bs) => 0 ≤ cnt ↔ Grows s p (b :: bs)

theorem fifoRead_count (hwf : s.WF) (hfd : 0 ≤ fd)
    (hscan : ∀ addr, (s.fifo p).refcon = .zscan addr → ZrqReach (s.zscans addr))
    (h : fifoRead s p fd = .ok (cnt, s')) :
    CountSays s p cnt (s.kernel.read fd (min (fifoAvail (s.fifo p)) bufsiz)).1 := by
  have hlen := s.kernel.read_length fd (min (fifoAvail (s.fifo p)) bufsiz)
  have hwrites := s.kernel.read_writes fd (min (fifoAvail (s.fifo p)) bufsiz)
  rw [fifoRead] at h
  generalize s.kernel.read fd (min (fifoAvail (s.fifo p)) bufsiz) = res at h hlen hwrites ⊢
  obtain ⟨r, k⟩ := res
  have hwf₁ : Sys.WF { s with kernel := k } := ((Filtered.refl p s).kernel k).wf hwf
  have hpos : ∀ b bs, 0 < readCount (some (b :: bs)) := by
    intro b bs
    simp only [readCount, List.length_cons]
    omega
  simp only at h hlen ⊢
  split at h
  · next proc hproc =>
    obtain ⟨s₁, h₁, h⟩ := Result.bind_ok h
    obtain _ | _ | ⟨b, bs⟩ := r
    · cases h
      rfl
    · cases h
      rfl
    · rw [if_pos (hpos b bs)] at h
      cases h
      have hgrows := callProc_grows (s := { s with kernel := k }) hwf₁ hfd hscan
        (List.cons_ne_nil b bs) (hlen.trans (Nat.min_le_left _ _)) hproc h₁
      have hiff : fifoAvail (s'.fifo p) ≤ fifoAvail (s.fifo p) ↔ Grows s p (b :: bs) := by
        rw [Grows, ← hwrites]
        exact hgrows
      change 0 ≤ (fifoAvail (s.fifo p) : Int) - fifoAvail (s'.fifo p) ↔ _
      rw [← hiff]
      omega
  · next hproc =>
    obtain _ | _ | ⟨b, bs⟩ := r
    · cases h
      rfl
    · cases h
      rfl
    · rw [if_pos (hpos b bs)] at h
      cases h
      refine iff_of_true (Int.le_of_lt (hpos b bs)) fun he => ?_
      have hnone : (s.fifo p).proc = none := hproc
      rw [hnone] at he
      cases he

/-- A read event leaves its pipe with an open reader, up to the closing. -/
theorem ReadEffect.live {r : AtomRef} {buf : List UInt8} (hwf : s.WF)
    (hr : (s.pipes p).readAtom = some r) (hl : s.live r) (h : ReadEffect p buf s s') :
    ∀ r', (s'.pipes p).readAtom = some r' → s'.live r' := by
  intro r' hr'
  cases h with
  | filtered h =>
    rw [(h.ends p).1, hr] at hr'
    cases hr'
    exact h.sameAtoms.live.mpr hl
  | @started s₁ s₂ _ spec _ h₁ hfd h₂ h₃ =>
    have hin := taskInstall_ok (h₁.wf hwf) h₂
    rw [(h₃.ends p).1] at hr'
    rw [h₃.sameAtoms.live]
    cases p with
    | inputMaster =>
      rw [hin.inputMaster] at hr'
      cases hr'
      exact hin.liveR.mpr hfd.1
    | masterOutput =>
      rw [hin.masterOutput] at hr'
      have hsame : (s₁.pipes .masterOutput).readAtom = some r' := hr'
      rw [(h₁.ends _).1, hr] at hsame
      cases hsame
      have hmaster : s₂.live r ↔ s₁.live r := by
        rw [Sys.live, Sys.live, hin.fd r ((h₁.wf hwf).inUse .masterOutput r (.inl hr'))]
      exact hmaster.mpr (h₁.sameAtoms.live.mpr hl)

/-- pipe_fifo_read closes its reader when it returns -2, and then only. -/
theorem pipeFifoRead_closes {r : AtomRef} (hwf : s.WF) (hr : (s.pipes p).readAtom = some r)
    (hl : s.live r) (h : pipeFifoRead s p = .ok (cnt, s')) :
    (∃ s₁, fifoRead s p (s.atoms r).fd = .ok (cnt, s₁)) ∧
      ∀ r', (s'.pipes p).readAtom = some r' → (¬ s'.live r' ↔ cnt = -2) := by
  obtain ⟨r₀, s₁, hr₀, hread, hclose⟩ := pipeFifoRead_ok h
  obtain rfl := Option.some.inj (hr₀.symm.trans hr)
  have hlive := (fifoRead_ok hread).live hwf hr hl
  refine ⟨⟨s₁, hread⟩, ?_⟩
  obtain ⟨hno, rfl⟩ | ⟨heof, r₁, hr₁, rfl⟩ := hclose
  · exact fun r' hr' => iff_of_false (fun hdead => hdead (hlive r' hr')) hno
  · refine fun r' hr' => iff_of_true (fun hl' => ?_) heof
    rw [(closeAtom_rest s₁ r₁).1] at hr'
    obtain rfl := Option.some.inj (hr'.symm.trans hr₁)
    exact ((live_closeAtom s₁ r' r').mp hl').1 rfl

end Returns

/-- The kernel under a terminal that takes nothing for a while. -/
def stalled : Kernel where
  reads := [.data 104 [101, 108, 108, 111, 32, 119, 111], .data chStar [chStar, chCan, chB, ch0, ch0]]
  writes := [.fail .eagain, .accept 8]
  forks := [.child (7, 8) (9, 10) (11, 12) 99]
  errno := none
  trace := []

end Rzh
