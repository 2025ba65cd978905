import Rzh.IdleNumbers
import Rzh.System

/-!
# The status line

idle_proc() and idle_end(): when a line is due, and how its text is brought to the width of the window in a
buffer of 256 characters.
-/
namespace Rzh

/-- Without a window there are 80 columns. -/
def bgioGetWindowWidth (wsCol : UInt16) : Int := if wsCol ≠ 0 then wsCol.toNat else 80

/-- A blank is stored at each index from the end of the string up to the width, if there is any. -/
def padWithBlanks (buf : List UInt8) (width : Int) : Option (List UInt8) := do
  let i ← strlen buf
  stores buf i (List.replicate (width - i).toNat 32)

/-- No more than the buffer holds in front of its last character. -/
def lineLength (wsCol : UInt16) : Int :=
  if toSize (bgioGetWindowWidth wsCol) > 256 - 1 then 256 - 1 else bgioGetWindowWidth wsCol

/-- A text is printed and padded, and the ending goes over its last characters. -/
def drawLine (memory : Nat → UInt8) (text : Text) (wsCol : UInt16) (ending : List UInt8) :
    Option (List UInt8) := do
  let line ← snprintf (fresh memory 256) 0 256 text.chars
  let len := lineLength wsCol
  let buf ← padWithBlanks line.1 len
  let buf ← stores buf (len - ending.length) ending
  load buf len

/-- What idle_proc() writes if it is to show `text`. -/
def idleProcLine (memory : Nat → UInt8) (text : Text) (wsCol : UInt16) : Option (List UInt8) :=
  drawLine memory text wsCol [13]

/-- What idle_end() writes. -/
def idleEndLine (memory : Nat → UInt8) (text : Text) (wsCol : UInt16) : Option (List UInt8) :=
  drawLine memory text wsCol [13, 10]

namespace Text

def append (s t : Text) : Text := ⟨s.chars ++ t.chars, List.not_mem_append s.no_nul t.no_nul⟩

def join : List Text → Text
  | [] => ⟨[], List.not_mem_nil⟩
  | s :: rest => s.append (join rest)

end Text

/-- The pieces of a format are strings. -/
def literal (s : String) : Text := cText (ascii s)

namespace IdleNumbers

def procText (n : IdleNumbers) (command : Text) : Text :=
  Text.join [n.xfertime, literal " ", command, literal ": received ", n.rnum, literal " at ", n.rbps,
    literal "/s, sent ", n.snum, literal " at ", n.sbps, literal "/s"]

def endText (n : IdleNumbers) : Text :=
  Text.join [literal "Received ", n.rnum, literal " at ", n.rbps, literal "/s   Sent ", n.snum, literal " at ",
    n.sbps, literal "/s."]

end IdleNumbers

/-- What the two procs find besides: the clock before and after, and the window. -/
structure IdleReadings extends Readings where
  nowTime : Timespec
  lastTime : Timespec
  wsCol : UInt16

def sleeptime : Int := 300

def fuzztime : Int := 50

/-- What idle_proc() returns, the line it has written, if any, and its state. -/
structure IdleStep where
  time : Int
  line : Option (List UInt8)
  idle : IdleState

/-- How long the line is still good for. The first time it is due. -/
def idleWait (idle : IdleState) (nowTime : Timespec) : Option Int :=
  if idle.lastTime.sec ≠ 0 then
    (doubleToInt (double (timespecDiff nowTime idle.lastTime * 1000))).map fun ms => wrapInt (sleeptime - ms)
  else some 0

def idleProc (optQuiet : Bool) (idle : IdleState) (r : IdleReadings) : Option IdleStep :=
  if optQuiet then some ⟨sleeptime, none, idle⟩
  else do
    let bah ← idleWait idle r.nowTime
    -- the line is still new enough
    if bah > fuzztime then some ⟨bah, none, idle⟩
    else do
      let idle := { idle with callCnt := wrapInt (idle.callCnt + 1) }
      let n ← idleGetNumbers idle r.toReadings
      let line ← idleProcLine r.memory (n.procText idle.command) r.wsCol
      some ⟨sleeptime, some line, { idle with lastTime := r.lastTime }⟩

/-- What idle_end() gives to pipe_write(), if anything. -/
def idleEndWrites (optQuiet : Bool) (idle : IdleState) (r : IdleReadings) : Option (Option (List UInt8)) :=
  if optQuiet then some none
  else do
    let n ← idleGetNumbers idle r.toReadings
    let line ← idleEndLine r.memory n.endText r.wsCol
    some (some line)

/-- How a line is meant to look: the text and blanks, cut, and the ending. -/
def shownLine (ending text : List UInt8) (len : Nat) : List UInt8 :=
  (text ++ List.replicate len 32).take (len - ending.length) ++ ending

/-- The length of a line: the width of the window, or what fits into the buffer in front of a NUL. -/
def fitting (width : Int) : Nat := min width.toNat 255

/-- The line is as it is meant to look and as long as the window is wide or the buffer allows. -/
structure LineFits (line : Option (List UInt8)) (ending text : List UInt8) (width : Int) : Prop where
  shown : line = some (shownLine ending text (fitting width))
  length : (shownLine ending text (fitting width)).length = fitting width

section Lines

variable {text rest : List UInt8} {len : Nat}

theorem take_blanks {n : Nat} (back : List UInt8) (hn : len - text.length ≤ n) :
    (text ++ (List.replicate n 32 ++ back)).take len = text.take len ++ List.replicate (len - text.length) 32 := by
  rw [List.take_append, List.take_append_of_le_length (by rwa [List.length_replicate]), List.take_replicate,
    Nat.min_eq_left hn]

/-- Blanks stand behind the text of a line, however long it is. -/
theorem padWithBlanks_take (htext : 0 ∉ text) (hlen : len ≤ (text ++ 0 :: rest).length) :
    ∃ buf, padWithBlanks (text ++ 0 :: rest) len = some buf ∧ buf.length = (text ++ 0 :: rest).length ∧
      buf.take len = (text ++ List.replicate len 32).take len := by
  have hcount : ((len : Int) - (text.length : Nat)).toNat = len - text.length := by omega
  have hle : text.length ≤ (text ++ 0 :: rest).length := by
    rw [List.length_append]
    omega
  have hroom : text.length + (List.replicate (len - text.length) (32 : UInt8)).length ≤
      (text ++ 0 :: rest).length := by
    rw [List.length_replicate]
    omega
  have htake : (text ++ 0 :: rest).take text.length = text := List.take_left
  rw [padWithBlanks, strlen_append rest htext]
  simp only [Option.bind_eq_bind, Option.bind_some, hcount]
  rw [stores_inside hroom, htake]
  refine ⟨_, rfl, ?_, ?_⟩
  · rw [List.length_append, List.length_append, List.length_drop]
    omega
  · -- as many blanks as are stored, or as many as the line is long: the first `len` characters are the same
    have hall := take_blanks [] (Nat.sub_le len text.length)
    rw [List.append_nil] at hall
    rw [hall, take_blanks _ (Nat.le_refl _)]

/-- What snprintf() cuts off would not have been in the line. -/
theorem take_printed (blanks : List UInt8) (hlen : len ≤ 255) :
    (text.take 255 ++ blanks).take len = (text ++ blanks).take len := by
  by_cases hlong : text.length ≤ 255
  · rw [List.take_of_length_le hlong]
  · rw [List.take_append_of_le_length (by rw [List.length_take]; omega), List.take_take, Nat.min_eq_left hlen,
      List.take_append_of_le_length (by omega)]

end Lines

section Widths

variable (memory : Nat → UInt8) (text : Text) (wsCol : UInt16) (ending : List UInt8)

/-- No window is without columns, whatever the terminal says. -/
theorem bgioGetWindowWidth_range : 1 ≤ bgioGetWindowWidth wsCol ∧ bgioGetWindowWidth wsCol ≤ 65535 := by
  have hlt := wsCol.toNat_lt
  rw [bgioGetWindowWidth]
  split
  · rename_i h
    have hpos : wsCol.toNat ≠ 0 := fun h0 => h (UInt16.toNat_inj.mp h0)
    omega
  · omega

theorem fitting_le (width : Int) : fitting width ≤ 255 := Nat.min_le_right _ 255

theorem lineLength_eq : lineLength wsCol = (fitting (bgioGetWindowWidth wsCol) : Int) := by
  have hrange := bgioGetWindowWidth_range wsCol
  rw [lineLength, toSize_of_nonneg (by omega), fitting]
  split <;> omega

/-- The buffer after the blanks: the line without its ending. -/
theorem drawLine_padded : ∃ buf, buf.length = 256 ∧
    buf.take (fitting (bgioGetWindowWidth wsCol)) =
      (text.chars ++ List.replicate (fitting (bgioGetWindowWidth wsCol)) 32).take
        (fitting (bgioGetWindowWidth wsCol)) ∧
    drawLine memory text wsCol ending =
      (stores buf ((fitting (bgioGetWindowWidth wsCol) : Int) - ending.length) ending).bind fun buf =>
        load buf (fitting (bgioGetWindowWidth wsCol) : Int) := by
  have hfresh : 256 ≤ (fresh memory 256).length := Nat.le_of_eq (length_fresh memory 256).symm
  have hcut : 0 ∉ text.chars.take 255 := fun h => text.no_nul (List.mem_of_mem_take h)
  have hprint : snprintf (fresh memory 256) 0 256 text.chars = some (text.chars.take 255 ++ 0 :: _, _) :=
    snprintf_start (by omega) hfresh
  have hlength : (text.chars.take 255 ++
      0 :: (fresh memory 256).drop ((text.chars.take 255).length + 1)).length = 256 := by
    rw [List.length_append, List.length_cons, List.length_drop, length_fresh, List.length_take]
    omega
  have hinside : fitting (bgioGetWindowWidth wsCol) ≤ (text.chars.take 255 ++
      0 :: (fresh memory 256).drop ((text.chars.take 255).length + 1)).length := by
    rw [hlength]
    exact Nat.le_trans (fitting_le _) (by decide)
  obtain ⟨buf, hpad, hbuf, htake⟩ := padWithBlanks_take hcut hinside
  refine ⟨buf, hbuf.trans hlength, ?_, ?_⟩
  · rw [htake, take_printed _ (fitting_le _)]
  · rw [drawLine, hprint]
    simp only [Option.bind_eq_bind, Option.bind_some, lineLength_eq, hpad]

/-- An ending that is not longer than the line goes over the end of it. -/
theorem drawLine_fits (h : ending.length ≤ fitting (bgioGetWindowWidth wsCol)) :
    LineFits (drawLine memory text wsCol ending) ending text.chars (bgioGetWindowWidth wsCol) := by
  obtain ⟨buf, hbuf, htake, hdraw⟩ := drawLine_padded memory text wsCol ending
  -- from here on only that the line is not longer than the buffer matters, not where its length comes from
  generalize hlen : fitting (bgioGetWindowWidth wsCol) = len at *
  have hle : len ≤ 255 := by
    rw [← hlen]
    exact fitting_le _
  have hoff : (len : Int) - (ending.length : Nat) = ((len - ending.length : Nat) : Int) := by omega
  have hend : len - ending.length + ending.length = len := Nat.sub_add_cancel h
  have hfront : (buf.take (len - ending.length)).length = len - ending.length := by
    rw [List.length_take]
    omega
  have hcut : (buf.take (len - ending.length)) =
      (text.chars ++ List.replicate len 32).take (len - ending.length) := by
    have hsub : min (len - ending.length) len = len - ending.length := Nat.min_eq_left (Nat.sub_le _ _)
    rw [← hsub, ← List.take_take, htake, List.take_take]
  have hload := load_append (buf.take (len - ending.length) ++ ending) (buf.drop len)
  rw [List.append_assoc, List.length_append, hfront, hend] at hload
  constructor
  · rw [hlen, hdraw, hoff, stores_inside (by omega), hend, Option.bind_some, hload, hcut]
    rfl
  · rw [hlen, shownLine, ← hcut, List.length_append, hfront, hend]

/-- An ending that is longer begins in front of the buffer. -/
theorem drawLine_before (hne : ending ≠ []) (h : fitting (bgioGetWindowWidth wsCol) < ending.length) :
    drawLine memory text wsCol ending = none := by
  obtain ⟨buf, -, -, hdraw⟩ := drawLine_padded memory text wsCol ending
  obtain ⟨c, cs, rfl⟩ := List.exists_cons_of_ne_nil hne
  rw [hdraw, stores_before (by omega), Option.bind_none]

theorem fitting_pos : 1 ≤ fitting (bgioGetWindowWidth wsCol) := by
  have hrange := bgioGetWindowWidth_range wsCol
  rw [fitting]
  omega

theorem idleProcLine_fits :
    LineFits (idleProcLine memory text wsCol) [13] text.chars (bgioGetWindowWidth wsCol) :=
  drawLine_fits memory text wsCol [13] (fitting_pos wsCol)

theorem idleEndLine_fits (h : bgioGetWindowWidth wsCol ≠ 1) :
    LineFits (idleEndLine memory text wsCol) [13, 10] text.chars (bgioGetWindowWidth wsCol) := by
  apply drawLine_fits
  have hpos := fitting_pos wsCol
  rw [fitting] at *
  show 2 ≤ _
  omega

/-- In a window of one column the carriage return is stored in front of the buffer. -/
theorem idleEndLine_before (h : bgioGetWindowWidth wsCol = 1) : idleEndLine memory text wsCol = none := by
  apply drawLine_before
  · exact List.cons_ne_nil 13 [10]
  · rw [h]
    exact Nat.one_lt_two

/-- The line of idle_proc() is right in every window, and that of idle_end() in every one but the narrowest. -/
theorem idle_lines_iff :
    LineFits (idleProcLine memory text wsCol) [13] text.chars (bgioGetWindowWidth wsCol) ∧
      (LineFits (idleEndLine memory text wsCol) [13, 10] text.chars (bgioGetWindowWidth wsCol) ↔
        bgioGetWindowWidth wsCol ≠ 1) ∧
      (idleEndLine memory text wsCol = none ↔ bgioGetWindowWidth wsCol = 1) := by
  have hnone : bgioGetWindowWidth wsCol = 1 → idleEndLine memory text wsCol = none :=
    idleEndLine_before memory text wsCol
  have hsome : bgioGetWindowWidth wsCol ≠ 1 →
      LineFits (idleEndLine memory text wsCol) [13, 10] text.chars (bgioGetWindowWidth wsCol) :=
    idleEndLine_fits memory text wsCol
  refine ⟨idleProcLine_fits memory text wsCol, ⟨?_, hsome⟩, ?_, hnone⟩
  · intro hfits h
    have hshown := hfits.shown
    rw [hnone h] at hshown
    cases hshown
  · intro hbefore
    by_contra h
    have hshown := (hsome h).shown
    rw [hbefore] at hshown
    cases hshown

end Widths

/-- A window of one column, and the text of a transfer in which nothing has been moved. -/
theorem idleEnd_one_column : ∃ n : IdleNumbers,
    n.endText.chars = ascii "Received 0 B at 0 B/s   Sent 0 B at 0 B/s." ∧
      bgioGetWindowWidth 1 = 1 ∧ idleEndLine (fun _ => 0) n.endText 1 = none := by
  refine ⟨⟨countText 0, countText 0, countText 0, countText 0, timeText 0⟩, ?_⟩
  decide +kernel

section Procs

variable {optQuiet : Bool} {idle : IdleState} {r : IdleReadings} {step : IdleStep}

/-- It is quiet, or the last line is good for a while, or a line is written. -/
theorem idleProc_cases (h : idleProc optQuiet idle r = some step) :
    step = ⟨sleeptime, none, idle⟩ ∨
      (∃ bah, idleWait idle r.nowTime = some bah ∧ bah > fuzztime ∧ step = ⟨bah, none, idle⟩) ∨
      ∃ text line, idleProcLine r.memory text r.wsCol = some line ∧ step.time = sleeptime ∧
        step.line = some line := by
  rw [idleProc] at h
  split at h
  · exact .inl (Option.some.inj h).symm
  · obtain ⟨bah, hwait, h⟩ := Option.bind_eq_some_iff.mp h
    split at h
    · rename_i hbah
      exact .inr (.inl ⟨bah, hwait, hbah, (Option.some.inj h).symm⟩)
    · obtain ⟨n, -, h⟩ := Option.bind_eq_some_iff.mp h
      obtain ⟨line, hline, h⟩ := Option.bind_eq_some_iff.mp h
      obtain rfl := Option.some.inj h
      exact .inr (.inr ⟨_, line, hline, rfl, rfl⟩)

/-- Every line that is written during a transfer fits. -/
theorem idleProc_line {line : List UInt8} (h : idleProc optQuiet idle r = some step) (hline : step.line = some line) :
    ∃ text : Text, LineFits (some line) [13] text.chars (bgioGetWindowWidth r.wsCol) := by
  obtain rfl | ⟨bah, -, -, rfl⟩ | ⟨text, drawn, hdrawn, -, hstep⟩ := idleProc_cases h
  · cases hline
  · cases hline
  · obtain rfl := Option.some.inj (hstep.symm.trans hline)
    have hfits := idleProcLine_fits r.memory text r.wsCol
    rw [hdrawn] at hfits
    exact ⟨text, hfits⟩

theorem idleWait_le {bah : Int} (hclock : 0 ≤ timespecDiff r.nowTime idle.lastTime)
    (h : idleWait idle r.nowTime = some bah) : bah ≤ sleeptime := by
  rw [idleWait] at h
  split at h
  · obtain ⟨ms, hms, rfl⟩ := Option.map_eq_some_iff.mp h
    have hnonneg : 0 ≤ double (timespecDiff r.nowTime idle.lastTime * 1000) := double_nonneg (by linarith)
    rw [doubleToInt] at hms
    split at hms
    · rename_i hrange
      obtain rfl := Option.some.inj hms
      have hnum := Int.tdiv_nonneg (Rat.num_nonneg.mpr hnonneg)
        (Int.natCast_nonneg (double (timespecDiff r.nowTime idle.lastTime * 1000)).den)
      have hlarge := hrange.2
      rw [sleeptime, wrapInt_of_range (by omega) (by omega)]
      omega
    · cases hms
  · obtain rfl := Option.some.inj h
    decide

/-- Unless the difference to the last line is negative, the next call is due after the fuzz and no later than the
sleep. -/
theorem idleProc_time (hclock : 0 ≤ timespecDiff r.nowTime idle.lastTime)
    (h : idleProc optQuiet idle r = some step) : fuzztime < step.time ∧ step.time ≤ sleeptime := by
  obtain rfl | ⟨bah, hwait, hbah, rfl⟩ | ⟨_, _, -, htime, -⟩ := idleProc_cases h
  · show fuzztime < sleeptime ∧ sleeptime ≤ sleeptime
    decide
  · exact ⟨hbah, idleWait_le hclock hwait⟩
  · rw [htime]
    decide

/-- What idle_end() gives to the pipe is a line of the kind that the transfer's end writes. -/
theorem idleEndWrites_status (h : r.toReadings.Sound idle) (hwidth : bgioGetWindowWidth r.wsCol ≠ 1) :
    ∃ status : StatusLine, idleEndWrites false idle r = some (some status.text) ∧
      status.text.length = fitting (bgioGetWindowWidth r.wsCol) := by
  obtain ⟨n, hn⟩ : ∃ n, idleGetNumbers idle r.toReadings = some n := ⟨_, idleGetNumbers_eq h⟩
  obtain ⟨hshown, hlength⟩ := idleEndLine_fits r.memory n.endText r.wsCol hwidth
  refine ⟨⟨shownLine [13, 10] n.endText.chars (fitting (bgioGetWindowWidth r.wsCol)), ?_⟩, ?_, hlength⟩
  · exact List.append_ne_nil_of_right_ne_nil _ (List.cons_ne_nil 13 [10])
  · rw [idleEndWrites, if_neg Bool.false_ne_true, hn]
    simp only [Option.bind_eq_bind, Option.bind_some, hshown]

end Procs

end Rzh
