import Rzh.Idle

/-!
# How often the status line is drawn

idle_proc() is called each time the loop goes round, and goes by the clock whether a line is due. Lines are
never drawn too fast, and while the loop waits no longer than it has been told to, never too late.
-/
namespace Rzh

/-- A line, with the moment when it was found to be due and the one when it was there. -/
structure Drawn where
  due : ℚ
  there : ℚ

namespace IdleStep

/-- What the clock has said last. -/
def clock (step : IdleStep) (r : IdleReadings) : ℚ :=
  if step.line.isSome then r.lastTime.secs else r.nowTime.secs

def lines (step : IdleStep) (r : IdleReadings) (drawn : List Drawn) : List Drawn :=
  if step.line.isSome then ⟨r.nowTime.secs, r.lastTime.secs⟩ :: drawn else drawn

end IdleStep

/-- The calls during a transfer that is not quiet, with the lines that have been drawn, what the clock has said last
and when the next call is made at the latest: the loop waits as long as it is told to, and `slack` seconds go to
other things. The clock does not go back, and it is a second past its zero. -/
inductive IdleRun (slack : ℚ) : List Drawn → ℚ → ℚ → IdleState → Prop where
  | create (command : Text) (inputWritten outputWritten : Int) (startTime : Timespec) (latest : ℚ) :
    IdleRun slack [] startTime.secs latest (idleCreate command inputWritten outputWritten startTime)
  | call {drawn : List Drawn} {clock latest : ℚ} {idle : IdleState} {step : IdleStep}
    (run : IdleRun slack drawn clock latest idle) (r : IdleReadings) (hnow : clock ≤ r.nowTime.secs)
    (hlatest : r.nowTime.secs ≤ latest) (hlast : r.nowTime.secs ≤ r.lastTime.secs) (hsec : r.lastTime.sec ≠ 0)
    (h : idleProc false idle r = some step) :
    IdleRun slack (step.lines r drawn) (step.clock r) (step.clock r + step.time / 1000 + slack) step.idle

/-- A quarter of a second has passed, and no more than the time between invocations and what is cut off, both to the
microsecond by which the doubles may be wrong. -/
def Spaced (slack : ℚ) (newer older : Drawn) : Prop :=
  older.there + 250 / 1000 - 1 / 1000000 ≤ newer.due ∧
    newer.due < older.there + 301 / 1000 + 1 / 1000000 + slack ∧ newer.due ≤ newer.there

/-- The state of a transfer: the last line is the one that it goes by. -/
structure Paced (slack : ℚ) (drawn : List Drawn) (clock latest : ℚ) (idle : IdleState) : Prop where
  first : drawn = [] → idle.lastTime.sec = 0
  last : ∀ line ∈ drawn.head?, idle.lastTime.sec ≠ 0 ∧ idle.lastTime.secs = line.there ∧ line.there ≤ clock ∧
    latest < line.there + 301 / 1000 + 1 / 1000000 + slack
  spaced : drawn.IsChain (Spaced slack)

section Calls

variable {slack clock latest : ℚ} {idle : IdleState} {r : IdleReadings} {step : IdleStep} {drawn : List Drawn}

/-- A conversion drops what is behind the point. -/
theorem tdiv_near {q : ℚ} (h : -1 < q) :
    ∃ ms : Nat, q.num.tdiv q.den = ms ∧ (ms : ℚ) ≤ max q 0 ∧ q < ms + 1 := by
  obtain hneg | hnonneg := lt_or_ge q 0
  · have hzero : ⌊-q⌋₊ = 0 := Nat.floor_eq_zero.mpr (by linarith)
    have hopposite := tdiv_floor (by linarith : 0 ≤ -q)
    rw [Rat.neg_num, Rat.neg_den, Int.neg_tdiv, hzero] at hopposite
    refine ⟨0, ?_, ?_, ?_⟩
    · omega
    · rw [Nat.cast_zero]
      exact le_max_right q 0
    · rw [Nat.cast_zero]
      linarith
  · exact ⟨⌊q⌋₊, tdiv_floor hnonneg, (Nat.floor_le hnonneg).trans (le_max_left q 0), Nat.lt_floor_add_one q⟩

/-- The milliseconds are right to less than one in a thousand of them. -/
theorem millisecs_error (finish start : Timespec) :
    |double (timespecDiff finish start * 1000) - (finish.secs - start.secs) * 1000| ≤ 1 / 1000 := by
  obtain ⟨hdiff, hdiff'⟩ := abs_le.mp (timespecDiff_error finish start)
  have hfinish := finish.secs_le
  have hstart := start.secs_le
  have hfinish' := finish.secs_nonneg
  have hstart' := start.secs_nonneg
  have hsize : |timespecDiff finish start * 1000| ≤ (2 ^ 31 + 1) * 1000 := by
    rw [abs_le]
    constructor <;> linarith
  obtain ⟨herror, herror'⟩ := abs_le.mp (double_error (timespecDiff finish start * 1000))
  rw [abs_le]
  constructor <;> linarith

/-- What is left of the time between invocations, in whole milliseconds. -/
theorem idleWait_near {bah : Int} (hsec : idle.lastTime.sec ≠ 0) (hclock : idle.lastTime.secs ≤ r.nowTime.secs)
    (h : idleWait idle r.nowTime = some bah) :
    ∃ ms : Nat, bah = sleeptime - ms ∧ (ms : ℚ) ≤ (r.nowTime.secs - idle.lastTime.secs) * 1000 + 1 / 1000 ∧
      (r.nowTime.secs - idle.lastTime.secs) * 1000 < ms + 1 + 1 / 1000 := by
  rw [idleWait, if_pos hsec] at h
  obtain ⟨ms, hms, rfl⟩ := Option.map_eq_some_iff.mp h
  obtain ⟨herror, herror'⟩ := abs_le.mp (millisecs_error r.nowTime idle.lastTime)
  obtain ⟨n, hn, hle, hlt⟩ := tdiv_near (by linarith : -1 < double (timespecDiff r.nowTime idle.lastTime * 1000))
  rw [doubleToInt, hn] at hms
  split at hms
  · next hrange =>
    obtain rfl := Option.some.inj hms
    have hlarge := hrange.2
    refine ⟨n, ?_, hle.trans (max_le (by linarith) (by linarith)), by linarith⟩
    rw [sleeptime, wrapInt_of_range (by omega) (by omega)]
  · cases hms

/-- The state that a call leaves: a line that has just been drawn is the last. -/
theorem idleProc_draws (h : idleProc false idle r = some step) :
    (∃ bah, idleWait idle r.nowTime = some bah ∧ fuzztime < bah ∧ step = ⟨bah, none, idle⟩) ∨
      ∃ bah line, idleWait idle r.nowTime = some bah ∧ bah ≤ fuzztime ∧ step.line = some line ∧
        step.time = sleeptime ∧ step.idle.lastTime = r.lastTime := by
  rw [idleProc, if_neg Bool.false_ne_true] at h
  obtain ⟨bah, hwait, h⟩ := Option.bind_eq_some_iff.mp h
  split at h
  · next hbah => exact .inl ⟨bah, hwait, hbah, (Option.some.inj h).symm⟩
  · next hbah =>
    obtain ⟨n, -, h⟩ := Option.bind_eq_some_iff.mp h
    obtain ⟨line, -, h⟩ := Option.bind_eq_some_iff.mp h
    obtain rfl := Option.some.inj h
    exact .inr ⟨bah, line, hwait, Int.not_lt.mp hbah, rfl, rfl, rfl⟩

/-- One call draws a line if it is due and otherwise leaves things as they are. -/
theorem Paced.call (hs : Paced slack drawn clock latest idle) (hnow : clock ≤ r.nowTime.secs)
    (hlatest : r.nowTime.secs ≤ latest) (hlast : r.nowTime.secs ≤ r.lastTime.secs) (hsec : r.lastTime.sec ≠ 0)
    (h : idleProc false idle r = some step) :
    Paced slack (step.lines r drawn) (step.clock r) (step.clock r + step.time / 1000 + slack) step.idle := by
  obtain ⟨bah, hwait, hbah, rfl⟩ | ⟨bah, line, hwait, hbah, hline, htime, hidle⟩ := idleProc_draws h
  · -- the line is still new enough, so there is one
    refine ⟨hs.first, fun line hline => ?_, hs.spaced⟩
    obtain ⟨hsec', hthere, hle, -⟩ := hs.last line hline
    obtain ⟨ms, rfl, -, hms⟩ := idleWait_near hsec' (by linarith) hwait
    rw [hthere] at hms
    refine ⟨hsec', hthere, hle.trans hnow, ?_⟩
    simp only [IdleStep.clock, Option.isSome_none, Bool.false_eq_true, if_false, sleeptime]
    push_cast
    linarith
  · have hclock : step.clock r = r.lastTime.secs := by rw [IdleStep.clock, hline]; rfl
    have hlines : step.lines r drawn = ⟨r.nowTime.secs, r.lastTime.secs⟩ :: drawn := by
      rw [IdleStep.lines, hline]
      rfl
    rw [hclock, hlines, htime]
    refine ⟨fun hnil => ?_, fun line' hline' => ?_, ?_⟩
    · cases hnil
    · obtain rfl := Option.some.inj hline'
      rw [hidle]
      refine ⟨hsec, rfl, le_refl _, ?_⟩
      simp only [sleeptime]
      push_cast
      linarith
    · -- the line before was drawn long enough ago, and the loop has not waited too long since then
      cases drawn with
      | nil => exact .singleton _
      | cons older rest =>
        obtain ⟨hsec', hthere, hle, hlate⟩ := hs.last older rfl
        obtain ⟨ms, rfl, hms, -⟩ := idleWait_near hsec' (by linarith) hwait
        have hdue : (250 : ℚ) ≤ ms := by
          rw [sleeptime, fuzztime] at hbah
          exact_mod_cast (by omega : 250 ≤ ms)
        rw [hthere] at hms
        have hspaced : older.there + 250 / 1000 - 1 / 1000000 ≤ r.nowTime.secs := by linarith
        exact .cons_cons ⟨hspaced, hlatest.trans_lt hlate, hlast⟩ hs.spaced

theorem idleRun_paced (run : IdleRun slack drawn clock latest idle) : Paced slack drawn clock latest idle := by
  induction run with
  | create command inputWritten outputWritten startTime latest =>
    refine ⟨fun _ => rfl, fun line hline => ?_, .nil⟩
    cases hline
  | call run r hnow hlatest hlast hsec h ih => exact ih.call hnow hlatest hlast hsec h

/-- As long as there is no line the next call draws one. -/
theorem Paced.first_draws (hs : Paced slack drawn clock latest idle) (hdrawn : drawn = [])
    (h : idleProc false idle r = some step) : step.line.isSome = true := by
  obtain ⟨bah, hwait, hbah, -⟩ | ⟨_, line, -, -, hline, -⟩ := idleProc_draws h
  · rw [idleWait, if_neg (not_not.mpr (hs.first hdrawn))] at hwait
    obtain rfl := Option.some.inj hwait
    cases hbah
  · rw [hline, Option.isSome_some]

/-- Lines that are spaced take their time: a quarter of a second for each but the first. -/
theorem spaced_length {newest oldest : Drawn} {rest : List Drawn} (hs : (newest :: rest).IsChain (Spaced slack))
    (holdest : (newest :: rest).getLast? = some oldest) :
    oldest.there + rest.length * (250 / 1000 - 1 / 1000000) ≤ newest.there := by
  induction rest generalizing newest with
  | nil =>
    obtain rfl := Option.some.inj holdest
    simp
  | cons older rest ih =>
    obtain ⟨⟨hdue, -, hthere⟩, htail⟩ := List.isChain_cons_cons.mp hs
    have hrest := ih htail (by rwa [List.getLast?_cons_cons] at holdest)
    rw [List.length_cons]
    push_cast
    linarith

/-- The first call of a transfer draws a line. Each line after it is drawn a quarter of a second or more after the
one before, and found to be due soon after that line has been there for the time between invocations, and so it is
with the line to come: there are never more than four lines for each second. -/
theorem idleRun_cadence (run : IdleRun slack drawn clock latest idle) :
    (drawn = [] → ∀ r step, idleProc false idle r = some step → step.line.isSome = true) ∧
      drawn.IsChain (Spaced slack) ∧
      (∀ newest ∈ drawn.head?, newest.there ≤ clock ∧ latest < newest.there + 301 / 1000 + 1 / 1000000 + slack) ∧
      ∀ oldest ∈ drawn.getLast?, ((drawn.length : ℚ) - 1) * (250 / 1000 - 1 / 1000000) ≤ clock - oldest.there := by
  have hs := idleRun_paced run
  refine ⟨fun hdrawn r step h => hs.first_draws hdrawn h, hs.spaced, fun newest hnewest => ?_,
    fun oldest holdest => ?_⟩
  · obtain ⟨-, -, hclock, hlate⟩ := hs.last newest hnewest
    exact ⟨hclock, hlate⟩
  · cases drawn with
    | nil => cases holdest
    | cons newest rest =>
      obtain ⟨-, -, hclock, -⟩ := hs.last newest rfl
      have hlength := spaced_length hs.spaced holdest
      rw [List.length_cons]
      push_cast
      linarith

end Calls

/-- What is found at a moment in a window of 80 columns, when nothing has been moved. -/
def idleReadings (now : Timespec) : IdleReadings where
  inputWritten := 0
  outputWritten := 0
  endTime := now
  memory _ := 0
  nowTime := now
  lastTime := now
  wsCol := 80

def firstTime : Timespec := { Timespec.zero with sec := 100, sec_range := by omega }

def nextTime : Timespec := { firstTime with nsec := 300000000, nsec_range := by omega }

/-- A transfer starts and is called at once, and again when it has been told to. -/
theorem idleRun_cadence_again : ∃ drawn clock latest idle, drawn.length = 2 ∧
    IdleRun (1 / 100) drawn clock latest idle ∧ drawn.IsChain (Spaced (1 / 100)) := by
  have hcalls : ((idleProc false (idleCreate (literal "rz") 0 0 firstTime) (idleReadings firstTime)).bind fun s =>
      (idleProc false s.idle (idleReadings nextTime)).map fun t =>
        (s.line.isSome, s.time, t.line.isSome)) = some (true, 300, true) := by decide +kernel
  obtain ⟨s, hs, hcalls⟩ := Option.bind_eq_some_iff.mp hcalls
  obtain ⟨t, ht, hcalls⟩ := Option.map_eq_some_iff.mp hcalls
  simp only [Prod.mk.injEq] at hcalls
  obtain ⟨hsline, hstime, htline⟩ := hcalls
  have hclock : s.clock (idleReadings firstTime) = 100 := by
    rw [IdleStep.clock, if_pos hsline, Timespec.secs, idleReadings, firstTime, Timespec.zero]
    norm_num
  have hlater : (idleReadings nextTime).nowTime.secs = 100 + 3 / 10 := by
    rw [Timespec.secs, idleReadings, nextTime, firstTime]
    norm_num
  have start : IdleRun (1 / 100) _ _ _ _ := .create (literal "rz") 0 0 firstTime 101
  have first := start.call (idleReadings firstTime) (le_refl _)
    (by rw [Timespec.secs, idleReadings, firstTime, Timespec.zero]; norm_num) (le_refl _) (by decide) hs
  have again := first.call (idleReadings nextTime) (by rw [hclock, hlater]; norm_num)
    (by rw [hclock, hlater, hstime]; norm_num) (le_refl _) (by decide) ht
  refine ⟨_, _, _, _, ?_, again, (idleRun_cadence again).2.1⟩
  rw [IdleStep.lines, if_pos htline, IdleStep.lines, if_pos hsline]
  rfl

end Rzh
