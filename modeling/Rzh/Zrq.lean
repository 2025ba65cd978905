import Rzh.Fifo

/-!
# zrq.c

The scanner for the ZRQINIT start sequence. The source is a coroutine: a switch
whose cases stand inside nested ifs of an endless loop. Each case label is a
definition here, so that entering the switch is calling the definition of the
label, and one round of the loop is a value of type `Pass`.
-/
namespace Rzh

/-- The characters that the scanners look for. -/
abbrev chStar : UInt8 := 42
abbrev chCan : UInt8 := 24
abbrev chB : UInt8 := 66
abbrev ch0 : UInt8 := 48
abbrev chR : UInt8 := 114
abbrev chZ : UInt8 := 122
abbrev chCr : UInt8 := 13
abbrev chNl : UInt8 := 10

inductive GotRz where
  | rznone | rznl | rzcr | rzcrnl
  deriving DecidableEq, Repr

/-- The scanner's state. Its start proc is always echo_scanner_start_proc. -/
structure ZScanState where
  parseState : Int
  gotrz : GotRz
  starcnt : Nat
  deriving DecidableEq, Repr

def zscanstateInit : ZScanState := ⟨0, .rznone, 0⟩

/-- The rz line that a value of `gotrz` stands for. -/
def rzText : GotRz → List UInt8
  | .rznone => []
  | .rznl => [chR, chZ, chNl]
  | .rzcr => [chR, chZ, chCr]
  | .rzcrnl => [chR, chZ, chCr, chNl]

def fifoAppendRz (gotrz : GotRz) : List Put :=
  match gotrz with
  | .rznone => []
  | _ => [.append (rzText gotrz)]

def fifoAppendStars (starcnt : Nat) : List Put := List.replicate starcnt (.addchar chStar)

/-- How one round of the endless loop ends, after its calls on the fifo: the proc
returns, the loop goes round on what is left of the packet, or the whole start
sequence has been seen and zscan_start gets what is left. -/
inductive Pass where
  | ret (puts : List Put) (conn : ZScanState)
  | next (puts : List Put) (conn : ZScanState) (cp : List UInt8)
  | start (puts : List Put) (conn : ZScanState) (cp : List UInt8)
  deriving DecidableEq, Repr

def Pass.after (puts : List Put) : Pass → Pass
  | .ret ps conn => .ret (puts ++ ps) conn
  | .next ps conn cp => .next (puts ++ ps) conn cp
  | .start ps conn cp => .start (puts ++ ps) conn cp

/-- The sequence broke off: what was withheld goes out and the loop starts afresh
on the character that did not fit. -/
def zrqMismatch (conn : ZScanState) (cp : List UInt8) : Pass :=
  .next (fifoAppendRz conn.gotrz ++ fifoAppendStars conn.starcnt ++
    (if 1 ≤ conn.parseState then [.addchar chCan] else []) ++
    (if 2 ≤ conn.parseState then [.addchar chB] else []) ++
    (if 3 ≤ conn.parseState then [.addchar ch0] else [])) zscanstateInit cp

/-- The macro of the same name: on to the next character, or suspended at `st`. -/
def crNext (st : Int) (conn : ZScanState) (cp : List UInt8)
    (body : ZScanState → List UInt8 → Pass) : Pass :=
  let conn := { conn with parseState := st }
  match cp.tail with
  | [] => .ret [] conn
  | c :: cs => body conn (c :: cs)

/-- The label `case 3`, after "*\030B0". -/
def zrqCase3 (conn : ZScanState) (cp : List UInt8) : Pass :=
  if cp.head? = some ch0 then .start [] zscanstateInit cp.tail else zrqMismatch conn cp

/-- The label `case 2`, after "*\030B". -/
def zrqCase2 (conn : ZScanState) (cp : List UInt8) : Pass :=
  if cp.head? = some ch0 then crNext 3 conn cp zrqCase3 else zrqMismatch conn cp

/-- The label `case 1`, after "*\030". -/
def zrqCase1 (conn : ZScanState) (cp : List UInt8) : Pass :=
  if cp.head? = some chB then crNext 2 conn cp zrqCase2 else zrqMismatch conn cp

/-- The label `case -1`: any number of stars, or else a pending rz line goes out. -/
def zrqCaseNeg1 (conn : ZScanState) (cp : List UInt8) : Pass :=
  if cp.head? = some chStar then
    let conn := { conn with starcnt := conn.starcnt + (cp.takeWhile (· = chStar)).length }
    let cp := cp.dropWhile (· = chStar)
    if cp.head? = some chCan then crNext 1 conn cp zrqCase1 else zrqMismatch conn cp
  else .next (fifoAppendRz conn.gotrz) zscanstateInit cp

/-- The step onto the label `case -1`, where the scanner may be suspended. -/
def zrqToNeg1 (conn : ZScanState) (cp : List UInt8) : Pass :=
  let conn := { conn with parseState := -1 }
  if cp = [] then .ret [] conn else zrqCaseNeg1 conn cp

/-- What an `r` may begin: an rz line, which must lie in one packet. -/
def zrqLine (conn : ZScanState) : List UInt8 → Pass
  | _ :: c1 :: c2 :: cs =>
    if c1 = chZ then
      if c2 = chCr then
        match cs with
        | [] => zrqToNeg1 { conn with gotrz := .rzcr } []
        | c3 :: cs' =>
          if c3 = chNl then zrqToNeg1 { conn with gotrz := .rzcrnl } cs'
          else zrqToNeg1 { conn with gotrz := .rzcr } (c3 :: cs')
      else if c2 = chNl then zrqToNeg1 { conn with gotrz := .rznl } cs
      else .next [.append [chR, chZ]] conn (c2 :: cs)
    else .next [.addchar chR] conn (c1 :: c2 :: cs)
    -- fewer than three characters are left: they may be typed ones, so out they go
  | cp => .ret [.append cp] conn

/-- The top of the loop: garbage up to an `r` or a star goes straight through. -/
def zrqTop (conn : ZScanState) (cp : List UInt8) : Pass :=
  let garbage := cp.takeWhile fun c => c ≠ chR ∧ c ≠ chStar
  let cp := cp.dropWhile fun c => c ≠ chR ∧ c ≠ chStar
  let puts := if garbage = [] then [] else [.append garbage]
  if cp = [] then .ret puts conn
  else if cp.head? = some chR then (zrqLine conn cp).after puts
  else (zrqToNeg1 conn cp).after puts

/-- A round leaves no more than `n` characters to the next one. -/
def Pass.Leaves (n : Nat) : Pass → Prop
  | .next _ _ cp => cp.length ≤ n
  | _ => True

theorem Pass.Leaves.mono {n m : Nat} (hnm : n ≤ m) {p : Pass} (h : p.Leaves n) : p.Leaves m := by
  cases p with
  | next => exact Nat.le_trans h hnm
  | ret => trivial
  | start => trivial

@[simp] theorem Pass.leaves_after {n : Nat} {puts : List Put} {p : Pass} :
    (p.after puts).Leaves n ↔ p.Leaves n := by
  cases p <;> rfl

theorem crNext_leaves {n : Nat} {st : Int} {conn : ZScanState} {cp : List UInt8}
    {body : ZScanState → List UInt8 → Pass} (hn : cp.length ≤ n)
    (h : ∀ conn cp, (body conn cp).Leaves cp.length) : (crNext st conn cp body).Leaves n := by
  unfold crNext
  split
  · trivial
  · next c cs ht =>
    apply (h _ (c :: cs)).mono
    rw [← ht, List.length_tail]
    omega

theorem zrqCase3_leaves (conn : ZScanState) (cp : List UInt8) :
    (zrqCase3 conn cp).Leaves cp.length := by
  unfold zrqCase3
  split
  · trivial
  · exact Nat.le_refl _

theorem zrqCase2_leaves (conn : ZScanState) (cp : List UInt8) :
    (zrqCase2 conn cp).Leaves cp.length := by
  unfold zrqCase2
  split
  · exact crNext_leaves (Nat.le_refl _) zrqCase3_leaves
  · exact Nat.le_refl _

theorem zrqCase1_leaves (conn : ZScanState) (cp : List UInt8) :
    (zrqCase1 conn cp).Leaves cp.length := by
  unfold zrqCase1
  split
  · exact crNext_leaves (Nat.le_refl _) zrqCase2_leaves
  · exact Nat.le_refl _

theorem zrqCaseNeg1_leaves (conn : ZScanState) (cp : List UInt8) :
    (zrqCaseNeg1 conn cp).Leaves cp.length := by
  have hdrop := (List.dropWhile_suffix (l := cp) (· = chStar)).length_le
  unfold zrqCaseNeg1
  split
  · simp only
    split
    · exact crNext_leaves hdrop zrqCase1_leaves
    · exact hdrop
  · exact Nat.le_refl _

theorem zrqCaseNeg1_leaves_star (conn : ZScanState) (cs : List UInt8) :
    (zrqCaseNeg1 conn (chStar :: cs)).Leaves cs.length := by
  have hdrop : ((chStar :: cs).dropWhile (· = chStar)).length ≤ cs.length := by
    rw [List.dropWhile_cons_of_pos (by simp)]
    exact (List.dropWhile_suffix _).length_le
  unfold zrqCaseNeg1
  rw [if_pos (by simp)]
  simp only
  split
  · exact crNext_leaves hdrop zrqCase1_leaves
  · exact hdrop

theorem zrqToNeg1_leaves (conn : ZScanState) (cp : List UInt8) :
    (zrqToNeg1 conn cp).Leaves cp.length := by
  unfold zrqToNeg1
  simp only
  split
  · trivial
  · exact zrqCaseNeg1_leaves _ cp

theorem zrqLine_leaves (conn : ZScanState) (c : UInt8) (cs : List UInt8) :
    (zrqLine conn (c :: cs)).Leaves cs.length := by
  unfold zrqLine
  split
  · next c1 c2 cs' heq =>
    obtain ⟨-, rfl⟩ := List.cons.inj heq
    simp only [List.length_cons]
    split
    · split
      · split
        · trivial
        · split
          · exact (zrqToNeg1_leaves _ _).mono (by simp only [List.length_cons]; omega)
          · exact (zrqToNeg1_leaves _ _).mono (by simp only [List.length_cons]; omega)
      · split
        · exact (zrqToNeg1_leaves _ _).mono (by omega)
        · change (c2 :: cs').length ≤ _
          simp
    · exact Nat.le_refl _
  · trivial

/-- The garbage loop stops at an `r` or at a star. -/
theorem dropWhile_garbage {cp cs : List UInt8} {c : UInt8}
    (h : (cp.dropWhile fun c => c ≠ chR ∧ c ≠ chStar) = c :: cs) : c = chR ∨ c = chStar := by
  have := List.head?_dropWhile_not (fun c => c ≠ chR ∧ c ≠ chStar) cp
  rw [h] at this
  simpa [Decidable.or_iff_not_imp_left] using this

/-- From the top, a round that goes on has dealt with at least one character. -/
theorem zrqTop_leaves (conn : ZScanState) (cp : List UInt8) :
    (zrqTop conn cp).Leaves (cp.length - 1) := by
  have hdrop := (List.dropWhile_suffix (l := cp) fun c => c ≠ chR ∧ c ≠ chStar).length_le
  unfold zrqTop
  simp only
  split
  · trivial
  · next hne =>
    obtain ⟨c, cs, hc⟩ := List.exists_cons_of_ne_nil hne
    rw [hc, List.length_cons] at hdrop
    rw [hc]
    split
    · rw [Pass.leaves_after]
      exact (zrqLine_leaves conn c cs).mono (by omega)
    · next hr =>
      have hstar : c = chStar := by
        cases dropWhile_garbage hc with
        | inl h => exact absurd (by rw [h]; rfl) hr
        | inr h => exact h
      rw [Pass.leaves_after, hstar, zrqToNeg1, if_neg (by simp)]
      exact (zrqCaseNeg1_leaves_star _ cs).mono (by omega)

/-- What a call of zrq_scan does before zscan_start, if it gets there: its calls on
the fifo, the state it leaves, and what it hands to zscan_start. -/
structure ZrqOut where
  puts : List Put
  conn : ZScanState
  start : Option (List UInt8)
  deriving DecidableEq, Repr

def ZrqOut.after (puts : List Put) (o : ZrqOut) : ZrqOut := { o with puts := puts ++ o.puts }

/-- The endless loop, from its top. -/
def zrqLoop (conn : ZScanState) (cp : List UInt8) : ZrqOut :=
  if _hne : cp = [] then ⟨[], conn, none⟩
  else
    match _h : zrqTop conn cp with
    | .ret puts conn' => ⟨puts, conn', none⟩
    | .start puts conn' rest => ⟨puts, conn', some rest⟩
    | .next puts conn' rest => (zrqLoop conn' rest).after puts
termination_by cp.length
decreasing_by
  have hl := zrqTop_leaves conn cp
  rw [_h] at hl
  have := List.length_pos_iff.mpr _hne
  simp only [Pass.Leaves] at hl
  omega

/-- The switch, then the loop. A state that no label names skips everything. -/
def zrqScan (conn : ZScanState) (cp : List UInt8) : ZrqOut :=
  if conn.parseState = 0 then zrqLoop conn cp
  else
    let first :=
      if conn.parseState = -1 then zrqCaseNeg1 conn cp
      else if conn.parseState = 1 then zrqCase1 conn cp
      else if conn.parseState = 2 then zrqCase2 conn cp
      else if conn.parseState = 3 then zrqCase3 conn cp
      else .ret [] conn
    match first with
    | .ret puts conn' => ⟨puts, conn', none⟩
    | .start puts conn' rest => ⟨puts, conn', some rest⟩
    | .next puts conn' rest => (zrqLoop conn' rest).after puts

end Rzh
