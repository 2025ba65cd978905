import Rzh.Fifo

/-!
# zfin.c

The scanner for the ZFIN end packet and the procs that take over from it. The
matching loop is pure: it makes calls on the fifo and moves the saved pointer.
-/
namespace Rzh

/-- The characters of the string "*\030B0800000000022d\015\212", its NUL included. -/
def zfinString : List UInt8 :=
  [42, 24, 66, 48, 56, 48, 48, 48, 48, 48, 48, 48, 48, 48, 50, 50, 100, 13, 138, 0]

/-- `sizeof(zfin)-1`. -/
abbrev zfinLength : Nat := 19

/-- The procs that zfin_create is given. -/
inductive ZfinFound where
  | zfinNooo | zfinTerm
  deriving DecidableEq, Repr

/-- The pointer `ref` into the string is kept as an index, NULL as `none`. The buffer
pointed to by `savebuf` is the list of the `savecnt` bytes stored in it; NULL is the
empty list, as a buffer is allocated only to store something. -/
structure ZfinScanState where
  found : ZfinFound
  ref : Option Nat
  oocount : Nat
  savebuf : List UInt8
  savemax : Nat
  deriving DecidableEq, Repr

def zfinCreate (found : ZfinFound) : ZfinScanState := ⟨found, none, 0, [], 0⟩

/-- The inner while loop: on over the packet and the string as long as they agree. -/
def zfinRun : Nat → List UInt8 → Nat × List UInt8
  | ref, [] => (ref, [])
  | ref, c :: cs =>
    if zfinString[ref]? = some c ∧ ref < zfinLength then zfinRun (ref + 1) cs else (ref, c :: cs)

/-- How a round of the outer loop ends: the proc returns with the pointer to save (if
it is to be saved), the string is complete, the loop goes round, or the assertion fails. -/
inductive ZfinPass where
  | ret (puts : List Put) (ref : Option Nat)
  | found (puts : List Put) (buf : List UInt8)
  | next (puts : List Put) (buf : List UInt8)
  | unpossible
  deriving DecidableEq, Repr

/-- A round from the point where the string is matched from `ref` on. -/
def zfinMatch (ref : Nat) (buf : List UInt8) : ZfinPass :=
  let (ref', cp) := zfinRun ref buf
  let puts := [.append (buf.take (buf.length - cp.length))]
  if zfinString[ref']? = some 0 then .found puts cp
  else
    match cp with
    | [] => .ret puts (some ref')
    | c :: cs => if zfinString[ref']? ≠ some c then .next puts (c :: cs) else .unpossible

def ZfinPass.after (puts : List Put) : ZfinPass → ZfinPass
  | .ret ps ref => .ret (puts ++ ps) ref
  | .found ps buf => .found (puts ++ ps) buf
  | .next ps buf => .next (puts ++ ps) buf
  | .unpossible => .unpossible

/-- A round with `ref` NULL: memchr for the star, then the string from its start. -/
def zfinSearch (buf : List UInt8) : ZfinPass :=
  match buf.dropWhile (· ≠ 42) with
  | [] => .ret [.append buf] none
  | c :: cs => (zfinMatch 0 (c :: cs)).after [.append (buf.takeWhile (· ≠ 42))]

/-- What a call of zfin_scan does: its calls on the fifo, the pointer it leaves in
the state, and what the found proc is called with, if it is. -/
structure ZfinOut where
  puts : List Put
  ref : Option Nat
  found : Option (List UInt8)
  unpossible : Bool
  deriving DecidableEq, Repr

def ZfinOut.after (puts : List Put) (o : ZfinOut) : ZfinOut := { o with puts := puts ++ o.puts }

theorem zfinRun_suffix (ref : Nat) (buf : List UInt8) : (zfinRun ref buf).2 <:+ buf := by
  induction buf generalizing ref with
  | nil => exact List.suffix_rfl
  | cons c cs ih =>
    unfold zfinRun
    split
    · exact (ih (ref + 1)).trans (List.suffix_cons c cs)
    · exact List.suffix_rfl

theorem zfinMatch_next {ref : Nat} {buf rest : List UInt8} {puts : List Put}
    (h : zfinMatch ref buf = .next puts rest) : rest = (zfinRun ref buf).2 := by
  unfold zfinMatch at h
  simp only at h
  split at h
  · cases h
  · split at h
    · cases h
    · next heq =>
      split at h
      · rw [heq]
        exact (ZfinPass.next.inj h).2.symm
      · cases h

/-- A search that goes on has dealt with at least the star. -/
theorem zfinSearch_shrinks {buf rest : List UInt8} {puts : List Put}
    (h : zfinSearch buf = .next puts rest) : rest.length < buf.length := by
  have hdrop := (List.dropWhile_suffix (l := buf) (· ≠ 42)).length_le
  unfold zfinSearch at h
  split at h
  · cases h
  · next c cs heq =>
    have hstar : c = 42 := by
      have := List.head?_dropWhile_not (fun c => decide (c ≠ (42 : UInt8))) buf
      rw [heq] at this
      simpa using this
    cases hm : zfinMatch 0 (c :: cs) with
    | ret => rw [hm] at h; cases h
    | found => rw [hm] at h; cases h
    | unpossible => rw [hm] at h; cases h
    | next ps rest' =>
      rw [hm] at h
      obtain rfl : rest' = rest := (ZfinPass.next.inj h).2
      have hrun := zfinMatch_next hm
      subst hstar
      have hstep : zfinRun 0 (42 :: cs) = zfinRun 1 cs := rfl
      rw [hstep] at hrun
      have hle := (zfinRun_suffix 1 cs).length_le
      rw [heq, List.length_cons] at hdrop
      rw [hrun]
      omega

/-- The outer loop with `ref` NULL; `saved` is the pointer in the state, which only a
return for lack of data changes. -/
def zfinLoop (saved : Option Nat) (buf : List UInt8) : ZfinOut :=
  match _h : zfinSearch buf with
  | .ret puts none => ⟨puts, saved, none, false⟩
  | .ret puts (some ref) => ⟨puts, some ref, none, false⟩
  | .found puts rest => ⟨puts, saved, some rest, false⟩
  | .unpossible => ⟨[], saved, none, true⟩
  | .next puts rest => (zfinLoop saved rest).after puts
termination_by buf.length
decreasing_by exact zfinSearch_shrinks _h

/-- What a whole call makes of the outcome of its first round. -/
def ZfinPass.out (saved : Option Nat) : ZfinPass → ZfinOut
  | .ret puts none => ⟨puts, saved, none, false⟩
  | .ret puts (some ref) => ⟨puts, some ref, none, false⟩
  | .found puts rest => ⟨puts, saved, some rest, false⟩
  | .unpossible => ⟨[], saved, none, true⟩
  | .next puts rest => (zfinLoop saved rest).after puts

def zfinScan (saved : Option Nat) (buf : List UInt8) : ZfinOut :=
  if buf = [] then ⟨[], saved, none, false⟩
  else
    match saved with
    | none => zfinLoop none buf
    | some ref => (zfinMatch ref buf).out saved

def ZfinFound.proc : ZfinFound → FifoProc
  | .zfinNooo => .zfinNooo
  | .zfinTerm => .zfinTerm

/-- A call of zfin_scan on the fifo it is the proc of. With the string complete the
found proc is installed and called; the last component is the text it is called with. -/
def zfinScanCall (f : Fifo) (state : ZfinScanState) (buf : List UInt8) :
    Except Halt (Fifo × ZfinScanState × Option (List UInt8)) :=
  let o := zfinScan state.ref buf
  if o.unpossible then .error .abort
  else
    let f := runPuts f o.puts
    let state := { state with ref := o.ref }
    match o.found with
    | none => .ok (f, state, none)
    | some rest => .ok ({ f with proc := some state.found.proc }, state, some rest)

theorem zfinLoop_eq (saved : Option Nat) (buf : List UInt8) :
    zfinLoop saved buf = (zfinSearch buf).out saved := by
  rw [zfinLoop]
  cases zfinSearch buf with
  | ret puts ref => cases ref <;> rfl
  | found => rfl
  | next => rfl
  | unpossible => rfl

/-- The loop stops where the packet and the string differ, where the string is complete, or at the end. -/
theorem zfinRun_stops {ref : Nat} {buf : List UInt8} {c : UInt8} {cs : List UInt8}
    (h : (zfinRun ref buf).2 = c :: cs) :
    zfinString[(zfinRun ref buf).1]? = some c → zfinLength ≤ (zfinRun ref buf).1 := by
  induction buf generalizing ref with
  | nil =>
    rw [zfinRun] at h
    cases h
  | cons b bs ih =>
    rw [zfinRun] at h ⊢
    split at h
    · next hgoes =>
      rw [if_pos hgoes]
      exact ih h
    · next hstops =>
      rw [if_neg hstops]
      obtain ⟨rfl, -⟩ := List.cons.inj h
      intro hagrees
      exact Nat.le_of_not_lt fun hlt => hstops ⟨hagrees, hlt⟩

/-- Behind the string there is its NUL and nothing else, so the assertion does not fail. -/
theorem zfinMatch_possible (ref : Nat) (buf : List UInt8) : zfinMatch ref buf ≠ .unpossible := by
  unfold zfinMatch
  simp only
  split
  · nofun
  · next hnul =>
    split
    · nofun
    · next c cs heq =>
      split
      · nofun
      · next hagrees =>
        have hc := Decidable.not_not.mp hagrees
        have hlast := zfinRun_stops heq hc
        obtain ⟨hlt, -⟩ := List.getElem?_eq_some_iff.mp hc
        have hlength : zfinString.length = zfinLength + 1 := rfl
        have hend : (zfinRun ref buf).1 = zfinLength := by omega
        exact absurd (by rw [hend]; rfl) hnul

theorem ZfinPass.after_possible {p : ZfinPass} (puts : List Put) (h : p ≠ .unpossible) :
    p.after puts ≠ .unpossible := by
  cases p with
  | unpossible => exact absurd rfl h
  | ret => nofun
  | found => nofun
  | next => nofun

theorem zfinSearch_possible (buf : List UInt8) : zfinSearch buf ≠ .unpossible := by
  unfold zfinSearch
  split
  · nofun
  · exact ZfinPass.after_possible _ (zfinMatch_possible _ _)

theorem ZfinPass.out_possible {p : ZfinPass} (saved : Option Nat) (h : p ≠ .unpossible)
    (hnext : ∀ puts rest, p = .next puts rest → (zfinLoop saved rest).unpossible = false) :
    (p.out saved).unpossible = false := by
  cases p with
  | unpossible => exact absurd rfl h
  | ret puts ref => cases ref <;> rfl
  | found => rfl
  | next puts rest => exact hnext puts rest rfl

theorem zfinLoop_possible (saved : Option Nat) (buf : List UInt8) : (zfinLoop saved buf).unpossible = false := by
  rw [zfinLoop_eq]
  apply ZfinPass.out_possible saved (zfinSearch_possible buf)
  intro puts rest h
  have hshrinks := zfinSearch_shrinks h
  exact zfinLoop_possible saved rest
termination_by buf.length

theorem zfinScan_possible (saved : Option Nat) (buf : List UInt8) : (zfinScan saved buf).unpossible = false := by
  unfold zfinScan
  split
  · rfl
  · split
    · exact zfinLoop_possible none buf
    · exact ZfinPass.out_possible _ (zfinMatch_possible _ _) fun _ rest _ => zfinLoop_possible _ rest

/-- A call of zfin_scan returns, whatever is in its state. -/
theorem zfinScanCall_total (f : Fifo) (state : ZfinScanState) (buf : List UInt8) :
    ∃ r, zfinScanCall f state buf = .ok r := by
  rw [zfinScanCall]
  simp only [zfinScan_possible, Bool.false_eq_true, if_false]
  split
  · exact ⟨_, rfl⟩
  · exact ⟨_, rfl⟩

end Rzh
