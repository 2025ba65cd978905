import Rzh.ZfinPackets

/-!
# What zfin_scan does to its packet

Whatever pointer into the string has been saved, a call hands the packet on as it is: into the fifo
up to the end of a match, and what is behind it to the found proc.
-/
namespace Rzh

open Matcher

def ZfinPass.puts : ZfinPass → List Put
  | .ret puts _ => puts
  | .found puts _ => puts
  | .next puts _ => puts
  | .unpossible => []

/-- Nothing but whole stretches of the packet goes into the fifo. -/
def Appends (puts : List Put) : Prop := ∀ p ∈ puts, ∃ bytes, p = .append bytes

/-- The text from the start of the string: the saved pointer stands for the characters in front of it. -/
def seenBy (state : ZfinScanState) (text : List UInt8) : List UInt8 :=
  zfinText.take (state.ref.getD 0) ++ text

/-- A packet is passed on, by appends for which there is room, up to where the string is complete for
the first time; the found proc gets what is left of it. -/
structure PassedThrough (f : Fifo) (state : ZfinScanState) (buf : List UInt8) (puts : List Put)
    (f' : Fifo) (rest : Option (List UInt8)) : Prop where
  appends : Appends puts
  fits : Fits f puts
  contents : f'.contents = f.contents ++ putBytes puts
  packet : putBytes puts ++ rest.getD [] = buf
  found : rest ≠ none → zfinText <:+ seenBy state (putBytes puts) ∧
    ∀ u v, seenBy state (putBytes puts) = u ++ v → v ≠ [] → ¬ zfinText <:+ u
  notFound : rest = none → ¬ zfinText <:+: seenBy state buf

section Puts

variable {ref : Nat} {saved : Option Nat} {buf : List UInt8} {puts puts' : List Put} {p : ZfinPass}

theorem Appends.append (h : Appends puts) (h' : Appends puts') : Appends (puts ++ puts') := by
  intro p hp
  obtain hp | hp := List.mem_append.mp hp
  · exact h p hp
  · exact h' p hp

theorem appends_singleton (bytes : List UInt8) : Appends [.append bytes] := by
  intro p hp
  exact ⟨bytes, List.mem_singleton.mp hp⟩

theorem appends_nil : Appends [] := nofun

theorem zfinMatch_appends (ref : Nat) (buf : List UInt8) : Appends (zfinMatch ref buf).puts := by
  rw [zfinMatch]
  simp only
  split
  · exact appends_singleton _
  · split
    · exact appends_singleton _
    · split
      · exact appends_singleton _
      · exact appends_nil

theorem ZfinPass.after_appends (h : Appends puts) (hp : Appends p.puts) : Appends (p.after puts).puts := by
  cases p with
  | ret ps ref => exact h.append hp
  | found ps buf => exact h.append hp
  | next ps buf => exact h.append hp
  | unpossible => exact appends_nil

theorem zfinSearch_appends (buf : List UInt8) : Appends (zfinSearch buf).puts := by
  rw [zfinSearch]
  split
  · exact appends_singleton _
  · exact ZfinPass.after_appends (appends_singleton _) (zfinMatch_appends 0 _)

theorem ZfinPass.out_appends (hp : Appends p.puts)
    (hnext : ∀ puts rest, p = .next puts rest → Appends (zfinLoop saved rest).puts) :
    Appends (p.out saved).puts := by
  cases p with
  | ret ps ref => cases ref <;> exact hp
  | found ps buf => exact hp
  | next ps rest => exact hp.append (hnext ps rest rfl)
  | unpossible => exact appends_nil

theorem zfinLoop_appends (saved : Option Nat) (buf : List UInt8) : Appends (zfinLoop saved buf).puts := by
  induction hn : buf.length using Nat.strongRecOn generalizing buf with
  | ind n ih =>
    rw [zfinLoop_eq]
    apply ZfinPass.out_appends (zfinSearch_appends buf)
    intro puts rest hnext
    have hlt := zfinSearch_shrinks hnext
    rw [hn] at hlt
    exact ih _ hlt rest rfl

theorem zfinScan_appends (saved : Option Nat) (buf : List UInt8) : Appends (zfinScan saved buf).puts := by
  by_cases hbuf : buf = []
  · simp only [zfinScan, if_pos hbuf]
    exact appends_nil
  · simp only [zfinScan, if_neg hbuf]
    cases saved with
    | none => exact zfinLoop_appends none buf
    | some ref =>
      apply ZfinPass.out_appends (zfinMatch_appends ref buf)
      intro puts rest _
      exact zfinLoop_appends (some ref) rest

end Puts

section Calls

variable {f : Fifo} {state : ZfinScanState} {buf rest : List UInt8}

/-- A search from the saved pointer is one through the text from the start of the string. -/
theorem scan_seenBy (href : ∀ ref ∈ state.ref, ref < zfinLength) (buf : List UInt8) :
    scan zfinPattern (state.ref.getD 0) buf = scan zfinPattern 0 (seenBy state buf) := by
  have hlt : state.ref.getD 0 < zfinLength := by
    cases h : state.ref with
    | none => decide
    | some k => exact href k h
  have hlength : (zfinText.take (state.ref.getD 0)).length = state.ref.getD 0 := by
    rw [List.length_take, zfinText_length]
    omega
  have halong := scan_along (t := zfinText) (k := 0) (d := zfinText.take (state.ref.getD 0))
    (List.take_prefix _ _) (by rw [hlength, zfinText_length]; omega) buf
  rw [hlength, Nat.zero_add] at halong
  exact halong.symm

theorem ref_inside {state' : ZfinScanState} {f' : Fifo} {rest : Option (List UInt8)}
    (href : ∀ ref ∈ state.ref, ref < zfinLength) (h : zfinScanCall f state buf = .ok (f', state', rest)) :
    ∀ ref ∈ state'.ref, ref < zfinLength := by
  obtain ⟨f₁, k, hk, -, hcall⟩ | ⟨f₁, rest', -, -, hcall⟩ := zfinScanCall_cases f state buf href
  · rw [hcall] at h
    cases h
    intro ref hr
    simp only [refAfter] at hr
    split at hr
    · exact href ref hr
    · obtain rfl := Option.some.inj hr
      exact hk
  · rw [hcall] at h
    cases h
    exact href

/-- What a call does to its packet is what the search does, also if the packet is empty. -/
theorem zfinScan_says (href : ∀ ref ∈ state.ref, ref < zfinLength) (buf : List UInt8) :
    ZfinSays state.ref buf (zfinScan state.ref buf) (scan zfinPattern (state.ref.getD 0) buf) := by
  by_cases hbuf : buf = []
  · subst hbuf
    have hscan : scan zfinPattern (state.ref.getD 0) [] = .inl (state.ref.getD 0) := rfl
    have hcall : zfinScan state.ref [] = ⟨[], state.ref, none, false⟩ := rfl
    rw [hscan, hcall]
    rcases state.ref with _ | _ | k
    · exact ⟨rfl, rfl⟩
    · exact ⟨rfl, rfl⟩
    · exact ⟨rfl, rfl⟩
  · exact zfinScan_matches hbuf href

/-- A search that stops has come to the end of the string, and one that does not has not met it. -/
theorem scan_stops (href : ∀ ref ∈ state.ref, ref < zfinLength) {appended : List UInt8}
    (hscan : scan zfinPattern (state.ref.getD 0) (appended ++ rest) = .inr rest) :
    zfinText <:+ seenBy state appended ∧
      ∀ u v, seenBy state appended = u ++ v → v ≠ [] → ¬ zfinText <:+ u := by
  rw [scan_seenBy href] at hscan
  obtain ⟨u, hu, hfirst⟩ := (scan_inr_iff zfin_headed _ _).mp hscan
  rw [seenBy, ← List.append_assoc] at hu
  obtain rfl : seenBy state appended = u := List.append_cancel_right hu
  exact (first_ofText zfinText _).mp hfirst

theorem scan_goes_on (href : ∀ ref ∈ state.ref, ref < zfinLength) {k : Nat}
    (hscan : scan zfinPattern (state.ref.getD 0) buf = .inl k) : ¬ zfinText <:+: seenBy state buf := by
  rw [scan_seenBy href, scan_inl_iff zfin_headed] at hscan
  exact (free_ofText zfinText _).mp hscan.1

theorem runPuts_passes (puts : List Put) (hfit : buf.length ≤ fifoAvail f)
    (hle : (putBytes puts).length ≤ buf.length) :
    Fits f puts ∧ (runPuts f puts).contents = f.contents ++ putBytes puts := by
  have hroom : (putBytes puts).length ≤ fifoAvail f := hle.trans hfit
  refine ⟨(fits_iff f puts).mpr hroom, ?_⟩
  rw [fifoAvail_eq] at hroom
  exact runPuts_contents f puts hroom

theorem ZfinSays.passed {saved : Option Nat} {o : ZfinOut} {k : Nat} (h : ZfinSays saved buf o (.inl k)) :
    ∃ ref, o = ⟨o.puts, ref, none, false⟩ ∧ buf = putBytes o.puts := by
  cases k with
  | zero => exact ⟨saved, h⟩
  | succ k => exact ⟨some (k + 1), h⟩

theorem zfinScanCall_passed (href : ∀ ref ∈ state.ref, ref < zfinLength) (hfit : buf.length ≤ fifoAvail f) :
    ∃ f' state' rest, zfinScanCall f state buf = .ok (f', state', rest) ∧
      PassedThrough f state buf (zfinScan state.ref buf).puts f' rest := by
  have hsays := zfinScan_says href buf
  have happends := zfinScan_appends state.ref buf
  rw [zfinScanCall]
  generalize zfinScan state.ref buf = o at hsays happends ⊢
  cases hscan : scan zfinPattern (state.ref.getD 0) buf with
  | inl k =>
    rw [hscan] at hsays
    obtain ⟨ref, ho, hbuf⟩ := hsays.passed
    obtain ⟨hfits, hcontents⟩ := runPuts_passes o.puts hfit (by rw [← hbuf])
    have hpacket : putBytes o.puts ++ [] = buf := by rw [List.append_nil, ← hbuf]
    rw [ho]
    exact ⟨_, _, none, rfl, happends, hfits, hcontents, hpacket, fun h => absurd rfl h,
      fun _ => scan_goes_on href hscan⟩
  | inr rest =>
    rw [hscan] at hsays
    obtain ⟨ho, hbuf⟩ := hsays
    obtain ⟨hfits, hcontents⟩ := runPuts_passes o.puts hfit (by rw [hbuf]; simp)
    rw [hbuf] at hscan
    rw [ho]
    exact ⟨_, _, some rest, rfl, happends, hfits, hcontents, hbuf.symm, fun _ => scan_stops href hscan,
      fun h => absurd h (Option.some_ne_none rest)⟩

/-- Every call returns. It leaves the packet as it is, and the pointer inside the string. -/
theorem zfinScan_passes (f : Fifo) (state : ZfinScanState) (buf : List UInt8)
    (href : ∀ ref ∈ state.ref, ref < zfinLength) (hfit : buf.length ≤ fifoAvail f) :
    ∃ f' state' rest, zfinScanCall f state buf = .ok (f', state', rest) ∧
      PassedThrough f state buf (zfinScan state.ref buf).puts f' rest ∧
      ∀ ref ∈ state'.ref, ref < zfinLength := by
  obtain ⟨f', state', rest, hcall, hpassed⟩ := zfinScanCall_passed href hfit
  exact ⟨f', state', rest, hcall, hpassed, ref_inside href hcall⟩

end Calls

/-- A packet that begins in the middle of the string, with a NUL behind it. -/
theorem zfinScan_passes_resumed : ∃ f' state' rest,
    zfinScanCall (fifoInit 16 (by decide)) { zfinCreate .zfinNooo with ref := some 17 } [13, 138, 0, 79] =
      .ok (f', state', rest) ∧
    PassedThrough (fifoInit 16 (by decide)) { zfinCreate .zfinNooo with ref := some 17 } [13, 138, 0, 79]
      [.append [13, 138]] f' rest ∧ ∀ ref ∈ state'.ref, ref < zfinLength :=
  zfinScan_passes (fifoInit 16 (by decide)) { zfinCreate .zfinNooo with ref := some 17 } [13, 138, 0, 79]
    (by simp [zfinLength]) (by decide)

end Rzh
