import Rzh.ZfinMatch

/-!
# The end of a transfer, over packets

zfin_scan finds the first ZFIN string of a stream that comes in packets, except where
the pointer of a failed match is still in the state and later packets go on from it.
-/
namespace Rzh

open Matcher

/-- The calls of a freshly created scanner up to the one that calls the found proc. Each
call has its packet and the fifo as it is by then. The result is the number of that
call, the fifo it leaves, and the text that the found proc is called with. -/
def zfinFeed (state : ZfinScanState) :
    List (Fifo × List UInt8) → Except Halt (Option (Nat × Fifo × List UInt8))
  | [] => .ok none
  | (f, buf) :: ps =>
    match zfinScanCall f state buf with
    | .error h => .error h
    | .ok (f, _, some rest) => .ok (some (0, f, rest))
    | .ok (_, state, none) => (zfinFeed state ps).map (Option.map fun (i, r) => (i + 1, r))

/-- The found proc is installed and called in the `i`-th packet, with `rest`. -/
def FoundAt (found : ZfinFound) (ps : List (Fifo × List UInt8)) (i : Nat) (rest : List UInt8) :
    Prop :=
  ∃ f, zfinFeed (zfinCreate found) ps = .ok (some (i, f, rest)) ∧ f.proc = some found.proc

/-- The first ZFIN string of the stream ends in the `i`-th packet, in front of `rest`. -/
def EndsIn (ps : List (List UInt8)) (i : Nat) (rest : List UInt8) : Prop :=
  ∃ A u B, ps = A ++ (u ++ rest) :: B ∧ A.length = i ∧ u ≠ [] ∧ zfinText <:+ A.flatten ++ u ∧
    ∀ s t, A.flatten ++ u = s ++ t → t ≠ [] → ¬ zfinText <:+ s

/-- The found proc is called where the first ZFIN string of the stream ends, and only there. -/
def ZfinExact (found : ZfinFound) (ps : List (Fifo × List UInt8)) : Prop :=
  ∀ i rest, FoundAt found ps i rest ↔ EndsIn (ps.map Prod.snd) i rest

/-- The stream holds no ZFIN string, and the part of one at its end has `k` characters. -/
def EndsInside (k : Nat) (s : List UInt8) : Prop :=
  ¬ zfinText <:+: s ∧ k < zfinLength ∧ zfinText.take k <:+ s ∧
    ∀ j, 0 < j → j < zfinLength → zfinText.take j <:+ s → j = k

/-- The packets take the string from its `k`-th character to its end, each of them either
going on where the last one stopped or holding nothing of a ZFIN string at all. -/
def Resumes : Nat → List (List UInt8) → Prop
  | _, [] => False
  | k, p :: ps =>
    zfinText.drop k <+: p ∨
    p <+: zfinText.drop k ∧ p ≠ zfinText.drop k ∧ Resumes (k + p.length) ps ∨
    ¬ zfinText.drop k <+: p ∧ ¬ p <+: zfinText.drop k ∧ EndsInside 0 p ∧ Resumes k ps

/-- A packet `p` breaks off a match of `k` characters without beginning another, and
later packets go on with the match as if `p` had not been there. -/
def StaleMatch (ps : List (List UInt8)) : Prop :=
  ∃ A p B k, ps = A ++ p :: B ∧ 0 < k ∧ EndsInside k A.flatten ∧
    ¬ zfinText.drop k <+: p ∧ ¬ p <+: zfinText.drop k ∧ EndsInside 0 p ∧ Resumes k B

theorem endsInside_iff (k : Nat) (s : List UInt8) :
    EndsInside k s ↔ scan zfinPattern 0 s = .inl k := by
  have hlt : ∀ j, 0 < j → Ends zfinPattern j s → j ≤ zfinLength := by
    intro j hj h
    obtain ⟨i, rfl⟩ : ∃ i, j = i + 1 := ⟨j - 1, by omega⟩
    obtain ⟨u, a, -, ha, -⟩ := h
    have := hits_lt ha
    rwa [ofText_length] at this
  rw [scan_inl_iff zfin_headed, free_ofText, EndsInside]
  constructor
  · rintro ⟨hfree, hk, hend, huniq⟩
    refine ⟨hfree, (ends_ofText zfinText s (Nat.le_of_lt hk)).mpr hend, ?_⟩
    intro j hj h
    have hj' := hlt j hj h
    rw [ends_ofText zfinText s hj'] at h
    apply huniq j hj (Nat.lt_of_le_of_ne hj' ?_) h
    rintro rfl
    exact hfree h.isInfix
  · rintro ⟨hfree, hend, huniq⟩
    have hk : k ≤ zfinLength := by
      by_cases h : 0 < k
      · exact hlt k h hend
      · omega
    rw [ends_ofText zfinText s hk] at hend
    refine ⟨hfree, Nat.lt_of_le_of_ne hk ?_, hend, ?_⟩
    · rintro rfl
      exact hfree hend.isInfix
    · intro j hj hj' h
      exact huniq j hj ((ends_ofText zfinText s (Nat.le_of_lt hj')).mpr h)

theorem endsIn_iff (ps : List (List UInt8)) (i : Nat) (rest : List UInt8) :
    EndsIn ps i rest ↔ feed zfinPattern 0 ps = some (i, rest) := by
  rw [feed_iff zfin_headed]
  simp only [EndsIn, first_ofText]

/-- A search that is not taken back to its start by a packet in which it fails. -/
def stuckFeed : Nat → List (List UInt8) → Option (Nat × List UInt8)
  | _, [] => none
  | k, p :: ps =>
    match scan zfinPattern k p with
    | .inl 0 => (stuckFeed k ps).map fun (i, rest) => (i + 1, rest)
    | .inl (k' + 1) => (stuckFeed (k' + 1) ps).map fun (i, rest) => (i + 1, rest)
    | .inr rest => some (0, rest)

/-- The pointer after a search that has got `k` characters into the string. -/
def refAfter (ref : Option Nat) (k : Nat) : Option Nat := if k = 0 then ref else some k

/-- A call that does not end in the found proc, or one that does. -/
theorem zfinScanCall_cases (f : Fifo) (state : ZfinScanState) (buf : List UInt8)
    (href : ∀ ref ∈ state.ref, ref < zfinLength) :
    (∃ f' k, k < zfinLength ∧ scan zfinPattern (state.ref.getD 0) buf = .inl k ∧
      zfinScanCall f state buf = .ok (f', { state with ref := refAfter state.ref k }, none)) ∨
    (∃ f' rest, scan zfinPattern (state.ref.getD 0) buf = .inr rest ∧
      f'.proc = some state.found.proc ∧ zfinScanCall f state buf = .ok (f', state, some rest)) := by
  have hlt : state.ref.getD 0 < zfinLength := by
    cases h : state.ref with
    | none => decide
    | some k => exact href k h
  by_cases hbuf : buf = []
  · subst hbuf
    refine .inl ⟨f, state.ref.getD 0, hlt, rfl, ?_⟩
    have hsame : refAfter state.ref (state.ref.getD 0) = state.ref := by
      rcases state.ref with _ | _ | k <;> rfl
    rw [hsame]
    rfl
  · have hsays := zfinScan_matches hbuf href
    rcases hscan : scan zfinPattern (state.ref.getD 0) buf with (k | k) | rest
    all_goals
      rw [hscan] at hsays
      obtain ⟨ho, -⟩ := hsays
    · refine .inl ⟨runPuts f (zfinScan state.ref buf).puts, 0, by decide, rfl, ?_⟩
      rw [zfinScanCall, ho]
      rfl
    · refine .inl ⟨runPuts f (zfinScan state.ref buf).puts, k + 1, scan_inl_lt hlt hscan, rfl, ?_⟩
      rw [zfinScanCall, ho]
      rfl
    · refine .inr ⟨{ runPuts f (zfinScan state.ref buf).puts with proc := some state.found.proc },
        rest, rfl, rfl, ?_⟩
      rw [zfinScanCall, ho]
      rfl

/-- The scanner's calls are the search that may get stuck. -/
theorem zfinFeed_eq (state : ZfinScanState) (ps : List (Fifo × List UInt8))
    (href : ∀ ref ∈ state.ref, ref < zfinLength) :
    ∃ o, zfinFeed state ps = .ok o ∧
      stuckFeed (state.ref.getD 0) (ps.map Prod.snd) = o.map (fun (i, _, rest) => (i, rest)) ∧
      ∀ i f rest, o = some (i, f, rest) → f.proc = some state.found.proc := by
  induction ps generalizing state with
  | nil => exact ⟨none, rfl, rfl, by simp⟩
  | cons x ps ih =>
    obtain ⟨f, buf⟩ := x
    obtain ⟨f', k, hk, hscan, he⟩ | ⟨f', rest, hscan, hproc, he⟩ := zfinScanCall_cases f state buf href
    · have href' : ∀ ref ∈ refAfter state.ref k, ref < zfinLength := by
        unfold refAfter
        split
        · exact href
        · simpa using hk
      obtain ⟨o, ho, hs, hp⟩ := ih { state with ref := refAfter state.ref k } href'
      refine ⟨o.map fun (i, r) => (i + 1, r), ?_, ?_, ?_⟩
      · rw [zfinFeed, he]
        simp only [ho]
        rfl
      · simp only [List.map_cons, stuckFeed, hscan]
        cases k with
        | zero =>
          simp only [refAfter, if_pos] at hs
          simp [hs, Function.comp_def]
        | succ k =>
          simp only [refAfter, Nat.succ_ne_zero, if_false, Option.getD_some] at hs
          simp [hs, Function.comp_def]
      · intro i f rest h
        obtain ⟨⟨j, f', rest'⟩, ho', hj⟩ := Option.map_eq_some_iff.mp h
        cases hj
        exact hp j f rest ho'
    · refine ⟨some (0, f', rest), ?_, ?_, ?_⟩
      · rw [zfinFeed, he]
      · simp only [List.map_cons, stuckFeed, hscan]
        rfl
      · intro i f rest h
        cases h
        exact hproc

theorem foundAt_iff (found : ZfinFound) (ps : List (Fifo × List UInt8)) (i : Nat)
    (rest : List UInt8) :
    FoundAt found ps i rest ↔ stuckFeed 0 (ps.map Prod.snd) = some (i, rest) := by
  obtain ⟨o, ho, hs, hp⟩ := zfinFeed_eq (zfinCreate found) ps (by simp [zfinCreate])
  have hs : stuckFeed 0 (ps.map Prod.snd) = o.map (fun (i, _, rest) => (i, rest)) := hs
  rw [FoundAt, ho, hs]
  constructor
  · rintro ⟨f, he, -⟩
    cases he
    rfl
  · intro h
    obtain ⟨⟨j, f, rest'⟩, rfl, hj⟩ := Option.map_eq_some_iff.mp h
    cases hj
    exact ⟨f, rfl, hp i f rest rfl⟩

/-- The packet neither holds the rest of the string after `k` characters in front nor is
a part of it. -/
def Off (k : Nat) (p : List UInt8) : Prop := ¬ zfinText.drop k <+: p ∧ ¬ p <+: zfinText.drop k

/-- A stale match later on, for a search that has `t` characters to start with. -/
def StaleFrom (t : Nat) (ps : List (List UInt8)) : Prop :=
  ∃ A p B k, ps = A ++ p :: B ∧ 0 < k ∧ scan zfinPattern t A.flatten = .inl k ∧ Off k p ∧
    scan zfinPattern 0 p = .inl 0 ∧ Resumes k B

theorem staleMatch_iff (ps : List (List UInt8)) : StaleMatch ps ↔ StaleFrom 0 ps := by
  simp only [StaleMatch, StaleFrom, endsInside_iff, Off, and_assoc]

theorem staleFrom_nil (t : Nat) : ¬ StaleFrom t [] := by
  rintro ⟨A, p, B, k, h, -⟩
  simp at h

theorem staleFrom_cons (t : Nat) (p : List UInt8) (ps : List (List UInt8)) :
    StaleFrom t (p :: ps) ↔
      (0 < t ∧ Off t p ∧ scan zfinPattern 0 p = .inl 0 ∧ Resumes t ps) ∨
      ∃ k, scan zfinPattern t p = .inl k ∧ StaleFrom k ps := by
  constructor
  · rintro ⟨A, q, B, k, hps, hk, hscan, hoff, hq, hres⟩
    cases A with
    | nil =>
      obtain ⟨rfl, rfl⟩ := List.cons.inj hps
      cases hscan
      exact .inl ⟨hk, hoff, hq, hres⟩
    | cons a A =>
      obtain ⟨rfl, rfl⟩ := List.cons.inj hps
      rw [List.flatten_cons, scan_append] at hscan
      split at hscan
      · next k' he => exact .inr ⟨k', he, A, q, B, k, rfl, hk, hscan, hoff, hq, hres⟩
      · cases hscan
  · rintro (⟨hk, hoff, hq, hres⟩ | ⟨k', he, A, q, B, k, rfl, hk, hscan, hoff, hq, hres⟩)
    · exact ⟨[], p, ps, t, rfl, hk, rfl, hoff, hq, hres⟩
    · refine ⟨p :: A, q, B, k, rfl, hk, ?_, hoff, hq, hres⟩
      rw [List.flatten_cons, scan_append, he]
      exact hscan

theorem map_succ_inj {x y : Option (Nat × List UInt8)} :
    (x.map fun (i, rest) => (i + 1, rest)) = (y.map fun (i, rest) => (i + 1, rest)) ↔ x = y := by
  apply Function.Injective.eq_iff
  apply Option.map_injective
  rintro ⟨i, r⟩ ⟨j, s⟩ h
  simpa using h

/-- A packet that is not off the string takes the search on along it. -/
theorem scan_packet {k : Nat} (hk : k < zfinLength) (p : List UInt8) :
    (∃ rest, p = zfinText.drop k ++ rest ∧ scan zfinPattern k p = .inr rest) ∨
    (p <+: zfinText.drop k ∧ ¬ zfinText.drop k <+: p ∧
      k + p.length < zfinLength ∧ scan zfinPattern k p = .inl (k + p.length)) ∨
    (Off k p ∧ scan zfinPattern k p = scan zfinPattern 0 p) := by
  by_cases hdone : zfinText.drop k <+: p
  · obtain ⟨rest, rfl⟩ := hdone
    exact .inl ⟨rest, rfl, scan_done hk rest⟩
  · by_cases halong : p <+: zfinText.drop k
    · have hlen : p.length < (zfinText.drop k).length := by
        apply Nat.lt_of_le_of_ne halong.length_le
        intro he
        rw [halong.eq_of_length he] at hdone
        exact hdone List.prefix_rfl
      rw [List.length_drop, zfinText_length] at hlen
      have hlt : k + p.length < zfinText.length := by
        rw [zfinText_length]
        omega
      have hscan := scan_along halong hlt []
      rw [List.append_nil] at hscan
      exact .inr (.inl ⟨halong, hdone, hlt, hscan⟩)
    · exact .inr (.inr ⟨⟨hdone, halong⟩, scan_off zfin_headed hk hdone halong⟩)

theorem zfin_skip {k : Nat} (hk : 0 < k) {d : List UInt8} (hd : d <+: zfinText.drop k)
    (ys : List UInt8) : scan zfinPattern 0 (d ++ ys) = scan zfinPattern 0 ys :=
  scan_skip zfin_headed d ys fun a ha => hits_zero_drop zfin_headed hk a (hd.subset ha)

/-- A search that does not end where a new one begins is not off. -/
theorem not_off_of_scan {k : Nat} (hk : k < zfinLength) {p : List UInt8} (hscan : scan zfinPattern k p ≠ .inl 0) :
    ¬ (Off k p ∧ scan zfinPattern 0 p = .inl 0) := by
  rintro ⟨hoff, h0⟩
  exact hscan ((scan_off zfin_headed hk hoff.1 hoff.2).trans h0)

/-- A match takes characters from a packet. -/
theorem scan_ne_rest (rest : List UInt8) : scan zfinPattern 0 rest ≠ .inr rest := by
  intro hrest
  obtain ⟨u, hu, hfirst⟩ := (scan_inr_iff zfin_headed rest rest).mp hrest
  obtain rfl : u = [] := by simpa using hu
  exact free_nil zfin_headed [] [] rfl hfirst.1

/-- The two searches side by side: in step, or with one stuck behind `m` characters while
the other is at its start. -/
theorem stuckFeed_eq_feed (ps : List (List UInt8)) :
    (∀ k < zfinLength, stuckFeed k ps = feed zfinPattern k ps ↔ ¬ StaleFrom k ps) ∧
    (∀ m < zfinLength, 0 < m →
      (stuckFeed m ps = feed zfinPattern 0 ps ↔ ¬ (Resumes m ps ∨ StaleFrom 0 ps))) := by
  induction ps with
  | nil => simp [stuckFeed, feed, staleFrom_nil, Resumes]
  | cons p ps ih =>
    obtain ⟨ihstep, ihstuck⟩ := ih
    constructor
    · intro k hk
      rw [staleFrom_cons, stuckFeed, feed]
      rcases hscan : scan zfinPattern k p with (k' | k') | rest
      · -- a failure: from here on the two differ by the `k` characters
        simp only [map_succ_inj]
        by_cases hk0 : k = 0
        · subst hk0
          simp [ihstep 0 hk]
        · obtain ⟨rest, -, h⟩ | ⟨-, -, -, h⟩ | ⟨hoff, h⟩ := scan_packet hk p
          · rw [hscan] at h
            cases h
          · rw [hscan] at h
            have := Sum.inl.inj h
            omega
          · rw [h] at hscan
            have hpos : 0 < k := by omega
            simp [ihstuck k hk hpos, hpos, hoff, hscan]
      · have hlt := scan_inl_lt (P := zfinPattern) hk hscan
        have hno := not_off_of_scan hk (p := p) (by simp [hscan])
        simp only [map_succ_inj, ihstep (k' + 1) hlt, Sum.inl.injEq, exists_eq_left']
        tauto
      · have hno := not_off_of_scan hk (p := p) (by simp [hscan])
        simp only [reduceCtorEq, false_and, exists_false, or_false, true_iff]
        tauto
    · intro m hm hpos
      rw [staleFrom_cons, stuckFeed, feed, Resumes, endsInside_iff]
      obtain ⟨rest, rfl, hscan⟩ | ⟨halong, hdone, hlt, hscan⟩ | ⟨⟨hdone, halong⟩, hscan⟩ :=
        scan_packet hm p
      · -- the stuck search claims a match that is not in the stream
        have hres : zfinText.drop m <+: zfinText.drop m ++ rest := List.prefix_append _ _
        simp only [hscan, hres, true_or, not_true_eq_false, iff_false]
        rw [zfin_skip hpos List.prefix_rfl]
        intro heq
        cases hrest : scan zfinPattern 0 rest with
        | inl k' =>
          rw [hrest] at heq
          obtain ⟨⟨j, r⟩, -, h⟩ := Option.map_eq_some_iff.mp heq.symm
          simp at h
        | inr r =>
          rw [hrest] at heq
          obtain rfl : rest = r := by simpa using heq
          exact scan_ne_rest rest hrest
      · have hskip := zfin_skip hpos halong []
        rw [List.append_nil] at hskip
        have hne : p ≠ zfinText.drop m := by
          rintro rfl
          exact hdone List.prefix_rfl
        obtain ⟨j, hj⟩ : ∃ j, m + p.length = j + 1 := ⟨m + p.length - 1, by omega⟩
        rw [hj] at hlt
        simp [hscan, hskip, scan, hj, map_succ_inj, ihstuck (j + 1) hlt, hdone, halong, hne]
      · rw [hscan]
        rcases hp : scan zfinPattern 0 p with (k' | k') | rest
        · simp [map_succ_inj, ihstuck m hm hpos, hdone, halong]
        · have hlt := scan_inl_lt (P := zfinPattern) (by decide) hp
          simp [map_succ_inj, ihstep (k' + 1) hlt, hdone, halong]
        · simp [hdone, halong]

/-- zfin_scan recognises exactly the first ZFIN string of the stream, whatever the
packets, if and only if no stale match is taken up again. -/
theorem zfinScan_exact_iff (found : ZfinFound) (ps : List (Fifo × List UInt8)) :
    ZfinExact found ps ↔ ¬ StaleMatch (ps.map Prod.snd) := by
  rw [staleMatch_iff, ← (stuckFeed_eq_feed _).1 0 (by decide)]
  simp only [ZfinExact, foundAt_iff, endsIn_iff]
  constructor
  · intro h
    apply Option.ext
    rintro ⟨i, rest⟩
    exact h i rest
  · intro h i rest
    rw [h]

/-- A packet that breaks off after "*\030B08", one of a single character, and one that
starts with the fourteen characters that the first one lacked. -/
def brokenOff : List (List UInt8) :=
  [zfinText.take 5, [120], zfinText.drop 5]

/-- The scanner takes these for a ZFIN. -/
theorem zfinScan_brokenOff :
    ¬ ZfinExact .zfinTerm (brokenOff.map fun p => (fifoInit bufsiz bufsiz_pos, p)) := by
  intro h
  have hcode := (foundAt_iff .zfinTerm
    (brokenOff.map fun p => (fifoInit bufsiz bufsiz_pos, p)) 2 []).mpr (by decide +kernel)
  have hends := (endsIn_iff _ _ _).mp ((h 2 []).mp hcode)
  have hnone : feed zfinPattern 0 brokenOff = none := by decide +kernel
  rw [List.map_map] at hends
  simp [Function.comp_def, hnone] at hends

end Rzh
