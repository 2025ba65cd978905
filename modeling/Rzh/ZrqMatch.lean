import Rzh.Matcher
import Rzh.ZrqStream

/-!
# What zrq_scan recognises

The start sequence may be cut by packet boundaries anywhere but behind the star. So
each character is marked with whether it is the first of its packet, and the scanner is
a search for five characters of which the second must not be marked.
-/
namespace Rzh

open Matcher

/-- The characters of a packet, with a mark on the first. -/
def marked : List UInt8 → List (UInt8 × Bool)
  | [] => []
  | c :: cs => (c, true) :: cs.map fun b => (b, false)

/-- Characters from inside a packet. -/
abbrev unmarked (cs : List UInt8) : List (UInt8 × Bool) := cs.map fun b => (b, false)

/-- "*\030B00", the second character not at the front of a packet. -/
def startPattern : List (UInt8 × Bool → Bool) :=
  [fun a => a.1 = chStar, fun a => a.1 = chCan ∧ a.2 = false, fun a => a.1 = chB,
    fun a => a.1 = ch0, fun a => a.1 = ch0]

theorem startPattern_hits (k : Nat) (a : UInt8 × Bool) :
    hits startPattern k a ↔
      k = 0 ∧ a.1 = chStar ∨ k = 1 ∧ a.1 = chCan ∧ a.2 = false ∨ k = 2 ∧ a.1 = chB ∨
        k = 3 ∧ a.1 = ch0 ∨ k = 4 ∧ a.1 = ch0 := by
  obtain _ | _ | _ | _ | _ | k := k <;> simp [hits, startPattern]

theorem startPattern_star (k : Nat) (b : Bool) : hits startPattern k (chStar, b) ↔ k = 0 := by
  rw [startPattern_hits]
  simp +decide

theorem startPattern_headed : Headed startPattern where
  pos := by decide
  head := by
    rintro ⟨a, b⟩ ha k hk h
    rw [startPattern_hits] at ha
    obtain ⟨-, rfl⟩ := ha.resolve_right (by omega)
    rw [startPattern_star] at h
    omega

/-- Inside a packet the pattern is the text alone. -/
theorem startPattern_hits_unmarked (k : Nat) (b : UInt8) :
    hits startPattern (k + 1) (b, false) ↔ k < 4 ∧ b = headerChar k := by
  rw [startPattern_hits]
  obtain _ | _ | _ | _ | k := k
  · simp [headerChar]
  · simp [headerChar]
  · simp [headerChar]
  · simp [headerChar]
  · constructor
    · intro h
      omega
    · intro h
      exact absurd h.1 (by omega)

/-- The mark matters to a search only when it has got as far as the star. -/
theorem scan_marked {k : Nat} (hk : k ≠ 1) (p : List UInt8) :
    scan startPattern k (marked p) = scan startPattern k (unmarked p) := by
  cases p with
  | nil => rfl
  | cons c cs =>
    have hnext : next startPattern k (c, true) = next startPattern k (c, false) := by
      have h : ∀ j, j ≠ 1 → (hits startPattern j (c, true) ↔ hits startPattern j (c, false)) := by
        intro j hj
        simp only [startPattern_hits]
        simp [hj]
      simp only [next, h k hk, h 0 (by omega)]
    simp only [marked, List.map_cons, scan, hnext]

/-- A star at the end of a packet is as good as none. -/
theorem scan_marked_one {p : List UInt8} (hp : p ≠ []) :
    scan startPattern 1 (marked p) = scan startPattern 0 (unmarked p) := by
  rw [← scan_marked (by omega)]
  cases p with
  | nil => exact absurd rfl hp
  | cons c cs => exact scan_restart _ (by simp [startPattern_hits])

/-- The search has got as far as the scanner: the star and the header so far, or no
further than a star. -/
def Agrees (conn : ZScanState) (k : Nat) : Prop :=
  if conn.parseState ≤ 0 then k ≤ 1 else conn.parseState + 1 = k

/-- The outcome of a call against the outcome of the search. -/
def Sees (o : ZrqOut) : Nat ⊕ List (UInt8 × Bool) → Prop
  | .inl k => o.start = none ∧ Agrees o.conn k
  | .inr rest => ∃ r, o.start = some r ∧ rest = unmarked r

theorem sees_after {o : ZrqOut} {puts : List Put} {r : Nat ⊕ List (UInt8 × Bool)} :
    Sees (o.after puts) r ↔ Sees o r := by
  cases r <;> rfl

theorem header_cons {k k' : Nat} {c : UInt8} {d : List UInt8} (hk' : k' ≤ 3)
    (h : header k' = header k ++ c :: d) :
    k < k' ∧ c = headerChar k ∧ header k' = header (k + 1) ++ d := by
  have hk : k < k' := by
    have hlen := congrArg List.length h
    simp only [header, List.length_take, List.length_append, List.length_cons,
      List.length_nil] at hlen
    omega
  have hcases : k' = 1 ∨ k' = 2 ∨ k' = 3 := by omega
  obtain _ | _ | _ | k := k
  all_goals
    rcases hcases with rfl | rfl | rfl <;> simp_all [header, headerChar] <;> grind

/-- The header characters take the search on. -/
theorem scan_header {k k' : Nat} {d : List UInt8} (hk : k ≤ k') (hk' : k' ≤ 3)
    (hd : header k' = header k ++ d) (cs : List UInt8) :
    scan startPattern (k + 1) (unmarked (d ++ cs)) = scan startPattern (k' + 1) (unmarked cs) := by
  induction d generalizing k with
  | nil =>
    have hlen := congrArg List.length hd
    simp only [header, List.length_take, List.append_nil, List.length_cons, List.length_nil] at hlen
    rw [show k = k' by omega, List.nil_append]
  | cons c d ih =>
    obtain ⟨hlt, rfl, hd'⟩ := header_cons hk' hd
    have hhit := (startPattern_hits_unmarked k _).mpr ⟨by omega, rfl⟩
    have hlen : k + 1 + 1 < startPattern.length := by
      simp only [startPattern, List.length_cons, List.length_nil]
      omega
    exact (scan_hit (unmarked (d ++ cs)) hhit hlen).trans (ih (by omega) hd')

/-- A character that does not go on with the header starts the search afresh, unless the
packet ends behind the stars. -/
theorem scan_breaks {k : Nat} {cs : List UInt8} (hb : Breaks k cs) :
    scan startPattern (k + 1) (unmarked cs) = scan startPattern 0 (unmarked cs) ∨
      cs = [] ∧ k = 0 := by
  obtain ⟨hne, hrest⟩ := hb
  cases cs with
  | nil =>
    right
    split at hrest
    · next h => exact ⟨rfl, h⟩
    · exact absurd rfl hrest
  | cons c cs =>
    left
    apply scan_restart
    rw [startPattern_hits_unmarked]
    rintro ⟨-, rfl⟩
    exact hne rfl

/-- However many stars there are, the search has got as far as one. -/
theorem scan_stars (m : Nat) (cs : List UInt8) :
    scan startPattern 0 (unmarked (List.replicate (m + 1) chStar ++ cs)) =
      scan startPattern 1 (unmarked cs) := by
  have hnext : ∀ k, next startPattern k (chStar, false) = 1 := by
    intro k
    unfold next
    split
    · next h => rw [(startPattern_star k false).mp h]
    · exact if_pos ((startPattern_star 0 false).mpr rfl)
  have hstep : ∀ k xs, scan startPattern k ((chStar, false) :: xs) = scan startPattern 1 xs := by
    intro k xs
    rw [scan, hnext, if_neg (by decide)]
  have hrun : ∀ k, scan startPattern k (unmarked (List.replicate (m + 1) chStar ++ cs)) =
      scan startPattern 1 (unmarked cs) := by
    induction m with
    | zero => exact fun k => hstep k _
    | succ m ih => exact fun k => (hstep k _).trans (ih 1)
  exact hrun 0

theorem scan_quiet {g : List UInt8} (hg : ∀ c ∈ g, c ≠ chStar) (cs : List UInt8) :
    scan startPattern 0 (unmarked (g ++ cs)) = scan startPattern 0 (unmarked cs) := by
  rw [unmarked, List.map_append]
  apply scan_skip startPattern_headed
  intro a ha h
  obtain ⟨c, hc, rfl⟩ := List.mem_map.mp ha
  rw [startPattern_hits] at h
  exact hg c hc (h.resolve_right (by omega)).2

theorem rzText_quiet (z : GotRz) : ∀ c ∈ rzText z, c ≠ chStar := by
  cases z <;> simp [rzText] <;> decide

theorem After.sees {z : GotRz} {m k : Nat} {cp : List UInt8} {p : Pass} (h : After z m k cp p)
    (hk : k ≤ 3) (hnext : ∀ puts rest, p = .next puts zscanstateInit rest →
      Sees (zrqLoop zscanstateInit rest) (scan startPattern 0 (unmarked rest))) :
    Sees p.out (scan startPattern (k + 1) (unmarked cp)) := by
  cases h with
  | wait k' hlt hk' h =>
    have hscan := scan_header (by omega) hk' h []
    rw [List.append_nil] at hscan
    rw [hscan]
    refine ⟨rfl, ?_⟩
    rw [Agrees, if_neg (by simp only [Pass.out]; omega)]
    simp only [Pass.out]
    omega
  | broken k' d cs puts hle hk' hd hcp hb hputs =>
    rw [hcp, scan_header hle hk' hd cs]
    rcases scan_breaks hb with hscan | ⟨rfl, rfl⟩
    · rw [hscan]
      exact sees_after.mpr (hnext puts cs rfl)
    · simp only [Pass.out, zrqLoop_nil]
      exact ⟨rfl, Nat.le_refl 1⟩
  | found d rest hd hcp =>
    have hhit := (startPattern_hits_unmarked 3 ch0).mpr ⟨by omega, rfl⟩
    rw [hcp, scan_header hk (Nat.le_refl 3) hd]
    have hlast : scan startPattern (3 + 1) (unmarked (ch0 :: rest)) = .inr (unmarked rest) :=
      scan_last (unmarked rest) hhit rfl
    rw [hlast]
    exact ⟨rest, rfl, rfl⟩

theorem agrees_init : Agrees zscanstateInit 0 := Nat.zero_le 1

/-- The end of a packet with an `r` and at most one character more. -/
theorem scan_short {t : List UInt8} (ht : t.length < 2) :
    ∃ k ≤ 1, scan startPattern 0 (unmarked (chR :: t)) = .inl k := by
  rcases t with _ | ⟨c, _ | ⟨c', t⟩⟩
  · exact ⟨0, by omega, by decide⟩
  · have hr := scan_quiet (g := [chR]) (by simp; decide) [c]
    rw [List.singleton_append] at hr
    rw [hr]
    by_cases hc : c = chStar
    · subst hc
      exact ⟨1, by omega, by decide⟩
    · have hquiet := scan_quiet (g := [c]) (by simpa using hc) []
      rw [List.append_nil] at hquiet
      exact ⟨0, by omega, hquiet⟩
  · simp only [List.length_cons] at ht
    omega

theorem Round.sees {cp : List UInt8} {p : Pass} (h : Round cp p)
    (hnext : ∀ puts rest, p = .next puts zscanstateInit rest →
      Sees (zrqLoop zscanstateInit rest) (scan startPattern 0 (unmarked rest))) :
    Sees p.out (scan startPattern 0 (unmarked cp)) := by
  have hquiet : ∀ {g : List UInt8}, (∀ c ∈ g, c ≠ chR ∧ c ≠ chStar) → ∀ c ∈ g, c ≠ chStar :=
    fun hg c hc => (hg c hc).2
  cases h with
  | quiet puts hg hputs =>
    have hscan := scan_quiet (hquiet hg) []
    rw [List.append_nil] at hscan
    rw [hscan]
    exact ⟨rfl, agrees_init⟩
  | short g t puts hg hcp ht hputs =>
    obtain ⟨k, hk, hscan⟩ := scan_short ht
    rw [hcp, scan_quiet (hquiet hg), hscan]
    exact ⟨rfl, hk⟩
  | noZ g c cs puts hg hcp hc hputs =>
    have hscan := scan_quiet (List.forall_mem_append.mpr ⟨hquiet hg, (by simp; decide : ∀ c ∈ [chR], _)⟩)
      (c :: cs)
    rw [hcp, List.append_cons, hscan]
    exact sees_after.mpr (hnext puts _ rfl)
  | noLine g c cs puts hg hcp hc hputs =>
    have hscan := scan_quiet
      (List.forall_mem_append.mpr ⟨hquiet hg, (by simp; decide : ∀ c ∈ [chR, chZ], _)⟩) (c :: cs)
    rw [List.append_assoc] at hscan
    rw [hcp]
    exact hscan ▸ sees_after.mpr (hnext puts _ rfl)
  | line g z puts hg hz hcp hputs =>
    have hscan := scan_quiet (List.forall_mem_append.mpr ⟨hquiet hg, rzText_quiet z⟩) []
    rw [List.append_nil] at hscan
    rw [hcp, hscan]
    exact ⟨rfl, Nat.zero_le 1⟩
  | lone g z c cs puts hg hz hcp hc hnl hputs =>
    rw [hcp, scan_quiet (List.forall_mem_append.mpr ⟨hquiet hg, rzText_quiet z⟩)]
    exact sees_after.mpr (hnext puts _ rfl)
  | stars g z m cp' puts q hg hcp hputs h =>
    rw [hcp, List.append_assoc, scan_quiet
      (List.forall_mem_append.mpr ⟨hquiet hg, rzText_quiet z⟩), scan_stars, Pass.out_after,
      sees_after]
    apply h.sees (by omega)
    rintro ps rest rfl
    exact hnext _ rest rfl

theorem zrqLoop_sees (cp : List UInt8) :
    Sees (zrqLoop zscanstateInit cp) (scan startPattern 0 (unmarked cp)) :=
  zrqLoop_induct (motive := fun cp o => Sees o (scan startPattern 0 (unmarked cp)))
    ⟨rfl, agrees_init⟩ (fun _ _ h hnext => h.sees hnext) cp

/-- One call of the scanner is the search through the packet, from where it had got. -/
theorem zrqScan_sees {conn : ZScanState} {buf : List UInt8} {k : Nat} (hs : Settled conn)
    (hbuf : buf ≠ []) (hk : Agrees conn k) :
    Sees (zrqScan conn buf) (scan startPattern k (marked buf)) := by
  have htop : conn.parseState ≤ 0 →
      scan startPattern k (marked buf) = scan startPattern 0 (unmarked buf) := by
    intro hst
    rw [Agrees, if_pos hst] at hk
    by_cases hk1 : k = 1
    · rw [hk1]
      exact scan_marked_one hbuf
    · rw [scan_marked hk1, show k = 0 by omega]
  obtain ⟨rfl, he⟩ | ⟨z, puts, hz, rfl, hc, hputs, he⟩ | ⟨z, m, cp', p, hz, rfl, hcp, h, he⟩ |
    ⟨z, m, k', p, hk1, hk3, rfl, h, he⟩ := zrqScan_cases conn buf hs hbuf
  · rw [he, htop (by decide)]
    exact zrqLoop_sees buf
  · rw [he, htop (by simp), sees_after]
    exact zrqLoop_sees buf
  · rw [he, htop (by simp), hcp, scan_stars]
    exact h.sees (by omega) fun _ rest _ => zrqLoop_sees rest
  · have hk' : k = k' + 1 := by
      rw [Agrees, if_neg (by simp only; omega)] at hk
      simp only at hk
      omega
    rw [he, hk', scan_marked (by omega)]
    exact h.sees hk3 fun _ rest _ => zrqLoop_sees rest

end Rzh
