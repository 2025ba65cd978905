import Rzh.ZrqStream

/-!
# Room in the fifo for zrq_scan

fifo_read looks for room for the packet, but the text that earlier packets have left with
the scanner goes into the fifo too. How much goes in can be read off the pending text and
the packet: everything up to the text that the scanner keeps or that begins the transfer.
-/
namespace Rzh

open Circular

/-- What is behind an rz line, if the text begins with one. -/
def behindRz : List UInt8 → List UInt8
  | c0 :: c1 :: c2 :: cs =>
    if c0 = chR ∧ c1 = chZ ∧ c2 = chNl then cs
    else if c0 = chR ∧ c1 = chZ ∧ c2 = chCr then
      if cs.head? = some chNl then cs.tail else cs
    else c0 :: c1 :: c2 :: cs
  | cp => cp

/-- What is behind an rz line and stars. -/
def behindStars (cp : List UInt8) : List UInt8 := (behindRz cp).dropWhile (· = chStar)

/-- What follows the stars in a start sequence. -/
def fullHeader : List UInt8 := [chCan, chB, ch0, ch0]

/-- An rz line and nothing else, or, with or without an rz line, stars and at least the first
character of a header, and then either the whole header or the end of the text. -/
def kept (cp : List UInt8) : Bool :=
  if behindRz cp = [] then cp ≠ []
  else (behindRz cp).head? = some chStar ∧ (behindStars cp).head? = some chCan ∧
    (behindStars cp <+: fullHeader ∨ fullHeader <+: behindStars cp)

/-- The longest such text at the end of a packet. -/
def keptSuffix : List UInt8 → List UInt8
  | [] => []
  | c :: cs => if kept (c :: cs) then c :: cs else keptSuffix cs

/-- The packet goes on with the text that is pending. -/
def GoesOn (conn : ZScanState) (buf : List UInt8) : Prop :=
  conn.parseState ≠ 0 ∧ (conn.parseState = -1 → buf.head? = some chStar) ∧
    kept (pending conn ++ buf) = true

instance (conn : ZScanState) (buf : List UInt8) : Decidable (GoesOn conn buf) :=
  inferInstanceAs (Decidable (_ ∧ _ ∧ _))

/-- The part of the pending text and the packet that does not go into the fifo. -/
def heldBack (conn : ZScanState) (buf : List UInt8) : List UInt8 :=
  if GoesOn conn buf then pending conn ++ buf else keptSuffix buf

/-- A text that begins with a whole start sequence. -/
def Complete (cp : List UInt8) : Prop := fullHeader <+: behindStars cp

instance (cp : List UInt8) : Decidable (Complete cp) :=
  inferInstanceAs (Decidable (fullHeader <+: behindStars cp))

theorem kept_head {c : UInt8} {cs : List UInt8} (hr : c ≠ chR) (hs : c ≠ chStar) :
    kept (c :: cs) = false := by
  have hb : behindRz (c :: cs) = c :: cs := by
    unfold behindRz
    split
    · next heq =>
      obtain ⟨rfl, rfl⟩ := List.cons.inj heq
      simp [hr]
    · rfl
  simp [kept, hb, hs]

theorem keptSuffix_skip {d : List UInt8} (hd : ∀ c ∈ d, c ≠ chR ∧ c ≠ chStar) (cs : List UInt8) :
    keptSuffix (d ++ cs) = keptSuffix cs := by
  induction d with
  | nil => rfl
  | cons c d ih =>
    obtain ⟨hr, hs⟩ := hd c List.mem_cons_self
    rw [List.cons_append, keptSuffix, kept_head hr hs]
    exact ih fun b hb => hd b (List.mem_cons_of_mem c hb)

theorem keptSuffix_of_kept {cp : List UInt8} (h : kept cp = true) : keptSuffix cp = cp := by
  cases cp with
  | nil => rfl
  | cons c cs => simp [keptSuffix, h]

/-- Stars, or an rz line and something that does not belong to it. -/
theorem behindRz_rzText (z : GotRz) (cs : List UInt8) (hz : z ≠ .rznone ∨ cs.head? ≠ some chR)
    (hnl : z = .rzcr → cs.head? ≠ some chNl) : behindRz (rzText z ++ cs) = cs := by
  cases z with
  | rznone =>
    have hr : cs.head? ≠ some chR := by simpa using hz
    unfold behindRz
    simp only [rzText, List.nil_append]
    split
    · simp_all
    · rfl
  | rznl => simp [rzText, behindRz]
  | rzcr => simp [rzText, behindRz, hnl rfl]
  | rzcrnl => simp +decide [rzText, behindRz]

theorem behindStars_stars (z : GotRz) (m : Nat) {cs : List UInt8} (hcs : cs.head? ≠ some chStar) :
    behindRz (rzText z ++ (List.replicate (m + 1) chStar ++ cs)) =
        List.replicate (m + 1) chStar ++ cs ∧
      behindStars (rzText z ++ (List.replicate (m + 1) chStar ++ cs)) = cs := by
  have hrz : behindRz (rzText z ++ (List.replicate (m + 1) chStar ++ cs)) =
      List.replicate (m + 1) chStar ++ cs := by
    apply behindRz_rzText
    · simp +decide [List.replicate_succ]
    · simp +decide [List.replicate_succ]
  have hdrop : ∀ n, (List.replicate n chStar ++ cs).dropWhile (· = chStar) = cs := by
    intro n
    induction n with
    | zero =>
      cases cs with
      | nil => rfl
      | cons c cs => simpa using hcs
    | succ n ih => rw [List.replicate_succ, List.cons_append, List.dropWhile_cons_of_pos (by simp), ih]
  exact ⟨hrz, by rw [behindStars, hrz, hdrop]⟩

theorem kept_stars (z : GotRz) (m : Nat) {cs : List UInt8} (hcs : cs.head? ≠ some chStar) :
    kept (rzText z ++ (List.replicate (m + 1) chStar ++ cs)) = true ↔
      cs.head? = some chCan ∧ (cs <+: fullHeader ∨ fullHeader <+: cs) := by
  obtain ⟨hrz, hstars⟩ := behindStars_stars z m hcs
  rw [kept, hrz, hstars, if_neg (by simp [List.replicate_succ])]
  simp [List.replicate_succ]

theorem fullHeader_eq {k : Nat} (hk : k ≤ 3) :
    fullHeader = header k ++ headerChar k :: fullHeader.drop (k + 1) := by
  have hcases : k = 0 ∨ k = 1 ∨ k = 2 ∨ k = 3 := by omega
  rcases hcases with rfl | rfl | rfl | rfl <;> rfl

theorem header_head {k : Nat} {cs : List UInt8} (h : k = 0 → cs.head? ≠ some chStar) :
    (header k ++ cs).head? ≠ some chStar := by
  cases k with
  | zero => exact h rfl
  | succ k => simp +decide [header]

/-- What stops a header stops the text from being kept. -/
theorem not_kept_of_breaks {k : Nat} {cs : List UInt8} (hk : k ≤ 3) (hb : Breaks k cs) (z : GotRz)
    (m : Nat) : kept (sequence z (m + 1) k ++ cs) = false := by
  obtain ⟨hne, hrest⟩ := hb
  have hhead : (header k ++ cs).head? ≠ some chStar := by
    apply header_head
    intro hk0
    rwa [if_pos hk0] at hrest
  rw [sequence, List.append_assoc, List.append_assoc, ← Bool.not_eq_true, kept_stars z m hhead,
    fullHeader_eq hk, List.prefix_append_right_inj, List.prefix_append_right_inj]
  rintro ⟨hcan, hpre⟩
  cases cs with
  | nil =>
    split at hrest
    · next hk0 =>
      subst hk0
      simp [header] at hcan
    · exact hrest rfl
  | cons c cs =>
    simp only [List.cons_prefix_cons] at hpre
    rcases hpre with ⟨rfl, -⟩ | ⟨rfl, -⟩ <;> exact hne rfl

/-- A header that goes on to the end of the text or to its last character is kept. -/
theorem kept_of_header {k : Nat} {cs : List UInt8} (hk : 1 ≤ k) (hk' : k ≤ 3)
    (hcs : cs = [] ∨ k = 3 ∧ cs.head? = some ch0) (z : GotRz) (m : Nat) :
    kept (sequence z (m + 1) k ++ cs) = true := by
  obtain ⟨k, rfl⟩ : ∃ j, k = j + 1 := ⟨k - 1, by omega⟩
  rw [sequence, List.append_assoc, List.append_assoc,
    kept_stars z m (header_head (by omega))]
  refine ⟨by simp [header], ?_⟩
  rcases hcs with rfl | ⟨h3, hcs⟩
  · left
    rw [List.append_nil, fullHeader_eq hk']
    exact List.prefix_append _ _
  · right
    obtain ⟨cs, rfl⟩ := List.head?_eq_some_iff.mp hcs
    rw [h3]
    exact ⟨cs, rfl⟩

theorem keptSuffix_rzText (z : GotRz) {cs : List UInt8} (h : kept (rzText z ++ cs) = false) :
    keptSuffix (rzText z ++ cs) = keptSuffix cs := by
  have htail : ∀ c ∈ (rzText z).tail, c ≠ chR ∧ c ≠ chStar := by
    cases z <;> simp [rzText] <;> decide
  have hskip := keptSuffix_skip htail cs
  cases z with
  | rznone => rfl
  | rznl | rzcr | rzcrnl =>
    simp only [rzText, List.cons_append, List.tail_cons] at h hskip ⊢
    rw [keptSuffix, h]
    exact hskip

theorem header_quiet (k : Nat) : ∀ c ∈ header k, c ≠ chR ∧ c ≠ chStar := by
  have hall : ∀ c ∈ [chCan, chB, ch0], c ≠ chR ∧ c ≠ chStar := by simp; decide
  exact fun c hc => hall c (List.mem_of_mem_take hc)

/-- No suffix that begins inside a broken sequence is kept. -/
theorem keptSuffix_broken {k : Nat} {cs : List UInt8} (hk : k ≤ 3) (hb : Breaks k cs) (z : GotRz)
    (m : Nat) : keptSuffix (sequence z (m + 1) k ++ cs) = keptSuffix cs := by
  have hstars : ∀ m, keptSuffix (List.replicate m chStar ++ (header k ++ cs)) = keptSuffix cs := by
    intro m
    induction m with
    | zero => exact keptSuffix_skip (header_quiet k) cs
    | succ m ih =>
      have hno := not_kept_of_breaks hk hb .rznone m
      rw [sequence, rzText, List.nil_append, List.append_assoc, List.replicate_succ,
        List.cons_append] at hno
      rw [List.replicate_succ, List.cons_append, keptSuffix, hno]
      exact ih
  have hno := not_kept_of_breaks hk hb z m
  rw [sequence, List.append_assoc, List.append_assoc] at hno ⊢
  rw [keptSuffix_rzText z hno]
  exact hstars (m + 1)

/-- What a call appends is the text up to the part `back`, and it has found a start sequence
if `back` begins with one. -/
def HoldsBack (text back : List UInt8) (o : ZrqOut) : Prop :=
  text = putBytes o.puts ++ back ∧ (o.start ≠ none ↔ Complete back)

theorem HoldsBack.after {text back : List UInt8} {o : ZrqOut} (puts : List Put)
    (h : HoldsBack text back o) : HoldsBack (putBytes puts ++ text) back (o.after puts) := by
  obtain ⟨ht, hs⟩ := h
  refine ⟨?_, hs⟩
  rw [ht]
  simp [ZrqOut.after]

theorem complete_sequence (z : GotRz) (m : Nat) {k : Nat} {cs : List UInt8}
    (h : k = 0 → cs.head? ≠ some chStar) :
    Complete (sequence z (m + 1) k ++ cs) ↔ fullHeader <+: header k ++ cs := by
  rw [Complete, sequence, List.append_assoc, List.append_assoc,
    (behindStars_stars z m (header_head h)).2]

/-- A round that has got as far as a sequence either keeps all of it or breaks it. -/
theorem After.holdsBack {z : GotRz} {m k : Nat} {cp : List UInt8} {p : Pass}
    (h : After z (m + 1) k cp p) (hk : k ≤ 3)
    (hnext : ∀ puts rest, p = .next puts zscanstateInit rest →
      HoldsBack rest (keptSuffix rest) (zrqLoop zscanstateInit rest)) :
    (kept (sequence z (m + 1) k ++ cp) = true ∧
      HoldsBack (sequence z (m + 1) k ++ cp) (sequence z (m + 1) k ++ cp) p.out) ∨
    (kept (sequence z (m + 1) k ++ cp) = false ∧ ∃ d cs k', k' ≤ 3 ∧ Breaks k' cs ∧
      header k' = header k ++ d ∧ cp = d ++ cs ∧
      HoldsBack (sequence z (m + 1) k ++ cp) (keptSuffix cs) p.out) := by
  cases h with
  | wait k' hlt hk' h =>
    have htext : sequence z (m + 1) k ++ cp = sequence z (m + 1) k' ++ [] := by
      simp [sequence, h]
    rw [htext]
    refine .inl ⟨kept_of_header (by omega) hk' (.inl rfl) z m, rfl, ?_⟩
    rw [complete_sequence z m (by omega), List.append_nil]
    refine ⟨fun hne => absurd rfl hne, fun hpre => ?_⟩
    have hlen := hpre.length_le
    simp only [fullHeader, header, List.length_cons, List.length_nil, List.length_take] at hlen
    omega
  | broken k' d cs puts hle hk' hd hcp hb hputs =>
    have htext : sequence z (m + 1) k ++ cp = sequence z (m + 1) k' ++ cs := by
      rw [hcp]
      simp [sequence, hd]
    right
    rw [htext]
    refine ⟨not_kept_of_breaks hk' hb z m, d, cs, k', hk', hb, hd, hcp, ?_⟩
    rw [← hputs]
    exact (hnext puts cs rfl).after puts
  | found d rest hd hcp =>
    have htext : sequence z (m + 1) k ++ cp = sequence z (m + 1) 3 ++ ch0 :: rest := by
      rw [hcp]
      simp [sequence, hd]
    rw [htext]
    refine .inl ⟨kept_of_header (by omega) (Nat.le_refl 3) (.inr ⟨rfl, rfl⟩) z m, rfl, ?_⟩
    rw [complete_sequence z m (by omega)]
    exact ⟨fun _ => ⟨rest, rfl⟩, fun _ => Option.some_ne_none rest⟩

theorem not_complete_nil : ¬ Complete [] := by decide

theorem not_complete_rzText (z : GotRz) : ¬ Complete (rzText z) := by
  cases z <;> decide

theorem kept_rzText {z : GotRz} (hz : z ≠ .rznone) : kept (rzText z) = true := by
  cases z <;> first | exact absurd rfl hz | decide

theorem kept_noZ {c : UInt8} (cs : List UInt8) (hc : c ≠ chZ) : kept (chR :: c :: cs) = false := by
  have hb : behindRz (chR :: c :: cs) = chR :: c :: cs := by
    cases cs with
    | nil => rfl
    | cons c' cs => simp [behindRz, hc]
  simp +decide [kept, hb]

theorem kept_noLine {c : UInt8} (cs : List UInt8) (hc : c ≠ chCr ∧ c ≠ chNl) :
    kept (chR :: chZ :: c :: cs) = false := by
  have hb : behindRz (chR :: chZ :: c :: cs) = chR :: chZ :: c :: cs := by
    simp [behindRz, hc.1, hc.2]
  simp +decide [kept, hb]

theorem keptSuffix_short {t : List UInt8} (ht : t.length < 2) : keptSuffix (chR :: t) = [] := by
  have hone : ∀ c, kept [c] = false := by
    intro c
    by_cases hc : c = chStar
    · rw [hc]
      decide
    · simp [kept, behindRz, hc]
  have htwo : ∀ c, kept [chR, c] = false := by
    intro c
    simp +decide [kept, behindRz]
  rcases t with _ | ⟨c, _ | ⟨c', t⟩⟩
  · simp [keptSuffix, hone]
  · simp [keptSuffix, hone, htwo]
  · simp only [List.length_cons] at ht
    omega

theorem Round.holdsBack {cp : List UInt8} {p : Pass} (h : Round cp p)
    (hnext : ∀ puts rest, p = .next puts zscanstateInit rest →
      HoldsBack rest (keptSuffix rest) (zrqLoop zscanstateInit rest)) :
    HoldsBack cp (keptSuffix cp) p.out := by
  cases h with
  | quiet puts hg hputs =>
    have hnone := keptSuffix_skip hg []
    rw [List.append_nil] at hnone
    rw [hnone]
    exact ⟨by simp [Pass.out, hputs, keptSuffix], by simp [Pass.out, keptSuffix, not_complete_nil]⟩
  | short g t puts hg hcp ht hputs =>
    have hnone : keptSuffix cp = [] := by
      rw [hcp, keptSuffix_skip hg, keptSuffix_short ht]
    rw [hnone]
    exact ⟨by simp [Pass.out, hputs], by simp [Pass.out, not_complete_nil]⟩
  | noZ g c cs puts hg hcp hc hputs =>
    have htext : cp = putBytes puts ++ c :: cs := by simp [hcp, hputs]
    have hback : keptSuffix cp = keptSuffix (c :: cs) := by
      rw [hcp, keptSuffix_skip hg, keptSuffix, kept_noZ cs hc]
      rfl
    rw [hback, htext]
    exact (hnext puts _ rfl).after puts
  | noLine g c cs puts hg hcp hc hputs =>
    have htext : cp = putBytes puts ++ c :: cs := by simp [hcp, hputs]
    have hback : keptSuffix cp = keptSuffix (c :: cs) := by
      rw [hcp, keptSuffix_skip hg, keptSuffix, kept_noLine cs hc]
      exact keptSuffix_skip (d := [chZ]) (by simp; decide) (c :: cs)
    rw [hback, htext]
    exact (hnext puts _ rfl).after puts
  | line g z puts hg hz hcp hputs =>
    rw [hcp, keptSuffix_skip hg, keptSuffix_of_kept (kept_rzText hz)]
    refine ⟨by simp [Pass.out, hputs], ?_⟩
    simp [Pass.out, not_complete_rzText]
  | lone g z c cs puts hg hz hcp hc hnl hputs =>
    have hrz := behindRz_rzText z (c :: cs) (.inl hz) (by simpa using hnl)
    have hno : kept (rzText z ++ c :: cs) = false := by simp [kept, hrz, hc]
    have htext : cp = putBytes puts ++ c :: cs := by rw [hcp, hputs]
    have hback : keptSuffix cp = keptSuffix (c :: cs) := by
      rw [hcp, List.append_assoc, keptSuffix_skip hg, keptSuffix_rzText z hno]
    rw [hback, htext]
    exact (hnext puts _ rfl).after puts
  | stars g z m cp' puts q hg hcp hputs h =>
    have htext : cp = g ++ (sequence z (m + 1) 0 ++ cp') := by
      rw [hcp]
      simp [sequence, header]
    rw [htext, Pass.out_after, keptSuffix_skip hg, ← hputs]
    obtain ⟨hkept, hh⟩ | ⟨-, d, cs, k', hk', hb, hd, hcp', hh⟩ := h.holdsBack (by omega)
      (fun ps rest hq => hnext _ rest (by rw [hq]; rfl))
    · rw [keptSuffix_of_kept hkept]
      exact hh.after puts
    · have hbroken : sequence z (m + 1) 0 ++ cp' = sequence z (m + 1) k' ++ cs := by
        rw [hcp']
        simp [sequence, hd]
      rw [hbroken, keptSuffix_broken hk' hb, ← hbroken]
      exact hh.after puts

theorem zrqLoop_holdsBack (cp : List UInt8) :
    HoldsBack cp (keptSuffix cp) (zrqLoop zscanstateInit cp) :=
  zrqLoop_induct (motive := fun cp o => HoldsBack cp (keptSuffix cp) o)
    ⟨rfl, by simp [keptSuffix, not_complete_nil]⟩ (fun _ _ h hnext => h.holdsBack hnext) cp

/-- What a call keeps out of the fifo can be told from the pending text and the packet. -/
theorem zrqScan_holdsBack {conn : ZScanState} {buf : List UInt8} (hs : Settled conn)
    (hbuf : buf ≠ []) :
    HoldsBack (pending conn ++ buf) (heldBack conn buf) (zrqScan conn buf) := by
  unfold heldBack
  obtain ⟨rfl, he⟩ | ⟨z, puts, hz, rfl, hc, hputs, he⟩ | ⟨z, m, cp', p, hz, rfl, hcp, h, he⟩ |
    ⟨z, m, k, p, hk, hk', rfl, h, he⟩ := zrqScan_cases conn buf hs hbuf
  · rw [he, if_neg (fun hgo => hgo.1 rfl)]
    exact zrqLoop_holdsBack buf
  · have hpending : pending ⟨-1, z, 0⟩ = putBytes puts := by
      simp [pending, sequence, header, hputs]
    rw [he, if_neg (fun hgo => hc (hgo.2.1 rfl)), hpending]
    exact (zrqLoop_holdsBack buf).after puts
  · have htext : pending ⟨-1, z, 0⟩ ++ buf = sequence z (m + 1) 0 ++ cp' := by
      rw [hcp]
      simp [pending, sequence, header]
    have hhead : buf.head? = some chStar := by
      rw [hcp]
      simp [List.replicate_succ]
    rw [he]
    obtain ⟨hkept, hh⟩ | ⟨hno, d, cs, k', hk', hb, hd, hcp', hh⟩ :=
      h.holdsBack (by omega) (fun _ rest _ => zrqLoop_holdsBack rest)
    · rw [if_pos ⟨by simp, fun _ => hhead, by rw [htext]; exact hkept⟩, htext]
      exact hh
    · have hback : keptSuffix buf = keptSuffix cs := by
        have hd' : header k' = d := by rw [hd]; rfl
        have hbroken := keptSuffix_broken hk' hb .rznone m
        rw [hcp, hcp', ← hbroken]
        simp [sequence, rzText, hd']
      rw [if_neg (fun hgo => by simp [← htext, hgo.2.2] at hno), htext, hback]
      exact hh
  · have hpending : pending ⟨(k : Nat), z, m + 1⟩ = sequence z (m + 1) k := by
      simp only [pending, Int.toNat_natCast]
    rw [he, hpending]
    obtain ⟨hkept, hh⟩ | ⟨hno, d, cs, k', hk', hb, hd, hcp', hh⟩ :=
      h.holdsBack hk' (fun _ rest _ => zrqLoop_holdsBack rest)
    · rw [if_pos ⟨by simp only; omega, by simp only; omega, by rw [hpending]; exact hkept⟩]
      exact hh
    · have hback : keptSuffix buf = keptSuffix cs := by
        rw [hcp']
        apply keptSuffix_skip
        intro c hc
        exact header_quiet k' c (by rw [hd]; exact List.mem_append_right _ hc)
      rw [if_neg (fun hgo => by rw [← hpending, hgo.2.2] at hno; cases hno), hback]
      exact hh

/-- Every append that a call makes finds as many free cells as it adds bytes: those of the
scanner, that of the start string, and that of the rest of the packet, for which zscan_start
makes room in whatever fifo the start proc leaves. -/
def RoomKept (f : Fifo) (conn : ZScanState) (buf : List UInt8) (fd : Int) (k : Kernel) : Prop :=
  Fits f (zrqScan conn buf).puts ∧
  ∀ rest, (zrqScan conn buf).start = some rest →
    (∀ f' k', fifoDrainCompletely (runPuts f (zrqScan conn buf).puts) fd k = .ok (f', k') →
      startString.length ≤ fifoAvail f') ∧
    ∀ f₁ k₁ f₂ k₂, zscanMakeRoom f₁ fd rest.length k₁ = .ok (f₂, k₂) → rest.length ≤ fifoAvail f₂

/-- The text that does go into the fifo. -/
def passedOn (conn : ZScanState) (buf : List UInt8) : List UInt8 :=
  (pending conn ++ buf).take ((pending conn ++ buf).length - (heldBack conn buf).length)

/-- The text that goes into the fifo fits, and a ring that a start finds or makes empty has
seven cells for the start string. -/
def RoomFor (f : Fifo) (conn : ZScanState) (buf : List UInt8) (fd : Int) (k : Kernel) : Prop :=
  (passedOn conn buf).length ≤ fifoAvail f ∧
    (Complete (heldBack conn buf) → Empties fd (fifoUnsafeAppend f (passedOn conn buf)) k →
      7 ≤ f.size)

/-- The room in a ring that has been drained. -/
theorem drained_avail {f f' : Fifo} {fd : Int} {k k' : Kernel}
    (hw : Wrote fd f.contents f f' k k') (hempty : f'.contents = []) :
    fifoAvail f' + 1 = f.size := by
  have hsum := f'.count_add_avail
  rw [Fifo.contents, Buffer.toList_eq_nil_iff] at hempty
  rw [hw.size] at hsum
  rw [fifoAvail_eq]
  omega

/-- zrq_scan overflows no fifo exactly when there is room for the text that goes into it. -/
theorem zrqScan_roomKept_iff {conn : ZScanState} (h : ZrqReach conn) {buf : List UInt8}
    (hbuf : buf ≠ []) (f : Fifo) (fd : Int) (k : Kernel) :
    RoomKept f conn buf fd k ↔ RoomFor f conn buf fd k := by
  obtain ⟨htext, hstart⟩ := zrqScan_holdsBack h.settled hbuf
  have hpassed : putBytes (zrqScan conn buf).puts = passedOn conn buf := by
    rw [passedOn, htext]
    simp
  unfold RoomKept RoomFor
  rw [fits_iff, hpassed]
  apply and_congr_right
  intro hfits
  rw [fifoAvail_eq] at hfits
  rw [runPuts_eq f _ (by rw [hpassed]; exact hfits), hpassed]
  have hcases := fifoDrainCompletely_cases (fifoUnsafeAppend f (passedOn conn buf)) fd k
  constructor
  · intro hrest hcomplete hempties
    obtain ⟨rest, hsome⟩ := Option.ne_none_iff_exists'.mp (hstart.mpr hcomplete)
    obtain ⟨-, f', k', hr, hempty, hw⟩ := hcases.resolve_right fun hno => hno.1 hempties
    have hlen := (hrest rest hsome).1 f' k' hr
    have havail := drained_avail hw hempty
    simp only [startString, List.length_cons, List.length_nil, fifoUnsafeAppend_size] at hlen havail
    omega
  · intro hsize rest hsome
    constructor
    · intro f' k' hdrain
      obtain ⟨he, f₂, k₂, hr, hempty, hw⟩ | ⟨-, sent, f₂, k₂, hr, -⟩ := hcases
      · rw [hr] at hdrain
        cases hdrain
        have hseven := hsize (hstart.mp (by simp [hsome])) he
        have havail := drained_avail hw hempty
        simp only [startString, List.length_cons, List.length_nil, fifoUnsafeAppend_size] at havail ⊢
        omega
      · rw [hr] at hdrain
        cases hdrain
    · intro f₁ k₁ f₂ k₂ hmake
      obtain ⟨sent, f', k', -, ⟨hr, hle⟩ | hr⟩ := zscanMakeRoom_wrote f₁ fd rest.length k₁
      · rw [hr] at hmake
        cases hmake
        exact hle
      · rw [hr] at hmake
        cases hmake

/-- A fifo of the usual size with room for three more bytes. -/
def threeLeft : Fifo :=
  { fifoInit bufsiz bufsiz_pos with stop := bufsiz - 4, stop_lt := Nat.sub_lt bufsiz_pos (Nat.succ_pos 3) }

/-- The scanner after a packet that is an rz line. -/
def afterLine : ZScanState := (zrqScan zscanstateInit [chR, chZ, chNl]).conn

theorem zrqScan_roomKept_iff_line :
    RoomKept threeLeft afterLine [97, 98, 99] 7 ⟨[], [], [], none, []⟩ ↔
      RoomFor threeLeft afterLine [97, 98, 99] 7 ⟨[], [], [], none, []⟩ :=
  zrqScan_roomKept_iff (.scan .init (by decide)) (by decide) _ _ _

/-- Three more bytes fit by themselves, but the line goes into the fifo before them. -/
theorem zrqScan_overflows :
    ZrqReach afterLine ∧ [97, 98, 99].length ≤ fifoAvail threeLeft ∧
      ¬ RoomKept threeLeft afterLine [97, 98, 99] 7 ⟨[], [], [], none, []⟩ := by
  refine ⟨.scan .init (by decide), by decide, ?_⟩
  rintro ⟨hfits, -⟩
  rw [fits_iff] at hfits
  revert hfits
  decide +kernel

end Rzh
