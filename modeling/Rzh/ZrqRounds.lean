import Mathlib.Data.List.TakeWhile
import Rzh.Zrq

/-!
# The rounds of the start scanner

What a round of the loop can do, said once in terms of the text it has in front of
it. Everything proved about zrq_scan is an induction over rounds.
-/
namespace Rzh

/-- The characters between the stars and the last zero. -/
def header (k : Nat) : List UInt8 := [chCan, chB, ch0].take k

/-- The character that has to follow `header k`. -/
def headerChar : Nat → UInt8
  | 0 => chCan
  | 1 => chB
  | _ => ch0

/-- A start sequence as far as `k` characters after its stars. -/
def sequence (z : GotRz) (m k : Nat) : List UInt8 :=
  rzText z ++ List.replicate m chStar ++ header k

/-- The text that a suspended scanner has seen and not put into the fifo. -/
def pending (conn : ZScanState) : List UInt8 :=
  sequence conn.gotrz conn.starcnt conn.parseState.toNat

/-- A scanner between two packets: at rest, after an rz line, or inside a header. -/
def Settled (conn : ZScanState) : Prop :=
  conn = zscanstateInit ∨
  (conn.parseState = -1 ∧ conn.gotrz ≠ .rznone ∧ conn.starcnt = 0) ∨
  (1 ≤ conn.parseState ∧ conn.parseState ≤ 3 ∧ 0 < conn.starcnt)

/-- What follows `k` header characters in the packet does not go on with the header. -/
def Breaks (k : Nat) (cs : List UInt8) : Prop :=
  cs.head? ≠ some (headerChar k) ∧ if k = 0 then cs.head? ≠ some chStar else cs ≠ []

/-- The outcomes of a round that has got as far as `sequence z m k`, with `cp` ahead. -/
inductive After (z : GotRz) (m k : Nat) (cp : List UInt8) : Pass → Prop where
  | wait (k' : Nat) (hk : k < k') (hk' : k' ≤ 3) (h : header k' = header k ++ cp) :
    After z m k cp (.ret [] ⟨k', z, m⟩)
  | broken (k' : Nat) (d cs : List UInt8) (puts : List Put) (hk : k ≤ k') (hk' : k' ≤ 3)
    (hd : header k' = header k ++ d) (hcp : cp = d ++ cs) (hb : Breaks k' cs)
    (hputs : putBytes puts = sequence z m k') : After z m k cp (.next puts zscanstateInit cs)
  | found (d rest : List UInt8) (hd : header 3 = header k ++ d) (hcp : cp = d ++ ch0 :: rest) :
    After z m k cp (.start [] zscanstateInit rest)

/-- One more header character read. -/
theorem After.cons {z : GotRz} {m k : Nat} {cp : List UInt8} {p : Pass} {c : UInt8}
    (hc : header (k + 1) = header k ++ [c]) (h : After z m (k + 1) cp p) :
    After z m k (c :: cp) p := by
  cases h with
  | wait k' hk hk' h => exact .wait k' (by omega) hk' (by rw [h, hc]; simp)
  | broken k' d cs puts hk hk' hd hcp hb hputs =>
    exact .broken k' (c :: d) cs puts (by omega) hk' (by rw [hd, hc]; simp) (by rw [hcp]; rfl) hb
      hputs
  | found d rest hd hcp => exact .found (c :: d) rest (by rw [hd, hc]; simp) (by rw [hcp]; rfl)

theorem rz_putBytes (z : GotRz) : putBytes (fifoAppendRz z) = rzText z := by cases z <;> rfl

/-- Everything withheld goes out, once and in order. -/
theorem mismatch_after {z : GotRz} {m k : Nat} {cp : List UInt8} {st : Int} (hk : k ≤ 3)
    (hst : st = k ∨ k = 0 ∧ st = -1) (hb : Breaks k cp) :
    After z m k cp (zrqMismatch ⟨st, z, m⟩ cp) := by
  apply After.broken k [] cp _ (Nat.le_refl k) hk (by simp) rfl hb
  have hcases : k = 0 ∨ k = 1 ∨ k = 2 ∨ k = 3 := by omega
  rcases hst with rfl | ⟨rfl, rfl⟩
  · rcases hcases with rfl | rfl | rfl | rfl <;>
      simp [rz_putBytes, fifoAppendStars, sequence, header, Put.bytes]
  · simp [rz_putBytes, fifoAppendStars, sequence, header]

theorem breaks_of_ne {k : Nat} {c : UInt8} {cs : List UInt8} (h : c ≠ headerChar k)
    (hs : k = 0 → c ≠ chStar) : Breaks k (c :: cs) := by
  refine ⟨by simpa using h, ?_⟩
  split
  · next hk => simpa using hs hk
  · simp

theorem zrqCase3_after (z : GotRz) (m : Nat) (c : UInt8) (cs : List UInt8) :
    After z m 3 (c :: cs) (zrqCase3 ⟨3, z, m⟩ (c :: cs)) := by
  unfold zrqCase3
  split
  · next h =>
    obtain rfl : c = ch0 := by simpa using h
    exact .found [] cs (by simp) rfl
  · next h =>
    exact mismatch_after (by omega) (.inl rfl)
      (breaks_of_ne (by simpa [headerChar] using h) (by omega))

theorem zrqCase2_after (z : GotRz) (m : Nat) (c : UInt8) (cs : List UInt8) :
    After z m 2 (c :: cs) (zrqCase2 ⟨2, z, m⟩ (c :: cs)) := by
  unfold zrqCase2
  split
  · next h =>
    obtain rfl : c = ch0 := by simpa using h
    cases cs with
    | nil => exact .wait 3 (by omega) (by omega) rfl
    | cons c' cs => exact .cons rfl (zrqCase3_after z m c' cs)
  · next h =>
    exact mismatch_after (by omega) (.inl rfl)
      (breaks_of_ne (by simpa [headerChar] using h) (by omega))

theorem zrqCase1_after (z : GotRz) (m : Nat) (c : UInt8) (cs : List UInt8) :
    After z m 1 (c :: cs) (zrqCase1 ⟨1, z, m⟩ (c :: cs)) := by
  unfold zrqCase1
  split
  · next h =>
    obtain rfl : c = chB := by simpa using h
    cases cs with
    | nil => exact .wait 2 (by omega) (by omega) rfl
    | cons c' cs => exact .cons rfl (zrqCase2_after z m c' cs)
  · next h =>
    exact mismatch_after (by omega) (.inl rfl)
      (breaks_of_ne (by simpa [headerChar] using h) (by omega))

/-- A list is its leading stars and then something else. -/
theorem stars_split (cp : List UInt8) :
    cp = List.replicate (cp.takeWhile (· = chStar)).length chStar ++ cp.dropWhile (· = chStar) ∧
      (cp.dropWhile (· = chStar)).head? ≠ some chStar := by
  constructor
  · have h : cp.takeWhile (· = chStar) =
        List.replicate (cp.takeWhile (· = chStar)).length chStar := by
      apply List.eq_replicate_of_mem
      intro c hc
      simpa using List.mem_takeWhile_imp hc
    rw [← h, List.takeWhile_append_dropWhile]
  · intro h
    have := List.head?_dropWhile_not (fun c => decide (c = chStar)) cp
    rw [h] at this
    simp at this

/-- From the label -1 on a star: the whole run of stars, then as far as the header goes. -/
theorem zrqCaseNeg1_after (z : GotRz) (cs : List UInt8) :
    ∃ m cp, chStar :: cs = List.replicate (m + 1) chStar ++ cp ∧
      After z (m + 1) 0 cp (zrqCaseNeg1 ⟨-1, z, 0⟩ (chStar :: cs)) := by
  obtain ⟨hsplit, hhead⟩ := stars_split cs
  have htake : ((chStar :: cs).takeWhile (· = chStar)).length =
      (cs.takeWhile (· = chStar)).length + 1 := by
    rw [List.takeWhile_cons_of_pos (by simp), List.length_cons]
  refine ⟨(cs.takeWhile (· = chStar)).length, cs.dropWhile (· = chStar), ?_, ?_⟩
  · rw [List.replicate_succ, List.cons_append, ← hsplit]
  · unfold zrqCaseNeg1
    rw [if_pos (by simp)]
    simp only [htake, Nat.zero_add]
    rw [List.dropWhile_cons_of_pos (by simp)]
    split
    · next h =>
      obtain ⟨cs', hcs'⟩ := List.head?_eq_some_iff.mp h
      rw [hcs']
      cases cs' with
      | nil => exact .wait 1 (by omega) (by omega) rfl
      | cons c' cs' => exact .cons rfl (zrqCase1_after z _ c' cs')
    · next h => exact mismatch_after (by omega) (.inr ⟨rfl, rfl⟩) ⟨h, by simpa using hhead⟩

/-- The outcomes of a round from the top of the loop, with `cp` ahead. The text `g`
in front holds neither an `r` nor a star. -/
inductive Round (cp : List UInt8) : Pass → Prop where
  /-- Nothing of interest. -/
  | quiet (puts : List Put) (hg : ∀ c ∈ cp, c ≠ chR ∧ c ≠ chStar) (hputs : putBytes puts = cp) :
    Round cp (.ret puts zscanstateInit)
  /-- An `r` too close to the end of the packet. -/
  | short (g t : List UInt8) (puts : List Put) (hg : ∀ c ∈ g, c ≠ chR ∧ c ≠ chStar)
    (hcp : cp = g ++ chR :: t) (ht : t.length < 2) (hputs : putBytes puts = cp) :
    Round cp (.ret puts zscanstateInit)
  /-- An `r` without a `z`. -/
  | noZ (g : List UInt8) (c : UInt8) (cs : List UInt8) (puts : List Put)
    (hg : ∀ c ∈ g, c ≠ chR ∧ c ≠ chStar) (hcp : cp = g ++ chR :: c :: cs) (hc : c ≠ chZ)
    (hputs : putBytes puts = g ++ [chR]) : Round cp (.next puts zscanstateInit (c :: cs))
  /-- `rz` without the end of the line. -/
  | noLine (g : List UInt8) (c : UInt8) (cs : List UInt8) (puts : List Put)
    (hg : ∀ c ∈ g, c ≠ chR ∧ c ≠ chStar) (hcp : cp = g ++ chR :: chZ :: c :: cs)
    (hc : c ≠ chCr ∧ c ≠ chNl) (hputs : putBytes puts = g ++ [chR, chZ]) :
    Round cp (.next puts zscanstateInit (c :: cs))
  /-- An rz line at the end of the packet. -/
  | line (g : List UInt8) (z : GotRz) (puts : List Put) (hg : ∀ c ∈ g, c ≠ chR ∧ c ≠ chStar)
    (hz : z ≠ .rznone) (hcp : cp = g ++ rzText z) (hputs : putBytes puts = g) :
    Round cp (.ret puts ⟨-1, z, 0⟩)
  /-- An rz line with something other than stars behind it. -/
  | lone (g : List UInt8) (z : GotRz) (c : UInt8) (cs : List UInt8) (puts : List Put)
    (hg : ∀ c ∈ g, c ≠ chR ∧ c ≠ chStar) (hz : z ≠ .rznone) (hcp : cp = g ++ rzText z ++ c :: cs)
    (hc : c ≠ chStar) (hnl : z = .rzcr → c ≠ chNl) (hputs : putBytes puts = g ++ rzText z) :
    Round cp (.next puts zscanstateInit (c :: cs))
  /-- Stars, behind an rz line or not. -/
  | stars (g : List UInt8) (z : GotRz) (m : Nat) (cp' : List UInt8) (puts : List Put) (p : Pass)
    (hg : ∀ c ∈ g, c ≠ chR ∧ c ≠ chStar)
    (hcp : cp = g ++ rzText z ++ List.replicate (m + 1) chStar ++ cp')
    (hputs : putBytes puts = g) (h : After z (m + 1) 0 cp' p) :
    Round cp (p.after puts)

/-- On to the label -1, after the garbage `g` and the rz line of `z`. -/
theorem zrqToNeg1_round {cp g cs : List UInt8} {z : GotRz} {puts : List Put} {st : Int}
    (hg : ∀ c ∈ g, c ≠ chR ∧ c ≠ chStar) (hz : z ≠ .rznone ∨ cs.head? = some chStar)
    (hcp : cp = g ++ rzText z ++ cs) (hnl : z = .rzcr → cs.head? ≠ some chNl)
    (hputs : putBytes puts = g) : Round cp ((zrqToNeg1 ⟨st, z, 0⟩ cs).after puts) := by
  cases cs with
  | nil =>
    have hz : z ≠ .rznone := by simpa using hz
    exact .line g z (puts ++ []) hg hz (by simpa using hcp) (by simpa using hputs)
  | cons c cs =>
    rw [zrqToNeg1, if_neg (by simp)]
    by_cases hc : c = chStar
    · subst hc
      obtain ⟨m, cp', hs, h⟩ := zrqCaseNeg1_after z cs
      exact .stars g z m cp' puts _ hg (by rw [hcp, hs]; simp) hputs h
    · have hz : z ≠ .rznone := by simpa [hc] using hz
      rw [zrqCaseNeg1, if_neg (by simpa using hc)]
      exact .lone g z c cs _ hg hz hcp hc (by simpa using hnl)
        (by rw [putBytes_append, hputs, rz_putBytes])

theorem zrqLine_round {cp g cs : List UInt8} {puts : List Put}
    (hg : ∀ c ∈ g, c ≠ chR ∧ c ≠ chStar) (hcp : cp = g ++ chR :: cs) (hputs : putBytes puts = g) :
    Round cp ((zrqLine zscanstateInit (chR :: cs)).after puts) := by
  unfold zrqLine
  split
  · next c1 c2 cs' heq =>
    obtain ⟨-, rfl⟩ := List.cons.inj heq
    split
    · next h1 =>
      subst h1
      split
      · next h2 =>
        subst h2
        split
        · exact zrqToNeg1_round hg (.inl (by simp)) (by simpa [rzText] using hcp) (by simp) hputs
        · next c3 cs'' =>
          split
          · next h3 =>
            subst h3
            exact zrqToNeg1_round hg (.inl (by simp)) (by simpa [rzText] using hcp) (by simp) hputs
          · next h3 =>
            exact zrqToNeg1_round hg (.inl (by simp)) (by simpa [rzText] using hcp)
              (by simpa using h3) hputs
      · next h2 =>
        split
        · next h3 =>
          subst h3
          exact zrqToNeg1_round hg (.inl (by simp)) (by simpa [rzText] using hcp) (by simp) hputs
        · next h3 =>
          exact .noLine g c2 cs' _ hg hcp ⟨h2, h3⟩ (by simp [hputs, Put.bytes])
    · next h1 => exact .noZ g c1 (c2 :: cs') _ hg hcp h1 (by simp [hputs, Put.bytes])
  · next hshort =>
    have ht : cs.length < 2 := by
      match cs, hshort with
      | [], _ => simp
      | [_], _ => simp
      | c1 :: c2 :: cs', h => exact absurd rfl (h chR c1 c2 cs')
    exact .short g cs _ hg hcp ht (by simp [hputs, hcp, Put.bytes])

/-- Every round from the top of the loop is one of these. -/
theorem zrqTop_round (cp : List UInt8) : Round cp (zrqTop zscanstateInit cp) := by
  have hsplit := List.takeWhile_append_dropWhile (p := fun c => c ≠ chR ∧ c ≠ chStar) (l := cp)
  have hg : ∀ c ∈ cp.takeWhile (fun c => c ≠ chR ∧ c ≠ chStar), c ≠ chR ∧ c ≠ chStar := by
    intro c hc
    simpa using List.mem_takeWhile_imp hc
  have hputs : putBytes (if cp.takeWhile (fun c => c ≠ chR ∧ c ≠ chStar) = [] then []
      else [Put.append (cp.takeWhile fun c => c ≠ chR ∧ c ≠ chStar)]) =
      cp.takeWhile fun c => c ≠ chR ∧ c ≠ chStar := by
    split
    · next h => rw [h]; rfl
    · simp [Put.bytes]
  unfold zrqTop
  simp only
  split
  · next h =>
    rw [h, List.append_nil] at hsplit
    rw [hsplit] at hg hputs ⊢
    exact .quiet _ hg hputs
  · next h =>
    obtain ⟨c, cs, hc⟩ := List.exists_cons_of_ne_nil h
    rw [hc] at hsplit ⊢
    split
    · next hr =>
      obtain rfl : c = chR := by simpa using hr
      exact zrqLine_round hg hsplit.symm hputs
    · next hr =>
      have hstar : c = chStar := by
        cases dropWhile_garbage hc with
        | inl h => exact absurd (by rw [h]; rfl) hr
        | inr h => exact h
      subst hstar
      exact zrqToNeg1_round hg (.inr rfl) (by simpa [rzText] using hsplit.symm) (by simp) hputs

/-- What a whole call makes of the outcome of its first round. -/
def Pass.out : Pass → ZrqOut
  | .ret puts conn => ⟨puts, conn, none⟩
  | .start puts conn rest => ⟨puts, conn, some rest⟩
  | .next puts conn rest => (zrqLoop conn rest).after puts

theorem Pass.out_after (puts : List Put) (p : Pass) : (p.after puts).out = p.out.after puts := by
  cases p <;> simp [Pass.after, Pass.out, ZrqOut.after]

theorem zrqLoop_eq (conn : ZScanState) (cp : List UInt8) (h : cp ≠ []) :
    zrqLoop conn cp = (zrqTop conn cp).out := by
  rw [zrqLoop, dif_neg h]
  cases zrqTop conn cp <;> rfl

@[simp] theorem zrqLoop_nil (conn : ZScanState) : zrqLoop conn [] = ⟨[], conn, none⟩ := by
  rw [zrqLoop, dif_pos rfl]

/-- Induction over the rounds of the loop. -/
theorem zrqLoop_induct {motive : List UInt8 → ZrqOut → Prop}
    (nil : motive [] ⟨[], zscanstateInit, none⟩)
    (round : ∀ cp p, Round cp p →
      (∀ puts rest, p = .next puts zscanstateInit rest → motive rest (zrqLoop zscanstateInit rest)) →
      motive cp p.out)
    (cp : List UInt8) : motive cp (zrqLoop zscanstateInit cp) := by
  induction hn : cp.length using Nat.strongRecOn generalizing cp with
  | ind n ih =>
    by_cases hne : cp = []
    · subst hne
      rw [zrqLoop_nil]
      exact nil
    · have hleaves := zrqTop_leaves zscanstateInit cp
      have hpos := List.length_pos_iff.mpr hne
      rw [zrqLoop_eq _ _ hne]
      apply round cp _ (zrqTop_round cp)
      intro puts rest he
      have hlt : rest.length < n := by
        rw [he, Pass.Leaves] at hleaves
        omega
      exact ih _ hlt rest rfl

/-- The first round of a call, by the label at which it enters. -/
theorem zrqScan_cases (conn : ZScanState) (cp : List UInt8) (hs : Settled conn) (hne : cp ≠ []) :
    (conn = zscanstateInit ∧ zrqScan conn cp = zrqLoop zscanstateInit cp) ∨
    (∃ z puts, z ≠ .rznone ∧ conn = ⟨-1, z, 0⟩ ∧ cp.head? ≠ some chStar ∧
      putBytes puts = rzText z ∧ zrqScan conn cp = (zrqLoop zscanstateInit cp).after puts) ∨
    (∃ z m cp' p, z ≠ .rznone ∧ conn = ⟨-1, z, 0⟩ ∧ cp = List.replicate (m + 1) chStar ++ cp' ∧
      After z (m + 1) 0 cp' p ∧ zrqScan conn cp = p.out) ∨
    (∃ z m k p, 1 ≤ k ∧ k ≤ 3 ∧ conn = ⟨(k : Nat), z, m + 1⟩ ∧ After z (m + 1) k cp p ∧
      zrqScan conn cp = p.out) := by
  obtain ⟨st, z, m⟩ := conn
  obtain ⟨c, cs, rfl⟩ := List.exists_cons_of_ne_nil hne
  have hout : ∀ p : Pass, (match p with
      | .ret puts conn' => (⟨puts, conn', none⟩ : ZrqOut)
      | .start puts conn' rest => ⟨puts, conn', some rest⟩
      | .next puts conn' rest => (zrqLoop conn' rest).after puts) = p.out := by
    intro p
    cases p <;> rfl
  rcases hs with h | ⟨h1, h2, h3⟩ | ⟨h1, h2, h3⟩
  · cases h
    exact .inl ⟨rfl, rfl⟩
  · obtain rfl : st = -1 := h1
    obtain rfl : m = 0 := h3
    by_cases hc : c = chStar
    · subst hc
      obtain ⟨m, cp', hs, h⟩ := zrqCaseNeg1_after z cs
      exact .inr (.inr (.inl ⟨z, m, cp', _, h2, rfl, hs, h, hout _⟩))
    · refine .inr (.inl ⟨z, _, h2, rfl, by simpa using hc, rz_putBytes z, ?_⟩)
      simp only [zrqScan, zrqCaseNeg1, List.head?_cons, Option.some.injEq, if_neg hc]
      rfl
  · obtain ⟨m, rfl⟩ : ∃ m', m = m' + 1 := ⟨m - 1, by simp only at h3; omega⟩
    have hk : st = 1 ∨ st = 2 ∨ st = 3 := by simp only at h1 h2; omega
    rcases hk with rfl | rfl | rfl
    · exact .inr (.inr (.inr ⟨z, m, 1, _, by omega, by omega, rfl, zrqCase1_after z _ c cs, hout _⟩))
    · exact .inr (.inr (.inr ⟨z, m, 2, _, by omega, by omega, rfl, zrqCase2_after z _ c cs, hout _⟩))
    · exact .inr (.inr (.inr ⟨z, m, 3, _, by omega, by omega, rfl, zrqCase3_after z _ c cs, hout _⟩))

end Rzh
