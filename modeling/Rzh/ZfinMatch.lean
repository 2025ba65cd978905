import Mathlib.Data.List.TakeWhile
import Rzh.Matcher
import Rzh.Zfin

/-!
# What zfin_scan recognises

A call of zfin_scan is a streaming search for the ZFIN string, started at the saved
pointer. The pointer is saved when a packet ends inside the string. It is not reset
when a match fails, so the search may later be started where it should not be.
-/
namespace Rzh

open Matcher

/-- The nineteen characters that zfin_scan looks for. -/
abbrev zfinText : List UInt8 := zfinString.take zfinLength

abbrev zfinPattern : List (UInt8 → Bool) := ofText zfinText

theorem zfinText_length : zfinText.length = zfinLength := rfl

theorem zfin_hits (k : Nat) (b : UInt8) :
    hits zfinPattern k b ↔ zfinString[k]? = some b ∧ k < zfinLength := by
  rw [hits_ofText, List.getElem?_take]
  split <;> simp [*]

/-- The star is in front and nowhere else. -/
theorem zfin_headed : Headed zfinPattern where
  pos := by decide
  head := by
    intro a ha k hk h
    rw [zfin_hits] at ha h
    obtain rfl : a = 42 := by simpa [zfinString] using ha.1.symm
    have hno : ∀ k < zfinLength, 0 < k → zfinString[k]? ≠ some 42 := by decide
    exact hno k h.2 hk h.1

/-- The inner loop is the search, up to the end of the string or a character that fails. -/
theorem zfinRun_scan (ref : Nat) (buf : List UInt8) (href : ref < zfinLength) :
    ∃ d ref' cp, zfinRun ref buf = (ref', cp) ∧ buf = d ++ cp ∧ ref' = ref + d.length ∧
      (ref' = zfinLength ∧ scan zfinPattern ref buf = .inr cp ∨
        ref' < zfinLength ∧ scan zfinPattern ref buf = scan zfinPattern ref' cp ∧
          ∀ c ∈ cp.head?, ¬ hits zfinPattern ref' c) := by
  induction buf generalizing ref with
  | nil => exact ⟨[], ref, [], rfl, rfl, rfl, .inr ⟨href, rfl, by simp⟩⟩
  | cons c cs ih =>
    by_cases hc : zfinString[ref]? = some c ∧ ref < zfinLength
    · have hhit := (zfin_hits ref c).mpr hc
      have hrun : zfinRun ref (c :: cs) = zfinRun (ref + 1) cs := by rw [zfinRun, if_pos hc]
      by_cases hlast : ref + 1 = zfinLength
      · refine ⟨[c], ref + 1, cs, ?_, rfl, rfl, .inl ⟨hlast, scan_last cs hhit hlast⟩⟩
        rw [hrun, hlast]
        cases cs <;> simp [zfinRun]
      · obtain ⟨d, ref', cp, he, hb, hr, h⟩ := ih (ref + 1) (by omega)
        refine ⟨c :: d, ref', cp, hrun.trans he, by rw [hb]; rfl, ?_, ?_⟩
        · rw [hr, List.length_cons]
          omega
        · rw [scan_hit cs hhit (by rw [ofText_length, zfinText_length]; omega)]
          exact h
    · refine ⟨[], ref, c :: cs, ?_, rfl, rfl, .inr ⟨href, rfl, ?_⟩⟩
      · rw [zfinRun, if_neg hc]
      · intro b hb
        obtain rfl : c = b := by simpa using hb
        rwa [zfin_hits]

theorem zfinString_nul {k : Nat} (h : k ≤ zfinLength) :
    zfinString[k]? = some 0 ↔ k = zfinLength := by
  have hall : ∀ k ≤ zfinLength, (zfinString[k]? = some 0 ↔ k = zfinLength) := by decide
  exact hall k h

/-- A round with the string matched from `ref` on: its appends are the text that it
takes off the packet, and its outcome is what the search says. -/
inductive ZfinRound (ref : Nat) (buf : List UInt8) : ZfinPass → Prop where
  | ret (puts : List Put) (ref' : Nat) (hputs : putBytes puts = buf)
    (href : ref' = ref + buf.length) (hlt : ref' < zfinLength)
    (hscan : scan zfinPattern ref buf = .inl ref') : ZfinRound ref buf (.ret puts (some ref'))
  | found (puts : List Put) (rest : List UInt8) (hputs : buf = putBytes puts ++ rest)
    (hscan : scan zfinPattern ref buf = .inr rest) : ZfinRound ref buf (.found puts rest)
  | next (puts : List Put) (c : UInt8) (cs : List UInt8) (hputs : buf = putBytes puts ++ c :: cs)
    (hscan : scan zfinPattern ref buf = scan zfinPattern 0 (c :: cs)) :
    ZfinRound ref buf (.next puts (c :: cs))

theorem zfinMatch_round (ref : Nat) (buf : List UInt8) (href : ref < zfinLength) :
    ZfinRound ref buf (zfinMatch ref buf) := by
  obtain ⟨d, ref', cp, he, rfl, hr, h⟩ := zfinRun_scan ref buf href
  have htake : (d ++ cp).take ((d ++ cp).length - cp.length) = d := by simp
  unfold zfinMatch
  rw [he]
  simp only [htake]
  rcases h with ⟨hfull, hscan⟩ | ⟨hlt, hscan, hstop⟩
  · rw [if_pos ((zfinString_nul (by omega)).mpr hfull)]
    exact .found _ cp (by simp [Put.bytes]) hscan
  · rw [if_neg fun h => by have := (zfinString_nul (by omega)).mp h; omega]
    cases cp with
    | nil => exact .ret _ ref' (by simp [Put.bytes]) (by simpa using hr) hlt (by rw [hscan]; rfl)
    | cons c cs =>
      have hmiss : ¬ hits zfinPattern ref' c := hstop c rfl
      have hne : zfinString[ref']? ≠ some c := fun h => hmiss ((zfin_hits ref' c).mpr ⟨h, hlt⟩)
      simp only [if_pos hne]
      exact .next _ c cs (by simp [Put.bytes]) (by rw [hscan, scan_restart cs hmiss])

/-- The outcome of a call that finds `saved` in the state, against the outcome of a
search through its packet: the text is passed on up to the end of a match; without
one all of it is, and the pointer is saved if the search has got into the string,
but left as it was if not. -/
def ZfinSays (saved : Option Nat) (buf : List UInt8) (o : ZfinOut) : Nat ⊕ List UInt8 → Prop
  | .inr rest => o = ⟨o.puts, saved, some rest, false⟩ ∧ buf = putBytes o.puts ++ rest
  | .inl 0 => o = ⟨o.puts, saved, none, false⟩ ∧ buf = putBytes o.puts
  | .inl (k + 1) => o = ⟨o.puts, some (k + 1), none, false⟩ ∧ buf = putBytes o.puts

theorem ZfinSays.after {saved : Option Nat} {buf : List UInt8} {o : ZfinOut}
    {r : Nat ⊕ List UInt8} (puts : List Put) (h : ZfinSays saved buf o r) :
    ZfinSays saved (putBytes puts ++ buf) (o.after puts) r := by
  obtain (k | k) | rest := r
  all_goals
    obtain ⟨ho, hb⟩ := h
    rw [ho] at hb ⊢
    refine ⟨rfl, ?_⟩
    simp only [ZfinOut.after, putBytes_append]
    rw [hb]
  rw [List.append_assoc]

theorem ZfinRound.after_next {ref : Nat} {buf : List UInt8} {p : ZfinPass} {saved : Option Nat}
    (h : ZfinRound ref buf p) (hpos : 0 < ref + buf.length)
    (hnext : ∀ puts rest, p = .next puts rest →
      ZfinSays saved rest (zfinLoop saved rest) (scan zfinPattern 0 rest)) :
    ZfinSays saved buf (p.out saved) (scan zfinPattern ref buf) := by
  cases h with
  | ret puts ref' hputs href hlt hscan =>
    obtain ⟨k, rfl⟩ : ∃ k, ref' = k + 1 := ⟨ref' - 1, by omega⟩
    rw [hscan]
    exact ⟨rfl, hputs.symm⟩
  | found puts rest hputs hscan =>
    rw [hscan]
    exact ⟨rfl, hputs⟩
  | next puts c cs hputs hscan =>
    rw [hscan, hputs]
    exact (hnext puts (c :: cs) rfl).after puts

/-- A round behind some text that it has passed on. -/
theorem ZfinRound.out_after {ref : Nat} {buf : List UInt8} {p : ZfinPass} {saved : Option Nat}
    (h : ZfinRound ref buf p) (puts : List Put) :
    (p.after puts).out saved = (p.out saved).after puts := by
  cases h with
  | ret ps ref' => rfl
  | found ps rest => rfl
  | next ps c cs => simp [ZfinPass.after, ZfinPass.out, ZfinOut.after]

/-- The loop with `ref` NULL starts a search of its own. -/
theorem zfinLoop_matches (saved : Option Nat) (buf : List UInt8) :
    ZfinSays saved buf (zfinLoop saved buf) (scan zfinPattern 0 buf) := by
  induction hn : buf.length using Nat.strongRecOn generalizing buf with
  | ind n ih =>
    have hsplit := List.takeWhile_append_dropWhile (p := (· ≠ (42 : UInt8))) (l := buf)
    have hskip : ∀ a ∈ buf.takeWhile (· ≠ (42 : UInt8)), ¬ hits zfinPattern 0 a := by
      intro a ha h
      rw [zfin_hits] at h
      have hne : a ≠ 42 := by simpa using List.mem_takeWhile_imp ha
      exact hne (by simpa [zfinString] using h.1.symm)
    have hs : scan zfinPattern 0 buf = scan zfinPattern 0 (buf.dropWhile (· ≠ (42 : UInt8))) := by
      conv_lhs => rw [← hsplit]
      exact scan_skip zfin_headed _ _ hskip
    rw [zfinLoop_eq]
    cases hd : buf.dropWhile (· ≠ (42 : UInt8)) with
    | nil =>
      rw [hs, hd, zfinSearch, hd]
      exact ⟨rfl, by simp [ZfinPass.out, Put.bytes]⟩
    | cons c cs =>
      have hsearch : zfinSearch buf
          = (zfinMatch 0 (c :: cs)).after [.append (buf.takeWhile (· ≠ 42))] := by
        simp only [zfinSearch, hd]
      have hround := zfinMatch_round 0 (c :: cs) (by decide)
      have hsays : ZfinSays saved (c :: cs) ((zfinMatch 0 (c :: cs)).out saved)
          (scan zfinPattern 0 (c :: cs)) := by
        apply hround.after_next (by simp)
        intro puts rest he
        have hnext : zfinSearch buf = .next (.append (buf.takeWhile (· ≠ 42)) :: puts) rest := by
          rw [hsearch, he]
          rfl
        have hlt := zfinSearch_shrinks hnext
        rw [hn] at hlt
        exact ih _ hlt rest rfl
      have hbytes : putBytes [.append (buf.takeWhile (· ≠ 42))] ++ c :: cs = buf := by
        rw [← hd]
        simp [Put.bytes]
      rw [hs, hd, hsearch, hround.out_after]
      simpa only [hbytes] using hsays.after [.append (buf.takeWhile (· ≠ 42))]

/-- A call is a search from the saved pointer. -/
theorem zfinScan_matches {saved : Option Nat} {buf : List UInt8} (hbuf : buf ≠ [])
    (hsaved : ∀ ref ∈ saved, ref < zfinLength) :
    ZfinSays saved buf (zfinScan saved buf) (scan zfinPattern (saved.getD 0) buf) := by
  unfold zfinScan
  rw [if_neg hbuf]
  cases saved with
  | none => exact zfinLoop_matches none buf
  | some ref =>
    have hpos := List.length_pos_iff.mpr hbuf
    apply (zfinMatch_round ref buf (hsaved ref rfl)).after_next (by omega)
    intro puts rest _
    exact zfinLoop_matches (some ref) rest

end Rzh
