import Mathlib.Data.List.Basic

/-!
# Streaming search for a pattern that never overlaps itself

A pattern is a list of tests. If nothing that passes the first test passes a later
one, a partial match can only start at one place, and a search that falls back to
its start after a failure misses nothing. The search is a fold over the stream, so
it may be suspended and resumed anywhere.
-/
namespace Matcher

variable {α : Type} (P : List (α → Bool))

/-- The symbol passes the test at place `k`. -/
def hits (k : Nat) (a : α) : Prop := ∃ p, P[k]? = some p ∧ p a = true

instance (k : Nat) (a : α) : Decidable (hits P k a) :=
  match h : P[k]? with
  | none => isFalse fun ⟨_, hp, _⟩ => by simp [h] at hp
  | some p =>
    if hp : p a = true then isTrue ⟨p, h, hp⟩
    else isFalse fun ⟨q, hq, hqa⟩ => hp (by rw [h] at hq; cases hq; exact hqa)

/-- The pattern is not empty, and its first test excludes all the others. -/
structure Headed : Prop where
  pos : 0 < P.length
  head : ∀ a, hits P 0 a → ∀ k, 0 < k → ¬ hits P k a

/-- The number of tests passed after one more symbol. -/
def next (k : Nat) (a : α) : Nat :=
  if hits P k a then k + 1 else if hits P 0 a then 1 else 0

/-- Either the number of tests passed at the end, or what follows the first match. -/
def scan : Nat → List α → Nat ⊕ List α
  | k, [] => .inl k
  | k, a :: as => if next P k a = P.length then .inr as else scan (next P k a) as

/-- The last `k` symbols pass the first `k` tests. -/
def Ends : Nat → List α → Prop
  | 0, _ => True
  | k + 1, s => ∃ u a, s = u ++ [a] ∧ hits P k a ∧ Ends k u

/-- The stream ends with a match and no shorter part of it from its start does. -/
def First (s : List α) : Prop :=
  Ends P P.length s ∧ ∀ u v, s = u ++ v → v ≠ [] → ¬ Ends P P.length u

/-- The stream ends with a partial match of `k` symbols and with no other. -/
def Partial (s : List α) (k : Nat) : Prop := Ends P k s ∧ ∀ j, 0 < j → Ends P j s → j = k

variable {P}

theorem hits_lt {k : Nat} {a : α} (h : hits P k a) : k < P.length := by
  obtain ⟨p, hp, -⟩ := h
  exact (List.getElem?_eq_some_iff.mp hp).1

@[simp] theorem ends_snoc (k : Nat) (s : List α) (a : α) :
    Ends P (k + 1) (s ++ [a]) ↔ hits P k a ∧ Ends P k s := by
  constructor
  · rintro ⟨u, b, he, h⟩
    obtain ⟨rfl, hb⟩ := List.append_inj' he rfl
    obtain rfl := List.cons.inj hb |>.1
    exact h
  · intro h
    exact ⟨s, a, rfl, h⟩

theorem not_ends_nil (k : Nat) : ¬ Ends P (k + 1) [] := by
  rintro ⟨u, a, h, -⟩
  simp at h

theorem partial_nil : Partial P [] 0 := by
  refine ⟨trivial, ?_⟩
  intro j hj h
  obtain ⟨i, rfl⟩ : ∃ i, j = i + 1 := ⟨j - 1, by omega⟩
  exact absurd h (not_ends_nil i)

/-- Two partial matches at the end of one stream are the same one. -/
theorem ends_unique (hP : Headed P) {j k : Nat} {s : List α} (hj : 0 < j) (hk : 0 < k)
    (h : Ends P j s) (h' : Ends P k s) : j = k := by
  induction j generalizing k s with
  | zero => omega
  | succ j ih =>
    obtain ⟨i, rfl⟩ : ∃ i, k = i + 1 := ⟨k - 1, by omega⟩
    obtain ⟨u, a, rfl, ha, hu⟩ := h
    rw [ends_snoc] at h'
    obtain ⟨ha', hu'⟩ := h'
    by_cases hj0 : j = 0
    · subst hj0
      by_cases hi0 : i = 0
      · rw [hi0]
      · exact absurd ha' (hP.head a ha i (by omega))
    · by_cases hi0 : i = 0
      · subst hi0
        exact absurd ha (hP.head a ha' j (by omega))
      · rw [ih (by omega) (by omega) hu hu']

/-- One symbol takes the partial match of the stream before to that of the stream after. -/
theorem partial_snoc (hP : Headed P) {s : List α} {k : Nat} (h : Partial P s k) (a : α) :
    Partial P (s ++ [a]) (next P k a) := by
  have huniq : ∀ k', 0 < k' → Ends P k' (s ++ [a]) → Partial P (s ++ [a]) k' :=
    fun k' hk' he => ⟨he, fun j hj hej => ends_unique hP hj hk' hej he⟩
  unfold next
  split
  · next hk => exact huniq _ (by omega) ((ends_snoc k s a).mpr ⟨hk, h.1⟩)
  · next hk =>
    split
    · next h0 => exact huniq 1 (by omega) ((ends_snoc 0 s a).mpr ⟨h0, trivial⟩)
    · next h0 =>
      refine ⟨trivial, ?_⟩
      intro j hj hej
      obtain ⟨i, rfl⟩ : ∃ i, j = i + 1 := ⟨j - 1, by omega⟩
      obtain ⟨ha, hu⟩ := (ends_snoc i s a).mp hej
      by_cases hi : i = 0
      · subst hi
        exact absurd ha h0
      · rw [h.2 i (by omega) hu] at ha
        exact absurd ha hk

theorem next_lt_or_eq {k : Nat} (a : α) (hk : k < P.length) (hne : next P k a ≠ P.length) :
    next P k a < P.length := by
  revert hne
  unfold next
  split <;> [skip; split] <;> omega

/-- No part of the stream from its start ends with a match. -/
def Free (P : List (α → Bool)) (s : List α) : Prop := ∀ u v, s = u ++ v → ¬ Ends P P.length u

theorem free_nil (hP : Headed P) : Free P ([] : List α) := by
  intro u v huv
  obtain ⟨rfl, -⟩ := List.append_eq_nil_iff.mp huv.symm
  obtain ⟨n, hn⟩ : ∃ n, P.length = n + 1 := ⟨P.length - 1, by have := hP.pos; omega⟩
  rw [hn]
  exact not_ends_nil n

theorem scan_inl_lt {k k' : Nat} {xs : List α} (hk : k < P.length) (h : scan P k xs = .inl k') :
    k' < P.length := by
  induction xs generalizing k with
  | nil =>
    cases h
    exact hk
  | cons a as ih =>
    rw [scan] at h
    split at h
    · cases h
    · next hne => exact ih (next_lt_or_eq a hk hne) h

/-- The search, started on a stream with a partial match and no match yet, stops right
behind the first match, or passes over everything. -/
theorem scan_spec (hP : Headed P) {s : List α} {k : Nat} (h : Partial P s k) (hk : k < P.length)
    (hno : Free P s) (xs : List α) :
    match scan P k xs with
    | .inl k' => k' < P.length ∧ Partial P (s ++ xs) k' ∧ Free P (s ++ xs)
    | .inr rest => ∃ u, xs = u ++ rest ∧ First P (s ++ u) := by
  induction xs generalizing s k with
  | nil => exact ⟨hk, by simpa using h, by simpa using hno⟩
  | cons a as ih =>
    have hstep := partial_snoc hP h a
    have hcut : ∀ u v, s ++ [a] = u ++ v → v ≠ [] → ¬ Ends P P.length u := by
      intro u v huv hv
      obtain ⟨v', b, rfl⟩ := (List.eq_nil_or_concat v).resolve_left hv
      rw [List.concat_eq_append, ← List.append_assoc] at huv
      exact hno u v' (List.append_inj' huv rfl).1
    by_cases hfull : next P k a = P.length
    · rw [scan, if_pos hfull]
      rw [hfull] at hstep
      exact ⟨[a], rfl, hstep.1, hcut⟩
    · have hlt := next_lt_or_eq a hk hfull
      have hno' : Free P (s ++ [a]) := by
        intro u v huv he
        by_cases hv : v = []
        · rw [hv, List.append_nil] at huv
          rw [← huv] at he
          exact hfull (hstep.2 _ hP.pos he).symm
        · exact hcut u v huv hv he
      have := ih hstep hlt hno'
      rw [scan, if_neg hfull]
      cases hs : scan P (next P k a) as with
      | inl k' => simpa [hs] using this
      | inr rest =>
        rw [hs] at this
        obtain ⟨u, rfl, hu⟩ := this
        exact ⟨a :: u, rfl, by simpa using hu⟩

/-- A shortest stream that ends with a match, extended, determines where it ends. -/
theorem first_unique {s t s' t' : List α} (h : First P s) (h' : First P s')
    (he : s ++ t = s' ++ t') : s = s' ∧ t = t' := by
  rcases List.append_eq_append_iff.mp he with ⟨v, rfl, rfl⟩ | ⟨v, rfl, rfl⟩
  · by_cases hv : v = []
    · simp [hv]
    · exact absurd h.1 (h'.2 s v rfl hv)
  · by_cases hv : v = []
    · simp [hv]
    · exact absurd h'.1 (h.2 s' v rfl hv)

theorem scan_inr_iff (hP : Headed P) (xs rest : List α) :
    scan P 0 xs = .inr rest ↔ ∃ u, xs = u ++ rest ∧ First P u := by
  have hspec := scan_spec hP partial_nil hP.pos (free_nil hP) xs
  constructor
  · intro h
    rw [h] at hspec
    simpa using hspec
  · rintro ⟨u, rfl, hu⟩
    split at hspec
    · exact absurd hu.1 (hspec.2.2 u rest (by simp))
    · next rest' he =>
      obtain ⟨u', huu, hu'⟩ := hspec
      rw [he, (first_unique hu hu' huu).2]

theorem scan_append (k : Nat) (xs ys : List α) :
    scan P k (xs ++ ys) =
      match scan P k xs with
      | .inl k' => scan P k' ys
      | .inr rest => .inr (rest ++ ys) := by
  induction xs generalizing k with
  | nil => rfl
  | cons a as ih =>
    simp only [List.cons_append, scan]
    split
    · rfl
    · exact ih _

/-- Symbols that fail the first test leave a search at its start. -/
theorem scan_skip (hP : Headed P) (xs ys : List α) (h : ∀ a ∈ xs, ¬ hits P 0 a) :
    scan P 0 (xs ++ ys) = scan P 0 ys := by
  induction xs with
  | nil => rfl
  | cons a as ih =>
    have ha := h a List.mem_cons_self
    have hnext : next P 0 a = 0 := by rw [next, if_neg ha, if_neg ha]
    have hpos := hP.pos
    rw [List.cons_append, scan, hnext, if_neg (by omega)]
    exact ih fun b hb => h b (List.mem_cons_of_mem a hb)

/-- A symbol that does not go on with the partial match is looked at as if the search
had just begun. -/
theorem scan_restart {k : Nat} {a : α} (as : List α) (h : ¬ hits P k a) :
    scan P k (a :: as) = scan P 0 (a :: as) := by
  have hnext : next P k a = next P 0 a := by
    rw [next, if_neg h, next]
    split <;> rfl
  rw [scan, scan, hnext]

theorem scan_hit {k : Nat} {a : α} (as : List α) (h : hits P k a) (hk : k + 1 < P.length) :
    scan P k (a :: as) = scan P (k + 1) as := by
  rw [scan, next, if_pos h, if_neg (by omega)]

theorem scan_last {k : Nat} {a : α} (as : List α) (h : hits P k a) (hk : k + 1 = P.length) :
    scan P k (a :: as) = .inr as := by
  rw [scan, next, if_pos h, if_pos hk]

theorem partial_unique {s : List α} {j k : Nat} (h : Partial P s j) (h' : Partial P s k) :
    j = k := by
  by_cases hj : 0 < j
  · exact h'.2 j hj h.1
  · by_cases hk : 0 < k
    · exact (h.2 k hk h'.1).symm
    · omega

theorem scan_inl_iff (hP : Headed P) (xs : List α) (k : Nat) :
    scan P 0 xs = .inl k ↔ Free P xs ∧ Partial P xs k := by
  have hspec := scan_spec hP partial_nil hP.pos (free_nil hP) xs
  constructor
  · intro h
    rw [h] at hspec
    exact ⟨by simpa using hspec.2.2, by simpa using hspec.2.1⟩
  · rintro ⟨hfree, hk⟩
    split at hspec
    · next k' he =>
      rw [List.nil_append] at hspec
      rw [he, partial_unique hspec.2.1 hk]
    · next rest he =>
      obtain ⟨u, rfl, hu⟩ := hspec
      exact absurd (by simpa using hu.1) (hfree u rest rfl)

/-- A search through packets: the packet in which it stops, and the rest of that packet. -/
def feed (P : List (α → Bool)) : Nat → List (List α) → Option (Nat × List α)
  | _, [] => none
  | k, p :: ps =>
    match scan P k p with
    | .inl k' => (feed P k' ps).map fun (i, rest) => (i + 1, rest)
    | .inr rest => some (0, rest)

theorem feed_spec (hP : Headed P) {s : List α} {k : Nat} (hs : Partial P s k) (hk : k < P.length)
    (hfree : Free P s) (ps : List (List α)) (i : Nat) (rest : List α) :
    feed P k ps = some (i, rest) ↔ ∃ A u B, ps = A ++ (u ++ rest) :: B ∧ A.length = i ∧
      u ≠ [] ∧ First P (s ++ (A.flatten ++ u)) := by
  induction ps generalizing s k i with
  | nil => simp [feed]
  | cons p ps ih =>
    have hspec := scan_spec hP hs hk hfree p
    rw [feed]
    split
    · next k' he =>
      rw [he] at hspec
      obtain ⟨hk', hs', hfree'⟩ := hspec
      rw [Option.map_eq_some_iff]
      constructor
      · rintro ⟨⟨j, r⟩, hf, hjr⟩
        obtain ⟨rfl, rfl⟩ := Prod.mk.inj hjr
        obtain ⟨A, u, B, rfl, rfl, hu, hfirst⟩ := (ih hs' hk' hfree' j).mp hf
        exact ⟨p :: A, u, B, rfl, rfl, hu, by simpa using hfirst⟩
      · rintro ⟨A, u, B, hps, rfl, hu, hfirst⟩
        cases A with
        | nil =>
          obtain ⟨rfl, rfl⟩ := List.cons.inj hps
          exact absurd hfirst.1 (hfree' _ rest (by simp))
        | cons q A =>
          obtain ⟨rfl, rfl⟩ := List.cons.inj hps
          refine ⟨(A.length, rest), ?_, rfl⟩
          exact (ih hs' hk' hfree' A.length).mpr ⟨A, u, B, rfl, rfl, hu, by simpa using hfirst⟩
    · next rest' he =>
      rw [he] at hspec
      obtain ⟨u', rfl, hfirst'⟩ := hspec
      have hu' : u' ≠ [] := by
        rintro rfl
        exact hfree s [] (by simp) (by simpa using hfirst'.1)
      constructor
      · intro h
        obtain ⟨rfl, rfl⟩ := Prod.mk.inj (Option.some.inj h)
        exact ⟨[], u', ps, rfl, rfl, hu', by simpa using hfirst'⟩
      · rintro ⟨A, u, B, hps, rfl, hu, hfirst⟩
        cases A with
        | nil =>
          obtain ⟨he', -⟩ := List.cons.inj hps
          have hsame : s ++ u' ++ rest' = s ++ (([] : List (List α)).flatten ++ u) ++ rest := by
            simp [he']
          rw [(first_unique hfirst' hfirst hsame).2]
          rfl
        | cons q A =>
          obtain ⟨rfl, -⟩ := List.cons.inj hps
          -- the whole of this packet lies in front of `u`, so the match in it is an earlier one
          refine absurd hfirst'.1 (hfirst.2 (s ++ u') (rest' ++ (A.flatten ++ u)) (by simp) ?_)
          simp [hu]

/-- A search through packets stops behind the first match of the whole stream. -/
theorem feed_iff (hP : Headed P) (ps : List (List α)) (i : Nat) (rest : List α) :
    feed P 0 ps = some (i, rest) ↔ ∃ A u B, ps = A ++ (u ++ rest) :: B ∧ A.length = i ∧
      u ≠ [] ∧ First P (A.flatten ++ u) := by
  simpa using feed_spec hP partial_nil hP.pos (free_nil hP) ps i rest

/-- A match ends in the `i`-th packet, in front of `rest`. -/
def MatchAt (P : List (α → Bool)) (ps : List (List α)) (i : Nat) (rest : List α) : Prop :=
  ∃ A u B, ps = A ++ (u ++ rest) :: B ∧ A.length = i ∧ u ≠ [] ∧ Ends P P.length (A.flatten ++ u)

/-- The place in front of `rest` in the `i`-th packet is not behind the other one. -/
def NotAfter (i : Nat) (rest : List α) (j : Nat) (rest' : List α) : Prop :=
  i < j ∨ i = j ∧ rest'.length ≤ rest.length

theorem feed_none {k : Nat} {ps : List (List α)} (h : feed P k ps = none) :
    ∃ k', scan P k ps.flatten = .inl k' := by
  induction ps generalizing k with
  | nil => exact ⟨k, rfl⟩
  | cons p ps ih =>
    rw [feed] at h
    rw [List.flatten_cons, scan_append]
    split at h
    · exact ih (Option.map_eq_none_iff.mp h)
    · cases h

theorem First.notAfter {A B A' B' : List (List α)} {u rest u' rest' : List α}
    (h : First P (A.flatten ++ u)) (hu : u ≠ []) (h' : Ends P P.length (A'.flatten ++ u'))
    (he : A ++ (u ++ rest) :: B = A' ++ (u' ++ rest') :: B') :
    NotAfter A.length rest A'.length rest' := by
  rcases List.append_eq_append_iff.mp he with ⟨C, rfl, hC⟩ | ⟨C, rfl, hC⟩
  · cases C with
    | nil =>
      obtain ⟨hp, -⟩ := List.cons.inj hC
      have hlen := congrArg List.length hp
      refine .inr ⟨by simp, ?_⟩
      rcases List.append_eq_append_iff.mp hp with ⟨x, rfl, hx⟩ | ⟨x, rfl, hx⟩
      · rw [hx, List.length_append]
        omega
      · by_cases hne : x = []
        · simp [hx, hne]
        · refine absurd h' (h.2 _ x ?_ hne)
          simp
    | cons c C => exact .inl (by simp)
  · cases C with
    | nil =>
      obtain ⟨hp, -⟩ := List.cons.inj hC
      refine .inr ⟨by simp, ?_⟩
      rcases List.append_eq_append_iff.mp hp with ⟨x, rfl, hx⟩ | ⟨x, rfl, hx⟩
      · by_cases hne : x = []
        · simp [hx, hne]
        · refine absurd h' (h.2 _ x ?_ hne)
          simp
      · rw [hx, List.length_append]
        omega
    | cons c C =>
      obtain ⟨rfl, -⟩ := List.cons.inj hC
      refine absurd h' (h.2 _ (rest' ++ (C.flatten ++ u)) (by simp) ?_)
      simp [hu]

/-- A search through packets stops where a match ends and none ends earlier. -/
theorem feed_first (hP : Headed P) (ps : List (List α)) (i : Nat) (rest : List α) :
    feed P 0 ps = some (i, rest) ↔
      MatchAt P ps i rest ∧ ∀ j rest', MatchAt P ps j rest' → NotAfter i rest j rest' := by
  have hfwd : ∀ i rest, feed P 0 ps = some (i, rest) →
      MatchAt P ps i rest ∧ ∀ j rest', MatchAt P ps j rest' → NotAfter i rest j rest' := by
    intro i rest h
    obtain ⟨A, u, B, rfl, rfl, hu, hfirst⟩ := (feed_iff hP ps i rest).mp h
    refine ⟨⟨A, u, B, rfl, rfl, hu, hfirst.1⟩, ?_⟩
    rintro j rest' ⟨A', u', B', he, rfl, -, hends⟩
    exact hfirst.notAfter hu hends he
  refine ⟨hfwd i rest, ?_⟩
  rintro ⟨hat, hmin⟩
  cases hf : feed P 0 ps with
  | none =>
    obtain ⟨k', hk'⟩ := feed_none hf
    obtain ⟨A, u, B, rfl, -, -, hends⟩ := hat
    exact absurd hends (((scan_inl_iff hP _ _).mp hk').1 _ (rest ++ B.flatten) (by simp))
  | some x =>
    obtain ⟨j, r⟩ := x
    obtain ⟨hat', hmin'⟩ := hfwd j r hf
    have h1 := hmin j r hat'
    have h2 := hmin' i rest hat
    obtain ⟨A, u, B, rfl, rfl, -, -⟩ := hat
    obtain ⟨A', u', B', he, rfl, -, -⟩ := hat'
    have hij : A.length = A'.length := by
      rcases h1 with h1 | ⟨h1, -⟩ <;> rcases h2 with h2 | ⟨h2, -⟩ <;> omega
    have hlen : rest.length = r.length := by
      rcases h1 with h1 | ⟨-, h1⟩ <;> rcases h2 with h2 | ⟨-, h2⟩ <;> omega
    obtain ⟨rfl, hcons⟩ := List.append_inj he hij
    obtain ⟨hp, -⟩ := List.cons.inj hcons
    rw [(List.append_inj' hp hlen).2]

section Text

variable [DecidableEq α]

/-- The pattern that a text is. -/
def ofText (t : List α) : List (α → Bool) := t.map fun c b => b == c

@[simp] theorem ofText_length (t : List α) : (ofText t).length = t.length := by simp [ofText]

@[simp] theorem hits_ofText (t : List α) (k : Nat) (a : α) :
    hits (ofText t) k a ↔ t[k]? = some a := by
  simp only [hits, ofText, List.getElem?_map]
  cases t[k]? with
  | none => simp
  | some c =>
    simp only [Option.map_some, Option.some.injEq, exists_eq_left', beq_iff_eq]
    exact eq_comm

/-- A match of the first `k` tests of a text is a copy of its first `k` symbols. -/
theorem ends_ofText (t s : List α) {k : Nat} (hk : k ≤ t.length) :
    Ends (ofText t) k s ↔ t.take k <:+ s := by
  induction k generalizing s with
  | zero => simp [Ends]
  | succ k ih =>
    have htake : t.take (k + 1) = t.take k ++ [t[k]] := by simp
    obtain rfl | ⟨u, a, rfl⟩ := List.eq_nil_or_concat' s
    · simp only [List.suffix_nil, List.take_eq_nil_iff]
      constructor
      · exact fun h => absurd h (not_ends_nil k)
      · rintro (h | h)
        · omega
        · simp [h] at hk
    · rw [ends_snoc, hits_ofText, ih u (by omega), htake, List.getElem?_eq_getElem (by omega),
        Option.some.injEq]
      constructor
      · rintro ⟨rfl, v, rfl⟩
        exact ⟨v, by simp⟩
      · rintro ⟨v, hv⟩
        rw [← List.append_assoc] at hv
        obtain ⟨hu, ha⟩ := List.append_inj' hv rfl
        exact ⟨by simpa using ha, v, hu⟩

theorem ends_ofText_all (t s : List α) : Ends (ofText t) (ofText t).length s ↔ t <:+ s := by
  rw [ofText_length, ends_ofText t s (Nat.le_refl _), List.take_length]

theorem free_ofText (t s : List α) : Free (ofText t) s ↔ ¬ t <:+: s := by
  unfold Free
  simp only [ends_ofText_all]
  constructor
  · rintro h ⟨v, w, rfl⟩
    exact h (v ++ t) w rfl ⟨v, rfl⟩
  · rintro h u v rfl ⟨w, rfl⟩
    exact h ⟨w, v, rfl⟩

theorem first_ofText (t s : List α) :
    First (ofText t) s ↔ t <:+ s ∧ ∀ u v, s = u ++ v → v ≠ [] → ¬ t <:+ u := by
  unfold First
  simp only [ends_ofText_all]

theorem hits_zero_drop {t : List α} (hP : Headed (ofText t)) {k : Nat} (hk : 0 < k) :
    ∀ a ∈ t.drop k, ¬ hits (ofText t) 0 a := by
  intro a ha h0
  obtain ⟨i, hi, rfl⟩ := List.getElem_of_mem ha
  refine hP.head _ h0 (k + i) (by omega) ?_
  rw [hits_ofText, List.getElem_drop]
  exact List.getElem?_eq_getElem (by simp at hi; omega)

/-- Along the text, short of its end. -/
theorem scan_along {t d : List α} {k : Nat} (hd : d <+: t.drop k) (hk : k + d.length < t.length)
    (ys : List α) : scan (ofText t) k (d ++ ys) = scan (ofText t) (k + d.length) ys := by
  induction d generalizing k with
  | nil => rfl
  | cons a d ih =>
    rw [List.length_cons] at hk ⊢
    rw [List.drop_eq_getElem_cons (by omega), List.cons_prefix_cons] at hd
    have hhit : hits (ofText t) k a := by
      rw [hits_ofText, hd.1]
      exact List.getElem?_eq_getElem (by omega)
    rw [List.cons_append, scan_hit _ hhit (by rw [ofText_length]; omega), ih hd.2 (by omega)]
    congr 1
    omega

/-- Along the text, to its end. -/
theorem scan_done {t : List α} {k : Nat} (hk : k < t.length) (ys : List α) :
    scan (ofText t) k (t.drop k ++ ys) = .inr ys := by
  have hlast := List.dropLast_append_getLast (l := t.drop k) (by simp; omega)
  have hlen : (t.drop k).dropLast.length = t.length - k - 1 := by simp
  have hget : (t.drop k).getLast (by simp; omega) = t[t.length - 1] := by
    rw [List.getLast_drop, List.getLast_eq_getElem]
  rw [← hlast, List.append_assoc, scan_along (List.dropLast_prefix _) (by omega), hget]
  apply scan_last
  · rw [hits_ofText, hlen, show k + (t.length - k - 1) = t.length - 1 by omega]
    exact List.getElem?_eq_getElem (by omega)
  · rw [ofText_length]
    omega

/-- Off the text: it does not matter that the search was on it. -/
theorem scan_off {t xs : List α} (hP : Headed (ofText t)) {k : Nat} (hk : k < t.length)
    (hdone : ¬ t.drop k <+: xs) (halong : ¬ xs <+: t.drop k) :
    scan (ofText t) k xs = scan (ofText t) 0 xs := by
  induction xs generalizing k with
  | nil => simp at halong
  | cons a xs ih =>
    by_cases hhit : hits (ofText t) k a
    · have ha : t[k] = a := by
        rw [hits_ofText, List.getElem?_eq_getElem hk] at hhit
        exact Option.some.inj hhit
      rw [List.drop_eq_getElem_cons hk, List.cons_prefix_cons] at hdone halong
      simp only [ha, true_and] at hdone halong
      by_cases hlast : k + 1 = t.length
      · rw [hlast, List.drop_length] at hdone
        exact absurd List.nil_prefix hdone
      · by_cases hk0 : k = 0
        · rw [hk0]
        · have h0 : ¬ hits (ofText t) 0 a := fun h => hP.head a h k (by omega) hhit
          rw [scan_hit xs hhit (by rw [ofText_length]; omega), ih (by omega) hdone halong]
          exact (scan_skip hP [a] xs (by simpa using h0)).symm
    · exact scan_restart xs hhit

end Text

end Matcher
