import Rzh.ZrqMatch

/-!
# The start of a transfer, over packets

Through any number of packets zrq_scan finds the first start sequence of the stream.
Whether the start proc is then invoked depends on whether the fifo can be emptied.
-/
namespace Rzh

open Matcher

/-- A call of the filter proc: the fifo and the kernel as they are by then, and the packet. -/
structure ScanCall where
  fifo : Fifo
  kernel : Kernel
  buf : List UInt8

/-- The calls up to the one that invokes the start proc: its number, and what is left of its
packet at that moment. -/
def zrqFeed (fd : Int) (conn : ZScanState) :
    List ScanCall → Except (Halt × Fifo × Kernel) (Option (Nat × List UInt8))
  | [] => .ok none
  | x :: xs =>
    match echoScannerCall x.fifo conn x.buf fd x.kernel with
    | .error e => .error e
    | .ok c =>
      match c.started with
      | some rest => .ok (some (0, rest))
      | none => (zrqFeed fd c.conn xs).map (Option.map fun (i, rest) => (i + 1, rest))

/-- A start sequence ends in the `i`-th packet, in front of `rest`; its star and the
character behind the star are in one packet. -/
def StartAt (ps : List (List UInt8)) (i : Nat) (rest : List UInt8) : Prop :=
  ∃ A u B C v w D, ps = A ++ (u ++ rest) :: B ∧ A.length = i ∧ u ≠ [] ∧
    A ++ [u] = C ++ (v ++ chStar :: chCan :: w) :: D ∧ w ++ D.flatten = [chB, ch0, ch0]

/-- And none ends earlier. -/
def FirstStart (ps : List (List UInt8)) (i : Nat) (rest : List UInt8) : Prop :=
  StartAt ps i rest ∧ ∀ j rest', StartAt ps j rest' → NotAfter i rest j rest'

theorem marked_append {u : List UInt8} (hu : u ≠ []) (rest : List UInt8) :
    marked (u ++ rest) = marked u ++ unmarked rest := by
  cases u with
  | nil => exact absurd rfl hu
  | cons c cs => simp [marked]

theorem marked_map (p : List UInt8) : (marked p).map Prod.fst = p := by
  cases p <;> simp [marked, Function.comp_def]

theorem flatten_marked_map (ps : List (List UInt8)) :
    (ps.map marked).flatten.map Prod.fst = ps.flatten := by
  induction ps with
  | nil => rfl
  | cons p ps ih => simp [marked_map, ih]

/-- The first character of what is left of a stream at the end of a packet is marked. -/
theorem head_marked {ps : List (List UInt8)} {a : UInt8 × Bool} {xs : List (UInt8 × Bool)}
    (h : (ps.map marked).flatten = a :: xs) : a.2 = true := by
  induction ps with
  | nil => simp at h
  | cons p ps ih =>
    cases p with
    | nil => exact ih (by simpa [marked] using h)
    | cons c cs =>
      simp only [List.map_cons, marked, List.flatten_cons, List.cons_append] at h
      rw [← (List.cons.inj h).1]

/-- A character that is not marked lies in one packet with the one before. -/
theorem flatten_marked_split {ps : List (List UInt8)} {X Y : List (UInt8 × Bool)}
    {a b : UInt8 × Bool} (hb : b.2 = false) (h : (ps.map marked).flatten = X ++ a :: b :: Y) :
    ∃ C v w D, ps = C ++ (v ++ a.1 :: b.1 :: w) :: D ∧ w ++ D.flatten = Y.map Prod.fst := by
  induction ps generalizing X with
  | nil => simp at h
  | cons p ps ih =>
    rw [List.map_cons, List.flatten_cons] at h
    have hnext : ∀ X', (ps.map marked).flatten = X' ++ a :: b :: Y →
        ∃ C v w D, p :: ps = C ++ (v ++ a.1 :: b.1 :: w) :: D ∧ w ++ D.flatten = Y.map Prod.fst := by
      intro X' h'
      obtain ⟨C, v, w, D, rfl, hw⟩ := ih h'
      exact ⟨p :: C, v, w, D, rfl, hw⟩
    rcases List.append_eq_append_iff.mp h with ⟨X', rfl, h'⟩ | ⟨Z, hp, hZ⟩
    · exact hnext X' h'
    · rcases Z with _ | ⟨a', _ | ⟨b', Z⟩⟩
      · exact hnext [] hZ.symm
      · obtain ⟨rfl, hrest⟩ := List.cons.inj hZ
        rw [head_marked hrest.symm] at hb
        cases hb
      · obtain ⟨rfl, hrest⟩ := List.cons.inj hZ
        obtain ⟨rfl, rfl⟩ := List.cons.inj hrest
        refine ⟨[], X.map Prod.fst, Z.map Prod.fst, ps, ?_, ?_⟩
        · rw [← marked_map p, hp]
          simp
        · rw [← flatten_marked_map ps]
          simp

theorem ends_startPattern (s : List (UInt8 × Bool)) :
    Ends startPattern startPattern.length s ↔
      ∃ X b Y, s = X ++ (chStar, b) :: (chCan, false) :: Y ∧ Y.map Prod.fst = [chB, ch0, ch0] := by
  have h0 : ∀ a, hits startPattern 0 a ↔ a.1 = chStar := by simp [startPattern_hits]
  have h1 : ∀ a, hits startPattern 1 a ↔ a.1 = chCan ∧ a.2 = false := by simp [startPattern_hits]
  have h2 : ∀ a, hits startPattern 2 a ↔ a.1 = chB := by simp [startPattern_hits]
  have h3 : ∀ a, hits startPattern 3 a ↔ a.1 = ch0 := by simp [startPattern_hits]
  have h4 : ∀ a, hits startPattern 4 a ↔ a.1 = ch0 := by simp [startPattern_hits]
  constructor
  · rintro ⟨_, a4, rfl, ha4, _, a3, rfl, ha3, _, a2, rfl, ha2, _, ⟨a1, b1⟩, rfl, ha1, X, ⟨a0, b0⟩,
      rfl, ha0, -⟩
    obtain rfl := (h0 _).mp ha0
    obtain ⟨rfl, rfl⟩ := (h1 _).mp ha1
    refine ⟨X, b0, [a2, a3, a4], by simp, ?_⟩
    simp [(h2 _).mp ha2, (h3 _).mp ha3, (h4 _).mp ha4]
  · rintro ⟨X, b, Y, rfl, hY⟩
    rcases Y with _ | ⟨a2, _ | ⟨a3, _ | ⟨a4, _ | ⟨a5, Y⟩⟩⟩⟩ <;> simp at hY
    obtain ⟨e2, e3, e4⟩ := hY
    have hsplit : X ++ (chStar, b) :: (chCan, false) :: [a2, a3, a4] =
        X ++ [(chStar, b)] ++ [(chCan, false)] ++ [a2] ++ [a3] ++ [a4] := by simp
    rw [hsplit]
    exact ⟨_, a4, rfl, (h4 _).mpr e4, _, a3, rfl, (h3 _).mpr e3, _, a2, rfl, (h2 _).mpr e2,
      _, _, rfl, (h1 _).mpr ⟨rfl, rfl⟩, X, _, rfl, (h0 _).mpr rfl, trivial⟩

/-- In terms of the packets: the sequence behind its star and the character after it
may go on over any number of them. -/
theorem ends_flatten_marked (ps : List (List UInt8)) :
    Ends startPattern startPattern.length (ps.map marked).flatten ↔
      ∃ C v w D, ps = C ++ (v ++ chStar :: chCan :: w) :: D ∧ w ++ D.flatten = [chB, ch0, ch0] := by
  rw [ends_startPattern]
  constructor
  · rintro ⟨X, b, Y, hX, hY⟩
    obtain ⟨C, v, w, D, rfl, hw⟩ := flatten_marked_split rfl hX
    exact ⟨C, v, w, D, rfl, hw.trans hY⟩
  · rintro ⟨C, v, w, D, rfl, hw⟩
    have hmarked : ∃ V b, marked (v ++ chStar :: chCan :: w) =
        V ++ (chStar, b) :: (chCan, false) :: unmarked w := by
      cases v with
      | nil => exact ⟨[], true, rfl⟩
      | cons c cs => exact ⟨(c, true) :: unmarked cs, false, by simp [marked]⟩
    obtain ⟨V, b, hV⟩ := hmarked
    refine ⟨(C.map marked).flatten ++ V, b, unmarked w ++ (D.map marked).flatten, ?_, ?_⟩
    · simp [hV]
    · rw [List.map_append, flatten_marked_map, ← hw]
      simp [Function.comp_def]

theorem marked_eq_append {p : List UInt8} {u r : List (UInt8 × Bool)} (hu : u ≠ [])
    (h : marked p = u ++ r) :
    ∃ u' rest, p = u' ++ rest ∧ u = marked u' ∧ r = unmarked rest ∧ u' ≠ [] := by
  cases p with
  | nil =>
    simp only [marked] at h
    exact absurd (List.append_eq_nil_iff.mp h.symm).1 hu
  | cons c cs =>
    obtain ⟨a, u, rfl⟩ := List.exists_cons_of_ne_nil hu
    obtain ⟨rfl, hcs⟩ := List.cons.inj h
    obtain ⟨u', rest, rfl, rfl, rfl⟩ := List.map_eq_append_iff.mp hcs
    exact ⟨c :: u', rest, rfl, rfl, rfl, by simp⟩

theorem matchAt_marked (ps : List (List UInt8)) (i : Nat) (r : List (UInt8 × Bool)) :
    MatchAt startPattern (ps.map marked) i r ↔ ∃ rest, r = unmarked rest ∧ StartAt ps i rest := by
  have hends : ∀ A u, Ends startPattern startPattern.length ((A.map marked).flatten ++ marked u) ↔
      ∃ C v w D, A ++ [u] = C ++ (v ++ chStar :: chCan :: w) :: D ∧
        w ++ D.flatten = [chB, ch0, ch0] := by
    intro A u
    rw [← ends_flatten_marked]
    simp
  constructor
  · rintro ⟨A, u, B, hps, rfl, hu, hmatch⟩
    obtain ⟨A, X, rfl, rfl, hX⟩ := List.map_eq_append_iff.mp hps
    obtain ⟨p, B, rfl, hp, rfl⟩ := List.map_eq_cons_iff.mp hX
    obtain ⟨u, rest, rfl, rfl, rfl, hu'⟩ := marked_eq_append hu hp
    obtain ⟨C, v, w, D, hC, hw⟩ := (hends A u).mp hmatch
    exact ⟨rest, rfl, A, u, B, C, v, w, D, rfl, by simp, hu', hC, hw⟩
  · rintro ⟨rest, rfl, A, u, B, C, v, w, D, rfl, rfl, hu, hC, hw⟩
    refine ⟨A.map marked, marked u, B.map marked, ?_, by simp, ?_,
      (hends A u).mpr ⟨C, v, w, D, hC, hw⟩⟩
    · simp [marked_append hu]
    · cases u with
      | nil => exact absurd rfl hu
      | cons c cs => simp [marked]

/-- The search through the marked packets stops at the first start sequence. -/
theorem firstStart_iff (ps : List (List UInt8)) (i : Nat) (rest : List UInt8) :
    FirstStart ps i rest ↔ feed startPattern 0 (ps.map marked) = some (i, unmarked rest) := by
  have hinj : Function.Injective unmarked := by
    apply List.map_injective_iff.mpr
    intro a b h
    exact (Prod.mk.inj h).1
  rw [feed_first startPattern_headed, FirstStart]
  simp only [matchAt_marked]
  constructor
  · rintro ⟨hat, hmin⟩
    refine ⟨⟨rest, rfl, hat⟩, ?_⟩
    rintro j _ ⟨rest', rfl, hat'⟩
    simpa [NotAfter] using hmin j rest' hat'
  · rintro ⟨⟨rest', he, hat⟩, hmin⟩
    obtain rfl := hinj he
    refine ⟨hat, ?_⟩
    intro j rest' hat'
    simpa [NotAfter] using hmin j _ ⟨rest', rfl, hat'⟩

/-- The state after some packets. -/
def scanned (conn : ZScanState) (bufs : List (List UInt8)) : ZScanState :=
  bufs.foldl (fun conn buf => (zrqScan conn buf).conn) conn

/-- The call `x`, made after `A`, gets to zscan_start: the start proc is invoked in it
if the text in front of the sequence can be got rid of. -/
def StartsIn (fd : Int) (conn : ZScanState) (A : List ScanCall) (x : ScanCall) (rest : List UInt8)
    (r : Except (Halt × Fifo × Kernel) (Option (Nat × List UInt8))) : Prop :=
  let f := runPuts x.fifo (zrqScan (scanned conn (A.map ScanCall.buf)) x.buf).puts
  (Empties fd f x.kernel → r = .ok (some (A.length, rest))) ∧
  (¬ Empties fd f x.kernel → ∃ f' k', r = .error (.bail 33, f', k'))

/-- The calls against the search through their packets. -/
theorem zrqFeed_spec (fd : Int) {conn : ZScanState} {k : Nat} (xs : List ScanCall)
    (hs : Settled conn) (hk : Agrees conn k) (hne : ∀ x ∈ xs, x.buf ≠ []) :
    (feed startPattern k (xs.map fun x => marked x.buf) = none ∧ zrqFeed fd conn xs = .ok none) ∨
    (∃ A x B rest, xs = A ++ x :: B ∧
      feed startPattern k (xs.map fun x => marked x.buf) = some (A.length, unmarked rest) ∧
      StartsIn fd conn A x rest (zrqFeed fd conn xs)) := by
  induction xs generalizing conn k with
  | nil => exact .inl ⟨rfl, rfl⟩
  | cons x xs ih =>
    have hx : x.buf ≠ [] := hne x List.mem_cons_self
    have hsees := zrqScan_sees hs hx hk
    have htr := zrqScan_transparent_of_settled hs hx
    rw [List.map_cons, feed, zrqFeed, echoScannerCall, if_neg hx, zrqScanCall]
    cases hscan : scan startPattern k (marked x.buf) with
    | inr r =>
      rw [hscan] at hsees
      obtain ⟨rest, hstart, rfl⟩ := hsees
      refine .inr ⟨[], x, xs, rest, rfl, rfl, ?_⟩
      simp only [hstart, StartsIn, scanned, List.map_nil, List.foldl_nil]
      obtain ⟨he, f', k', hprep⟩ | ⟨he, f', k', hprep⟩ :=
        zscanPrepare_cases (runPuts x.fifo (zrqScan conn x.buf).puts) fd x.kernel
      · rw [hprep]
        exact ⟨fun _ => rfl, fun h => absurd he h⟩
      · rw [hprep]
        exact ⟨fun h => absurd h he, fun _ => ⟨f', k', rfl⟩⟩
    | inl k' =>
      rw [hscan] at hsees
      obtain ⟨hstart, hk'⟩ := hsees
      rw [Transparent, hstart] at htr
      simp only [hstart]
      obtain ⟨hf, hz⟩ | ⟨A, y, B, rest, rfl, hf, hst⟩ :=
        ih htr.2 hk' (fun y hy => hne y (List.mem_cons_of_mem x hy))
      · exact .inl ⟨by rw [hf]; rfl, by rw [hz]; rfl⟩
      · refine .inr ⟨x :: A, y, B, rest, rfl, by rw [hf]; rfl, ?_⟩
        obtain ⟨hok, herr⟩ := hst
        constructor
        · intro he
          rw [hok he]
          rfl
        · intro he
          obtain ⟨f', k', hr⟩ := herr he
          exact ⟨f', k', by rw [hr]; rfl⟩

/-- zscan_start is entered at the end of the first start sequence of the stream, with what
follows in that packet. The start proc is invoked there if the fifo can be emptied in
time; if not, the program bails. -/
def StartsExactly (fd : Int) (xs : List ScanCall) : Prop :=
  (∀ A x B rest, xs = A ++ x :: B → FirstStart (xs.map ScanCall.buf) A.length rest →
    StartsIn fd zscanstateInit A x rest (zrqFeed fd zscanstateInit xs)) ∧
  ((∀ i rest, ¬ FirstStart (xs.map ScanCall.buf) i rest) →
    zrqFeed fd zscanstateInit xs = .ok none)

/-- Recognition is exact, whatever the packets and whatever is in front of the sequence. -/
theorem zrqFeed_exact (fd : Int) (xs : List ScanCall) (hne : ∀ x ∈ xs, x.buf ≠ []) :
    StartsExactly fd xs := by
  have hmap : xs.map (fun x => marked x.buf) = (xs.map ScanCall.buf).map marked := by simp
  have hspec := zrqFeed_spec fd xs settled_init agrees_init hne
  rw [hmap] at hspec
  constructor
  · intro A x B rest hxs hfirst
    rw [firstStart_iff] at hfirst
    rw [hfirst] at hspec
    obtain ⟨h, -⟩ | ⟨A', x', B', rest', rfl, hf, hst⟩ := hspec
    · cases h
    · obtain ⟨hlen, hrest⟩ := Prod.mk.inj (Option.some.inj hf)
      obtain ⟨rfl, hcons⟩ := List.append_inj hxs hlen.symm
      obtain ⟨rfl, -⟩ := List.cons.inj hcons
      obtain rfl : rest = rest' := by simpa [Function.comp_def] using congrArg (List.map Prod.fst) hrest
      exact hst
  · intro hnone
    obtain ⟨-, h⟩ | ⟨A, x, B, rest, -, hf, -⟩ := hspec
    · exact h
    · exact absurd ((firstStart_iff _ _ _).mpr hf) (hnone A.length rest)

/-- A letter and a start sequence, with a descriptor that takes nothing. -/
def stalledStart : ScanCall where
  fifo := fifoInit bufsiz bufsiz_pos
  kernel := ⟨[], List.replicate 5 (.fail .eagain), [], none, []⟩
  buf := [97, chStar, chCan, chB, ch0, ch0, 98]

theorem zrqFeed_exact_stalled : StartsExactly 7 [stalledStart] :=
  zrqFeed_exact 7 [stalledStart] (by simp [stalledStart])

/-- The sequence is there, but the start proc is not invoked. -/
theorem zrqFeed_stalled :
    ¬ (zrqFeed 7 zscanstateInit [stalledStart] = .ok (some (0, [98])) ↔
      FirstStart [stalledStart.buf] 0 [98]) := by
  have hfirst : FirstStart [stalledStart.buf] 0 [98] :=
    (firstStart_iff _ _ _).mpr (by decide)
  have hbails : (zrqFeed 7 zscanstateInit [stalledStart]).toBool = false := by decide +kernel
  intro h
  rw [h.mpr hfirst] at hbails
  cases hbails

end Rzh
