import Rzh.ZrqStart

/-!
# The start scanner as a filter of a stream

What goes into the fifo, what is withheld and, when a transfer starts, what is left
over are together the text that has come in.
-/
namespace Rzh

/-- The scanner states that non-empty packets lead to. -/
inductive ZrqReach : ZScanState → Prop where
  | init : ZrqReach zscanstateInit
  | scan {conn : ZScanState} {buf : List UInt8} (h : ZrqReach conn) (hbuf : buf ≠ []) :
    ZrqReach (zrqScan conn buf).conn

/-- What a scanner may hold back between two packets: an rz line, or stars and the start
of a header, behind an rz line or not. -/
inductive Withheld : List UInt8 → Prop where
  | line (z : GotRz) (hz : z ≠ .rznone) : Withheld (rzText z)
  | stars (z : GotRz) (m k : Nat) (hk : 1 ≤ k) (hk' : k ≤ 3) : Withheld (sequence z (m + 1) k)

/-- The outcome of a call, against the text it has had so far. -/
def Transparent (text : List UInt8) (o : ZrqOut) : Prop :=
  match o.start with
  | none => text = putBytes o.puts ++ pending o.conn ∧ Settled o.conn
  | some rest => o.conn = zscanstateInit ∧
      ∃ z m, text = putBytes o.puts ++ (sequence z (m + 1) 3 ++ ch0 :: rest)

theorem Transparent.after {text : List UInt8} {o : ZrqOut} (puts : List Put)
    (h : Transparent text o) : Transparent (putBytes puts ++ text) (o.after puts) := by
  unfold Transparent at h ⊢
  simp only [ZrqOut.after, putBytes_append]
  split at h
  · obtain ⟨ht, hs⟩ := h
    exact ⟨by rw [ht, List.append_assoc], hs⟩
  · obtain ⟨hc, z, m, ht⟩ := h
    exact ⟨hc, z, m, by rw [ht, List.append_assoc]⟩

/-- A round that has got as far as a sequence. -/
theorem After.transparent {z : GotRz} {m k : Nat} {cp : List UInt8} {p : Pass}
    (h : After z (m + 1) k cp p)
    (hnext : ∀ puts rest, p = .next puts zscanstateInit rest →
      Transparent rest (zrqLoop zscanstateInit rest)) :
    Transparent (sequence z (m + 1) k ++ cp) p.out := by
  cases h with
  | wait k' hk hk' h =>
    refine ⟨?_, .inr (.inr ⟨?_, ?_, ?_⟩)⟩
    · simp only [Pass.out, pending, Int.toNat_natCast, sequence, h, putBytes_nil, List.nil_append,
        List.append_assoc]
    all_goals
      simp only [Pass.out]
      omega
  | broken k' d cs puts hk hk' hd hcp hb hputs =>
    have htext : sequence z (m + 1) k ++ cp = putBytes puts ++ cs := by
      rw [hputs, hcp]
      simp [sequence, hd]
    rw [htext]
    exact (hnext puts cs rfl).after puts
  | found d rest hd hcp =>
    refine ⟨rfl, z, m, ?_⟩
    simp only [Pass.out, putBytes_nil, List.nil_append]
    rw [hcp]
    simp [sequence, hd]

theorem settled_init : Settled zscanstateInit := .inl rfl

theorem pending_init : pending zscanstateInit = [] := rfl

theorem Round.transparent {cp : List UInt8} {p : Pass} (h : Round cp p)
    (hnext : ∀ puts rest, p = .next puts zscanstateInit rest →
      Transparent rest (zrqLoop zscanstateInit rest)) : Transparent cp p.out := by
  cases h with
  | quiet puts hg hputs => exact ⟨by simp [Pass.out, hputs, pending_init], settled_init⟩
  | short g t puts hg hcp ht hputs =>
    exact ⟨by simp [Pass.out, hputs, pending_init], settled_init⟩
  | noZ g c cs puts hg hcp hc hputs =>
    have htext : cp = putBytes puts ++ c :: cs := by simp [hcp, hputs]
    rw [htext]
    exact (hnext puts _ rfl).after puts
  | noLine g c cs puts hg hcp hc hputs =>
    have htext : cp = putBytes puts ++ c :: cs := by simp [hcp, hputs]
    rw [htext]
    exact (hnext puts _ rfl).after puts
  | line g z puts hg hz hcp hputs =>
    refine ⟨?_, .inr (.inl ⟨rfl, hz, rfl⟩)⟩
    simp [Pass.out, hcp, hputs, pending, sequence, header]
  | lone g z c cs puts hg hz hcp hc hnl hputs =>
    rw [hcp, ← hputs]
    exact (hnext puts _ rfl).after puts
  | stars g z m cp' puts q hg hcp hputs h =>
    have htext : cp = putBytes puts ++ (sequence z (m + 1) 0 ++ cp') := by
      rw [hcp, hputs]
      simp [sequence, header]
    rw [htext, Pass.out_after]
    apply (h.transparent _).after puts
    intro ps rest hq
    subst hq
    exact hnext _ rest rfl

theorem zrqLoop_transparent (cp : List UInt8) : Transparent cp (zrqLoop zscanstateInit cp) := by
  apply zrqLoop_induct
  · exact ⟨rfl, settled_init⟩
  · intro cp p h hnext
    exact h.transparent hnext

theorem zrqScan_transparent_of_settled {conn : ZScanState} {buf : List UInt8} (hs : Settled conn)
    (hbuf : buf ≠ []) : Transparent (pending conn ++ buf) (zrqScan conn buf) := by
  have hloop : ∀ rest, Transparent rest (zrqLoop zscanstateInit rest) := zrqLoop_transparent
  obtain ⟨rfl, he⟩ | ⟨z, puts, hz, rfl, hc, hputs, he⟩ | ⟨z, m, cp', p, hz, rfl, hcp, h, he⟩ |
    ⟨z, m, k, p, hk, hk', rfl, h, he⟩ := zrqScan_cases conn buf hs hbuf
  · rw [he]
    exact hloop buf
  · have hpending : pending ⟨-1, z, 0⟩ = putBytes puts := by
      simp [pending, sequence, header, hputs]
    rw [he, hpending]
    exact (hloop buf).after puts
  · have htext : pending ⟨-1, z, 0⟩ ++ buf = sequence z (m + 1) 0 ++ cp' := by
      rw [hcp]
      simp [pending, sequence, header]
    rw [he, htext]
    exact h.transparent fun _ rest _ => hloop rest
  · have hpending : pending ⟨(k : Nat), z, m + 1⟩ = sequence z (m + 1) k := by
      simp only [pending, Int.toNat_natCast]
    rw [he, hpending]
    exact h.transparent fun _ rest _ => hloop rest

theorem ZrqReach.settled {conn : ZScanState} (h : ZrqReach conn) : Settled conn := by
  induction h with
  | init => exact settled_init
  | @scan conn buf h hbuf ih =>
    have htr := zrqScan_transparent_of_settled ih hbuf
    unfold Transparent at htr
    split at htr
    · exact htr.2
    · rw [htr.1]
      exact settled_init

theorem Settled.withheld {conn : ZScanState} (h : Settled conn) :
    pending conn = [] ∨ Withheld (pending conn) := by
  obtain ⟨st, z, m⟩ := conn
  rcases h with h | ⟨h1, h2, h3⟩ | ⟨h1, h2, h3⟩
  · rw [h]
    exact .inl rfl
  · obtain rfl : st = -1 := h1
    obtain rfl : m = 0 := h3
    right
    simpa [pending, sequence, header] using Withheld.line z h2
  · obtain ⟨m, rfl⟩ : ∃ m', m = m' + 1 := ⟨m - 1, by simp only at h3; omega⟩
    simp only at h1 h2
    exact .inr (.stars z m st.toNat (by omega) (by omega))

/-- Without a start, what a call appends and then withholds is what was withheld and then
came in, and it withholds no more than the beginning of a start sequence. At a start, the
text in front of the sequence is in the fifo when the drain begins, and the text behind
it is what is left when the start proc is invoked. -/
def Filters (f : Fifo) (conn : ZScanState) (buf : List UInt8) (fd : Int) (k : Kernel) : Prop :=
  (∃ app c, zrqScanCall f conn buf fd k = .ok c ∧ c.started = none ∧ c.kernel = k ∧
    c.fifo.contents = f.contents ++ app ∧ app ++ pending c.conn = pending conn ++ buf ∧
    (pending c.conn = [] ∨ Withheld (pending c.conn))) ∨
  (∃ app z m rest f', pending conn ++ buf =
      app ++ rzText z ++ List.replicate (m + 1) chStar ++ header 3 ++ ch0 :: rest ∧
    f'.contents = f.contents ++ app ∧ (zrqScan conn buf).conn = zscanstateInit ∧
    zrqScanCall f conn buf fd k =
      (zscanPrepare f' fd k).map fun (f, k) => ⟨f, zscanstateInit, k, some rest⟩)

/-- Given room, zrq_scan is transparent in every state that it can be in. -/
theorem zrqScan_transparent {conn : ZScanState} (h : ZrqReach conn) {buf : List UInt8}
    (hbuf : buf ≠ []) (f : Fifo) (hroom : (pending conn).length + buf.length ≤ fifoAvail f)
    (fd : Int) (k : Kernel) : Filters f conn buf fd k := by
  have htr := zrqScan_transparent_of_settled h.settled hbuf
  have hlen : (putBytes (zrqScan conn buf).puts).length ≤ (pending conn ++ buf).length := by
    unfold Transparent at htr
    split at htr
    · rw [htr.1, List.length_append]
      omega
    · obtain ⟨-, z, m, ht⟩ := htr
      rw [ht, List.length_append]
      omega
  rw [List.length_append] at hlen
  have hcontents := runPuts_contents f (zrqScan conn buf).puts (by rw [← fifoAvail_eq]; omega)
  unfold Transparent at htr
  split at htr
  · next hstart =>
    left
    refine ⟨_, ⟨runPuts f (zrqScan conn buf).puts, (zrqScan conn buf).conn, k, none⟩, ?_, rfl, rfl,
      hcontents, htr.1.symm, htr.2.withheld⟩
    simp only [zrqScanCall, hstart]
  · next rest hstart =>
    right
    obtain ⟨hconn, z, m, ht⟩ := htr
    refine ⟨_, z, m, rest, _, ?_, hcontents, hconn, ?_⟩
    · rw [ht]
      simp [sequence]
    · simp only [zrqScanCall, hstart, hconn]
      cases zscanPrepare (runPuts f (zrqScan conn buf).puts) fd k <;> rfl

/-- A packet that ends inside a header, and then the rest of it. -/
theorem zrqScan_transparent_header :
    Filters (fifoInit bufsiz bufsiz_pos) ⟨2, .rznone, 2⟩ [ch0, ch0, 97] 7 ⟨[], [], [], none, []⟩ :=
  zrqScan_transparent
    (by
      have h : (zrqScan zscanstateInit [chStar, chStar, chCan, chB]).conn = ⟨2, .rznone, 2⟩ := by
        decide +kernel
      exact h ▸ .scan .init (by decide))
    (by decide) _ (by decide +kernel) _ _

end Rzh
