import Mathlib.Data.Nat.ModEq
import Rzh.ZrqStart

/-!
# Fill levels

How full a ring is does not depend on the bytes in it. What fifo_write and the drains of zrq.c take
follows from where the queue begins, how long it is and what write() answers.
-/
namespace Rzh

open Circular

/-- A ring without its bytes. -/
structure Level where
  size : Nat
  beg : Nat
  count : Nat
  deriving DecidableEq, Repr

def Fifo.level (f : Fifo) : Level := ⟨f.size, f.beg, fifoCount f⟩

namespace Level

def room (l : Level) : Nat := l.size - 1 - l.count

/-- Bytes are appended; those that run over count only modulo the size. -/
def append (l : Level) (n : Nat) : Level := { l with count := (l.count + n) % l.size }

/-- One write of the queue: the errno of a write that has failed, what it leaves, and the answers left
for later. The queue is offered in two pieces if it runs over the end of the cells. -/
def write (l : Level) (ws : List WriteRes) : Option Errno × Level × List WriteRes :=
  if l.count = 0 then (none, l, ws)
  else
    match retryWrite ws with
    | (.fail e, ws) => (some e, l, ws)
    | (.accept k, ws) =>
      let n := min k (min l.count (l.size - l.beg))
      if l.beg + n < l.size then (none, ⟨l.size, l.beg + n, l.count - n⟩, ws)
      else
        match retryWrite ws with
        | (.fail _, ws) => (none, ⟨l.size, 0, l.count - n⟩, ws)
        | (.accept k, ws) =>
          let m := min k (l.count - n)
          (none, ⟨l.size, m, l.count - n - m⟩, ws)

/-- Writes until the level is as wanted; after the last of the `tries` it is too late. -/
def drain (done : Level → Bool) : Nat → Level → List WriteRes → Option (Level × List WriteRes)
  | 0, _, _ => none
  | tries + 1, l, ws =>
    if done l then some (l, ws)
    else drain done tries (l.write ws).2.1 (l.write ws).2.2

end Level

/-- Where the queue ends, around the ring. -/
theorem Fifo.stop_modEq (f : Fifo) : f.beg + f.count ≡ f.stop [MOD f.size] := by
  have hb := f.beg_lt
  rw [f.count_eq]
  split
  · rw [Nat.add_sub_cancel' (by omega)]
  · rw [Nat.add_sub_cancel' (by omega), Nat.ModEq, Nat.add_mod_left]

theorem Fifo.level_append {f f' : Fifo} {n : Nat} (hsize : f'.size = f.size) (hbeg : f'.beg = f.beg)
    (hstop : f'.stop = (f.stop + n) % f.size) : f'.level = f.level.append n := by
  have hmod : f'.count ≡ f.count + n [MOD f.size] := by
    have hend := f'.stop_modEq
    rw [hbeg, hsize, hstop] at hend
    apply Nat.ModEq.add_left_cancel' f.beg
    calc f.beg + f'.count ≡ (f.stop + n) % f.size [MOD f.size] := hend
      _ ≡ f.stop + n [MOD f.size] := Nat.mod_modEq _ _
      _ ≡ f.beg + f.count + n [MOD f.size] := (f.stop_modEq.symm).add_right n
      _ = f.beg + (f.count + n) := Nat.add_assoc _ _ _
  have hlt : f'.count < f.size := by
    rw [← hsize]
    exact f'.count_lt
  rw [Fifo.level, Fifo.level, Level.append, hsize, hbeg]
  congr 1
  rw [fifoCount_eq, fifoCount_eq, ← Nat.mod_eq_of_lt hlt]
  exact hmod

section Drains

variable {l l' : Level} {ws ws' : List WriteRes}

theorem Level.write_count_le (l : Level) (ws : List WriteRes) : (l.write ws).2.1.count ≤ l.count := by
  rw [write]
  split
  · exact Nat.le_refl _
  · split
    · exact Nat.le_refl _
    · simp only
      split
      · exact Nat.sub_le _ _
      · split
        · exact Nat.sub_le _ _
        · exact (Nat.sub_le _ _).trans (Nat.sub_le _ _)

/-- A drain ends at a level as wanted, and writes only if it has not begun at one. -/
theorem Level.drain_some {done : Level → Bool} {tries : Nat} (h : l.drain done tries ws = some (l', ws')) :
    done l' = true ∧ l'.count ≤ l.count ∧ (l' = l ∨ done l = false) := by
  induction tries generalizing l ws with
  | zero => cases h
  | succ tries ih =>
    rw [drain] at h
    split at h
    · next hd =>
      cases h
      exact ⟨hd, Nat.le_refl _, .inl rfl⟩
    · next hd =>
      obtain ⟨hdone, hle, -⟩ := ih h
      exact ⟨hdone, hle.trans (l.write_count_le ws), .inr (Bool.eq_false_iff.mpr hd)⟩

end Drains

section Writes

variable {f f' : Fifo} {fd : Int} {k k' : Kernel} {len : Nat}

theorem Fifo.level_room (f : Fifo) : f.level.room = fifoAvail f := by
  have hsum := f.count_add_avail
  rw [Level.room, Fifo.level, fifoCount_eq, fifoAvail_eq]
  simp only
  omega

/-- One write loop, by the answer of write(). -/
theorem fifoWriteBlock_takes (f : Fifo) (len : Nat) (k : Kernel) (hfd : 0 ≤ fd) :
    (∃ e k', retryWrite k.writes = (.fail e, k'.writes) ∧ k'.errno = some e ∧
        fifoWriteBlock f fd len k = (none, f, k')) ∨
      ∃ n k', retryWrite k.writes = (.accept n, k'.writes) ∧
        fifoWriteBlock f fd len k = (some (min n len), f.advance (min n len), k') := by
  rw [fifoWriteBlock, Kernel.write, if_neg (by omega), block_length]
  generalize retryWrite k.writes = res
  obtain ⟨r, ws⟩ := res
  cases r with
  | fail e => exact .inl ⟨e, _, rfl, rfl, rfl⟩
  | accept n => exact .inr ⟨n, _, rfl, rfl⟩

theorem Fifo.advance_level (f : Fifo) {n : Nat} (hn : n ≤ fifoCount f) :
    (f.advance n).level = ⟨f.size, (f.beg + n) % f.size, fifoCount f - n⟩ := by
  have hb := f.beg_lt
  have hs := f.stop_lt
  have hcount := f.count_eq
  have hcount' := (f.advance n).count_eq
  have hbeg : (f.advance n).beg = (f.beg + n) % f.size := rfl
  have hsize : (f.advance n).size = f.size := rfl
  have hstop : (f.advance n).stop = f.stop := rfl
  have hsum := f.count_add_avail
  rw [fifoCount_eq] at hn
  rw [Fifo.level, fifoCount_eq, fifoCount_eq, hbeg, hsize]
  congr 1
  rw [hbeg, hsize, hstop] at hcount'
  by_cases hwrap : f.beg + n < f.size
  · rw [Nat.mod_eq_of_lt hwrap] at hcount'
    split at hcount <;> split at hcount' <;> omega
  · rw [Buffer.mod_of_wrap (by omega)] at hcount'
    rw [if_neg hwrap] at hcount'
    split at hcount <;> split at hcount' <;> omega

/-- A call of fifo_write has come to what the level says: the level, the answers that are left, and -1 with its errno
for an error. -/
structure Follows (out : Int × Fifo × Kernel) (l : Option Errno × Level × List WriteRes) : Prop where
  level : out.2.1.level = l.2.1
  writes : out.2.2.writes = l.2.2
  fails : out.1 = -1 ↔ l.1 ≠ none
  errno : ∀ e, l.1 = some e → out.2.2.errno = some e

/-- A count is never taken for an error. -/
theorem Follows.counts {cnt : Int} {l : Level} (hcnt : 0 ≤ cnt) (hlevel : f.level = l) :
    Follows (cnt, f, k) (none, l, k.writes) := by
  refine ⟨hlevel, rfl, ⟨fun herror => ?_, fun hnone => absurd rfl hnone⟩, fun e he => ?_⟩
  · have hneg : cnt = -1 := herror
    omega
  · cases he

theorem Follows.failed {e : Errno} {l : Level} (herrno : k.errno = some e) (hlevel : f.level = l) :
    Follows (-1, f, k) (some e, l, k.writes) := by
  refine ⟨hlevel, rfl, ⟨fun _ => Option.some_ne_none e, fun _ => rfl⟩, fun e' he => ?_⟩
  obtain rfl := Option.some.inj he
  exact herrno

/-- A queue that does not run over the end of the cells. -/
theorem fifoWrite_straight (f : Fifo) (k : Kernel) (hfd : 0 ≤ fd) (hlt : f.beg < f.stop) :
    Follows (fifoWrite f fd k) (f.level.write k.writes) := by
  have hs := f.stop_lt
  have hcount := f.count_eq
  have hlevel : f.level = ⟨f.size, f.beg, f.count⟩ := rfl
  rw [if_pos (by omega)] at hcount
  rw [fifoWrite, if_pos hlt, Level.write, hlevel, if_neg (by show f.count ≠ 0; omega)]
  obtain ⟨e, k', hretry, herrno, he⟩ | ⟨n, k', hretry, he⟩ := fifoWriteBlock_takes f (f.stop - f.beg) k hfd
  · rw [hretry, he]
    exact .failed herrno hlevel
  · have hmin : min n (min f.count (f.size - f.beg)) = min n (f.stop - f.beg) := by omega
    rw [hretry, he]
    simp only
    rw [hmin, if_pos (by omega)]
    refine .counts (Int.natCast_nonneg _) ?_
    rw [f.advance_level (by rw [fifoCount_eq]; omega), Nat.mod_eq_of_lt (by omega), fifoCount_eq]

/-- The cells from zero on, once those up to the end have been written. -/
theorem Fifo.advance_front {g : Fifo} (hbeg : g.beg = 0) (hcount : fifoCount g = g.stop) (n : Nat) :
    (g.advance (min n g.stop)).level = ⟨g.size, min n g.stop, g.stop - min n g.stop⟩ := by
  have hs := g.stop_lt
  rw [g.advance_level (by omega), hbeg, hcount, Nat.zero_add, Nat.mod_eq_of_lt (by omega)]

/-- A queue that does. -/
theorem fifoWrite_around (f : Fifo) (k : Kernel) (hfd : 0 ≤ fd) (hlt : f.stop < f.beg) :
    Follows (fifoWrite f fd k) (f.level.write k.writes) := by
  have hb := f.beg_lt
  have hcount := f.count_eq
  have hlevel : f.level = ⟨f.size, f.beg, f.count⟩ := rfl
  rw [if_neg (by omega)] at hcount
  rw [fifoWrite, if_neg (by omega), if_pos hlt, Level.write, hlevel, if_neg (by show f.count ≠ 0; omega)]
  obtain ⟨e, k', hretry, herrno, he⟩ | ⟨n, k', hretry, he⟩ := fifoWriteBlock_takes f (f.size - f.beg) k hfd
  · rw [hretry, he]
    exact .failed herrno hlevel
  · have hmin : min n (min f.count (f.size - f.beg)) = min n (f.size - f.beg) := by omega
    have hfirst := f.advance_level (n := min n (f.size - f.beg)) (by rw [fifoCount_eq]; omega)
    have hbeg : (f.advance (min n (f.size - f.beg))).beg = (f.beg + min n (f.size - f.beg)) % f.size := rfl
    rw [hretry, he]
    simp only
    rw [hmin]
    by_cases hwrap : f.beg + min n (f.size - f.beg) < f.size
    · rw [Nat.mod_eq_of_lt hwrap] at hbeg hfirst
      rw [if_pos hwrap, if_neg (by rw [hbeg]; omega)]
      exact .counts (Int.natCast_nonneg _) hfirst
    · have hend : f.beg + min n (f.size - f.beg) = f.size := by omega
      rw [hend, Nat.mod_self] at hbeg hfirst
      rw [if_neg hwrap, if_pos ⟨by omega, hbeg⟩]
      generalize hg : f.advance (min n (f.size - f.beg)) = g at *
      have hleft : fifoCount g = f.count - min n (f.size - f.beg) := congrArg Level.count hfirst
      have hsize : g.size = f.size := congrArg Level.size hfirst
      have hstop : g.stop = f.stop := by rw [← hg]; rfl
      have hqueue : f.count - min n (f.size - f.beg) = g.stop := by omega
      obtain ⟨e, k'', hretry', -, he'⟩ | ⟨m, k'', hretry', he'⟩ := fifoWriteBlock_takes g g.stop k' hfd
      · rw [hretry', he']
        exact .counts (Int.natCast_nonneg _) hfirst
      · rw [hretry', he', hqueue]
        refine .counts (by omega) ?_
        rw [Fifo.advance_front hbeg (hleft.trans hqueue), hsize]

/-- fifo_write takes what the level says, and answers -1 for an error of its first write() alone. -/
theorem fifoWrite_level (f : Fifo) (k : Kernel) (hfd : 0 ≤ fd) :
    Follows (fifoWrite f fd k) (f.level.write k.writes) := by
  obtain hlt | heq | hgt := Nat.lt_trichotomy f.beg f.stop
  · exact fifoWrite_straight f k hfd hlt
  · have hempty : f.count = 0 := (Buffer.count_eq_zero_iff f.toBuffer).mpr heq
    have hlevel : f.level = ⟨f.size, f.beg, f.count⟩ := rfl
    rw [fifoWrite, if_neg (by omega), if_neg (by omega), Level.write, hlevel, if_pos hempty]
    exact .counts (le_refl 0) hlevel
  · exact fifoWrite_around f k hfd hgt

/-- The drains of zrq.c come to where the level does. -/
theorem drainLoop_level {done : Fifo → Bool} {level : Level → Bool} (hdone : ∀ f, done f = level f.level)
    (hfd : 0 ≤ fd) {tries : Nat} (h : drainLoop done fd tries f k = .ok (f', k')) :
    f.level.drain level tries k.writes = some (f'.level, k'.writes) := by
  induction tries generalizing f k with
  | zero => cases h
  | succ tries ih =>
    rw [drainLoop] at h
    rw [Level.drain, ← hdone]
    split at h
    · next hd =>
      cases h
      rw [if_pos hd]
    · next hd =>
      obtain ⟨hlevel, hwrites, -, -⟩ := fifoWrite_level f k hfd
      rw [if_neg hd, ← hlevel, ← hwrites]
      exact ih h

theorem fifoDrainCompletely_level (hfd : 0 ≤ fd) (h : fifoDrainCompletely f fd k = .ok (f', k')) :
    f.level.drain (·.count = 0) 5 k.writes = some (f'.level, k'.writes) :=
  drainLoop_level (fun _ => rfl) hfd h

theorem zscanMakeRoom_level (hfd : 0 ≤ fd) (h : zscanMakeRoom f fd len k = .ok (f', k')) :
    f.level.drain (len ≤ ·.room) 5 k.writes = some (f'.level, k'.writes) := by
  rw [zscanMakeRoom] at h
  split at h
  · exact drainLoop_level (fun f => by rw [f.level_room]) hfd h
  · next hroom =>
    cases h
    rw [Level.drain, f.level_room, if_pos (decide_eq_true (Nat.not_lt.mp hroom))]

end Writes

section Appends

/-- Appends that run over count only modulo the size. -/
theorem runPuts_indices (f : Fifo) (puts : List Put) :
    (runPuts f puts).beg = f.beg ∧ (runPuts f puts).stop = (f.stop + (putBytes puts).length) % f.size := by
  induction puts generalizing f with
  | nil =>
    rw [runPuts_nil, putBytes_nil, List.length_nil, Nat.add_zero, Nat.mod_eq_of_lt f.stop_lt]
    exact ⟨rfl, rfl⟩
  | cons p ps ih =>
    obtain ⟨hbeg, hstop⟩ := ih (p.run f)
    rw [Put.run_eq] at hbeg hstop
    rw [runPuts_cons, Put.run_eq, hbeg, hstop, putBytes_cons, List.length_append, ← Nat.add_assoc]
    refine ⟨rfl, ?_⟩
    rw [fifoUnsafeAppend_size]
    exact Nat.mod_add_mod _ _ _

theorem fifoUnsafeAppend_level (f : Fifo) (buf : List UInt8) :
    (fifoUnsafeAppend f buf).level = f.level.append buf.length :=
  Fifo.level_append rfl rfl rfl

theorem runPuts_level (f : Fifo) (puts : List Put) :
    (runPuts f puts).level = f.level.append (putBytes puts).length := by
  obtain ⟨hbeg, hstop⟩ := runPuts_indices f puts
  exact Fifo.level_append (runPuts_size f puts) hbeg hstop

end Appends

end Rzh
