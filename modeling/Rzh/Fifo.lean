import Rzh.Circular
import Rzh.Kernel

/-!
# fifo.c

The ring of bytes between two descriptors. The field `stop` is the source's
`end`. The unsafe operations are total here: called without the room or the data
they ask for, they do to the ring what the code does, and `toList` then shows
what has been lost.
-/
namespace Rzh

open Circular

/-- A signed 32-bit counter. -/
def wrapInt (n : Int) : Int := Int.bmod n 0x100000000

theorem wrapInt_of_range {n : Int} (hlo : -0x80000000 ≤ n) (hhi : n < 0x80000000) :
    wrapInt n = n := by
  rw [wrapInt, Int.bmod_def]
  split <;> omega

/-- The filter procs that the program installs on a fifo. -/
inductive FifoProc where
  | echoScannerFilterProc
  | zfinScan | zfinNooo | zfinSave | zfinTerm | zfinDrop
  deriving DecidableEq, Repr

/-- What a proc's refcon points to: a start scanner, an end scanner, or nothing. -/
inductive Refcon where
  | null
  | zscan (addr : Nat)
  | zfin (addr : Nat)
  deriving DecidableEq, Repr

structure Fifo extends Buffer UInt8 where
  proc : Option FifoProc
  refcon : Refcon

/-- The stdio constant that bounds one read. -/
def bufsiz : Nat := 8192

theorem bufsiz_pos : 0 < bufsiz := Nat.succ_pos 8191

namespace Fifo

variable (f : Fifo)

abbrev contents : List UInt8 := f.toBuffer.toList

end Fifo

def fifoInit (size : Nat) (h : 0 < size) : Fifo :=
  { size := size, buf := fun _ => 0, beg := 0, stop := 0, beg_lt := h, stop_lt := h
    proc := none, refcon := .null }

def fifoCount (f : Fifo) : Nat := (f.size + f.stop - f.beg) % f.size

def fifoAvail (f : Fifo) : Nat := (f.size + f.beg - f.stop - 1) % f.size

def fifoUnsafeAddchar (f : Fifo) (c : UInt8) : Fifo :=
  { f with
    buf := blit f.buf f.stop [c]
    stop := if f.stop + 1 = f.size then 0 else f.stop + 1
    stop_lt := by have := f.stop_lt; split <;> omega }

def fifoUnsafeAppend (f : Fifo) (buf : List UInt8) : Fifo :=
  let cnt := buf.length
  { f with
    buf :=
      if f.stop + cnt > f.size then
        let n := f.size - f.stop
        blit (blit f.buf f.stop (buf.take n)) 0 (buf.drop n)
      else blit f.buf f.stop buf
    stop := (f.stop + cnt) % f.size
    stop_lt := Nat.mod_lt _ f.size_pos }

/-- One of the three write loops of fifo_write: it offers the `len` bytes from `beg`
on and moves `beg` over those accepted. Only the second loop takes the sum modulo
`size`; in the other two the sum stays below it. -/
def fifoWriteBlock (f : Fifo) (fd : Int) (len : Nat) (k : Kernel) : Option Nat × Fifo × Kernel :=
  match k.write fd (block f.buf f.beg len) with
  | (none, k) => (none, f, k)
  | (some cnt, k) =>
    (some cnt, { f with
      beg := (f.beg + cnt) % f.size
      beg_lt := Nat.mod_lt _ f.size_pos }, k)

/-- The ring whose first index has been moved over `n` cells. -/
def Fifo.advance (f : Fifo) (n : Nat) : Fifo :=
  { f with
    beg := (f.beg + n) % f.size
    beg_lt := Nat.mod_lt _ f.size_pos }

/-- First the bytes up to the end of the cells, then, if all of them were
accepted, those that start again at cell zero. -/
def fifoWrite (f : Fifo) (fd : Int) (k : Kernel) : Int × Fifo × Kernel :=
  if f.beg < f.stop then
    match fifoWriteBlock f fd (f.stop - f.beg) k with
    | (none, f, k) => (-1, f, k)
    | (some cnt, f, k) => (cnt, f, k)
  else if f.stop < f.beg then
    match fifoWriteBlock f fd (f.size - f.beg) k with
    | (none, f, k) => (-1, f, k)
    | (some cnt, f, k) =>
      if 0 < cnt ∧ f.beg = 0 then
        match fifoWriteBlock f fd f.stop k with
        | (none, f, k) => (cnt, f, k)
        | (some n, f, k) => (cnt + n, f, k)
      else (cnt, f, k)
  else (0, f, k)

@[simp] theorem fifoCount_eq (f : Fifo) : fifoCount f = f.toBuffer.count := rfl
@[simp] theorem fifoAvail_eq (f : Fifo) : fifoAvail f = f.toBuffer.avail := rfl

@[simp] theorem fifoInit_contents (size : Nat) (h : 0 < size) : (fifoInit size h).contents = [] := by
  rw [Fifo.contents, Buffer.toList_eq_nil_iff, Buffer.count_eq_zero_iff]
  rfl

@[simp] theorem fifoUnsafeAppend_size (f : Fifo) (buf : List UInt8) :
    (fifoUnsafeAppend f buf).size = f.size := rfl
@[simp] theorem fifoUnsafeAppend_proc (f : Fifo) (buf : List UInt8) :
    (fifoUnsafeAppend f buf).proc = f.proc := rfl
@[simp] theorem fifoUnsafeAppend_refcon (f : Fifo) (buf : List UInt8) :
    (fifoUnsafeAppend f buf).refcon = f.refcon := rfl

/-- One character more is a block of one: the two wrap tests agree inside the ring. -/
theorem fifoUnsafeAddchar_eq_append (f : Fifo) (c : UInt8) :
    fifoUnsafeAddchar f c = fifoUnsafeAppend f [c] := by
  have hs := f.stop_lt
  have hw : ¬ f.stop + 1 > f.size := by omega
  have hm : (if f.stop + 1 = f.size then 0 else f.stop + 1) = (f.stop + 1) % f.size := by
    split
    · next he => rw [he, Nat.mod_self]
    · exact (Nat.mod_eq_of_lt (by omega)).symm
  simp only [fifoUnsafeAddchar, fifoUnsafeAppend, List.length_singleton, if_neg hw, hm]

/-- Where an append puts its bytes, and that it leaves every other cell alone. -/
theorem fifoUnsafeAppend_buf (f : Fifo) (buf : List UInt8) (h : buf.length ≤ f.avail) (j : Nat)
    (hj : j < f.size) :
    (fifoUnsafeAppend f buf).buf j =
      if h' : (if f.stop ≤ j then j - f.stop else j + f.size - f.stop) < buf.length then
        buf[if f.stop ≤ j then j - f.stop else j + f.size - f.stop] else f.buf j := by
  have hs := f.stop_lt
  have hsum := f.count_add_avail
  simp only [fifoUnsafeAppend]
  by_cases hw : f.stop + buf.length > f.size
  · simp only [if_pos hw, blit, List.length_drop, List.length_take, List.getElem_drop,
      List.getElem_take]
    by_cases hle : f.stop ≤ j
    · simp only [if_pos hle]
      rw [dif_neg (by omega), dif_pos (by omega), dif_pos (by omega)]
    · simp only [if_neg hle]
      by_cases hin : j + f.size - f.stop < buf.length
      · rw [dif_pos (by omega), dif_pos hin]
        congr 1
        omega
      · rw [dif_neg (by omega), dif_neg (by omega), dif_neg hin]
  · simp only [if_neg hw, blit]
    by_cases hle : f.stop ≤ j
    · simp only [if_pos hle]
      by_cases hin : j - f.stop < buf.length
      · rw [dif_pos ⟨hle, hin⟩, dif_pos hin]
      · rw [dif_neg (by omega), dif_neg hin]
    · simp only [if_neg hle]
      rw [dif_neg (by omega), dif_neg (by omega)]

/-- The same, with the place of the cell behind `stop` given. -/
theorem fifoUnsafeAppend_cell (f : Fifo) (buf : List UInt8) (h : buf.length ≤ f.avail) {j i : Nat}
    (hj : j < f.size) (hi : i = if f.stop ≤ j then j - f.stop else j + f.size - f.stop) :
    (fifoUnsafeAppend f buf).buf j = (buf[i]?).getD (f.buf j) := by
  rw [fifoUnsafeAppend_buf f buf h j hj]
  simp only [← hi]
  by_cases hlt : i < buf.length
  · rw [dif_pos hlt, List.getElem?_eq_getElem hlt, Option.getD_some]
  · rw [dif_neg hlt, List.getElem?_eq_none (by omega), Option.getD_none]

/-- Memory behind the ring is not touched. -/
theorem fifoUnsafeAppend_buf_outside (f : Fifo) (buf : List UInt8) (h : buf.length ≤ f.avail)
    (j : Nat) (hj : f.size ≤ j) : (fifoUnsafeAppend f buf).buf j = f.buf j := by
  have hs := f.stop_lt
  have hsum := f.count_add_avail
  simp only [fifoUnsafeAppend]
  split
  · simp only [blit, List.length_drop, List.length_take]
    rw [dif_neg (by omega), dif_neg (by omega)]
  · simp only [blit]
    rw [dif_neg (by omega)]

/-- With room for it, an append adds its bytes at the back and nothing else. -/
theorem fifoUnsafeAppend_contents (f : Fifo) (buf : List UInt8) (h : buf.length ≤ f.avail) :
    (fifoUnsafeAppend f buf).contents = f.contents ++ buf := by
  have hb := f.beg_lt
  have hs := f.stop_lt
  have hsum := f.count_add_avail
  have hc := f.count_eq
  apply f.toBuffer.toList_push (fifoUnsafeAppend f buf).toBuffer rfl rfl rfl h
  · intro i hi
    have hidx := f.index_eq i (by omega)
    have hlt : (f.beg + i) % f.size < f.size := Nat.mod_lt _ f.size_pos
    change (fifoUnsafeAppend f buf).buf ((f.beg + i) % f.size) = f.buf ((f.beg + i) % f.size)
    rw [fifoUnsafeAppend_buf f buf h _ hlt, dif_neg]
    rw [hidx]
    split at hc <;> split <;> split <;> omega
  · intro i hi
    have hidx := f.index_eq (f.count + i) (by omega)
    have hlt : (f.beg + (f.count + i)) % f.size < f.size := Nat.mod_lt _ f.size_pos
    change (fifoUnsafeAppend f buf).buf ((f.beg + (f.count + i)) % f.size) = buf[i]
    have he : (if f.stop ≤ (f.beg + (f.count + i)) % f.size then
        (f.beg + (f.count + i)) % f.size - f.stop
        else (f.beg + (f.count + i)) % f.size + f.size - f.stop) = i := by
      rw [hidx]
      split at hc <;> split <;> split <;> omega
    rw [fifoUnsafeAppend_buf f buf h _ hlt, dif_pos (by omega)]
    congr 1

/-- Moving `beg` over `n` occupied cells takes those bytes off the front. -/
theorem contents_advance (f f' : Fifo) {n : Nat} (hsize : f'.size = f.size) (hbuf : f'.buf = f.buf)
    (hstop : f'.stop = f.stop) (hbeg : f'.beg = (f.beg + n) % f.size) (hn : n ≤ f.count) :
    f.contents = f.contents.take n ++ f'.contents := by
  have h := f.toBuffer.toList_drop f'.toBuffer hsize hbuf hstop hbeg hn
  rw [Fifo.contents, Fifo.contents, h, List.take_append_drop]

/-- What a write leaves of the ring: all but `beg`, and the bytes `sent` are gone
from the front of the contents because the descriptor has them. -/
structure Wrote (fd : Int) (sent : List UInt8) (f f' : Fifo) (k k' : Kernel) : Prop where
  contents : f.contents = sent ++ f'.contents
  sent : Sent fd sent k k'
  size : f'.size = f.size
  buf : f'.buf = f.buf
  stop : f'.stop = f.stop
  proc : f'.proc = f.proc
  refcon : f'.refcon = f.refcon

namespace Wrote

variable {fd : Int} {bs cs : List UInt8} {f f' f'' : Fifo} {k k' k'' : Kernel}

theorem nothing (f : Fifo) (h : Sent fd [] k k') : Wrote fd [] f f k k' :=
  ⟨rfl, h, rfl, rfl, rfl, rfl, rfl⟩

theorem trans (h : Wrote fd bs f f' k k') (h' : Wrote fd cs f' f'' k' k'') :
    Wrote fd (bs ++ cs) f f'' k k'' where
  contents := by rw [h.contents, h'.contents, List.append_assoc]
  sent := h.sent.trans h'.sent
  size := h'.size.trans h.size
  buf := h'.buf.trans h.buf
  stop := h'.stop.trans h.stop
  proc := h'.proc.trans h.proc
  refcon := h'.refcon.trans h.refcon

end Wrote

/-- One write loop, offered the start of the contents. -/
theorem fifoWriteBlock_cases (f : Fifo) (fd : Int) (len : Nat) (k : Kernel) (hlen : len ≤ f.count)
    (hblock : f.contents.take len = block f.buf f.beg len) :
    (∃ k', fifoWriteBlock f fd len k = (none, f, k') ∧ Sent fd [] k k') ∨
    (∃ n f' k', fifoWriteBlock f fd len k = (some n, f', k') ∧ n ≤ len ∧
      f'.beg = (f.beg + n) % f.size ∧ Wrote fd (f.contents.take n) f f' k k') := by
  unfold fifoWriteBlock
  obtain ⟨k', he, hs⟩ | ⟨n, k', he, hn, hs⟩ := k.write_cases fd (block f.buf f.beg len)
  · rw [he]
    exact .inl ⟨k', rfl, hs⟩
  · rw [he]
    rw [block_length] at hn
    refine .inr ⟨n, _, k', rfl, hn, rfl, ?_, ?_, rfl, rfl, rfl, rfl, rfl⟩
    · exact contents_advance f _ rfl rfl rfl rfl (by omega)
    · rw [← hblock, List.take_take, Nat.min_eq_left hn] at hs
      exact hs

/-- fifo_write as a whole: its return value counts the bytes that have gone from the
front of the ring to the descriptor, or is -1 and nothing has moved. -/
theorem fifoWrite_wrote (f : Fifo) (fd : Int) (k : Kernel) :
    ∃ sent, Wrote fd sent f (fifoWrite f fd k).2.1 k (fifoWrite f fd k).2.2 ∧
      ((fifoWrite f fd k).1 = sent.length ∨ (fifoWrite f fd k).1 = -1 ∧ sent = []) := by
  have hb := f.beg_lt
  have hs := f.stop_lt
  unfold fifoWrite
  split
  · next hlt =>
    have hc : f.count = f.stop - f.beg := by rw [Buffer.count_eq, if_pos (by omega)]
    have hblock : f.contents.take (f.stop - f.beg) = block f.buf f.beg (f.stop - f.beg) := by
      rw [Fifo.contents, f.toList_of_le (by omega), List.take_of_length_le (by simp)]
    obtain ⟨k', he, h⟩ | ⟨n, f', k', he, hn, -, h⟩ :=
      fifoWriteBlock_cases f fd _ k (by omega) hblock
    · rw [he]
      exact ⟨[], .nothing f h, .inr ⟨rfl, rfl⟩⟩
    · rw [he]
      refine ⟨_, h, .inl ?_⟩
      rw [List.length_take, Buffer.toList_length, Nat.min_eq_left (by omega)]
  · split
    · next hlt =>
      have hc : f.count = f.size + f.stop - f.beg := by rw [Buffer.count_eq, if_neg (by omega)]
      have hblock : f.contents.take (f.size - f.beg) = block f.buf f.beg (f.size - f.beg) := by
        rw [Fifo.contents, f.toList_of_lt hlt, List.take_append_of_le_length (by simp),
          List.take_of_length_le (by simp)]
      obtain ⟨k', he, h⟩ | ⟨n, f', k', he, hn, hbeg, h⟩ :=
        fifoWriteBlock_cases f fd _ k (by omega) hblock
      · rw [he]
        exact ⟨[], .nothing f h, .inr ⟨rfl, rfl⟩⟩
      · rw [he]
        have hlen : (f.contents.take n).length = n := by
          rw [List.length_take, Buffer.toList_length, Nat.min_eq_left (by omega)]
        simp only
        split
        · next hz =>
          -- all bytes up to the end have gone, so the rest lies in one block from cell zero
          have hle : f'.beg ≤ f'.stop := by omega
          have hst := f'.stop_lt
          have hc' : f'.count = f'.stop := by
            rw [Buffer.count_eq, if_pos hle]
            omega
          have hblock' : f'.contents.take f'.stop = block f'.buf f'.beg f'.stop := by
            rw [Fifo.contents, f'.toList_of_le hle, hz.2, Nat.sub_zero,
              List.take_of_length_le (by simp)]
          obtain ⟨k'', he', h'⟩ | ⟨m, f'', k'', he', hm, -, h'⟩ :=
            fifoWriteBlock_cases f' fd _ k' (by omega) hblock'
          · rw [he']
            exact ⟨_, h.trans (.nothing f' h'), .inl (by simp [hlen])⟩
          · rw [he']
            refine ⟨_, h.trans h', .inl ?_⟩
            rw [List.length_append, hlen, List.length_take, Buffer.toList_length,
              Nat.min_eq_left (by omega), Int.natCast_add]
        · exact ⟨_, h, .inl (by rw [hlen])⟩
    · exact ⟨[], .nothing f (.refl fd k), .inl rfl⟩

/-- A descriptor that accepts something accepts something of what is queued. -/
theorem fifoWrite_pos {f : Fifo} {fd : Int} {k : Kernel} {n : Nat} {ws : List WriteRes} (hfd : 0 ≤ fd)
    (hne : fifoCount f ≠ 0) (hk : retryWrite k.writes = (.accept (n + 1), ws)) :
    0 < (fifoWrite f fd k).1 := by
  have hb := f.beg_lt
  have hs := f.stop_lt
  have hblock : ∀ len, 0 < len → ∃ cnt f' k', fifoWriteBlock f fd len k = (some cnt, f', k') ∧ 0 < cnt := by
    intro len hlen
    rw [fifoWriteBlock, Kernel.write, if_neg (by omega), hk]
    refine ⟨_, _, _, rfl, ?_⟩
    rw [block_length]
    omega
  rw [fifoWrite]
  split
  · obtain ⟨cnt, f', k', he, hcnt⟩ := hblock (f.stop - f.beg) (by omega)
    rw [he]
    exact Int.natCast_pos.mpr hcnt
  · split
    · obtain ⟨cnt, f', k', he, hcnt⟩ := hblock (f.size - f.beg) (by omega)
      rw [he]
      simp only
      split
      · split
        · exact Int.natCast_pos.mpr hcnt
        · next m _ _ _ => exact Int.add_pos_of_pos_of_nonneg (Int.natCast_pos.mpr hcnt) (Int.natCast_nonneg m)
      · exact Int.natCast_pos.mpr hcnt
    · have hzero : f.beg = f.stop := by omega
      refine absurd ?_ hne
      rw [fifoCount_eq, Buffer.count_eq_zero_iff]
      exact hzero

/-- An append takes its length off the free room when there is that much. -/
theorem fifoUnsafeAppend_avail (f : Fifo) (buf : List UInt8) (h : buf.length ≤ f.avail) :
    (fifoUnsafeAppend f buf).avail + buf.length = f.avail := by
  have hl := congrArg List.length (fifoUnsafeAppend_contents f buf h)
  rw [List.length_append, Buffer.toList_length, Buffer.toList_length] at hl
  have hsum := f.count_add_avail
  have hsum' := (fifoUnsafeAppend f buf).count_add_avail
  rw [fifoUnsafeAppend_size] at hsum'
  omega

theorem fifoUnsafeAppend_nil (f : Fifo) : fifoUnsafeAppend f [] = f := by
  have hs := f.stop_lt
  have hblit : blit f.buf f.stop [] = f.buf := by
    funext j
    simp [blit]
  have hw : ¬ f.stop > f.size := by omega
  simp only [fifoUnsafeAppend, List.length_nil, Nat.add_zero, if_neg hw, hblit,
    Nat.mod_eq_of_lt hs]

theorem Fifo.ext_fields {f f' : Fifo} (hsize : f.size = f'.size) (hbuf : f.buf = f'.buf)
    (hbeg : f.beg = f'.beg) (hstop : f.stop = f'.stop) (hproc : f.proc = f'.proc)
    (hrefcon : f.refcon = f'.refcon) : f = f' := by
  obtain ⟨⟨size, buf, beg, stop, _, _⟩, proc, refcon⟩ := f
  obtain ⟨⟨size', buf', beg', stop', _, _⟩, proc', refcon'⟩ := f'
  simp only at hsize hbuf hbeg hstop hproc hrefcon
  subst hsize hbuf hbeg hstop hproc hrefcon
  rfl

/-- Two appends for which there is room are one. -/
theorem fifoUnsafeAppend_append (f : Fifo) (xs ys : List UInt8)
    (h : xs.length + ys.length ≤ f.avail) :
    fifoUnsafeAppend (fifoUnsafeAppend f xs) ys = fifoUnsafeAppend f (xs ++ ys) := by
  have hs := f.stop_lt
  have hsum := f.count_add_avail
  have ha := fifoUnsafeAppend_avail f xs (by omega)
  have hmod : (fifoUnsafeAppend f xs).stop =
      if f.stop + xs.length < f.size then f.stop + xs.length else f.stop + xs.length - f.size :=
    Buffer.mod_of_wrap (by omega)
  refine Fifo.ext_fields (by simp) ?_ rfl ?_ (by simp) (by simp)
  · funext j
    by_cases hj : j < f.size
    · obtain ⟨i, hi⟩ : ∃ i, i = if f.stop ≤ j then j - f.stop else j + f.size - f.stop := ⟨_, rfl⟩
      obtain ⟨i', hi'⟩ : ∃ i', i' = if xs.length ≤ i then i - xs.length else i + f.size - xs.length :=
        ⟨_, rfl⟩
      have hoff : i' = if (fifoUnsafeAppend f xs).stop ≤ j then j - (fifoUnsafeAppend f xs).stop
          else j + (fifoUnsafeAppend f xs).size - (fifoUnsafeAppend f xs).stop := by
        rw [hi', hmod, fifoUnsafeAppend_size]
        split at hi <;> split_ifs <;> omega
      rw [fifoUnsafeAppend_cell (fifoUnsafeAppend f xs) ys (by omega) hj hoff,
        fifoUnsafeAppend_cell f xs (by omega) hj hi,
        fifoUnsafeAppend_cell f (xs ++ ys) (by simpa using h) hj hi, List.getElem?_append]
      split at hi'
      · next hge => rw [if_neg (by omega), List.getElem?_eq_none hge, Option.getD_none, hi']
      · next hlt => rw [if_pos (by omega), List.getElem?_eq_none (l := ys) (by omega), Option.getD_none]
    · rw [fifoUnsafeAppend_buf_outside (fifoUnsafeAppend f xs) ys (by omega) j (by simpa using hj),
        fifoUnsafeAppend_buf_outside f xs (by omega) j (by omega),
        fifoUnsafeAppend_buf_outside f (xs ++ ys) (by simpa using h) j (by omega)]
  · change ((f.stop + xs.length) % f.size + ys.length) % f.size =
      (f.stop + (xs ++ ys).length) % f.size
    rw [Nat.mod_add_mod, List.length_append, Nat.add_assoc]

/-- A scanner's call of one of the two unsafe appends. -/
inductive Put where
  | append (buf : List UInt8)
  | addchar (c : UInt8)
  deriving DecidableEq, Repr

def Put.bytes : Put → List UInt8
  | .append buf => buf
  | .addchar c => [c]

def Put.run (f : Fifo) : Put → Fifo
  | .append buf => fifoUnsafeAppend f buf
  | .addchar c => fifoUnsafeAddchar f c

def putBytes (puts : List Put) : List UInt8 := puts.flatMap Put.bytes

def runPuts (f : Fifo) (puts : List Put) : Fifo := puts.foldl Put.run f

/-- Each call, when its turn comes, finds as many free cells as it adds bytes. -/
def Fits : Fifo → List Put → Prop
  | _, [] => True
  | f, p :: ps => p.bytes.length ≤ fifoAvail f ∧ Fits (p.run f) ps

@[simp] theorem putBytes_nil : putBytes [] = [] := rfl
@[simp] theorem putBytes_cons (p : Put) (ps : List Put) :
    putBytes (p :: ps) = p.bytes ++ putBytes ps := rfl
@[simp] theorem putBytes_append (ps qs : List Put) :
    putBytes (ps ++ qs) = putBytes ps ++ putBytes qs := by simp [putBytes]
@[simp] theorem putBytes_replicate (n : Nat) (c : UInt8) :
    putBytes (List.replicate n (.addchar c)) = List.replicate n c := by
  induction n with
  | zero => rfl
  | succ n ih =>
    rw [List.replicate_succ, List.replicate_succ, putBytes_cons, ih]
    rfl

theorem Put.run_eq (f : Fifo) (p : Put) : p.run f = fifoUnsafeAppend f p.bytes := by
  cases p with
  | append buf => rfl
  | addchar c => exact fifoUnsafeAddchar_eq_append f c

@[simp] theorem runPuts_nil (f : Fifo) : runPuts f [] = f := rfl
@[simp] theorem runPuts_cons (f : Fifo) (p : Put) (ps : List Put) :
    runPuts f (p :: ps) = runPuts (p.run f) ps := rfl

/-- The calls fit one by one exactly when all their bytes fit at once: nothing is
taken out of the ring between them. -/
theorem fits_iff (f : Fifo) (puts : List Put) :
    Fits f puts ↔ (putBytes puts).length ≤ fifoAvail f := by
  induction puts generalizing f with
  | nil => simp [Fits]
  | cons p ps ih =>
    rw [Fits, ih, Put.run_eq, putBytes_cons, List.length_append, fifoAvail_eq, fifoAvail_eq]
    constructor
    · rintro ⟨h, hr⟩
      have := fifoUnsafeAppend_avail f p.bytes h
      omega
    · intro h
      have := fifoUnsafeAppend_avail f p.bytes (by omega)
      omega

theorem runPuts_contents (f : Fifo) (puts : List Put) (h : (putBytes puts).length ≤ f.avail) :
    (runPuts f puts).contents = f.contents ++ putBytes puts := by
  induction puts generalizing f with
  | nil => simp
  | cons p ps ih =>
    rw [putBytes_cons, List.length_append] at h
    have ha := fifoUnsafeAppend_avail f p.bytes (by omega)
    rw [runPuts_cons, Put.run_eq, ih _ (by omega), fifoUnsafeAppend_contents _ _ (by omega),
      putBytes_cons, List.append_assoc]

/-- Calls that fit are one append of all their bytes. -/
theorem runPuts_eq (f : Fifo) (puts : List Put) (h : (putBytes puts).length ≤ f.avail) :
    runPuts f puts = fifoUnsafeAppend f (putBytes puts) := by
  induction puts generalizing f with
  | nil => exact (fifoUnsafeAppend_nil f).symm
  | cons p ps ih =>
    rw [putBytes_cons, List.length_append] at h
    have ha := fifoUnsafeAppend_avail f p.bytes (by omega)
    rw [runPuts_cons, Put.run_eq, ih _ (by omega), fifoUnsafeAppend_append f _ _ h, putBytes_cons]

@[simp] theorem runPuts_size (f : Fifo) (puts : List Put) : (runPuts f puts).size = f.size := by
  induction puts generalizing f with
  | nil => rfl
  | cons p ps ih => rw [runPuts_cons, ih, Put.run_eq, fifoUnsafeAppend_size]

@[simp] theorem runPuts_proc (f : Fifo) (puts : List Put) : (runPuts f puts).proc = f.proc := by
  induction puts generalizing f with
  | nil => rfl
  | cons p ps ih => rw [runPuts_cons, ih, Put.run_eq, fifoUnsafeAppend_proc]

@[simp] theorem runPuts_refcon (f : Fifo) (puts : List Put) :
    (runPuts f puts).refcon = f.refcon := by
  induction puts generalizing f with
  | nil => rfl
  | cons p ps ih => rw [runPuts_cons, ih, Put.run_eq, fifoUnsafeAppend_refcon]

end Rzh
