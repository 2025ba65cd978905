import Rzh.Fifo

/-!
# fifo.c on machine integers

The same ring with its indices as the 32-bit integers they are, and with a memory that a
copy can miss. A copy that would touch a cell outside of the buffer it works on has no
result. On rings whose sizes can be doubled the arithmetic never overflows, and then this
is the ring of the rest of the program.
-/
namespace Rzh

open Circular

/-- The largest int. -/
def intMax : Int := 0x7fffffff

structure RawFifo where
  buf : Nat → UInt8
  beg : Int
  stop : Int
  size : Int

/-- The `n` cells from `off` on lie among the first `size`, if there are any. -/
def Inside (size off n : Int) : Prop := 0 ≤ n ∧ (0 < n → 0 ≤ off ∧ off + n ≤ size)

instance (size off n : Int) : Decidable (Inside size off n) := inferInstanceAs (Decidable (_ ∧ _))

namespace RawFifo

variable (f : RawFifo)

/-- memcpy of `n` bytes of `src`, from `start` on, to the cells from `off` on. -/
def copyIn (off : Int) (src : List UInt8) (start n : Int) : Option RawFifo :=
  if Inside f.size off n ∧ Inside src.length start n then
    some { f with buf := blit f.buf off.toNat ((src.drop start.toNat).take n.toNat) }
  else none

/-- The `n` bytes that a memcpy or a write() finds from cell `off` on. -/
def copyOut (off n : Int) : Option (List UInt8) :=
  if Inside f.size off n then some (block f.buf off.toNat n.toNat) else none

def clear : RawFifo := { f with beg := 0, stop := 0 }

def count : Int := (wrapInt (f.size + f.stop - f.beg)).tmod f.size

def avail : Int := (wrapInt (f.size + f.beg - f.stop - 1)).tmod f.size

def unsafeAddchar (c : UInt8) : Option RawFifo := do
  let f ← f.copyIn f.stop [c] 0 1
  some { f with stop := if f.stop + 1 = f.size then 0 else f.stop + 1 }

def unsafeGetchar : Option (UInt8 × RawFifo) := do
  let cs ← f.copyOut f.beg 1
  let c ← cs.head?
  some (c, { f with beg := if f.beg + 1 = f.size then 0 else f.beg + 1 })

def unsafeAppend (buf : List UInt8) : Option RawFifo := do
  let cnt : Int := buf.length
  let f ←
    if f.size < wrapInt (f.stop + cnt) then do
      let n := f.size - f.stop
      let f ← f.copyIn f.stop buf 0 n
      f.copyIn 0 buf n (cnt - n)
    else f.copyIn f.stop buf 0 cnt
  some { f with stop := (wrapInt (f.stop + cnt)).tmod f.size }

def unsafePrepend (buf : List UInt8) : Option RawFifo := do
  let cnt : Int := buf.length
  if f.beg < cnt then
    let n := cnt - f.beg
    let f ← f.copyIn 0 buf n f.beg
    let f ← f.copyIn (f.size - n) buf 0 n
    some { f with beg := f.size - n }
  else
    let f ← f.copyIn (f.beg - cnt) buf 0 cnt
    some { f with beg := f.beg - cnt }

def unsafeUnpend (cnt : Int) : Option (List UInt8 × RawFifo) := do
  let bytes ←
    if f.size < wrapInt (f.beg + cnt) then do
      let n := f.size - f.beg
      let xs ← f.copyOut f.beg n
      let ys ← f.copyOut 0 (cnt - n)
      some (xs ++ ys)
    else f.copyOut f.beg cnt
  some (bytes, { f with beg := (wrapInt (f.beg + cnt)).tmod f.size })

/-- fifo_copy of `src` to `dst`: the number of bytes, and both rings. -/
def copy (src dst : RawFifo) : Option (Int × RawFifo × RawFifo) := do
  let cnt := if dst.avail < src.count then dst.avail else src.count
  let dst ←
    if src.size < wrapInt (src.beg + cnt) then do
      let n := src.size - src.beg
      let dst ← dst.unsafeAppend (← src.copyOut src.beg n)
      dst.unsafeAppend (← src.copyOut 0 (cnt - n))
    else do dst.unsafeAppend (← src.copyOut src.beg cnt)
  some (cnt, { src with beg := (wrapInt (src.beg + cnt)).tmod src.size }, dst)

/-- The last loop of fifo_write, after `cnt` bytes have been accepted. -/
def writeFront (cnt : Nat) (fd : Int) (k : Kernel) : Option (Int × RawFifo × Kernel) :=
  if f.beg = 0 then do
    let offered ← f.copyOut 0 f.stop
    match k.write fd offered with
    | (none, k) => some (cnt, f, k)
    | (some n, k) => if 0 < n then some (cnt + n, { f with beg := n }, k) else some (cnt, f, k)
  else some (cnt, f, k)

def write (fd : Int) (k : Kernel) : Option (Int × RawFifo × Kernel) :=
  if f.beg < f.stop then do
    let offered ← f.copyOut f.beg (f.stop - f.beg)
    match k.write fd offered with
    | (none, k) => some (-1, f, k)
    | (some cnt, k) => some (cnt, { f with beg := if 0 < cnt then f.beg + cnt else f.beg }, k)
  else if f.stop < f.beg then do
    let offered ← f.copyOut f.beg (f.size - f.beg)
    match k.write fd offered with
    | (none, k) => some (-1, f, k)
    | (some cnt, k) =>
      if 0 < cnt then writeFront { f with beg := (wrapInt (f.beg + cnt)).tmod f.size } cnt fd k
      else some (cnt, f, k)
  else some (0, f, k)

/-- The size is an int, and the indices lie inside the buffer. -/
structure WellFormed : Prop where
  size_pos : 0 < f.size
  size_le : f.size ≤ intMax
  beg_nonneg : 0 ≤ f.beg
  beg_lt : f.beg < f.size
  stop_nonneg : 0 ≤ f.stop
  stop_lt : f.stop < f.size

/-- What a ring holds, oldest first, reckoned without overflow. -/
def contents : List UInt8 :=
  (List.range ((f.stop - f.beg) % f.size).toNat).map fun (i : Nat) =>
    f.buf ((f.beg + (i : Int)) % f.size).toNat

end RawFifo

/-- A ring as the machine has it. -/
def Fifo.raw (f : Fifo) : RawFifo := ⟨f.buf, f.beg, f.stop, f.size⟩

@[simp] theorem raw_buf (f : Fifo) : f.raw.buf = f.buf := rfl
@[simp] theorem raw_beg (f : Fifo) : f.raw.beg = f.beg := rfl
@[simp] theorem raw_stop (f : Fifo) : f.raw.stop = f.stop := rfl
@[simp] theorem raw_size (f : Fifo) : f.raw.size = f.size := rfl

theorem raw_wellFormed (f : Fifo) (h : (f.size : Int) ≤ intMax) : f.raw.WellFormed := by
  have hb := f.beg_lt
  have hs := f.stop_lt
  exact ⟨by simp; omega, h, by simp, by simp; omega, by simp, by simp; omega⟩

/-- Every well-formed machine ring is one of the program's. -/
theorem RawFifo.WellFormed.exists_raw {f : RawFifo} (h : f.WellFormed) :
    ∃ g : Fifo, f = g.raw ∧ (g.size : Int) = f.size := by
  obtain ⟨hpos, -, hb, hb', hs, hs'⟩ := h
  let g : Fifo :=
    { size := f.size.toNat, buf := f.buf, beg := f.beg.toNat, stop := f.stop.toNat
      beg_lt := by omega, stop_lt := by omega, proc := none, refcon := .null }
  refine ⟨g, ?_, Int.toNat_of_nonneg (by omega)⟩
  obtain ⟨buf, beg, stop, size⟩ := f
  simp only [Fifo.raw, g, Int.toNat_of_nonneg hb, Int.toNat_of_nonneg hs,
    Int.toNat_of_nonneg (Int.le_of_lt hpos)]

theorem raw_contents (f : Fifo) : f.raw.contents = f.contents := by
  have hb := f.beg_lt
  have hs := f.stop_lt
  have hcount : (((f.stop : Int) - f.beg) % f.size).toNat = f.count := by
    have he : ((f.stop : Int) - f.beg) % f.size = ((f.size + f.stop - f.beg : Nat) : Int) % f.size := by
      rw [Int.natCast_sub (by omega), Int.natCast_add, Int.add_sub_assoc, Int.add_emod_left]
    rw [he, ← Int.natCast_emod, Int.toNat_natCast]
    rfl
  simp only [RawFifo.contents, raw_beg, raw_stop, raw_size, hcount]
  rw [Fifo.contents, Buffer.toList]
  apply List.map_congr_left
  intro i _
  rw [← Int.natCast_add, ← Int.natCast_emod, Int.toNat_natCast]
  rfl

/-- Indices up to twice the size are ints. -/
def Fifo.Doubles (f : Fifo) : Prop := (f.size : Int) ≤ 0x40000000

section Doubles

variable {f : Fifo}

/-- A sum of two indices is reduced as it should be. -/
theorem tmod_wrap {a n : Nat} (hn : (n : Int) ≤ 0x40000000) (ha : a < 2 * n) :
    (wrapInt (a : Int)).tmod n = (a % n : Nat) := by
  rw [wrapInt_of_range (by omega) (by omega), Int.tmod_eq_emod_of_nonneg (by omega),
    Int.natCast_emod]

theorem raw_count (h : f.Doubles) : f.raw.count = fifoCount f := by
  have hb := f.beg_lt
  have hs := f.stop_lt
  have he : f.raw.size + f.raw.stop - f.raw.beg = ((f.size + f.stop - f.beg : Nat) : Int) := by
    simp only [raw_size, raw_stop, raw_beg]
    omega
  rw [RawFifo.count, he]
  exact tmod_wrap h (by omega)

theorem raw_avail (h : f.Doubles) : f.raw.avail = fifoAvail f := by
  have hb := f.beg_lt
  have hs := f.stop_lt
  have he : f.raw.size + f.raw.beg - f.raw.stop - 1 = ((f.size + f.beg - f.stop - 1 : Nat) : Int) := by
    simp only [raw_size, raw_stop, raw_beg]
    omega
  rw [RawFifo.avail, he]
  exact tmod_wrap h (by omega)

theorem RawFifo.copyIn_eq (f : RawFifo) (src : List UInt8) {off start n : Int} (hoff : 0 ≤ off)
    (hstart : 0 ≤ start) (hn : 0 ≤ n) (hin : off + n ≤ f.size) (hsrc : start + n ≤ src.length) :
    f.copyIn off src start n =
      some { f with buf := blit f.buf off.toNat ((src.drop start.toNat).take n.toNat) } := by
  rw [copyIn, if_pos ⟨⟨hn, fun _ => ⟨hoff, hin⟩⟩, hn, fun _ => ⟨hstart, hsrc⟩⟩]

theorem RawFifo.copyOut_eq (f : RawFifo) {off n : Int} (hoff : 0 ≤ off) (hn : 0 ≤ n)
    (hin : off + n ≤ f.size) : f.copyOut off n = some (block f.buf off.toNat n.toNat) := by
  rw [copyOut, if_pos ⟨hn, fun _ => ⟨hoff, hin⟩⟩]

/-- An append for which there is room copies inside the buffer. -/
theorem raw_unsafeAppend (h : f.Doubles) {buf : List UInt8} (hfit : buf.length ≤ f.avail) :
    f.raw.unsafeAppend buf = some (fifoUnsafeAppend f buf).raw := by
  have hs := f.stop_lt
  have hsum := f.count_add_avail
  have hsize : (f.size : Int) ≤ 0x40000000 := h
  have hwrap : wrapInt ((f.stop : Int) + buf.length) = (f.stop + buf.length : Nat) := by
    rw [← Int.natCast_add, wrapInt_of_range (by omega) (by omega)]
  have hstop : (wrapInt ((f.stop : Int) + buf.length)).tmod f.size =
      ((f.stop + buf.length) % f.size : Nat) := tmod_wrap h (by omega)
  by_cases hw : f.stop + buf.length > f.size
  · -- the block goes round the end: the two parts lie behind `stop` and in front of `beg`
    have hlt : f.raw.size < wrapInt (f.raw.stop + buf.length) := by
      rw [raw_size, raw_stop]
      omega
    have hn : ((f.size : Int) - f.stop).toNat = f.size - f.stop := by omega
    have hrest : ((buf.length : Int) - (f.size - f.stop)).toNat = buf.length - (f.size - f.stop) := by
      omega
    simp only [RawFifo.unsafeAppend, if_pos hlt]
    simp only [raw_stop, raw_size]
    rw [RawFifo.copyIn_eq _ _ (by omega) (by omega) (by omega) (by rw [raw_size]; omega) (by omega)]
    simp only [Option.bind_eq_bind, Option.bind_some]
    rw [RawFifo.copyIn_eq _ _ (by omega) (by omega) (by omega) (by simp only [raw_size]; omega)
      (by omega)]
    simp only [Option.bind_some, raw_stop, raw_size, hstop, hn, hrest]
    simp only [Fifo.raw, fifoUnsafeAppend, if_pos hw, Int.toNat_natCast, Int.toNat_zero,
      List.drop_zero]
    rw [List.take_of_length_le (show (buf.drop (f.size - f.stop)).length ≤ _ by simp)]
  · have hle : ¬ f.raw.size < wrapInt (f.raw.stop + buf.length) := by
      rw [raw_size, raw_stop]
      omega
    simp only [RawFifo.unsafeAppend, if_neg hle]
    simp only [raw_stop]
    rw [RawFifo.copyIn_eq _ _ (by omega) (by omega) (by omega) (by rw [raw_size]; omega) (by omega)]
    simp only [Option.bind_eq_bind, Option.bind_some, raw_stop, raw_size, hstop]
    simp only [Fifo.raw, fifoUnsafeAppend, if_neg hw, Int.toNat_natCast, Int.toNat_zero,
      List.drop_zero, List.take_length]

theorem raw_unsafeAddchar (f : Fifo) (c : UInt8) :
    f.raw.unsafeAddchar c = some (fifoUnsafeAddchar f c).raw := by
  have hs := f.stop_lt
  have hiff : (f.stop : Int) + 1 = f.size ↔ f.stop + 1 = f.size := by omega
  have hcast : (if (f.stop : Int) + 1 = f.size then (0 : Int) else f.stop + 1) =
      ((if f.stop + 1 = f.size then 0 else f.stop + 1 : Nat) : Int) := by
    simp only [hiff]
    split <;> simp
  rw [RawFifo.unsafeAddchar, RawFifo.copyIn_eq _ _ (by simp) (by omega) (by omega)
    (by simp only [raw_size, raw_stop]; omega) (by simp)]
  simp only [Option.bind_eq_bind, Option.bind_some, raw_stop, raw_size, hcast]
  rfl

theorem advance_contents {n : Nat} (hn : n ≤ f.count) :
    (f.advance n).contents = f.contents.drop n :=
  f.toBuffer.toList_drop (f.advance n).toBuffer rfl rfl rfl rfl hn

/-- A character is taken off the front. -/
theorem raw_unsafeGetchar {c : UInt8} {cs : List UInt8} (hc : f.contents = c :: cs) :
    f.raw.unsafeGetchar = some (c, (f.advance 1).raw) := by
  have hb := f.beg_lt
  have hcount : 1 ≤ f.count := by
    have hl := congrArg List.length hc
    rw [Buffer.toList_length, List.length_cons] at hl
    omega
  have hfirst : block f.buf f.beg 1 = [c] := by
    rw [← f.take_eq_block hcount (by omega)]
    change f.contents.take 1 = [c]
    rw [hc]
    rfl
  have hcast : (if f.raw.beg + 1 = f.raw.size then 0 else f.raw.beg + 1) =
      (((f.beg + 1) % f.size : Nat) : Int) := by
    rw [raw_beg, raw_size]
    by_cases he : f.beg + 1 = f.size
    · rw [if_pos (by omega), he, Nat.mod_self]
      rfl
    · rw [if_neg (by omega), Nat.mod_eq_of_lt (by omega)]
      rfl
  have hout : f.raw.copyOut f.raw.beg 1 = some [c] := by
    rw [RawFifo.copyOut_eq _ (by simp) (by omega) (by rw [raw_size, raw_beg]; omega), ← hfirst]
    rfl
  simp only [RawFifo.unsafeGetchar, hout, hcast]
  rfl

/-- So is a block, however it lies. -/
theorem raw_unsafeUnpend (h : f.Doubles) {cnt : Nat} (hcnt : cnt ≤ f.count) :
    f.raw.unsafeUnpend cnt = some (f.contents.take cnt, (f.advance cnt).raw) := by
  have hb := f.beg_lt
  have hlt := f.count_lt
  have hsize : (f.size : Int) ≤ 0x40000000 := h
  have hwrap : wrapInt ((f.beg : Int) + cnt) = (f.beg + cnt : Nat) := by
    rw [← Int.natCast_add, wrapInt_of_range (by omega) (by omega)]
  have hbeg : (wrapInt ((f.beg : Int) + cnt)).tmod f.size = ((f.beg + cnt) % f.size : Nat) :=
    tmod_wrap h (by omega)
  by_cases hw : f.size < f.beg + cnt
  · have hlt : f.raw.size < wrapInt (f.raw.beg + cnt) := by
      rw [raw_size, raw_beg]
      omega
    have hn : ((f.size : Int) - f.beg).toNat = f.size - f.beg := by omega
    have hrest : ((cnt : Int) - (f.size - f.beg)).toNat = cnt - (f.size - f.beg) := by omega
    simp only [RawFifo.unsafeUnpend, if_pos hlt]
    simp only [raw_beg, raw_size]
    rw [RawFifo.copyOut_eq _ (by omega) (by omega) (by rw [raw_size]; omega),
      RawFifo.copyOut_eq _ (by omega) (by omega) (by rw [raw_size]; omega)]
    simp only [Option.bind_eq_bind, Option.bind_some, hbeg, hn, hrest, Int.toNat_natCast,
      Int.toNat_zero]
    rw [Fifo.contents, f.take_eq_blocks hcnt hw]
    rfl
  · have hle : ¬ f.raw.size < wrapInt (f.raw.beg + cnt) := by
      rw [raw_size, raw_beg]
      omega
    simp only [RawFifo.unsafeUnpend, if_neg hle]
    simp only [raw_beg, raw_size]
    rw [RawFifo.copyOut_eq _ (by omega) (by omega) (by rw [raw_size]; omega)]
    simp only [Option.bind_eq_bind, Option.bind_some, hbeg, Int.toNat_natCast]
    rw [Fifo.contents, f.take_eq_block hcnt (by omega)]
    rfl

/-- A block that is longer than the room in front goes to both ends of the buffer. -/
theorem raw_unsafePrepend_wraps {buf : List UInt8} (hfit : buf.length ≤ f.avail) (hw : f.beg < buf.length) :
    ∃ f' : Fifo, f.raw.unsafePrepend buf = some f'.raw ∧ f'.size = f.size ∧
      f'.contents = buf ++ f.contents := by
  have hb := f.beg_lt
  have hs := f.stop_lt
  have hsum := f.count_add_avail
  let n := buf.length - f.beg
  let f' : Fifo :=
    { f with
      buf := blit (blit f.buf 0 ((buf.drop n).take f.beg)) (f.size - n) (buf.take n)
      beg := f.size - n
      beg_lt := by omega }
  have hn : ((buf.length : Int) - f.beg).toNat = n := by omega
  have hbeg : ((f.size : Int) - (buf.length - f.beg)) = (f.size - n : Nat) := by omega
  have hlt : f.raw.beg < buf.length := by
    rw [raw_beg]
    omega
  refine ⟨f', ?_, rfl, ?_⟩
  · simp only [RawFifo.unsafePrepend, if_pos hlt]
    simp only [raw_beg]
    rw [RawFifo.copyIn_eq _ _ (by omega) (by omega) (by omega) (by rw [raw_size]; omega) (by omega)]
    simp only [Option.bind_eq_bind, Option.bind_some, raw_size]
    rw [RawFifo.copyIn_eq _ _ (by omega) (by omega) (by omega) (by simp only; omega) (by omega)]
    simp only [Option.bind_some, hn, hbeg, Int.toNat_natCast, Int.toNat_zero, List.drop_zero]
    rfl
  · have hmod : ∀ i, i < f.size → (f.size - n + i) % f.size = if i < n then f.size - n + i else i - n := by
      intro i hi
      rw [Buffer.mod_of_wrap (by omega)]
      split <;> split <;> omega
    refine f.toBuffer.toList_unshift f'.toBuffer rfl rfl ?_ hfit ?_ ?_
    · change (f.size - n + buf.length) % f.size = f.beg
      rw [hmod _ (by omega), if_neg (by omega)]
      omega
    · intro i hi
      have hidx : (f.size - n + (buf.length + i)) % f.size = f.beg + i := by
        rw [hmod _ (by omega), if_neg (by omega)]
        omega
      change f'.buf ((f.size - n + (buf.length + i)) % f.size) = f.buf ((f.beg + i) % f.size)
      rw [hidx, Nat.mod_eq_of_lt (by omega)]
      simp only [f', blit, List.length_take, List.length_drop]
      rw [dif_neg (by omega), dif_neg (by omega)]
    · intro i hi
      change f'.buf ((f.size - n + i) % f.size) = buf[i]
      rw [hmod _ (by omega)]
      simp only [f', blit, List.length_take, List.length_drop, List.getElem_take, List.getElem_drop]
      split
      · rw [dif_pos (by omega)]
        congr 1
        omega
      · rw [dif_neg (by omega), dif_pos (by omega)]
        congr 1
        omega

/-- Any other goes right in front. -/
theorem raw_unsafePrepend_front {buf : List UInt8} (hfit : buf.length ≤ f.avail) (hw : ¬ f.beg < buf.length) :
    ∃ f' : Fifo, f.raw.unsafePrepend buf = some f'.raw ∧ f'.size = f.size ∧
      f'.contents = buf ++ f.contents := by
  have hb := f.beg_lt
  have hs := f.stop_lt
  have hsum := f.count_add_avail
  have hc := f.count_eq
  let f' : Fifo :=
    { f with
      buf := blit f.buf (f.beg - buf.length) buf
      beg := f.beg - buf.length
      beg_lt := by omega }
  have hbeg : ((f.beg : Int) - buf.length) = (f.beg - buf.length : Nat) := by omega
  have hle : ¬ f.raw.beg < buf.length := by
    rw [raw_beg]
    omega
  refine ⟨f', ?_, rfl, ?_⟩
  · simp only [RawFifo.unsafePrepend, if_neg hle]
    simp only [raw_beg]
    rw [RawFifo.copyIn_eq _ _ (by omega) (by omega) (by omega) (by rw [raw_size]; omega) (by omega)]
    simp only [Option.bind_eq_bind, Option.bind_some, raw_beg, hbeg, Int.toNat_natCast,
      Int.toNat_zero, List.drop_zero, List.take_length]
    rfl
  · refine f.toBuffer.toList_unshift f'.toBuffer rfl rfl ?_ hfit ?_ ?_
    · change (f.beg - buf.length + buf.length) % f.size = f.beg
      rw [Nat.sub_add_cancel (by omega), Nat.mod_eq_of_lt hb]
    · intro i hi
      have he : f.beg - buf.length + (buf.length + i) = f.beg + i := by omega
      have hidx := f.index_eq i (by omega)
      change f'.buf ((f.beg - buf.length + (buf.length + i)) % f.size) = f.buf ((f.beg + i) % f.size)
      rw [he]
      simp only [f', blit]
      rw [dif_neg]
      rw [hidx]
      split at hc <;> split <;> omega
    · intro i hi
      change f'.buf ((f.beg - buf.length + i) % f.size) = buf[i]
      rw [Nat.mod_eq_of_lt (by omega)]
      simp only [f', blit]
      rw [dif_pos (by omega)]
      congr 1
      omega

/-- A block goes in front of everything, in its own order. -/
theorem raw_unsafePrepend {buf : List UInt8} (hfit : buf.length ≤ f.avail) :
    ∃ f' : Fifo, f.raw.unsafePrepend buf = some f'.raw ∧ f'.size = f.size ∧
      f'.contents = buf ++ f.contents := by
  by_cases hw : f.beg < buf.length
  · exact raw_unsafePrepend_wraps hfit hw
  · exact raw_unsafePrepend_front hfit hw

/-- As much of `src` as `dst` has room for goes to its back. -/
theorem raw_copy {src dst : Fifo} (hsrc : src.Doubles) (hdst : dst.Doubles) {n : Nat}
    (hn : n = min src.count dst.avail) :
    RawFifo.copy src.raw dst.raw = some ((n : Int), (src.advance n).raw,
      (fifoUnsafeAppend dst (src.contents.take n)).raw) := by
  have hb := src.beg_lt
  have hlt := src.count_lt
  have hsize : (src.size : Int) ≤ 0x40000000 := hsrc
  have hcnt : (if dst.raw.avail < src.raw.count then dst.raw.avail else src.raw.count) = (n : Int) := by
    rw [raw_avail hdst, raw_count hsrc, fifoAvail_eq, fifoCount_eq]
    split <;> omega
  have hwrap : wrapInt ((src.beg : Int) + n) = (src.beg + n : Nat) := by
    rw [← Int.natCast_add, wrapInt_of_range (by omega) (by omega)]
  have hbeg : (wrapInt ((src.beg : Int) + n)).tmod src.size = ((src.beg + n) % src.size : Nat) :=
    tmod_wrap hsrc (by omega)
  simp only [RawFifo.copy, hcnt]
  by_cases hw : src.size < src.beg + n
  · have hlt : src.raw.size < wrapInt (src.raw.beg + n) := by
      rw [raw_size, raw_beg]
      omega
    have hfirst : ((src.size : Int) - src.beg).toNat = src.size - src.beg := by omega
    have hrest : ((n : Int) - (src.size - src.beg)).toNat = n - (src.size - src.beg) := by omega
    have htake := src.take_eq_blocks (n := n) (by omega) hw
    have havail := fifoUnsafeAppend_avail dst (block src.buf src.beg (src.size - src.beg))
      (by rw [block_length]; omega)
    rw [block_length] at havail
    have hdst' : (fifoUnsafeAppend dst (block src.buf src.beg (src.size - src.beg))).Doubles := by
      rw [Fifo.Doubles, fifoUnsafeAppend_size]
      exact hdst
    simp only [if_pos hlt]
    simp only [raw_beg, raw_size]
    rw [RawFifo.copyOut_eq _ (by omega) (by omega) (by rw [raw_size]; omega),
      RawFifo.copyOut_eq _ (by omega) (by omega) (by rw [raw_size]; omega)]
    simp only [Option.bind_eq_bind, hfirst, hrest, hbeg, raw_buf, Int.toNat_natCast, Int.toNat_zero]
    rw [Option.bind_some, raw_unsafeAppend hdst (by rw [block_length]; omega), Option.bind_some,
      Option.bind_some, raw_unsafeAppend hdst' (by rw [block_length]; omega), Option.bind_some,
      fifoUnsafeAppend_append dst _ _ (by simp only [block_length]; omega), ← htake]
    rfl
  · have hle : ¬ src.raw.size < wrapInt (src.raw.beg + n) := by
      rw [raw_size, raw_beg]
      omega
    have htake := src.take_eq_block (n := n) (by omega) (by omega)
    simp only [if_neg hle]
    simp only [raw_beg, raw_size]
    rw [RawFifo.copyOut_eq _ (by omega) (by omega) (by rw [raw_size]; omega)]
    simp only [Option.bind_eq_bind, hbeg, raw_buf, Int.toNat_natCast]
    rw [Option.bind_some, raw_unsafeAppend hdst (by rw [block_length]; omega), Option.bind_some, ← htake]
    rfl

end Doubles

/-- The block behind `beg` as a write() finds it. -/
theorem raw_copyOut (f : Fifo) {off n : Nat} (hin : off + n ≤ f.size) :
    f.raw.copyOut off n = some (block f.buf off n) :=
  f.raw.copyOut_eq (by omega) (by omega) (by rw [raw_size]; omega)

/-- Moving the first index over what a write() has accepted. -/
theorem raw_accepted (f : Fifo) {n : Nat} (h : f.beg + n < f.size) :
    ({ f.raw with beg := if 0 < n then f.raw.beg + n else f.raw.beg } : RawFifo) = (f.advance n).raw := by
  have hbeg : (if 0 < n then f.raw.beg + n else f.raw.beg) = ((f.beg + n) % f.size : Nat) := by
    rw [Nat.mod_eq_of_lt h, raw_beg]
    split <;> omega
  rw [hbeg]
  rfl

theorem advance_zero (f : Fifo) : f.advance 0 = f :=
  Fifo.ext_fields rfl rfl (Nat.mod_eq_of_lt f.beg_lt) rfl rfl rfl

theorem fifoWriteBlock_none {f : Fifo} {fd : Int} {len : Nat} {k k' : Kernel}
    (h : k.write fd (block f.buf f.beg len) = (none, k')) :
    fifoWriteBlock f fd len k = (none, f, k') := by
  rw [fifoWriteBlock, h]

theorem fifoWriteBlock_some {f : Fifo} {fd : Int} {len n : Nat} {k k' : Kernel}
    (h : k.write fd (block f.buf f.beg len) = (some n, k')) :
    fifoWriteBlock f fd len k = (some n, f.advance n, k') := by
  rw [fifoWriteBlock, h]
  rfl

/-- The write of a ring that does not go round the end. -/
theorem raw_write_straight (f : Fifo) (fd : Int) (k : Kernel) (hlt : f.beg < f.stop) :
    f.raw.write fd k =
      some ((fifoWrite f fd k).1, (fifoWrite f fd k).2.1.raw, (fifoWrite f fd k).2.2) := by
  have hs := f.stop_lt
  have hlt' : f.raw.beg < f.raw.stop := by
    rw [raw_beg, raw_stop]
    omega
  have hout : f.raw.copyOut f.raw.beg (f.raw.stop - f.raw.beg) =
      some (block f.buf f.beg (f.stop - f.beg)) := by
    have hn : f.raw.stop - f.raw.beg = (f.stop - f.beg : Nat) := by
      rw [raw_beg, raw_stop]
      omega
    rw [hn]
    exact raw_copyOut f (by omega)
  rw [RawFifo.write, fifoWrite, if_pos hlt', if_pos hlt, hout, Option.bind_eq_bind, Option.bind_some]
  obtain ⟨k', he, -⟩ | ⟨n, k', he, hn, -⟩ := k.write_cases fd (block f.buf f.beg (f.stop - f.beg))
  · rw [fifoWriteBlock_none he, he]
  · rw [block_length] at hn
    rw [fifoWriteBlock_some he, he]
    simp only [raw_accepted f (show f.beg + n < f.size by omega)]

/-- The second block is offered from cell zero. -/
theorem raw_writeFront (f : Fifo) (cnt : Nat) (fd : Int) (k : Kernel) (hz : f.beg = 0) :
    f.raw.writeFront cnt fd k = some ((cnt : Int) + ((fifoWriteBlock f fd f.stop k).1.getD 0 : Nat),
      (fifoWriteBlock f fd f.stop k).2.1.raw, (fifoWriteBlock f fd f.stop k).2.2) := by
  have hs := f.stop_lt
  have hout : f.raw.copyOut 0 f.raw.stop = some (block f.buf f.beg f.stop) := by
    rw [hz]
    exact raw_copyOut f (by omega : 0 + f.stop ≤ f.size)
  have hz' : f.raw.beg = 0 := by
    rw [raw_beg, hz]
    rfl
  rw [RawFifo.writeFront, if_pos hz', hout, Option.bind_eq_bind, Option.bind_some]
  obtain ⟨k', he, -⟩ | ⟨n, k', he, hn, -⟩ := k.write_cases fd (block f.buf f.beg f.stop)
  · rw [fifoWriteBlock_none he, he]
    simp
  · rw [block_length] at hn
    have hacc := raw_accepted f (show f.beg + n < f.size by omega)
    rw [fifoWriteBlock_some he, he]
    simp only [← hacc]
    obtain hzero | hpos := Nat.eq_zero_or_pos n
    · subst hzero
      simp [Fifo.raw]
    · simp only [if_pos hpos, hz', Int.zero_add, Option.getD_some]

/-- The write of one that does. -/
theorem raw_write_round (f : Fifo) (hsize : (f.size : Int) ≤ intMax) (fd : Int) (k : Kernel)
    (hlt : f.stop < f.beg) :
    f.raw.write fd k =
      some ((fifoWrite f fd k).1, (fifoWrite f fd k).2.1.raw, (fifoWrite f fd k).2.2) := by
  have hb := f.beg_lt
  have hmax : intMax = 0x7fffffff := rfl
  have hlt' : f.raw.stop < f.raw.beg := by
    rw [raw_beg, raw_stop]
    omega
  have hout : f.raw.copyOut f.raw.beg (f.raw.size - f.raw.beg) =
      some (block f.buf f.beg (f.size - f.beg)) := by
    have hn : f.raw.size - f.raw.beg = (f.size - f.beg : Nat) := by
      rw [raw_beg, raw_size]
      omega
    rw [hn]
    exact raw_copyOut f (by omega)
  rw [RawFifo.write, fifoWrite, if_neg (by omega), if_pos hlt', if_neg (by omega), if_pos hlt, hout,
    Option.bind_eq_bind, Option.bind_some]
  obtain ⟨k₁, he, -⟩ | ⟨n, k₁, he, hn, -⟩ := k.write_cases fd (block f.buf f.beg (f.size - f.beg))
  · rw [fifoWriteBlock_none he, he]
  · rw [block_length] at hn
    have hraw : ({ f.raw with beg := (wrapInt (f.raw.beg + n)).tmod f.raw.size } : RawFifo) =
        (f.advance n).raw := by
      have hbeg : (wrapInt (f.raw.beg + n)).tmod f.raw.size = ((f.beg + n) % f.size : Nat) := by
        rw [raw_beg, raw_size, ← Int.natCast_add, wrapInt_of_range (by omega) (by omega),
          Int.tmod_eq_emod_of_nonneg (by omega), Int.natCast_emod]
      rw [hbeg]
      rfl
    rw [fifoWriteBlock_some he, he]
    simp only [hraw]
    obtain hzero | hpos := Nat.eq_zero_or_pos n
    · subst hzero
      simp [advance_zero]
    · rw [if_pos hpos]
      by_cases hz : (f.advance n).beg = 0
      · rw [raw_writeFront _ _ _ _ hz, if_pos ⟨hpos, hz⟩]
        generalize fifoWriteBlock (f.advance n) fd (f.advance n).stop k₁ = res
        obtain ⟨m, f₁, k₂⟩ := res
        cases m with
        | none => simp
        | some m => rfl
      · have hz' : ¬ (f.advance n).raw.beg = 0 := by
          rw [raw_beg]
          omega
        rw [RawFifo.writeFront, if_neg hz', if_neg (fun h => hz h.2)]

/-- On the machine fifo_write offers what lies inside the buffer, and does what it does
elsewhere. -/
theorem raw_write (f : Fifo) (hsize : (f.size : Int) ≤ intMax) (fd : Int) (k : Kernel) :
    f.raw.write fd k =
      some ((fifoWrite f fd k).1, (fifoWrite f fd k).2.1.raw, (fifoWrite f fd k).2.2) := by
  by_cases hlt : f.beg < f.stop
  · exact raw_write_straight f fd k hlt
  · by_cases hgt : f.stop < f.beg
    · exact raw_write_round f hsize fd k hgt
    · rw [RawFifo.write, fifoWrite, if_neg (by rw [raw_beg, raw_stop]; omega),
        if_neg (by rw [raw_beg, raw_stop]; omega), if_neg hlt, if_neg hgt]

/-- The next write() that is not interrupted is going to fail. -/
def Kernel.FailsNext (k : Kernel) (fd : Int) : Prop :=
  fd < 0 ∨ ∃ e, (retryWrite k.writes).1 = .fail e

theorem Kernel.write_none_iff (k : Kernel) (fd : Int) (buf : List UInt8) :
    (k.write fd buf).1 = none ↔ k.FailsNext fd := by
  rw [Kernel.write, Kernel.FailsNext]
  by_cases hfd : fd < 0
  · simp [hfd]
  · rw [if_neg hfd]
    generalize retryWrite k.writes = res
    obtain ⟨r, ws⟩ := res
    cases r with
    | accept n => simp [hfd]
    | fail e => simp

/-- The return value is -1 exactly when there is something to write and the first write
fails, and then the ring has not been touched. -/
theorem fifoWrite_failed (f : Fifo) (fd : Int) (k : Kernel) :
    ((fifoWrite f fd k).1 = -1 ↔ f.beg ≠ f.stop ∧ k.FailsNext fd) ∧
      ((fifoWrite f fd k).1 = -1 → (fifoWrite f fd k).2.1 = f) := by
  have hpos : ∀ n : Nat, (n : Int) ≠ -1 := fun n => by omega
  rw [fifoWrite]
  by_cases hlt : f.beg < f.stop
  · rw [if_pos hlt, ← k.write_none_iff fd (block f.buf f.beg (f.stop - f.beg))]
    obtain ⟨k', he, -⟩ | ⟨n, k', he, -, -⟩ := k.write_cases fd (block f.buf f.beg (f.stop - f.beg))
    · rw [fifoWriteBlock_none he, he]
      simp
      omega
    · rw [fifoWriteBlock_some he, he]
      simp [hpos n]
  · rw [if_neg hlt]
    by_cases hgt : f.stop < f.beg
    · rw [if_pos hgt, ← k.write_none_iff fd (block f.buf f.beg (f.size - f.beg))]
      obtain ⟨k', he, -⟩ | ⟨n, k', he, -, -⟩ := k.write_cases fd (block f.buf f.beg (f.size - f.beg))
      · rw [fifoWriteBlock_none he, he]
        simp
        omega
      · rw [fifoWriteBlock_some he, he]
        simp only
        split
        · generalize fifoWriteBlock (f.advance n) fd (f.advance n).stop k' = res
          obtain ⟨m, f₁, k₂⟩ := res
          cases m with
          | none => simp [hpos n]
          | some m =>
            have hm : (n : Int) + m ≠ -1 := by omega
            simp [hm]
        · simp [hpos n]
    · rw [if_neg hgt]
      have he : f.beg = f.stop := by omega
      simp [he]

/-- fifo_write keeps the stream whole, whatever the kernel does: the accepted bytes and what
is left in the ring are what was there, and the return value says how many they are, or that
nothing has been accepted because the first write failed. -/
theorem rawFifo_write_conserves (f : RawFifo) (hf : f.WellFormed) (fd : Int) (k : Kernel) :
    ∃ cnt f' k' sent, f.write fd k = some (cnt, f', k') ∧ Sent fd sent k k' ∧
      f.contents = sent ++ f'.contents ∧ f'.WellFormed ∧ f'.size = f.size ∧
      (cnt = -1 ↔ f.contents ≠ [] ∧ k.FailsNext fd) ∧ (cnt = -1 → f' = f ∧ sent = []) ∧
      (cnt ≠ -1 → cnt = sent.length) := by
  obtain ⟨g, rfl, -⟩ := hf.exists_raw
  have hle : (g.size : Int) ≤ intMax := hf.size_le
  obtain ⟨sent, hwrote, hcnt⟩ := fifoWrite_wrote g fd k
  obtain ⟨hiff, hkept⟩ := fifoWrite_failed g fd k
  have hempty : g.raw.contents ≠ [] ↔ g.beg ≠ g.stop := by
    rw [raw_contents, Fifo.contents, ne_eq, Buffer.toList_eq_nil_iff, Buffer.count_eq_zero_iff]
  refine ⟨_, _, _, sent, raw_write g hle fd k, hwrote.sent, ?_, ?_, ?_, ?_, ?_, ?_⟩
  · rw [raw_contents, raw_contents]
    exact hwrote.contents
  · apply raw_wellFormed
    rw [hwrote.size]
    exact hle
  · rw [raw_size, raw_size, hwrote.size]
  · rw [hempty]
    exact hiff
  · intro h
    rw [hkept h]
    obtain hlen | ⟨-, hnil⟩ := hcnt
    · omega
    · exact ⟨rfl, hnil⟩
  · intro h
    obtain hlen | ⟨hm, -⟩ := hcnt
    · exact hlen
    · exact absurd hm h

/-- Two bytes in the last cell and in the first. -/
def roundRing : RawFifo := ⟨fun n => n.toUInt8, 3, 1, 4⟩

theorem roundRing_wellFormed : roundRing.WellFormed :=
  ⟨by decide, by decide, by decide, by decide, by decide, by decide⟩

/-- The second of two writes fails. -/
theorem rawFifo_write_conserves_round :
    ∃ cnt f' k' sent,
      roundRing.write 1 ⟨[], [.fail .eintr, .accept 1, .fail .eagain], [], none, []⟩ = some (cnt, f', k') ∧
      roundRing.contents = sent ++ f'.contents ∧ (cnt ≠ -1 → cnt = sent.length) := by
  obtain ⟨cnt, f', k', sent, hw, -, hc, -, -, -, -, hlen⟩ :=
    rawFifo_write_conserves roundRing roundRing_wellFormed 1
      ⟨[], [.fail .eintr, .accept 1, .fail .eagain], [], none, []⟩
  exact ⟨cnt, f', k', sent, hw, hc, hlen⟩

end Rzh
