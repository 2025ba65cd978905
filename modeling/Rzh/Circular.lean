import Mathlib.Data.List.Basic

/-!
# Circular buffers

A block of `size` cells, the index of the first occupied cell and the index one
past the last. One cell always stays empty, so equal indices mean an empty
buffer. Memory is a total function of the cell index; the contents are read off
it as a list, and every operation is judged by what it does to that list.
-/
namespace Circular

variable {α : Type}

/-- Memory after `xs` has been copied to the cells from `off` on. -/
def blit (m : Nat → α) (off : Nat) (xs : List α) : Nat → α :=
  fun j => if h : off ≤ j ∧ j - off < xs.length then xs[j - off] else m j

/-- The `n` cells from `off` on. -/
def block (m : Nat → α) (off n : Nat) : List α := (List.range n).map fun i => m (off + i)

@[simp] theorem block_length (m : Nat → α) (off n : Nat) : (block m off n).length = n := by
  simp [block]

/-- The indices always lie inside the block; this is part of the type. -/
structure Buffer (α : Type) where
  size : Nat
  buf : Nat → α
  beg : Nat
  stop : Nat
  beg_lt : beg < size
  stop_lt : stop < size

namespace Buffer

variable (r : Buffer α)

def count : Nat := (r.size + r.stop - r.beg) % r.size

def avail : Nat := (r.size + r.beg - r.stop - 1) % r.size

/-- The cell `i` places after the first occupied one. -/
def cell (i : Nat) : α := r.buf ((r.beg + i) % r.size)

/-- What the buffer holds, oldest first. -/
def toList : List α := (List.range r.count).map r.cell

theorem size_pos : 0 < r.size := Nat.lt_of_le_of_lt (Nat.zero_le _) r.beg_lt

/-- An index that goes round the block at most once. -/
theorem mod_of_wrap {a n : Nat} (h : a < 2 * n) : a % n = if a < n then a else a - n := by
  split
  · next hlt => exact Nat.mod_eq_of_lt hlt
  · rw [Nat.mod_eq_sub_mod (by omega), Nat.mod_eq_of_lt (by omega)]

/-- Counting by subtraction, with at most one wrap. -/
theorem count_eq : r.count = if r.beg ≤ r.stop then r.stop - r.beg else r.size + r.stop - r.beg := by
  have hb := r.beg_lt
  have hs := r.stop_lt
  rw [count, mod_of_wrap (by omega)]
  split <;> split <;> omega

theorem avail_eq : r.avail =
    if r.stop < r.beg then r.beg - r.stop - 1 else r.size + r.beg - r.stop - 1 := by
  have hb := r.beg_lt
  have hs := r.stop_lt
  rw [avail, mod_of_wrap (by omega)]
  split <;> split <;> omega

/-- Occupied and free cells make up all but the one that stays empty. -/
theorem count_add_avail : r.count + r.avail + 1 = r.size := by
  have hb := r.beg_lt
  have hs := r.stop_lt
  rw [count_eq, avail_eq]
  split <;> split <;> omega

theorem count_lt : r.count < r.size := by
  have := r.count_add_avail
  omega

theorem count_eq_zero_iff : r.count = 0 ↔ r.beg = r.stop := by
  have hb := r.beg_lt
  have hs := r.stop_lt
  rw [count_eq]
  split <;> omega

@[simp] theorem toList_length : r.toList.length = r.count := by simp [toList]

@[simp] theorem toList_getElem (i : Nat) (h : i < r.toList.length) : r.toList[i] = r.cell i := by
  simp [toList]

theorem toList_eq_nil_iff : r.toList = [] ↔ r.count = 0 := by
  rw [← List.length_eq_zero_iff, toList_length]

/-- The physical index of the `i`-th place, with at most one wrap. -/
theorem index_eq (i : Nat) (h : i ≤ r.size) :
    (r.beg + i) % r.size = if r.beg + i < r.size then r.beg + i else r.beg + i - r.size := by
  have hb := r.beg_lt
  exact mod_of_wrap (by omega)

/-- Rule for adding at the back: old places unchanged, the next ones hold `xs`. -/
theorem toList_push (r r' : Buffer α) {xs : List α} (hsize : r'.size = r.size)
    (hbeg : r'.beg = r.beg) (hstop : r'.stop = (r.stop + xs.length) % r.size)
    (hfit : xs.length ≤ r.avail) (hold : ∀ i < r.count, r'.cell i = r.cell i)
    (hnew : ∀ i, (h : i < xs.length) → r'.cell (r.count + i) = xs[i]) :
    r'.toList = r.toList ++ xs := by
  have hb := r.beg_lt
  have hs := r.stop_lt
  have hsum := r.count_add_avail
  have hcount : r'.count = r.count + xs.length := by
    have hc := r.count_eq
    rw [count_eq, hsize, hbeg, hstop, mod_of_wrap (by omega)]
    split at hc <;> split <;> split <;> omega
  apply List.ext_getElem
  · simp [hcount]
  · intro i hi hi'
    simp only [toList_length] at hi
    by_cases hlt : i < r.count
    · rw [List.getElem_append_left (by simpa using hlt), toList_getElem, toList_getElem]
      exact hold i hlt
    · rw [List.getElem_append_right (by simpa using hlt), toList_getElem]
      have he := hnew (i - r.count) (by omega)
      rw [Nat.add_sub_cancel' (by omega)] at he
      simpa using he

/-- Rule for taking from the front: the first index moves over `n` occupied cells. -/
theorem toList_drop (r r' : Buffer α) {n : Nat} (hsize : r'.size = r.size)
    (hbuf : r'.buf = r.buf) (hstop : r'.stop = r.stop) (hbeg : r'.beg = (r.beg + n) % r.size)
    (hn : n ≤ r.count) : r'.toList = r.toList.drop n := by
  have hb := r.beg_lt
  have hs := r.stop_lt
  have hlt := r.count_lt
  have hmod := r.index_eq n (by omega)
  have hcount : r'.count = r.count - n := by
    have hc := r.count_eq
    rw [count_eq, hsize, hstop, hbeg, hmod]
    split at hc <;> split <;> split <;> omega
  apply List.ext_getElem
  · simp [hcount]
  · intro i hi hi'
    simp only [toList, List.getElem_map, List.getElem_range, List.getElem_drop, cell, hbuf, hsize,
      hbeg]
    congr 1
    rw [Nat.mod_add_mod, Nat.add_assoc]

/-- Rule for adding at the front: the first index moves back, and the places it moves over
hold `xs`. -/
theorem toList_unshift (r r' : Buffer α) {xs : List α} (hsize : r'.size = r.size)
    (hstop : r'.stop = r.stop) (hbeg : (r'.beg + xs.length) % r.size = r.beg)
    (hfit : xs.length ≤ r.avail) (hold : ∀ i < r.count, r'.cell (xs.length + i) = r.cell i)
    (hnew : ∀ i, (h : i < xs.length) → r'.cell i = xs[i]) :
    r'.toList = xs ++ r.toList := by
  have hs := r.stop_lt
  have hb := r.beg_lt
  have hb' := r'.beg_lt
  have hsum := r.count_add_avail
  have hcount : r'.count = xs.length + r.count := by
    have hc := r.count_eq
    rw [mod_of_wrap (by omega)] at hbeg
    rw [count_eq, hsize, hstop]
    split at hc <;> split at hbeg <;> split <;> omega
  apply List.ext_getElem
  · simp [hcount]
  · intro i hi hi'
    simp only [toList_length] at hi
    by_cases hlt : i < xs.length
    · rw [List.getElem_append_left hlt, toList_getElem]
      exact hnew i hlt
    · rw [List.getElem_append_right (by omega), toList_getElem, toList_getElem]
      have he := hold (i - xs.length) (by omega)
      rw [Nat.add_sub_cancel' (by omega)] at he
      exact he

/-- An unwrapped buffer lies in one block. -/
theorem toList_of_le (h : r.beg ≤ r.stop) : r.toList = block r.buf r.beg (r.stop - r.beg) := by
  have hs := r.stop_lt
  have hc : r.count = r.stop - r.beg := by rw [count_eq, if_pos h]
  rw [toList, block, hc]
  apply List.map_congr_left
  intro i hi
  have := List.mem_range.mp hi
  simp only [cell]
  rw [Nat.mod_eq_of_lt (by omega)]

/-- A wrapped buffer lies in two: up to the end of the cells, then from cell zero. -/
theorem toList_of_lt (h : r.stop < r.beg) :
    r.toList = block r.buf r.beg (r.size - r.beg) ++ block r.buf 0 r.stop := by
  have hb := r.beg_lt
  have hc : r.count = r.size + r.stop - r.beg := by rw [count_eq, if_neg (by omega)]
  apply List.ext_getElem
  · simp [hc]
    omega
  · intro i hi hi'
    simp only [toList_length] at hi
    simp only [toList_getElem, block, List.getElem_map, List.getElem_range, List.getElem_append,
      List.length_map, List.length_range, cell]
    rw [r.index_eq i (by omega)]
    split
    · rw [dif_pos (by omega)]
    · rw [dif_neg (by omega)]
      congr 1
      omega

/-- The first `n` places, if they do not go round the end. -/
theorem take_eq_block {n : Nat} (hn : n ≤ r.count) (h : r.beg + n ≤ r.size) :
    r.toList.take n = block r.buf r.beg n := by
  apply List.ext_getElem
  · simp [hn]
  · intro i hi hi'
    have hlt : i < n := by simpa using hi'
    simp only [List.getElem_take, toList_getElem, block, List.getElem_map, List.getElem_range, cell]
    rw [Nat.mod_eq_of_lt (by omega)]

/-- If they do, they lie in two blocks. -/
theorem take_eq_blocks {n : Nat} (hn : n ≤ r.count) (h : r.size < r.beg + n) :
    r.toList.take n = block r.buf r.beg (r.size - r.beg) ++ block r.buf 0 (n - (r.size - r.beg)) := by
  have hb := r.beg_lt
  have hlt := r.count_lt
  apply List.ext_getElem
  · simp [hn]
    omega
  · intro i hi hi'
    have hi : i < n := by
      rw [List.length_take] at hi
      omega
    simp only [List.getElem_take, toList_getElem, block, List.getElem_map, List.getElem_range,
      List.getElem_append, List.length_map, List.length_range, cell]
    rw [r.index_eq i (by omega)]
    split
    · rw [dif_pos (by omega)]
    · rw [dif_neg (by omega)]
      congr 1
      omega

end Buffer

end Circular
