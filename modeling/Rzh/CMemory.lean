/-!
# The C library's memory

A block is the list of its bytes. Where a call would touch a byte that is not in its block it has no outcome.
-/
namespace Rzh

/-- realloc: the old bytes stay and the others are what happens to be in the memory, if there is any. -/
def realloc (old : List UInt8) (n : Int) (memory : Option (Nat → UInt8)) : Option (List UInt8) :=
  if n < 0 then none
  else memory.map fun junk => (List.range n.toNat).map fun i => old.getD i (junk i)

/-- memcpy of `size` bytes of `buf` to the bytes of the block from `off` on. -/
def memcpy (block : List UInt8) (off : Int) (buf : List UInt8) (size : Int) : Option (List UInt8) :=
  if 0 ≤ off ∧ 0 ≤ size ∧ off + size ≤ block.length ∧ size ≤ buf.length then
    some (block.take off.toNat ++ buf.take size.toNat ++ block.drop (off.toNat + size.toNat))
  else none

/-- A block of `n` bytes that has not been written to. -/
def fresh (memory : Nat → UInt8) (n : Nat) : List UInt8 := (List.range n).map memory

/-- A character is stored at an index. -/
def store (block : List UInt8) (i : Int) (c : UInt8) : Option (List UInt8) :=
  if 0 ≤ i ∧ i < block.length then some (block.set i.toNat c) else none

/-- Characters are stored one after the other, the first of them at `i`. -/
def stores (block : List UInt8) (i : Int) : List UInt8 → Option (List UInt8)
  | [] => some block
  | c :: cs => (store block i c).bind fun block => stores block (i + 1) cs

/-- The first `n` characters of a block. -/
def load (block : List UInt8) (n : Int) : Option (List UInt8) :=
  if 0 ≤ n ∧ n ≤ block.length then some (block.take n.toNat) else none

variable {old block buf : List UInt8} {n off size : Int} {memory : Option (Nat → UInt8)}

theorem realloc_length {new : List UInt8} (h : realloc old n memory = some new) :
    (new.length : Int) = n := by
  rw [realloc] at h
  split at h
  · cases h
  · obtain ⟨junk, -, rfl⟩ := Option.map_eq_some_iff.mp h
    rw [List.length_map, List.length_range]
    omega

/-- What lay in the old block lies in the new one. -/
theorem realloc_take {new : List UInt8} (h : realloc old n memory = some new) {k : Nat}
    (hk : k ≤ old.length) (hn : (k : Int) ≤ n) : new.take k = old.take k := by
  rw [realloc] at h
  split at h
  · cases h
  · obtain ⟨junk, -, rfl⟩ := Option.map_eq_some_iff.mp h
    apply List.ext_getElem?
    intro i
    by_cases hi : i < k
    · have hlt : i < old.length := by omega
      rw [List.getElem?_take_of_lt hi, List.getElem?_take_of_lt hi, List.getElem?_map,
        List.getElem?_range (by omega), Option.map_some, List.getD_eq_getElem?_getD,
        List.getElem?_eq_getElem hlt, Option.getD_some]
    · rw [List.getElem?_take, List.getElem?_take, if_neg hi, if_neg hi]

theorem realloc_none (hn : 0 ≤ n) (h : realloc old n memory = none) : memory = none := by
  rw [realloc, if_neg (by omega)] at h
  exact Option.map_eq_none_iff.mp h

theorem memcpy_inside (hoff : 0 ≤ off) (hsize : 0 ≤ size) (hblock : off + size ≤ block.length)
    (hbuf : size ≤ buf.length) :
    memcpy block off buf size =
      some (block.take off.toNat ++ buf.take size.toNat ++ block.drop (off.toNat + size.toNat)) := by
  rw [memcpy, if_pos ⟨hoff, hsize, hblock, hbuf⟩]

theorem length_fresh (junk : Nat → UInt8) (n : Nat) : (fresh junk n).length = n := by
  rw [fresh, List.length_map, List.length_range]

/-- Characters that all fit replace what was there. -/
theorem stores_inside {i : Nat} {cs : List UInt8} (h : i + cs.length ≤ block.length) :
    stores block i cs = some (block.take i ++ (cs ++ block.drop (i + cs.length))) := by
  induction cs generalizing block i with
  | nil =>
    have hall : block.take i ++ block.drop i = block := List.take_append_drop i block
    exact congrArg some hall.symm
  | cons c cs ih =>
    rw [List.length_cons] at h
    have hstore : store block i c = some (block.set i c) := if_pos ⟨by omega, by omega⟩
    have hnext : ((i : Int) + 1) = ((i + 1 : Nat) : Int) := rfl
    have hlength : i + 1 + cs.length ≤ (block.set i c).length := by
      rw [List.length_set]
      omega
    have htake : (block.set i c).take (i + 1) = block.take i ++ [c] := by
      rw [List.take_succ_eq_append_getElem (by omega), List.take_set_of_le (Nat.le_refl i), List.getElem_set_self]
    rw [stores, hstore, Option.bind_some, hnext, ih hlength, htake, List.drop_set_of_lt (by omega)]
    simp [Nat.add_assoc, Nat.add_comm 1]

/-- A store in front of the block has no outcome. -/
theorem stores_before {i : Int} {c : UInt8} {cs : List UInt8} (h : i < 0) : stores block i (c :: cs) = none := by
  have hstore : store block i c = none := if_neg (by omega)
  rw [stores, hstore, Option.bind_none]

theorem load_append (front back : List UInt8) : load (front ++ back) front.length = some front := by
  rw [load, if_pos, Int.toNat_natCast, List.take_left]
  rw [List.length_append]
  omega

end Rzh
