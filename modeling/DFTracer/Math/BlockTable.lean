/-
# Tables in blocks

A directory of blocks that are allocated when something is stored in them first. An index is split
into the number of its block, the high bits, and a place in the block, the low bits.
-/

import Mathlib.Data.Nat.Bitwise

namespace DFTracer.Math

/-- A directory of blocks, of which some are allocated. -/
structure BlockTable (α : Type) where
  block : Nat → Option (Nat → Option α)

namespace BlockTable

variable {α : Type} {bits i j : Nat}

def empty : BlockTable α := ⟨fun _ => none⟩

/-- What is stored at an index, where blocks have `2 ^ bits` places. -/
def get (bits : Nat) (t : BlockTable α) (i : Nat) : Option α :=
  (t.block (i >>> bits)).bind fun places => places (i &&& (2 ^ bits - 1))

/-- Store at an index, in a block that is allocated if need be. -/
def set (bits : Nat) (t : BlockTable α) (i : Nat) (v : α) : BlockTable α where
  block b :=
    if b = i >>> bits then
      some fun place =>
        if place = i &&& (2 ^ bits - 1) then some v else (t.block b).bind fun places => places place
    else t.block b

/-- An index is its block and its place. -/
theorem eq_of_parts (high : i >>> bits = j >>> bits)
    (low : i &&& (2 ^ bits - 1) = j &&& (2 ^ bits - 1)) : i = j := by
  rw [Nat.shiftRight_eq_div_pow, Nat.shiftRight_eq_div_pow] at high
  rw [Nat.and_two_pow_sub_one_eq_mod, Nat.and_two_pow_sub_one_eq_mod] at low
  rw [← Nat.div_add_mod i (2 ^ bits), ← Nat.div_add_mod j (2 ^ bits), high, low]

@[simp] theorem get_set_self (bits : Nat) (t : BlockTable α) (i : Nat) (v : α) :
    (t.set bits i v).get bits i = some v := by
  simp [get, set]

theorem get_set_ne (t : BlockTable α) (v : α) (apart : j ≠ i) :
    (t.set bits i v).get bits j = t.get bits j := by
  simp only [get, set]
  by_cases high : j >>> bits = i >>> bits
  · have low : j &&& (2 ^ bits - 1) ≠ i &&& (2 ^ bits - 1) := fun low =>
      apart (eq_of_parts high low)
    rw [if_pos high]
    exact if_neg low
  · rw [if_neg high]

end BlockTable

end DFTracer.Math
