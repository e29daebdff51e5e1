/-
# Files written at offsets

A file is a list of bytes. A write at an offset replaces what is there and extends the file,
with zeros where nothing has been written. Writes that do not overlap commute, so that any order
of them leaves the same file.
-/

import Mathlib.Data.List.Pairwise
import Mathlib.Data.List.Perm.Basic

namespace DFTracer.Math.SparseBytes

open List

variable {α : Type} (zero : α) {w : Nat × List α}

/-- The file as if it were at least so long. -/
def fill (length : Nat) (file : List α) : List α :=
  file ++ List.replicate (length - file.length) zero

/-- The file after a write at an offset. -/
def write (file : List α) (w : Nat × List α) : List α :=
  if w.2 = [] then file
  else (fill zero w.1 file).take w.1 ++ w.2 ++ (fill zero w.1 file).drop (w.1 + w.2.length)

/-- Two writes do not overlap. -/
def Apart (v w : Nat × List α) : Prop := v.1 + v.2.length ≤ w.1 ∨ w.1 + w.2.length ≤ v.1

instance : Std.Symm (Apart : Nat × List α → Nat × List α → Prop) := ⟨fun _ _ => Or.symm⟩

theorem length_fill (length : Nat) (file : List α) :
    (fill zero length file).length = max length file.length := by
  rw [fill, length_append, length_replicate]
  omega

theorem getElem?_fill (length : Nat) (file : List α) (i : Nat) :
    (fill zero length file)[i]? =
      if i < file.length then file[i]? else if i < length then some zero else none := by
  unfold fill
  by_cases inside : i < file.length
  · rw [if_pos inside, getElem?_append_left inside]
  · rw [if_neg inside, getElem?_append_right (Nat.le_of_not_lt inside),
      getElem?_replicate]
    by_cases before : i < length
    · rw [if_pos before, if_pos (by omega)]
    · rw [if_neg before, if_neg (by omega)]

/-- What a file holds after a write. -/
theorem getElem?_write (file : List α) (some : w.2 ≠ []) (i : Nat) :
    (write zero file w)[i]? =
      if w.1 ≤ i ∧ i < w.1 + w.2.length then w.2[i - w.1]? else (fill zero w.1 file)[i]? := by
  have front : ((fill zero w.1 file).take w.1).length = w.1 := by
    rw [List.length_take, length_fill]
    omega
  rw [write, if_neg some, append_assoc]
  by_cases before : i < w.1
  · rw [if_neg (by omega), getElem?_append_left (by omega), getElem?_take, if_pos before]
  · rw [getElem?_append_right (by omega), front]
    by_cases inside : i < w.1 + w.2.length
    · rw [if_pos ⟨by omega, inside⟩, getElem?_append_left (by omega)]
    · rw [if_neg (by omega), getElem?_append_right (by omega), getElem?_drop]
      congr 1
      omega

theorem length_write (file : List α) (some : w.2 ≠ []) :
    (write zero file w).length = max file.length (w.1 + w.2.length) := by
  rw [write, if_neg some]
  simp only [length_append, List.length_take, length_drop, length_fill]
  omega

/-- Two writes that do not overlap can be made in either order. -/
theorem write_comm (file : List α) {v : Nat × List α} (apart : Apart v w) :
    write zero (write zero file v) w = write zero (write zero file w) v := by
  by_cases noneV : v.2 = []
  · simp only [write, noneV, if_true]
  · by_cases noneW : w.2 = []
    · simp only [write, noneW, if_true]
    · have lengthW : 0 < w.2.length := length_pos_iff.mpr noneW
      apply ext_getElem?
      intro i
      rw [getElem?_write zero _ noneW, getElem?_write zero _ noneV, getElem?_fill, getElem?_fill,
        getElem?_write zero _ noneV, getElem?_write zero _ noneW, length_write zero _ noneV,
        length_write zero _ noneW, getElem?_fill, getElem?_fill]
      rcases apart with apart | apart <;> split_ifs <;> first | rfl | omega

/-- Writes that do not overlap leave the same file in any order. -/
theorem writes_perm {order writes : List (Nat × List α)} (perm : order.Perm writes)
    (apart : writes.Pairwise Apart) (file : List α) :
    order.foldl (write zero) file = writes.foldl (write zero) file := by
  refine perm.foldl_eq' (fun v hv w hw file => ?_) file
  by_cases same : v = w
  · rw [same]
  · exact write_comm zero file
      (apart.forall (perm.subset hv) (perm.subset hw) same)

/-- A write past the end appends, after zeros up to its offset. -/
theorem write_past (file : List α) {offset : Nat} (past : file.length ≤ offset) {data : List α}
    (some : data ≠ []) : write zero file (offset, data) = fill zero offset file ++ data := by
  have length : (fill zero offset file).length = offset := by
    rw [length_fill, Nat.max_eq_left past]
  have beyond : (fill zero offset file).length ≤ offset + data.length := by omega
  unfold write
  rw [if_neg some, take_of_length_le (Nat.le_of_eq length), drop_eq_nil_of_le beyond, append_nil]

end DFTracer.Math.SparseBytes
