/-
# Timestamp histograms

A sparse histogram of timestamps in bins of 100 milliseconds. Only bins that
hold an event are stored, in increasing order, so the count of a range is a sum
over a consecutive part of the list.
-/

import Mathlib.Algebra.Order.BigOperators.Group.List
import Mathlib.Algebra.Order.Ring.Nat

namespace DFTracer.Indexing

open List

/-- `TimestampHistogram`. Timestamps are microseconds below `2 ^ 64`. -/
structure TimestampHistogram where
  /-- Pairs of a bin index and the number of events in that bin. -/
  bins : List (Nat × Nat)
  /-- The bins are in strictly increasing order. -/
  sorted : bins.Pairwise (·.1 < ·.1)
  totalCount : Nat

namespace TimestampHistogram

/-- `bin_index`. -/
def binIndex (timestamp : Nat) : Nat := timestamp / 100000

def empty : TimestampHistogram := ⟨[], .nil, 0⟩

/-- One more event in a bin: the bin found by `lower_bound` is counted up, or a
new one is inserted there. -/
def insertBin (index : Nat) : List (Nat × Nat) → List (Nat × Nat)
  | [] => [(index, 1)]
  | (i, count) :: rest =>
    if i < index then (i, count) :: insertBin index rest
    else if i = index then (i, count + 1) :: rest
    else (index, 1) :: (i, count) :: rest

variable {bins : List (Nat × Nat)} {bin : Nat × Nat} {histogram : TimestampHistogram}
  {timestamp : Nat}

/-- A bin of the result was there before, or is the one counted up. -/
theorem fst_of_mem_insertBin {index : Nat}
    (listed : bin ∈ insertBin index bins) : bin.1 = index ∨ bin ∈ bins := by
  induction bins with
  | nil => exact .inl (congrArg Prod.fst (mem_singleton.mp listed))
  | cons head rest ih =>
    unfold insertBin at listed
    split at listed
    · rcases mem_cons.mp listed with rfl | later
      · exact .inr mem_cons_self
      · exact (ih later).imp_right (mem_cons_of_mem _)
    · split at listed
      · rename_i here
        rcases mem_cons.mp listed with rfl | later
        · exact .inl here
        · exact .inr (mem_cons_of_mem _ later)
      · rcases mem_cons.mp listed with rfl | later
        · exact .inl rfl
        · exact .inr later

theorem sorted_insertBin (index : Nat)
    (sorted : bins.Pairwise (·.1 < ·.1)) : (insertBin index bins).Pairwise (·.1 < ·.1) := by
  induction bins with
  | nil => exact pairwise_singleton _ _
  | cons head rest ih =>
    obtain ⟨i, count⟩ := head
    obtain ⟨above, tail⟩ := pairwise_cons.mp sorted
    unfold insertBin
    split
    · rename_i before
      refine pairwise_cons.mpr ⟨fun bin listed => ?_, ih tail⟩
      rcases fst_of_mem_insertBin listed with same | listed
      · rw [same]
        exact before
      · exact above bin listed
    · split
      · exact pairwise_cons.mpr ⟨above, tail⟩
      · rename_i notBefore notHere
        refine pairwise_cons.mpr ⟨fun bin listed => ?_, sorted⟩
        have later : i ≤ bin.1 := by
          rcases mem_cons.mp listed with rfl | listed
          · exact Nat.le_refl _
          · exact Nat.le_of_lt (above bin listed)
        omega

/-- `add`. -/
def add (histogram : TimestampHistogram) (timestamp : Nat) : TimestampHistogram where
  bins := insertBin (binIndex timestamp) histogram.bins
  sorted := sorted_insertBin _ histogram.sorted
  totalCount := histogram.totalCount + 1

/-- `count_in_range`: the events of the bins that meet `[start, stop)`. -/
def countInRange (histogram : TimestampHistogram) (start stop : Nat) : Nat :=
  if start < stop then
    let from_start := histogram.bins.dropWhile fun bin => bin.1 < binIndex start
    ((from_start.takeWhile fun bin => bin.1 ≤ binIndex (stop - 1)).map Prod.snd).sum
  else 0

/-- The histogram has a non-empty bin for this timestamp. -/
def Holds (histogram : TimestampHistogram) (timestamp : Nat) : Prop :=
  ∃ count, 0 < count ∧ (binIndex timestamp, count) ∈ histogram.bins

/-- A bin counted up or inserted is not empty. -/
theorem mem_insertBin (index : Nat) (bins : List (Nat × Nat)) :
    ∃ count, 0 < count ∧ (index, count) ∈ insertBin index bins := by
  induction bins with
  | nil => exact ⟨1, Nat.one_pos, mem_cons_self⟩
  | cons head rest ih =>
    obtain ⟨i, count⟩ := head
    unfold insertBin
    split
    · obtain ⟨n, positive, listed⟩ := ih
      exact ⟨n, positive, mem_cons_of_mem _ listed⟩
    · split
      · rename_i here
        subst here
        exact ⟨count + 1, Nat.succ_pos _, mem_cons_self⟩
      · exact ⟨1, Nat.one_pos, mem_cons_self⟩

/-- Counting up one bin keeps every other bin non-empty. -/
theorem mem_insertBin_of {other : Nat} (index : Nat)
    (held : ∃ count, 0 < count ∧ (other, count) ∈ bins) :
    ∃ count, 0 < count ∧ (other, count) ∈ insertBin index bins := by
  induction bins with
  | nil =>
    obtain ⟨_, _, listed⟩ := held
    exact absurd listed not_mem_nil
  | cons head rest ih =>
    obtain ⟨i, current⟩ := head
    obtain ⟨count, positive, listed⟩ := held
    unfold insertBin
    split
    · rcases mem_cons.mp listed with same | later
      · exact ⟨count, positive, by rw [same]; exact mem_cons_self⟩
      · obtain ⟨n, positive, listed⟩ := ih ⟨count, positive, later⟩
        exact ⟨n, positive, mem_cons_of_mem _ listed⟩
    · split
      · rcases mem_cons.mp listed with same | later
        · obtain ⟨rfl, rfl⟩ := Prod.mk.inj same
          exact ⟨count + 1, Nat.succ_pos _, mem_cons_self⟩
        · exact ⟨count, positive, mem_cons_of_mem _ later⟩
      · exact ⟨count, positive, mem_cons_of_mem _ listed⟩

theorem holds_add (histogram : TimestampHistogram) (timestamp : Nat) :
    (histogram.add timestamp).Holds timestamp :=
  mem_insertBin _ _

theorem Holds.add
    (held : histogram.Holds timestamp) (added : Nat) : (histogram.add added).Holds timestamp :=
  mem_insertBin_of _ held

/-- In a sorted list, everything up to a bound is in the part taken. -/
theorem mem_takeWhile_of_le {bound : Nat}
    (sorted : bins.Pairwise (·.1 < ·.1)) (listed : bin ∈ bins) (below : bin.1 ≤ bound) :
    bin ∈ bins.takeWhile fun bin => bin.1 ≤ bound := by
  induction bins with
  | nil => exact absurd listed not_mem_nil
  | cons head rest ih =>
    obtain ⟨above, tail⟩ := pairwise_cons.mp sorted
    rcases mem_cons.mp listed with rfl | later
    · rw [takeWhile_cons_of_pos (by simpa using below)]
      exact mem_cons_self
    · have := above bin later
      rw [takeWhile_cons_of_pos (by simp; omega)]
      exact mem_cons_of_mem _ (ih tail later)

/-- What does not satisfy the predicate is not dropped. -/
theorem mem_dropWhile_of_not {p : Nat × Nat → Bool} (listed : bin ∈ bins) (kept : p bin = false) :
    bin ∈ bins.dropWhile p := by
  induction bins with
  | nil => exact absurd listed not_mem_nil
  | cons head rest ih =>
    cases dropped : p head with
    | true =>
      rw [dropWhile_cons_of_pos dropped]
      rcases mem_cons.mp listed with rfl | later
      · exact absurd (dropped.symm.trans kept) (by decide)
      · exact ih later
    | false =>
      rw [dropWhile_cons_of_neg (by simp [dropped])]
      exact listed

/-- A range whose bins contain a recorded timestamp is not counted as empty. -/
theorem countInRange_pos {start stop : Nat}
    (held : histogram.Holds timestamp) (nonempty : start < stop) (after : start ≤ timestamp)
    (before : binIndex timestamp ≤ binIndex (stop - 1)) :
    0 < histogram.countInRange start stop := by
  obtain ⟨count, positive, listed⟩ := held
  have low : binIndex start ≤ binIndex timestamp := Nat.div_le_div_right after
  have kept : (binIndex timestamp, count) ∈
      histogram.bins.dropWhile fun bin => bin.1 < binIndex start :=
    mem_dropWhile_of_not listed (by simpa using low)
  have taken := mem_takeWhile_of_le
    (histogram.sorted.sublist (dropWhile_sublist _)) kept before
  unfold countInRange
  rw [if_pos nonempty]
  exact Nat.lt_of_lt_of_le positive
    (single_le_sum (by simp) _ (mem_map.mpr ⟨_, taken, rfl⟩))

end TimestampHistogram

end DFTracer.Indexing
