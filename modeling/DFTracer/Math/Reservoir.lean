/-
# A reservoir of least keys

Of the indices so far a reservoir holds those with the least keys, as many as it has room for.
The least of the reservoir and of more indices are the least of all of them, and indices with
different keys have one reservoir.
-/

import Mathlib

namespace DFTracer.Math

open List

/-- A selection that puts as many elements as are asked for first, those with the least keys,
in any order. -/
structure NthElement (κ : Type) [LT κ] where
  run : ∀ {α : Type}, (α → κ) → Nat → List α → List α
  perm : ∀ {α : Type} (key : α → κ) (n : Nat) (xs : List α), (run key n xs).Perm xs
  split : ∀ {α : Type} (key : α → κ) (n : Nat) (xs : List α), ∀ a ∈ (run key n xs).take n,
    ∀ b ∈ (run key n xs).drop n, ¬ key b < key a

variable {κ : Type} [LinearOrder κ]

/-- A list that is sorted by a key is in the order of the key. -/
theorem pairwise_mergeSort_key {α : Type} (key : α → κ) (xs : List α) :
    (xs.mergeSort fun a b => key a ≤ key b).Pairwise fun a b => key a ≤ key b := by
  have sorted := @pairwise_mergeSort _ (fun a b => decide (key a ≤ key b))
    (fun a b c hab hbc => decide_eq_true (le_trans (of_decide_eq_true hab) (of_decide_eq_true hbc)))
    (fun a b => by rcases le_total (key a) (key b) with h | h <;> simp [h]) xs
  exact sorted.imp of_decide_eq_true

/-- Sorting is such a selection. -/
def NthElement.sorting : NthElement κ where
  run key _ xs := xs.mergeSort fun a b => key a ≤ key b
  perm _ _ xs := xs.mergeSort_perm _
  split key n xs a ha b hb := by
    have sorted := pairwise_mergeSort_key key xs
    rw [← List.take_append_drop n (xs.mergeSort _)] at sorted
    exact not_lt.mpr ((List.pairwise_append.mp sorted).2.2 a ha b hb)

/-- The indices below `off` that have the least keys. -/
structure Smallest (key : Nat → κ) (n off : Nat) (chosen : List Nat) : Prop where
  nodup : chosen.Nodup
  inside : ∀ i ∈ chosen, i < off
  length : chosen.length = min n off
  least : ∀ i ∈ chosen, ∀ j < off, j ∉ chosen → key i < key j

namespace Smallest

variable {key : Nat → κ} {n off : Nat} {chosen chosen' : List Nat}

theorem zero (key : Nat → κ) (n : Nat) : Smallest key n 0 [] where
  nodup := nodup_nil
  inside := by
    rintro i ⟨⟩
  length := (Nat.min_zero n).symm
  least := by
    rintro i ⟨⟩

section

variable (h : Smallest key n off chosen)

include h

/-- An index that is left out has no room. -/
theorem full {j : Nat} (hj : j < off) (out : j ∉ chosen) :
    chosen.length = n := by
  have sub : (j :: chosen).Subperm (List.range off) := by
    refine (nodup_cons.mpr ⟨out, h.nodup⟩).subperm fun i hi => ?_
    rcases mem_cons.mp hi with rfl | hi
    · exact mem_range.mpr hj
    · exact mem_range.mpr (h.inside i hi)
  have fewer := sub.length_le
  rw [length_cons, length_range] at fewer
  have length := h.length
  omega

/-- Two reservoirs of the same indices hold the same. -/
theorem perm (h' : Smallest key n off chosen') :
    chosen.Perm chosen' := by
  have same : chosen ⊆ chosen' := by
    intro i hi
    by_contra out
    have other : ¬ chosen' ⊆ chosen := by
      intro sub
      have all : (i :: chosen').Subperm chosen := by
        refine (nodup_cons.mpr ⟨out, h'.nodup⟩).subperm fun j hj => ?_
        rcases mem_cons.mp hj with rfl | hj
        · exact hi
        · exact sub hj
      have fewer := all.length_le
      rw [length_cons, h.length, h'.length] at fewer
      omega
    obtain ⟨j, hj, out'⟩ : ∃ j ∈ chosen', j ∉ chosen := by
      by_contra none
      push Not at none
      exact other none
    have below := h.least i hi j (h'.inside j hj) out'
    have above := h'.least j hj i (h.inside i hi) out
    exact lt_asymm below above
  exact (h.nodup.subperm same).perm_of_length_le (by rw [h.length, h'.length])

/-- The least of a reservoir and of the indices that follow are the least of all. -/
theorem absorb {m : Nat}
    (distinct : ∀ i < off + m, ∀ j < off + m, key i = key j → i = j) {kept left : List Nat}
    (perm : (kept ++ left).Perm (chosen ++ List.range' off m))
    (length : kept.length = min n (chosen.length + m))
    (least : ∀ i ∈ kept, ∀ j ∈ left, ¬ key j < key i) : Smallest key n (off + m) kept := by
  have mem (i : Nat) : i ∈ kept ∨ i ∈ left ↔ i ∈ chosen ∨ (off ≤ i ∧ i < off + m) := by
    rw [← mem_append, perm.mem_iff, mem_append, mem_range'_1]
  have nodup : (kept ++ left).Nodup := by
    refine perm.nodup_iff.mpr (nodup_append.mpr ⟨h.nodup, nodup_range', ?_⟩)
    rintro i hi j hj rfl
    have := h.inside i hi
    have := (mem_range'_1.mp hj).1
    omega
  have parts := nodup_append.mp nodup
  have within (i : Nat) (hi : i ∈ kept ∨ i ∈ left) : i < off + m := by
    rcases (mem i).mp hi with hi | hi
    · have := h.inside i hi
      omega
    · exact hi.2
  -- among what was to choose from, equal keys are excluded
  have below (i : Nat) (hi : i ∈ kept) (j : Nat) (hj : j ∈ left) : key i < key j := by
    rcases lt_trichotomy (key i) (key j) with lt | eq | gt
    · exact lt
    · have same := distinct i (within i (.inl hi)) j (within j (.inr hj)) eq
      exact absurd same (parts.2.2 i hi j hj)
    · exact absurd gt (least i hi j hj)
  have count := h.length
  refine ⟨parts.1, fun i hi => within i (.inl hi), by omega, fun i hi j hj out => ?_⟩
  by_cases open_ : j ∈ left
  · exact below i hi j open_
  · -- `j` was left out before, so the old reservoir is full and one of it is left out now
    have old : j ∉ chosen ∧ j < off := by
      have none : ¬ (j ∈ kept ∨ j ∈ left) := by
        rintro (h | h)
        · exact out h
        · exact open_ h
      rw [mem] at none
      push Not at none
      exact ⟨none.1, by omega⟩
    have full := h.full old.2 old.1
    by_cases was : i ∈ chosen
    · exact h.least i was j old.2 old.1
    · obtain ⟨l, hl, gone⟩ : ∃ l ∈ chosen, l ∉ kept := by
        by_contra none
        push Not at none
        have all : (i :: chosen).Subperm kept := by
          refine (nodup_cons.mpr ⟨was, h.nodup⟩).subperm fun l hl => ?_
          rcases mem_cons.mp hl with rfl | hl
          · exact hi
          · exact none l hl
        have fewer := all.length_le
        rw [length_cons] at fewer
        omega
      have now : l ∈ left := by
        rcases (mem l).mpr (.inl hl) with h | h
        · exact absurd h gone
        · exact h
      exact (below i hi l now).trans (h.least l hl j old.2 old.1)

end

end Smallest

end DFTracer.Math
