/-
# Sweeping over the ends of intervals

Intervals are stored as what changes at their ends: one more is open at a start and one less at
an end. Summing the changes up to a time gives the number of intervals over it. A sweep goes over
the points of change in order and keeps the number that is open, so that it finds the times that
are covered and the most that are open at once.
-/

import Mathlib.MeasureTheory.Measure.Lebesgue.Basic

namespace DFTracer.Math

open Finset

/-- What is open at a time, summed from the changes until then. -/
def level (change : ℕ → ℤ) (t : ℕ) : ℤ := ∑ u ∈ range (t + 1), change u

/-! ## The sweep -/

/-- What a sweep keeps: the number that is open, the time covered so far, the most that was open
at once, and the last point. -/
structure Sweep where
  depth : ℤ := 0
  busy : ℕ := 0
  peak : ℕ := 0
  last : ℕ := 0

/-- Go on to a point of change. -/
def Sweep.step (s : Sweep) (point : ℕ × ℤ) : Sweep where
  depth := s.depth + point.2
  busy := if 0 < s.depth then s.busy + (point.1 - s.last) else s.busy
  peak := max s.peak (s.depth + point.2).toNat
  last := point.1

/-- The sweep has seen all changes before a time. -/
structure Swept (change : ℕ → ℤ) (n : ℕ) (s : Sweep) : Prop where
  last_le : s.last ≤ n
  depth : s.depth = ∑ u ∈ range n, change u
  flat : ∀ t, s.last ≤ t → t < n → level change t = s.depth
  busy : s.busy = #{t ∈ range s.last | 0 < level change t}
  bound : ∀ t < n, level change t ≤ s.peak
  reached : s.peak = 0 ∨ ∃ t, level change t = s.peak
  held : s.depth ≤ s.peak

variable {change : ℕ → ℤ} {n q : ℕ} {s : Sweep} {t : ℕ} {intervals : List (ℕ × ℕ)} {x : ℝ}

theorem swept_zero : Swept change 0 {} where
  last_le := le_rfl
  depth := rfl
  flat := fun _ _ before => absurd before (Nat.not_lt_zero _)
  busy := rfl
  bound := fun _ before => absurd before (Nat.not_lt_zero _)
  reached := .inl rfl
  held := le_rfl

/-- Between points of change the number that is open stays. -/
theorem Swept.level_eq (swept : Swept change n s) (quiet : ∀ u, n ≤ u → u < q → change u = 0) (after : s.last ≤ t) (before : t < q) : level change t = s.depth := by
  by_cases seen : t < n
  · exact swept.flat t after seen
  · rw [swept.depth]
    apply (sum_subset (range_subset_range.mpr (by omega)) _).symm
    intro u inside outside
    rw [mem_range] at inside outside
    exact quiet u (by omega) (by omega)

/-- One step sees the next point of change. -/
theorem Swept.step (swept : Swept change n s) (later : n ≤ q)
    (quiet : ∀ u, n ≤ u → u < q → change u = 0) :
    Swept change (q + 1) (s.step (q, change q)) := by
  have until_q : s.depth = ∑ u ∈ range q, change u := by
    rw [swept.depth]
    apply sum_subset (range_subset_range.mpr later)
    intro u inside outside
    rw [mem_range] at inside outside
    exact quiet u (by omega) inside
  have here : level change q = s.depth + change q := by
    rw [level, sum_range_succ, until_q]
  have between : ∀ t, s.last ≤ t → t < q → level change t = s.depth :=
    fun t after before => swept.level_eq quiet after before
  have start := swept.last_le
  constructor
  · exact Nat.le_succ q
  · exact here.symm
  · intro t after before
    change q ≤ t at after
    rw [show t = q by omega, here]
    rfl
  · have split : range q = range s.last ∪ Ico s.last q := by
      rw [range_eq_Ico, range_eq_Ico, Ico_union_Ico_eq_Ico (Nat.zero_le _) (by omega)]
    have apart : Disjoint ({t ∈ range s.last | 0 < level change t})
        ({t ∈ Ico s.last q | 0 < level change t}) := by
      apply disjoint_filter_filter
      rw [disjoint_left]
      intro t first second
      rw [mem_range] at first
      rw [mem_Ico] at second
      omega
    change (if 0 < s.depth then s.busy + (q - s.last) else s.busy) =
      #{t ∈ range q | 0 < level change t}
    rw [split, filter_union, card_union_of_disjoint apart, ← swept.busy]
    by_cases opened : 0 < s.depth
    · rw [if_pos opened, filter_true_of_mem, Nat.card_Ico]
      intro t inside
      rw [mem_Ico] at inside
      rwa [between t inside.1 inside.2]
    · rw [if_neg opened, filter_false_of_mem, card_empty, Nat.add_zero]
      intro t inside
      rw [mem_Ico] at inside
      rwa [between t inside.1 inside.2]
  · intro t before
    change level change t ≤ (max s.peak (s.depth + change q).toNat : ℕ)
    rw [Nat.cast_max]
    by_cases seen : t < n
    · exact (swept.bound t seen).trans (le_max_left _ _)
    · by_cases earlier : t < q
      · rw [between t (start.trans (by omega)) earlier]
        exact swept.held.trans (le_max_left _ _)
      · rw [show t = q by omega, here]
        exact (Int.self_le_toNat _).trans (le_max_right _ _)
  · change max s.peak (s.depth + change q).toNat = 0 ∨
      ∃ t, level change t = (max s.peak (s.depth + change q).toNat : ℕ)
    rcases le_total (s.depth + change q).toNat s.peak with low | high
    · rw [max_eq_left low]
      exact swept.reached
    · rw [max_eq_right high]
      by_cases none : (s.depth + change q).toNat = 0
      · exact .inl none
      · refine .inr ⟨q, ?_⟩
        omega
  · change s.depth + change q ≤ (max s.peak (s.depth + change q).toNat : ℕ)
    rw [Nat.cast_max]
    exact (Int.self_le_toNat _).trans (le_max_right _ _)

/-- The sweep over sorted points sees all changes, when every change has its point. -/
theorem Swept.foldl (points : List (ℕ × ℤ)) (sorted : points.Pairwise fun p q => p.1 < q.1)
    (right : ∀ p ∈ points, p.2 = change p.1) (after : ∀ p ∈ points, n ≤ p.1)
    (complete : ∀ u, n ≤ u → change u ≠ 0 → ∃ p ∈ points, p.1 = u) (swept : Swept change n s) :
    ∃ m, (∀ u, m ≤ u → change u = 0) ∧ Swept change m (points.foldl Sweep.step s) := by
  induction points generalizing n s with
  | nil =>
    refine ⟨n, fun u later => ?_, swept⟩
    by_contra changes
    obtain ⟨p, listed, _⟩ := complete u later changes
    cases listed
  | cons point points ih =>
    obtain ⟨first, sorted⟩ := List.pairwise_cons.mp sorted
    obtain ⟨here, right⟩ := List.forall_mem_cons.mp right
    have later := after point List.mem_cons_self
    have quiet : ∀ u, n ≤ u → u < point.1 → change u = 0 := by
      intro u from_n before
      by_contra changes
      obtain ⟨p, listed, same⟩ := complete u from_n changes
      rcases List.mem_cons.mp listed with rfl | listed
      · omega
      · have := first p listed
        omega
    have step := swept.step later quiet
    rw [← here] at step
    refine ih sorted right (fun p listed => first p listed) ?_ step
    intro u from_point changes
    obtain ⟨p, listed, same⟩ := complete u (by omega) changes
    rcases List.mem_cons.mp listed with rfl | listed
    · omega
    · exact ⟨p, listed, same⟩

/-! ## Intervals -/

/-- What changes at a time: the intervals that start there, less those that end there. -/
def changes (intervals : List (ℕ × ℕ)) (t : ℕ) : ℤ :=
  (intervals.map fun i => (if i.1 = t then 1 else 0 : ℤ) - if i.2 = t then 1 else 0).sum

/-- The number of intervals over a time. -/
def coverage (intervals : List (ℕ × ℕ)) (t : ℕ) : ℕ :=
  intervals.countP fun i => i.1 ≤ t ∧ t < i.2

theorem level_changes (forward : ∀ i ∈ intervals, i.1 ≤ i.2) (t : ℕ) :
    level (changes intervals) t = coverage intervals t := by
  induction intervals with
  | nil => exact sum_const_zero
  | cons i intervals ih =>
    obtain ⟨here, forward⟩ := List.forall_mem_cons.mp forward
    have once : ∀ a, ∑ u ∈ range (t + 1), (if a = u then 1 else 0 : ℤ) =
        if a ≤ t then 1 else 0 := by
      intro a
      simp only [sum_ite_eq, mem_range, Nat.lt_succ_iff]
    have rest := ih forward
    rw [level] at rest ⊢
    simp only [changes, List.map_cons, List.sum_cons] at rest ⊢
    rw [sum_add_distrib, rest, sum_sub_distrib, once, once, coverage, coverage,
      List.countP_cons, Nat.cast_add, Int.add_comm]
    congr 1
    by_cases started : i.1 ≤ t
    · by_cases ended : i.2 ≤ t
      · simp [started, ended]
      · simp [started, ended, Nat.lt_of_not_le ended]
    · have : ¬ i.2 ≤ t := by omega
      simp [started, this]

/-- The times that some interval covers. -/
def covered (intervals : List (ℕ × ℕ)) : Finset ℕ :=
  intervals.toFinset.biUnion fun i => Ico i.1 i.2

theorem mem_covered :
    t ∈ covered intervals ↔ 0 < coverage intervals t := by
  rw [covered, mem_biUnion, coverage, List.countP_pos_iff]
  simp only [List.mem_toFinset, mem_Ico, decide_eq_true_eq]

/-- The covered times are as long as the intervals together. -/
theorem volume_covered (intervals : List (ℕ × ℕ)) :
    MeasureTheory.volume (⋃ i ∈ intervals, Set.Ico (i.1 : ℝ) i.2) = #(covered intervals) := by
  have units : (⋃ i ∈ intervals, Set.Ico (i.1 : ℝ) i.2) =
      ⋃ t ∈ covered intervals, Set.Ico (t : ℝ) (t + 1) := by
    ext x
    simp only [Set.mem_iUnion, covered, mem_biUnion, List.mem_toFinset, mem_Ico]
    constructor
    · rintro ⟨i, listed, start, stop⟩
      have positive : 0 ≤ x := (Nat.cast_nonneg i.1).trans start
      refine ⟨⌊x⌋₊, ⟨i, listed, Nat.le_floor start, (Nat.floor_lt positive).mpr stop⟩, ?_⟩
      exact ⟨Nat.floor_le positive, Nat.lt_floor_add_one x⟩
    · rintro ⟨t, ⟨i, listed, start, stop⟩, low, high⟩
      refine ⟨i, listed, (Nat.cast_le.mpr start).trans low, high.trans_le ?_⟩
      exact_mod_cast stop
  have apart : (covered intervals : Set ℕ).PairwiseDisjoint fun t : ℕ => Set.Ico (t : ℝ) (t + 1) := by
    intro a _ b _ different
    rw [Function.onFun, Set.disjoint_left]
    rintro x ⟨low, high⟩ ⟨low', high'⟩
    apply different
    have : (a : ℝ) < b + 1 := low.trans_lt high'
    have : (b : ℝ) < a + 1 := low'.trans_lt high
    have : a < b + 1 := by exact_mod_cast ‹(a : ℝ) < b + 1›
    have : b < a + 1 := by exact_mod_cast ‹(b : ℝ) < a + 1›
    omega
  rw [units, MeasureTheory.measure_biUnion_finset apart fun _ _ => measurableSet_Ico]
  simp

/-- Nothing is open after all ends. -/
theorem exists_coverage_eq_zero (intervals : List (ℕ × ℕ)) :
    ∃ end_, ∀ t, end_ ≤ t → coverage intervals t = 0 := by
  refine ⟨(intervals.map Prod.snd).sum, fun t late => ?_⟩
  rw [coverage, List.countP_eq_zero]
  intro i listed inside
  have := List.le_sum_of_mem (List.mem_map_of_mem (f := Prod.snd) listed)
  have := (of_decide_eq_true inside).2
  omega

/-- A sweep over the ends of intervals finds how long some interval is open, and how many are
open at once at most. -/
theorem sweep_intervals (forward : ∀ i ∈ intervals, i.1 ≤ i.2)
    {points : List (ℕ × ℤ)} (sorted : points.Pairwise fun p q => p.1 < q.1)
    (right : ∀ p ∈ points, p.2 = changes intervals p.1)
    (complete : ∀ u, changes intervals u ≠ 0 → ∃ p ∈ points, p.1 = u) :
    (points.foldl Sweep.step {}).busy = #(covered intervals) ∧
      IsGreatest (Set.range (coverage intervals)) (points.foldl Sweep.step {}).peak := by
  obtain ⟨m, quiet, swept⟩ := Swept.foldl points sorted right (fun _ _ => Nat.zero_le _)
    (fun u _ => complete u) swept_zero
  obtain ⟨late, closed⟩ := exists_coverage_eq_zero intervals
  have after : ∀ t, (points.foldl Sweep.step {}).last ≤ t →
      (coverage intervals t : ℤ) = (points.foldl Sweep.step {}).depth := by
    intro t from_last
    rw [← level_changes forward]
    exact swept.level_eq (fun u from_m _ => quiet u from_m) from_last (Nat.lt_succ_self t)
  have ended : (points.foldl Sweep.step {}).depth = 0 := by
    rw [← after (max late (points.foldl Sweep.step {}).last) (le_max_right _ _),
      closed _ (le_max_left _ _)]
    rfl
  constructor
  · rw [swept.busy]
    congr 1
    ext t
    rw [mem_filter, mem_range, mem_covered, level_changes forward, Nat.cast_pos]
    refine and_iff_right_of_imp fun counted => ?_
    by_contra from_last
    have := after t (by omega)
    omega
  · constructor
    · rcases swept.reached with none | ⟨t, reached⟩
      · exact ⟨late, by rw [none, closed late le_rfl]⟩
      · refine ⟨t, ?_⟩
        rw [level_changes forward, Nat.cast_inj] at reached
        exact reached
    · rintro _ ⟨t, rfl⟩
      by_cases seen : t < m
      · have := swept.bound t seen
        rwa [level_changes forward, Nat.cast_le] at this
      · have := after t (by have := swept.last_le; omega)
        omega

/-- The number of intervals over an instant. -/
noncomputable def coverageAt (intervals : List (ℕ × ℕ)) (x : ℝ) : ℕ :=
  intervals.countP fun i => (i.1 : ℝ) ≤ x ∧ x < i.2

theorem coverageAt_of_nonneg (intervals : List (ℕ × ℕ)) (nonneg : 0 ≤ x) :
    coverageAt intervals x = coverage intervals ⌊x⌋₊ := by
  apply List.countP_congr
  intro i _
  rw [decide_eq_true_eq, decide_eq_true_eq, Nat.le_floor_iff nonneg, Nat.floor_lt nonneg]

theorem coverageAt_of_neg (intervals : List (ℕ × ℕ)) (neg : x < 0) :
    coverageAt intervals x = 0 := by
  rw [coverageAt, List.countP_eq_zero]
  intro i _ inside
  have start := (of_decide_eq_true inside).1
  exact absurd ((Nat.cast_nonneg i.1).trans start) (not_le.mpr neg)

/-- No instant is covered more often than some unit, and the other way around. -/
theorem range_coverageAt (intervals : List (ℕ × ℕ)) :
    Set.range (coverageAt intervals) = Set.range (coverage intervals) := by
  ext n
  constructor
  · rintro ⟨x, rfl⟩
    rcases le_or_gt 0 x with nonneg | neg
    · exact ⟨⌊x⌋₊, (coverageAt_of_nonneg intervals nonneg).symm⟩
    · obtain ⟨late, closed⟩ := exists_coverage_eq_zero intervals
      exact ⟨late, by rw [closed late le_rfl, coverageAt_of_neg intervals neg]⟩
  · rintro ⟨t, rfl⟩
    refine ⟨t, ?_⟩
    rw [coverageAt_of_nonneg intervals (Nat.cast_nonneg t), Nat.floor_natCast]

end DFTracer.Math
