/-
# Occupancy

A group keeps the intervals of its rows as what changes at their ends, with the sum of their
durations and the outer ends. Partial states are merged by adding the changes. The changes are
swept once at the end, which gives how long some interval is open and how many are open at once.
-/

import DFTracer.Aggregation.FieldStatTree
import DFTracer.Math.Builds
import DFTracer.Math.Sweep
import DFTracer.Math.Table

namespace DFTracer.Aggregation

open DFTracer.Math List

/-- A row with its timestamp and its duration. A null cell holds nothing. -/
structure OccRow where
  ts : Option FieldNum
  dur : Option FieldNum

/-- An occupancy slot of a group. -/
structure OccSlot where
  deltas : Table UInt64 Int := .empty
  total : UInt64 := 0
  ts : UInt64 := 18446744073709551615
  te : UInt64 := 0

/-- `read_u64_exact`. -/
def FieldNum.readU64Exact : FieldNum → UInt64
  | .i64 v => v.toUInt64
  | .u64 v => v
  | .f64 v => v.toUInt64

/-- The duration of a row, or nothing where the row is left out. A fraction is cut off after the
test. -/
def FieldNum.occDuration : FieldNum → Option UInt64
  | .i64 d => if d ≤ 0 then none else some d.toUInt64
  | .u64 d => if d = 0 then none else some d
  | .f64 d => if 0 < d then some d.toUInt64 else none

/-- The start and the duration of a row that counts. -/
def OccRow.counted (row : OccRow) : Option (UInt64 × UInt64) := do
  let ts ← row.ts
  let dur ← row.dur
  let dur ← dur.occDuration
  some (ts.readU64Exact, dur)

namespace OccSlot

/-- One more interval, with its duration. -/
def addInterval (s : OccSlot) (dur s0 e0 : UInt64) : OccSlot where
  total := s.total + dur
  ts := if s0 < s.ts then s0 else s.ts
  te := if e0 > s.te then e0 else s.te
  deltas := (s.deltas.alter s0 fun d => d.getD 0 + 1).alter e0 fun d => d.getD 0 - 1

/-- The occupancy part of `agg_accumulate`, for a slot with a cell to snap the ends to, or none. -/
def accumulate (cell : UInt64) (s : OccSlot) (row : OccRow) : OccSlot :=
  match row.counted with
  | none => s
  | some (s0, dur) =>
    let e0 := s0 + dur
    if cell = 0 then s.addInterval dur s0 e0
    else s.addInterval dur (s0 / cell * cell) ((e0 + cell - 1) / cell * cell)

/-- The occupancy part of `AggState::merge_group`. -/
def mergeGroup (s other : OccSlot) : OccSlot where
  total := s.total + other.total
  ts := if other.ts < s.ts then other.ts else s.ts
  te := if other.te > s.te then other.te else s.te
  deltas := s.deltas.merge (fun d dlt => d.getD 0 + dlt) other.deltas

/-- The slot of a group whose rows are spread over partial states. -/
def build (cell : UInt64) (t : Build OccRow) : OccSlot := t.run {} (accumulate cell) mergeGroup

end OccSlot

/-- `OccResult`. -/
structure OccResult where
  busy : UInt64 := 0
  active : UInt64 := 0
  total : UInt64
  span : UInt64

/-- What the loop of `occ_summarize` keeps. -/
structure OccSweep where
  depth : Int := 0
  last : UInt64 := 0
  busy : UInt64 := 0
  peak : UInt64 := 0
  started : Bool := false

/-- One point of the loop. -/
def OccSweep.step (s : OccSweep) (point : UInt64 × Int) : OccSweep where
  busy := if s.started ∧ 0 < s.depth then s.busy + (point.1 - s.last) else s.busy
  depth := s.depth + point.2
  peak :=
    if 0 < s.depth + point.2 ∧ UInt64.ofNat (s.depth + point.2).toNat > s.peak
    then UInt64.ofNat (s.depth + point.2).toNat else s.peak
  last := point.1
  started := true

/-- `occ_summarize`. -/
def occSummarize (s : OccSlot) : OccResult :=
  let points := s.deltas.entries.insertionSort fun x y => x.1 ≤ y.1
  let sweep := points.foldl OccSweep.step {}
  { busy := sweep.busy
    active := sweep.peak
    total := s.total
    span := if s.te > s.ts then s.te - s.ts else 0 }

inductive OccOp where
  | busy | concurrency | utilization | active
deriving DecidableEq

/-- The cell of a group that `finalize` puts out. -/
def occFinalize (o : OccResult) : OccOp → Float
  | .busy => o.busy.toFloat
  | .concurrency => if o.busy ≠ 0 then o.total.toFloat / o.busy.toFloat else 0
  | .utilization => if o.busy ≠ 0 ∧ o.span ≠ 0 then o.busy.toFloat / o.span.toFloat else 0
  | .active => o.active.toFloat

/-! ## Occupancy is exact

Whatever the partial states and the order of merging, the changes that a slot holds are those of
its intervals, and its outer ends are theirs. So the sweep finds how long some interval is open,
to the unit, and how many are open at once. -/

/-- A row that counts ends below `2 ^ 63`. -/
def OccRow.Bounded (row : OccRow) : Prop :=
  ∀ start dur, row.counted = some (start, dur) → start.toNat + dur.toNat < 2 ^ 63

/-- The intervals of the rows that count. -/
def countedIntervals (rows : List OccRow) : List (ℕ × ℕ) :=
  (rows.filterMap OccRow.counted).map fun row => (row.1.toNat, row.1.toNat + row.2.toNat)

theorem countedIntervals_append (rows rest : List OccRow) :
    countedIntervals (rows ++ rest) = countedIntervals rows ++ countedIntervals rest := by
  rw [countedIntervals, filterMap_append, map_append]
  rfl

variable {rows : List OccRow}

theorem mem_countedIntervals (bounded : ∀ row ∈ rows, row.Bounded) {i : ℕ × ℕ}
    (listed : i ∈ countedIntervals rows) : i.1 ≤ i.2 ∧ i.2 < 2 ^ 63 := by
  obtain ⟨⟨start, dur⟩, counted, rfl⟩ := mem_map.mp listed
  obtain ⟨row, row_mem, counts⟩ := mem_filterMap.mp counted
  exact ⟨Nat.le_add_right _ _, bounded row row_mem start dur counts⟩

theorem changes_append (intervals rest : List (ℕ × ℕ)) (t : ℕ) :
    changes (intervals ++ rest) t = changes intervals t + changes rest t := by
  rw [changes, map_append, sum_append]
  rfl

variable {row : OccRow} {s : OccSlot}

theorem accumulate_counted {start dur : UInt64} (counts : row.counted = some (start, dur)) :
    s.accumulate 0 row = s.addInterval dur start (start + dur) := by
  rw [OccSlot.accumulate, counts]
  exact if_pos rfl

theorem accumulate_uncounted (skips : row.counted = none) :
    s.accumulate 0 row = s := by
  rw [OccSlot.accumulate, skips]

/-! ### What a slot holds -/

/-- The least of the starts, as long as there is one. -/
structure LeastStart (intervals : List (ℕ × ℕ)) (ts : UInt64) : Prop where
  low : ∀ i ∈ intervals, ts.toNat ≤ i.1
  mem : ts.toNat = 2 ^ 64 - 1 ∨ ∃ i ∈ intervals, i.1 = ts.toNat

/-- The greatest of the ends, as long as there is one. -/
structure GreatestEnd (intervals : List (ℕ × ℕ)) (te : UInt64) : Prop where
  high : ∀ i ∈ intervals, i.2 ≤ te.toNat
  mem : te.toNat = 0 ∨ ∃ i ∈ intervals, i.2 = te.toNat

section Ends

variable {intervals rest : List (ℕ × ℕ)} {a b : UInt64}

theorem LeastStart.append (first : LeastStart intervals a) (second : LeastStart rest b) :
    LeastStart (intervals ++ rest) (if b < a then b else a) := by
  by_cases below : b < a
  · rw [if_pos below]
    constructor
    · intro i listed
      rcases mem_append.mp listed with listed | listed
      · exact below.le.trans (first.low i listed)
      · exact second.low i listed
    · apply second.mem.imp_right
      rintro ⟨i, listed, same⟩
      exact ⟨i, mem_append_right _ listed, same⟩
  · rw [if_neg below]
    rw [UInt64.lt_iff_toNat_lt, Nat.not_lt] at below
    constructor
    · intro i listed
      rcases mem_append.mp listed with listed | listed
      · exact first.low i listed
      · exact below.trans (second.low i listed)
    · apply first.mem.imp_right
      rintro ⟨i, listed, same⟩
      exact ⟨i, mem_append_left _ listed, same⟩

theorem GreatestEnd.append (first : GreatestEnd intervals a) (second : GreatestEnd rest b) :
    GreatestEnd (intervals ++ rest) (if b > a then b else a) := by
  by_cases above : b > a
  · rw [if_pos above]
    constructor
    · intro i listed
      rcases mem_append.mp listed with listed | listed
      · exact (first.high i listed).trans above.le
      · exact second.high i listed
    · apply second.mem.imp_right
      rintro ⟨i, listed, same⟩
      exact ⟨i, mem_append_right _ listed, same⟩
  · rw [if_neg above]
    rw [gt_iff_lt, UInt64.lt_iff_toNat_lt, Nat.not_lt] at above
    constructor
    · intro i listed
      rcases mem_append.mp listed with listed | listed
      · exact first.high i listed
      · exact (second.high i listed).trans above
    · apply first.mem.imp_right
      rintro ⟨i, listed, same⟩
      exact ⟨i, mem_append_left _ listed, same⟩

end Ends

/-- A slot holds the changes of its intervals, their outer ends and the sum of their durations. -/
structure OccHolds (rows : List OccRow) (s : OccSlot) : Prop where
  deltas : ∀ u : UInt64, (s.deltas.lookup u).getD 0 = changes (countedIntervals rows) u.toNat
  total : s.total = ((rows.filterMap OccRow.counted).map Prod.snd).sum
  ts : LeastStart (countedIntervals rows) s.ts
  te : GreatestEnd (countedIntervals rows) s.te

theorem occHolds_empty : OccHolds [] {} where
  deltas := fun _ => rfl
  total := rfl
  ts := ⟨fun _ listed => absurd listed not_mem_nil, .inl rfl⟩
  te := ⟨fun _ listed => absurd listed not_mem_nil, .inl rfl⟩

/-- An interval changes its start and its end. -/
theorem lookup_addInterval (s : OccSlot) (dur s0 e0 u : UInt64) :
    ((s.addInterval dur s0 e0).deltas.lookup u).getD 0 =
      (s.deltas.lookup u).getD 0 + ((if s0 = u then 1 else 0) - if e0 = u then 1 else 0) := by
  rw [OccSlot.addInterval, Table.lookup_alter, Table.lookup_alter, Table.lookup_alter]
  by_cases ends : e0 = u
  · subst ends
    by_cases starts : s0 = e0
    · subst starts
      simp
    · simp [starts, Ne.symm starts, sub_eq_add_neg]
  · by_cases starts : s0 = u
    · subst starts
      simp [ends, Ne.symm ends]
    · simp [starts, Ne.symm starts, ends, Ne.symm ends]

theorem OccHolds.add (bounded : row.Bounded)
    (holds : OccHolds rows s) : OccHolds (rows ++ [row]) (s.accumulate 0 row) := by
  cases counts : row.counted with
  | none =>
    have same : (rows ++ [row]).filterMap OccRow.counted = rows.filterMap OccRow.counted := by
      rw [filterMap_append, filterMap_cons_none counts, filterMap_nil, append_nil]
    rw [accumulate_uncounted counts]
    constructor
    · rw [countedIntervals, same]
      exact holds.deltas
    · rw [same]
      exact holds.total
    · rw [countedIntervals, same]
      exact holds.ts
    · rw [countedIntervals, same]
      exact holds.te
  | some found =>
    obtain ⟨start, dur⟩ := found
    have bound := bounded start dur counts
    have stop : (start + dur).toNat = start.toNat + dur.toNat := by
      rw [UInt64.toNat_add]
      omega
    have more : countedIntervals [row] = [(start.toNat, start.toNat + dur.toNat)] := by
      rw [countedIntervals, filterMap_cons_some counts]
      rfl
    rw [accumulate_counted counts]
    constructor
    · intro u
      rw [countedIntervals_append, changes_append, more, ← holds.deltas u]
      rw [lookup_addInterval, changes, map_singleton, sum_singleton, ← stop]
      simp only [UInt64.toNat_inj]
    · rw [filterMap_append, filterMap_cons_some counts, map_append, sum_append, ← holds.total]
      change s.total + dur = s.total + (dur + 0)
      rw [add_zero]
    · rw [countedIntervals_append, more]
      apply holds.ts.append
      exact ⟨by simp, .inr (by simp)⟩
    · rw [countedIntervals_append, more, ← stop]
      apply holds.te.append
      exact ⟨by simp, .inr (by simp)⟩

theorem OccHolds.merge {rest : List OccRow} {o : OccSlot} (first : OccHolds rows s)
    (second : OccHolds rest o) : OccHolds (rows ++ rest) (s.mergeGroup o) where
  deltas := by
    intro u
    rw [countedIntervals_append, changes_append, ← first.deltas u, ← second.deltas u,
      OccSlot.mergeGroup, Table.lookup_merge]
    cases o.deltas.lookup u with
    | none => exact (add_zero _).symm
    | some d => rfl
  total := by
    rw [filterMap_append, map_append, sum_append, ← first.total, ← second.total]
    rfl
  ts := by
    rw [countedIntervals_append]
    exact first.ts.append second.ts
  te := by
    rw [countedIntervals_append]
    exact first.te.append second.te

/-- Every spreading over partial states holds its rows. -/
theorem occHolds_build (t : Build OccRow) (bounded : ∀ row ∈ t.values, row.Bounded) :
    OccHolds t.values (OccSlot.build 0 t) :=
  Build.run_invariant occHolds_empty (fun _ _ _ bounded holds => holds.add bounded)
    (fun _ _ _ _ first second => first.merge second) t bounded

/-- The sweep in words of 64 bits stands where the sweep in numbers does. -/
structure Tracks (c : OccSweep) (s : Sweep) : Prop where
  depth : c.depth = s.depth
  last : c.last.toNat = s.last
  busy : c.busy.toNat = s.busy
  busy_le : s.busy ≤ s.last
  peak : c.peak.toNat = s.peak
  idle : c.started = false → s.depth = 0

theorem Tracks.step {c : OccSweep} {s : Sweep} (tracks : Tracks c s) {point : UInt64 × Int}
    (later : s.last ≤ point.1.toNat) (few : (s.depth + point.2).toNat < 2 ^ 64) :
    Tracks (c.step point) (s.step (point.1.toNat, point.2)) := by
  have onward : (point.1 - c.last).toNat = point.1.toNat - s.last := by
    rw [UInt64.toNat_sub_of_le, tracks.last]
    rw [UInt64.le_iff_toNat_le, tracks.last]
    exact later
  have small := point.1.toNat_lt
  have idle := tracks.idle
  have busy_le := tracks.busy_le
  constructor
  · exact congrArg (· + point.2) tracks.depth
  · rfl
  · change (if c.started = true ∧ 0 < c.depth then c.busy + (point.1 - c.last) else c.busy).toNat =
      if 0 < s.depth then s.busy + (point.1.toNat - s.last) else s.busy
    rw [tracks.depth]
    by_cases opened : 0 < s.depth
    · have started : c.started = true := by
        by_contra not
        have := idle (Bool.eq_false_of_not_eq_true not)
        omega
      rw [if_pos ⟨started, opened⟩, if_pos opened, UInt64.toNat_add, tracks.busy]
      omega
    · rw [if_neg fun both => opened both.2, if_neg opened, tracks.busy]
  · change (if 0 < s.depth then s.busy + (point.1.toNat - s.last) else s.busy) ≤ point.1.toNat
    split
    · omega
    · omega
  · have word : (UInt64.ofNat (s.depth + point.2).toNat).toNat = (s.depth + point.2).toNat := by
      rw [UInt64.toNat_ofNat', Nat.mod_eq_of_lt few]
    have above : UInt64.ofNat (s.depth + point.2).toNat > c.peak ↔
        s.peak < (s.depth + point.2).toNat := by
      rw [gt_iff_lt, UInt64.lt_iff_toNat_lt, word, tracks.peak]
    change (if 0 < c.depth + point.2 ∧ UInt64.ofNat (c.depth + point.2).toNat > c.peak
      then UInt64.ofNat (c.depth + point.2).toNat else c.peak).toNat =
        max s.peak (s.depth + point.2).toNat
    rw [tracks.depth]
    by_cases higher : s.peak < (s.depth + point.2).toNat
    · rw [if_pos ⟨by omega, above.mpr higher⟩, word, max_eq_right higher.le]
    · rw [if_neg fun both => higher (above.mp both.2), tracks.peak,
        max_eq_left (Nat.le_of_not_lt higher)]
  · intro off
    cases off

theorem Sweep.peak_le_foldl (points : List (ℕ × ℤ)) (s : Sweep) :
    s.peak ≤ (points.foldl Sweep.step s).peak := by
  induction points generalizing s with
  | nil => exact le_rfl
  | cons point points ih => exact (le_max_left _ _).trans (ih (s.step point))

theorem Tracks.foldl (points : List (UInt64 × Int))
    (sorted : points.Pairwise fun p q => p.1 < q.1) {c : OccSweep} {s : Sweep}
    (tracks : Tracks c s) (after : ∀ p ∈ points, s.last ≤ p.1.toNat)
    (few : ((points.map fun p => (p.1.toNat, p.2)).foldl Sweep.step s).peak < 2 ^ 64) :
    Tracks (points.foldl OccSweep.step c)
      ((points.map fun p => (p.1.toNat, p.2)).foldl Sweep.step s) := by
  induction points generalizing c s with
  | nil => exact tracks
  | cons point points ih =>
    obtain ⟨first, sorted⟩ := pairwise_cons.mp sorted
    have here : (s.depth + point.2).toNat < 2 ^ 64 :=
      ((le_max_right _ _).trans (Sweep.peak_le_foldl _ (s.step (point.1.toNat, point.2)))).trans_lt
        few
    refine ih sorted (tracks.step (after point mem_cons_self) here) (fun p listed => ?_) few
    exact (UInt64.lt_iff_toNat_lt.mp (first p listed)).le

/-- The points of a slot in order. -/
theorem sorted_points (deltas : Table UInt64 Int) :
    (deltas.entries.insertionSort fun x y => x.1 ≤ y.1).Pairwise fun p q => p.1 < q.1 := by
  have distinct : (deltas.entries.insertionSort fun x y => x.1 ≤ y.1).Pairwise
      fun p q => p.1 ≠ q.1 := by
    rw [← pairwise_map]
    exact ((perm_insertionSort _ _).map Prod.fst).nodup_iff.mpr deltas.distinct
  have ordered := pairwise_insertionSort (fun x y : UInt64 × Int => x.1 ≤ y.1) deltas.entries
  refine (ordered.and distinct).imp fun both => ?_
  exact UInt64.lt_of_le_of_ne both.1 both.2

theorem mem_points {deltas : Table UInt64 Int} {p : UInt64 × Int} :
    p ∈ deltas.entries.insertionSort (fun x y => x.1 ≤ y.1) ↔ deltas.lookup p.1 = some p.2 := by
  rw [mem_insertionSort, Table.lookup_eq_some_iff]

/-- An end that changes is an end of an interval. -/
theorem exists_end_of_changes {intervals : List (ℕ × ℕ)} {u : ℕ}
    (moves : changes intervals u ≠ 0) : ∃ i ∈ intervals, i.1 = u ∨ i.2 = u := by
  by_contra none
  push Not at none
  apply moves
  rw [changes, sum_eq_zero]
  intro d listed
  obtain ⟨i, i_mem, rfl⟩ := mem_map.mp listed
  rw [if_neg (none i i_mem).1, if_neg (none i i_mem).2, sub_zero]

/-- The result tells how long some interval is open, and how many are open at once at most. -/
theorem occSummarize_busy (holds : OccHolds rows s)
    (bounded : ∀ row ∈ rows, row.Bounded) (few : rows.length < 2 ^ 63) :
    (occSummarize s).busy.toNat = (covered (countedIntervals rows)).card ∧
      IsGreatest (Set.range (coverage (countedIntervals rows))) (occSummarize s).active.toNat := by
  have sorted := sorted_points s.deltas
  have sortedNat : ((s.deltas.entries.insertionSort fun x y => x.1 ≤ y.1).map
      fun p => (p.1.toNat, p.2)).Pairwise fun p q => p.1 < q.1 := by
    rw [pairwise_map]
    exact sorted.imp fun below => UInt64.lt_iff_toNat_lt.mp below
  obtain ⟨busy, peak⟩ := sweep_intervals
    (fun i listed => (mem_countedIntervals bounded listed).1) sortedNat
    (fun p listed => by
      obtain ⟨q, q_mem, rfl⟩ := mem_map.mp listed
      rw [← holds.deltas q.1, mem_points.mp q_mem, Option.getD_some])
    (fun u moves => by
      obtain ⟨i, listed, ends⟩ := exists_end_of_changes moves
      have inside := mem_countedIntervals bounded listed
      have word : (UInt64.ofNat u).toNat = u := by
        rw [UInt64.toNat_ofNat', Nat.mod_eq_of_lt (by omega)]
      have holds_u := holds.deltas (UInt64.ofNat u)
      rw [word] at holds_u
      cases found : s.deltas.lookup (UInt64.ofNat u) with
      | none =>
        rw [found] at holds_u
        exact absurd holds_u.symm moves
      | some d =>
        exact ⟨_, mem_map.mpr ⟨(UInt64.ofNat u, d), mem_points.mpr found, rfl⟩, word⟩)
  have few' : (countedIntervals rows).length < 2 ^ 63 := by
    rw [countedIntervals, length_map]
    exact (length_filterMap_le _ _).trans_lt few
  have tracks := Tracks.foldl _ sorted
    (c := {}) (s := {}) ⟨rfl, rfl, rfl, le_rfl, rfl, fun _ => rfl⟩ (fun _ _ => Nat.zero_le _) (by
      obtain ⟨t, reached⟩ := peak.1
      rw [← reached]
      have := countP_le_length (p := fun i : ℕ × ℕ => decide (i.1 ≤ t ∧ t < i.2))
        (l := countedIntervals rows)
      rw [coverage]
      omega)
  constructor
  · rw [← busy]
    exact tracks.busy
  · rw [show (occSummarize s).active.toNat = _ from tracks.peak]
    exact peak

/-- The span is from the first start to the last end. -/
theorem occSummarize_span {s : OccSlot} (holds : OccHolds rows s)
    (bounded : ∀ row ∈ rows, row.Bounded) {first last : ℕ}
    (least : IsLeast {a | ∃ i ∈ countedIntervals rows, i.1 = a} first)
    (greatest : IsGreatest {b | ∃ i ∈ countedIntervals rows, i.2 = b} last) :
    (occSummarize s).span.toNat = last - first := by
  obtain ⟨⟨i, i_mem, rfl⟩, low⟩ := least
  obtain ⟨⟨j, j_mem, rfl⟩, high⟩ := greatest
  have inside := mem_countedIntervals bounded i_mem
  have start : s.ts.toNat = i.1 := by
    apply le_antisymm (holds.ts.low i i_mem)
    rcases holds.ts.mem with none | ⟨k, k_mem, same⟩
    · omega
    · rw [← same]
      exact low ⟨k, k_mem, rfl⟩
  have stop : s.te.toNat = j.2 := by
    apply le_antisymm _ (holds.te.high j j_mem)
    rcases holds.te.mem with none | ⟨k, k_mem, same⟩
    · omega
    · rw [← same]
      exact high ⟨k, k_mem, rfl⟩
  change (if s.te > s.ts then s.te - s.ts else 0).toNat = j.2 - i.1
  by_cases wide : s.te > s.ts
  · rw [if_pos wide, UInt64.toNat_sub_of_le _ _ (UInt64.le_of_lt wide), start, stop]
  · rw [if_neg wide]
    rw [gt_iff_lt, UInt64.lt_iff_toNat_lt] at wide
    change 0 = _
    omega

/-! ### The intervals that the rows mean -/

/-- The whole part of a number that is not negative. -/
def FieldNum.whole : FieldNum → ℕ
  | .i64 v => v.toInt.toNat
  | .u64 v => v.toNat
  | .f64 v => v.toUInt64.toNat

def FieldNum.positive : FieldNum → Bool
  | .i64 v => 0 < v
  | .u64 v => 0 < v
  | .f64 v => 0 < v

def FieldNum.nonneg : FieldNum → Bool
  | .i64 v => 0 ≤ v
  | .u64 _ => true
  | .f64 v => 0 ≤ v

/-- The interval of a row, where it has both numbers and takes some time. -/
def OccRow.interval (row : OccRow) : Option (ℕ × ℕ) := do
  let ts ← row.ts
  let dur ← row.dur
  if dur.positive then some (ts.whole, ts.whole + dur.whole) else none

/-- The interval of a row does not start before zero and ends below `2 ^ 63`. -/
def OccRow.Fits (row : OccRow) : Prop :=
  ∀ ts dur, row.ts = some ts → row.dur = some dur → dur.positive = true →
    ts.nonneg = true ∧ ts.whole + dur.whole < 2 ^ 63

/-- The intervals of all rows. -/
def occIntervals (rows : List OccRow) : List (ℕ × ℕ) := rows.filterMap OccRow.interval

theorem toNat_toUInt64_of_nonneg {v : Int64} (nonneg : 0 ≤ v) : v.toUInt64.toNat = v.toInt.toNat := by
  rw [Int64.le_iff_toInt_le] at nonneg
  have same : v.toUInt64.toNat = v.toBitVec.toNat := rfl
  have value : v.toInt = v.toBitVec.toInt := rfl
  rw [value]
  rw [value] at nonneg
  rw [BitVec.toInt_eq_toNat_cond] at nonneg ⊢
  split
  · omega
  · rename_i large
    change 0 ≤ _ at nonneg
    omega

theorem FieldNum.readU64Exact_of_nonneg {ts : FieldNum} (nonneg : ts.nonneg = true) :
    ts.readU64Exact.toNat = ts.whole := by
  cases ts with
  | i64 v => exact toNat_toUInt64_of_nonneg (of_decide_eq_true nonneg)
  | u64 v | f64 v => rfl

/-- A duration counts where it is positive, with its whole part. -/
theorem FieldNum.occDuration_eq (dur : FieldNum) :
    dur.occDuration.map UInt64.toNat = if dur.positive then some dur.whole else none := by
  cases dur with
  | i64 v =>
    by_cases positive : 0 < v
    · have counts : (i64 v).positive = true := decide_eq_true positive
      rw [occDuration, if_neg (Int64.not_le.mpr positive), if_pos counts, Option.map_some,
        toNat_toUInt64_of_nonneg (Int64.le_of_lt positive)]
      rfl
    · have skips : ¬ (i64 v).positive = true := fun counts => positive (of_decide_eq_true counts)
      rw [occDuration, if_pos (Int64.not_lt.mp positive), if_neg skips]
      rfl
  | u64 v =>
    by_cases zero : v = 0
    · subst zero
      rfl
    · have counts : (u64 v).positive = true := decide_eq_true (UInt64.pos_iff_ne_zero.mpr zero)
      rw [occDuration, if_neg zero, if_pos counts]
      rfl
  | f64 v =>
    by_cases positive : 0 < v
    · have counts : (f64 v).positive = true := decide_eq_true positive
      rw [occDuration, if_pos positive, if_pos counts]
      rfl
    · have skips : ¬ (f64 v).positive = true := fun counts => positive (of_decide_eq_true counts)
      rw [occDuration, if_neg positive, if_neg skips]
      rfl

/-- The slot counts a row with its interval. -/
theorem OccRow.Fits.counted (fits : row.Fits) :
    row.counted.map (fun c => (c.1.toNat, c.1.toNat + c.2.toNat)) = row.interval := by
  obtain ⟨ts, dur⟩ := row
  cases ts with
  | none => rfl
  | some ts =>
    cases dur with
    | none => rfl
    | some dur =>
      have word := dur.occDuration_eq
      by_cases positive : dur.positive = true
      · have start := FieldNum.readU64Exact_of_nonneg (fits ts dur rfl rfl positive).1
        rw [if_pos positive] at word
        obtain ⟨d, found, same⟩ := Option.map_eq_some_iff.mp word
        simp only [OccRow.counted, OccRow.interval, Option.bind_eq_bind, Option.bind_some, found,
          Option.map_some, start, same, if_pos positive]
      · rw [if_neg positive, Option.map_eq_none_iff] at word
        simp only [OccRow.counted, OccRow.interval, Option.bind_eq_bind, Option.bind_some, word,
          Option.bind_none, Option.map_none, if_neg positive]

theorem OccRow.Fits.bounded (fits : row.Fits) : row.Bounded := by
  intro start dur counts
  have same := fits.counted
  rw [counts, Option.map_some] at same
  obtain ⟨ts, d⟩ := row
  cases ts with
  | none => cases same
  | some ts =>
    cases d with
    | none => cases same
    | some d =>
      simp only [OccRow.interval, Option.bind_eq_bind, Option.bind_some] at same
      by_cases positive : d.positive = true
      · rw [if_pos positive, Option.some.injEq, Prod.mk.injEq] at same
        rw [same.2]
        exact (fits ts d rfl rfl positive).2
      · rw [if_neg positive] at same
        cases same

theorem countedIntervals_eq (fits : ∀ row ∈ rows, row.Fits) :
    countedIntervals rows = occIntervals rows := by
  rw [countedIntervals, map_filterMap]
  apply filterMap_congr
  intro row listed
  exact (fits row listed).counted

/-- What is said of a group with these intervals. -/
structure OccExact (intervals : List (ℕ × ℕ)) (o : OccResult) : Prop where
  /-- The busy time is the measure of the union. -/
  busy : MeasureTheory.volume (⋃ i ∈ intervals, Set.Ico (i.1 : ℝ) i.2) = o.busy.toNat
  /-- So many are open at some instant, and never more. -/
  active : IsGreatest (Set.range (coverageAt intervals)) o.active.toNat
  /-- The span is from the first start to the last end. -/
  span : ∀ first last, IsLeast {a | ∃ i ∈ intervals, i.1 = a} first →
    IsGreatest {b | ∃ i ∈ intervals, i.2 = b} last → o.span.toNat = last - first
  idle : intervals = [] → o.span = 0
  total : o.total = UInt64.ofNat (intervals.map fun i => i.2 - i.1).sum

theorem sum_durations (counted : List (UInt64 × UInt64)) :
    (counted.map Prod.snd).sum = UInt64.ofNat ((counted.map fun c =>
      (c.1.toNat, c.1.toNat + c.2.toNat)).map fun i => i.2 - i.1).sum := by
  induction counted with
  | nil => rfl
  | cons c counted ih =>
    rw [map_cons, sum_cons, ih, map_cons, map_cons, sum_cons,
      UInt64.ofNat_add, Nat.add_sub_cancel_left, UInt64.ofNat_toNat]

/-- Over any partial states, merged in any order, occupancy is exact. -/
theorem occSummarize_build (t : Build OccRow) (fits : ∀ row ∈ t.values, row.Fits)
    (few : t.values.length < 2 ^ 63) :
    OccExact (occIntervals t.values) (occSummarize (OccSlot.build 0 t)) := by
  have bounded : ∀ row ∈ t.values, row.Bounded := fun row listed => (fits row listed).bounded
  have holds := occHolds_build t bounded
  have found := occSummarize_busy holds bounded few
  have spans := @occSummarize_span _ _ holds bounded
  have same := countedIntervals_eq fits
  rw [same] at found spans
  constructor
  · rw [volume_covered, found.1]
  · rw [range_coverageAt]
    exact found.2
  · intro first last least greatest
    exact spans least greatest
  · intro none
    have last := holds.te.mem
    rw [same, none] at last
    have zero : (OccSlot.build 0 t).te.toNat = 0 := last.resolve_right (by simp)
    change (if _ > _ then _ else _) = _
    rw [if_neg]
    rw [gt_iff_lt, UInt64.lt_iff_toNat_lt, zero]
    exact Nat.not_lt_zero _
  · change (OccSlot.build 0 t).total = _
    rw [holds.total, sum_durations, ← same]
    rfl

/-- The cells that are put out for a group are the exact numbers as doubles, and their ratios: the
concurrency needs no span. -/
theorem occFinalize_build (t : Build OccRow) (fits : ∀ row ∈ t.values, row.Fits)
    (few : t.values.length < 2 ^ 63) : ∃ o, OccExact (occIntervals t.values) o ∧
      occFinalize (occSummarize (OccSlot.build 0 t)) .busy = o.busy.toFloat ∧
      occFinalize (occSummarize (OccSlot.build 0 t)) .active = o.active.toFloat ∧
      occFinalize (occSummarize (OccSlot.build 0 t)) .concurrency =
        (if o.busy = 0 then 0 else o.total.toFloat / o.busy.toFloat) ∧
      occFinalize (occSummarize (OccSlot.build 0 t)) .utilization =
        if o.busy = 0 ∨ o.span = 0 then 0 else o.busy.toFloat / o.span.toFloat := by
  refine ⟨_, occSummarize_build t fits few, rfl, rfl, ite_not _ _ _, ?_⟩
  rw [occFinalize, ← ite_not]
  simp only [not_and_or, not_not]

theorem occFinalize_overlapping : ∃ o,
    OccExact (occIntervals [⟨some (.u64 3), some (.i64 4)⟩, ⟨some (.u64 5), some (.f64 6.5)⟩]) o ∧
      occFinalize (occSummarize (OccSlot.build 0 (.merge (.ofList [⟨some (.u64 3), some (.i64 4)⟩])
        (.ofList [⟨some (.u64 5), some (.f64 6.5)⟩])))) .busy = o.busy.toFloat := by
  obtain ⟨o, exact_, busy, _⟩ := occFinalize_build
    (.merge (.ofList [⟨some (.u64 3), some (.i64 4)⟩])
      (.ofList [⟨some (.u64 5), some (.f64 6.5)⟩]))
    (by
      intro row listed
      simp only [Build.values, Build.values_ofList, cons_append, nil_append,
        mem_cons, not_mem_nil, or_false] at listed
      rcases listed with rfl | rfl
      · intro ts dur first second _
        cases first
        cases second
        exact ⟨rfl, by decide +kernel⟩
      · intro ts dur first second _
        cases first
        cases second
        exact ⟨rfl, by decide +kernel⟩)
    (by
      simp only [Build.values]
      norm_num)
  exact ⟨o, exact_, busy⟩

/-- Doubles are cut to whole units, a busy time beyond `2 ^ 53` is rounded to a double, and an
interval that starts before zero is lost. -/
theorem occFinalize_inexact :
    occFinalize (occSummarize (OccSlot.build 0 (.ofList [⟨some (.f64 0), some (.f64 1.5)⟩]))) .busy =
        1 ∧
      (occFinalize (occSummarize (OccSlot.build 0
        (.ofList [⟨some (.u64 0), some (.u64 9007199254740993)⟩]))) .busy =
        occFinalize (occSummarize (OccSlot.build 0
          (.ofList [⟨some (.u64 0), some (.u64 9007199254740992)⟩]))) .busy ∧
        MeasureTheory.volume (Set.Ico (0 : ℝ) 9007199254740993) ≠
          MeasureTheory.volume (Set.Ico (0 : ℝ) 9007199254740992)) ∧
      occFinalize (occSummarize (OccSlot.build 0
        (.ofList [⟨some (.i64 (-5)), some (.i64 10)⟩]))) .busy = 0 := by
  refine ⟨by decide +kernel, ⟨by decide +kernel, ?_⟩, by decide +kernel⟩
  norm_num

end DFTracer.Aggregation
