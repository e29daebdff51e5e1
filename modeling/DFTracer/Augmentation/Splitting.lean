/-
# Augmenting batches

Rows that are stored at one interval are brought to another. At a longer one, rows of one key are
merged. At a shorter one, the count of a row is split over the buckets that its range of time
reaches, by the time in each of them, and the last bucket takes what is left. Sums and confidence
intervals are doubles, whose arithmetic is a parameter; weights are exact.
-/

import DFTracer.Keys.KeyCodec
import DFTracer.Math.Fallible
import DFTracer.Math.RoundedShares

namespace DFTracer.Augmentation

open List

open DFTracer.Math (Table)
open DFTracer.Aggregation (Bytes AggregationMetrics MetricStats)
open DFTracer.Keys (AggregationKey)

structure AugmentationConfig where
  sourceIntervalUs : UInt64
  targetIntervalUs : UInt64

structure CountConfidenceInterval where
  lower : Float := 0
  upper : Float := 0

structure AggregationEntry where
  key : AggregationKey
  metrics : AggregationMetrics
  isApproximated : Bool := false
  countCi : CountConfidenceInterval := {}

inductive AggregationBatchType
  | EVENT
  | PROFILE
  | SYSTEM
  deriving DecidableEq, Repr

structure AggregationBatch where
  entries : List AggregationEntry := []
  batchType : AggregationBatchType := .EVENT
  totalEventsProcessed : Nat := 0
  totalFilesProcessed : Nat := 0
  totalBytesProcessed : Nat := 0
  hasApproximatedEntries : Bool := false
  globalExtraKeyIds : Option (List Nat) := none
  globalCustomMetricNames : Option (List Bytes) := none

/-- What an assignment leaves. It does not reach the sketch of the files. -/
def assign (old new : AggregationMetrics) : AggregationMetrics :=
  { new with distinctFiles := old.distinctFiles }

/-- What rows are merged under. -/
structure MergeKey where
  catId : Nat
  nameId : Nat
  pid : UInt64
  tid : UInt64
  hhashId : Nat
  fhash : UInt64
  targetBucket : UInt64
  deriving DecidableEq

def targetBucket (source target : UInt64) (key : AggregationKey) : UInt64 :=
  key.timeBucket * source / target

def mergeKey (source target : UInt64) (key : AggregationKey) : MergeKey where
  catId := key.catId
  nameId := key.nameId
  pid := key.pid
  tid := key.tid
  hhashId := key.hhashId
  fhash := key.fhash
  targetBucket := targetBucket source target key

/-- Put an entry to the merged ones. -/
def mergeEntry (source target : UInt64) (merged : Table MergeKey AggregationEntry)
    (entry : AggregationEntry) : Table MergeKey AggregationEntry :=
  merged.alter (mergeKey source target entry.key) fun old =>
    match old with
    | none =>
      { key := { entry.key with timeBucket := targetBucket source target entry.key }
        metrics := assign {} entry.metrics }
    | some old => { old with metrics := old.metrics.mergeFrom entry.metrics }

def shrinkBatch (input : AggregationBatch) (source target : UInt64) : AggregationBatch :=
  { input with
    hasApproximatedEntries := false
    entries := (input.entries.foldl (mergeEntry source target) Table.empty).entries.map Prod.snd }

/-- The double arithmetic on sums and for confidence intervals. -/
structure Doubles where
  scaledSum : Float → ℚ → Float
  poissonCi : ℚ → CountConfidenceInterval

/-- The nearest integer, with halves away from zero. -/
def roundHalfAway (q : ℚ) : ℤ := if 0 ≤ q then ⌊q + 1 / 2⌋ else -⌊1 / 2 - q⌋

/-- Which part of a range of time is in a target bucket, if any is. -/
def bucketWeight (target ts te : UInt64) (n : Nat) : Option (UInt64 × ℚ) :=
  let tb := UInt64.ofNat n
  let tbStart := tb * target
  let tbEnd := tbStart + target
  let overlapStart := max ts tbStart
  let overlapEnd := min te tbEnd
  if overlapStart < overlapEnd then
    some (tb, ((overlapEnd - overlapStart).toNat : ℚ) / ((te - ts).toNat : ℚ))
  else none

/-- The target buckets of a range of time, from that of its start to that of its end. -/
def bucketWeights (target ts te : UInt64) : List (UInt64 × ℚ) :=
  let first := (ts / target).toNat
  let last := ((te - 1) / target).toNat
  (List.range' first (last + 1 - first)).filterMap (bucketWeight target ts te)

/-- Weights that make up the whole. -/
def normalized (weights : List (UInt64 × ℚ)) : List (UInt64 × ℚ) :=
  let total := (weights.map Prod.snd).sum
  if 0 < total then weights.map fun (tb, w) => (tb, w / total) else weights

/-- Split a count by weights. The last part is what the others leave. -/
def splitCount (count : UInt64) : UInt64 → List (UInt64 × ℚ) → List (UInt64 × ℚ × UInt64)
  | _, [] => []
  | countSum, [(tb, weight)] => [(tb, weight, count - countSum)]
  | countSum, (tb, weight) :: rest =>
    let subCount := UInt64.ofNat (roundHalfAway (count.toNat * weight)).toNat
    (tb, weight, subCount) :: splitCount count (countSum + subCount) rest

/-- A metric of a part. -/
def scaleStats (doubles : Doubles) (weight : ℚ) (subCount : UInt64) (m : MetricStats) :
    MetricStats :=
  { m with stat := { m.stat with sum := doubles.scaledSum m.stat.sum weight, n := subCount } }

/-- The metrics of a part. -/
def scaleMetrics (doubles : Doubles) (weight : ℚ) (subCount : UInt64) (m : AggregationMetrics) :
    AggregationMetrics :=
  { assign {} m with
    count := subCount
    duration := scaleStats doubles weight subCount m.duration
    size := scaleStats doubles weight subCount m.size
    customMetrics := m.customMetrics.mapValues (scaleStats doubles weight subCount) }

/-- The time in a bucket that is nearest to a time. -/
def clampTime (bucketStart bucketEnd ts : UInt64) : UInt64 :=
  let ts := if ts < bucketStart then bucketStart else ts
  if bucketEnd ≤ ts then bucketEnd - 1 else ts

/-- A part of an entry, unless its count is zero. -/
def splitPart (doubles : Doubles) (entry : AggregationEntry) :
    UInt64 × ℚ × UInt64 → Option AggregationEntry
  | (tb, weight, subCount) =>
    if 0 < subCount then
      some {
        key := { entry.key with timeBucket := tb }
        isApproximated := true
        metrics := scaleMetrics doubles weight subCount entry.metrics
        countCi := doubles.poissonCi (entry.metrics.count.toNat * weight) }
    else none

/-- The parts of an entry, none when the target interval is zero. -/
def expandEntry (doubles : Doubles) (source target : UInt64) (entry : AggregationEntry) :
    Option (List AggregationEntry) :=
  let bucketStart := entry.key.timeBucket * source
  let bucketEnd := bucketStart + source
  let ts := max entry.metrics.ts bucketStart
  let te := min entry.metrics.te bucketEnd
  if target = 0 then none
  else if te ≤ ts then
    some [{
      key := { entry.key with
        timeBucket := clampTime bucketStart bucketEnd entry.metrics.ts / target }
      isApproximated := true
      metrics := assign {} entry.metrics
      countCi := doubles.poissonCi entry.metrics.count.toNat }]
  else
    some ((splitCount entry.metrics.count 0 (normalized (bucketWeights target ts te))).filterMap
      (splitPart doubles entry))

def expandBatch (doubles : Doubles) (input : AggregationBatch) (source target : UInt64) :
    Option AggregationBatch := do
  let parts ← input.entries.mapM (expandEntry doubles source target)
  pure { input with hasApproximatedEntries := true, entries := parts.flatten }

/-- Bring a batch to the target interval. Nothing comes out of a division by zero. -/
def augmentBatch (doubles : Doubles) (input : AggregationBatch) (config : AugmentationConfig) :
    Option AggregationBatch :=
  if config.sourceIntervalUs = config.targetIntervalUs then
    some { input with
      hasApproximatedEntries := false
      entries := input.entries.map fun entry =>
        { key := entry.key, metrics := assign {} entry.metrics } }
  else if config.sourceIntervalUs < config.targetIntervalUs then
    some (shrinkBatch input config.sourceIntervalUs config.targetIntervalUs)
  else expandBatch doubles input config.sourceIntervalUs config.targetIntervalUs

/-! ## Splitting buckets

An entry is split over target buckets by the time in each of them. The counts of its parts are
rounded on their own but for the last, which is what they leave as a 64-bit number, so that they
make up the count exactly when the rounding did not take too much before. A range that its bucket
does not have is put into the nearest time of the bucket. -/

open DFTracer.Math.RoundedShares

/-! ### Weights -/

/-- Where the buckets of a range end that have an end of 64 bits. -/
def coveredEnd (target te : Nat) : Nat :=
  if ((te - 1) / target + 1) * target < 2 ^ 64 then te else (te - 1) / target * target

theorem toNat_max (a b : UInt64) : (max a b).toNat = max a.toNat b.toNat := by
  change (if a ≤ b then b else a).toNat = _
  split
  next h => exact (Nat.max_eq_right (UInt64.le_iff_toNat_le.mp h)).symm
  next h => exact (Nat.max_eq_left (UInt64.le_iff_toNat_le.mp (UInt64.le_of_lt (UInt64.not_le.mp h)))).symm

theorem toNat_min (a b : UInt64) : (min a b).toNat = min a.toNat b.toNat := by
  change (if a ≤ b then a else b).toNat = _
  split
  next h => exact (Nat.min_eq_left (UInt64.le_iff_toNat_le.mp h)).symm
  next h => exact (Nat.min_eq_right (UInt64.le_iff_toNat_le.mp (UInt64.le_of_lt (UInt64.not_le.mp h)))).symm

section Weights

variable {target ts te : UInt64} (cut : 0 < target.toNat) (inhabited : ts.toNat < te.toNat)

include cut inhabited

/-- A bucket has a weight unless its end is past 64 bits. -/
theorem bucketWeight_eq {n : Nat} (hn : n ∈ touched ts.toNat te.toNat target.toNat) :
    bucketWeight target ts te n =
      if (n + 1) * target.toNat < 2 ^ 64 then
        some (UInt64.ofNat n, (tile ts.toNat te.toNat target.toNat n : ℚ) /
          ((te.toNat - ts.toNat : ℕ) : ℚ))
      else none := by
  obtain ⟨below, above⟩ := (mem_touched cut inhabited).mp hn
  have wideTe := te.toNat_lt
  have wideTarget := target.toNat_lt
  have step : (n + 1) * target.toNat = n * target.toNat + target.toNat := Nat.succ_mul n _
  have small : n < 2 ^ 64 := by
    have := Nat.le_mul_of_pos_right n cut
    omega
  have start : (UInt64.ofNat n * target).toNat = n * target.toNat := by
    rw [UInt64.toNat_mul, UInt64.toNat_ofNat_of_lt' small, Nat.mod_eq_of_lt (by omega)]
  have stop : (UInt64.ofNat n * target + target).toNat =
      (n * target.toNat + target.toNat) % 2 ^ 64 := by
    rw [UInt64.toNat_add, start]
  unfold bucketWeight
  simp only [UInt64.lt_iff_toNat_lt, toNat_max, toNat_min, start, stop]
  rw [step]
  by_cases fits : n * target.toNat + target.toNat < 2 ^ 64
  · rw [if_pos fits]
    have overlap : max ts.toNat (n * target.toNat) <
        min te.toNat ((n * target.toNat + target.toNat) % 2 ^ 64) := by
      omega
    have ordered : max ts (UInt64.ofNat n * target) ≤ min te (UInt64.ofNat n * target + target) := by
      rw [UInt64.le_iff_toNat_le, toNat_max, toNat_min]
      omega
    have length : (min te (UInt64.ofNat n * target + target) - max ts (UInt64.ofNat n * target)).toNat
        = tile ts.toNat te.toNat target.toNat n := by
      rw [UInt64.toNat_sub_of_le _ _ ordered, toNat_max, toNat_min, start, stop,
        Nat.mod_eq_of_lt fits, tile, step]
    have span : (te - ts).toNat = te.toNat - ts.toNat :=
      UInt64.toNat_sub_of_le _ _ (UInt64.le_iff_toNat_le.mpr (Nat.le_of_lt inhabited))
    rw [if_pos overlap, length, span]
  · rw [if_neg fits, if_neg]
    omega

omit cut in
/-- The buckets of the loop are the pieces of the range. -/
theorem bucketWeights_touched : bucketWeights target ts te =
    (touched ts.toNat te.toNat target.toNat).filterMap (bucketWeight target ts te) := by
  have one : (1 : UInt64).toNat = 1 := rfl
  have before : (te - 1).toNat = te.toNat - 1 := by
    rw [UInt64.toNat_sub_of_le _ _ (UInt64.le_iff_toNat_le.mpr (by omega)), one]
  rw [bucketWeights, touched, UInt64.toNat_div, UInt64.toNat_div, before]

omit inhabited in
/-- What is left of the pieces when the last one is past 64 bits. -/
theorem touched_coveredEnd (past : ¬ ((te.toNat - 1) / target.toNat + 1) * target.toNat < 2 ^ 64)
    (covered : ts.toNat < coveredEnd target.toNat te.toNat) :
    touched ts.toNat (coveredEnd target.toNat te.toNat) target.toNat =
      List.range' (ts.toNat / target.toNat)
        ((te.toNat - 1) / target.toNat - ts.toNat / target.toNat) := by
  rw [coveredEnd, if_neg past] at covered ⊢
  have last : ((te.toNat - 1) / target.toNat * target.toNat - 1) / target.toNat + 1 =
      (te.toNat - 1) / target.toNat := by
    generalize (te.toNat - 1) / target.toNat = q at covered ⊢
    have positive : q ≠ 0 := by
      rintro rfl
      omega
    obtain ⟨k, rfl⟩ := Nat.exists_eq_succ_of_ne_zero positive
    have step : (k + 1) * target.toNat = k * target.toNat + target.toNat := Nat.succ_mul k _
    rw [Nat.succ_eq_add_one, Nat.div_eq_of_lt_le (k := k) (by omega) (by omega)]
  rw [touched, last]

/-- The weights are those of the pieces with an end of 64 bits. -/
theorem bucketWeights_eq : bucketWeights target ts te =
    if ts.toNat < coveredEnd target.toNat te.toNat then
      (touched ts.toNat (coveredEnd target.toNat te.toNat) target.toNat).map fun n =>
        (UInt64.ofNat n,
          (tile ts.toNat (coveredEnd target.toNat te.toNat) target.toNat n : ℚ) /
            ((te.toNat - ts.toNat : ℕ) : ℚ))
    else [] := by
  rw [bucketWeights_touched inhabited]
  by_cases fits : ((te.toNat - 1) / target.toNat + 1) * target.toNat < 2 ^ 64
  · have top : coveredEnd target.toNat te.toNat = te.toNat := if_pos fits
    rw [top, if_pos inhabited, ← filterMap_eq_map]
    apply filterMap_congr
    intro n hn
    have inside := (mem_touched cut inhabited).mp hn
    have below : n ≤ (te.toNat - 1) / target.toNat := by
      rw [Nat.le_div_iff_mul_le cut]
      omega
    have := Nat.mul_le_mul_right target.toNat (Nat.add_le_add_right below 1)
    rw [bucketWeight_eq cut inhabited hn, if_pos (by omega)]
    rfl
  · have top : coveredEnd target.toNat te.toNat = (te.toNat - 1) / target.toNat * target.toNat :=
      if_neg fits
    have upper := Nat.div_mul_le_self (te.toNat - 1) target.toNat
    have wide := te.toNat_lt
    have last : bucketWeight target ts te ((te.toNat - 1) / target.toNat) = none := by
      rw [bucketWeight_eq cut inhabited, if_neg fits]
      rw [touched_eq inhabited]
      exact mem_append_right _ (mem_singleton_self _)
    rw [touched_eq inhabited, filterMap_append, filterMap_cons, last, filterMap_nil, append_nil]
    by_cases covered : ts.toNat < coveredEnd target.toNat te.toNat
    · rw [if_pos covered, touched_coveredEnd cut fits covered, ← filterMap_eq_map]
      apply filterMap_congr
      intro n hn
      have inside : n ∈ touched ts.toNat te.toNat target.toNat := by
        rw [touched_eq inhabited]
        exact mem_append_left _ hn
      rw [mem_range'_1] at hn
      have whole := Nat.mul_le_mul_right target.toNat
        (show n + 1 ≤ (te.toNat - 1) / target.toNat by omega)
      have same : tile ts.toNat te.toNat target.toNat n =
          tile ts.toNat (coveredEnd target.toNat te.toNat) target.toNat n := by
        rw [tile, tile]
        omega
      rw [bucketWeight_eq cut inhabited inside, if_pos (by omega), same]
      rfl
    · have nothing : (te.toNat - 1) / target.toNat - ts.toNat / target.toNat = 0 := by
        rw [top, not_lt] at covered
        have := (Nat.le_div_iff_mul_le cut).mpr covered
        omega
      rw [if_neg covered, nothing]
      rfl

/-- The weights that make up the whole are the lengths of the pieces in what they cover. -/
theorem normalized_bucketWeights (covered : ts.toNat < coveredEnd target.toNat te.toNat) :
    normalized (bucketWeights target ts te) =
      (touched ts.toNat (coveredEnd target.toNat te.toNat) target.toNat).map fun n =>
        (UInt64.ofNat n,
          (tile ts.toNat (coveredEnd target.toNat te.toNat) target.toNat n : ℚ) /
            ((coveredEnd target.toNat te.toNat - ts.toNat : ℕ) : ℚ)) := by
  have span : (0 : ℚ) < ((te.toNat - ts.toNat : ℕ) : ℚ) := by
    exact_mod_cast (show 0 < te.toNat - ts.toNat by omega)
  have reach : (0 : ℚ) < ((coveredEnd target.toNat te.toNat - ts.toNat : ℕ) : ℚ) := by
    exact_mod_cast (show 0 < coveredEnd target.toNat te.toNat - ts.toNat by omega)
  have total : (((touched ts.toNat (coveredEnd target.toNat te.toNat) target.toNat).map fun n =>
      (UInt64.ofNat n, (tile ts.toNat (coveredEnd target.toNat te.toNat) target.toNat n : ℚ) /
        ((te.toNat - ts.toNat : ℕ) : ℚ))).map Prod.snd).sum =
      ((coveredEnd target.toNat te.toNat - ts.toNat : ℕ) : ℚ) /
        ((te.toNat - ts.toNat : ℕ) : ℚ) := by
    rw [map_map, ← sum_tiles cut covered]
    exact sum_map_div _ _ _
  rw [bucketWeights_eq cut inhabited, if_pos covered, normalized, total]
  simp only
  rw [if_pos (div_pos reach span), map_map]
  apply map_congr_left
  intro n _
  have nonzero := span.ne'
  have nonzero' := reach.ne'
  simp only [Function.comp_apply, Prod.mk.injEq, true_and]
  field_simp

end Weights

/-- A weight rounds to a rounded share. -/
theorem roundHalfAway_share (count part : Nat) {whole : Nat} (positive : 0 < whole) :
    (roundHalfAway ((count : ℚ) * ((part : ℚ) / (whole : ℚ)))).toNat =
      roundedShare count part whole := by
  have nonneg : (0 : ℚ) ≤ (count : ℚ) * ((part : ℚ) / (whole : ℚ)) := by positivity
  rw [roundHalfAway, if_pos nonneg, floor_share count part positive, Int.toNat_natCast]

/-- The counts of the parts. -/
theorem splitCount_eq (count : UInt64) (label : Nat → UInt64) (part : Nat → Nat) {whole : Nat}
    (positive : 0 < whole) (last : Nat) : ∀ (init : List Nat) (countSum : UInt64),
    splitCount count countSum ((init ++ [last]).map fun n => (label n, (part n : ℚ) / (whole : ℚ))) =
      (init.map fun n => (label n, (part n : ℚ) / (whole : ℚ),
        UInt64.ofNat (roundedShare count.toNat (part n) whole))) ++
      [(label last, (part last : ℚ) / (whole : ℚ), count - (countSum +
        UInt64.ofNat (init.map fun n => roundedShare count.toNat (part n) whole).sum))] := by
  intro init
  induction init with
  | nil =>
    intro countSum
    simp [splitCount]
  | cons n init ih =>
    intro countSum
    have more : ∃ w ws, ((init ++ [last]).map fun n => (label n, (part n : ℚ) / (whole : ℚ))) =
        w :: ws := exists_cons_of_ne_nil (by simp)
    obtain ⟨w, ws, same⟩ := more
    rw [cons_append, map_cons, same, splitCount, ← same]
    · rw [ih, roundHalfAway_share _ _ positive, map_cons, map_cons, sum_cons,
        UInt64.ofNat_add, UInt64.add_assoc]
      rfl
    · exact cons_ne_nil w ws

/-- A difference that does not go below zero. -/
theorem toNat_rest {count : UInt64} {taken : Nat} (fits : taken ≤ count.toNat) :
    (count - (0 + UInt64.ofNat taken)).toNat = count.toNat - taken := by
  have wide := count.toNat_lt
  have small : (UInt64.ofNat taken).toNat = taken := 
    UInt64.toNat_ofNat_of_lt' (show taken < 2 ^ 64 by omega)
  rw [UInt64.zero_add, UInt64.toNat_sub_of_le _ _ (by rwa [UInt64.le_iff_toNat_le, small]), small]

/-! ### Entries -/

/-- The parts of an entry have no larger count than it, their counts make up its count, and their
buckets have some of its range of time. -/
structure Conserves (target : UInt64) (entry : AggregationEntry) (parts : List AggregationEntry) :
    Prop where
  atMost : ∀ p ∈ parts, p.metrics.count ≤ entry.metrics.count
  total : (parts.map fun p => p.metrics.count.toNat).sum = entry.metrics.count.toNat
  overlaps : ∀ p ∈ parts, p.key.timeBucket.toNat * target.toNat ≤ entry.metrics.te.toNat ∧
    entry.metrics.ts.toNat < (p.key.timeBucket.toNat + 1) * target.toNat

/-- A range that its bucket has is covered by target buckets with an end of 64 bits, and the
rounded shares of all of them but the last do not exceed the count. Of another range, the nearest
time in the bucket is in a target bucket between those of its start and its end. -/
def SplitsWell (source target : UInt64) (entry : AggregationEntry) : Prop :=
  let bucketStart := entry.key.timeBucket * source
  let bucketEnd := bucketStart + source
  let ts := max entry.metrics.ts bucketStart
  let te := min entry.metrics.te bucketEnd
  let nearest := clampTime bucketStart bucketEnd entry.metrics.ts
  if te ≤ ts then
    entry.metrics.ts / target ≤ nearest / target ∧ nearest / target ≤ entry.metrics.te / target
  else
    entry.metrics.count = 0 ∨
      (ts.toNat < coveredEnd target.toNat te.toNat ∧
        earlierShares entry.metrics.count.toNat ts.toNat (coveredEnd target.toNat te.toNat)
          target.toNat ≤ entry.metrics.count.toNat)

section Entries

variable {doubles : Doubles} {source target : UInt64} {entry : AggregationEntry}
  {parts : List AggregationEntry}

/-- A range with no time in its bucket is one part. -/
theorem conserves_single (cut : 0 < target.toNat) {part : AggregationEntry} {time : UInt64}
    (bucket : part.key.timeBucket = time / target)
    (count : part.metrics.count = entry.metrics.count) :
    Conserves target entry [part] ↔
      entry.metrics.ts / target ≤ time / target ∧ time / target ≤ entry.metrics.te / target := by
  have low : entry.metrics.ts / target ≤ time / target ↔
      entry.metrics.ts.toNat < ((time / target).toNat + 1) * target.toNat := by
    rw [UInt64.le_iff_toNat_le, UInt64.toNat_div, ← Nat.lt_succ_iff, Nat.div_lt_iff_lt_mul cut]
  have high : time / target ≤ entry.metrics.te / target ↔
      (time / target).toNat * target.toNat ≤ entry.metrics.te.toNat := by
    rw [UInt64.le_iff_toNat_le, UInt64.toNat_div entry.metrics.te, Nat.le_div_iff_mul_le cut]
  rw [low, high]
  constructor
  · intro h
    have := h.overlaps part (mem_singleton_self part)
    rw [bucket] at this
    exact this.symm
  · rintro ⟨first, last⟩
    refine ⟨?_, ?_, ?_⟩
    · intro p hp
      cases mem_singleton.mp hp
      exact UInt64.le_of_eq count
    · rw [map_singleton, sum_singleton, count]
    · intro p hp
      cases mem_singleton.mp hp
      rw [bucket]
      exact ⟨last, first⟩

theorem sum_splitParts (pieces : List (UInt64 × ℚ × UInt64)) :
    ((pieces.filterMap (splitPart doubles entry)).map fun p => p.metrics.count.toNat).sum =
      (pieces.map fun piece => piece.2.2.toNat).sum := by
  induction pieces with
  | nil => rfl
  | cons piece pieces ih =>
    obtain ⟨tb, weight, subCount⟩ := piece
    rw [map_cons, sum_cons, ← ih, filterMap_cons, splitPart]
    by_cases positive : 0 < subCount
    · rw [if_pos positive]
      rfl
    · have zero : subCount.toNat = 0 := by
        exact Nat.eq_zero_of_not_pos positive
      rw [if_neg positive]
      simp only [zero, Nat.zero_add]

theorem mem_splitParts {pieces : List (UInt64 × ℚ × UInt64)} {p : AggregationEntry}
    (h : p ∈ pieces.filterMap (splitPart doubles entry)) :
    ∃ piece ∈ pieces, p.key.timeBucket = piece.1 ∧ p.metrics.count = piece.2.2 := by
  obtain ⟨⟨tb, weight, subCount⟩, hmem, hpart⟩ := mem_filterMap.mp h
  rw [splitPart] at hpart
  split at hpart
  next =>
    cases hpart
    exact ⟨_, hmem, rfl, rfl⟩
  next => cases hpart

/-- A range that is covered is split well when the rounding leaves something to the last part. -/
theorem conserves_split {ts te : UInt64} (cut : 0 < target.toNat) (inhabited : ts.toNat < te.toNat)
    (covered : ts.toNat < coveredEnd target.toNat te.toNat) (front : entry.metrics.ts ≤ ts)
    (back : te ≤ entry.metrics.te) :
    Conserves target entry
        ((splitCount entry.metrics.count 0 (normalized (bucketWeights target ts te))).filterMap
          (splitPart doubles entry)) ↔
      earlierShares entry.metrics.count.toNat ts.toNat (coveredEnd target.toNat te.toNat)
        target.toNat ≤ entry.metrics.count.toNat := by
  have reach : 0 < coveredEnd target.toNat te.toNat - ts.toNat := by omega
  have end_le : coveredEnd target.toNat te.toNat ≤ te.toNat := by
    have upper := Nat.div_mul_le_self (te.toNat - 1) target.toNat
    rw [coveredEnd]
    split <;> omega
  have wide := te.toNat_lt
  have few := entry.metrics.count.toNat_lt
  have share : ∀ n, roundedShare entry.metrics.count.toNat
      (tile ts.toNat (coveredEnd target.toNat te.toNat) target.toNat n)
      (coveredEnd target.toNat te.toNat - ts.toNat) ≤ entry.metrics.count.toNat := fun n =>
    roundedShare_le reach (tile_le _ _ _ n)
  have earlier := sum_earlierShares cut covered entry.metrics.count.toNat
  have touchedSplit := @touched_eq _ _ target.toNat covered
  have pieces := splitCount_eq entry.metrics.count UInt64.ofNat
    (tile ts.toNat (coveredEnd target.toNat te.toNat) target.toNat) reach
    ((coveredEnd target.toNat te.toNat - 1) / target.toNat)
    (List.range' (ts.toNat / target.toNat)
      ((coveredEnd target.toNat te.toNat - 1) / target.toNat - ts.toNat / target.toNat)) 0
  rw [← touchedSplit, earlier] at pieces
  have counted : ((List.range' (ts.toNat / target.toNat)
      ((coveredEnd target.toNat te.toNat - 1) / target.toNat - ts.toNat / target.toNat)).map
        fun n => (UInt64.ofNat (roundedShare entry.metrics.count.toNat
          (tile ts.toNat (coveredEnd target.toNat te.toNat) target.toNat n)
          (coveredEnd target.toNat te.toNat - ts.toNat))).toNat).sum =
      earlierShares entry.metrics.count.toNat ts.toNat (coveredEnd target.toNat te.toNat)
        target.toNat := by
    rw [← earlier]
    congr 1
    apply map_congr_left
    intro n _
    have := share n
    exact UInt64.toNat_ofNat_of_lt' (show _ < 2 ^ 64 by omega)
  rw [normalized_bucketWeights cut inhabited covered, pieces]
  constructor
  · intro conserves
    have total := conserves.total
    rw [sum_splitParts] at total
    simp only [map_append, sum_append, map_map, Function.comp_def] at total
    omega
  · intro fits
    have rest := toNat_rest fits
    refine ⟨?_, ?_, ?_⟩
    · intro p hp
      obtain ⟨piece, hmem, -, count⟩ := mem_splitParts hp
      rw [count, UInt64.le_iff_toNat_le]
      rcases mem_append.mp hmem with early | last
      · obtain ⟨n, -, rfl⟩ := mem_map.mp early
        have := share n
        rwa [UInt64.toNat_ofNat_of_lt' (show _ < 2 ^ 64 by omega)]
      · cases mem_singleton.mp last
        rw [rest]
        omega
    · rw [sum_splitParts]
      simp only [map_append, sum_append, map_map, Function.comp_def, map_singleton, sum_singleton]
      omega
    · intro p hp
      obtain ⟨piece, hmem, bucket, -⟩ := mem_splitParts hp
      have inside : ∃ n ∈ touched ts.toNat (coveredEnd target.toNat te.toNat) target.toNat,
          piece.1 = UInt64.ofNat n := by
        rw [touchedSplit]
        rcases mem_append.mp hmem with early | last
        · obtain ⟨n, hn, rfl⟩ := mem_map.mp early
          exact ⟨n, mem_append_left _ hn, rfl⟩
        · cases mem_singleton.mp last
          exact ⟨_, mem_append_right _ (mem_singleton_self _), rfl⟩
      obtain ⟨n, hn, label⟩ := inside
      obtain ⟨below, above⟩ := (mem_touched cut covered).mp hn
      have large := Nat.le_mul_of_pos_right n cut
      have number : p.key.timeBucket.toNat = n := by
        rw [bucket, label]
        exact UInt64.toNat_ofNat_of_lt' (show n < 2 ^ 64 by omega)
      have first := UInt64.le_iff_toNat_le.mp front
      have last := UInt64.le_iff_toNat_le.mp back
      rw [number]
      omega

/-- The parts of an entry conserve it exactly when it splits well. -/
theorem conserves_iff (cut : target ≠ 0) (split : expandEntry doubles source target entry = some parts) :
    Conserves target entry parts ↔ SplitsWell source target entry := by
  have positive : 0 < target.toNat := by
    rw [Nat.pos_iff_ne_zero]
    exact fun zero => cut (UInt64.toNat_inj.mp zero)
  unfold expandEntry at split
  unfold SplitsWell
  rw [if_neg cut] at split
  by_cases single : min entry.metrics.te (entry.key.timeBucket * source + source) ≤
      max entry.metrics.ts (entry.key.timeBucket * source)
  · rw [if_pos single] at split ⊢
    cases split
    exact conserves_single positive rfl rfl
  · rw [if_neg single] at split ⊢
    cases split
    have inhabited := UInt64.lt_iff_toNat_lt.mp (UInt64.not_le.mp single)
    by_cases covered : (max entry.metrics.ts (entry.key.timeBucket * source)).toNat <
        coveredEnd target.toNat (min entry.metrics.te (entry.key.timeBucket * source + source)).toNat
    · have front : entry.metrics.ts ≤ max entry.metrics.ts (entry.key.timeBucket * source) := by
        rw [UInt64.le_iff_toNat_le, toNat_max]
        omega
      have back : min entry.metrics.te (entry.key.timeBucket * source + source) ≤
          entry.metrics.te := by
        rw [UInt64.le_iff_toNat_le, toNat_min]
        omega
      rw [conserves_split positive inhabited covered front back]
      constructor
      · exact fun fits => .inr ⟨covered, fits⟩
      · rintro (none | ⟨-, fits⟩)
        · rw [none]
          exact Nat.le_of_eq (earlierShares_zero _ _ _)
        · exact fits
    · rw [bucketWeights_eq positive inhabited, if_neg covered]
      constructor
      · intro conserves
        exact .inl (UInt64.toNat_inj.mp conserves.total.symm)
      · rintro (none | ⟨absurd, -⟩)
        · refine ⟨fun p hp => ?_, ?_, fun p hp => ?_⟩
          · cases hp
          · rw [none]
            rfl
          · cases hp
        · exact (covered absurd).elim

theorem exists_parts (cut : target ≠ 0) (entry : AggregationEntry) :
    ∃ parts, expandEntry doubles source target entry = some parts := by
  unfold expandEntry
  rw [if_neg cut]
  split
  next => exact ⟨_, rfl⟩
  next => exact ⟨_, rfl⟩

end Entries

/-- What comes out of a batch is the parts of its entries, one entry after another, and each entry
is conserved. -/
def CountsConserved (doubles : Doubles) (batch : AggregationBatch) (config : AugmentationConfig) :
    Prop :=
  ∃ result parts, augmentBatch doubles batch config = some result ∧
    result.entries = parts.flatten ∧
    List.Forall₂ (fun entry split =>
      expandEntry doubles config.sourceIntervalUs config.targetIntervalUs entry = some split ∧
        Conserves config.targetIntervalUs entry split) batch.entries parts

/-- Splitting a batch conserves the counts exactly when the target interval is not zero, or nothing
is divided by it, and every entry splits well. -/
theorem countsConserved_iff (doubles : Doubles) (batch : AggregationBatch)
    (config : AugmentationConfig) (finer : config.targetIntervalUs < config.sourceIntervalUs) :
    CountsConserved doubles batch config ↔
      (batch.entries ≠ [] → config.targetIntervalUs ≠ 0) ∧
        ∀ entry ∈ batch.entries,
          SplitsWell config.sourceIntervalUs config.targetIntervalUs entry := by
  have splits : augmentBatch doubles batch config =
      expandBatch doubles batch config.sourceIntervalUs config.targetIntervalUs := by
    rw [augmentBatch, if_neg (UInt64.ne_of_lt finer).symm, if_neg (UInt64.lt_asymm finer)]
  constructor
  · rintro ⟨result, parts, -, -, all⟩
    have each := Math.exists_forall₂.mp ⟨parts, all⟩
    have cut : batch.entries ≠ [] → config.targetIntervalUs ≠ 0 := by
      intro inhabited zero
      obtain ⟨entry, hentry⟩ := exists_mem_of_ne_nil _ inhabited
      obtain ⟨split, parted, -⟩ := each entry hentry
      rw [zero] at parted
      cases parted
    refine ⟨cut, fun entry hentry => ?_⟩
    obtain ⟨split, parted, conserves⟩ := each entry hentry
    exact (conserves_iff (cut (ne_nil_of_mem hentry)) parted).mp conserves
  · rintro ⟨cut, well⟩
    have each : ∀ entry ∈ batch.entries, ∃ split,
        expandEntry doubles config.sourceIntervalUs config.targetIntervalUs entry = some split ∧
          Conserves config.targetIntervalUs entry split := by
      intro entry hentry
      have nonzero := cut (ne_nil_of_mem hentry)
      obtain ⟨split, parted⟩ := @exists_parts doubles config.sourceIntervalUs _ nonzero entry
      exact ⟨split, parted, (conserves_iff nonzero parted).mpr (well entry hentry)⟩
    obtain ⟨parts, all⟩ := Math.exists_forall₂.mpr each
    refine ⟨{ batch with hasApproximatedEntries := true, entries := parts.flatten }, parts, ?_,
      rfl, all⟩
    rw [splits, expandBatch, Math.mapM_eq_some (all.imp fun _ _ h => h.1)]
    rfl

/-- An entry in the first bucket, whose range is all of the bucket. -/
def wholeBucket (count : UInt64) : AggregationEntry where
  key := ⟨1, 1, 0, true, 100, 1, 0, 0, []⟩
  metrics := { count := count, ts := 0, te := 5000 }

/-- Doubles that do not scale anything. -/
def unscaled : Doubles := ⟨fun sum _ => sum, fun _ => {}⟩

/-- A bucket of a hundred events, split into five. -/
theorem countsConserved_iff_five :
    CountsConserved unscaled { entries := [wholeBucket 100] } ⟨5000, 1000⟩ ↔
      ([wholeBucket 100] ≠ [] → (1000 : UInt64) ≠ 0) ∧
        ∀ entry ∈ [wholeBucket 100], SplitsWell 5000 1000 entry :=
  countsConserved_iff unscaled { entries := [wholeBucket 100] } ⟨5000, 1000⟩ (by decide)

/-- Of three events the first four of five buckets get one each, and the last one less than none. -/
theorem three_not_conserved :
    ¬ ∀ (doubles : Doubles) (batch : AggregationBatch) (config : AugmentationConfig),
      config.targetIntervalUs < config.sourceIntervalUs →
      (∀ entry ∈ batch.entries, entry.metrics.ts ≤ entry.metrics.te) →
      CountsConserved doubles batch config := by
  intro all
  have ordered : ∀ entry ∈ [wholeBucket 3], entry.metrics.ts ≤ entry.metrics.te := by
    intro entry hentry
    cases mem_singleton.mp hentry
    decide
  obtain ⟨result, parts, -, -, split⟩ :=
    all unscaled { entries := [wholeBucket 3] } ⟨5000, 1000⟩ (by decide) ordered
  obtain ⟨parts, parted, conserves⟩ :=
    Math.exists_forall₂.mp ⟨parts, split⟩ (wholeBucket 3) (mem_singleton_self _)
  have well := (conserves_iff (by decide) parted).mp conserves
  revert well
  unfold SplitsWell
  decide

end DFTracer.Augmentation
