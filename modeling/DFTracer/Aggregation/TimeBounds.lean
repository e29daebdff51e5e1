/-
# The bounds of time

The fold of a file keeps the least and the greatest bucket of its events, and starts from bounds
that no event has. The aggregator takes both bounds of every file for buckets, also those that the
fold has started from, and where it is asked for its bounds it has a sign of its own for having
seen nothing.
-/

import DFTracer.Aggregation.SliceMerge
import DFTracer.Keys.KeyCodec

namespace DFTracer.Aggregation

open List

open DFTracer.Keys (putBe64 be64)

/-- The largest timestamp, for a least bucket that was not seen. -/
def UINT64_MAX : UInt64 := 0xFFFFFFFFFFFFFFFF

/-- What the fold of a file leaves, as far as times go. -/
structure AggFoldOutput where
  minTimeBucket : UInt64 := UINT64_MAX
  maxTimeBucket : UInt64 := 0

/-- What the aggregator is given, as far as times go. -/
structure ChunkAggregationOutput where
  success : Bool := false
  minTimeBucket : UInt64 := UINT64_MAX
  maxTimeBucket : UInt64 := 0

/-- `AggregationFold::min_time_bucket` and `max_time_bucket`. -/
def AggState.foldOutput (st : AggState) : AggFoldOutput where
  minTimeBucket := st.minTimeBucket
  maxTimeBucket := st.maxTimeBucket

/-- The aggregator, as far as times go. In `rocksdbMode` the database may have a record. -/
structure EventAggregator where
  rocksdbMode : Bool
  record : Option Bytes := none
  minTimeBucket : UInt64 := UINT64_MAX
  maxTimeBucket : UInt64 := 0

structure TimeBoundsResult where
  minTimeBucket : UInt64
  maxTimeBucket : UInt64
  valid : Bool

namespace EventAggregator

variable (agg : EventAggregator)

def updateTimeBounds (timeBucket : UInt64) : EventAggregator :=
  { agg with
    minTimeBucket := if timeBucket < agg.minTimeBucket then timeBucket else agg.minTimeBucket
    maxTimeBucket := if timeBucket > agg.maxTimeBucket then timeBucket else agg.maxTimeBucket }

/-- `merge_chunk_memory` and `merge_chunk_rocksdb`, which treat the bounds alike. -/
def mergeChunk (chunk : ChunkAggregationOutput) : EventAggregator :=
  if !chunk.success then agg
  else (agg.updateTimeBounds chunk.minTimeBucket).updateTimeBounds chunk.maxTimeBucket

/-- Hand the outputs of folds to the aggregator. -/
def mergeAggregationFolds (outputs : List AggFoldOutput) : EventAggregator :=
  outputs.foldl
    (fun agg out => agg.mergeChunk
      { success := true, minTimeBucket := out.minTimeBucket, maxTimeBucket := out.maxTimeBucket })
    agg

/-- The record of the bounds. -/
def timeBoundsVal : Bytes := putBe64 agg.minTimeBucket ++ putBe64 agg.maxTimeBucket

def persistTimeBounds : EventAggregator :=
  if !agg.rocksdbMode then agg
  else if agg.minTimeBucket ≠ UINT64_MAX ∧ agg.minTimeBucket ≤ agg.maxTimeBucket then
    { agg with record := some agg.timeBoundsVal }
  else agg

/-- What `finalize` does about the bounds. -/
def finalize : EventAggregator :=
  if !agg.rocksdbMode then agg
  else if agg.minTimeBucket ≠ UINT64_MAX ∧ agg.maxTimeBucket ≠ 0 ∧
      agg.minTimeBucket ≤ agg.maxTimeBucket then
    { agg with record := some agg.timeBoundsVal }
  else agg

/-- The bounds in the record. -/
def readRecord : Option (UInt64 × UInt64) := do
  let (low, rest) ← be64 (← agg.record)
  let (high, _) ← be64 rest
  pure (low, high)

def queryTimeBounds : TimeBoundsResult :=
  match if agg.rocksdbMode then agg.readRecord else none with
  | some (low, high) => ⟨low, high, true⟩
  | none =>
    ⟨agg.minTimeBucket, agg.maxTimeBucket,
      decide (agg.minTimeBucket ≠ UINT64_MAX ∧ agg.maxTimeBucket ≠ 0 ∧
        agg.minTimeBucket ≤ agg.maxTimeBucket)⟩

end EventAggregator

/-- What is done before the bounds are asked for. -/
inductive Closing where
  | asIs
  | persist
  | finalize
  deriving DecidableEq

def EventAggregator.close (agg : EventAggregator) : Closing → EventAggregator
  | .asIs => agg
  | .persist => agg.persistTimeBounds
  | .finalize => agg.finalize

/-! ## The buckets of events -/

/-- The bucket that an event is seen in. -/
def seenBucket (cfg : AggregationConfig) (ev : FoldEvent) : Option UInt64 :=
  if ev.isMetadata then none
  else if ev.isSystem && !isPreaggregatedSystem ev then some (computeTimeBucket ev.ts ev.dur cfg)
  else some (timeBucketOf cfg ev)

def seenBuckets (cfg : AggregationConfig) (events : List FoldEvent) : List UInt64 :=
  events.filterMap (seenBucket cfg)

/-- Two bounds of buckets, which are those that one starts from where there is no bucket. -/
structure Bounds (buckets : List UInt64) (low high : UInt64) : Prop where
  low : IsLeast {b | b ∈ UINT64_MAX :: buckets} low
  high : IsGreatest {b | b ∈ 0 :: buckets} high

section Bounds

variable {buckets rest : List UInt64} {low high low' high' : UInt64}

theorem le_UINT64_MAX (b : UInt64) : b ≤ UINT64_MAX :=
  UInt64.le_iff_toNat_le.mpr (Nat.le_of_lt_succ b.toNat_lt)

theorem zero_le_bucket (b : UInt64) : 0 ≤ b := UInt64.le_iff_toNat_le.mpr (Nat.zero_le _)

theorem Bounds.empty : Bounds [] UINT64_MAX 0 where
  low := ⟨mem_cons_self, fun _ listed => mem_singleton.mp listed ▸ UInt64.le_refl _⟩
  high := ⟨mem_cons_self, fun _ listed => mem_singleton.mp listed ▸ UInt64.le_refl _⟩

theorem Bounds.singleton (b : UInt64) : Bounds [b] b b where
  low := by
    refine ⟨mem_cons_of_mem _ (mem_singleton_self b), fun c listed => ?_⟩
    rcases mem_cons.mp listed with rfl | same
    · exact le_UINT64_MAX b
    · rw [mem_singleton.mp same]
      exact UInt64.le_refl b
  high := by
    refine ⟨mem_cons_of_mem _ (mem_singleton_self b), fun c listed => ?_⟩
    rcases mem_cons.mp listed with rfl | same
    · exact zero_le_bucket b
    · rw [mem_singleton.mp same]
      exact UInt64.le_refl b

theorem mem_start_append {start b : UInt64} {l l' : List UInt64} :
    b ∈ start :: (l ++ l') ↔ b ∈ start :: l ∨ b ∈ start :: l' := by
  rw [mem_cons, mem_append, mem_cons, mem_cons]
  tauto

section

variable (bounds : Bounds buckets low high)

include bounds

/-- The lesser and the greater ones are bounds of both. -/
theorem Bounds.append (bounds' : Bounds rest low' high')
    {least greatest : UInt64} (one : least = low ∨ least = low') (left : least ≤ low)
    (right : least ≤ low') (one' : greatest = high ∨ greatest = high') (left' : high ≤ greatest)
    (right' : high' ≤ greatest) : Bounds (buckets ++ rest) least greatest where
  low := by
    constructor
    · apply mem_start_append.mpr
      rcases one with rfl | rfl
      · exact .inl bounds.low.1
      · exact .inr bounds'.low.1
    · intro b listed
      rcases mem_start_append.mp listed with old | new
      · exact UInt64.le_trans left (bounds.low.2 old)
      · exact UInt64.le_trans right (bounds'.low.2 new)
  high := by
    constructor
    · apply mem_start_append.mpr
      rcases one' with rfl | rfl
      · exact .inl bounds.high.1
      · exact .inr bounds'.high.1
    · intro b listed
      rcases mem_start_append.mp listed with old | new
      · exact UInt64.le_trans (bounds.high.2 old) left'
      · exact UInt64.le_trans (bounds'.high.2 new) right'

/-- Bounds as they are compared with one more bucket. -/
theorem Bounds.snoc (b : UInt64) :
    Bounds (buckets ++ [b]) (if b < low then b else low) (if b > high then b else high) := by
  apply bounds.append (Bounds.singleton b)
  · split
    · exact .inr rfl
    · exact .inl rfl
  · split
    · exact UInt64.le_of_lt ‹_›
    · exact UInt64.le_refl _
  · split
    · exact UInt64.le_refl _
    · exact UInt64.not_lt.mp ‹_›
  · split
    · exact .inr rfl
    · exact .inl rfl
  · split
    · exact UInt64.le_of_lt ‹_›
    · exact UInt64.le_refl _
  · split
    · exact UInt64.le_refl _
    · exact UInt64.not_lt.mp ‹_›

theorem Bounds.merge (bounds' : Bounds rest low' high') :
    Bounds (buckets ++ rest) (min low low') (max high high') := by
  change Bounds _ (if low ≤ low' then low else low') (if high ≤ high' then high' else high)
  apply bounds.append bounds'
  · split
    · exact .inl rfl
    · exact .inr rfl
  · split
    · exact UInt64.le_refl _
    · exact UInt64.le_of_lt (UInt64.not_le.mp ‹_›)
  · split
    · assumption
    · exact UInt64.le_refl _
  · split
    · exact .inr rfl
    · exact .inl rfl
  · split
    · assumption
    · exact UInt64.le_refl _
  · split
    · exact UInt64.le_refl _
    · exact UInt64.le_of_lt (UInt64.not_le.mp ‹_›)

/-- Bounds of the same buckets are the same. -/
theorem Bounds.unique (bounds' : Bounds rest low' high')
    (same : ∀ b, b ∈ buckets ↔ b ∈ rest) : low = low' ∧ high = high' := by
  have least {l l' : List UInt64} {start : UInt64} (same : ∀ b, b ∈ l → b ∈ l') {b : UInt64}
      (listed : b ∈ start :: l) : b ∈ start :: l' :=
    mem_cons.mpr ((mem_cons.mp listed).imp_right (same b))
  constructor
  · exact UInt64.le_antisymm (bounds.low.2 (least (fun b => (same b).mpr) bounds'.low.1))
      (bounds'.low.2 (least (fun b => (same b).mp) bounds.low.1))
  · exact UInt64.le_antisymm (bounds'.high.2 (least (fun b => (same b).mp) bounds.high.1))
      (bounds.high.2 (least (fun b => (same b).mpr) bounds'.high.1))

/-- Of buckets that there are, the bounds are buckets. -/
theorem Bounds.inhabited (some : buckets ≠ []) :
    IsLeast {b | b ∈ buckets} low ∧ IsGreatest {b | b ∈ buckets} high := by
  obtain ⟨b, listed⟩ := exists_mem_of_ne_nil buckets some
  have lower : ∀ c ∈ buckets, low ≤ c := fun c found => bounds.low.2 (mem_cons_of_mem _ found)
  have upper : ∀ c ∈ buckets, c ≤ high :=
    fun c found => bounds.high.2 (mem_cons_of_mem _ found)
  refine ⟨⟨?_, lower⟩, ?_, upper⟩
  · rcases mem_cons.mp bounds.low.1 with top | found
    · rw [top, ← UInt64.le_antisymm (le_UINT64_MAX b) (top ▸ lower b listed)]
      exact listed
    · exact found
  · rcases mem_cons.mp bounds.high.1 with bottom | found
    · rw [bottom, ← UInt64.le_antisymm (bottom ▸ upper b listed) (zero_le_bucket b)]
      exact listed
    · exact found

end

end Bounds

theorem aggregateEvent_bounds (cfg : AggregationConfig) (st : AggState) (ev : FoldEvent) :
    (aggregateEvent cfg st ev).foldOutput =
      match seenBucket cfg ev with
      | none => st.foldOutput
      | some b => (st.sawBucket b).foldOutput := by
  rw [aggregateEvent, seenBucket]
  split
  · rfl
  · split
    · rfl
    · rfl

theorem foldl_bounds (cfg : AggregationConfig) (events : List FoldEvent) (st : AggState)
    {buckets : List UInt64} (bounds : Bounds buckets st.minTimeBucket st.maxTimeBucket) :
    Bounds (buckets ++ seenBuckets cfg events) (events.foldl (aggregateEvent cfg) st).minTimeBucket
      (events.foldl (aggregateEvent cfg) st).maxTimeBucket := by
  induction events generalizing st buckets with
  | nil => rwa [seenBuckets, filterMap_nil, append_nil]
  | cons ev events ih =>
    have step := aggregateEvent_bounds cfg st ev
    rw [seenBuckets, filterMap_cons]
    cases seen : seenBucket cfg ev with
    | none =>
      rw [seen] at step
      apply ih
      change Bounds _ (aggregateEvent cfg st ev).foldOutput.minTimeBucket
        (aggregateEvent cfg st ev).foldOutput.maxTimeBucket
      rw [step]
      exact bounds
    | some b =>
      rw [seen] at step
      rw [append_cons]
      apply ih
      change Bounds _ (aggregateEvent cfg st ev).foldOutput.minTimeBucket
        (aggregateEvent cfg st ev).foldOutput.maxTimeBucket
      rw [step]
      exact bounds.snoc b

/-- However slices are folded and merged, the bounds are those of all their events. -/
theorem MergeTree.bounds (cfg : AggregationConfig) (tree : MergeTree) :
    Bounds (seenBuckets cfg tree.events) (tree.run cfg).minTimeBucket
      (tree.run cfg).maxTimeBucket := by
  induction tree with
  | slice events => exact foldl_bounds cfg events {} Bounds.empty
  | merge left right ihl ihr =>
    rw [MergeTree.events, seenBuckets, filterMap_append]
    exact ihl.merge ihr

/-- The buckets that the aggregator is told. -/
def told (chunks : List ChunkAggregationOutput) : List UInt64 :=
  (chunks.filter fun chunk => chunk.success).flatMap fun chunk =>
    [chunk.minTimeBucket, chunk.maxTimeBucket]

namespace EventAggregator

variable {agg : EventAggregator}

theorem foldl_mergeChunk (chunks : List ChunkAggregationOutput) {buckets : List UInt64}
    (bounds : Bounds buckets agg.minTimeBucket agg.maxTimeBucket) :
    Bounds (buckets ++ told chunks) (chunks.foldl mergeChunk agg).minTimeBucket
        (chunks.foldl mergeChunk agg).maxTimeBucket ∧
      (chunks.foldl mergeChunk agg).record = agg.record ∧
      (chunks.foldl mergeChunk agg).rocksdbMode = agg.rocksdbMode := by
  induction chunks generalizing agg buckets with
  | nil => exact ⟨by rwa [told, filter_nil, flatMap_nil, append_nil], rfl, rfl⟩
  | cons chunk chunks ih =>
    rw [foldl_cons, mergeChunk, told, filter_cons]
    by_cases success : chunk.success
    · rw [success]
      have step := @ih ((agg.updateTimeBounds chunk.minTimeBucket).updateTimeBounds
        chunk.maxTimeBucket) _ ((bounds.snoc chunk.minTimeBucket).snoc chunk.maxTimeBucket)
      rwa [append_assoc, append_assoc] at step
    · rw [Bool.eq_false_of_not_eq_true success]
      exact ih bounds

/-- Without a record the bounds in memory are reported, and zero is no upper one. -/
theorem queryTimeBounds_unrecorded (unrecorded : agg.record = none) :
    agg.queryTimeBounds = ⟨agg.minTimeBucket, agg.maxTimeBucket,
      decide (agg.minTimeBucket ≠ UINT64_MAX ∧ agg.maxTimeBucket ≠ 0 ∧
        agg.minTimeBucket ≤ agg.maxTimeBucket)⟩ := by
  have none : (if agg.rocksdbMode then agg.readRecord else none) = none := by
    rw [readRecord, unrecorded]
    split <;> rfl
  rw [queryTimeBounds, none]

/-- What is recorded is reported. -/
theorem queryTimeBounds_recorded (mode : agg.rocksdbMode)
    (recorded : agg.record = some agg.timeBoundsVal) :
    agg.queryTimeBounds = ⟨agg.minTimeBucket, agg.maxTimeBucket, true⟩ := by
  have read : agg.readRecord = some (agg.minTimeBucket, agg.maxTimeBucket) := by
    have high := Keys.be64_putBe64 agg.maxTimeBucket []
    rw [append_nil] at high
    rw [readRecord, recorded, timeBoundsVal]
    simp only [Option.bind_eq_bind, Option.bind_some, Keys.be64_putBe64, high]
    rfl
  rw [queryTimeBounds, if_pos mode, read]

/-- What is reported where there was no record before. -/
theorem queryTimeBounds_close (unrecorded : agg.record = none) (closing : Closing) :
    (agg.close closing).queryTimeBounds = ⟨agg.minTimeBucket, agg.maxTimeBucket,
      decide (agg.minTimeBucket ≠ UINT64_MAX ∧ agg.minTimeBucket ≤ agg.maxTimeBucket ∧
        (agg.maxTimeBucket ≠ 0 ∨ agg.rocksdbMode ∧ closing = .persist))⟩ := by
  have inMemory (other : ¬ (agg.rocksdbMode ∧ closing = .persist)) :
      agg.queryTimeBounds = ⟨agg.minTimeBucket, agg.maxTimeBucket,
        decide (agg.minTimeBucket ≠ UINT64_MAX ∧ agg.minTimeBucket ≤ agg.maxTimeBucket ∧
          (agg.maxTimeBucket ≠ 0 ∨ agg.rocksdbMode ∧ closing = .persist))⟩ := by
    rw [queryTimeBounds_unrecorded unrecorded]
    congr 1
    rw [decide_eq_decide, or_iff_left other, and_comm (a := _ ≤ _)]
  by_cases mode : agg.rocksdbMode
  · have on : ¬ (!agg.rocksdbMode) = true := by
      rw [mode]
      exact Bool.false_ne_true
    have recorded := @queryTimeBounds_recorded { agg with record := some agg.timeBoundsVal }
      mode rfl
    cases closing with
    | asIs => exact inMemory fun both => nomatch both.2
    | persist =>
      rw [close, persistTimeBounds, if_neg on]
      split
      · rename_i some
        rw [recorded, decide_eq_true ⟨some.1, some.2, .inr ⟨mode, rfl⟩⟩]
      · rename_i none
        rw [queryTimeBounds_unrecorded unrecorded,
          decide_eq_false fun all => none ⟨all.1, all.2.2⟩,
          decide_eq_false fun all => none ⟨all.1, all.2.1⟩]
    | finalize =>
      rw [close, EventAggregator.finalize, if_neg on]
      split
      · rename_i some
        rw [recorded, decide_eq_true ⟨some.1, some.2.2, .inl some.2.1⟩]
      · exact inMemory fun both => nomatch both.2
  · have off : (!agg.rocksdbMode) = true := by
      rw [Bool.eq_false_of_not_eq_true mode]
      rfl
    have unchanged : agg.close closing = agg := by
      cases closing with
      | asIs => rfl
      | persist => rw [close, persistTimeBounds, if_pos off]
      | finalize => rw [close, EventAggregator.finalize, if_pos off]
    rw [unchanged]
    exact inMemory fun both => mode both.1

end EventAggregator

/-! ## When the bounds are reported -/

/-- A chunk of a file: whether it succeeded, and the slices that were folded. -/
structure FileChunk where
  success : Bool
  tree : MergeTree

/-- What the aggregator is given of a file. -/
def FileChunk.output (cfg : AggregationConfig) (chunk : FileChunk) : ChunkAggregationOutput where
  success := chunk.success
  minTimeBucket := (chunk.tree.run cfg).foldOutput.minTimeBucket
  maxTimeBucket := (chunk.tree.run cfg).foldOutput.maxTimeBucket

section Reports

variable (cfg : AggregationConfig) (rocksdbMode : Bool) (chunks : List FileChunk)

/-- The buckets of all aggregated events. -/
def aggregatedBuckets : List UInt64 :=
  (chunks.filter fun chunk => chunk.success).flatMap fun chunk => seenBuckets cfg chunk.tree.events

/-- The aggregator that was given all chunks. -/
def aggregator : EventAggregator :=
  (chunks.map (FileChunk.output cfg)).foldl EventAggregator.mergeChunk { rocksdbMode }

/-- The bounds are those of the aggregated events, and valid if and only if there are any. -/
def ReportsBounds (closing : Closing) : Prop :=
  let agg := aggregator cfg rocksdbMode chunks
  let result := (agg.close closing).queryTimeBounds
  (aggregatedBuckets cfg chunks ≠ [] →
    IsLeast {b | b ∈ aggregatedBuckets cfg chunks} agg.minTimeBucket ∧
    IsGreatest {b | b ∈ aggregatedBuckets cfg chunks} agg.maxTimeBucket ∧
    result = ⟨agg.minTimeBucket, agg.maxTimeBucket, true⟩) ∧
  (aggregatedBuckets cfg chunks = [] → result.valid = false)

/-- No successful chunk is without events, unless both ends of all time are buckets, and the
buckets are not all at one end. The lower end may be recorded. -/
structure Distinguishable (closing : Closing) : Prop where
  seen : (∀ chunk ∈ chunks, chunk.success → seenBuckets cfg chunk.tree.events ≠ []) ∨
    0 ∈ aggregatedBuckets cfg chunks ∧ UINT64_MAX ∈ aggregatedBuckets cfg chunks
  below : aggregatedBuckets cfg chunks ≠ [] → ∃ b ∈ aggregatedBuckets cfg chunks, b ≠ UINT64_MAX
  above : aggregatedBuckets cfg chunks ≠ [] →
    (∃ b ∈ aggregatedBuckets cfg chunks, b ≠ 0) ∨ rocksdbMode ∧ closing = .persist

end Reports

section Aggregator

variable {cfg : AggregationConfig} {rocksdbMode : Bool} {chunks : List FileChunk} {b : UInt64}
  {closing : Closing}

theorem mem_aggregatedBuckets : b ∈ aggregatedBuckets cfg chunks ↔
    ∃ chunk ∈ chunks, chunk.success ∧ b ∈ seenBuckets cfg chunk.tree.events := by
  simp only [aggregatedBuckets, mem_flatMap, mem_filter, and_assoc]

theorem mem_told : b ∈ told (chunks.map (FileChunk.output cfg)) ↔
    ∃ chunk ∈ chunks, chunk.success ∧ (b = (chunk.tree.run cfg).minTimeBucket ∨
      b = (chunk.tree.run cfg).maxTimeBucket) := by
  simp only [told, mem_flatMap, mem_filter, mem_map, mem_cons,
    not_mem_nil, or_false]
  constructor
  · rintro ⟨_, ⟨⟨chunk, listed, rfl⟩, success⟩, same⟩
    exact ⟨chunk, listed, success, same⟩
  · rintro ⟨chunk, listed, success, same⟩
    exact ⟨_, ⟨⟨chunk, listed, rfl⟩, success⟩, same⟩

theorem aggregator_bounds (cfg : AggregationConfig) (rocksdbMode : Bool)
    (chunks : List FileChunk) :
    Bounds (told (chunks.map (FileChunk.output cfg)))
      (aggregator cfg rocksdbMode chunks).minTimeBucket
      (aggregator cfg rocksdbMode chunks).maxTimeBucket :=
  (@EventAggregator.foldl_mergeChunk { rocksdbMode } _ _ Bounds.empty).1

theorem query_aggregator (closing : Closing) :
    ((aggregator cfg rocksdbMode chunks).close closing).queryTimeBounds =
      ⟨(aggregator cfg rocksdbMode chunks).minTimeBucket,
        (aggregator cfg rocksdbMode chunks).maxTimeBucket,
        decide ((aggregator cfg rocksdbMode chunks).minTimeBucket ≠ UINT64_MAX ∧
          (aggregator cfg rocksdbMode chunks).minTimeBucket
            ≤ (aggregator cfg rocksdbMode chunks).maxTimeBucket ∧
          ((aggregator cfg rocksdbMode chunks).maxTimeBucket ≠ 0 ∨
            rocksdbMode ∧ closing = .persist))⟩ := by
  obtain ⟨_, record, mode⟩ := @EventAggregator.foldl_mergeChunk { rocksdbMode }
    (chunks.map (FileChunk.output cfg)) _ Bounds.empty
  have reported := EventAggregator.queryTimeBounds_close record closing
  rw [mode] at reported
  exact reported

/-- Where every successful chunk has events, the bounds are those of all events. -/
theorem aggregator_bounds_of_seen
    (seen : ∀ chunk ∈ chunks, chunk.success → seenBuckets cfg chunk.tree.events ≠ []) :
    Bounds (aggregatedBuckets cfg chunks) (aggregator cfg rocksdbMode chunks).minTimeBucket
      (aggregator cfg rocksdbMode chunks).maxTimeBucket := by
  have bounds := aggregator_bounds cfg rocksdbMode chunks
  have within : ∀ b ∈ told (chunks.map (FileChunk.output cfg)),
      b ∈ aggregatedBuckets cfg chunks := by
    intro b isTold
    obtain ⟨chunk, listed, success, same⟩ := mem_told.mp isTold
    obtain ⟨low, high⟩ := (chunk.tree.bounds cfg).inhabited (seen chunk listed success)
    rcases same with rfl | rfl
    · exact mem_aggregatedBuckets.mpr ⟨chunk, listed, success, low.1⟩
    · exact mem_aggregatedBuckets.mpr ⟨chunk, listed, success, high.1⟩
  constructor
  · refine ⟨?_, fun b listed => ?_⟩
    · exact mem_cons.mpr ((mem_cons.mp bounds.low.1).imp_right (within _))
    · rcases mem_cons.mp listed with rfl | found
      · exact le_UINT64_MAX _
      · obtain ⟨chunk, listed, success, here⟩ := mem_aggregatedBuckets.mp found
        exact UInt64.le_trans
          (bounds.low.2 (mem_cons_of_mem _ (mem_told.mpr ⟨chunk, listed, success, .inl rfl⟩)))
          ((chunk.tree.bounds cfg).low.2 (mem_cons_of_mem _ here))
  · refine ⟨?_, fun b listed => ?_⟩
    · exact mem_cons.mpr ((mem_cons.mp bounds.high.1).imp_right (within _))
    · rcases mem_cons.mp listed with rfl | found
      · exact zero_le_bucket _
      · obtain ⟨chunk, listed, success, here⟩ := mem_aggregatedBuckets.mp found
        exact UInt64.le_trans ((chunk.tree.bounds cfg).high.2 (mem_cons_of_mem _ here))
          (bounds.high.2 (mem_cons_of_mem _ (mem_told.mpr ⟨chunk, listed, success, .inr rfl⟩)))

/-- A successful chunk without events widens the bounds to all time. -/
theorem aggregator_unseen {chunk : FileChunk} (listed : chunk ∈ chunks) (success : chunk.success)
    (unseen : seenBuckets cfg chunk.tree.events = []) :
    (aggregator cfg rocksdbMode chunks).minTimeBucket = 0 ∧
      (aggregator cfg rocksdbMode chunks).maxTimeBucket = UINT64_MAX := by
  have bounds := aggregator_bounds cfg rocksdbMode chunks
  have start := (chunk.tree.bounds cfg).unique Bounds.empty (fun b => by rw [unseen])
  constructor
  · apply UInt64.le_antisymm _ (zero_le_bucket _)
    exact bounds.low.2 (mem_cons_of_mem _
      (mem_told.mpr ⟨chunk, listed, success, .inr start.2.symm⟩))
  · apply UInt64.le_antisymm (le_UINT64_MAX _)
    exact bounds.high.2 (mem_cons_of_mem _
      (mem_told.mpr ⟨chunk, listed, success, .inl start.1.symm⟩))

/-- Where the bounds are reported, events can be told from none. -/
theorem ReportsBounds.distinguishable (reports : ReportsBounds cfg rocksdbMode chunks closing) :
    Distinguishable cfg rocksdbMode chunks closing := by
  rw [ReportsBounds, query_aggregator] at reports
  obtain ⟨reported, silent⟩ := reports
  constructor
  · by_contra neither
    push Not at neither
    obtain ⟨⟨chunk, listed, success, unseen⟩, ends⟩ := neither
    obtain ⟨low, high⟩ := @aggregator_unseen cfg rocksdbMode chunks _ listed success unseen
    rw [low, high] at reported silent
    by_cases some : aggregatedBuckets cfg chunks = []
    · have invalid := silent some
      revert invalid
      simp [UINT64_MAX]
    · obtain ⟨least, greatest, _⟩ := reported some
      exact ends least.1 greatest.1
  · intro some
    obtain ⟨least, _, valid⟩ := reported some
    have valid := of_decide_eq_true (congrArg TimeBoundsResult.valid valid)
    exact ⟨_, least.1, valid.1⟩
  · intro some
    obtain ⟨_, greatest, valid⟩ := reported some
    have valid := of_decide_eq_true (congrArg TimeBoundsResult.valid valid)
    exact valid.2.2.imp_left fun nonzero => ⟨_, greatest.1, nonzero⟩

/-- Where events can be told from none, the bounds are reported. -/
theorem Distinguishable.reportsBounds (care : Distinguishable cfg rocksdbMode chunks closing) :
    ReportsBounds cfg rocksdbMode chunks closing := by
  rw [ReportsBounds, query_aggregator]
  by_cases seen : ∀ chunk ∈ chunks, chunk.success → seenBuckets cfg chunk.tree.events ≠ []
  · have bounds := @aggregator_bounds_of_seen cfg rocksdbMode chunks seen
    constructor
    · intro some
      obtain ⟨least, greatest⟩ := bounds.inhabited some
      refine ⟨least, greatest, ?_⟩
      rw [decide_eq_true]
      refine ⟨?_, least.2 greatest.1, (care.above some).imp_left ?_⟩
      · intro top
        obtain ⟨b, listed, other⟩ := care.below some
        exact other (UInt64.le_antisymm (le_UINT64_MAX b) (top ▸ least.2 listed))
      · rintro ⟨b, listed, nonzero⟩ bottom
        exact nonzero (UInt64.le_antisymm (bottom ▸ greatest.2 listed) (zero_le_bucket b))
    · intro none
      rw [none] at bounds
      exact decide_eq_false fun all => all.1 (bounds.unique Bounds.empty fun _ => Iff.rfl).1
  · obtain ⟨bottom, top⟩ := care.seen.resolve_left seen
    push Not at seen
    obtain ⟨chunk, listed, success, unseen⟩ := seen
    obtain ⟨low, high⟩ := @aggregator_unseen cfg rocksdbMode chunks _ listed success unseen
    rw [low, high]
    constructor
    · intro _
      refine ⟨⟨bottom, fun b _ => zero_le_bucket b⟩, ⟨top, fun b _ => le_UINT64_MAX b⟩, ?_⟩
      rw [decide_eq_true]
      exact ⟨by decide, by decide, .inl (by decide)⟩
    · exact fun none => absurd (none ▸ bottom) not_mem_nil

end Aggregator

/-- The bounds of the aggregated events are reported if and only if every successful chunk has an
event, or both ends of all time are buckets, some bucket is not the upper end, and some bucket is
not zero unless the bounds were persisted. -/
theorem reportsBounds_iff (cfg : AggregationConfig) (rocksdbMode : Bool) (chunks : List FileChunk)
    (closing : Closing) :
    ReportsBounds cfg rocksdbMode chunks closing ↔
      Distinguishable cfg rocksdbMode chunks closing :=
  ⟨ReportsBounds.distinguishable, Distinguishable.reportsBounds⟩

/-- A file of metadata only. -/
def metadataOnly : FileChunk where
  success := true
  tree := .slice [{ phase := .METADATA }]

/-- Without an event there are valid bounds. -/
theorem metadataOnly_valid : ¬ ∀ (cfg : AggregationConfig) (rocksdbMode : Bool)
    (chunks : List FileChunk) (closing : Closing),
    ReportsBounds cfg rocksdbMode chunks closing := by
  intro reported
  have care := (reported {} false [metadataOnly] .asIs).distinguishable
  rcases care.seen with seen | ends
  · exact seen metadataOnly (mem_singleton_self _) rfl rfl
  · exact absurd ends.1 not_mem_nil

end DFTracer.Aggregation
