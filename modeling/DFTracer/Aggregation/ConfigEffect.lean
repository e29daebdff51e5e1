/-
# What the fold of events depends on

Two configurations that agree in what the fold reads store the same rows and gauges.
Accuracies are read only where percentiles are kept, and custom fields are tracked one by one,
each in an entry of its own, so that their order does not matter.
-/

import DFTracer.Aggregation.Components

namespace DFTracer.Aggregation

open List
open Math (Table)
open AggregationMetrics (trackCustomField isDefaultArg)

/-- A metric as it is stored: the accuracy of sketches to come is not. -/
structure StoredStats where
  stat : FieldStat
  sketch : Option DDSketch

def MetricStats.stored (m : MetricStats) : StoredStats := ⟨m.stat, m.sketch⟩

/-- The metrics of a key as they are stored, custom ones by name. -/
structure StoredMetrics where
  count : UInt64
  duration : StoredStats
  size : StoredStats
  offset : StoredStats
  ts : UInt64
  te : UInt64
  parentPid : UInt64
  customMetrics : Bytes → Option StoredStats
  distinctFiles : DistinctSketch

def AggregationMetrics.stored (m : AggregationMetrics) : StoredMetrics where
  count := m.count
  duration := m.duration.stored
  size := m.size.stored
  offset := m.offset.stored
  ts := m.ts
  te := m.te
  parentPid := m.parentPid
  customMetrics name := (m.customMetrics.lookup name).map MetricStats.stored
  distinctFiles := m.distinctFiles

/-- The gauges of a key as they are stored. -/
structure StoredGauges where
  count : UInt64
  ts : UInt64
  te : UInt64
  metrics : Bytes → Option StoredStats

def SystemAggregationMetrics.stored (m : SystemAggregationMetrics) : StoredGauges where
  count := m.count
  ts := m.ts
  te := m.te
  metrics name := (m.metrics.lookup name).map MetricStats.stored

/-! ## Configurations of the same effect -/

/-- The configurations agree in what the fold of events reads. -/
structure SameEffect (cfg cfg' : AggregationConfig) : Prop where
  timeIntervalUs : cfg.timeIntervalUs = cfg'.timeIntervalUs
  useRelativeTime : cfg.useRelativeTime = cfg'.useRelativeTime
  referenceTimestamp : cfg.useRelativeTime = true → cfg.referenceTimestamp = cfg'.referenceTimestamp
  groupByFile : cfg.groupByFile = cfg'.groupByFile
  extraGroupKeys : cfg.extraGroupKeys = cfg'.extraGroupKeys
  customMetricFields : cfg.customMetricFields.Perm cfg'.customMetricFields
  trackDefaultArgs : cfg.trackDefaultArgs = cfg'.trackDefaultArgs
  computePercentiles : cfg.computePercentiles = cfg'.computePercentiles
  sketchAccuracy : cfg.computePercentiles = true → cfg.sketchAccuracy = cfg'.sketchAccuracy

theorem SameEffect.refl (cfg : AggregationConfig) : SameEffect cfg cfg :=
  ⟨rfl, rfl, fun _ => rfl, rfl, rfl, .refl _, rfl, rfl, fun _ => rfl⟩

/-- The metrics are stored the same way, and go on so. -/
structure SameStats (percentiles : Bool) (m m' : MetricStats) : Prop where
  stat : m.stat = m'.stat
  sketch : m.sketch = m'.sketch
  sketchAccuracy : percentiles = true → m.sketchAccuracy = m'.sketchAccuracy

variable {percentiles : Bool} {accuracy accuracy' : Float}

namespace SameStats

variable {m m' m'' : MetricStats}

theorem refl (m : MetricStats) : SameStats percentiles m m := ⟨rfl, rfl, fun _ => rfl⟩

theorem trans (h : SameStats percentiles m m') (h' : SameStats percentiles m' m'') :
    SameStats percentiles m m'' where
  stat := h.stat.trans h'.stat
  sketch := h.sketch.trans h'.sketch
  sketchAccuracy kept := (h.sketchAccuracy kept).trans (h'.sketchAccuracy kept)

theorem stored (h : SameStats percentiles m m') : m.stored = m'.stored := by
  rw [MetricStats.stored, MetricStats.stored, h.stat, h.sketch]

/-- A metric that is not there yet is an empty one. -/
theorem getD {old old' : Option MetricStats} (h : Option.Rel (SameStats percentiles) old old')
    (same : percentiles = true → accuracy = accuracy') :
    SameStats percentiles (old.getD { sketchAccuracy := accuracy })
      (old'.getD { sketchAccuracy := accuracy' }) := by
  cases h with
  | some h => exact h
  | none => exact ⟨rfl, rfl, same⟩

section

variable (h : SameStats percentiles m m')

include h

theorem sketchValue (value : Float) :
    m.sketchValue value percentiles = m'.sketchValue value percentiles := by
  unfold MetricStats.sketchValue
  rw [h.sketch]
  by_cases kept : percentiles = true
  · rw [h.sketchAccuracy kept]
  · rw [if_neg kept, if_neg kept]

theorem update (value : UInt64) :
    SameStats percentiles (m.update value percentiles) (m'.update value percentiles) where
  stat := congrArg (·.addU64 value) h.stat
  sketch := h.sketchValue value.toFloat
  sketchAccuracy := h.sketchAccuracy

theorem updateDouble (value : Float) :
    SameStats percentiles (m.updateDouble value percentiles)
      (m'.updateDouble value percentiles) where
  stat := congrArg (·.addF64 value) h.stat
  sketch := h.sketchValue value
  sketchAccuracy := h.sketchAccuracy

end

theorem mergeStat (h : SameStats cfg.computePercentiles m m') {cfg' : AggregationConfig}
    (add : Option FieldStat) :
    SameStats cfg.computePercentiles (AggregationMetrics.mergeStat cfg add m)
      (AggregationMetrics.mergeStat cfg' add m') := by
  cases add with
  | none => exact h
  | some stat => exact ⟨congrArg (·.merge stat) h.stat, h.sketch, h.sketchAccuracy⟩

end SameStats

/-- The rows are stored the same way, and go on so. -/
structure SameRow (percentiles : Bool) (m m' : AggregationMetrics) : Prop where
  count : m.count = m'.count
  duration : SameStats percentiles m.duration m'.duration
  size : SameStats percentiles m.size m'.size
  offset : SameStats percentiles m.offset m'.offset
  ts : m.ts = m'.ts
  te : m.te = m'.te
  parentPid : m.parentPid = m'.parentPid
  customMetrics : m.customMetrics.Alike (SameStats percentiles) m'.customMetrics
  distinctFiles : m.distinctFiles = m'.distinctFiles
  sketchAccuracy : percentiles = true → m.sketchAccuracy = m'.sketchAccuracy

namespace SameRow

variable {m m' m'' : AggregationMetrics}

theorem refl (m : AggregationMetrics) : SameRow percentiles m m :=
  ⟨rfl, .refl _, .refl _, .refl _, rfl, rfl, rfl, .refl .refl _, rfl, fun _ => rfl⟩

theorem trans (h : SameRow percentiles m m') (h' : SameRow percentiles m' m'') :
    SameRow percentiles m m'' where
  count := h.count.trans h'.count
  duration := h.duration.trans h'.duration
  size := h.size.trans h'.size
  offset := h.offset.trans h'.offset
  ts := h.ts.trans h'.ts
  te := h.te.trans h'.te
  parentPid := h.parentPid.trans h'.parentPid
  customMetrics := h.customMetrics.trans (fun a b => a.trans b) h'.customMetrics
  distinctFiles := h.distinctFiles.trans h'.distinctFiles
  sketchAccuracy kept := (h.sketchAccuracy kept).trans (h'.sketchAccuracy kept)

theorem stored (h : SameRow percentiles m m') : m.stored = m'.stored := by
  unfold AggregationMetrics.stored
  rw [h.count, h.duration.stored, h.size.stored, h.offset.stored, h.ts, h.te, h.parentPid,
    h.distinctFiles]
  congr 1
  funext name
  exact h.customMetrics.map_eq (fun _ _ => SameStats.stored) name

/-- A row that is not there yet is an empty one. -/
theorem getD {old old' : Option AggregationMetrics}
    (h : Option.Rel (SameRow percentiles) old old')
    (same : percentiles = true → accuracy = accuracy') :
    SameRow percentiles (old.getD (.new accuracy)) (old'.getD (.new accuracy')) := by
  cases h with
  | some h => exact h
  | none =>
    have stats : SameStats percentiles { sketchAccuracy := accuracy }
        { sketchAccuracy := accuracy' } := ⟨rfl, rfl, same⟩
    exact ⟨rfl, stats, stats, stats, rfl, rfl, rfl, .refl .refl _, rfl, same⟩

section

variable (h : SameRow percentiles m m')

include h

theorem updateTimestamp (ts dur : UInt64) :
    SameRow percentiles (m.updateTimestamp ts dur) (m'.updateTimestamp ts dur) :=
  { h with
    ts := by simp only [AggregationMetrics.updateTimestamp, h.ts]
    te := by simp only [AggregationMetrics.updateTimestamp, h.te] }

theorem withCustom (name : Bytes)
    (same : percentiles = true → accuracy = accuracy') {f f' : MetricStats → MetricStats}
    (step : ∀ s s', SameStats percentiles s s' → SameStats percentiles (f s) (f' s')) :
    SameRow percentiles (m.withCustom name accuracy f) (m'.withCustom name accuracy' f') :=
  { h with
    customMetrics := h.customMetrics.alter name fun _ _ old => step _ _ (.getD old same) }

theorem updateCustomMetric (name : Bytes) (value : UInt64) :
    SameRow percentiles (m.updateCustomMetric name value percentiles)
      (m'.updateCustomMetric name value percentiles) :=
  h.withCustom name h.sketchAccuracy fun _ _ same => same.update value

end

/-! ### An event -/

variable {cfg cfg' : AggregationConfig} (same : SameEffect cfg cfg') (ev : FoldEvent)
  (h : SameRow cfg.computePercentiles m m')

include same h

theorem file : SameRow cfg.computePercentiles (m.trackFile cfg ev) (m'.trackFile cfg' ev) := by
  unfold AggregationMetrics.trackFile
  rw [← same.groupByFile]
  dsimp only
  split_ifs
  · exact { h with distinctFiles := by rw [h.distinctFiles] }
  · exact h

theorem counter :
    SameRow cfg.computePercentiles (m.trackCounter cfg ev) (m'.trackCounter cfg' ev) := by
  unfold AggregationMetrics.trackCounter
  rw [← same.timeIntervalUs]
  apply updateTimestamp
  exact { h with
    count := congrArg (· + ev.evCount) h.count
    duration := h.duration.mergeStat _
    size := h.size.mergeStat _
    offset := h.offset.mergeStat _ }

theorem regular :
    SameRow cfg.computePercentiles (m.trackRegular cfg ev) (m'.trackRegular cfg' ev) := by
  have counted : SameRow cfg.computePercentiles
      ((m.updateDuration ev.dur cfg.computePercentiles).updateTimestamp ev.ts ev.dur)
      ((m'.updateDuration ev.dur cfg.computePercentiles).updateTimestamp ev.ts ev.dur) := by
    apply updateTimestamp
    exact { h with count := congrArg (· + 1) h.count, duration := h.duration.update ev.dur }
  unfold AggregationMetrics.trackRegular
  rw [← same.computePercentiles]
  split_ifs
  · exact { counted with size := counted.size.update _, offset := counted.offset.update _ }
  · exact { counted with size := counted.size.update _ }
  · exact { counted with offset := counted.offset.update _ }
  · exact counted

theorem defaultArgs :
    SameRow cfg.computePercentiles (m.trackDefaultArgs cfg ev) (m'.trackDefaultArgs cfg' ev) := by
  have default (k : Bytes) : isDefaultArg cfg ev k
      = isDefaultArg cfg' ev k := by
    have listed : cfg.customMetricFields.contains k = cfg'.customMetricFields.contains k := by
      rw [Bool.eq_iff_iff, contains_iff_mem, contains_iff_mem, same.customMetricFields.mem_iff]
    unfold isDefaultArg
    rw [same.extraGroupKeys, listed]
  unfold AggregationMetrics.trackDefaultArgs
  simp only [default, ← same.trackDefaultArgs, ← same.computePercentiles]
  split_ifs
  · generalize ev.numericArgs = args
    induction args generalizing m m' with
    | nil => exact h
    | cons arg args ih =>
      rw [foldl_cons, foldl_cons]
      apply ih
      split_ifs
      · exact h.updateCustomMetric _ _
      · exact h
  · exact h

theorem customField (field : Bytes) :
    SameRow cfg.computePercentiles (trackCustomField cfg ev m field)
      (trackCustomField cfg' ev m' field) := by
  unfold trackCustomField
  rw [← same.computePercentiles]
  split_ifs
  · cases ev.customNumber field (text "_sum") with
    | none => exact h
    | some sum =>
      refine h.withCustom field same.sketchAccuracy fun s s' stats => ?_
      exact { stats with stat := by simp only [stats.stat] }
  · exact h.updateCustomMetric _ _
  · exact h

omit same h

/-- A configured field is left alone or changes its own custom metric. -/
theorem trackCustomField_eq (cfg : AggregationConfig) (ev : FoldEvent) (field : Bytes) :
    (∀ m, trackCustomField cfg ev m field = m)
      ∨ (∃ f, ∀ m, trackCustomField cfg ev m field
          = m.withCustom field cfg.sketchAccuracy f)
      ∨ ∃ f, ∀ m, trackCustomField cfg ev m field
          = m.withCustom field m.sketchAccuracy f := by
  unfold trackCustomField
  split_ifs
  · cases ev.customNumber field (text "_sum") with
    | none => exact .inl fun _ => rfl
    | some sum => exact .inr (.inl ⟨_, fun _ => rfl⟩)
  · exact .inr (.inr ⟨_, fun _ => rfl⟩)
  · exact .inl fun _ => rfl

theorem withCustom_comm {a b : Bytes} (ne : a ≠ b) (m : AggregationMetrics)
    (f g : MetricStats → MetricStats) :
    SameRow percentiles ((m.withCustom a accuracy f).withCustom b accuracy' g)
      ((m.withCustom b accuracy' g).withCustom a accuracy f) :=
  { refl m with
    customMetrics := by
      intro name
      have lookups :
          ((m.withCustom a accuracy f).withCustom b accuracy' g).customMetrics.lookup name
            = ((m.withCustom b accuracy' g).withCustom a accuracy f).customMetrics.lookup name := by
        simp only [AggregationMetrics.withCustom, Table.lookup_alter]
        by_cases ha : name = a
        · subst ha
          simp [ne]
        · simp [ha, ne.symm]
      rw [lookups]
      exact Table.Alike.refl SameStats.refl _ name }

theorem trackCustomField_comm (cfg : AggregationConfig) (ev : FoldEvent) (m : AggregationMetrics)
    (a b : Bytes) :
    SameRow percentiles
      (trackCustomField cfg ev (trackCustomField cfg ev m a) b)
      (trackCustomField cfg ev (trackCustomField cfg ev m b) a) := by
  by_cases ne : a = b
  · rw [ne]
    exact refl _
  · rcases trackCustomField_eq cfg ev a with ha | ⟨f, ha⟩ | ⟨f, ha⟩
    · rw [ha, ha]
      exact refl _
    all_goals
      rcases trackCustomField_eq cfg ev b with hb | ⟨g, hb⟩ | ⟨g, hb⟩
      · rw [hb, hb]
        exact refl _
      all_goals
        rw [ha, hb, hb, ha]
        exact withCustom_comm ne m f g

theorem trackCustomFields_perm {fields fields' : List Bytes} (perm : fields.Perm fields')
    (h : SameRow cfg.computePercentiles m m') :
    SameRow cfg.computePercentiles (fields.foldl (trackCustomField cfg ev) m)
      (fields'.foldl (trackCustomField cfg ev) m') := by
  induction perm generalizing m m' with
  | nil => exact h
  | cons field _ ih => exact ih (h.customField (.refl cfg) ev field)
  | swap a b fields =>
    have swapped := (trackCustomField_comm cfg ev m b a).trans
      ((h.customField (.refl cfg) ev a).customField (.refl cfg) ev b)
    rw [foldl_cons, foldl_cons, foldl_cons, foldl_cons]
    generalize trackCustomField cfg ev _ a = x at swapped ⊢
    generalize trackCustomField cfg ev _ b = y at swapped ⊢
    induction fields generalizing x y with
    | nil => exact swapped
    | cons field fields ih => exact ih _ _ (swapped.customField (.refl cfg) ev field)
  | trans _ _ ih ih' => exact (ih (.refl m)).trans (ih' h)

include same h

theorem applyEvent :
    SameRow cfg.computePercentiles (m.applyEvent cfg ev) (m'.applyEvent cfg' ev) := by
  have fields (fields : List Bytes) (x x' : AggregationMetrics)
      (start : SameRow cfg.computePercentiles x x') :
      SameRow cfg.computePercentiles (fields.foldl (trackCustomField cfg ev) x)
        (fields.foldl (trackCustomField cfg' ev) x') := by
    induction fields generalizing x x' with
    | nil => exact start
    | cons field fields ih => exact ih _ _ (start.customField same ev field)
  refine (trackCustomFields_perm ev same.customMetricFields (.refl _)).trans (fields _ _ _ ?_)
  apply defaultArgs same ev
  split_ifs
  · exact (h.file same ev).counter same ev
  · exact (h.file same ev).regular same ev

end SameRow

/-- The gauges are stored the same way, and go on so. -/
structure SameGauges (percentiles : Bool) (m m' : SystemAggregationMetrics) : Prop where
  count : m.count = m'.count
  ts : m.ts = m'.ts
  te : m.te = m'.te
  metrics : m.metrics.Alike (SameStats percentiles) m'.metrics
  sketchAccuracy : percentiles = true → m.sketchAccuracy = m'.sketchAccuracy

namespace SameGauges

variable {m m' : SystemAggregationMetrics}

theorem stored (h : SameGauges percentiles m m') : m.stored = m'.stored := by
  unfold SystemAggregationMetrics.stored
  rw [h.count, h.ts, h.te]
  congr 1
  funext name
  exact h.metrics.map_eq (fun _ _ => SameStats.stored) name

theorem getD {old old' : Option SystemAggregationMetrics}
    (h : Option.Rel (SameGauges percentiles) old old')
    (same : percentiles = true → accuracy = accuracy') :
    SameGauges percentiles (old.getD { sketchAccuracy := accuracy })
      (old'.getD { sketchAccuracy := accuracy' }) := by
  cases h with
  | some h => exact h
  | none => exact ⟨rfl, rfl, rfl, .refl .refl _, same⟩

/-- The arguments of a gauge are added one after the other. -/
theorem updateMetrics (h : SameGauges percentiles m m') (args : List (Bytes × UInt64 × Float)) :
    SameGauges percentiles
      (args.foldl (fun entry arg => entry.updateMetric arg.1 arg.2.2 percentiles) m)
      (args.foldl (fun entry arg => entry.updateMetric arg.1 arg.2.2 percentiles) m') := by
  induction args generalizing m m' with
  | nil => exact h
  | cons arg args ih =>
    refine ih { h with metrics := h.metrics.alter arg.1 fun _ _ old => ?_ }
    exact (SameStats.getD old h.sketchAccuracy).updateDouble arg.2.2

end SameGauges

/-- The rows and the gauges are stored the same way. -/
structure SameState (percentiles : Bool) (st st' : AggState) : Prop where
  localBuffer : st.localBuffer.Alike (SameRow percentiles) st'.localBuffer
  systemBuffer : st.systemBuffer.Alike (SameGauges percentiles) st'.systemBuffer

section SameState

variable {cfg cfg' : AggregationConfig} (same : SameEffect cfg cfg')

include same

theorem SameEffect.computeTimeBucket (ts dur : UInt64) :
    computeTimeBucket ts dur cfg = computeTimeBucket ts dur cfg' := by
  unfold Aggregation.computeTimeBucket
  rw [← same.useRelativeTime, ← same.timeIntervalUs]
  by_cases relative : cfg.useRelativeTime = true
  · rw [same.referenceTimestamp relative]
  · simp only [relative, Bool.false_eq_true, if_false]

theorem SameEffect.keyOf (ev : FoldEvent) : keyOf cfg ev = keyOf cfg' ev := by
  simp only [Aggregation.keyOf, timeBucketOf, extraKeysOf, same.computeTimeBucket, same.groupByFile,
    same.extraGroupKeys]

theorem SameState.aggregateEvent {st st' : AggState} (h : SameState cfg.computePercentiles st st')
    (ev : FoldEvent) :
    SameState cfg.computePercentiles (aggregateEvent cfg st ev) (aggregateEvent cfg' st' ev) := by
  unfold Aggregation.aggregateEvent
  split_ifs
  · exact h
  · refine ⟨h.localBuffer, ?_⟩
    unfold aggregateSystemEvent
    rw [← same.computeTimeBucket, ← same.computePercentiles]
    refine h.systemBuffer.alter _ fun _ _ old => ?_
    have start := SameGauges.getD old same.sketchAccuracy
    apply SameGauges.updateMetrics
    refine ⟨congrArg (· + 1) start.count, ?_, ?_, start.metrics, start.sketchAccuracy⟩
    · simp only [SystemAggregationMetrics.updateTimestamp, start.ts]
    · simp only [SystemAggregationMetrics.updateTimestamp, start.te]
  · refine ⟨?_, h.systemBuffer⟩
    rw [← same.keyOf]
    exact h.localBuffer.alter _ fun _ _ old =>
      (SameRow.getD old same.sketchAccuracy).applyEvent same ev

/-- Configurations that agree in what the fold reads have the same outcome. -/
theorem SameState.foldSlice (events : List FoldEvent) :
    SameState cfg.computePercentiles (foldSlice cfg events) (foldSlice cfg' events) := by
  have step (st st' : AggState) (h : SameState cfg.computePercentiles st st') :
      SameState cfg.computePercentiles (events.foldl (Aggregation.aggregateEvent cfg) st)
        (events.foldl (Aggregation.aggregateEvent cfg') st') := by
    induction events generalizing st st' with
    | nil => exact h
    | cons ev events ih => exact ih _ _ (h.aggregateEvent same ev)
  exact step {} {} ⟨fun _ => .none, fun _ => .none⟩

end SameState

end DFTracer.Aggregation
