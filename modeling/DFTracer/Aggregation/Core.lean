/-
# The aggregation fold

An event is folded into the metrics of its key. Counter events arrive aggregated:
they carry a count, and sums with extremes of their own, each with a fallback. Slices
of a trace are folded on their own and merged afterwards.
-/

import DFTracer.Aggregation.Metrics

namespace DFTracer.Aggregation

open Math (Table)

namespace FoldEvent

/-- The number of events a counter event stands for. -/
def evCount (ev : FoldEvent) : UInt64 :=
  if ev.argExists (text "dftu_cnt") then ev.argUint (text "dftu_cnt")
  else if ev.argExists (text "count") then ev.argUint (text "count")
  else 1

/-- A pre-aggregated metric: its sum, or the plain argument, and extremes that fall
back on that. -/
def preaggregated (ev : FoldEvent) (field : Bytes) : Option FieldStat :=
  let hasSum := ev.argExists (field ++ text "_sum")
  let sum := if hasSum then ev.argUint (field ++ text "_sum") else ev.argUint field
  if hasSum || ev.argExists field then
    some {
      n := ev.evCount
      sum := sum.toFloat
      min := (if ev.argExists (field ++ text "_min") then ev.argUint (field ++ text "_min")
        else sum).toFloat
      max := (if ev.argExists (field ++ text "_max") then ev.argUint (field ++ text "_max")
        else sum).toFloat }
  else none

def preaggregatedDur (ev : FoldEvent) : Option FieldStat := ev.preaggregated (text "dur")

def preaggregatedRet (ev : FoldEvent) : Option FieldStat := ev.preaggregated (text "ret")

/-- The offset is kept when any of its arguments is there. Its extremes fall back on the
plain argument first. -/
def preaggregatedOffset (ev : FoldEvent) : Option FieldStat :=
  let offSum := ev.argExists (text "offset_sum")
  let offPlain := ev.argExists (text "offset")
  let offMin := ev.argExists (text "offset_min")
  let offMax := ev.argExists (text "offset_max")
  let sum :=
    if offSum then ev.argUint (text "offset_sum")
    else if offPlain then ev.argUint (text "offset")
    else 0
  if offSum || offPlain || offMin || offMax then
    some {
      n := ev.evCount
      sum := sum.toFloat
      min := (if offMin then ev.argUint (text "offset_min")
        else if offPlain then ev.argUint (text "offset")
        else sum.toFloat.toUInt64).toFloat
      max := (if offMax then ev.argUint (text "offset_max")
        else if offPlain then ev.argUint (text "offset")
        else sum.toFloat.toUInt64).toFloat }
  else none

/-- The argument that carries one of a custom metric's numbers: the one with the suffix,
or the plain one. -/
def suffixed (ev : FoldEvent) (field suffix : Bytes) : Bytes :=
  if ev.argExists (field ++ suffix) then field ++ suffix else field

/-- A number of a custom metric, when it is there. -/
def customNumber (ev : FoldEvent) (field suffix : Bytes) : Option UInt64 :=
  let k := ev.suffixed field suffix
  if ev.argExists k && ev.argIsNumber k then some (ev.argUint k) else none

end FoldEvent

/-- What a counter event adds to a custom metric: an extreme that the event does not
carry is the one reached so far, or the event's sum when there is none. -/
def preaggregatedCustom (ev : FoldEvent) (field : Bytes) (sum : UInt64) (stat : FieldStat) :
    FieldStat where
  n := ev.evCount
  sum := sum.toFloat
  min := match ev.customNumber field (text "_min") with
    | some low => low.toFloat
    | none => if stat.n ≠ 0 then stat.min else sum.toFloat
  max := match ev.customNumber field (text "_max") with
    | some high => high.toFloat
    | none => if stat.n ≠ 0 then stat.max else sum.toFloat

namespace AggregationMetrics

/-- Without the file in the key its hash goes into the sketch. -/
def trackFile (cfg : AggregationConfig) (ev : FoldEvent) (entry : AggregationMetrics) :
    AggregationMetrics :=
  let fhash := ev.argString (text "fhash")
  if !cfg.groupByFile && fhash ≠ [] then
    { entry with distinctFiles := entry.distinctFiles.addHash (aggHashOfHex fhash) }
  else entry

/-- Merge a pre-aggregated statistic into a metric. -/
def mergeStat (cfg : AggregationConfig) (add : Option FieldStat) (m : MetricStats) : MetricStats :=
  match add with
  | some stat => m.mergeFrom { stat, sketchAccuracy := cfg.sketchAccuracy }
  | none => m

/-- Count an event that arrives aggregated. -/
def trackCounter (cfg : AggregationConfig) (ev : FoldEvent) (entry : AggregationMetrics) :
    AggregationMetrics :=
  updateTimestamp
    { entry with
      count := entry.count + ev.evCount
      duration := mergeStat cfg ev.preaggregatedDur entry.duration
      size := mergeStat cfg ev.preaggregatedRet entry.size
      offset := mergeStat cfg ev.preaggregatedOffset entry.offset }
    ev.ts cfg.timeIntervalUs

/-- Count a single event. -/
def trackRegular (cfg : AggregationConfig) (ev : FoldEvent) (entry : AggregationMetrics) :
    AggregationMetrics :=
  let entry := (entry.updateDuration ev.dur cfg.computePercentiles).updateTimestamp ev.ts ev.dur
  let entry :=
    if ev.argExists (text "ret") && isDataTransferOp ev.cat ev.name then
      entry.updateSize (ev.argUint (text "ret")) cfg.computePercentiles
    else entry
  if ev.argExists (text "offset") then
    entry.updateOffset (ev.argUint (text "offset")) cfg.computePercentiles
  else entry

/-- The argument is tracked without being configured. -/
def isDefaultArg (cfg : AggregationConfig) (ev : FoldEvent) (k : Bytes) : Bool :=
  !isReservedArg k && !(ev.isCounter && isPreaggSuffix k) && !cfg.extraGroupKeys.contains k
    && !cfg.customMetricFields.contains k

/-- Track every other numeric argument as a custom metric. -/
def trackDefaultArgs (cfg : AggregationConfig) (ev : FoldEvent) (entry : AggregationMetrics) :
    AggregationMetrics :=
  if cfg.trackDefaultArgs then
    ev.numericArgs.foldl
      (fun entry arg =>
        if isDefaultArg cfg ev arg.1 then
          entry.updateCustomMetric arg.1 arg.2.1 cfg.computePercentiles
        else entry)
      entry
  else entry

/-- Track a configured field as a custom metric. -/
def trackCustomField (cfg : AggregationConfig) (ev : FoldEvent) (entry : AggregationMetrics)
    (field : Bytes) : AggregationMetrics :=
  if ev.isCounter then
    match ev.customNumber field (text "_sum") with
    | some sum =>
      entry.withCustom field cfg.sketchAccuracy fun stats =>
        { stats with stat := stats.stat.merge (preaggregatedCustom ev field sum stats.stat) }
    | none => entry
  else if ev.argExists field && ev.argIsNumber field then
    entry.updateCustomMetric field (ev.argUint field) cfg.computePercentiles
  else entry

/-- Fold an event into the metrics of its key. -/
def applyEvent (cfg : AggregationConfig) (ev : FoldEvent) (entry : AggregationMetrics) :
    AggregationMetrics :=
  let entry := trackFile cfg ev entry
  let entry := if ev.isCounter then trackCounter cfg ev entry else trackRegular cfg ev entry
  let entry := trackDefaultArgs cfg ev entry
  cfg.customMetricFields.foldl (trackCustomField cfg ev) entry

end AggregationMetrics

/-! ## The state of the fold -/

/-- The key of a gauge: host, name and bucket. -/
structure SystemKey where
  hhash : Bytes
  name : Bytes
  timeBucket : UInt64
  deriving DecidableEq

/-- The accumulated rows, and what was seen on the way. -/
structure AggState where
  localBuffer : Table AggregationKey AggregationMetrics := Table.empty
  systemBuffer : Table SystemKey SystemAggregationMetrics := Table.empty
  observedExtraKeys : List Bytes := []
  observedCustomMetrics : List Bytes := []
  observedSystemMetrics : List Bytes := []
  minTimeBucket : UInt64 := 0xFFFFFFFFFFFFFFFF
  maxTimeBucket : UInt64 := 0
  eventsProcessed : Nat := 0

namespace AggState

/-- Widen the range of buckets. -/
def sawBucket (st : AggState) (timeBucket : UInt64) : AggState :=
  { st with
    minTimeBucket := if timeBucket < st.minTimeBucket then timeBucket else st.minTimeBucket
    maxTimeBucket := if timeBucket > st.maxTimeBucket then timeBucket else st.maxTimeBucket }

end AggState

/-- The arguments of a gauge that are metrics. -/
def systemArgs (ev : FoldEvent) : List (Bytes × UInt64 × Float) :=
  ev.numericArgs.filter fun arg => arg.1 ≠ text "hhash" && arg.1 ≠ text "fhash"

/-- A system event that is not aggregated is a set of gauges. -/
def aggregateSystemEvent (cfg : AggregationConfig) (st : AggState) (ev : FoldEvent) : AggState :=
  let timeBucket := computeTimeBucket ev.ts ev.dur cfg
  let st := st.sawBucket timeBucket
  let key : SystemKey := { hhash := ev.argString (text "hhash"), name := ev.name, timeBucket }
  let update := fun (entry : SystemAggregationMetrics) =>
    (systemArgs ev).foldl
      (fun entry arg => entry.updateMetric arg.1 arg.2.2 cfg.computePercentiles)
      ({ entry with count := entry.count + 1 }.updateTimestamp ev.ts)
  { st with
    systemBuffer := st.systemBuffer.alter key fun old =>
      update (old.getD { sketchAccuracy := cfg.sketchAccuracy })
    observedSystemMetrics :=
      ((systemArgs ev).map Prod.fst).foldl (fun seen k => seen.insert k) st.observedSystemMetrics
    eventsProcessed := st.eventsProcessed + 1 }

/-- A system event that arrives aggregated. -/
def isPreaggregatedSystem (ev : FoldEvent) : Bool :=
  ev.isSystem && (ev.argIsNumber (text "count") || ev.argIsNumber (text "dftu_cnt"))

def mapTypeOf (ev : FoldEvent) : AggMapType :=
  if isPreaggregatedSystem ev then .SYSTEM else if ev.isProfile then .PROFILE else .EVENT

/-- The bucket of an event. A profile event belongs to the interval that it closes. -/
def timeBucketOf (cfg : AggregationConfig) (ev : FoldEvent) : UInt64 :=
  let bucketTs := if mapTypeOf ev = .PROFILE ∧ ev.ts > 0 then ev.ts - 1 else ev.ts
  computeTimeBucket bucketTs ev.dur cfg

/-- The extra keys that an event has. -/
def extraKeysOf (cfg : AggregationConfig) (ev : FoldEvent) : List (Bytes × Bytes) :=
  (cfg.extraGroupKeys.map fun k => (k, ev.argString k)).filter fun e => e.2 ≠ []

/-- The key of an event's row. -/
def keyOf (cfg : AggregationConfig) (ev : FoldEvent) : AggregationKey :=
  let fhash := if cfg.groupByFile then ev.argString (text "fhash") else []
  { mapType := mapTypeOf ev
    cat := toLowerAscii ev.cat
    name := ev.name
    pid := ev.pid
    tid := ev.tid
    hhash := ev.argString (text "hhash")
    fhash := match parseHex64 fhash with
      | some v => .inl v
      | none => .inr fhash
    timeBucket := timeBucketOf cfg ev
    extraKeys := extraKeysOf cfg ev }

/-- The names of the custom metrics that an event adds to. -/
def customNames (cfg : AggregationConfig) (ev : FoldEvent) : List Bytes :=
  (if cfg.trackDefaultArgs then
      (ev.numericArgs.map Prod.fst).filter (AggregationMetrics.isDefaultArg cfg ev)
    else [])
    ++ cfg.customMetricFields.filter fun field =>
      if ev.isCounter then (ev.customNumber field (text "_sum")).isSome
      else ev.argExists field && ev.argIsNumber field

/-- Fold one event. -/
def aggregateEvent (cfg : AggregationConfig) (st : AggState) (ev : FoldEvent) : AggState :=
  if ev.isMetadata then st
  else if ev.isSystem && !isPreaggregatedSystem ev then aggregateSystemEvent cfg st ev
  else
    let st := st.sawBucket (timeBucketOf cfg ev)
    { st with
      localBuffer := st.localBuffer.alter (keyOf cfg ev) fun old =>
        (old.getD (.new cfg.sketchAccuracy)).applyEvent cfg ev
      observedExtraKeys :=
        ((extraKeysOf cfg ev).map Prod.fst).foldl (fun seen k => seen.insert k)
          st.observedExtraKeys
      observedCustomMetrics :=
        (customNames cfg ev).foldl (fun seen k => seen.insert k) st.observedCustomMetrics
      eventsProcessed := st.eventsProcessed + 1 }

/-- Fold a slice of a trace. -/
def foldSlice (cfg : AggregationConfig) (events : List FoldEvent) : AggState :=
  events.foldl (aggregateEvent cfg) {}

namespace AggregationFold

/-- Merge the state of another slice. -/
def merge (st os : AggState) : AggState where
  localBuffer := st.localBuffer.merge
    (fun old m => old.elim m fun mine => mine.mergeFrom m) os.localBuffer
  systemBuffer := st.systemBuffer.merge
    (fun old m => old.elim m fun mine => mine.mergeFrom m) os.systemBuffer
  observedExtraKeys := os.observedExtraKeys.foldl (fun seen k => seen.insert k) st.observedExtraKeys
  observedCustomMetrics :=
    os.observedCustomMetrics.foldl (fun seen k => seen.insert k) st.observedCustomMetrics
  observedSystemMetrics :=
    os.observedSystemMetrics.foldl (fun seen k => seen.insert k) st.observedSystemMetrics
  minTimeBucket := min st.minTimeBucket os.minTimeBucket
  maxTimeBucket := max st.maxTimeBucket os.maxTimeBucket
  eventsProcessed := st.eventsProcessed + os.eventsProcessed

end AggregationFold

end DFTracer.Aggregation
