/-
# Aggregation metrics

What the tier keeps for one key: the number of events, the statistics of duration,
size and offset, the span of time, custom metrics by name in the order in which they
came, and a sketch of the distinct files.
-/

import DFTracer.Aggregation.Sketches
import DFTracer.Math.Table

namespace DFTracer.Aggregation

open Math (Table)

/-- The relative accuracy of a default-made sketch. -/
def defaultAccuracy : Float := 0.01

/-- One metric: a statistic and an optional sketch. -/
structure MetricStats where
  stat : FieldStat := {}
  sketch : Option DDSketch := none
  sketchAccuracy : Float := defaultAccuracy

namespace MetricStats

/-- The metric stayed integral, and its exact values are the ones to read. -/
def exactU64 (m : MetricStats) : Bool := decide (m.stat.domain ≠ .F64)

def mean (m : MetricStats) : Float := if m.stat.n = 0 then 0 else m.stat.sum / m.stat.n.toFloat

/-- The sketch with one more value, made on the first. -/
def sketchValue (m : MetricStats) (value : Float) (computePercentiles : Bool) : Option DDSketch :=
  if computePercentiles then some ((m.sketch.getD (.new m.sketchAccuracy)).add value) else m.sketch

/-- Add an unsigned value. -/
def update (m : MetricStats) (value : UInt64) (computePercentiles : Bool) : MetricStats :=
  { m with stat := m.stat.addU64 value, sketch := m.sketchValue value.toFloat computePercentiles }

/-- Add a fractional value. -/
def updateDouble (m : MetricStats) (value : Float) (computePercentiles : Bool) : MetricStats :=
  { m with stat := m.stat.addF64 value, sketch := m.sketchValue value computePercentiles }

/-- Merge another metric. -/
def mergeFrom (m other : MetricStats) : MetricStats :=
  { m with
    stat := m.stat.merge other.stat
    sketch := other.sketch.elim m.sketch fun s =>
      some ((m.sketch.getD (.new m.sketchAccuracy)).merge s) }

end MetricStats

/-- Custom metrics by name. -/
abbrev CustomMetricsMap := Table Bytes MetricStats

/-- The metrics of one key. -/
structure AggregationMetrics where
  count : UInt64 := 0
  duration : MetricStats := {}
  size : MetricStats := {}
  offset : MetricStats := {}
  ts : UInt64 := 0xFFFFFFFFFFFFFFFF
  te : UInt64 := 0
  parentPid : UInt64 := 0
  customMetrics : CustomMetricsMap := Table.empty
  distinctFiles : DistinctSketch := {}
  sketchAccuracy : Float := defaultAccuracy

namespace AggregationMetrics

/-- Empty metrics whose sketches have an accuracy. -/
def new (accuracy : Float) : AggregationMetrics where
  duration := { sketchAccuracy := accuracy }
  size := { sketchAccuracy := accuracy }
  offset := { sketchAccuracy := accuracy }
  sketchAccuracy := accuracy

/-- The custom metric of a name, made when it is not there, and then changed. -/
def withCustom (m : AggregationMetrics) (name : Bytes) (accuracy : Float)
    (f : MetricStats → MetricStats) : AggregationMetrics :=
  { m with
    customMetrics := m.customMetrics.alter name fun old =>
      f (old.getD { sketchAccuracy := accuracy }) }

def updateDuration (m : AggregationMetrics) (dur : UInt64) (computePercentiles : Bool) :
    AggregationMetrics :=
  { m with count := m.count + 1, duration := m.duration.update dur computePercentiles }

def updateSize (m : AggregationMetrics) (sz : UInt64) (computePercentiles : Bool) :
    AggregationMetrics :=
  { m with size := m.size.update sz computePercentiles }

def updateOffset (m : AggregationMetrics) (off : UInt64) (computePercentiles : Bool) :
    AggregationMetrics :=
  { m with offset := m.offset.update off computePercentiles }

/-- Widen the span of time by an event. -/
def updateTimestamp (m : AggregationMetrics) (eventTs dur : UInt64) : AggregationMetrics :=
  { m with
    ts := if eventTs < m.ts then eventTs else m.ts
    te := if m.te < eventTs + dur then eventTs + dur else m.te }

def updateCustomMetric (m : AggregationMetrics) (name : Bytes) (value : UInt64)
    (computePercentiles : Bool) : AggregationMetrics :=
  m.withCustom name m.sketchAccuracy fun stats => stats.update value computePercentiles

/-- Merge the metrics of the same key. -/
def mergeFrom (m other : AggregationMetrics) : AggregationMetrics :=
  { m with
    count := m.count + other.count
    duration := m.duration.mergeFrom other.duration
    size := m.size.mergeFrom other.size
    offset := m.offset.mergeFrom other.offset
    ts := if other.ts < m.ts then other.ts else m.ts
    te := if m.te < other.te then other.te else m.te
    distinctFiles := m.distinctFiles.mergeFrom other.distinctFiles
    customMetrics := m.customMetrics.merge
      (fun old v => (old.getD { sketchAccuracy := m.sketchAccuracy }).mergeFrom v)
      other.customMetrics }

end AggregationMetrics

/-! ## System metrics -/

/-- The gauges of one host in one bucket. -/
structure SystemAggregationMetrics where
  count : UInt64 := 0
  ts : UInt64 := 0xFFFFFFFFFFFFFFFF
  te : UInt64 := 0
  metrics : Table Bytes MetricStats := Table.empty
  sketchAccuracy : Float := defaultAccuracy

namespace SystemAggregationMetrics

def updateMetric (m : SystemAggregationMetrics) (name : Bytes) (value : Float)
    (computePercentiles : Bool) : SystemAggregationMetrics :=
  { m with
    metrics := m.metrics.alter name fun old =>
      (old.getD { sketchAccuracy := m.sketchAccuracy }).updateDouble value computePercentiles }

def updateTimestamp (m : SystemAggregationMetrics) (eventTs : UInt64) : SystemAggregationMetrics :=
  { m with
    ts := if eventTs < m.ts then eventTs else m.ts
    te := if eventTs > m.te then eventTs else m.te }

def mergeFrom (m other : SystemAggregationMetrics) : SystemAggregationMetrics :=
  { m with
    count := m.count + other.count
    ts := if other.ts < m.ts then other.ts else m.ts
    te := if other.te > m.te then other.te else m.te
    metrics := m.metrics.merge
      (fun old v => (old.getD { sketchAccuracy := m.sketchAccuracy }).mergeFrom v) other.metrics }

end SystemAggregationMetrics

/-! ## Trace events as the aggregation reads them

An event's arguments are doubles, integers or texts by name. The aggregation asks
whether an argument is there and whether it is a number, reads it as an unsigned
integer, and steps through the numbers. What it makes of an event is fixed by the
configuration: bucket width, extra keys, custom metric fields. -/

/-- The bytes of a name in the source. -/
def text (s : String) : Bytes := s.toUTF8.data.toList

inductive RecordPhase
  | UNKNOWN
  | COMPLETE
  | COUNTER
  | AGGREGATED
  | METADATA
  deriving DecidableEq, Repr

/-- A metric value or a text. -/
inductive ArgValue
  | double (d : Float)
  | int64 (i : Int64)
  | string (s : Bytes)

/-- An event as the scan hands it on. -/
structure FoldEvent where
  phase : RecordPhase := .COMPLETE
  cat : Bytes := []
  name : Bytes := []
  pid : UInt64 := 0
  tid : UInt64 := 0
  ts : UInt64 := 0
  dur : UInt64 := 0
  hhash : Option Bytes := none
  fhash : Option Bytes := none
  args : List (Bytes × ArgValue) := []

namespace FoldEvent

def isMetadata (ev : FoldEvent) : Bool := ev.phase == .METADATA
def isCounter (ev : FoldEvent) : Bool := ev.phase == .COUNTER
def isProfile (ev : FoldEvent) : Bool := ev.isCounter && ev.cat != text "sys"
def isSystem (ev : FoldEvent) : Bool := ev.isCounter && ev.cat == text "sys"

/-- The first argument of a name. -/
def find (ev : FoldEvent) (k : Bytes) : Option ArgValue := ev.args.lookup k

/-- A double as an unsigned integer: truncated, zero outside the range. -/
def clampUint (d : Float) : UInt64 :=
  if 0 ≤ d ∧ d ≤ (0xFFFFFFFFFFFFFFFF : UInt64).toFloat then d.toUInt64 else 0

def argExists (ev : FoldEvent) (k : Bytes) : Bool :=
  if k = text "hhash" then ev.hhash.isSome
  else if k = text "fhash" then ev.fhash.isSome
  else (ev.find k).isSome

/-- A number, read as an unsigned integer. -/
def asUint : ArgValue → Option UInt64
  | .double d => some (clampUint d)
  | .int64 i => some (if i < 0 then 0 else i.toUInt64)
  | .string _ => none

/-- A number, read as a double. -/
def asDouble : ArgValue → Option Float
  | .double d => some d
  | .int64 i => some i.toFloat
  | .string _ => none

def argIsNumber (ev : FoldEvent) (k : Bytes) : Bool :=
  if k = text "hhash" ∨ k = text "fhash" then false else ((ev.find k).bind asUint).isSome

def argUint (ev : FoldEvent) (k : Bytes) : UInt64 :=
  if k = text "hhash" ∨ k = text "fhash" then 0 else ((ev.find k).bind asUint).getD 0

def argString (ev : FoldEvent) (k : Bytes) : Bytes :=
  if k = text "hhash" then ev.hhash.getD []
  else if k = text "fhash" then ev.fhash.getD []
  else match ev.find k with
    | some (.string s) => s
    | _ => []

/-- The numeric arguments, each as an unsigned integer and as a double. -/
def numericArgs (ev : FoldEvent) : List (Bytes × UInt64 × Float) :=
  ev.args.filterMap fun (k, v) =>
    match asUint v, asDouble v with
    | some u, some d => some (k, u, d)
    | _, _ => none

end FoldEvent

/-- The arguments that the aggregation handles itself. -/
def isReservedArg (k : Bytes) : Bool :=
  k = text "hhash" || k = text "fhash"
    || k = text "dur" || k = text "dur_sum" || k = text "dur_min" || k = text "dur_max"
    || k = text "dftu_cnt"
    || k = text "ret" || k = text "ret_sum" || k = text "ret_min" || k = text "ret_max"
    || k = text "offset" || k = text "offset_sum" || k = text "offset_min" || k = text "offset_max"

/-- The name of a pre-aggregated field. -/
def isPreaggSuffix (k : Bytes) : Bool :=
  let tail := k.drop (k.length - 4)
  decide (4 < k.length) && (tail = text "_sum" || tail = text "_min" || tail = text "_max")

/-- A letter in lower case. -/
def lower (c : UInt8) : UInt8 := if 65 ≤ c ∧ c ≤ 90 then c + 32 else c

def toLowerAscii (s : Bytes) : Bytes := s.map lower

def asciiIequals (a b : Bytes) : Bool := a.map lower == b.map lower

namespace PosixOps

def READ : List Bytes :=
  ["read", "pread", "pread64", "readv", "preadv", "preadv2", "fread", "recv", "recvfrom",
    "recvmsg"].map text

def WRITE : List Bytes :=
  ["write", "pwrite", "pwrite64", "writev", "pwritev", "pwritev2", "fwrite", "send", "sendto",
    "sendmsg", "splice", "sendfile", "copy_file_range"].map text

end PosixOps

/-- The event's return value is a number of bytes transferred. -/
def isDataTransferOp (cat name : Bytes) : Bool :=
  (asciiIequals cat (text "posix") || asciiIequals cat (text "stdio"))
    && (PosixOps.READ.contains name || PosixOps.WRITE.contains name)

/-- The value of a hexadecimal digit. -/
def hexDigit (c : UInt8) : Option UInt64 :=
  if 48 ≤ c ∧ c ≤ 57 then some (c - 48).toUInt64
  else if 97 ≤ c ∧ c ≤ 102 then some (c - 97 + 10).toUInt64
  else none

/-- The value of a hash of exactly sixteen lower-case digits. -/
def parseHex64 (s : Bytes) : Option UInt64 :=
  if s.length ≠ 16 then none
  else s.foldlM (fun (v : UInt64) c => (hexDigit c).map fun d => (v <<< 4) ||| d) 0

/-- The FNV-1a hash of a text. -/
def fnv1aHash (s : Bytes) : UInt64 :=
  s.foldl (fun h c => (h ^^^ c.toUInt64) * 0x00000100000001B3) 0xcbf29ce484222325

/-- The value of a hexadecimal digit of either case. -/
def hexDigitAnyCase (c : UInt8) : Option UInt64 :=
  if 65 ≤ c ∧ c ≤ 70 then some (c - 65 + 10).toUInt64 else hexDigit c

/-- A hash of digits is used as it is, never zero; any other text is hashed. -/
def aggHashOfHex (s : Bytes) : UInt64 :=
  match s.foldlM (fun (v : UInt64) c => (hexDigitAnyCase c).map fun d => (v <<< 4) ||| d) 0 with
  | some v => if v = 0 then 1 else v
  | none => fnv1aHash s

/-- The configuration, as far as the aggregation reads it. -/
structure AggregationConfig where
  timeIntervalUs : UInt64 := 1000000
  useRelativeTime : Bool := false
  referenceTimestamp : UInt64 := 0
  groupByFile : Bool := true
  extraGroupKeys : List Bytes := []
  customMetricFields : List Bytes := []
  trackDefaultArgs : Bool := true
  computePercentiles : Bool := false
  sketchAccuracy : Float := defaultAccuracy

/-- The bucket of an event is the one of its midpoint. -/
def computeTimeBucket (timestamp duration : UInt64) (config : AggregationConfig) : UInt64 :=
  let midpoint := timestamp + duration / 2
  let midpoint :=
    if config.useRelativeTime then midpoint - config.referenceTimestamp else midpoint
  if config.timeIntervalUs = 0 then midpoint
  else (midpoint / config.timeIntervalUs) * config.timeIntervalUs

inductive AggMapType
  | EVENT
  | PROFILE
  | SYSTEM
  deriving DecidableEq, Repr

/-- What a row is aggregated under. A file hash of sixteen digits is its value, any
other is kept as text. -/
structure AggregationKey where
  mapType : AggMapType
  cat : Bytes
  name : Bytes
  pid : UInt64
  tid : UInt64
  hhash : Bytes
  fhash : UInt64 ⊕ Bytes
  timeBucket : UInt64
  extraKeys : List (Bytes × Bytes)
  deriving DecidableEq

end DFTracer.Aggregation
