/-
# Recording a chunk

What the index keeps of the data events of a chunk: statistics and a Bloom
filter for each dimension, the event names, and a histogram of timestamps. The
fixed dimensions come from the schema of the trace; the extra ones are scalars
of `args` named by the configuration.

`Records` states what a recorded chunk knows of its events. One event keeps it,
and so a whole chunk has it.
-/

import DFTracer.Indexing.BloomFilter
import DFTracer.Indexing.TimestampHistogram
import DFTracer.Indexing.DimensionStats

namespace DFTracer.Indexing

open DFTracer.Query DFTracer.Math.Float64 List

/-- A data event. Its `args` hold the two hashes, when present, and any further
members; `rest` holds the top-level members the recorder does not read. -/
structure DataEvent where
  name : String
  cat : String
  pid : UInt64
  tid : UInt64
  ts : UInt64
  dur : Option UInt64
  hhash : Option String
  fhash : Option String
  args : List (String × JsonValue)
  rest : List (String × JsonValue)
  /-- A member name occurs once. -/
  distinct : (args.map Prod.fst).Nodup
  /-- The hashes are not among the other arguments. -/
  apart : "hhash" ∉ args.map Prod.fst ∧ "fhash" ∉ args.map Prod.fst
  /-- The other top-level members have other names. -/
  restApart : ∀ key ∈ rest.map Prod.fst,
    key ∉ ["name", "cat", "pid", "tid", "ts", "dur", "args"]

/-- An unsigned number in JSON. -/
def uintJson (n : UInt64) : JsonValue :=
  .int ⟨n.toNat, by
    have := n.toNat_lt
    omega⟩

/-- `build_fold_event` on one member of `args`: strings and numbers are kept, an
integer beyond `int64_t` as a double. -/
def argValue : JsonValue → Option ArgValue
  | .string s => some (.string s)
  | .int n => some (if n.val < 2 ^ 63 then .int64 (.ofInt n.val) else .double n.toDouble)
  | .double x => some (.double x)
  | _ => none

/-- `is_nested_path`. -/
def isNestedPath (field : String) : Bool :=
  field.toList.any fun c => c == '.' || c == '['

namespace DataEvent

/-- The event as the evaluator sees it. -/
def toJson (event : DataEvent) : JsonValue :=
  .object
    ([("name", .string event.name), ("cat", .string event.cat), ("pid", uintJson event.pid),
        ("tid", uintJson event.tid), ("ts", uintJson event.ts)] ++
      (event.dur.map fun dur => ("dur", uintJson dur)).toList ++
      [("args", .object
        ((event.hhash.map fun hash => ("hhash", .string hash)).toList ++
          (event.fhash.map fun hash => ("fhash", .string hash)).toList ++ event.args))] ++
      event.rest)

/-- The scalars of `args`. -/
def foldArgs (event : DataEvent) : List (String × ArgValue) :=
  event.args.filterMap fun (key, value) => (argValue value).map (key, ·)

/-- A string among the scalars of `args`. -/
def stringArg (event : DataEvent) (key : String) : Option String :=
  match event.foldArgs.lookup key with
  | some (.string s) => some s
  | _ => none

/-- The string hash of an event: that of its command, else that of its
executable. -/
def shash (event : DataEvent) : String :=
  ((event.stringArg "cmd_hash").or (event.stringArg "exec_hash")).getD ""

/-- The value an extra dimension takes on an event. A nested dimension is
captured by its path below `args`. -/
def extraValue (event : DataEvent) (dimension : String) : Option ArgValue :=
  if isNestedPath dimension then
    (event.foldArgs.lookup ("args." ++ dimension)).or
      ((event.toJson.atPath ("args." ++ dimension)).bind argValue)
  else event.foldArgs.lookup dimension

end DataEvent

/-! ## The state of a chunk -/

/-- The fixed dimensions. -/
inductive FixedDim where
  | name
  | cat
  | pid
  | tid
  | pidTid
  | hhash
  | fhash
  | shash
  | ts
  | dur
deriving DecidableEq

namespace FixedDim

/-- `FIXED_DIM_NAMES`. -/
def dimension : FixedDim → String
  | name => "name"
  | cat => "cat"
  | pid => "pid"
  | tid => "tid"
  | pidTid => "pid_tid"
  | hhash => "hhash"
  | fhash => "fhash"
  | shash => "shash"
  | ts => "ts"
  | dur => "dur"

def all : List FixedDim := [name, cat, pid, tid, pidTid, hhash, fhash, shash, ts, dur]

/-- The value type a fixed dimension starts with, and keeps. -/
def valueType : FixedDim → ValueType
  | pid | tid | ts | dur => .uint
  | _ => .string

/-- `FIXED_BLOOM_NAMES`. -/
def hasBloom : FixedDim → Bool
  | pidTid | ts | dur => false
  | _ => true

/-- The dimensions that keep a dictionary; the other two keep a range only. -/
def hasDictionary : FixedDim → Bool
  | ts | dur => false
  | _ => true

/-- The text a dimension with a dictionary takes on an event, empty when there
is none. -/
def text (event : DataEvent) : FixedDim → String
  | name => event.name
  | cat => event.cat
  | pid => toString event.pid.toNat
  | tid => toString event.tid.toNat
  | pidTid => toString event.pid.toNat ++ ":" ++ toString event.tid.toNat
  | hhash => event.hhash.getD ""
  | fhash => event.fhash.getD ""
  | shash => event.shash
  | ts | dur => ""

/-- The number a range-only dimension takes on an event. An absent duration
counts as zero. -/
def number (event : DataEvent) : FixedDim → Nat
  | ts => event.ts.toNat
  | dur => (event.dur.getD 0).toNat
  | _ => 0

/-- The text recorded for an event, nothing when the event is skipped. -/
def observed (dim : FixedDim) (event : DataEvent) : Option String :=
  if dim.hasDictionary then if dim.text event = "" then none else some (dim.text event)
  else some (toString (dim.number event))

end FixedDim

/-- An extra dimension of a chunk. -/
structure ExtraDim where
  dimension : String
  stats : ChunkDimensionStats
  bloom : ScalableBloomFilter

/-- `ChunkState`, with the parts of `statistics` that pruning reads. -/
structure ChunkState where
  fixedStats : FixedDim → ChunkDimensionStats
  fixedBlooms : FixedDim → Option ScalableBloomFilter
  extras : List ExtraDim
  nameCounts : AList fun _ : String => Nat
  timestampHistogram : TimestampHistogram

/-- `ChunkIndexerConfig`. -/
structure ChunkIndexerConfig where
  extraDimensions : List String
  expectedEntriesPerChunk : Nat

namespace ChunkState

-- the bit estimate of a Bloom filter level
variable (estimate : Nat → Nat → Nat)

/-- `init_chunk_state`. -/
def init (config : ChunkIndexerConfig) : ChunkState where
  fixedStats := fun dim => .empty dim.valueType
  fixedBlooms := fun dim =>
    if dim.hasBloom then some (.empty estimate config.expectedEntriesPerChunk) else none
  extras := config.extraDimensions.map fun dimension =>
    ⟨dimension, .empty .unset, .empty estimate config.expectedEntriesPerChunk⟩
  nameCounts := ∅
  timestampHistogram := .empty

/-- `observe_fixed`. -/
def observeFixed (chunk : ChunkState) (dim : FixedDim) (value : String) : ChunkState :=
  if value = "" then chunk
  else
    { chunk with
      fixedStats := Function.update chunk.fixedStats dim ((chunk.fixedStats dim).observe value)
      fixedBlooms := Function.update chunk.fixedBlooms dim
        ((chunk.fixedBlooms dim).map (·.add estimate value)) }

/-- `observe_range_only` on one fixed dimension. -/
def observeRange (chunk : ChunkState) (dim : FixedDim) (value : Nat) : ChunkState :=
  { chunk with
    fixedStats := Function.update chunk.fixedStats dim
      ((chunk.fixedStats dim).observeRangeOnly value) }

/-- `update_from_event`, for what pruning reads. -/
def updateFromEvent (chunk : ChunkState) (event : DataEvent) : ChunkState :=
  { chunk with
    nameCounts := chunk.nameCounts.insert event.name
      ((chunk.nameCounts.lookup event.name).getD 0 + 1)
    timestampHistogram := chunk.timestampHistogram.add event.ts.toNat }

/-- `observe_data`. -/
def observeData (chunk : ChunkState) (event : DataEvent) : ChunkState :=
  let chunk := chunk.updateFromEvent event
  let chunk := chunk.observeFixed estimate .name (FixedDim.name.text event)
  let chunk := chunk.observeFixed estimate .cat (FixedDim.cat.text event)
  let chunk := chunk.observeFixed estimate .pid (FixedDim.pid.text event)
  let chunk := chunk.observeFixed estimate .tid (FixedDim.tid.text event)
  let chunk := chunk.observeFixed estimate .pidTid (FixedDim.pidTid.text event)
  let chunk := chunk.observeRange .ts (FixedDim.ts.number event)
  let chunk := chunk.observeRange .dur (FixedDim.dur.number event)
  let chunk := chunk.observeFixed estimate .hhash (FixedDim.hhash.text event)
  let chunk := chunk.observeFixed estimate .fhash (FixedDim.fhash.text event)
  chunk.observeFixed estimate .shash (FixedDim.shash.text event)

/-- `observe_extra`. -/
def observeExtra (event : DataEvent) (extra : ExtraDim) : Option ExtraDim :=
  match event.extraValue extra.dimension with
  | none => some extra
  | some value => do
      let stats ← extra.stats.observeStats value
      some { extra with stats := stats, bloom := extra.bloom.add estimate value.text }

/-- One data event of `BloomFold::step`. -/
def step (chunk : ChunkState) (event : DataEvent) : Option ChunkState := do
  let chunk := chunk.observeData estimate event
  let extras ← chunk.extras.mapM (observeExtra estimate event)
  some { chunk with extras := extras }

/-- The state recorded from the events of a chunk. -/
def record (config : ChunkIndexerConfig) (events : List DataEvent) : Option ChunkState :=
  events.foldlM (step estimate) (init estimate config)

end ChunkState

/-! ## What a recorded chunk knows -/

/-- A dimension and its Bloom filter hold these texts. -/
def BloomHolds (bloom : ScalableBloomFilter) (texts : List String) : Prop :=
  bloom.Remembers ∧ ∀ t ∈ texts, bloom.possiblyContains t = true

theorem BloomHolds.add {bloom : ScalableBloomFilter} {texts : List String}
    (holds : BloomHolds bloom texts) (estimate : Nat → Nat → Nat) (text : String) :
    BloomHolds (bloom.add estimate text) (text :: texts) := by
  obtain ⟨remembers, held⟩ := holds
  refine ⟨remembers.add estimate text, fun t listed => ?_⟩
  rcases mem_cons.mp listed with rfl | earlier
  · exact ScalableBloomFilter.possiblyContains_add estimate remembers t
  · exact ScalableBloomFilter.possiblyContains_add_of estimate text (held t earlier)

/-- One fixed dimension after some events. -/
structure FixedRecords (dim : FixedDim) (stats : ChunkDimensionStats)
    (bloom : Option ScalableBloomFilter) (events : List DataEvent) : Prop where
  type : stats.valueType = dim.valueType
  dictionary : dim.hasDictionary = true → stats.Dictionary (events.filterMap dim.observed)
  range : dim.hasDictionary = false → stats.valueCounts = none ∧
    Ends .uint stats.minValue stats.maxValue (events.filterMap dim.observed)
  bloom : ∀ b, bloom = some b → dim.hasDictionary = true ∧
    BloomHolds b (events.filterMap dim.observed)

/-- One extra dimension after some events. -/
structure ExtraRecords (extra : ExtraDim) (events : List DataEvent) : Prop where
  stats : extra.stats.Bounded (events.filterMap (·.extraValue extra.dimension))
  bloom : BloomHolds extra.bloom
    ((events.filterMap (·.extraValue extra.dimension)).map ArgValue.text)

/-- A chunk after some events. -/
structure ChunkState.Records (chunk : ChunkState) (config : ChunkIndexerConfig)
    (events : List DataEvent) : Prop where
  fixed : ∀ dim, FixedRecords dim (chunk.fixedStats dim) (chunk.fixedBlooms dim) events
  extras : ∀ extra ∈ chunk.extras, ExtraRecords extra events
  dimensions : chunk.extras.map ExtraDim.dimension = config.extraDimensions
  names : ∀ event ∈ events, event.name ∈ chunk.nameCounts
  histogram : ∀ event ∈ events, chunk.timestampHistogram.Holds event.ts.toNat

variable {dim : FixedDim} {t : String}

/-- The texts a fixed dimension records are of its type. -/
theorem FixedDim.printed_observed {event : DataEvent} (observed : dim.observed event = some t) :
    t ≠ "" ∧ (dim.valueType = .string ∨ dim.valueType = .uint ∧ Printed t .uint) := by
  have nonempty : ∀ n : Nat, toString n ≠ "" := by
    intro n empty
    exact Nat.toDigits_ne_nil (Nat.toList_repr.symm.trans (congrArg String.toList empty))
  have dictionary : dim.hasDictionary = true → t = dim.text event ∧ t ≠ "" := by
    intro has
    unfold FixedDim.observed at observed
    rw [if_pos has] at observed
    obtain ⟨present, same⟩ := Option.ite_none_left_eq_some.mp observed
    cases Option.some.inj same
    exact ⟨rfl, present⟩
  have uint : ∀ n : UInt64, Printed (toString n.toNat) .uint := fun n => ⟨_, n.toNat_lt, rfl⟩
  cases dim with
  | name | cat | pidTid | hhash | fhash | shash => exact ⟨(dictionary rfl).2, .inl rfl⟩
  | pid =>
    obtain ⟨rfl, present⟩ := dictionary rfl
    exact ⟨present, .inr ⟨rfl, uint event.pid⟩⟩
  | tid =>
    obtain ⟨rfl, present⟩ := dictionary rfl
    exact ⟨present, .inr ⟨rfl, uint event.tid⟩⟩
  | ts =>
    obtain rfl := Option.some.inj observed
    exact ⟨nonempty _, .inr ⟨rfl, uint event.ts⟩⟩
  | dur =>
    obtain rfl := Option.some.inj observed
    exact ⟨nonempty _, .inr ⟨rfl, uint (event.dur.getD 0)⟩⟩

theorem FixedDim.mem_observed {events : List DataEvent}
    (listed : t ∈ events.filterMap dim.observed) :
    t ≠ "" ∧ (dim.valueType = .string ∨ dim.valueType = .uint ∧ Printed t .uint) := by
  obtain ⟨event, _, observed⟩ := mem_filterMap.mp listed
  exact FixedDim.printed_observed observed

namespace FixedRecords

variable {dim : FixedDim} {stats : ChunkDimensionStats} {bloom : Option ScalableBloomFilter}
  {events : List DataEvent}

section

variable (records : FixedRecords dim stats bloom events) {event : DataEvent}

include records

/-- An event a dimension skips changes nothing. -/
theorem skip
    (skipped : dim.observed event = none) : FixedRecords dim stats bloom (event :: events) := by
  have same : (event :: events).filterMap dim.observed = events.filterMap dim.observed :=
    filterMap_cons_none skipped
  refine ⟨records.type, ?_, ?_, ?_⟩
  · rw [same]
    exact records.dictionary
  · rw [same]
    exact records.range
  · rw [same]
    exact records.bloom

/-- `observe` and the Bloom filter record the text of an event. -/
theorem observe (estimate : Nat → Nat → Nat) {t : String} (has : dim.hasDictionary = true)
    (observed : dim.observed event = some t) :
    FixedRecords dim (stats.observe t) (bloom.map (·.add estimate t)) (event :: events) := by
  have texts : (event :: events).filterMap dim.observed = t :: events.filterMap dim.observed :=
    filterMap_cons_some observed
  refine ⟨?_, fun _ => ?_, fun lacks => absurd (has.symm.trans lacks) (by decide), ?_⟩
  · rw [ChunkDimensionStats.valueType_observe]
    exact records.type
  · rw [texts]
    refine (records.dictionary has).observe fun s listed => ?_
    rw [records.type]
    rcases mem_cons.mp listed with rfl | earlier
    · exact FixedDim.printed_observed observed
    · exact FixedDim.mem_observed earlier
  · intro b found
    obtain ⟨old, present, rfl⟩ := Option.map_eq_some_iff.mp found
    rw [texts]
    exact ⟨has, (records.bloom old present).2.add estimate t⟩

/-- `observe_range_only` records the number of an event. -/
theorem observeRange (event : DataEvent)
    (lacks : dim.hasDictionary = false) (fits : dim.number event < 2 ^ 64) :
    FixedRecords dim (stats.observeRangeOnly (dim.number event)) bloom (event :: events) := by
  have observed : dim.observed event = some (toString (dim.number event)) := by
    unfold FixedDim.observed
    rw [if_neg (by simp [lacks])]
  have texts : (event :: events).filterMap dim.observed =
      toString (dim.number event) :: events.filterMap dim.observed :=
    filterMap_cons_some observed
  obtain ⟨counts, ends⟩ := records.range lacks
  have type : (stats.observeRangeOnly (dim.number event)).valueType = stats.valueType := by
    unfold ChunkDimensionStats.observeRangeOnly
    split <;> rfl
  have same : (stats.observeRangeOnly (dim.number event)).valueCounts = stats.valueCounts := by
    unfold ChunkDimensionStats.observeRangeOnly
    split <;> rfl
  refine ⟨type.trans records.type, fun has => absurd (has.symm.trans lacks) (by decide),
    fun _ => ⟨same.trans counts, ?_⟩, fun b found => ?_⟩
  · rw [texts]
    refine ChunkDimensionStats.ends_observeRangeOnly ends (fun s listed => ?_) fits
    rcases (FixedDim.mem_observed listed).2 with isString | ⟨_, printed⟩
    · cases dim <;> first | exact absurd lacks (by decide) | exact absurd isString (by decide)
    · exact printed
  · exact absurd ((records.bloom b found).1.symm.trans lacks) (by decide)

end

end FixedRecords

namespace ChunkState

variable {estimate : Nat → Nat → Nat} {chunk : ChunkState} {events : List DataEvent}
  {event : DataEvent}

/-- The dimension a call of `observe_data` works on, against any other. -/
theorem observeFixed_at (chunk : ChunkState) (dim other : FixedDim) (value : String) :
    (chunk.observeFixed estimate dim value).fixedStats other =
        (if other = dim ∧ value ≠ "" then (chunk.fixedStats other).observe value
          else chunk.fixedStats other) ∧
      (chunk.observeFixed estimate dim value).fixedBlooms other =
        (if other = dim ∧ value ≠ "" then (chunk.fixedBlooms other).map (·.add estimate value)
          else chunk.fixedBlooms other) := by
  unfold observeFixed
  by_cases empty : value = ""
  · simp [empty]
  · rw [if_neg empty]
    by_cases here : other = dim
    · subst here
      simp [empty]
    · simp [here]

theorem observeRange_at (chunk : ChunkState) (dim other : FixedDim) (value : Nat) :
    (chunk.observeRange dim value).fixedStats other =
        (if other = dim then (chunk.fixedStats other).observeRangeOnly value
          else chunk.fixedStats other) ∧
      (chunk.observeRange dim value).fixedBlooms other = chunk.fixedBlooms other := by
  unfold observeRange
  by_cases here : other = dim
  · subst here
    simp
  · simp [here]

/-- What `observe_data` does to one fixed dimension. -/
theorem observeData_at (estimate : Nat → Nat → Nat) (chunk : ChunkState) (event : DataEvent) (dim : FixedDim) :
    (chunk.observeData estimate event).fixedStats dim =
        (if dim.hasDictionary then
          if dim.text event = "" then chunk.fixedStats dim
          else (chunk.fixedStats dim).observe (dim.text event)
        else (chunk.fixedStats dim).observeRangeOnly (dim.number event)) ∧
      (chunk.observeData estimate event).fixedBlooms dim =
        (if dim.hasDictionary ∧ dim.text event ≠ "" then
          (chunk.fixedBlooms dim).map (·.add estimate (dim.text event))
        else chunk.fixedBlooms dim) := by
  unfold observeData
  cases dim <;>
    simp only [(observeFixed_at _ _ _ _).1, (observeFixed_at _ _ _ _).2,
      (observeRange_at _ _ _ _).1, (observeRange_at _ _ _ _).2, reduceCtorEq, false_and, true_and,
      if_false, if_true, FixedDim.hasDictionary, updateFromEvent, ite_not]

/-- What `observe_data` leaves alone, and what it adds to the chunk as a whole. -/
theorem observeData_rest (estimate : Nat → Nat → Nat) (chunk : ChunkState) (event : DataEvent) :
    (chunk.observeData estimate event).extras = chunk.extras ∧
      (chunk.observeData estimate event).nameCounts = (chunk.updateFromEvent event).nameCounts ∧
      (chunk.observeData estimate event).timestampHistogram =
        chunk.timestampHistogram.add event.ts.toNat := by
  have fixed : ∀ (chunk : ChunkState) dim value,
      (chunk.observeFixed estimate dim value).extras = chunk.extras ∧
        (chunk.observeFixed estimate dim value).nameCounts = chunk.nameCounts ∧
        (chunk.observeFixed estimate dim value).timestampHistogram =
          chunk.timestampHistogram := by
    intro chunk dim value
    unfold observeFixed
    split <;> exact ⟨rfl, rfl, rfl⟩
  unfold observeData
  simp only [fun chunk dim value => (fixed chunk dim value).1,
    fun chunk dim value => (fixed chunk dim value).2.1,
    fun chunk dim value => (fixed chunk dim value).2.2, observeRange, updateFromEvent, and_self]

theorem number_lt (dim : FixedDim) (event : DataEvent) : dim.number event < 2 ^ 64 := by
  cases dim with
  | ts => exact event.ts.toNat_lt
  | dur => exact (event.dur.getD 0).toNat_lt
  | _ => exact Nat.two_pow_pos 64

/-- `observe_data` records one more event in every fixed dimension. -/
theorem fixed_observeData {dim : FixedDim}
    (records : FixedRecords dim (chunk.fixedStats dim) (chunk.fixedBlooms dim) events)
    (event : DataEvent) :
    FixedRecords dim ((chunk.observeData estimate event).fixedStats dim)
      ((chunk.observeData estimate event).fixedBlooms dim) (event :: events) := by
  obtain ⟨stats, bloom⟩ := observeData_at estimate chunk event dim
  rw [stats, bloom]
  cases has : dim.hasDictionary with
  | true =>
    rw [if_pos rfl]
    by_cases empty : dim.text event = ""
    · rw [if_pos empty, if_neg (fun both => both.2 empty)]
      apply records.skip
      unfold FixedDim.observed
      rw [if_pos has, if_pos empty]
    · rw [if_neg empty, if_pos ⟨rfl, empty⟩]
      apply records.observe estimate has
      unfold FixedDim.observed
      rw [if_pos has, if_neg empty]
  | false =>
    exact records.observeRange event has (number_lt dim event)

/-- `observe_extra` records one more event in an extra dimension. -/
theorem extra_observeExtra {extra extra' : ExtraDim} (records : ExtraRecords extra events)
    (observed : observeExtra estimate event extra = some extra') :
    ExtraRecords extra' (event :: events) ∧ extra'.dimension = extra.dimension := by
  unfold observeExtra at observed
  cases value : event.extraValue extra.dimension with
  | none =>
    rw [value] at observed
    cases Option.some.inj observed
    have same : (event :: events).filterMap (·.extraValue extra.dimension) =
        events.filterMap (·.extraValue extra.dimension) := filterMap_cons_none value
    refine ⟨⟨?_, ?_⟩, rfl⟩
    · rw [same]
      exact records.stats
    · rw [same]
      exact records.bloom
  | some v =>
    rw [value] at observed
    obtain ⟨stats, added, same⟩ := Option.bind_eq_some_iff.mp observed
    cases Option.some.inj same
    have values : (event :: events).filterMap (·.extraValue extra.dimension) =
        v :: events.filterMap (·.extraValue extra.dimension) := filterMap_cons_some value
    refine ⟨⟨?_, ?_⟩, rfl⟩
    · rw [values]
      exact records.stats.observeStats added
    · rw [values]
      exact records.bloom.add estimate v.text

/-- Every extra dimension of the result comes from one before it. -/
theorem extras_mapM {extras extras' : List ExtraDim} (records : ∀ extra ∈ extras, ExtraRecords extra events)
    (mapped : extras.mapM (observeExtra estimate event) = some extras') :
    (∀ extra ∈ extras', ExtraRecords extra (event :: events)) ∧
      extras'.map ExtraDim.dimension = extras.map ExtraDim.dimension := by
  induction extras generalizing extras' with
  | nil =>
    cases Option.some.inj mapped
    exact ⟨fun _ listed => absurd listed not_mem_nil, rfl⟩
  | cons head rest ih =>
    rw [mapM_cons] at mapped
    obtain ⟨head', observed, mapped⟩ := Option.bind_eq_some_iff.mp mapped
    obtain ⟨rest', others, same⟩ := Option.bind_eq_some_iff.mp mapped
    cases Option.some.inj same
    obtain ⟨first, later⟩ := forall_mem_cons.mp records
    obtain ⟨headRecords, headName⟩ := extra_observeExtra first observed
    obtain ⟨restRecords, restNames⟩ := ih later others
    refine ⟨forall_mem_cons.mpr ⟨headRecords, restRecords⟩, ?_⟩
    rw [map_cons, map_cons, headName, restNames]

theorem records_init (config : ChunkIndexerConfig) :
    (init estimate config).Records config [] where
  fixed := fun dim => by
    refine ⟨rfl, fun _ => ChunkDimensionStats.dictionary_empty _, fun _ => ⟨rfl, .empty _⟩, ?_⟩
    intro b found
    obtain ⟨has, same⟩ := Option.ite_none_right_eq_some.mp found
    cases Option.some.inj same
    refine ⟨?_, ScalableBloomFilter.remembers_empty estimate _, fun _ listed =>
      absurd listed not_mem_nil⟩
    cases dim <;> first | rfl | exact absurd has (by decide)
  extras := fun extra listed => by
    obtain ⟨dimension, _, rfl⟩ := mem_map.mp listed
    exact ⟨ChunkDimensionStats.bounded_empty, ScalableBloomFilter.remembers_empty estimate _,
      fun _ listed => absurd listed not_mem_nil⟩
  dimensions := by
    unfold init
    rw [map_map]
    exact map_id _
  names := fun _ listed => absurd listed not_mem_nil
  histogram := fun _ listed => absurd listed not_mem_nil

/-- One event is recorded. -/
theorem Records.step {chunk chunk' : ChunkState} {config : ChunkIndexerConfig}
    {events : List DataEvent} (records : chunk.Records config events) {event : DataEvent}
    (stepped : chunk.step estimate event = some chunk') :
    chunk'.Records config (event :: events) := by
  obtain ⟨extras, mapped, same⟩ := Option.bind_eq_some_iff.mp stepped
  cases Option.some.inj same
  obtain ⟨oldExtras, nameCounts, histogram⟩ :=
    observeData_rest estimate chunk event
  rw [oldExtras] at mapped
  obtain ⟨extraRecords, dimensions⟩ := extras_mapM records.extras mapped
  refine ⟨fun dim => fixed_observeData (records.fixed dim) event, extraRecords,
    dimensions.trans records.dimensions, forall_mem_cons.mpr ⟨?_, fun e listed => ?_⟩,
    forall_mem_cons.mpr ⟨?_, fun e listed => ?_⟩⟩
  · rw [nameCounts]
    exact (AList.mem_insert _).mpr (.inl rfl)
  · rw [nameCounts]
    exact (AList.mem_insert _).mpr (.inr (records.names e listed))
  · rw [histogram]
    exact TimestampHistogram.holds_add _ _
  · rw [histogram]
    exact (records.histogram e listed).add _

theorem records_record {config : ChunkIndexerConfig} (recorded : record estimate config events = some chunk) :
    chunk.Records config events.reverse := by
  have run : ∀ (events seen : List DataEvent) (start : ChunkState), start.Records config seen →
      events.foldlM (ChunkState.step estimate) start = some chunk →
      chunk.Records config (events.reverse ++ seen) := by
    intro events
    induction events with
    | nil =>
      intro seen start records folded
      cases Option.some.inj folded
      exact records
    | cons event events ih =>
      intro seen start records folded
      obtain ⟨next, stepped, folded⟩ := Option.bind_eq_some_iff.mp folded
      rw [reverse_cons, append_assoc]
      exact ih (event :: seen) next (records.step stepped) folded
  have records := run events [] _ (records_init config) recorded
  rwa [append_nil] at records

end ChunkState

end DFTracer.Indexing
