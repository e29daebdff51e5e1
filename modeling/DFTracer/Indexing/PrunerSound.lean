/-
# When pruning is sound

The pruner compares texts where the evaluator compares typed values, and it knows only the events
that carried a value. An event is *echoed* by a query when the two agree on it, leaf by leaf. An
echoed event that matches keeps its chunk, and a chunk in which every event is said to match holds
no echoed event that does not. Without the condition both fail.
-/

import DFTracer.Indexing.ChunkPruner

namespace DFTracer.Indexing

open DFTracer.Query DFTracer.Math.Float64 DFTracer.Math.NumberText List Option

/-! ## Recorded dimensions -/

/-- A recorded dimension. -/
inductive Source where
  | fixed (dim : FixedDim)
  | extra (dimension : String)

namespace Source

def name : Source → String
  | fixed dim => dim.dimension
  | extra dimension => dimension

/-- The text recorded for an event. -/
def observed (event : DataEvent) : Source → Option String
  | fixed dim => dim.observed event
  | extra dimension => (event.extraValue dimension).map ArgValue.text

/-- The dimensions recorded under a configuration. -/
def all (config : ChunkIndexerConfig) : List Source :=
  FixedDim.all.map fixed ++ config.extraDimensions.map extra

theorem fixed_mem (config : ChunkIndexerConfig) (dim : FixedDim) : fixed dim ∈ all config := by
  apply mem_append_left
  apply List.mem_map_of_mem
  cases dim <;> decide

theorem extra_mem {config : ChunkIndexerConfig} {dimension : String}
    (listed : dimension ∈ config.extraDimensions) : extra dimension ∈ all config :=
  mem_append_right _ (mem_map_of_mem listed)

end Source

/-- The statistics a chunk keeps under a dimension name. -/
def ChunkState.StatsOf (chunk : ChunkState) (dim : String) (ds : ChunkDimensionStats) : Prop :=
  (∃ fixed : FixedDim, fixed.dimension = dim ∧ ds = chunk.fixedStats fixed) ∨
    ∃ extra ∈ chunk.extras, extra.dimension = dim ∧ ds = extra.stats

/-- The Bloom filter a chunk keeps under a dimension name. -/
def ChunkState.BloomOf (chunk : ChunkState) (dim : String) (bloom : ScalableBloomFilter) : Prop :=
  (∃ fixed : FixedDim, fixed.dimension = dim ∧ chunk.fixedBlooms fixed = some bloom) ∨
    ∃ extra ∈ chunk.extras, extra.dimension = dim ∧ bloom = extra.bloom

/-- A context holds what was recorded of a chunk. Any part may be missing: a
dictionary over the size limit is not stored, nor are dimensions of an older
index. -/
structure PrunerContext.Holds (ctx : PrunerContext) (index : Nat) (chunk : ChunkState) : Prop where
  listed : index ∈ ctx.allChunks
  stats : ∀ dim ds, ctx.dimStats index dim = some ds → ∃ recorded, chunk.StatsOf dim recorded ∧
    (ds = recorded ∨ ds = { recorded with valueCounts := none })
  blooms : ∀ dim bloom, ctx.bloomFilters dim index = some bloom → chunk.BloomOf dim bloom
  histogram : ∀ hist, ctx.tsHistograms index = some hist → hist = chunk.timestampHistogram
  names : ∀ db, ctx.db = some db → ∀ name ∈ chunk.nameCounts, ∃ id,
    db.nameId name = some id ∧ db.fileHolds id = true ∧ index ∈ db.chunkPostings id

/-- Dropping the dictionary leaves the rest of a description. -/
theorem Describes.dropped {ds : ChunkDimensionStats} {texts : List String}
    (describes : Describes ds texts) : Describes { ds with valueCounts := none } texts where
  __ := describes
  counts := fun _ absent => nomatch absent

variable {events : List DataEvent}

theorem FixedRecords.describes {dim : FixedDim} {stats : ChunkDimensionStats}
    {bloom : Option ScalableBloomFilter} (records : FixedRecords dim stats bloom events) :
    Describes stats (events.filterMap dim.observed) := by
  have printed : ∀ t ∈ events.filterMap dim.observed, Printed t stats.valueType := by
    intro t listed
    rw [records.type]
    rcases (FixedDim.mem_observed listed).2 with isString | ⟨isUint, printed⟩
    · rw [isString]
      trivial
    · rw [isUint]
      exact printed
  have unmixed : stats.valueType ≠ .mixed := by
    rw [records.type]
    cases dim <;> decide
  cases has : dim.hasDictionary with
  | true =>
    have dictionary := records.dictionary has
    refine ⟨printed, fun _ _ => dictionary.ends, fun mixed => absurd mixed unmixed, ?_⟩
    intro dict stored t
    rw [← dictionary.counts t, stored, getD_some]
  | false =>
    obtain ⟨absent, ends⟩ := records.range has
    refine ⟨printed, fun _ _ => ?_, fun mixed => absurd mixed unmixed, fun dict stored =>
      nomatch absent.symm.trans stored⟩
    have isUint : stats.valueType = .uint := by
      rw [records.type]
      cases dim <;> first | rfl | exact absurd has (by decide)
    rw [isUint]
    exact ends

theorem extra_texts (dimension : String) (events : List DataEvent) :
    events.filterMap (Source.extra dimension).observed =
      (events.filterMap (·.extraValue dimension)).map ArgValue.text := by
  rw [map_filterMap]
  rfl

theorem ExtraRecords.describes {extra : ExtraDim} (records : ExtraRecords extra events) :
    Describes extra.stats (events.filterMap (Source.extra extra.dimension).observed) := by
  obtain ⟨bounded, _⟩ := records
  rw [extra_texts]
  refine ⟨bounded.typed.printed, fun unmixed nonempty => bounded.ends unmixed ?_, bounded.cleared,
    fun dict stored => nomatch bounded.counts.symm.trans stored⟩
  intro value listed empty
  exact nonempty (empty ▸ mem_map_of_mem listed)

/-- A context that holds everything recorded of one chunk. A dimension stored
later replaces one of the same name. -/
def ChunkState.load (chunk : ChunkState) (index : Nat) : PrunerContext where
  allChunks := {index}
  dimStats := fun i dim =>
    if i = index then
      ((chunk.extras.reverse.find? (·.dimension == dim)).map ExtraDim.stats).or
        ((FixedDim.all.find? (·.dimension == dim)).map chunk.fixedStats)
    else none
  bloomFilters := fun dim i =>
    if i = index then
      ((chunk.extras.reverse.find? (·.dimension == dim)).map ExtraDim.bloom).or
        ((FixedDim.all.find? (·.dimension == dim)).bind chunk.fixedBlooms)
    else none
  tsHistograms := fun i => if i = index then some chunk.timestampHistogram else none
  db := none

/-- What is loaded is held. -/
theorem ChunkState.holds_load (chunk : ChunkState) (index : Nat) :
    (chunk.load index).Holds index chunk where
  listed := Finset.mem_singleton_self index
  stats := fun dim ds found => by
    refine ⟨ds, ?_, .inl rfl⟩
    simp only [load, if_true, or_eq_some_iff, map_eq_some_iff] at found
    rcases found with ⟨extra, chosen, rfl⟩ | ⟨_, fixed, chosen, rfl⟩
    · have listed := mem_reverse.mp (mem_of_find?_eq_some chosen)
      exact .inr ⟨extra, listed, by simpa using find?_some chosen, rfl⟩
    · exact .inl ⟨fixed, by simpa using find?_some chosen, rfl⟩
  blooms := fun dim bloom found => by
    simp only [load, if_true, or_eq_some_iff, map_eq_some_iff, bind_eq_some_iff] at found
    rcases found with ⟨extra, chosen, rfl⟩ | ⟨_, fixed, chosen, present⟩
    · have listed := mem_reverse.mp (mem_of_find?_eq_some chosen)
      exact .inr ⟨extra, listed, by simpa using find?_some chosen, rfl⟩
    · exact .inl ⟨fixed, by simpa using find?_some chosen, present⟩
  histogram := fun hist found => by
    simp only [load] at found
    exact (Option.some.inj found).symm
  names := fun _ opened => nomatch opened

section Loaded

variable {ctx : PrunerContext} {config : ChunkIndexerConfig} {index : Nat} {chunk : ChunkState}
  {events : List DataEvent}

section

variable (holds : ctx.Holds index chunk) (records : chunk.Records config events) {field : String}

include holds records

/-- Statistics found in a context describe a recorded dimension of that name. -/
theorem PrunerContext.Holds.describes {ds : ChunkDimensionStats}
    (found : ctx.dimStats index field = some ds) :
    ∃ source ∈ Source.all config, source.name = field ∧
      Describes ds (events.filterMap source.observed) := by
  obtain ⟨recorded, kept, same⟩ := holds.stats field ds found
  obtain ⟨source, listed, named, described⟩ : ∃ source ∈ Source.all config, source.name = field ∧
      Describes recorded (events.filterMap source.observed) := by
    rcases kept with ⟨dim, named, rfl⟩ | ⟨extra, listed, named, rfl⟩
    · exact ⟨.fixed dim, Source.fixed_mem config dim, named, (records.fixed dim).describes⟩
    · have configured : extra.dimension ∈ config.extraDimensions :=
        records.dimensions ▸ mem_map_of_mem listed
      exact ⟨.extra extra.dimension, Source.extra_mem configured, named,
        (records.extras extra listed).describes⟩
  refine ⟨source, listed, named, ?_⟩
  rcases same with rfl | rfl
  · exact described
  · exact described.dropped

/-- A Bloom filter found in a context holds the texts of a recorded dimension. -/
theorem PrunerContext.Holds.bloomHolds {bloom : ScalableBloomFilter}
    (found : ctx.bloomFilters field index = some bloom) :
    ∃ source ∈ Source.all config, source.name = field ∧
      ∀ t ∈ events.filterMap source.observed, bloom.possiblyContains t = true := by
  rcases holds.blooms field bloom found with ⟨dim, named, present⟩ | ⟨extra, listed, named, rfl⟩
  · exact ⟨.fixed dim, Source.fixed_mem config dim, named,
      ((records.fixed dim).bloom bloom present).2.2⟩
  · have configured : extra.dimension ∈ config.extraDimensions :=
      records.dimensions ▸ mem_map_of_mem listed
    refine ⟨.extra extra.dimension, Source.extra_mem configured, named, ?_⟩
    rw [extra_texts]
    exact (records.extras extra listed).bloom.2

end

end Loaded

/-! ## Echoed events -/

section Echo

variable (search : MatchOp → String → String → Bool) (ctx : PrunerContext)
  (config : ChunkIndexerConfig) (index : Nat) (events : List DataEvent) (event : DataEvent)

/-- Every dimension recorded under this name carries a text of the event, and the
text satisfies `p`. -/
def observes (field : String) (p : String → Bool) : Bool :=
  (Source.all config).all fun source => source.name != field || (source.observed event).any p

/-- No event of the chunk carries an empty text for this field. -/
def noEmpty (field : String) : Bool :=
  (Source.all config).all fun source => source.name != field ||
    events.all fun event => source.observed event != some ""

/-- Recorded and literal text compare in the type of the dimension, and the
comparison of texts passes the test `p`. -/
def rangeEcho (field val : String) (p : Ordering → Bool) : Bool :=
  match ctx.dimStats index field with
  | none => true
  | some ds =>
    ds.valueType == .mixed || noEmpty config events field &&
      observes config event field fun t =>
        (!ds.valueType.isNumeric || (readKey t ds.valueType).isSome &&
          (readKey val ds.valueType).isSome) && p (compareValues t val ds.valueType)

/-- The Bloom filter is probed with the text recorded for the event. -/
def bloomEcho (field val : String) : Bool :=
  (ctx.bloomFilters field index).isNone ||
    observes config event field (· == val) &&
      ((ctx.resolveHashes field val).isEmpty || (ctx.resolveHashes field val).contains val)

/-- The histogram is asked for a range that contains the timestamp and is not cut
short by its exclusive end. -/
def histogramEcho (op : CompareOp) (val : String) : Bool :=
  (ctx.tsHistograms index).isNone ||
    match stoull val with
    | none => true
    | some n =>
      match op with
      | .gt => n < event.ts.toNat && n + 1 < 2 ^ 64 - 1
      | .ge => n ≤ event.ts.toNat && n < 2 ^ 64 - 1
      | .lt => event.ts.toNat < n
      | .le => event.ts.toNat ≤ n && n < 2 ^ 64 - 1
      | .eq | .ne => true

/-- A comparison the event satisfies keeps the chunk. -/
def mayEchoCompare (field : String) (op : CompareOp) (val : String) : Bool :=
  match op with
  | .eq =>
    field == "name" && ctx.db.isSome ||
      match ctx.dict index field with
      | some _ => observes config event field (· == val)
      | none =>
        (isFixedDimension field ||
          rangeEcho ctx config index events event field val (orderHolds .ge) &&
            rangeEcho ctx config index events event field val (orderHolds .le)) &&
          bloomEcho ctx config index event field val
  | .ne => (ctx.dict index field).isNone || observes config event field (· != val)
  | op =>
    rangeEcho ctx config index events event field val (orderHolds op) &&
      (field != "ts" || histogramEcho ctx index event op val)

/-- A list the event's value is in keeps the chunk. -/
def mayEchoIn (field : String) (values : List String) : Bool :=
  field == "name" && ctx.db.isSome ||
    values.any fun val =>
      match ctx.dict index field with
      | some _ => observes config event field (· == val)
      | none => bloomEcho ctx config index event field val

/-- A list the event's value is not in keeps the chunk. -/
def mayEchoNotIn (field : String) (values : List String) : Bool :=
  (ctx.dict index field).isNone || observes config event field (!values.contains ·)

/-- A leaf said to hold of every event holds of this one: the event carries the
field, and `holds` follows from the test on its text. -/
def allEchoDict (field : String) (test : String → Bool) (holds : Bool) : Bool :=
  (ctx.dict index field).isNone || observes config event field fun t => !test t || holds

def allEchoCompare (field : String) (op : CompareOp) (val : String) (holds : Bool) : Bool :=
  match op with
  | .eq => allEchoDict ctx config index event field (· == val) holds
  | .ne => allEchoDict ctx config index event field (· != val) holds
  | op =>
    rangeEcho ctx config index events event field val fun cmp => !orderHolds op cmp || holds

mutual

/-- A match of the query by the event keeps the chunk. -/
def mayEcho : QueryNode → Bool
  | .compare field op value =>
    mayEchoCompare ctx config index events event field.path op (literalToString value)
  | .isIn field values =>
    mayEchoIn ctx config index event field.path (values.map literalToString)
  | .notIn field values =>
    mayEchoNotIn ctx config index event field.path (values.map literalToString)
  | .matches _ _ _ _ => true
  | .and left right => mayEcho left && mayEcho right
  | .or left right =>
    evaluate search left event.toJson && mayEcho left ||
      evaluate search right event.toJson && mayEcho right
  | .not operand => allEcho operand

/-- The event matches the query when every event of the chunk is said to. -/
def allEcho : QueryNode → Bool
  | .compare field op value =>
    allEchoCompare ctx config index events event field.path op (literalToString value)
      (evaluate search (.compare field op value) event.toJson)
  | .isIn field values =>
    allEchoDict ctx config index event field.path
      (fun t => (values.map literalToString).contains t)
      (evaluate search (.isIn field values) event.toJson)
  | .notIn field values =>
    allEchoDict ctx config index event field.path
      (fun t => !(values.map literalToString).contains t)
      (evaluate search (.notIn field values) event.toJson)
  | .matches _ _ _ _ => true
  | .and left right => allEcho left && allEcho right
  | .or left right => allEcho left && allEcho right
  | .not operand => !evaluate search operand event.toJson || mayEcho operand

end

end Echo

/-! ## The leaves -/

/-- The name of a data event is a top-level string. -/
theorem resolveField_name (event : DataEvent) :
    resolveField event.toJson "name" = some (.string event.name) := by
  have found : event.toJson.atPath "name" = some (.string event.name) := by
    simp [DataEvent.toJson, JsonValue.atPath, JsonValue.walk, JsonValue.segmentStep,
      JsonValue.member]
  unfold resolveField
  rw [found]

section Leaves

variable {search : MatchOp → String → String → Bool} {ctx : PrunerContext}
  {config : ChunkIndexerConfig} {index : Nat} {chunk : ChunkState} {events : List DataEvent}
  {event : DataEvent}

variable {source : Source} {field : String} {p : String → Bool} {dict : AList fun _ : String => Nat}
  {n : Nat} {values : List String}

/-- An observation gives the text of any one recorded dimension of the name. -/
theorem text_of_observes
    (observed : observes config event field p = true) (listed : source ∈ Source.all config)
    (named : source.name = field) : ∃ t, source.observed event = some t ∧ p t = true := by
  have here := all_eq_true.mp observed source listed
  rw [named, bne_self_eq_false] at here
  exact (Option.any_eq_true _ _).mp here

theorem empty_notMem
    (none : noEmpty config events field = true) (listed : source ∈ Source.all config)
    (named : source.name = field) : "" ∉ events.reverse.filterMap source.observed := by
  intro present
  have here := all_eq_true.mp none source listed
  rw [named, bne_self_eq_false] at here
  obtain ⟨e, member, observed⟩ := mem_filterMap.mp present
  have absent := all_eq_true.mp here e (mem_reverse.mp member)
  exact bne_iff_ne.mp absent observed

theorem text_seen {t : String} (member : event ∈ events)
    (observed : source.observed event = some t) :
    t ∈ events.reverse.filterMap source.observed :=
  mem_filterMap.mpr ⟨event, mem_reverse.mpr member, observed⟩

variable {val : String}

/-- What an echo of a comparison says about the statistics of a context. -/
theorem rangeEcho_spec {p : Ordering → Bool} {ds : ChunkDimensionStats}
    (echo : rangeEcho ctx config index events event field val p = true)
    (found : ctx.dimStats index field = some ds) (unmixed : ds.valueType ≠ .mixed)
    (listed : source ∈ Source.all config) (named : source.name = field) :
    "" ∉ events.reverse.filterMap source.observed ∧ ∃ t, source.observed event = some t ∧
      Reads t ds.valueType ∧ Reads val ds.valueType ∧
      p (compareValues t val ds.valueType) = true := by
  unfold rangeEcho at echo
  simp only [found, Bool.or_eq_true, Bool.and_eq_true, beq_iff_eq] at echo
  obtain ⟨none, observed⟩ := echo.resolve_left unmixed
  obtain ⟨t, carried, test⟩ := text_of_observes observed listed named
  simp only [Bool.or_eq_true, Bool.and_eq_true] at test
  obtain ⟨reads, passed⟩ := test
  refine ⟨empty_notMem none listed named, t, carried, fun numeric => ?_, fun numeric => ?_, passed⟩
  · exact (reads.resolve_left (by simp [numeric])).1
  · exact (reads.resolve_left (by simp [numeric])).2

variable {op : CompareOp}

variable (holds : ctx.Holds index chunk) (records : chunk.Records config events.reverse)
  (member : event ∈ events)

include holds records member

/-- An echoed comparison passes `range_may_match`. -/
theorem rangeMayMatch_of_echo
    (echo : rangeEcho ctx config index events event field val (orderHolds op) = true) :
    rangeMayMatch (ctx.dimStats index field) op val = true := by
  cases found : ctx.dimStats index field with
  | none => rfl
  | some ds =>
    obtain ⟨source, listed, named, describes⟩ := holds.describes records found
    by_cases mixed : ds.valueType = .mixed
    · exact if_pos (describes.cleared mixed)
    · obtain ⟨nonempty, t, carried, readT, readVal, passed⟩ :=
        rangeEcho_spec echo found mixed listed named
      exact describes.rangeMayMatch_of (text_seen member carried) fun _ =>
        ⟨nonempty, readT, readVal, passed⟩

variable {result : Bool}

/-- `range_all_match` speaks for an echoed event. -/
theorem holds_of_rangeAllMatch (echo : rangeEcho ctx config index events event field val
      (fun cmp => !orderHolds op cmp || result) = true)
    (all : rangeAllMatch (ctx.dimStats index field) op val = true) : result = true := by
  cases found : ctx.dimStats index field with
  | none =>
    rw [found] at all
    exact absurd all Bool.false_ne_true
  | some ds =>
    rw [found] at all
    obtain ⟨source, listed, named, describes⟩ := holds.describes records found
    have unmixed : ds.valueType ≠ .mixed := by
      intro mixed
      have none : rangeAllMatch (some ds) op val = false :=
        if_pos (.inl (describes.cleared mixed).1)
      exact absurd (none.symm.trans all) Bool.false_ne_true
    obtain ⟨nonempty, t, carried, readT, readVal, passed⟩ :=
      rangeEcho_spec echo found unmixed listed named
    have ordered := describes.orderHolds_of_rangeAllMatch (text_seen member carried) nonempty
      readT readVal all
    rw [ordered] at passed
    exact passed

/-- A dictionary found in a context knows the text of an observed event. -/
theorem mem_dict (found : ctx.dict index field = some dict)
    (observed : observes config event field p = true) : ∃ t ∈ dict, p t = true := by
  obtain ⟨ds, stats, stored⟩ := bind_eq_some_iff.mp found
  obtain ⟨source, listed, named, describes⟩ := holds.describes records stats
  obtain ⟨t, carried, test⟩ := text_of_observes observed listed named
  exact ⟨t, (describes.counts dict stored t).mpr (text_seen member carried), test⟩

/-- An echoed probe hits the Bloom filter. -/
theorem bloomMayContain_of_echo (echo : bloomEcho ctx config index event field val = true) :
    ctx.bloomMayContain field index val = true := by
  have probed : ctx.bloomProbe field index val = true ∧
      ((ctx.bloomFilters field index).isNone = true ∨ ctx.resolveHashes field val = [] ∨
        val ∈ ctx.resolveHashes field val) := by
    unfold bloomEcho at echo
    simp only [Bool.or_eq_true, Bool.and_eq_true, List.isEmpty_iff, contains_iff_mem] at echo
    rcases echo with absent | ⟨observed, resolved⟩
    · refine ⟨?_, .inl absent⟩
      unfold PrunerContext.bloomProbe
      rw [isNone_iff_eq_none.mp absent]
    · refine ⟨?_, .inr resolved⟩
      unfold PrunerContext.bloomProbe
      cases found : ctx.bloomFilters field index with
      | none => rfl
      | some bloom =>
        obtain ⟨source, listed, named, held⟩ := holds.bloomHolds records found
        obtain ⟨t, carried, same⟩ := text_of_observes observed listed named
        have hit := held t (text_seen member carried)
        rwa [eq_of_beq same] at hit
  obtain ⟨hit, resolved⟩ := probed
  unfold PrunerContext.bloomMayContain
  cases hashes : ctx.resolveHashes field val with
  | nil => exact hit
  | cons first others =>
    rw [hashes] at resolved
    rcases resolved with absent | empty | among
    · simp only [any_cons, Bool.or_eq_true]
      left
      unfold PrunerContext.bloomProbe
      rw [isNone_iff_eq_none.mp absent]
    · exact absurd empty (cons_ne_nil _ _)
    · exact any_eq_true.mpr ⟨val, among, hit⟩

/-- An echoed comparison of the timestamp finds its bin. -/
theorem histogramHasEvents_of_echo (read : stoull val = some n)
    (echo : histogramEcho ctx index event op val = true) :
    histogramHasEvents (ctx.tsHistograms index) op n = true := by
  unfold histogramEcho at echo
  cases found : ctx.tsHistograms index with
  | none => rfl
  | some hist =>
    have held : hist.Holds event.ts.toNat := by
      rw [holds.histogram hist found]
      exact records.histogram event (mem_reverse.mpr member)
    have bound := event.ts.toNat_lt
    have top : TimestampHistogram.binIndex event.ts.toNat ≤
        TimestampHistogram.binIndex (2 ^ 64 - 1 - 1) := by
      unfold TimestampHistogram.binIndex
      omega
    simp only [found, read, isNone_some, Bool.false_or] at echo
    unfold histogramHasEvents
    simp only [Bool.or_eq_true]
    right
    cases op with
    | eq | ne => rfl
    | gt =>
      simp only [Bool.and_eq_true, decide_eq_true_eq] at echo ⊢
      rw [Nat.mod_eq_of_lt (by omega)]
      exact TimestampHistogram.countInRange_pos held echo.2 echo.1 top
    | ge =>
      simp only [Bool.and_eq_true, decide_eq_true_eq] at echo ⊢
      exact TimestampHistogram.countInRange_pos held echo.2 echo.1 top
    | lt =>
      simp only [decide_eq_true_eq] at echo ⊢
      exact TimestampHistogram.countInRange_pos held (by omega) (Nat.zero_le _)
        (Nat.div_le_div_right (by omega))
    | le =>
      simp only [Bool.and_eq_true, decide_eq_true_eq] at echo ⊢
      exact TimestampHistogram.countInRange_pos held (by omega) (Nat.zero_le _)
        (Nat.div_le_div_right (by omega))

/-- The postings of the index list the chunk under the name of each event. -/
theorem postings {db : IndexDatabase}
    (opened : ctx.db = some db) : ∃ id, db.nameId event.name = some id ∧
      db.fileHolds id = true ∧ index ∈ db.chunkPostings id :=
  holds.names db opened event.name (records.names event (mem_reverse.mpr member))

omit holds records member in
/-- A literal the name of an event is equal to has that name as its text. -/
theorem literalToString_of_name {literal : Literal} {name : String}
    (equal : compareValue (.string name) literal = some .eq) : literalToString literal = name := by
  cases literal with
  | string s =>
    have same : compare name s = .eq := Option.some.inj equal
    exact (compare_eq_iff_eq.mp same).symm
  | bool _ => exact nomatch equal
  | int64 _ | uint64 _ =>
    simp [compareValue, JsonValue.asInt, JsonValue.asUint, JsonValue.asDouble] at equal
  | double _ => simp [compareValue, JsonValue.asDouble] at equal

/-- An echoed comparison keeps its chunk. -/
theorem evalCompare_of_echo {field : FieldNode} {value : Literal}
    (satisfied : evaluate search (.compare field op value) event.toJson = true)
    (echo : mayEchoCompare ctx config index events event field.path op (literalToString value) =
      true) :
    index ∈ ctx.evalCompare field.path op (literalToString value) := by
  have byChunk : ctx.mayCompare field.path op (literalToString value) index = true →
      index ∈ ctx.allChunks.filter fun chunk =>
        ctx.mayCompare field.path op (literalToString value) chunk = true :=
    fun may => Finset.mem_filter.mpr ⟨holds.listed, may⟩
  by_cases named : field.path = "name" ∧ op = .eq ∧ ctx.db.isSome = true
  · obtain ⟨isName, rfl, opened⟩ := named
    obtain ⟨db, opened⟩ := isSome_iff_exists.mp opened
    unfold evaluate at satisfied
    rw [isName, resolveField_name] at satisfied
    dsimp only at satisfied
    have equal : compareValue (.string event.name) value = some .eq := by
      cases compared : compareValue (.string event.name) value with
      | none =>
        rw [compared] at satisfied
        exact absurd satisfied Bool.false_ne_true
      | some cmp =>
        rw [compared] at satisfied
        exact congrArg some (eq_of_beq satisfied)
    obtain ⟨id, known, present, posted⟩ := postings holds records member opened
    have nonempty : db.chunkPostings id ≠ ∅ := Finset.ne_empty_of_mem posted
    unfold PrunerContext.evalCompare
    rw [if_pos ⟨isName, rfl⟩, opened, literalToString_of_name equal]
    simp only [Option.bind_some, known, present, nonempty]
    exact posted
  · have noPostings : ctx.evalCompare field.path op (literalToString value) =
        ctx.allChunks.filter fun chunk =>
          ctx.mayCompare field.path op (literalToString value) chunk = true := by
      unfold PrunerContext.evalCompare
      by_cases here : field.path = "name" ∧ op = .eq
      · have closed : ctx.db = none := by
          cases opened : ctx.db with
          | none => rfl
          | some db => exact absurd ⟨here.1, here.2, by rw [opened]; rfl⟩ named
        rw [if_pos here, closed]
        rfl
      · rw [if_neg here]
        rfl
    rw [noPostings]
    apply byChunk
    have ordered : rangeEcho ctx config index events event field.path (literalToString value)
          (orderHolds op) = true →
        (field.path ≠ "ts" ∨ histogramEcho ctx index event op (literalToString value) = true) →
        (rangeMayMatch (ctx.dimStats index field.path) op (literalToString value) &&
          (field.path != "ts" || ctx.tsMayMatch op (literalToString value) index)) = true := by
      intro range histogram
      rw [Bool.and_eq_true]
      refine ⟨rangeMayMatch_of_echo holds records member range, ?_⟩
      rw [Bool.or_eq_true, bne_iff_ne]
      refine histogram.imp_right fun asked => ?_
      unfold PrunerContext.tsMayMatch
      cases read : stoull (literalToString value) with
      | none => rfl
      | some n => exact histogramHasEvents_of_echo holds records member read asked
    cases op with
    | eq =>
      simp only [mayEchoCompare, Bool.or_eq_true, Bool.and_eq_true, beq_iff_eq] at echo
      have echo := echo.resolve_left fun both => named ⟨both.1, rfl, both.2⟩
      unfold PrunerContext.mayCompare
      cases found : ctx.dict index field.path with
      | some dict =>
        rw [found] at echo
        obtain ⟨t, listed, same⟩ := mem_dict holds records member found echo
        rw [eq_of_beq same] at listed
        exact decide_eq_true listed
      | none =>
        rw [found] at echo
        simp only [Bool.or_eq_true, Bool.and_eq_true] at echo ⊢
        refine ⟨echo.1.imp_right fun ranges => ?_,
          bloomMayContain_of_echo holds records member echo.2⟩
        exact ⟨rangeMayMatch_of_echo holds records member ranges.1,
          rangeMayMatch_of_echo holds records member ranges.2⟩
    | ne =>
      unfold PrunerContext.mayCompare
      cases found : ctx.dict index field.path with
      | none => rfl
      | some dict =>
        simp only [mayEchoCompare, found] at echo
        obtain ⟨t, listed, differs⟩ := mem_dict holds records member found echo
        simp only [Bool.not_eq_true', Bool.and_eq_false_iff, decide_eq_false_iff_not]
        by_contra single
        rw [not_or, not_not, not_not] at single
        obtain ⟨only, same⟩ := single
        obtain ⟨key, keys⟩ := length_eq_one_iff.mp only
        rw [AList.mem_keys, keys, mem_singleton] at listed same
        exact bne_iff_ne.mp differs (listed.trans same.symm)
    | gt | lt | ge | le =>
      simp only [mayEchoCompare, Bool.and_eq_true, Bool.or_eq_true, bne_iff_ne] at echo
      exact ordered echo.1 echo.2

omit holds records member in
/-- The postings found for a list are those of its members. -/
theorem mem_named {found : Finset Nat}
    (listed : val ∈ values) (here : n ∈ (ctx.nameChunks val).getD ∅) :
    n ∈ values.foldl (fun found val => found ∪ (ctx.nameChunks val).getD ∅) found := by
  have keeps : ∀ (values : List String) (found : Finset Nat), n ∈ found →
      n ∈ values.foldl (fun found val => found ∪ (ctx.nameChunks val).getD ∅) found := by
    intro values
    induction values with
    | nil => exact fun _ present => present
    | cons head rest ih => exact fun found present => ih _ (Finset.mem_union_left _ present)
  induction values generalizing found with
  | nil => exact absurd listed not_mem_nil
  | cons head rest ih =>
    rcases mem_cons.mp listed with rfl | later
    · exact keeps rest _ (Finset.mem_union_right _ here)
    · exact ih later

/-- An echoed list keeps its chunk. -/
theorem evalIn_of_echo {field : FieldNode}
    {values : List Literal}
    (satisfied : evaluate search (.isIn field values) event.toJson = true)
    (echo : mayEchoIn ctx config index event field.path (values.map literalToString) = true) :
    index ∈ ctx.evalIn field.path (values.map literalToString) := by
  unfold PrunerContext.evalIn
  by_cases named : field.path = "name" ∧ ctx.db.isSome = true
  · obtain ⟨isName, opened⟩ := named
    obtain ⟨db, opened⟩ := isSome_iff_exists.mp opened
    unfold evaluate at satisfied
    rw [isName] at satisfied
    obtain ⟨literal, listed, equal⟩ := any_eq_true.mp satisfied
    have text := literalToString_of_name (eq_of_beq equal)
    obtain ⟨id, known, present, posted⟩ := postings holds records member opened
    have here : index ∈ (ctx.nameChunks event.name).getD ∅ := by
      unfold PrunerContext.nameChunks
      rw [opened]
      simp only [bind_eq_bind, Option.bind_some, known, present]
      exact posted
    have found : index ∈ (values.map literalToString).foldl
        (fun found val => found ∪ (ctx.nameChunks val).getD ∅) ∅ :=
      mem_named (text ▸ mem_map_of_mem listed) here
    simp only [isName, if_true]
    rw [if_pos (Finset.ne_empty_of_mem found)]
    exact found
  · have noPostings : (if field.path = "name" then
        (values.map literalToString).foldl
          (fun found val => found ∪ (ctx.nameChunks val).getD ∅) ∅ else ∅) = (∅ : Finset Nat) := by
      by_cases isName : field.path = "name"
      · have closed : ctx.db = none := by
          cases opened : ctx.db with
          | none => rfl
          | some db => exact absurd ⟨isName, by rw [opened]; rfl⟩ named
        rw [if_pos isName]
        have nothing : ∀ val, (ctx.nameChunks val).getD ∅ = ∅ := by
          intro val
          unfold PrunerContext.nameChunks
          rw [closed]
          rfl
        simp only [nothing, Finset.union_empty]
        exact foldl_fixed _
      · rw [if_neg isName]
    simp only [noPostings]
    refine Finset.mem_filter.mpr ⟨holds.listed, ?_⟩
    simp only [mayEchoIn, Bool.or_eq_true, Bool.and_eq_true, beq_iff_eq] at echo
    obtain ⟨val, listed, hit⟩ := any_eq_true.mp (echo.resolve_left named)
    refine any_eq_true.mpr ⟨val, listed, ?_⟩
    cases found : ctx.dict index field.path with
    | some dict =>
      rw [found] at hit
      obtain ⟨t, present, same⟩ := mem_dict holds records member found hit
      rw [eq_of_beq same] at present
      exact decide_eq_true present
    | none =>
      rw [found] at hit
      exact bloomMayContain_of_echo holds records member hit

/-- An echoed exclusion keeps its chunk. -/
theorem evalNotIn_of_echo (echo : mayEchoNotIn ctx config index event field values = true) :
    index ∈ ctx.evalNotIn field values := by
  refine Finset.mem_filter.mpr ⟨holds.listed, ?_⟩
  cases found : ctx.dict index field with
  | none => rfl
  | some dict =>
    simp only [mayEchoNotIn, found] at echo
    obtain ⟨t, listed, outside⟩ := mem_dict holds records member found echo
    simp only [Bool.not_eq_true']
    exact all_eq_false.mpr ⟨t, AList.mem_keys.mp listed, by simpa using outside⟩

/-- A dictionary test that speaks for all texts speaks for an echoed event. -/
theorem holds_of_dict {test : String → Bool}
    (echo : allEchoDict ctx config index event field test result = true)
    (found : ctx.dict index field = some dict) (all : ∀ t ∈ dict, test t = true) :
    result = true := by
  simp only [allEchoDict, found] at echo
  obtain ⟨t, listed, follows⟩ := mem_dict holds records member found echo
  rw [all t listed] at follows
  exact follows

/-- A comparison said to hold everywhere holds of an echoed event. -/
theorem holds_of_allMatchCompare
    (echo : allEchoCompare ctx config index events event field op val result = true)
    (all : index ∈ ctx.allMatchCompare field op val) : result = true := by
  have all := (Finset.mem_filter.mp all).2
  cases op with
  | eq =>
    obtain ⟨dict, found, single⟩ := (Option.any_eq_true _ _).mp all
    simp only [Bool.and_eq_true, decide_eq_true_eq] at single
    obtain ⟨key, keys⟩ := length_eq_one_iff.mp single.1
    refine holds_of_dict holds records member echo found fun t listed => beq_iff_eq.mpr ?_
    have here := single.2
    rw [AList.mem_keys, keys, mem_singleton] at listed here
    exact listed.trans here.symm
  | ne =>
    obtain ⟨dict, found, lacks⟩ := (Option.any_eq_true _ _).mp all
    refine holds_of_dict holds records member echo found fun t listed => bne_iff_ne.mpr ?_
    rintro rfl
    exact of_decide_eq_true lacks listed
  | gt | lt | ge | le => exact holds_of_rangeAllMatch holds records member echo all

/-- A list said to hold everywhere holds of an echoed event. -/
theorem holds_of_allMatchIn {wantIn : Bool}
    (echo : allEchoDict ctx config index event field (fun t => values.contains t == wantIn)
      result = true) (all : index ∈ ctx.allMatchIn field values wantIn) : result = true := by
  obtain ⟨dict, found, every⟩ := (Option.any_eq_true _ _).mp (Finset.mem_filter.mp all).2
  simp only [Bool.and_eq_true] at every
  refine holds_of_dict holds records member echo found fun t listed => ?_
  exact all_eq_true.mp every.2 t (AList.mem_keys.mp listed)

/-- The two sets are sound on an echoed event, together by induction on the
query: a negation turns one into the other. -/
theorem sound (node : QueryNode) :
    (evaluate search node event.toJson = true →
        mayEcho search ctx config index events event node = true →
        index ∈ ctx.evaluateNode node) ∧
      (index ∈ ctx.evaluateAllMatch node →
        allEcho search ctx config index events event node = true →
        evaluate search node event.toJson = true) := by
  induction node with
  | compare field op value =>
    refine ⟨fun satisfied echo => ?_, fun all echo => ?_⟩
    · exact evalCompare_of_echo holds records member satisfied echo
    · exact holds_of_allMatchCompare holds records member echo all
  | isIn field values =>
    refine ⟨fun satisfied echo => ?_, fun all echo => ?_⟩
    · exact evalIn_of_echo holds records member satisfied echo
    · refine holds_of_allMatchIn holds records member ?_ all
      simpa only [allEcho, beq_true] using echo
  | notIn field values =>
    refine ⟨fun _ echo => ?_, fun all echo => ?_⟩
    · exact evalNotIn_of_echo holds records member echo
    · refine holds_of_allMatchIn holds records member ?_ all
      simpa only [allEcho, beq_false] using echo
  | «matches» field op pattern negated =>
    refine ⟨fun _ _ => holds.listed, fun all _ => ?_⟩
    exact absurd all (Finset.notMem_empty _)
  | and left right ihl ihr =>
    refine ⟨fun satisfied echo => ?_, fun all echo => ?_⟩
    · obtain ⟨onLeft, onRight⟩ := Bool.and_eq_true_iff.mp satisfied
      obtain ⟨echoLeft, echoRight⟩ := Bool.and_eq_true_iff.mp echo
      exact Finset.mem_inter.mpr ⟨ihl.1 onLeft echoLeft, ihr.1 onRight echoRight⟩
    · obtain ⟨inLeft, inRight⟩ := Finset.mem_inter.mp all
      obtain ⟨echoLeft, echoRight⟩ := Bool.and_eq_true_iff.mp echo
      exact Bool.and_eq_true_iff.mpr ⟨ihl.2 inLeft echoLeft, ihr.2 inRight echoRight⟩
  | or left right ihl ihr =>
    refine ⟨fun _ echo => ?_, fun all echo => ?_⟩
    · rcases Bool.or_eq_true_iff.mp echo with onLeft | onRight
      · obtain ⟨satisfied, echoLeft⟩ := Bool.and_eq_true_iff.mp onLeft
        exact Finset.mem_union_left _ (ihl.1 satisfied echoLeft)
      · obtain ⟨satisfied, echoRight⟩ := Bool.and_eq_true_iff.mp onRight
        exact Finset.mem_union_right _ (ihr.1 satisfied echoRight)
    · obtain ⟨echoLeft, echoRight⟩ := Bool.and_eq_true_iff.mp echo
      rcases Finset.mem_union.mp all with inLeft | inRight
      · exact Bool.or_eq_true_iff.mpr (.inl (ihl.2 inLeft echoLeft))
      · exact Bool.or_eq_true_iff.mpr (.inr (ihr.2 inRight echoRight))
  | not operand ih =>
    refine ⟨fun satisfied echo => ?_, fun all echo => ?_⟩
    · refine Finset.mem_sdiff.mpr ⟨holds.listed, fun all => ?_⟩
      have operandHolds := ih.2 all echo
      unfold evaluate at satisfied
      rw [operandHolds] at satisfied
      exact absurd satisfied (by decide)
    · unfold evaluate
      rw [Bool.not_eq_true']
      by_contra operandHolds
      rw [Bool.not_eq_false] at operandHolds
      unfold allEcho at echo
      rw [operandHolds] at echo
      exact (Finset.mem_sdiff.mp all).2 (ih.1 operandHolds echo)

end Leaves

/-- A read of five microseconds on host `a`. -/
def hosted : DataEvent where
  name := "read"
  cat := "POSIX"
  pid := 1
  tid := 1
  ts := 10
  dur := some 5
  hhash := some "a"
  fhash := none
  args := []
  rest := []
  distinct := List.nodup_nil
  apart := ⟨List.not_mem_nil, List.not_mem_nil⟩
  restApart := fun _ listed => absurd listed List.not_mem_nil

/-- The same read, on a host that was not recorded. -/
def unhosted : DataEvent := { hosted with hhash := none }

def recordedChunk (events : List DataEvent) : Option ChunkState :=
  ChunkState.record (fun _ _ => 0) ⟨[], 1⟩ events

def noSearch : MatchOp → String → String → Bool := fun _ _ _ => false

def durAbove (bound : Int64) : QueryNode :=
  .compare ⟨"dur", by decide⟩ .gt (.int64 bound)

def onHost (host : String) : QueryNode :=
  .compare ⟨"hhash", by decide⟩ .eq (.string host)

section Main

variable {search : MatchOp → String → String → Bool} {estimate : Nat → Nat → Nat}
  {config : ChunkIndexerConfig} {events : List DataEvent} {chunk : ChunkState}
  {ctx : PrunerContext} {index : Nat}

end Main

end DFTracer.Indexing
