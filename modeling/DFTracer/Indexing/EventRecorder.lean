/-
# Recording any event

An event file holds records of any shape. A record is taken up when it is an object with a phase,
its fields are read with defaults, and a later member of the same name replaces an earlier one.
Metadata records are left out. What a fixed dimension records of the others is a text, and equal
ends of the dimension say that all recorded texts are the same.
-/

import DFTracer.Indexing.ChunkRecorder
import DFTracer.Query.Evaluator

namespace DFTracer.Indexing

open DFTracer.Query List

/-- `RecordPhase`. -/
inductive RecordPhase where
  | unknown
  | complete
  | counter
  | aggregated
  | metadata
deriving DecidableEq

/-- `phase_from_int`. -/
def phaseFromInt : Nat → RecordPhase
  | 1 => .complete
  | 2 => .counter
  | 3 => .aggregated
  | 4 => .metadata
  | _ => .unknown

/-- `phase_from_letter`. -/
def phaseFromLetter (letter : String) : RecordPhase :=
  if letter = "X" then .complete
  else if letter = "C" then .counter
  else if letter = "A" then .aggregated
  else if letter = "M" then .metadata
  else .unknown

/-- `read_phase`: the number of the current form or the letter of the old one. -/
def readPhase (value : JsonValue) : RecordPhase :=
  match value.asUint with
  | some n => phaseFromInt n
  | none =>
    match value with
    | .string letter => phaseFromLetter letter
    | _ => .unknown

/-- `get<std::uint64_t>`, zero by default. -/
def getUint (value : JsonValue) : UInt64 := .ofNat (value.asUint.getD 0)

/-- `get<std::string_view>`, empty by default. -/
def getString : JsonValue → String
  | .string s => s
  | _ => ""

/-- The fields of a record that the fixed dimensions read. -/
structure FoldEvent where
  phase : RecordPhase := .unknown
  hasPhase : Bool := false
  name : String := ""
  cat : String := ""
  pid : UInt64 := 0
  tid : UInt64 := 0
  ts : UInt64 := 0
  dur : UInt64 := 0
  args : List (String × JsonValue) := []

namespace FoldEvent

/-- One member in `DFTracerEvent::parse`. -/
def readMember (event : FoldEvent) (member : String × JsonValue) : FoldEvent :=
  match member.1 with
  | "ph" => { event with phase := readPhase member.2, hasPhase := true }
  | "ts" => { event with ts := getUint member.2 }
  | "pid" => { event with pid := getUint member.2 }
  | "tid" => { event with tid := getUint member.2 }
  | "cat" => { event with cat := getString member.2 }
  | "dur" => { event with dur := getUint member.2 }
  | "name" => { event with name := getString member.2 }
  | "args" =>
    match member.2 with
    | .object members => { event with args := members }
    | _ => event
  | _ => event

/-- `DFTracerEvent::parse`: nothing for a record that is no object or has no phase. -/
def parse : JsonValue → Option FoldEvent
  | .object members =>
    let event := members.foldl readMember {}
    if event.hasPhase then some event else none
  | _ => none

/-- A hash of `args`: the last member of the name, empty when it is no string. -/
def hash (event : FoldEvent) (key : String) : String :=
  match event.args.findRev? (·.1 == key) with
  | some (_, value) => getString value
  | none => ""

/-- The strings that `args` holds under a name. -/
def strings (event : FoldEvent) (key : String) : List String :=
  event.args.filterMap fun
    | (name, .string s) => if name = key then some s else none
    | _ => none

/-- The string hash of an event: that of its command, else the first one of its
executable. -/
def shash (event : FoldEvent) : String :=
  (event.strings "cmd_hash").head?.getD (((event.strings "exec_hash").find? (· ≠ "")).getD "")

/-- The text a dimension with a dictionary takes on a record, empty when there is none. -/
def text (event : FoldEvent) : FixedDim → String
  | .name => event.name
  | .cat => event.cat
  | .pid => toString event.pid.toNat
  | .tid => toString event.tid.toNat
  | .pidTid => toString event.pid.toNat ++ ":" ++ toString event.tid.toNat
  | .hhash => event.hash "hhash"
  | .fhash => event.hash "fhash"
  | .shash => event.shash
  | .ts | .dur => ""

/-- The number a range-only dimension takes on a record. -/
def number (event : FoldEvent) : FixedDim → UInt64
  | .ts => event.ts
  | .dur => event.dur
  | _ => 0

/-- The text recorded for a record, nothing when it is skipped. -/
def recorded (event : FoldEvent) (dim : FixedDim) : Option String :=
  if dim.hasDictionary then if event.text dim = "" then none else some (event.text dim)
  else some (toString (event.number dim).toNat)

end FoldEvent

/-- The records that are observed: those that parse and are no metadata. -/
def dataRecord (value : JsonValue) : Option FoldEvent :=
  (FoldEvent.parse value).filter fun event => event.phase ≠ .metadata

namespace FixedDim

/-- What `observe_data` does with one record in one dimension. -/
def observe (dim : FixedDim) (stats : ChunkDimensionStats) (event : FoldEvent) : ChunkDimensionStats :=
  if dim.hasDictionary then if event.text dim = "" then stats else stats.observe (event.text dim)
  else stats.observeRangeOnly (event.number dim).toNat

/-- The statistics of a dimension over the records of a chunk. -/
def record (dim : FixedDim) (events : List JsonValue) : ChunkDimensionStats :=
  (events.filterMap dataRecord).foldl dim.observe (.empty dim.valueType)

/-- The dimension after some records. -/
structure Knows (dim : FixedDim) (stats : ChunkDimensionStats) (events : List FoldEvent) : Prop where
  type : stats.valueType = dim.valueType
  dictionary : dim.hasDictionary = true → stats.Dictionary (events.filterMap (·.recorded dim))
  range : dim.hasDictionary = false →
    Ends .uint stats.minValue stats.maxValue (events.filterMap (·.recorded dim))

variable {dim : FixedDim} {event : FoldEvent} {t val : String}

theorem fixedText_recorded
    (has : dim.hasDictionary = true) (recorded : event.recorded dim = some t) :
    ChunkDimensionStats.FixedText dim.valueType t := by
  unfold FoldEvent.recorded at recorded
  rw [if_pos has] at recorded
  obtain ⟨present, same⟩ := Option.ite_none_left_eq_some.mp recorded
  cases Option.some.inj same
  refine ⟨present, ?_⟩
  cases dim with
  | pid => exact .inr ⟨rfl, _, event.pid.toNat_lt, rfl⟩
  | tid => exact .inr ⟨rfl, _, event.tid.toNat_lt, rfl⟩
  | ts | dur => exact absurd has (by decide)
  | _ => exact .inl rfl

theorem knows_empty (dim : FixedDim) : dim.Knows (.empty dim.valueType) [] where
  type := rfl
  dictionary := fun _ => ChunkDimensionStats.dictionary_empty _
  range := fun _ => Ends.empty _

theorem Knows.observe {stats : ChunkDimensionStats} {events : List FoldEvent}
    (knows : dim.Knows stats events) (event : FoldEvent) :
    dim.Knows (dim.observe stats event) (event :: events) := by
  unfold FixedDim.observe
  cases has : dim.hasDictionary with
  | true =>
    rw [if_pos rfl]
    by_cases empty : event.text dim = ""
    · have skipped : event.recorded dim = none := by
        unfold FoldEvent.recorded
        rw [if_pos has, if_pos empty]
      rw [if_pos empty]
      refine ⟨knows.type, fun _ => ?_, fun lacks => absurd (has.symm.trans lacks) (by decide)⟩
      have same : (event :: events).filterMap (·.recorded dim) = events.filterMap (·.recorded dim) :=
        filterMap_cons_none skipped
      rw [same]
      exact knows.dictionary has
    · have recorded : event.recorded dim = some (event.text dim) := by
        unfold FoldEvent.recorded
        rw [if_pos has, if_neg empty]
      rw [if_neg empty]
      refine ⟨?_, fun _ => ?_, fun lacks => absurd (has.symm.trans lacks) (by decide)⟩
      · rw [ChunkDimensionStats.valueType_observe]
        exact knows.type
      · have texts : (event :: events).filterMap (·.recorded dim) =
            event.text dim :: events.filterMap (·.recorded dim) := filterMap_cons_some recorded
        rw [texts]
        refine (knows.dictionary has).observe fun t listed => ?_
        rw [knows.type]
        rcases mem_cons.mp listed with rfl | earlier
        · exact fixedText_recorded has recorded
        · obtain ⟨other, _, seen⟩ := mem_filterMap.mp earlier
          exact fixedText_recorded has seen
  | false =>
    have recorded : ∀ other : FoldEvent,
        other.recorded dim = some (toString (other.number dim).toNat) := by
      intro other
      unfold FoldEvent.recorded
      rw [if_neg (by simp [has])]
    rw [if_neg (by decide)]
    refine ⟨?_, fun has' => absurd (has'.symm.trans has) (by decide), fun _ => ?_⟩
    · rw [← knows.type]
      unfold ChunkDimensionStats.observeRangeOnly
      split <;> rfl
    · have texts : (event :: events).filterMap (·.recorded dim) =
          toString (event.number dim).toNat :: events.filterMap (·.recorded dim) :=
        filterMap_cons_some (recorded event)
      rw [texts]
      refine ChunkDimensionStats.ends_observeRangeOnly (knows.range has) (fun t listed => ?_)
        (event.number dim).toNat_lt
      obtain ⟨other, _, seen⟩ := mem_filterMap.mp listed
      rw [recorded other] at seen
      exact ⟨_, (other.number dim).toNat_lt, (Option.some.inj seen).symm⟩

/-- A whole chunk is observed. -/
theorem knows_record (dim : FixedDim) (events : List JsonValue) :
    dim.Knows (dim.record events) (events.filterMap dataRecord).reverse := by
  have run : ∀ (later seen : List FoldEvent) (stats : ChunkDimensionStats), dim.Knows stats seen →
      dim.Knows (later.foldl dim.observe stats) (later.reverse ++ seen) := by
    intro later
    induction later with
    | nil => exact fun _ _ knows => knows
    | cons event later ih =>
      intro seen stats knows
      rw [reverse_cons, append_assoc]
      exact ih (event :: seen) _ (knows.observe event)
  have knows := run (events.filterMap dataRecord) [] _ dim.knows_empty
  rwa [append_nil] at knows

theorem eq_of_ends {type : ValueType} {seen : List String} (ends : Ends type val val seen)
    (kind : ∀ t ∈ seen, type.isNumeric = false ∨ type = .uint ∧ Printed t .uint)
    (listed : t ∈ seen) : t = val := by
  obtain ⟨present, below⟩ := ends.low_le t listed
  obtain ⟨-, above⟩ := ends.le_high t listed
  have first := ends.low_seen present
  rcases kind t listed with text | ⟨rfl, n, fits, rfl⟩
  · unfold TextLe at below above
    rw [if_neg (by simp [text])] at below above
    exact String.le_antisymm above below
  · rcases kind val first with text | ⟨-, m, fits', rfl⟩
    · exact absurd text (by decide)
    · have up := below _ _ (readKey_uint fits') (readKey_uint fits)
      have down := above _ _ (readKey_uint fits) (readKey_uint fits')
      rw [show n = m by omega]

/-- Equal ends of a dimension: every text it recorded is that end. -/
theorem recorded_eq_of_uniform {events : List JsonValue}
    (low : (dim.record events).minValue = val) (high : (dim.record events).maxValue = val)
    {value : JsonValue} (listed : value ∈ events)
    (data : dataRecord value = some event) (recorded : event.recorded dim = some t) :
    t = val := by
  have knows := dim.knows_record events
  have seen : t ∈ ((events.filterMap dataRecord).reverse).filterMap (·.recorded dim) :=
    mem_filterMap.mpr
      ⟨event, mem_reverse.mpr (mem_filterMap.mpr ⟨value, listed, data⟩), recorded⟩
  cases has : dim.hasDictionary with
  | true =>
    have ends := (knows.dictionary has).ends
    rw [low, high, knows.type] at ends
    refine eq_of_ends ends (fun s listed => ?_) seen
    obtain ⟨other, _, recorded⟩ := mem_filterMap.mp listed
    rcases (fixedText_recorded has recorded).2 with string | ⟨uint, printed⟩
    · exact .inl (by rw [string]; rfl)
    · exact .inr ⟨uint, printed⟩
  | false =>
    have ends := knows.range has
    rw [low, high] at ends
    refine eq_of_ends ends (fun s listed => ?_) seen
    obtain ⟨other, _, recorded⟩ := mem_filterMap.mp listed
    unfold FoldEvent.recorded at recorded
    rw [if_neg (by simp [has])] at recorded
    exact .inr ⟨rfl, _, (other.number dim).toNat_lt, (Option.some.inj recorded).symm⟩

end FixedDim

end DFTracer.Indexing
