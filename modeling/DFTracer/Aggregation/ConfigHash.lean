/-
# The hash of a configuration

Cached rows are taken over when the hash of the configuration that made them is the one asked
for. What is fed to the hash is the configuration's settings one after the other, lists and
texts without their lengths: two configurations can feed the same bytes and aggregate
differently, where their lists of names cut the same text at different places.
-/

import DFTracer.Aggregation.AssociationHistory
import DFTracer.Aggregation.ConfigEffect
import DFTracer.Math.FloatExtremes

namespace DFTracer.Aggregation

open List
open AggregationMetrics (isDefaultArg)
open AssociationTracker hiding extract
open Flame (put put_length littleEndian littleEndian_put)

/-- A configuration with all that `compute_hash` reads. -/
structure HashedConfig extends AggregationConfig where
  computeStatistics : Bool := true
  percentiles : List Float := [0.25, 0.5, 0.75, 0.90]
  boundaryEvents : List BoundaryEventConfig := []
  trackProcessParents : Bool := true
  /-- A vector holds fewer names. -/
  fields_lt : customMetricFields.length < 2 ^ 64

namespace HashedConfig

instance : Coe HashedConfig AggregationConfig := ⟨toAggregationConfig⟩

def tracker (c : HashedConfig) : TrackerConfig where
  trackProcessParents := c.trackProcessParents
  boundaryEvents := c.boundaryEvents

/-- A `uint64_t` as it lies in memory. -/
def word (v : UInt64) : Bytes := put 8 v.toNat

def double (v : Float) : Bytes := word v.toBits

def flag (b : Bool) : Bytes := [if b then 1 else 0]

def boundaryTexts (be : BoundaryEventConfig) : Bytes :=
  be.eventName ++ be.valueField ++ be.outputName

/-- The flags and the percentiles. -/
def settings (c : HashedConfig) : Bytes :=
  flag c.trackDefaultArgs ++ flag c.computeStatistics ++ flag c.computePercentiles
    ++ flag c.groupByFile
    ++ if c.computePercentiles then double c.sketchAccuracy ++ c.percentiles.flatMap double else []

/-- The names, the flags, the percentiles and the texts of the boundary events. -/
def listed (c : HashedConfig) : Bytes :=
  c.extraGroupKeys.flatten ++ c.customMetricFields.flatten ++ c.settings
    ++ c.boundaryEvents.flatMap boundaryTexts

/-- The bytes that `compute_hash` feeds. -/
def fed (c : HashedConfig) : Bytes :=
  word c.timeIntervalUs ++ flag c.useRelativeTime
    ++ (if c.useRelativeTime then word c.referenceTimestamp else [])
    ++ c.listed ++ flag c.trackProcessParents

/-- `Fnv1aHashBuilder` -/
def computeHash (c : HashedConfig) : UInt32 :=
  let state := fnv1aHash c.fed
  (state ^^^ (state >>> 32)).toUInt32

end HashedConfig

/-- What is stored for events: the metrics of the keys and of the gauges, and the tracker. -/
structure StoredAggregation where
  rows : AggregationKey → Option StoredMetrics
  gauges : SystemKey → Option StoredGauges
  associations : AssociationTracker

namespace HashedConfig

def aggregates (c : HashedConfig) (events : List FoldEvent) : StoredAggregation where
  rows key := ((foldSlice c events).localBuffer.lookup key).map
    AggregationMetrics.stored
  gauges key := ((foldSlice c events).systemBuffer.lookup key).map
    SystemAggregationMetrics.stored
  associations := feed c.tracker events

/-- Two configurations whose fixed settings agree and whose names, flags, percentiles and
boundary texts are the same bytes when they are read on without a break. -/
structure RunTogether (c c' : HashedConfig) : Prop where
  timeIntervalUs : c.timeIntervalUs = c'.timeIntervalUs
  useRelativeTime : c.useRelativeTime = c'.useRelativeTime
  referenceTimestamp : c.useRelativeTime = true → c.referenceTimestamp = c'.referenceTimestamp
  listed : c.listed = c'.listed
  trackProcessParents : c.trackProcessParents = c'.trackProcessParents

/-- The lists of names that come to the same: the same keys in the same order, the same custom
fields equally often, and for each event name the same boundaries in the same order. -/
structure SameLists (c c' : HashedConfig) : Prop where
  extraGroupKeys : c.extraGroupKeys = c'.extraGroupKeys
  customMetricFields : c.customMetricFields.Perm c'.customMetricFields
  boundaryEvents : ∀ name, c.boundaryEvents.filter (·.eventName = name)
    = c'.boundaryEvents.filter (·.eventName = name)

end HashedConfig

namespace HashedConfig

variable {c c' : HashedConfig} {fields : List Bytes} {k : Bytes}

theorem word_inj {v w : UInt64} (same : word v = word w) : v = w := by
  have read := congrArg littleEndian same
  rw [word, word, littleEndian_put 8 _ v.toNat_lt, littleEndian_put 8 _ w.toNat_lt] at read
  exact UInt64.toNat_inj.mp read

theorem word_length (v w : UInt64) : (word v).length = (word w).length :=
  (put_length ..).trans (put_length ..).symm

theorem double_inj {v w : Float} (same : double v = double w) : v = w := by
  rw [← Math.Float64.ofBits_toBits v, word_inj same, Math.Float64.ofBits_toBits]

theorem flag_inj {a b : Bool} (same : flag a = flag b) : a = b := by
  cases a <;> cases b
  · rfl
  · cases same
  · cases same
  · rfl

/-- The bytes that are fed are the same when nothing but breaks differs. -/
theorem fed_eq_iff : c.fed = c'.fed ↔ RunTogether c c' := by
  constructor
  · intro same
    obtain ⟨front, last⟩ := append_inj' same rfl
    simp only [append_assoc] at front
    obtain ⟨interval, front⟩ := append_inj front (word_length ..)
    obtain ⟨relative, front⟩ := append_inj front rfl
    have relative := flag_inj relative
    rw [← relative] at front
    by_cases used : c.useRelativeTime = true
    · rw [if_pos used, if_pos used] at front
      obtain ⟨reference, listed⟩ := append_inj front (word_length ..)
      exact ⟨word_inj interval, relative, fun _ => word_inj reference, listed, flag_inj last⟩
    · rw [if_neg used, if_neg used] at front
      exact ⟨word_inj interval, relative, fun h => absurd h used, front, flag_inj last⟩
  · intro h
    unfold fed
    rw [h.timeIntervalUs, ← h.useRelativeTime, h.listed, h.trackProcessParents]
    by_cases used : c.useRelativeTime = true
    · rw [h.referenceTimestamp used]
    · rw [if_neg used, if_neg used]

/-- Boundaries of other names leave the tracker alone. -/
theorem extractBoundaries (ev : FoldEvent) (l : List BoundaryEventConfig) (t : AssociationTracker) :
    l.foldl (extractBoundary ev) t
      = (l.filter (·.eventName = ev.name)).foldl (extractBoundary ev) t := by
  induction l generalizing t with
  | nil => rfl
  | cons b l ih =>
    by_cases named : b.eventName = ev.name
    · rw [filter_cons_of_pos (by simpa using named), foldl_cons, foldl_cons, ih]
    · have skipped : extractBoundary ev t b = t := if_pos (Ne.symm named)
      rw [filter_cons_of_neg (by simpa using named), foldl_cons, skipped, ih]

namespace SameLists

variable (h : SameLists c c')

include h

/-- Boundaries that agree for every event name are the same ones. -/
theorem boundaries_perm : c.boundaryEvents.Perm c'.boundaryEvents := by
  classical
  rw [perm_iff_count]
  intro b
  have own (l : List BoundaryEventConfig) :
      count b (l.filter fun x => x.eventName = b.eventName) = count b l := count_filter (by simp)
  rw [← own, h.boundaryEvents, own]

section

variable (run : RunTogether c c')

include run

/-- With the same lists the settings between them are the same bytes. -/
theorem settings_eq : c.settings = c'.settings := by
  have fields : c.customMetricFields.flatten.length = c'.customMetricFields.flatten.length := by
    rw [length_flatten, length_flatten]
    exact (h.customMetricFields.map length).sum_eq
  have texts : (c.boundaryEvents.flatMap boundaryTexts).length
      = (c'.boundaryEvents.flatMap boundaryTexts).length :=
    (h.boundaries_perm.flatMap_right boundaryTexts).length_eq
  have listed := (append_inj' run.listed texts).1
  rw [h.extraGroupKeys, append_assoc, append_assoc] at listed
  exact (append_inj (append_cancel_left listed) fields).2

theorem sameEffect :
    SameEffect (c : AggregationConfig) c' := by
  have settings := h.settings_eq run
  unfold HashedConfig.settings at settings
  simp only [append_assoc] at settings
  obtain ⟨defaults, settings⟩ := append_inj settings rfl
  obtain ⟨-, settings⟩ := append_inj settings rfl
  obtain ⟨percentiles, settings⟩ := append_inj settings rfl
  obtain ⟨byFile, settings⟩ := append_inj settings rfl
  have percentiles := flag_inj percentiles
  refine ⟨run.timeIntervalUs, run.useRelativeTime, run.referenceTimestamp, flag_inj byFile,
    h.extraGroupKeys, h.customMetricFields, flag_inj defaults, percentiles, fun kept => ?_⟩
  rw [← percentiles, if_pos kept, if_pos kept] at settings
  exact double_inj (append_inj settings (word_length ..)).1

theorem feed_eq (events : List FoldEvent) :
    feed c.tracker events = feed c'.tracker events := by
  have step (t : AssociationTracker) (ev : FoldEvent) :
      AssociationTracker.extract c.tracker t ev = AssociationTracker.extract c'.tracker t ev := by
    have parents : c.tracker.trackProcessParents = c'.tracker.trackProcessParents :=
      run.trackProcessParents
    have boundaries : c.tracker.boundaryEvents.filter (·.eventName = ev.name)
        = c'.tracker.boundaryEvents.filter (·.eventName = ev.name) := h.boundaryEvents ev.name
    unfold AssociationTracker.extract extractFork extractPid
    rw [extractBoundaries, boundaries, ← extractBoundaries, parents]
  unfold feed feedFrom
  congr 1
  funext t ev
  exact step t ev

/-- With the same lists and the same bytes everything is aggregated the same way. -/
theorem aggregates_eq (events : List FoldEvent) :
    c.aggregates events = c'.aggregates events := by
  have same := SameState.foldSlice (h.sameEffect run) events
  unfold aggregates
  congr 1
  · funext key
    exact same.localBuffer.map_eq (fun _ _ => SameRow.stored) key
  · funext key
    exact same.systemBuffer.map_eq (fun _ _ => SameGauges.stored) key
  · exact h.feed_eq run events

end

end SameLists

/-! ## What the same outcome says of the lists

One event tells the extra keys apart, one the custom fields of a name, one the boundaries of
an event name. -/

/-- An event that is folded goes under the same key and makes the same row. -/
theorem row_of_aggregates {ev : FoldEvent} (same : c.aggregates [ev] = c'.aggregates [ev])
    (folded : aggregated ev = true) :
    keyOf c ev = keyOf c' ev
      ∧ (((AggregationMetrics.new c.sketchAccuracy).applyEvent c ev).stored
        = ((AggregationMetrics.new c'.sketchAccuracy).applyEvent c' ev).stored) := by
  have rows := congrFun (congrArg StoredAggregation.rows same) (keyOf c ev)
  have own : rowEvents c (keyOf c ev) [ev] = [ev] := by
    simp [rowEvents, folded]
  change Option.map _ _ = Option.map _ _ at rows
  rw [lookup_foldSlice, lookup_foldSlice, own] at rows
  by_cases key : keyOf c' ev = keyOf c ev
  · have other : rowEvents c' (keyOf c ev) [ev] = [ev] := by
      simp [rowEvents, folded, key]
    rw [other] at rows
    exact ⟨key.symm, Option.some.inj rows⟩
  · have other : rowEvents c' (keyOf c ev) [ev] = [] := by
      simp [rowEvents, key]
    rw [other] at rows
    cases rows

/-- An event in which every one of some fields has a text of its own. -/
def named (name : Bytes) (fields : List Bytes) : FoldEvent where
  name := name
  hhash := some (118 :: text "hhash")
  fhash := some (118 :: text "fhash")
  args := fields.map fun k => (k, .string (118 :: k))

theorem argString_named (name : Bytes) (mem : k ∈ fields) :
    (named name fields).argString k = 118 :: k := by
  have found : (fields.map fun k => (k, ArgValue.string (118 :: k))).lookup k
      = some (.string (118 :: k)) := by
    induction fields with
    | nil => cases mem
    | cons field fields ih =>
      rw [map_cons, lookup_cons]
      by_cases first : k = field
      · rw [first, beq_self_eq_true]
      · rw [beq_false_of_ne first]
        exact ih ((mem_cons.mp mem).resolve_left first)
  unfold FoldEvent.argString
  split_ifs with hhash fhash
  · rw [hhash]
    rfl
  · rw [fhash]
    rfl
  · rw [FoldEvent.find, named, found]

theorem extraGroupKeys_of_aggregates (same : ∀ events, c.aggregates events = c'.aggregates events) :
    c.extraGroupKeys = c'.extraGroupKeys := by
  have names (keys fields : List Bytes) (mem : ∀ k ∈ keys, k ∈ fields) :
      ((keys.map fun k => (k, (named [] fields).argString k)).filter fun e => e.2 ≠ []).map Prod.fst
        = keys := by
    rw [filter_eq_self.mpr, map_map]
    · exact map_id keys
    · intro e listed
      obtain ⟨k, key, rfl⟩ := mem_map.mp listed
      rw [argString_named [] (mem k key)]
      rfl
  have key := (row_of_aggregates (same [named [] (c.extraGroupKeys ++ c'.extraGroupKeys)]) rfl).1
  have keys := congrArg (fun key => key.extraKeys.map Prod.fst) key
  exact (names _ _ fun _ mem => mem_append_left _ mem).symm.trans
    (keys.trans (names _ _ fun _ mem => mem_append_right _ mem))

/-- The interval that a boundary gives the event. -/
def valued (b : BoundaryEventConfig) : BoundaryInterval :=
  ⟨b.outputName, 118 :: b.valueField, 0, 0⟩

/-- The intervals of an event in which every boundary has a value. -/
theorem allIntervals_named (config : TrackerConfig) (name : Bytes)
    (mem : ∀ b ∈ config.boundaryEvents, b.valueField ∈ fields) :
    (feed config [named name fields]).allIntervals
      = (config.boundaryEvents.filter (·.eventName = name)).map valued := by
  have step (l : List BoundaryEventConfig) (t : AssociationTracker)
      (mem : ∀ b ∈ l, b.valueField ∈ fields) :
      (l.foldl (extractBoundary (named name fields)) t).allIntervals
        = t.allIntervals ++ (l.filter (·.eventName = (named name fields).name)).map valued := by
    induction l generalizing t with
    | nil => exact (append_nil _).symm
    | cons b l ih =>
      rw [foldl_cons, ih _ fun b' later => mem b' (mem_cons_of_mem _ later)]
      have value := argString_named name (mem b mem_cons_self)
      rcases extractBoundary_cases (named name fields) t b with
        ⟨miss, eq⟩ | ⟨hit, -, eq⟩ | ⟨-, missing, -⟩
      · rw [eq, filter_cons_of_neg (by simpa using Ne.symm miss)]
      · rw [eq, filter_cons_of_pos (by simpa using hit.symm), value]
        exact append_assoc t.allIntervals [valued b] _
      · rw [value] at missing
        cases missing
  have told := (@tell_frame config (named name fields) {}).2.2
  exact (step config.boundaryEvents _ mem).trans (congrArg (· ++ _) told)

theorem boundaries_of_aggregates (same : ∀ events, c.aggregates events = c'.aggregates events)
    (name : Bytes) : c.boundaryEvents.filter (·.eventName = name)
      = c'.boundaryEvents.filter (·.eventName = name) := by
  have read (l : List BoundaryEventConfig) :
      ((l.filter (·.eventName = name)).map valued).map
        (fun i => (⟨name, i.value.tail, i.name⟩ : BoundaryEventConfig))
      = l.filter (·.eventName = name) := by
    rw [map_map]
    refine (map_congr_left fun b mem => ?_).trans (map_id _)
    have hit := of_decide_eq_true (mem_filter.mp mem).2
    cases b
    cases hit
    rfl
  let fields := (c.boundaryEvents ++ c'.boundaryEvents).map (·.valueField)
  have intervals := congrArg (·.associations.allIntervals) (same [named name fields])
  have left : (feed c.tracker [named name fields]).allIntervals = _ :=
    allIntervals_named _ _ fun b mem => mem_map_of_mem (mem_append_left _ mem)
  have right : (feed c'.tracker [named name fields]).allIntervals = _ :=
    allIntervals_named _ _ fun b mem => mem_map_of_mem (mem_append_right _ mem)
  rw [← read c.boundaryEvents, ← read c'.boundaryEvents]
  exact congrArg _ (left.symm.trans (intervals.trans right))

/-! ### Custom fields -/

/-- A counter event that carries the sum of one field. -/
def counting (field : Bytes) : FoldEvent where
  phase := .COUNTER
  args := [(field ++ text "_sum", .int64 1)]

theorem sum_ne (field : Bytes) (other : k.getLast? ≠ (text "_sum").getLast?) :
    k ≠ field ++ text "_sum" := by
  rintro rfl
  exact other (getLast?_append_of_ne_nil _ nofun)

/-- The sum is the only argument that is there. -/
theorem argExists_counting (field k : Bytes) :
    (counting field).argExists k = decide (k = field ++ text "_sum") := by
  unfold FoldEvent.argExists
  split_ifs with hhash fhash
  · exact (decide_eq_false (hhash ▸ sum_ne field (by decide))).symm
  · exact (decide_eq_false (fhash ▸ sum_ne field (by decide))).symm
  · rw [FoldEvent.find, counting, lookup_cons]
    by_cases hit : k = field ++ text "_sum"
    · rw [hit, beq_self_eq_true, decide_eq_true rfl]
      rfl
    · rw [beq_false_of_ne hit, decide_eq_false hit]
      rfl

/-- It is a number, and the one that every other suffix falls back on is not there. -/
theorem customNumber_counting (field suffix : Bytes) :
    (counting field).customNumber field suffix = if suffix = text "_sum" then some 1 else none := by
  have plain : (counting field).argExists field = false := by
    rw [argExists_counting]
    exact decide_eq_false fun same => absurd (congrArg length same) (by simp [text])
  unfold FoldEvent.customNumber FoldEvent.suffixed
  rw [argExists_counting]
  by_cases sum : suffix = text "_sum"
  · have hhash : field ++ text "_sum" ≠ text "hhash" := (sum_ne field (by decide)).symm
    have fhash : field ++ text "_sum" ≠ text "fhash" := (sum_ne field (by decide)).symm
    have found : (counting field).find (field ++ text "_sum") = some (.int64 1) := by
      rw [FoldEvent.find, counting, lookup_cons, beq_self_eq_true]
    rw [sum, decide_eq_true rfl, if_pos rfl]
    dsimp only
    rw [argExists_counting, decide_eq_true rfl, FoldEvent.argIsNumber, FoldEvent.argUint,
      if_neg (not_or_intro hhash fhash), if_neg (not_or_intro hhash fhash), found]
    rfl
  · rw [decide_eq_false fun same => sum (append_cancel_left same), if_neg sum]
    simp only [Bool.false_eq_true, if_false, plain, Bool.false_and]

theorem customPart_counting (field : Bytes) :
    customPart (counting field) field = some (.summary 1 1 none none) := by
  have evCount : (counting field).evCount = 1 := by
    unfold FoldEvent.evCount
    rw [argExists_counting, argExists_counting, decide_eq_false (sum_ne field (by decide)),
      decide_eq_false (sum_ne field (by decide))]
    rfl
  unfold customPart
  rw [customNumber_counting, customNumber_counting, customNumber_counting, evCount]
  rfl

/-- Each time a field is configured it counts the event once. -/
theorem customStat_counting (c : HashedConfig) (field : Bytes) :
    ((((AggregationMetrics.new c.sketchAccuracy).applyEvent c
      (counting field)).stored.customMetrics field).map StoredStats.stat |>.getD {}).n
      = UInt64.ofNat (c.customMetricFields.count field) := by
  have adds := (@adds_applyEvent c (counting field) field (.new c.sketchAccuracy)).stat
  have defaults : defaultParts c (counting field) field = [] := by
    have numbers : (counting field).numericArgs.filterMap (fun arg =>
        if isDefaultArg c (counting field) arg.1
          ∧ arg.1 = field then some (Contribution.value arg.2.1) else none) = [] := by
      refine filterMap_eq_nil_iff.mpr fun arg mem => if_neg fun hit => ?_
      obtain ⟨given, listed, made⟩ := mem_filterMap.mp mem
      obtain rfl := mem_singleton.mp listed
      cases made
      exact absurd (congrArg length hit.2) (by simp [text])
    unfold defaultParts
    rw [numbers, ite_self]
  have configured : configuredParts c (counting field) field
      = replicate (c.customMetricFields.count field) (.summary 1 1 none none) := by
    unfold configuredParts
    generalize c.customMetricFields = fields
    induction fields with
    | nil => rfl
    | cons other fields ih =>
      rw [filterMap_cons, count_cons]
      by_cases hit : other = field
      · rw [if_pos hit, hit, customPart_counting, ih, beq_self_eq_true]
        rfl
      · rw [if_neg hit, beq_false_of_ne hit, ih]
        rfl
  have count (k : Nat) (s : FieldStat) :
      ((replicate k (.summary 1 1 none none)).foldl Contribution.addTo s).n
        = s.n + UInt64.ofNat k := by
    induction k generalizing s with
    | zero => exact (UInt64.add_zero _).symm
    | succ k ih =>
      have one : (Contribution.summaryStat s 1 1 none none).n = 1 := rfl
      have some_one : (Contribution.summaryStat s 1 1 none none).n ≠ 0 := by
        rw [one]
        decide
      have first : (Contribution.addTo s (.summary 1 1 none none)).n = s.n + 1 := by
        by_cases empty : s.n = 0
        · rw [Contribution.addTo, FieldStat.merge_into_absent empty some_one, empty]
          rfl
        · exact FieldStat.merge_n empty some_one
      rw [replicate_succ, foldl_cons, ih, first, UInt64.ofNat_add, UInt64.add_assoc,
        UInt64.add_comm (UInt64.ofNat k)]
      rfl
  rw [Component.parts, defaults, configured] at adds
  have counted := (congrArg FieldStat.n adds).trans (count _ _)
  rw [← UInt64.zero_add (UInt64.ofNat _)]
  refine Eq.trans ?_ counted
  unfold Component.customStat AggregationMetrics.stored
  rw [Option.map_map]
  rfl

section

variable (same : ∀ events, c.aggregates events = c'.aggregates events)

include same

theorem customMetricFields_of_aggregates :
    c.customMetricFields.Perm c'.customMetricFields := by
  rw [perm_iff_count]
  intro field
  have row := (row_of_aggregates (same [counting field]) rfl).2
  have counts : UInt64.ofNat (c.customMetricFields.count field)
      = UInt64.ofNat (c'.customMetricFields.count field) := by
    rw [← customStat_counting, ← customStat_counting, row]
  have values := congrArg UInt64.toNat counts
  rwa [UInt64.toNat_ofNat_of_lt' (count_le_length.trans_lt c.fields_lt),
    UInt64.toNat_ofNat_of_lt' (count_le_length.trans_lt c'.fields_lt)] at values

/-- Configurations with the same outcomes list the same. -/
theorem sameLists_of_aggregates :
    SameLists c c' :=
  ⟨extraGroupKeys_of_aggregates same, customMetricFields_of_aggregates same,
    boundaries_of_aggregates same⟩

end

/-- One key that is cut in two in the other configuration. -/
def joinedKeys : HashedConfig where
  extraGroupKeys := [text "ab"]
  fields_lt := by decide

def cutKeys : HashedConfig where
  extraGroupKeys := [text "a", text "b"]
  fields_lt := by decide

end HashedConfig

end DFTracer.Aggregation
