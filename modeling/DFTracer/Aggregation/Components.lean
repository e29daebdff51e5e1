/-
# The components of a row

A row has four kinds of statistics: duration, size, offset, and one for each custom
metric. An event adds contributions to each of them that depend on the event and the
configuration alone, and merging rows merges component by component.
-/

import DFTracer.Aggregation.Gathering

namespace DFTracer.Aggregation

open Math (Table)
open Contribution List

/-- A statistic of a row. -/
inductive Component
  | duration
  | size
  | offset
  | custom (name : Bytes)

/-- The contribution of a pre-aggregated argument. -/
def preaggregatedPart (ev : FoldEvent) (field : Bytes) : Option Contribution :=
  let hasSum := ev.argExists (field ++ text "_sum")
  let sum := if hasSum then ev.argUint (field ++ text "_sum") else ev.argUint field
  if hasSum || ev.argExists field then
    some (.summary ev.evCount sum
      (some (if ev.argExists (field ++ text "_min") then ev.argUint (field ++ text "_min")
        else sum))
      (some (if ev.argExists (field ++ text "_max") then ev.argUint (field ++ text "_max")
        else sum)))
  else none

/-- The contribution of a pre-aggregated offset. -/
def preaggregatedOffsetPart (ev : FoldEvent) : Option Contribution :=
  let offSum := ev.argExists (text "offset_sum")
  let offPlain := ev.argExists (text "offset")
  let offMin := ev.argExists (text "offset_min")
  let offMax := ev.argExists (text "offset_max")
  let sum :=
    if offSum then ev.argUint (text "offset_sum")
    else if offPlain then ev.argUint (text "offset")
    else 0
  if offSum || offPlain || offMin || offMax then
    some (.summary ev.evCount sum
      (some (if offMin then ev.argUint (text "offset_min")
        else if offPlain then ev.argUint (text "offset")
        else sum.toFloat.toUInt64))
      (some (if offMax then ev.argUint (text "offset_max")
        else if offPlain then ev.argUint (text "offset")
        else sum.toFloat.toUInt64)))
  else none

/-- The contribution of a configured field: of a counter event the sum and those
extremes that the event carries. -/
def customPart (ev : FoldEvent) (field : Bytes) : Option Contribution :=
  if ev.isCounter then
    (ev.customNumber field (text "_sum")).map fun sum =>
      .summary ev.evCount sum (ev.customNumber field (text "_min"))
        (ev.customNumber field (text "_max"))
  else if ev.argExists field && ev.argIsNumber field then some (.value (ev.argUint field))
  else none

/-- The contributions of the arguments that are tracked without being configured. -/
def defaultParts (cfg : AggregationConfig) (ev : FoldEvent) (name : Bytes) : List Contribution :=
  if cfg.trackDefaultArgs then
    ev.numericArgs.filterMap fun arg =>
      if AggregationMetrics.isDefaultArg cfg ev arg.1 ∧ arg.1 = name then some (.value arg.2.1)
      else none
  else []

/-- The contributions of the configured fields. -/
def configuredParts (cfg : AggregationConfig) (ev : FoldEvent) (name : Bytes) :
    List Contribution :=
  cfg.customMetricFields.filterMap fun field => if field = name then customPart ev field else none

namespace Component

/-- What an event contributes to a component. -/
def parts (cfg : AggregationConfig) (ev : FoldEvent) : Component → List Contribution
  | duration =>
    if ev.isCounter then (preaggregatedPart ev (text "dur")).toList else [.value ev.dur]
  | size =>
    if ev.isCounter then (preaggregatedPart ev (text "ret")).toList
    else if ev.argExists (text "ret") && isDataTransferOp ev.cat ev.name then
      [.value (ev.argUint (text "ret"))]
    else []
  | offset =>
    if ev.isCounter then (preaggregatedOffsetPart ev).toList
    else if ev.argExists (text "offset") then [.value (ev.argUint (text "offset"))]
    else []
  | custom name => defaultParts cfg ev name ++ configuredParts cfg ev name

/-- The statistic of a custom metric, empty when the metric is not there. -/
def customStat (metrics : CustomMetricsMap) (name : Bytes) : FieldStat :=
  ((metrics.lookup name).map MetricStats.stat).getD {}

/-- The statistic of a component. -/
def stat (m : AggregationMetrics) : Component → FieldStat
  | duration => m.duration.stat
  | size => m.size.stat
  | offset => m.offset.stat
  | custom name => customStat m.customMetrics name

end Component

section Custom

variable {m : AggregationMetrics} {name field : Bytes} {accuracy : Float}
  {f : MetricStats → MetricStats}

/-- Changing one custom metric changes its statistic. -/
theorem customStat_withCustom {g : FieldStat → FieldStat} (hf : ∀ stats, (f stats).stat = g stats.stat) :
    Component.customStat (m.withCustom field accuracy f).customMetrics name
      = if name = field then g (Component.customStat m.customMetrics field)
        else Component.customStat m.customMetrics name := by
  unfold Component.customStat AggregationMetrics.withCustom
  rw [Table.lookup_alter]
  by_cases h : name = field
  · rw [if_pos h, if_pos h, Option.map_some, hf]
    cases m.customMetrics.lookup field <;> rfl
  · rw [if_neg h, if_neg h]

theorem isSome_withCustom :
    ((m.withCustom field accuracy f).customMetrics.lookup name).isSome
      = (decide (name = field) || (m.customMetrics.lookup name).isSome) := by
  unfold AggregationMetrics.withCustom
  rw [Table.lookup_alter]
  by_cases h : name = field
  · simp [h]
  · simp [h]

end Custom

/-! ## Folding an event, component by component -/

namespace AggregationMetrics

variable {cfg : AggregationConfig} {ev : FoldEvent} {m m' : AggregationMetrics}

/-- Nothing but the custom metrics has changed. -/
def CustomOnly (m m' : AggregationMetrics) : Prop :=
  m' = { m with customMetrics := m'.customMetrics }

theorem CustomOnly.refl (m : AggregationMetrics) : CustomOnly m m := rfl

theorem CustomOnly.trans {m'' : AggregationMetrics} (h : CustomOnly m m')
    (h' : CustomOnly m' m'') : CustomOnly m m'' := by
  unfold CustomOnly at *
  rw [h', h]

theorem customOnly_withCustom (name : Bytes) (accuracy : Float) (f : MetricStats → MetricStats) :
    CustomOnly m (m.withCustom name accuracy f) := rfl

theorem customOnly_trackDefaultArgs : CustomOnly m (trackDefaultArgs cfg ev m) := by
  unfold trackDefaultArgs
  split_ifs
  · generalize ev.numericArgs = args
    induction args generalizing m with
    | nil => exact CustomOnly.refl m
    | cons arg args ih =>
      rw [foldl_cons]
      split_ifs
      · exact (customOnly_withCustom _ _ _).trans ih
      · exact ih
  · exact CustomOnly.refl m

theorem customOnly_trackCustomField (field : Bytes) :
    CustomOnly m (trackCustomField cfg ev m field) := by
  unfold trackCustomField
  split_ifs
  · cases ev.customNumber field (text "_sum") with
    | none => exact CustomOnly.refl m
    | some sum => exact customOnly_withCustom _ _ _
  · exact customOnly_withCustom _ _ _
  · exact CustomOnly.refl m

theorem customOnly_trackCustomFields (fields : List Bytes) :
    CustomOnly m (fields.foldl (trackCustomField cfg ev) m) := by
  induction fields generalizing m with
  | nil => exact CustomOnly.refl m
  | cons field fields ih => exact (customOnly_trackCustomField field).trans ih

/-- The statistics of the event itself, before the custom metrics. -/
def tracked (cfg : AggregationConfig) (ev : FoldEvent) (m : AggregationMetrics) :
    AggregationMetrics :=
  if ev.isCounter then trackCounter cfg ev (trackFile cfg ev m)
  else trackRegular cfg ev (trackFile cfg ev m)

theorem customOnly_applyEvent : CustomOnly (tracked cfg ev m) (m.applyEvent cfg ev) :=
  customOnly_trackDefaultArgs.trans (customOnly_trackCustomFields _)

theorem trackFile_eq (cfg : AggregationConfig) (ev : FoldEvent) (m : AggregationMetrics) :
    trackFile cfg ev m = { m with distinctFiles := (trackFile cfg ev m).distinctFiles } := by
  unfold trackFile
  dsimp only
  split_ifs <;> rfl

theorem mergeStat_preaggregated (field : Bytes) (stats : MetricStats) :
    (mergeStat cfg (ev.preaggregated field) stats).stat
      = (preaggregatedPart ev field).toList.foldl addTo stats.stat := by
  unfold FoldEvent.preaggregated preaggregatedPart
  dsimp only
  split_ifs <;> rfl

theorem mergeStat_preaggregatedOffset (stats : MetricStats) :
    (mergeStat cfg ev.preaggregatedOffset stats).stat
      = (preaggregatedOffsetPart ev).toList.foldl addTo stats.stat := by
  unfold FoldEvent.preaggregatedOffset preaggregatedOffsetPart
  dsimp only
  split_ifs <;> rfl

variable (cfg ev m)

theorem tracked_duration : (tracked cfg ev m).duration.stat
    = (Component.duration.parts cfg ev).foldl addTo m.duration.stat := by
  unfold tracked Component.parts
  rw [trackFile_eq cfg ev m]
  by_cases hcounter : ev.isCounter
  · rw [if_pos hcounter]
    rw [if_pos hcounter]
    exact mergeStat_preaggregated _ _
  · dsimp only
    unfold trackRegular
    split_ifs <;> rfl

theorem tracked_size : (tracked cfg ev m).size.stat
    = (Component.size.parts cfg ev).foldl addTo m.size.stat := by
  unfold tracked Component.parts
  rw [trackFile_eq cfg ev m]
  by_cases hcounter : ev.isCounter
  · rw [if_pos hcounter]
    dsimp only
    rw [if_pos hcounter]
    exact mergeStat_preaggregated _ _
  · dsimp only
    unfold trackRegular
    split_ifs <;> rfl

theorem tracked_offset : (tracked cfg ev m).offset.stat
    = (Component.offset.parts cfg ev).foldl addTo m.offset.stat := by
  unfold tracked Component.parts
  rw [trackFile_eq cfg ev m]
  by_cases hcounter : ev.isCounter
  · rw [if_pos hcounter]
    dsimp only
    rw [if_pos hcounter]
    exact mergeStat_preaggregatedOffset _
  · dsimp only
    unfold trackRegular
    split_ifs <;> rfl

theorem tracked_customMetrics : (tracked cfg ev m).customMetrics = m.customMetrics := by
  unfold tracked trackCounter trackRegular
  rw [trackFile_eq cfg ev m]
  split_ifs <;> rfl

/-- The number of events an event stands for. -/
def eventCount (ev : FoldEvent) : UInt64 := if ev.isCounter then ev.evCount else 1

/-- Where an event ends. A counter event lasts for the interval. -/
def eventEnd (cfg : AggregationConfig) (ev : FoldEvent) : UInt64 :=
  ev.ts + if ev.isCounter then cfg.timeIntervalUs else ev.dur

theorem tracked_count : (tracked cfg ev m).count = m.count + eventCount ev := by
  unfold tracked trackCounter trackRegular eventCount
  rw [trackFile_eq cfg ev m]
  split_ifs <;> rfl

theorem trackRegular_span :
    (trackRegular cfg ev m).ts = (m.updateTimestamp ev.ts ev.dur).ts ∧
      (trackRegular cfg ev m).te = (m.updateTimestamp ev.ts ev.dur).te := by
  rw [trackRegular]
  by_cases hsize : ev.argExists (text "ret") && isDataTransferOp ev.cat ev.name
  · rw [if_pos hsize]
    by_cases hoffset : ev.argExists (text "offset")
    · rw [if_pos hoffset]
      exact ⟨rfl, rfl⟩
    · rw [if_neg hoffset]
      exact ⟨rfl, rfl⟩
  · rw [if_neg hsize]
    by_cases hoffset : ev.argExists (text "offset")
    · rw [if_pos hoffset]
      exact ⟨rfl, rfl⟩
    · rw [if_neg hoffset]
      exact ⟨rfl, rfl⟩

theorem tracked_ts : (tracked cfg ev m).ts = if ev.ts < m.ts then ev.ts else m.ts := by
  unfold tracked
  rw [trackFile_eq cfg ev m]
  by_cases hcounter : ev.isCounter
  · rw [if_pos hcounter]
    rfl
  · rw [if_neg hcounter, (trackRegular_span cfg ev _).1]
    rfl

theorem tracked_te : (tracked cfg ev m).te
    = if m.te < eventEnd cfg ev then eventEnd cfg ev else m.te := by
  unfold tracked eventEnd
  rw [trackFile_eq cfg ev m]
  by_cases hcounter : ev.isCounter
  · rw [if_pos hcounter, if_pos hcounter]
    rfl
  · rw [if_neg hcounter, if_neg hcounter, (trackRegular_span cfg ev _).2]
    rfl

end AggregationMetrics

/-! ## Custom metrics of an event -/

section CustomParts

open AggregationMetrics

variable {cfg : AggregationConfig} {ev : FoldEvent} {name : Bytes}

/-- What a change does to one custom metric: it adds contributions, and the metric is
there afterwards when it was before or when there are any. -/
structure Adds (m m' : AggregationMetrics) (name : Bytes) (parts : List Contribution) : Prop where
  stat : Component.customStat m'.customMetrics name
    = parts.foldl addTo (Component.customStat m.customMetrics name)
  isSome : (m'.customMetrics.lookup name).isSome
    = (!parts.isEmpty || (m.customMetrics.lookup name).isSome)

theorem Adds.refl (m : AggregationMetrics) (name : Bytes) : Adds m m name [] := ⟨rfl, rfl⟩

theorem Adds.trans {m m' m'' : AggregationMetrics} {parts parts' : List Contribution}
    (h : Adds m m' name parts) (h' : Adds m' m'' name parts') :
    Adds m m'' name (parts ++ parts') where
  stat := by rw [h'.stat, h.stat, foldl_append]
  isSome := by
    rw [h'.isSome, h.isSome]
    cases parts with
    | nil => rfl
    | cons c parts => cases parts'.isEmpty <;> rfl

/-- Changing a custom metric by a contribution adds that contribution to it. -/
theorem adds_withCustom {m : AggregationMetrics} {field : Bytes} {accuracy : Float}
    {f : MetricStats → MetricStats} {c : Contribution}
    (hf : ∀ stats, (f stats).stat = addTo stats.stat c) :
    Adds m (m.withCustom field accuracy f) name (if field = name then [c] else []) where
  stat := by
    rw [customStat_withCustom (g := fun s => addTo s c) hf]
    by_cases h : field = name
    · rw [if_pos h.symm, if_pos h, h]
      rfl
    · rw [if_neg (Ne.symm h), if_neg h]
      rfl
  isSome := by
    rw [isSome_withCustom]
    by_cases h : field = name
    · simp [h]
    · simp [h, Ne.symm h]

section

variable (m : AggregationMetrics)

include m

theorem adds_trackDefaultArgs :
    Adds m (trackDefaultArgs cfg ev m) name (defaultParts cfg ev name) := by
  unfold trackDefaultArgs defaultParts
  by_cases htrack : cfg.trackDefaultArgs
  · rw [if_pos htrack, if_pos htrack]
    generalize ev.numericArgs = args
    induction args generalizing m with
    | nil => exact Adds.refl m name
    | cons arg args ih =>
      rw [foldl_cons]
      by_cases hdefault : isDefaultArg cfg ev arg.1
      · rw [if_pos hdefault]
        have hone : Adds m (m.updateCustomMetric arg.1 arg.2.1 cfg.computePercentiles) name
            (if arg.1 = name then [.value arg.2.1] else []) := adds_withCustom fun _ => rfl
        have h := hone.trans (ih _)
        by_cases hname : arg.1 = name
        · rw [filterMap_cons, if_pos ⟨hdefault, hname⟩]
          rwa [if_pos hname] at h
        · rw [filterMap_cons, if_neg fun hand => hname hand.2]
          rwa [if_neg hname] at h
      · rw [if_neg hdefault, filterMap_cons, if_neg fun hand => hdefault hand.1]
        exact ih m
  · rw [if_neg htrack, if_neg htrack]
    exact Adds.refl m name

theorem adds_trackCustomField (field : Bytes) :
    Adds m (trackCustomField cfg ev m field) name
      (if field = name then (customPart ev field).toList else []) := by
  have hnone : Adds m m name (if field = name then (none : Option Contribution).toList else []) := by
    split_ifs
    · exact Adds.refl m name
    · exact Adds.refl m name
  unfold trackCustomField customPart
  by_cases hcounter : ev.isCounter
  · rw [if_pos hcounter, if_pos hcounter]
    cases ev.customNumber field (text "_sum") with
    | none => exact hnone
    | some sum =>
      apply adds_withCustom
      intro stats
      rw [preaggregatedCustom]
      cases ev.customNumber field (text "_min") <;> cases ev.customNumber field (text "_max") <;> rfl
  · rw [if_neg hcounter, if_neg hcounter]
    by_cases hnumber : ev.argExists field && ev.argIsNumber field
    · rw [if_pos hnumber, if_pos hnumber]
      exact adds_withCustom fun _ => rfl
    · rw [if_neg hnumber, if_neg hnumber]
      exact hnone

theorem adds_trackCustomFields :
    Adds m (cfg.customMetricFields.foldl (trackCustomField cfg ev) m) name
      (configuredParts cfg ev name) := by
  unfold configuredParts
  generalize cfg.customMetricFields = fields
  induction fields generalizing m with
  | nil => exact Adds.refl m name
  | cons field fields ih =>
    have hfirst : Adds m (trackCustomField cfg ev m field) name
        (if field = name then (customPart ev field).toList else []) :=
      adds_trackCustomField m field
    have h := hfirst.trans (ih _)
    by_cases hname : field = name
    · rw [if_pos hname] at h
      rw [filterMap_cons, if_pos hname]
      cases hpart : customPart ev field with
      | none | some c => rwa [hpart] at h
    · rw [filterMap_cons, if_neg hname]
      rwa [if_neg hname] at h

/-- Folding an event adds its contributions to a custom metric. -/
theorem adds_applyEvent :
    Adds m (m.applyEvent cfg ev) name ((Component.custom name).parts cfg ev) := by
  have htracked : Adds m (tracked cfg ev m) name [] := by
    constructor
    · rw [tracked_customMetrics]
      rfl
    · rw [tracked_customMetrics]
      rfl
  exact (htracked.trans (adds_trackDefaultArgs _)).trans (adds_trackCustomFields _)

end

end CustomParts

/-- Folding an event adds its contributions to every component. -/
theorem stat_applyEvent (cfg : AggregationConfig) (ev : FoldEvent) (m : AggregationMetrics)
    (component : Component) :
    component.stat (m.applyEvent cfg ev)
      = (component.parts cfg ev).foldl addTo (component.stat m) := by
  have honly : AggregationMetrics.CustomOnly (AggregationMetrics.tracked cfg ev m)
      (m.applyEvent cfg ev) := AggregationMetrics.customOnly_applyEvent
  cases component with
  | duration => exact (congrArg (·.duration.stat) honly).trans (AggregationMetrics.tracked_duration ..)
  | size => exact (congrArg (·.size.stat) honly).trans (AggregationMetrics.tracked_size ..)
  | offset => exact (congrArg (·.offset.stat) honly).trans (AggregationMetrics.tracked_offset ..)
  | custom name => exact (adds_applyEvent m).stat

/-- Rows are merged component by component. -/
theorem stat_mergeFrom (m o : AggregationMetrics) (component : Component) :
    component.stat (m.mergeFrom o) = (component.stat m).merge (component.stat o) := by
  cases component with
  | duration | size | offset => rfl
  | custom name =>
    change ((((m.customMetrics.merge _ o.customMetrics).lookup name).map MetricStats.stat).getD {})
      = FieldStat.merge (((m.customMetrics.lookup name).map MetricStats.stat).getD {})
        (((o.customMetrics.lookup name).map MetricStats.stat).getD {})
    rw [Table.lookup_merge]
    cases o.customMetrics.lookup name with
    | none => exact (FieldStat.merge_absent _ rfl).symm
    | some v =>
      cases m.customMetrics.lookup name with
      | none | some w => rfl

theorem isSome_mergeFrom (m o : AggregationMetrics) (name : Bytes) :
    ((m.mergeFrom o).customMetrics.lookup name).isSome
      = ((o.customMetrics.lookup name).isSome || (m.customMetrics.lookup name).isSome) := by
  change ((m.customMetrics.merge _ o.customMetrics).lookup name).isSome = _
  rw [Table.lookup_merge]
  cases o.customMetrics.lookup name <;> rfl

/-! ## Rows and the events behind them

A row of the fold holds what the events of its key come to. Events are folded into
their row one after the other, and rows of the same key are merged; both keep it. -/

open AggregationMetrics (eventCount eventEnd)

/-- The event goes into a row, and not into the gauges or nowhere. -/
def aggregated (ev : FoldEvent) : Bool :=
  !ev.isMetadata && !(ev.isSystem && !isPreaggregatedSystem ev)

/-- The events of a row. -/
def rowEvents (cfg : AggregationConfig) (key : AggregationKey) (events : List FoldEvent) :
    List FoldEvent :=
  events.filter fun ev => aggregated ev && decide (keyOf cfg ev = key)

/-- The row that events come to, folded in order. -/
def rowOf (cfg : AggregationConfig) (m : AggregationMetrics) (events : List FoldEvent) :
    AggregationMetrics :=
  events.foldl (fun m ev => m.applyEvent cfg ev) m

section

variable (cfg : AggregationConfig)

include cfg

theorem rowEvents_append (key : AggregationKey)
    (events events' : List FoldEvent) :
    rowEvents cfg key (events ++ events') = rowEvents cfg key events ++ rowEvents cfg key events' :=
  filter_append ..

theorem rowEvents_perm (key : AggregationKey)
    {events events' : List FoldEvent} (h : events.Perm events') :
    (rowEvents cfg key events).Perm (rowEvents cfg key events') :=
  h.filter _

/-- What one event does to a row. -/
theorem lookup_aggregateEvent (st : AggState) (ev : FoldEvent)
    (key : AggregationKey) :
    (aggregateEvent cfg st ev).localBuffer.lookup key
      = if aggregated ev && decide (keyOf cfg ev = key) then
          some (((st.localBuffer.lookup key).getD (.new cfg.sketchAccuracy)).applyEvent cfg ev)
        else st.localBuffer.lookup key := by
  unfold aggregateEvent aggregated
  by_cases hmeta : ev.isMetadata
  · rw [hmeta]
    rfl
  · rw [Bool.eq_false_of_not_eq_true hmeta, Bool.not_false, Bool.true_and]
    by_cases hsystem : ev.isSystem && !isPreaggregatedSystem ev
    · rw [hsystem]
      rfl
    · rw [Bool.eq_false_of_not_eq_true hsystem, Bool.not_false, Bool.true_and]
      change ((st.localBuffer.alter (keyOf cfg ev) _).lookup key) = _
      rw [Table.lookup_alter]
      by_cases hkey : keyOf cfg ev = key
      · rw [if_pos hkey.symm, if_pos (decide_eq_true hkey), hkey]
      · rw [if_neg (Ne.symm hkey), if_neg (by simpa using hkey)]

theorem lookup_foldl_aggregateEvent (st : AggState)
    (events : List FoldEvent) (key : AggregationKey) :
    (events.foldl (aggregateEvent cfg) st).localBuffer.lookup key
      = if rowEvents cfg key events = [] then st.localBuffer.lookup key
        else some (rowOf cfg ((st.localBuffer.lookup key).getD (.new cfg.sketchAccuracy))
          (rowEvents cfg key events)) := by
  induction events generalizing st with
  | nil => rfl
  | cons ev events ih =>
    rw [foldl_cons, ih, lookup_aggregateEvent]
    by_cases hrow : aggregated ev && decide (keyOf cfg ev = key)
    · have hcons : rowEvents cfg key (ev :: events) = ev :: rowEvents cfg key events :=
        filter_cons_of_pos hrow
      rw [if_pos hrow, hcons]
      by_cases hrest : rowEvents cfg key events = []
      · rw [hrest]
        rfl
      · rw [if_neg hrest]
        rfl
    · have hcons : rowEvents cfg key (ev :: events) = rowEvents cfg key events :=
        filter_cons_of_neg hrow
      rw [if_neg hrow, hcons]

/-- A slice has a row for the keys of its events, and in it what they come to. -/
theorem lookup_foldSlice (events : List FoldEvent)
    (key : AggregationKey) :
    (foldSlice cfg events).localBuffer.lookup key
      = if rowEvents cfg key events = [] then none
        else some (rowOf cfg (.new cfg.sketchAccuracy) (rowEvents cfg key events)) :=
  lookup_foldl_aggregateEvent cfg {} events key

end

/-! ### What a row holds -/

/-- The contributions of events to a component that count. -/
def gathered (cfg : AggregationConfig) (component : Component) (events : List FoldEvent) :
    List Contribution :=
  effective (events.flatMap fun ev => component.parts cfg ev)

/-- The counts of a row's statistics fit. -/
def Counted (cfg : AggregationConfig) (events : List FoldEvent) : Prop :=
  ∀ component, countSum (gathered cfg component events) < 2 ^ 64

/-- A row holds what events come to. -/
structure RowHolds (cfg : AggregationConfig) (m : AggregationMetrics) (events : List FoldEvent) :
    Prop where
  count : m.count = UInt64.ofNat (events.map fun ev => (eventCount ev).toNat).sum
  ts : m.ts.toNat = (events.map fun ev => ev.ts.toNat).foldr min (2 ^ 64 - 1)
  te : m.te.toNat = (events.map fun ev => (eventEnd cfg ev).toNat).foldr max 0
  stats : ∀ component : Component, Gathers (component.stat m) (gathered cfg component events)
  custom : ∀ name, (m.customMetrics.lookup name).isSome
    = events.any fun ev => !((Component.custom name).parts cfg ev).isEmpty

theorem gathered_append (cfg : AggregationConfig) (component : Component)
    (events events' : List FoldEvent) :
    gathered cfg component (events ++ events')
      = gathered cfg component events ++ gathered cfg component events' := by
  rw [gathered, flatMap_append, effective_append]
  rfl

variable {events events' : List FoldEvent} {cfg : AggregationConfig}

theorem gathered_perm (cfg : AggregationConfig) (component : Component) (h : events.Perm events') :
    (gathered cfg component events).Perm (gathered cfg component events') :=
  (h.flatMap_right _).filter _

theorem Counted.left (h : Counted cfg (events ++ events')) : Counted cfg events := by
  intro component
  have hsum := h component
  rw [gathered_append, countSum_append] at hsum
  omega

theorem Counted.right (h : Counted cfg (events ++ events')) : Counted cfg events' := by
  intro component
  have hsum := h component
  rw [gathered_append, countSum_append] at hsum
  omega

theorem Counted.perm
    (h : Counted cfg events) (hperm : events.Perm events') : Counted cfg events' := by
  intro component
  rw [← countSum_perm (gathered_perm cfg component hperm)]
  exact h component

/-- The lesser of two counts, as the code compares them. -/
theorem toNat_ite_lt (a b : UInt64) : (if a < b then a else b).toNat = min b.toNat a.toNat := by
  by_cases h : a < b
  · have := UInt64.lt_iff_toNat_lt.mp h
    rw [if_pos h, Nat.min_eq_right (by omega)]
  · have hle := UInt64.le_iff_toNat_le.mp (UInt64.not_lt.mp h)
    rw [if_neg h, Nat.min_eq_left hle]

/-- The greater of two counts, as the code compares them. -/
theorem toNat_ite_gt (a b : UInt64) : (if b < a then a else b).toNat = max b.toNat a.toNat := by
  by_cases h : b < a
  · have := UInt64.lt_iff_toNat_lt.mp h
    rw [if_pos h, Nat.max_eq_right (by omega)]
  · have hle := UInt64.le_iff_toNat_le.mp (UInt64.not_lt.mp h)
    rw [if_neg h, Nat.max_eq_left hle]

theorem foldr_min_append (xs ys : List Nat) (top : Nat) :
    (xs ++ ys).foldr min top = min (xs.foldr min top) (ys.foldr min top) := by
  induction xs with
  | nil =>
    rw [nil_append, Nat.min_eq_right]
    induction ys with
    | nil => exact Nat.le_refl top
    | cons y ys ih => exact Nat.le_trans (Nat.min_le_right _ _) ih
  | cons x xs ih => rw [cons_append, foldr_cons, ih, foldr_cons, Nat.min_assoc]

theorem foldr_max_append (xs ys : List Nat) :
    (xs ++ ys).foldr max 0 = max (xs.foldr max 0) (ys.foldr max 0) := by
  induction xs with
  | nil => rw [nil_append, foldr_nil, Nat.zero_max]
  | cons x xs ih => rw [cons_append, foldr_cons, ih, foldr_cons, Nat.max_assoc]

namespace RowHolds

variable {cfg : AggregationConfig} {m o : AggregationMetrics} {events events' : List FoldEvent}

theorem new (accuracy : Float) : RowHolds cfg (.new accuracy) [] where
  count := rfl
  ts := rfl
  te := rfl
  stats := fun component => by cases component <;> exact Gathers.empty
  custom := fun _ => rfl

section

variable (h : RowHolds cfg m events)

include h

/-- An event is folded into its row. -/
theorem applyEvent {ev : FoldEvent}
    (counted : Counted cfg (events ++ [ev])) :
    RowHolds cfg (m.applyEvent cfg ev) (events ++ [ev]) := by
  have honly : AggregationMetrics.CustomOnly (AggregationMetrics.tracked cfg ev m)
      (m.applyEvent cfg ev) := AggregationMetrics.customOnly_applyEvent
  constructor
  case count =>
    have hcount : (m.applyEvent cfg ev).count = m.count + eventCount ev :=
      (congrArg (·.count) honly).trans (AggregationMetrics.tracked_count ..)
    rw [hcount, h.count, map_append, sum_append, UInt64.ofNat_add, map_singleton,
      sum_singleton, UInt64.ofNat_toNat]
  case ts =>
    have hts : (m.applyEvent cfg ev).ts = if ev.ts < m.ts then ev.ts else m.ts :=
      (congrArg (·.ts) honly).trans (AggregationMetrics.tracked_ts ..)
    have htop : ev.ts.toNat ≤ 2 ^ 64 - 1 := Nat.le_sub_one_of_lt (UInt64.toNat_lt _)
    rw [hts, toNat_ite_lt, h.ts, map_append, foldr_min_append, map_singleton,
      foldr_cons, foldr_nil, Nat.min_eq_left htop]
  case te =>
    have hte : (m.applyEvent cfg ev).te = if m.te < eventEnd cfg ev then eventEnd cfg ev else m.te :=
      (congrArg (·.te) honly).trans (AggregationMetrics.tracked_te ..)
    rw [hte, toNat_ite_gt, h.te, map_append, foldr_max_append]
    simp
  case stats =>
    intro component
    have hsum := counted component
    have hone : gathered cfg component [ev] = effective (component.parts cfg ev) := by
      simp [gathered]
    rw [gathered_append, hone] at hsum ⊢
    rw [stat_applyEvent, ← foldl_addTo_effective]
    exact (h.stats component).run effective_spec effective_spec hsum
  case custom =>
    intro name
    rw [(adds_applyEvent m).isSome, h.custom]
    simp [Bool.or_comm]

/-- Rows are merged. -/
theorem mergeFrom (h' : RowHolds cfg o events')
    (counted : Counted cfg (events ++ events')) :
    RowHolds cfg (m.mergeFrom o) (events ++ events') := by
  constructor
  case count =>
    change m.count + o.count = _
    rw [h.count, h'.count, map_append, sum_append, UInt64.ofNat_add]
  case ts =>
    change (if o.ts < m.ts then o.ts else m.ts).toNat = _
    rw [toNat_ite_lt, h.ts, h'.ts, map_append, foldr_min_append]
  case te =>
    change (if m.te < o.te then o.te else m.te).toNat = _
    rw [toNat_ite_gt, h.te, h'.te, map_append, foldr_max_append]
  case stats =>
    intro component
    have hsum := counted component
    rw [gathered_append] at hsum ⊢
    rw [stat_mergeFrom]
    rw [countSum_append] at hsum
    exact (h.stats component).merge (h'.stats component) effective_spec effective_spec hsum
  case custom =>
    intro name
    rw [isSome_mergeFrom, h.custom, h'.custom, any_append, Bool.or_comm]

/-- A row folded from events holds what they come to. -/
theorem rowOf (counted : Counted cfg (events ++ events')) :
    RowHolds cfg (Aggregation.rowOf cfg m events') (events ++ events') := by
  induction events' generalizing m events with
  | nil => rwa [append_nil]
  | cons ev events' ih =>
    rw [append_cons] at counted ⊢
    exact ih (h.applyEvent counted.left) counted

theorem perm (hperm : events.Perm events') :
    RowHolds cfg m events' where
  count := by rw [h.count, (hperm.map _).sum_eq]
  ts := by rw [h.ts, (hperm.map _).foldr_eq]
  te := by rw [h.te, (hperm.map _).foldr_eq]
  stats := fun component => (h.stats component).perm (gathered_perm cfg component hperm)
  custom := fun name => by
    rw [h.custom, Bool.eq_iff_iff, any_eq_true, any_eq_true]
    constructor
    · rintro ⟨ev, hev, hp⟩
      exact ⟨ev, hperm.mem_iff.mp hev, hp⟩
    · rintro ⟨ev, hev, hp⟩
      exact ⟨ev, hperm.mem_iff.mpr hev, hp⟩

end

end RowHolds

end DFTracer.Aggregation
