/-
# Splitting a trace into slices

A trace is cut into slices, each slice is folded on its own, and the results are merged
along a tree. Counts, sums and the span of time do not depend on the cut. The extremes
of a configured metric may: a counter event that lacks one takes over what its slice
has reached, and starts with its sum where the slice has reached nothing.
-/

import DFTracer.Aggregation.Components

namespace DFTracer.Aggregation

open List

open Math (Table)
open Math.Float64 (wholeNat)
open Contribution

/-- Slices and the order in which their folds are merged. -/
inductive MergeTree
  | slice (events : List FoldEvent)
  | merge (left right : MergeTree)

namespace MergeTree

/-- The events of all slices. -/
def events : MergeTree → List FoldEvent
  | slice events => events
  | merge left right => left.events ++ right.events

/-- Fold the slices and merge them. -/
def run (cfg : AggregationConfig) : MergeTree → AggState
  | slice events => foldSlice cfg events
  | merge left right => AggregationFold.merge (left.run cfg) (right.run cfg)

end MergeTree

/-- What is read from a row. -/
structure RowReading where
  count : UInt64
  duration : StatReading
  size : StatReading
  offset : StatReading
  ts : UInt64
  te : UInt64
  custom : Bytes → Option StatReading

/-- Read a row. -/
def AggregationMetrics.reading (m : AggregationMetrics) : RowReading where
  count := m.count
  duration := m.duration.stat.reading
  size := m.size.stat.reading
  offset := m.offset.stat.reading
  ts := m.ts
  te := m.te
  custom := fun name => (m.customMetrics.lookup name).map fun stats => stats.stat.reading

/-- The reading of a key's row. -/
def AggState.reading (st : AggState) (key : AggregationKey) : Option RowReading :=
  (st.localBuffer.lookup key).map AggregationMetrics.reading

/-- However the events are cut into slices, ordered and merged, every row reads as when
they are folded in one slice. -/
def SplitFree (cfg : AggregationConfig) (events : List FoldEvent) : Prop :=
  ∀ tree : MergeTree, tree.events.Perm events →
    ∀ key, (tree.run cfg).reading key = (foldSlice cfg events).reading key

/-- No statistic of a row overflows. -/
def RowsFit (cfg : AggregationConfig) (events : List FoldEvent) : Prop :=
  ∀ key component, Fits (gathered cfg component (rowEvents cfg key events))

/-- Of every row and configured metric the extremes are the same whichever contribution
comes first. -/
def RowsSettled (cfg : AggregationConfig) (events : List FoldEvent) : Prop :=
  ∀ key, ∀ name ∈ cfg.customMetricFields,
    Settled (gathered cfg (.custom name) (rowEvents cfg key events))

/-- The state has a row for the keys of its events, and in it what they come to. -/
def Folds (cfg : AggregationConfig) (st : AggState) (events : List FoldEvent) : Prop :=
  ∀ key, (st.localBuffer.lookup key = none ↔ rowEvents cfg key events = []) ∧
    ∀ m, st.localBuffer.lookup key = some m → RowHolds cfg m (rowEvents cfg key events)

section Folds

variable {cfg : AggregationConfig} {st os : AggState} {events events' : List FoldEvent}

theorem folds_foldSlice (counted : ∀ key, Counted cfg (rowEvents cfg key events)) :
    Folds cfg (foldSlice cfg events) events := by
  intro key
  rw [lookup_foldSlice]
  by_cases hnil : rowEvents cfg key events = []
  · rw [if_pos hnil]
    refine ⟨⟨fun _ => hnil, fun _ => rfl⟩, ?_⟩
    intro m hm
    cases hm
  · rw [if_neg hnil]
    refine ⟨⟨by simp, fun h => absurd h hnil⟩, ?_⟩
    intro m hm
    rw [← Option.some.inj hm]
    exact (RowHolds.new cfg.sketchAccuracy).rowOf (counted key)

theorem Folds.merge (h : Folds cfg st events) (h' : Folds cfg os events')
    (counted : ∀ key, Counted cfg (rowEvents cfg key (events ++ events'))) :
    Folds cfg (AggregationFold.merge st os) (events ++ events') := by
  intro key
  have hrows := rowEvents_append cfg key events events'
  have hcounted := counted key
  rw [hrows] at hcounted ⊢
  change ((st.localBuffer.merge _ os.localBuffer).lookup key = none ↔ _) ∧
    ∀ m, (st.localBuffer.merge _ os.localBuffer).lookup key = some m → _
  rw [Table.lookup_merge]
  cases hright : os.localBuffer.lookup key with
  | none =>
    rw [(h' key).1.mp hright, append_nil]
    exact h key
  | some o =>
    have ho := (h' key).2 o hright
    have hsome : rowEvents cfg key events' ≠ [] := fun hnil => by
      rw [(h' key).1.mpr hnil] at hright
      cases hright
    refine ⟨⟨by simp, fun hnil => ?_⟩, fun m hm => ?_⟩
    · exact absurd (append_eq_nil_iff.mp hnil).2 hsome
    · cases hleft : st.localBuffer.lookup key with
      | none =>
        rw [hleft] at hm
        rw [(h key).1.mp hleft, ← Option.some.inj hm]
        exact ho
      | some mine =>
        rw [hleft] at hm
        rw [← Option.some.inj hm]
        exact ((h key).2 mine hleft).mergeFrom ho hcounted

/-- The rows of a tree hold what its events come to. -/
theorem MergeTree.folds_run (tree : MergeTree)
    (counted : ∀ key, Counted cfg (rowEvents cfg key tree.events)) :
    Folds cfg (tree.run cfg) tree.events := by
  induction tree with
  | slice events => exact folds_foldSlice counted
  | merge left right ihl ihr =>
    have hrows (key : AggregationKey) := rowEvents_append cfg key left.events right.events
    apply Folds.merge
    · apply ihl
      intro key
      have hcounted := counted key
      rw [MergeTree.events, hrows] at hcounted
      exact hcounted.left
    · apply ihr
      intro key
      have hcounted := counted key
      rw [MergeTree.events, hrows] at hcounted
      exact hcounted.right
    · exact counted

end Folds

/-! ## Contributions that are settled -/

/-- Going through contributions never leaves a carried extreme behind. -/
theorem Side.foldl_given_spec (side : Side) (ds : List Contribution) (m : Nat) :
    let reached := ds.foldl (fun m d => (d.given side).elim m fun v => side.pick m v.toNat) m
    (reached = m ∨ ∃ d ∈ ds, reached = d.own side) ∧ side.pick reached m = reached ∧
      ∀ d ∈ ds, ∀ v ∈ d.given side, side.pick reached v.toNat = reached := by
  induction ds generalizing m with
  | nil => exact ⟨.inl rfl, side.pick_self m, fun d hd => absurd hd not_mem_nil⟩
  | cons d ds ih =>
    rw [foldl_cons]
    cases hd : d.given side with
    | none =>
      obtain ⟨hmem, hself, hall⟩ := ih m
      refine ⟨hmem.imp_right fun ⟨e, he, h⟩ => ⟨e, mem_cons_of_mem d he, h⟩, hself, ?_⟩
      intro e he v hv
      rcases mem_cons.mp he with rfl | hin
      · rw [hd] at hv
        cases hv
      · exact hall e hin v hv
    | some v =>
      obtain ⟨hmem, hself, hall⟩ := ih (side.pick m v.toNat)
      rw [Option.elim_some]
      have hown : d.own side = v.toNat := by rw [own, hd, Option.getD_some]
      refine ⟨?_, ?_, ?_⟩
      · rcases hmem with h | ⟨e, he, h⟩
        · rcases side.pick_cases m v.toNat with hpick | hpick
          · exact .inl (h.trans hpick)
          · exact .inr ⟨d, mem_cons_self, h.trans (hpick.trans hown.symm)⟩
        · exact .inr ⟨e, mem_cons_of_mem d he, h⟩
      · rw [← hself, side.pick_assoc, side.pick_right_comm m, side.pick_self]
      · intro e he w hw
        rcases mem_cons.mp he with rfl | hin
        · rw [hd] at hw
          rw [← Option.some.inj hw, ← hself, side.pick_assoc, side.pick_assoc m, side.pick_self]
        · exact hall e hin w hw

variable {c : Contribution}

variable {cs : List Contribution} {cfg : AggregationConfig} {component : Component} {name : Bytes}

/-- Where a contribution leads is one of the starting values, and no contribution
carries one beyond it. -/
theorem Side.start_spec (side : Side) (hc : c ∈ cs) :
    (∃ d ∈ cs, side.start c cs = d.own side) ∧
      ∀ d ∈ cs, ∀ v ∈ d.given side, side.pick (side.start c cs) v.toNat = side.start c cs := by
  obtain ⟨hmem, _, hall⟩ := side.foldl_given_spec cs (c.own side)
  exact ⟨hmem.elim (fun h => ⟨c, hc, h⟩) id, hall⟩

/-- Contributions that carry their extremes are settled. -/
theorem settled_of_given (h : ∀ c ∈ cs, ∀ side, (c.given side).isSome) : Settled cs := by
  intro _ side c hc d hd
  obtain ⟨⟨e, he, hce⟩, hcs⟩ := side.start_spec hc
  obtain ⟨⟨f, hf, hdf⟩, hds⟩ := side.start_spec hd
  obtain ⟨v, hv⟩ := Option.isSome_iff_exists.mp (h e he side)
  obtain ⟨w, hw⟩ := Option.isSome_iff_exists.mp (h f hf side)
  have hev : e.own side = v.toNat := by rw [own, hv, Option.getD_some]
  have hfw : f.own side = w.toNat := by rw [own, hw, Option.getD_some]
  have hleft := hcs f hf w hw
  have hright := hds e he v hv
  rw [← hfw, ← hdf] at hleft
  rw [← hev, ← hce, side.pick_comm] at hright
  rw [← hleft, hright]

/-- Contributions that are all single values are settled. -/
theorem settled_of_exact (h : ∀ c ∈ cs, c.isExact) : Settled cs := by
  rintro ⟨c, hc, hnot⟩
  rw [h c hc] at hnot
  cases hnot

theorem mem_gathered {events : List FoldEvent} (hc : c ∈ gathered cfg component events) :
    ∃ ev ∈ events, c ∈ component.parts cfg ev :=
  mem_flatMap.mp (mem_of_mem_filter hc)

/-- A pre-aggregated argument always carries its extremes. -/
theorem preaggregated_given {p : Prop} [Decidable p] {n sum low high : UInt64}
    (hc : c ∈ (if p then some (summary n sum (some low) (some high)) else none).toList)
    (side : Side) : (c.given side).isSome := by
  by_cases hp : p
  · rw [if_pos hp, Option.toList_some, mem_singleton] at hc
    subst hc
    cases side <;> rfl
  · rw [if_neg hp] at hc
    cases hc

theorem value_given {v : UInt64} (hc : c = value v) (side : Side) :
    (c.given side).isSome := by
  rw [hc]
  cases side <;> rfl

variable {ev : FoldEvent}

/-- Durations, sizes and offsets come with their extremes. -/
theorem builtin_given (hcomponent : ∀ name, component ≠ .custom name)
    (hc : c ∈ component.parts cfg ev) (side : Side) : (c.given side).isSome := by
  cases component with
  | duration =>
    by_cases hcounter : ev.isCounter
    · rw [Component.parts, if_pos hcounter] at hc
      exact preaggregated_given hc side
    · rw [Component.parts, if_neg hcounter] at hc
      exact value_given (mem_singleton.mp hc) side
  | size =>
    by_cases hcounter : ev.isCounter
    · rw [Component.parts, if_pos hcounter] at hc
      exact preaggregated_given hc side
    · rw [Component.parts, if_neg hcounter] at hc
      by_cases hret : ev.argExists (text "ret") && isDataTransferOp ev.cat ev.name
      · rw [if_pos hret] at hc
        exact value_given (mem_singleton.mp hc) side
      · rw [if_neg hret] at hc
        cases hc
  | offset =>
    by_cases hcounter : ev.isCounter
    · rw [Component.parts, if_pos hcounter] at hc
      exact preaggregated_given hc side
    · rw [Component.parts, if_neg hcounter] at hc
      by_cases hoffset : ev.argExists (text "offset")
      · rw [if_pos hoffset] at hc
        exact value_given (mem_singleton.mp hc) side
      · rw [if_neg hoffset] at hc
        cases hc
  | custom name => exact absurd rfl (hcomponent name)

/-- What is tracked without being configured are single values. -/
theorem defaultParts_exact (hc : c ∈ defaultParts cfg ev name) :
    c.isExact ∧ name ∉ cfg.customMetricFields := by
  unfold defaultParts at hc
  by_cases htrack : cfg.trackDefaultArgs
  · rw [if_pos htrack] at hc
    obtain ⟨arg, _, harg⟩ := mem_filterMap.mp hc
    by_cases hdefault : AggregationMetrics.isDefaultArg cfg ev arg.1 ∧ arg.1 = name
    · rw [if_pos hdefault] at harg
      obtain ⟨hdefault, rfl⟩ := hdefault
      constructor
      · rw [← Option.some.inj harg]
        rfl
      · intro hmem
        simp [AggregationMetrics.isDefaultArg, hmem] at hdefault
    · rw [if_neg hdefault] at harg
      cases harg
  · rw [if_neg htrack] at hc
    cases hc

theorem configuredParts_eq (hc : c ∈ configuredParts cfg ev name) :
    name ∈ cfg.customMetricFields ∧ customPart ev name = some c := by
  obtain ⟨field, hfield, hpart⟩ := mem_filterMap.mp hc
  by_cases hname : field = name
  · rw [if_pos hname] at hpart
    subst hname
    exact ⟨hfield, hpart⟩
  · rw [if_neg hname] at hpart
    cases hpart

/-- To a configured metric an event contributes one thing, as often as it is configured. -/
theorem custom_parts_eq (hname : name ∈ cfg.customMetricFields)
    (hc : c ∈ (Component.custom name).parts cfg ev) : customPart ev name = some c := by
  rcases mem_append.mp hc with hdefault | hconfigured
  · exact absurd hname (defaultParts_exact hdefault).2
  · exact (configuredParts_eq hconfigured).2

/-- Every statistic of a row is settled once those of the configured metrics are. -/
theorem RowsSettled.all {events : List FoldEvent}
    (h : RowsSettled cfg events) (key : AggregationKey) (component : Component) :
    Settled (gathered cfg component (rowEvents cfg key events)) := by
  have hbuiltin (hcomponent : ∀ name, component ≠ .custom name) :
      Settled (gathered cfg component (rowEvents cfg key events)) := by
    apply settled_of_given
    intro c hc side
    obtain ⟨ev, _, hpart⟩ := mem_gathered hc
    exact builtin_given hcomponent hpart side
  cases component with
  | duration | size | offset => exact hbuiltin nofun
  | custom name =>
    by_cases hname : name ∈ cfg.customMetricFields
    · exact h key name hname
    · apply settled_of_exact
      intro c hc
      obtain ⟨ev, _, hpart⟩ := mem_gathered hc
      rcases mem_append.mp hpart with hdefault | hconfigured
      · exact (defaultParts_exact hdefault).1
      · exact absurd (configuredParts_eq hconfigured).1 hname

section SplitFree

variable {cfg : AggregationConfig} {events : List FoldEvent}

theorem RowsFit.counted (fits : RowsFit cfg events) {events' : List FoldEvent}
    (hperm : events'.Perm events) (key : AggregationKey) :
    Counted cfg (rowEvents cfg key events') :=
  Counted.perm (fun component => (fits key component).1) (rowEvents_perm cfg key hperm.symm)

/-- Rows that hold the same settled events read alike. -/
theorem RowHolds.reading_eq {m m' : AggregationMetrics} {rows : List FoldEvent}
    (h : RowHolds cfg m rows) (h' : RowHolds cfg m' rows)
    (fits : ∀ component, Fits (gathered cfg component rows))
    (settled : ∀ component, Settled (gathered cfg component rows)) : m.reading = m'.reading := by
  have hstat (component : Component) :
      (component.stat m).reading = (component.stat m').reading :=
    (h.stats component).reading_eq (h'.stats component) (fits component) (settled component)
  have hcustom (name : Bytes) : ((m.customMetrics.lookup name).map fun stats => stats.stat.reading)
      = (m'.customMetrics.lookup name).map fun stats => stats.stat.reading := by
    have hsome := (h.custom name).trans (h'.custom name).symm
    have hread := hstat (.custom name)
    change (((m.customMetrics.lookup name).map MetricStats.stat).getD {}).reading
      = (((m'.customMetrics.lookup name).map MetricStats.stat).getD {}).reading at hread
    cases hleft : m.customMetrics.lookup name with
    | none =>
      rw [hleft] at hsome
      cases hright : m'.customMetrics.lookup name with
      | none => rfl
      | some o =>
        rw [hright] at hsome
        cases hsome
    | some s =>
      rw [hleft] at hsome hread
      cases hright : m'.customMetrics.lookup name with
      | none =>
        rw [hright] at hsome
        cases hsome
      | some o =>
        rw [hright] at hread
        exact congrArg some hread
  have hts : m.ts = m'.ts := UInt64.toNat_inj.mp (h.ts.trans h'.ts.symm)
  have hte : m.te = m'.te := UInt64.toNat_inj.mp (h.te.trans h'.te.symm)
  have hcount : m.count = m'.count := h.count.trans h'.count.symm
  have hduration : m.duration.stat.reading = m'.duration.stat.reading := hstat .duration
  have hsize : m.size.stat.reading = m'.size.stat.reading := hstat .size
  have hoffset : m.offset.stat.reading = m'.offset.stat.reading := hstat .offset
  unfold AggregationMetrics.reading
  rw [hcount, hduration, hsize, hoffset, hts, hte, funext hcustom]

/-- Where the extremes are settled a split does not matter. -/
theorem RowsSettled.splitFree (settled : RowsSettled cfg events) (fits : RowsFit cfg events) :
    SplitFree cfg events := by
  intro tree hperm key
  have hrows := rowEvents_perm cfg key hperm
  obtain ⟨hnone, hsome⟩ := tree.folds_run (fits.counted hperm) key
  obtain ⟨hnone', hsome'⟩ := folds_foldSlice (fits.counted (List.Perm.refl events)) key
  have habsent : (tree.run cfg).localBuffer.lookup key = none
      ↔ (foldSlice cfg events).localBuffer.lookup key = none := by
    rw [hnone, hnone']
    constructor
    · intro h
      rw [h] at hrows
      exact nil_perm.mp hrows
    · intro h
      rw [h] at hrows
      exact perm_nil.mp hrows
  unfold AggState.reading
  cases hleft : (tree.run cfg).localBuffer.lookup key with
  | none => rw [habsent.mp hleft]
  | some m =>
    cases hright : (foldSlice cfg events).localBuffer.lookup key with
    | none =>
      rw [habsent.mpr hright] at hleft
      cases hleft
    | some m' =>
      have hm := (hsome m hleft).perm hrows
      exact congrArg some
        (hm.reading_eq (hsome' m' hright) (fits key) (fun component => settled.all key component))

/-- The statistics of a row, folded from nothing. -/
theorem stat_rowOf (m : AggregationMetrics) (component : Component) (rows : List FoldEvent) :
    component.stat (rowOf cfg m rows) = (gathered cfg component rows).foldl addTo (component.stat m) := by
  rw [gathered, foldl_addTo_effective]
  induction rows generalizing m with
  | nil => rfl
  | cons ev rows ih =>
    rw [flatMap_cons, foldl_append, ← stat_applyEvent]
    exact ih _

/-- An event's contribution can be made the first one, and decides where its row's
extremes start. -/
theorem exists_start (fits : RowsFit cfg events) {key : AggregationKey} {name : Bytes}
    (hname : name ∈ cfg.customMetricFields) {c : Contribution}
    (hc : c ∈ gathered cfg (.custom name) (rowEvents cfg key events)) :
    ∃ events', events'.Perm events ∧ ∃ m,
      (foldSlice cfg events').localBuffer.lookup key = some m ∧
      ∀ side : Side, side.of ((Component.custom name).stat m)
        = wholeNat (side.start c (gathered cfg (.custom name) (rowEvents cfg key events))) := by
  obtain ⟨ev, hrow, hpart⟩ := mem_gathered hc
  obtain ⟨hev, hkeep⟩ := mem_filter.mp hrow
  obtain ⟨before, after, hsplit⟩ := append_of_mem hev
  have hperm : (ev :: (before ++ after)).Perm events := by
    rw [hsplit]
    exact perm_middle.symm
  have hfirst : rowEvents cfg key (ev :: (before ++ after))
      = ev :: rowEvents cfg key (before ++ after) := filter_cons_of_pos hkeep
  -- the event's own contributions are all the same, so the row starts with one of them
  obtain ⟨rest, hgathered⟩ : ∃ rest, gathered cfg (.custom name)
      (rowEvents cfg key (ev :: (before ++ after))) = c :: rest := by
    have hone : c ∈ effective ((Component.custom name).parts cfg ev) :=
      mem_filter.mpr ⟨hpart, (mem_filter.mp hc).2⟩
    rw [hfirst, gathered, flatMap_cons, effective_append]
    cases hparts : effective ((Component.custom name).parts cfg ev) with
    | nil =>
      rw [hparts] at hone
      cases hone
    | cons d ds =>
      have hd : d ∈ effective ((Component.custom name).parts cfg ev) := by
        rw [hparts]
        exact mem_cons_self
      have hsame := (custom_parts_eq hname (mem_of_mem_filter hd)).symm.trans
        (custom_parts_eq hname hpart)
      exact ⟨_, by rw [Option.some.inj hsame]; rfl⟩
  refine ⟨ev :: (before ++ after), hperm, rowOf cfg (.new cfg.sketchAccuracy)
    (rowEvents cfg key (ev :: (before ++ after))), ?_, ?_⟩
  · rw [lookup_foldSlice, if_neg]
    rw [hfirst]
    exact cons_ne_nil _ _
  · intro side
    have hcounted := fits.counted hperm key (.custom name)
    have heff : ∀ d ∈ c :: rest, d.n ≠ 0 := by
      rw [← hgathered]
      exact effective_spec
    rw [stat_rowOf, hgathered]
    rw [hgathered] at hcounted
    have hrun : side.of ((c :: rest).foldl addTo {}) = _ := run_of heff hcounted
    rw [← hgathered] at hrun ⊢
    rw [side.start_perm c (gathered_perm cfg (.custom name) (rowEvents_perm cfg key hperm))] at hrun
    exact hrun

/-- Where a split does not matter the extremes are settled. -/
theorem SplitFree.rowsSettled (h : SplitFree cfg events) (fits : RowsFit cfg events) :
    RowsSettled cfg events := by
  intro key name hname ⟨inexact, hin, hnot⟩ side c hc d hd
  have hreach (e : Contribution) (he : e ∈ gathered cfg (.custom name) (rowEvents cfg key events)) :
      ∃ m : AggregationMetrics, (foldSlice cfg events).reading key = some m.reading ∧
        ((Component.custom name).stat m).domain = .F64 ∧
        side.of ((Component.custom name).stat m) =
          wholeNat (side.start e (gathered cfg (.custom name) (rowEvents cfg key events))) ∧
        (m.customMetrics.lookup name).isSome := by
    obtain ⟨events', hperm, m, hlookup, hof⟩ := exists_start fits hname he
    refine ⟨m, ?_, ?_, hof side, ?_⟩
    · rw [← h (.slice events') hperm key]
      exact congrArg (Option.map AggregationMetrics.reading) hlookup
    · have hrow := (folds_foldSlice (fits.counted hperm) key).2 m hlookup
      apply (hrow.stats (.custom name)).inexact
      exact ⟨inexact, (gathered_perm cfg _ (rowEvents_perm cfg key hperm)).mem_iff.mpr hin, hnot⟩
    · have hrow := (folds_foldSlice (fits.counted hperm) key).2 m hlookup
      rw [hrow.custom, any_eq_true]
      obtain ⟨ev, hev, hpart⟩ := mem_gathered
        ((gathered_perm cfg _ (rowEvents_perm cfg key hperm)).mem_iff.mpr he)
      refine ⟨ev, hev, ?_⟩
      rw [Bool.not_eq_true', isEmpty_eq_false_iff]
      exact ne_nil_of_mem hpart
  obtain ⟨m, hm, hdomain, hof, hsome⟩ := hreach c hc
  obtain ⟨m', hm', hdomain', hof', hsome'⟩ := hreach d hd
  have hcustom := congrFun (congrArg RowReading.custom (Option.some.inj (hm.symm.trans hm'))) name
  obtain ⟨s, hs⟩ := Option.isSome_iff_exists.mp hsome
  obtain ⟨s', hs'⟩ := Option.isSome_iff_exists.mp hsome'
  change (m.customMetrics.lookup name).map _ = (m'.customMetrics.lookup name).map _ at hcustom
  rw [hs, hs'] at hcustom
  have hstat : (Component.custom name).stat m = s.stat := by
    change ((m.customMetrics.lookup name).map MetricStats.stat).getD {} = s.stat
    rw [hs]
    rfl
  have hstat' : (Component.custom name).stat m' = s'.stat := by
    change ((m'.customMetrics.lookup name).map MetricStats.stat).getD {} = s'.stat
    rw [hs']
    rfl
  rw [hstat] at hdomain hof
  rw [hstat'] at hdomain' hof'
  rw [← hof, ← hof']
  exact FieldStat.of_eq_of_reading hdomain hdomain' (Option.some.inj hcustom) side

end SplitFree

namespace Counters

/-- The configuration with one custom metric. -/
def config : AggregationConfig := { customMetricFields := [text "x"] }

/-- A counter event that carries the sum of the metric, and no extremes. -/
def event (sum : Int64) : FoldEvent :=
  { phase := .COUNTER, args := [(text "x_sum", .int64 sum)] }

def events : List FoldEvent := [event 5, event 9]

theorem custom_parts (name : Bytes) {sum : Int64} {total : UInt64}
    (htotal : customPart (event sum) (text "x") = some (.summary 1 total none none)) :
    (Component.custom name).parts config (event sum)
      = if text "x" = name then [.summary 1 total none none] else [] := by
  have hdefault : defaultParts config (event sum) name = [] := by
    have hsuffix : AggregationMetrics.isDefaultArg config (event sum) (text "x_sum") = false := by
      rfl
    have hargs : (event sum).numericArgs
        = [(text "x_sum", if sum < 0 then 0 else sum.toUInt64, sum.toFloat)] := rfl
    have htrack : config.trackDefaultArgs = true := rfl
    rw [defaultParts, if_pos htrack, hargs, filterMap_cons, if_neg (by simp [hsuffix]),
      filterMap_nil]
  rw [Component.parts, hdefault, nil_append]
  change List.filterMap _ [text "x"] = _
  by_cases hname : text "x" = name
  · rw [if_pos hname, filterMap_cons, if_pos hname, htotal, filterMap_nil]
  · rw [if_neg hname, filterMap_cons, if_neg hname, filterMap_nil]

theorem gathered_custom (name : Bytes) :
    gathered config (.custom name) events
      = if text "x" = name then [.summary 1 5 none none, .summary 1 9 none none] else [] := by
  rw [gathered, events, flatMap_cons, flatMap_cons, custom_parts name (by rfl),
    custom_parts name (by rfl)]
  by_cases hname : text "x" = name
  · rw [if_pos hname, if_pos hname, if_pos hname]
    rfl
  · rw [if_neg hname, if_neg hname, if_neg hname]
    rfl

theorem rowsFit : RowsFit config events := by
  intro key component
  have hsub : (gathered config component (rowEvents config key events)).Sublist
      (gathered config component events) :=
    (filter_sublist.flatMap _).filter _
  have hcount : countSum (gathered config component events) ≤ 2
      ∧ totalSum (gathered config component events) ≤ 14 := by
    cases component with
    | custom name =>
      rw [gathered_custom name]
      split_ifs
      · decide
      · decide
    | duration | size | offset =>
      decide
  have hn := (hsub.map fun c => c.n.toNat).sum_le_sum fun _ _ => Nat.zero_le _
  have htotal := (hsub.map fun c => c.total.toNat).sum_le_sum fun _ _ => Nat.zero_le _
  constructor
  · exact Nat.lt_of_le_of_lt (Nat.le_trans hn hcount.1) (by decide)
  · exact fun _ => Nat.lt_of_le_of_lt (Nat.le_trans htotal hcount.2) (by decide)

end Counters

end DFTracer.Aggregation
