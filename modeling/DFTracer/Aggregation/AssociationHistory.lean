/-
# What feeding a tracker does

Feeding events to a tracker adds to it what a tracker of their own would hold, as long as none
of their counters has been counted up before. A tracker holds no more than its events say.
-/

import DFTracer.Aggregation.AssociationTracker

namespace DFTracer.Aggregation.AssociationTracker

open List

open Math (Table)

variable {config : TrackerConfig} {acc : FoldEvent} {key : Bytes} {events : List FoldEvent}

theorem feed_append (events rest : List FoldEvent) :
    feed config (events ++ rest) = feedFrom config (feed config events) rest :=
  foldl_append

/-- A tracker that an event has told its processes. -/
def tell (config : TrackerConfig) (t : AssociationTracker) (acc : FoldEvent) :
    AssociationTracker :=
  (t.extractPid config acc).extractFork config acc

/-- Processes are told apart from intervals and counters. -/
theorem tell_frame (acc : FoldEvent) (t : AssociationTracker) :
    (tell config t acc).autoIncrementCounters = t.autoIncrementCounters ∧
    (tell config t acc).processIntervals = t.processIntervals ∧
    (tell config t acc).allIntervals = t.allIntervals := by
  unfold tell extractFork extractPid
  dsimp only
  split
  · split <;> split <;> exact ⟨rfl, rfl, rfl⟩
  · split <;> exact ⟨rfl, rfl, rfl⟩

/-- A boundary is skipped, valued, or numbered. -/
theorem extractBoundary_cases (acc : FoldEvent) (t : AssociationTracker)
    (boundary : BoundaryEventConfig) :
    (acc.name ≠ boundary.eventName ∧ extractBoundary acc t boundary = t) ∨
    (acc.name = boundary.eventName ∧ acc.argString boundary.valueField ≠ [] ∧
      extractBoundary acc t boundary = t.addInterval acc.pid
        ⟨boundary.outputName, acc.argString boundary.valueField, acc.ts, acc.ts + acc.dur⟩) ∨
    (acc.name = boundary.eventName ∧ acc.argString boundary.valueField = [] ∧
      extractBoundary acc t boundary =
        (t.countUp (counterKey acc.pid boundary.eventName)).1.addInterval acc.pid
          ⟨boundary.outputName, (t.countUp (counterKey acc.pid boundary.eventName)).2, acc.ts,
            acc.ts + acc.dur⟩) := by
  by_cases name : acc.name = boundary.eventName
  · by_cases value : acc.argString boundary.valueField = []
    · refine .inr (.inr ⟨name, value, ?_⟩)
      simp only [extractBoundary, name, value, ne_eq, not_true_eq_false, if_false]
    · refine .inr (.inl ⟨name, value, ?_⟩)
      simp only [extractBoundary, name, value, ne_eq, not_true_eq_false, if_false,
        not_false_eq_true, if_true]
  · exact .inl ⟨name, by rw [extractBoundary, if_pos name]⟩

theorem mem_autoKeys {boundary : BoundaryEventConfig}
    (listed : boundary ∈ config.boundaryEvents) (name : acc.name = boundary.eventName)
    (value : acc.argString boundary.valueField = []) :
    counterKey acc.pid boundary.eventName ∈ autoKeys config acc :=
  mem_map_of_mem
    (mem_filter.mpr ⟨mem_filter.mpr ⟨listed, decide_eq_true name⟩, decide_eq_true value⟩)

/-- Counters that an event does not count up stay. -/
theorem extract_counter (other : key ∉ autoKeys config acc) (t : AssociationTracker) :
    (extract config t acc).autoIncrementCounters.lookup key
      = t.autoIncrementCounters.lookup key := by
  refine List.foldlRecOn (motive := fun u : AssociationTracker =>
    u.autoIncrementCounters.lookup key = t.autoIncrementCounters.lookup key) _ _ ?_ ?_
  · exact congrArg (Table.lookup · key) (tell_frame acc t).1
  · intro u kept boundary listed
    rcases extractBoundary_cases acc u boundary with ⟨-, eq⟩ | ⟨-, -, eq⟩ | ⟨name, value, eq⟩
    · rw [eq, kept]
    · rw [eq]
      exact kept
    · have ne : key ≠ counterKey acc.pid boundary.eventName := fun h =>
        other (h ▸ mem_autoKeys listed name value)
      rw [eq]
      exact (Table.lookup_alter_of_ne _ _ ne).trans kept

theorem feedFrom_counter (other : key ∉ events.flatMap (autoKeys config)) (t : AssociationTracker) :
    (feedFrom config t events).autoIncrementCounters.lookup key
      = t.autoIncrementCounters.lookup key := by
  refine List.foldlRecOn (motive := fun u : AssociationTracker =>
    u.autoIncrementCounters.lookup key = t.autoIncrementCounters.lookup key) _ _ rfl ?_
  intro u kept acc listed
  exact (extract_counter (fun h => other (mem_flatMap_of_mem listed h)) u).trans kept

/-! ## Adding to a tracker -/

/-- A tracker that holds what one holds and then what another holds, which count the counters
among some keys alike. -/
structure Beside (keys : List Bytes) (t u v : AssociationTracker) : Prop where
  parents : ∀ pid, u.processParents.lookup pid
    = (v.processParents.lookup pid).elim (t.processParents.lookup pid) some
  pids : ∀ pid, u.allPids.lookup pid = (v.allPids.lookup pid).elim (t.allPids.lookup pid) some
  processes : ∀ pid, u.processIntervals.lookup pid
    = (v.processIntervals.lookup pid).elim (t.processIntervals.lookup pid)
        fun own => some (t.intervals pid ++ own)
  all : u.allIntervals = t.allIntervals ++ v.allIntervals
  counters : ∀ key ∈ keys, u.autoIncrementCounters.lookup key = v.autoIncrementCounters.lookup key

section Beside

variable {keys : List Bytes} {t u v : AssociationTracker}

/-- An entry set in both tables. -/
theorem elim_alter {κ β : Type} [DecidableEq κ] {t u v : Table κ β}
    (beside : ∀ k, u.lookup k = (v.lookup k).elim (t.lookup k) some) (k : κ) (x : β) (k' : κ) :
    (u.alter k fun _ => x).lookup k'
      = ((v.alter k fun _ => x).lookup k').elim (t.lookup k') some := by
  rw [Table.lookup_alter, Table.lookup_alter]
  by_cases same : k' = k
  · rw [if_pos same, if_pos same, Option.elim_some]
  · rw [if_neg same, if_neg same, beside k']

section

variable (beside : Beside keys t u v) {acc : FoldEvent}

include beside

theorem Beside.addPid (acc : FoldEvent) :
    Beside keys t (u.extractPid config acc) (v.extractPid config acc) := by
  unfold extractPid
  split
  · exact { beside with pids := elim_alter beside.pids acc.pid () }
  · exact beside

theorem Beside.addFork (acc : FoldEvent) :
    Beside keys t (u.extractFork config acc) (v.extractFork config acc) := by
  unfold extractFork
  dsimp only
  split
  · split
    · exact { beside with
        parents := elim_alter beside.parents _ acc.pid
        pids := elim_alter beside.pids _ () }
    · exact beside
  · exact beside

theorem Beside.addInterval (pid : UInt64)
    (interval : BoundaryInterval) :
    Beside keys t (u.addInterval pid interval) (v.addInterval pid interval) := by
  refine { beside with processes := ?_, all := ?_ }
  · intro pid'
    have before := beside.processes pid'
    unfold AssociationTracker.addInterval
    rw [Table.lookup_alter, Table.lookup_alter]
    by_cases same : pid' = pid
    · rw [if_pos same, if_pos same, ← same, before]
      cases v.processIntervals.lookup pid' with
      | none => rfl
      | some own => exact congrArg some (append_assoc _ _ _)
    · rw [if_neg same, if_neg same, before]
  · unfold AssociationTracker.addInterval
    rw [beside.all, append_assoc]

theorem Beside.countUp {key : Bytes} (listed : key ∈ keys) :
    Beside keys t (u.countUp key).1 (v.countUp key).1 ∧ (u.countUp key).2 = (v.countUp key).2 := by
  have same := beside.counters key listed
  unfold AssociationTracker.countUp
  refine ⟨{ beside with counters := ?_ }, by rw [same]⟩
  intro key' listed'
  rw [Table.lookup_alter, Table.lookup_alter, beside.counters key' listed', same]

theorem Beside.addBoundary
    (numbered : ∀ key ∈ autoKeys config acc, key ∈ keys) {boundary : BoundaryEventConfig}
    (listed : boundary ∈ config.boundaryEvents) :
    Beside keys t (extractBoundary acc u boundary) (extractBoundary acc v boundary) := by
  unfold extractBoundary
  split
  · exact beside
  · rename_i name
    have name := of_not_not name
    by_cases value : acc.argString boundary.valueField = []
    · obtain ⟨counted, same⟩ := beside.countUp (numbered _ (mem_autoKeys listed name value))
      simp only [value, ne_eq, not_true_eq_false, if_false, same]
      exact counted.addInterval _ _
    · simp only [value, ne_eq]
      exact beside.addInterval _ _

theorem Beside.extract (numbered : ∀ key ∈ autoKeys config acc, key ∈ keys) :
    Beside keys t (AssociationTracker.extract config u acc)
      (AssociationTracker.extract config v acc) := by
  unfold AssociationTracker.extract
  have start : Beside keys t ((u.extractPid config acc).extractFork config acc)
      ((v.extractPid config acc).extractFork config acc) := (beside.addPid acc).addFork acc
  generalize (u.extractPid config acc).extractFork config acc = u' at start ⊢
  generalize (v.extractPid config acc).extractFork config acc = v' at start ⊢
  have step : ∀ boundaries : List BoundaryEventConfig,
      (∀ b ∈ boundaries, b ∈ config.boundaryEvents) → ∀ u v, Beside keys t u v →
      Beside keys t (boundaries.foldl (extractBoundary acc) u)
        (boundaries.foldl (extractBoundary acc) v) := by
    intro boundaries
    induction boundaries with
    | nil => exact fun _ _ _ beside => beside
    | cons boundary rest ih =>
      intro listed u v beside
      exact ih (fun b hb => listed b (mem_cons_of_mem _ hb)) _ _
        (beside.addBoundary numbered (listed boundary mem_cons_self))
  exact step _ (fun _ h => h) u' v' start

end

theorem Beside.feedFrom {events : List FoldEvent}
    (numbered : ∀ key ∈ events.flatMap (autoKeys config), key ∈ keys) :
    ∀ {u v : AssociationTracker}, Beside keys t u v →
      Beside keys t (AssociationTracker.feedFrom config u events)
        (AssociationTracker.feedFrom config v events) := by
  induction events with
  | nil => exact fun beside => beside
  | cons acc rest ih =>
    intro u v beside
    exact ih (fun key h => numbered key (mem_append_right _ h))
      (beside.extract fun key h => numbered key (mem_append_left _ h))

end Beside

/-- Events with counters of their own add what a tracker of their own holds. -/
theorem beside_feedFrom {t : AssociationTracker}
    (fresh : ∀ key ∈ events.flatMap (autoKeys config), t.autoIncrementCounters.lookup key = none) :
    Beside (events.flatMap (autoKeys config)) t (feedFrom config t events) (feed config events) :=
  Beside.feedFrom (fun _ h => h) {
    parents := fun _ => rfl
    pids := fun _ => rfl
    processes := fun _ => rfl
    all := (append_nil _).symm
    counters := fresh }

/-! ## What a tracker holds -/

theorem intervals_addInterval (t : AssociationTracker) (pid pid' : UInt64)
    (interval : BoundaryInterval) :
    (t.addInterval pid interval).intervals pid'
      = if pid' = pid then t.intervals pid' ++ [interval] else t.intervals pid' := by
  unfold intervals addInterval
  rw [Table.lookup_alter]
  by_cases same : pid' = pid
  · rw [if_pos same, if_pos same, Option.getD_some, same]
  · rw [if_neg same, if_neg same]

theorem intervals_countUp (t : AssociationTracker) (key : Bytes) (pid : UInt64) :
    (t.countUp key).1.intervals pid = t.intervals pid := rfl

/-- A boundary gives its process an interval from the start of the event. -/
theorem extractBoundary_starts (acc : FoldEvent) (t : AssociationTracker)
    (boundary : BoundaryEventConfig) (pid : UInt64) :
    ((extractBoundary acc t boundary).intervals pid).map (·.startTs)
      = (t.intervals pid).map (·.startTs)
        ++ if acc.name = boundary.eventName ∧ acc.pid = pid then [acc.ts] else [] := by
  have added (u : AssociationTracker) (value : Bytes) (name : acc.name = boundary.eventName) :
      ((u.addInterval acc.pid ⟨boundary.outputName, value, acc.ts, acc.ts + acc.dur⟩).intervals
          pid).map (·.startTs)
        = (u.intervals pid).map (·.startTs)
          ++ if acc.name = boundary.eventName ∧ acc.pid = pid then [acc.ts] else [] := by
    rw [intervals_addInterval]
    by_cases same : pid = acc.pid
    · rw [if_pos same, if_pos ⟨name, same.symm⟩, map_append]
      rfl
    · rw [if_neg same, if_neg fun h => same h.2.symm, append_nil]
  rcases extractBoundary_cases acc t boundary with
    ⟨name, eq⟩ | ⟨name, -, eq⟩ | ⟨name, -, eq⟩
  · rw [eq, if_neg fun h => name h.1, append_nil]
  · rw [eq, added _ _ name]
  · rw [eq, added _ _ name, intervals_countUp]

theorem extract_starts (acc : FoldEvent) (t : AssociationTracker) (pid : UInt64) :
    ((extract config t acc).intervals pid).map (·.startTs)
      = (t.intervals pid).map (·.startTs) ++ starts config pid acc := by
  have before : (tell config t acc).intervals pid = t.intervals pid := by
    rw [intervals, (tell_frame acc t).2.1, intervals]
  have step : ∀ (boundaries : List BoundaryEventConfig) (u : AssociationTracker),
      ((boundaries.foldl (extractBoundary acc) u).intervals pid).map (·.startTs)
        = (u.intervals pid).map (·.startTs)
          ++ if acc.pid = pid then
              (boundaries.filter fun boundary => acc.name = boundary.eventName).map fun _ => acc.ts
            else [] := by
    intro boundaries
    induction boundaries with
    | nil => simp
    | cons boundary rest ih =>
      intro u
      rw [foldl_cons, ih, extractBoundary_starts]
      by_cases same : acc.pid = pid <;> by_cases name : acc.name = boundary.eventName <;>
        simp [same, name]
  rw [extract, step, ← tell, before]
  rfl

/-- The intervals of a process start when its boundary events do. -/
theorem feedFrom_starts (events : List FoldEvent) (t : AssociationTracker) (pid : UInt64) :
    ((feedFrom config t events).intervals pid).map (·.startTs)
      = (t.intervals pid).map (·.startTs) ++ events.flatMap (starts config pid) := by
  induction events generalizing t with
  | nil => exact (append_nil _).symm
  | cons acc rest ih =>
    rw [flatMap_cons, ← append_assoc, ← extract_starts]
    exact ih _

theorem feed_starts (events : List FoldEvent) (pid : UInt64) :
    ((feed config events).intervals pid).map (·.startTs) = events.flatMap (starts config pid) :=
  feedFrom_starts events {} pid

/-- The texts of an interval have a length in 32 bits. -/
def Short (interval : BoundaryInterval) : Prop :=
  interval.name.length < 2 ^ 32 ∧ interval.value.length < 2 ^ 32

/-- A tracker that holds no more than what some events say. -/
structure Kept (config : TrackerConfig) (events : List FoldEvent) (t : AssociationTracker) :
    Prop where
  pids : ∀ pid, t.allPids.lookup pid ≠ none → pid ∈ events.flatMap (named config)
  parents : ∀ pid, t.processParents.lookup pid ≠ none → pid ∈ events.flatMap (forked config)
  processes : ∀ pid, t.processIntervals.lookup pid ≠ none →
    pid ∈ events.flatMap fun acc => (recorded config acc).map fun _ => acc.pid
  within : ∀ pid, (t.intervals pid).Sublist t.allIntervals
  texts : ∀ interval ∈ t.allIntervals, Short interval

section Kept

variable {events : List FoldEvent} {t : AssociationTracker}

/-- A new entry of a table is listed when its key is. -/
theorem listed_alter {β : Type} {t : Table UInt64 β} {l : List UInt64}
    (listed : ∀ k, t.lookup k ≠ none → k ∈ l) {k : UInt64} (hk : k ∈ l) (f : Option β → β) :
    ∀ k', (t.alter k f).lookup k' ≠ none → k' ∈ l := by
  intro k' some
  by_cases same : k' = k
  · exact same ▸ hk
  · rw [Table.lookup_alter_of_ne _ _ same] at some
    exact listed k' some

section

variable (kept : Kept config events t) {acc : FoldEvent}

include kept

theorem Kept.addPid (listed : acc ∈ events) :
    Kept config events (t.extractPid config acc) := by
  unfold extractPid
  split
  · rename_i tracked
    have pid : acc.pid ∈ events.flatMap (named config) :=
      mem_flatMap_of_mem listed
        (mem_append_left _ (by rw [if_pos tracked]; exact mem_singleton_self _))
    exact { kept with pids := listed_alter kept.pids pid _ }
  · exact kept

theorem Kept.addFork (listed : acc ∈ events) :
    Kept config events (t.extractFork config acc) := by
  unfold extractFork
  dsimp only
  split
  · rename_i tracked
    split
    · rename_i positive
      have child : acc.argUint (text "ret") ∈ forked config acc := by
        rw [forked, if_pos ⟨tracked.1, tracked.2, positive⟩]
        exact mem_singleton_self _
      exact { kept with
        parents := listed_alter kept.parents (mem_flatMap_of_mem listed child) _
        pids := listed_alter kept.pids
          (mem_flatMap_of_mem listed (mem_append_right _ child)) _ }
    · exact kept
  · exact kept

theorem Kept.addInterval {pid : UInt64}
    (listed : pid ∈ events.flatMap fun acc => (recorded config acc).map fun _ => acc.pid)
    {interval : BoundaryInterval} (short : Short interval) :
    Kept config events (t.addInterval pid interval) := by
  refine { kept with processes := ?_, within := ?_, texts := ?_ }
  · exact listed_alter kept.processes listed _
  · intro pid'
    rw [intervals_addInterval]
    split
    · exact (kept.within pid').append (List.Sublist.refl _)
    · exact (kept.within pid').trans (sublist_append_left _ _)
  · intro interval' h
    rcases mem_append.mp h with h | h
    · exact kept.texts interval' h
    · exact mem_singleton.mp h ▸ short

end

theorem decimal_short (n : UInt64) : (decimal n.toNat).length < 2 ^ 32 := by
  have le : (Nat.toDigits 10 n.toNat).length ≤ 20 :=
    (Nat.length_toDigits_le_iff (by decide) (by decide)).mpr (n.toNat_lt.trans (by decide))
  rw [decimal, length_map]
  exact le.trans_lt (by decide)

theorem Kept.addBoundary (kept : Kept config events t) (fits : Fits32 config events)
    {acc : FoldEvent} (listed : acc ∈ events) {boundary : BoundaryEventConfig}
    (configured : boundary ∈ config.boundaryEvents) :
    Kept config events (extractBoundary acc t boundary) := by
  have member (name : acc.name = boundary.eventName) : boundary ∈ recorded config acc :=
    mem_filter.mpr ⟨configured, decide_eq_true name⟩
  have pid (name : acc.name = boundary.eventName) :
      acc.pid ∈ events.flatMap fun acc => (recorded config acc).map fun _ => acc.pid :=
    mem_flatMap_of_mem listed (mem_map.mpr ⟨boundary, member name, rfl⟩)
  rcases extractBoundary_cases acc t boundary with
    ⟨-, eq⟩ | ⟨name, -, eq⟩ | ⟨name, -, eq⟩
  · rw [eq]
    exact kept
  · rw [eq]
    exact kept.addInterval (pid name) (fits.texts acc listed boundary (member name))
  · rw [eq]
    have counted : Kept config events (t.countUp (counterKey acc.pid boundary.eventName)).1 :=
      { kept with }
    exact counted.addInterval (pid name)
      ⟨(fits.texts acc listed boundary (member name)).1, decimal_short _⟩

/-- A tracker holds no more than what it was fed. -/
theorem kept_feed (fits : Fits32 config events) : Kept config events (feed config events) := by
  refine List.foldlRecOn (motive := Kept config events) _ _ ?_ ?_
  · exact {
      pids := fun _ h => absurd rfl h
      parents := fun _ h => absurd rfl h
      processes := fun _ h => absurd rfl h
      within := fun _ => .refl _
      texts := fun _ h => absurd h not_mem_nil }
  · intro t kept acc listed
    refine List.foldlRecOn (motive := Kept config events) _ _
      ((kept.addPid listed).addFork listed) ?_
    exact fun u kept boundary configured => kept.addBoundary fits listed configured

end Kept

theorem extract_all (acc : FoldEvent) (t : AssociationTracker) :
    (extract config t acc).allIntervals.length
      = t.allIntervals.length + (recorded config acc).length := by
  have step : ∀ (boundaries : List BoundaryEventConfig) (u : AssociationTracker),
      (boundaries.foldl (extractBoundary acc) u).allIntervals.length
        = u.allIntervals.length
          + (boundaries.filter fun boundary => acc.name = boundary.eventName).length := by
    intro boundaries
    induction boundaries with
    | nil => exact fun _ => rfl
    | cons boundary rest ih =>
      intro u
      rw [foldl_cons, ih]
      rcases extractBoundary_cases acc u boundary with
        ⟨name, eq⟩ | ⟨name, -, eq⟩ | ⟨name, -, eq⟩
      · rw [eq, filter_cons_of_neg (by simpa using name)]
      all_goals
        rw [eq, filter_cons_of_pos (by simpa using name), length_cons]
        simp only [addInterval, countUp, length_append, length_singleton]
        omega
  rw [extract, step, ← tell, (tell_frame acc t).2.2]
  rfl

theorem feedFrom_all (events : List FoldEvent) (t : AssociationTracker) :
    (feedFrom config t events).allIntervals.length
      = t.allIntervals.length + (events.flatMap (recorded config)).length := by
  induction events generalizing t with
  | nil => rfl
  | cons acc rest ih =>
    rw [flatMap_cons, length_append, ← Nat.add_assoc, ← extract_all]
    exact ih _

/-- A tracker that was fed events whose lengths fit is storable. -/
theorem storable_feed (fits : Fits32 config events) :
    (feed config events).Storable := by
  have kept := kept_feed fits
  have all : (feed config events).allIntervals.length < 2 ^ 32 := by
    have eq : (feed config events).allIntervals.length
        = (events.flatMap (recorded config)).length :=
      (feedFrom_all events {}).trans (Nat.zero_add _)
    exact eq ▸ fits.intervals
  have own {e : UInt64 × List BoundaryInterval}
      (listed : e ∈ (feed config events).processIntervals.entries) :
      e.2.Sublist (feed config events).allIntervals := by
    have found : (feed config events).intervals e.1 = e.2 :=
      congrArg (Option.getD · []) (Table.lookup_eq_some_iff.mpr listed)
    exact found ▸ kept.within e.1
  have processes : (feed config events).processIntervals.entries.length
      ≤ (events.flatMap (recorded config)).length := by
    calc _ ≤ (events.flatMap fun acc => (recorded config acc).map fun _ => acc.pid).dedup.length :=
          Table.length_entries_le kept.processes
      _ ≤ (events.flatMap fun acc => (recorded config acc).map fun _ => acc.pid).length :=
          (dedup_sublist _).length_le
      _ = (events.flatMap (recorded config)).length := by
          simp only [length_flatMap, length_map]
  exact {
    pids := (Table.length_entries_le kept.pids).trans_lt fits.pids
    parents := (Table.length_entries_le kept.parents).trans_lt fits.children
    all := all
    processes := processes.trans_lt fits.intervals
    each := fun e listed => (own listed).length_le.trans_lt all
    texts := kept.texts
    processTexts := fun e listed interval h => kept.texts interval ((own listed).subset h) }

end DFTracer.Aggregation.AssociationTracker
