/-
# Sharded tracking

Trackers of slices that are merged in order, with transports between, answer like one tracker
that was fed the whole list, when no counter is counted up on both sides of a merge and the
boundary events of each process come in order. A counter that is counted up on both sides
starts again there.
-/

import DFTracer.Aggregation.AssociationHistory
import DFTracer.Math.Walks

namespace DFTracer.Aggregation.AssociationTracker

open List

open Math (Table)

variable {config : TrackerConfig}

/-- Intervals whose starts rise are sorted. -/
theorem sort_of_rising (S : IntervalSort) {l : List BoundaryInterval}
    (rising : (l.map (·.startTs)).Pairwise (· < ·)) : S.sort l = l := by
  have strict : l.Pairwise fun a b => a.startTs < b.startTs := pairwise_map.mp rising
  have ordered : l.Pairwise fun a b => a.startTs ≤ b.startTs := strict.imp UInt64.le_of_lt
  have same (a b : BoundaryInterval) (ha : a ∈ l) (hb : b ∈ l) (le : a.startTs ≤ b.startTs)
      (ge : b.startTs ≤ a.startTs) : a = b := by
    have distinct : (l.map (·.startTs)).Nodup := rising.imp fun h => UInt64.ne_of_lt h
    exact inj_on_of_nodup_map distinct ha hb (UInt64.le_antisymm le ge)
  exact List.Perm.eq_of_pairwise
    (fun a b ha hb => same a b ((S.perm l).subset ha) hb) (S.sorted l) ordered (S.perm l)

/-- Trackers that show what two lists of events say are merged into one that shows what the
lists say together. -/
theorem merge_showsSame (S : IntervalSort) {t u : AssociationTracker} {events rest : List FoldEvent}
    (left : ShowsSame t (feed config events)) (right : ShowsSame u (feed config rest))
    (apart : ∀ key ∈ events.flatMap (autoKeys config), key ∉ rest.flatMap (autoKeys config))
    (ordered : InOrder config (events ++ rest)) :
    ShowsSame (t.merge S u) (feed config (events ++ rest)) := by
  have fresh : ∀ key ∈ rest.flatMap (autoKeys config),
      (feed config events).autoIncrementCounters.lookup key = none := fun key listed =>
    feedFrom_counter (fun h => apart key h listed) {}
  have beside := beside_feedFrom fresh
  rw [← feed_append] at beside
  refine { parents := ?_, pids := ?_, processes := ?_, all := ?_ }
  · intro pid
    rw [beside.parents, ← left.parents, ← right.parents]
    exact Table.lookup_merge _ _ _ _
  · intro pid
    rw [beside.pids, ← left.pids, ← right.pids]
    exact Table.lookup_merge _ _ _ _
  · intro pid
    have joined : (t.merge S u).processIntervals.lookup pid
        = ((feed config (events ++ rest)).processIntervals.lookup pid).map S.sort := by
      unfold merge
      rw [Table.lookup_mapValues, Table.lookup_merge, beside.processes, ← left.processes,
        ← right.processes, ← left.intervals]
      rfl
    rw [joined]
    have rising := ordered pid
    rw [← feed_starts, intervals] at rising
    cases found : (feed config (events ++ rest)).processIntervals.lookup pid with
    | none => rfl
    | some own =>
      rw [found] at rising
      exact congrArg some (sort_of_rising S rising)
  · rw [beside.all]
    have all : (t.allIntervals ++ u.allIntervals).Perm
        ((feed config events).allIntervals ++ (feed config rest).allIntervals) :=
      left.all.append right.all
    unfold merge
    dsimp only
    split
    · exact all
    · exact (S.perm _).trans all

/-- A careful sharding of events in order shows what the events say. -/
theorem run_showsSame (S : IntervalSort) {p : Sharding} (careful : p.Careful config)
    (ordered : InOrder config p.events) : ShowsSame (p.run S config) (feed config p.events) := by
  induction p with
  | slice events => exact ShowsSame.refl _
  | merge left right leftIH rightIH =>
    have leftOrdered : InOrder config left.events := fun pid => by
      have all := ordered pid
      rw [Sharding.events, flatMap_append] at all
      exact (pairwise_append.mp all).1
    have rightOrdered : InOrder config right.events := fun pid => by
      have all := ordered pid
      rw [Sharding.events, flatMap_append] at all
      exact (pairwise_append.mp all).2.1
    exact merge_showsSame S (leftIH careful.1 leftOrdered) (rightIH careful.2.1 rightOrdered)
      careful.2.2 ordered
  | transport tracker ih =>
    have same := ih careful.1 ordered
    exact (deserialize_serialize (same.storable (storable_feed careful.2))).trans same

section Queries

variable {t u : AssociationTracker} (same : ShowsSame t u)

include same

theorem ShowsSame.getParentPid (pid : UInt64) : t.getParentPid pid = u.getParentPid pid :=
  congrArg (Option.getD · 0) (same.parents pid)

theorem ShowsSame.mem_getRootPids (pid : UInt64) :
    pid ∈ t.getRootPids ↔ pid ∈ u.getRootPids := by
  have keys : pid ∈ t.allPids.keys ↔ pid ∈ u.allPids.keys := by
    rw [← not_iff_not, ← Table.lookup_eq_none_iff, ← Table.lookup_eq_none_iff, same.pids]
  unfold getRootPids
  rw [mem_filter, mem_filter, keys, same.parents]

theorem ShowsSame.getBoundaryAssociations (fuel : Nat) (pid ts : UInt64) :
    t.getBoundaryAssociations fuel pid ts = u.getBoundaryAssociations fuel pid ts := by
  induction fuel generalizing pid with
  | zero => rfl
  | succ fuel ih =>
    unfold AssociationTracker.getBoundaryAssociations
    rw [same.intervals, same.getParentPid, ih]

end Queries

end AssociationTracker

open List
open AssociationTracker (feed)

/-- A careful sharding of events in order answers like one tracker that was fed them all. -/
theorem sharding_agrees (S : IntervalSort) (config : TrackerConfig) (p : Sharding)
    (careful : p.Careful config) (ordered : InOrder config p.events) :
    (∀ pid, (p.run S config).getParentPid pid = (feed config p.events).getParentPid pid) ∧
    (∀ pid, pid ∈ (p.run S config).getRootPids ↔ pid ∈ (feed config p.events).getRootPids) ∧
    ∀ fuel pid ts, (p.run S config).getBoundaryAssociations fuel pid ts
      = (feed config p.events).getBoundaryAssociations fuel pid ts := by
  have same := AssociationTracker.run_showsSame S careful ordered
  exact ⟨same.getParentPid, same.mem_getRootPids, same.getBoundaryAssociations⟩

/-- Intervals inserted by their starts. -/
def insertionSort : IntervalSort where
  sort := List.insertionSort fun a b => a.startTs ≤ b.startTs
  perm := List.perm_insertionSort _
  sorted := by
    exact List.pairwise_insertionSort _

/-- Events named "epoch" are boundaries, whose values are arguments "n". -/
def epochs : TrackerConfig where
  trackProcessParents := false
  boundaryEvents := [⟨[101, 112, 111, 99, 104], [110], [101, 112, 111, 99, 104]⟩]

/-- An epoch without a value. -/
def epoch (pid ts : UInt64) : FoldEvent :=
  { name := [101, 112, 111, 99, 104], pid := pid, ts := ts, dur := 10 }

/-- Two epochs of one process in two slices. -/
def twoSlices : Sharding := .merge (.slice [epoch 1 0]) (.slice [epoch 1 20])

/-- The second epoch is numbered 1 where it is counted in a slice of its own. -/
theorem twoSlices_renumbered :
    (∀ pid, (twoSlices.events.flatMap (starts epochs pid)).Nodup) ∧
    twoSlices.events.flatMap (forked epochs) = [] ∧
    (twoSlices.run insertionSort epochs).getBoundaryAssociations 1 1 25
      ≠ (feed epochs twoSlices.events).getBoundaryAssociations 1 1 25 := by
  refine ⟨fun pid => ?distinct, by decide +kernel, fun same => ?apart⟩
  case distinct =>
    by_cases one : (1 : UInt64) = pid
    · subst one
      decide +kernel
    · have none : twoSlices.events.flatMap (starts epochs pid) = [] := by
        simp [twoSlices, Sharding.events, starts, epoch, one]
      rw [none]
      exact nodup_nil
  case apart =>
    have entries := congrArg (Option.map (·.entries)) same
    revert entries
    decide +kernel

/-- Epochs of two processes in two slices, one of which is sent. -/
def twoProcesses : Sharding := .merge (.transport (.slice [epoch 1 0])) (.slice [epoch 2 20])

theorem sharding_agrees_twoProcesses :
    (twoProcesses.run insertionSort epochs).getBoundaryAssociations 1 2 25
      = (feed epochs twoProcesses.events).getBoundaryAssociations 1 2 25 := by
  have fits : Fits32 epochs [epoch 1 0] :=
    ⟨by decide +kernel, by decide +kernel, by decide +kernel, by decide +kernel⟩
  have careful : twoProcesses.Careful epochs := ⟨⟨trivial, fits⟩, trivial, by decide +kernel⟩
  have ordered : InOrder epochs twoProcesses.events := by
    intro pid
    by_cases one : 1 = pid
    · subst one
      decide +kernel
    · by_cases two : 2 = pid
      · subst two
        decide +kernel
      · have none : twoProcesses.events.flatMap (starts epochs pid) = [] := by
          simp [twoProcesses, Sharding.events, starts, epoch, one, two]
        rw [none]
        exact List.Pairwise.nil
  exact (sharding_agrees insertionSort epochs twoProcesses careful ordered).2.2 1 2 25

end DFTracer.Aggregation

/-! ## Looking up boundaries

The associations of a process that has none at a time are those of its parent. A parent is what
the last fork that reported the child says, and nothing keeps reports from going around in a
circle. The lookup returns unless it comes into one. -/

namespace DFTracer.Aggregation

open List
open Math (Table walk Leads)
open Relation (ReflTransGen TransGen)

/-! ### Trackers and what was reported -/

/-- How a tracker comes about: it is fed events, and takes over trackers. -/
inductive TrackerHistory where
  | empty
  | extract (before : TrackerHistory) (acc : FoldEvent)
  | merge (before other : TrackerHistory)

namespace TrackerHistory

/-- The tracker. -/
def run (S : IntervalSort) (config : TrackerConfig) : TrackerHistory → AssociationTracker
  | empty => {}
  | extract before acc => (before.run S config).extract config acc
  | merge before other => (before.run S config).merge S (other.run S config)

/-- All events, those of a tracker that was taken over after one's own. -/
def events : TrackerHistory → List FoldEvent
  | empty => []
  | extract before acc => before.events ++ [acc]
  | merge before other => before.events ++ other.events

end TrackerHistory

section Reports

variable (config : TrackerConfig)

/-- What an event says about the parent of a process. -/
def report (child : UInt64) (parent : Option UInt64) (acc : FoldEvent) : Option UInt64 :=
  if child ∈ forked config acc then some acc.pid else parent

/-- The parent that the last fork of a process reports. -/
def reportedParent (events : List FoldEvent) (child : UInt64) : Option UInt64 :=
  events.foldl (report config child) none

end Reports

section Parents

variable {config : TrackerConfig}

/-- An older report counts where there is no newer one. -/
theorem foldl_report (child : UInt64) (parent : Option UInt64) (events : List FoldEvent) :
    events.foldl (report config child) parent = (reportedParent config events child).or parent := by
  rw [reportedParent]
  induction events generalizing parent with
  | nil => rfl
  | cons acc events ih =>
    rw [foldl_cons, foldl_cons, ih, ih (report config child none acc), report, report]
    split
    · cases events.foldl (report config child) none <;> rfl
    · rw [Option.or_none]

theorem reportedParent_append (child : UInt64) (events rest : List FoldEvent) :
    reportedParent config (events ++ rest) child
      = (reportedParent config rest child).or (reportedParent config events child) := by
  rw [reportedParent, foldl_append, foldl_report]
  rfl

theorem extractBoundaries_processParents (acc : FoldEvent) (boundaries : List BoundaryEventConfig)
    (t : AssociationTracker) :
    (boundaries.foldl (AssociationTracker.extractBoundary acc) t).processParents
      = t.processParents := by
  induction boundaries generalizing t with
  | nil => rfl
  | cons boundary boundaries ih =>
    rw [foldl_cons, ih, AssociationTracker.extractBoundary]
    split
    · rfl
    · dsimp only
      split <;> rfl

theorem mem_forked {acc : FoldEvent} {child : UInt64} :
    child ∈ forked config acc ↔
      config.trackProcessParents ∧ (acc.name = text "fork" ∨ acc.name = text "spawn") ∧
        acc.argUint (text "ret") > 0 ∧ child = acc.argUint (text "ret") := by
  rw [forked]
  split
  · rename_i forks
    rw [mem_singleton]
    exact ⟨fun same => ⟨forks.1, forks.2.1, forks.2.2, same⟩, fun all => all.2.2.2⟩
  · rename_i other
    exact ⟨fun listed => absurd listed not_mem_nil,
      fun all => absurd ⟨all.1, all.2.1, all.2.2.1⟩ other⟩

/-- A fork is kept as the parent of its child. -/
theorem lookup_extract (t : AssociationTracker) (acc : FoldEvent) (child : UInt64) :
    (t.extract config acc).processParents.lookup child
      = report config child (t.processParents.lookup child) acc := by
  have pids : (t.extractPid config acc).processParents = t.processParents := by
    rw [AssociationTracker.extractPid]
    split <;> rfl
  rw [AssociationTracker.extract, extractBoundaries_processParents, AssociationTracker.extractFork,
    report]
  by_cases forks : config.trackProcessParents ∧ (acc.name = text "fork" ∨ acc.name = text "spawn")
  · rw [if_pos forks]
    by_cases positive : acc.argUint (text "ret") > 0
    · rw [if_pos positive]
      rw [Table.lookup_alter, pids]
      by_cases same : child = acc.argUint (text "ret")
      · rw [if_pos same, if_pos (mem_forked.mpr ⟨forks.1, forks.2, positive, same⟩)]
      · rw [if_neg same, if_neg fun listed => same (mem_forked.mp listed).2.2.2]
    · rw [if_neg positive, pids, if_neg fun listed => positive (mem_forked.mp listed).2.2.1]
  · rw [if_neg forks, pids, if_neg fun listed =>
      forks ⟨(mem_forked.mp listed).1, (mem_forked.mp listed).2.1⟩]

/-- Whatever its history, a tracker has the parents that were reported last. -/
theorem lookup_run (S : IntervalSort) (history : TrackerHistory) (child : UInt64) :
    (history.run S config).processParents.lookup child
      = reportedParent config history.events child := by
  induction history with
  | empty => rfl
  | extract before acc ih =>
    rw [TrackerHistory.run, lookup_extract, ih, TrackerHistory.events, reportedParent_append]
    change _ = (report config child none acc).or _
    rw [report, report]
    split <;> rfl
  | merge before other ih ih' =>
    rw [TrackerHistory.run, AssociationTracker.merge, Table.lookup_merge, ih, ih',
      TrackerHistory.events, reportedParent_append]
    cases reportedParent config other.events child <;> rfl

end Parents

namespace AssociationTracker

variable (t : AssociationTracker)

/-- The process has no association at a time. -/
def Silent (ts pid : UInt64) : Prop := (collect ts (t.intervals pid) .empty).entries = []

instance (ts pid : UInt64) : Decidable (t.Silent ts pid) :=
  inferInstanceAs (Decidable (_ = []))

end AssociationTracker

namespace AssociationTracker

variable (t : AssociationTracker)

/-- Where the lookup goes on, if it does. -/
def nextLookup (ts pid : UInt64) : Option UInt64 :=
  if t.Silent ts pid ∧ t.getParentPid pid ≠ 0 then some (t.getParentPid pid) else none

variable {t}

/-- A lookup needs more fuel as long as its walk goes on. -/
theorem getBoundaryAssociations_isSome (fuel : Nat) (pid ts : UInt64) :
    (t.getBoundaryAssociations fuel pid ts).isSome ↔ walk (t.nextLookup ts) fuel pid = none := by
  induction fuel generalizing pid with
  | zero => simp [getBoundaryAssociations, walk]
  | succ fuel ih =>
    rw [getBoundaryAssociations, walk, nextLookup]
    by_cases up : t.Silent ts pid ∧ t.getParentPid pid ≠ 0
    · rw [if_pos up, if_pos ⟨List.isEmpty_iff.mpr up.1, up.2⟩, ih]
      rfl
    · rw [if_neg up, if_neg fun both => up ⟨List.isEmpty_iff.mp both.1, both.2⟩]
      exact ⟨fun _ => rfl, fun _ => rfl⟩

theorem leads_nextLookup {ts pid parent : UInt64} :
    Leads (t.nextLookup ts) pid parent ↔
      t.Silent ts pid ∧ t.processParents.lookup pid = some parent ∧ parent ≠ 0 := by
  rw [Leads, nextLookup, getParentPid]
  split
  · rename_i up
    rw [Option.some_inj]
    constructor
    · intro same
      refine ⟨up.1, ?_, same ▸ up.2⟩
      cases found : t.processParents.lookup pid with
      | none => exact absurd (by rw [found]; rfl) up.2
      | some q => rw [← same, found, Option.getD_some]
    · rintro ⟨_, found, _⟩
      rw [found, Option.getD_some]
  · rename_i ends
    constructor
    · intro none
      cases none
    · rintro ⟨silent, found, nonzero⟩
      refine absurd ⟨silent, ?_⟩ ends
      rwa [found, Option.getD_some]

/-- Only processes with a reported parent are gone on from. -/
theorem finite_nextLookup (ts : UInt64) : {pid | (t.nextLookup ts pid).isSome}.Finite := by
  apply (finite_toSet t.processParents.keys).subset
  intro pid goesOn
  obtain ⟨parent, leads⟩ := Option.isSome_iff_exists.mp goesOn
  by_contra absent
  have found := (leads_nextLookup.mp leads).2.1
  rw [Table.lookup_eq_none_iff.mpr absent] at found
  cases found

/-- A lookup returns unless it comes to a process that it comes back to. -/
theorem lookup_returns (pid ts : UInt64) :
    (∃ fuel result, t.getBoundaryAssociations fuel pid ts = some result) ↔
      ¬ ∃ q, ReflTransGen (Leads (t.nextLookup ts)) pid q ∧
        TransGen (Leads (t.nextLookup ts)) q q := by
  rw [← Math.walk_ends_iff (finite_nextLookup ts)]
  simp only [← getBoundaryAssociations_isSome, Option.isSome_iff_exists]

end AssociationTracker

/-- A process has no association at a time, and the last report names a parent for it. -/
def AsksParent (S : IntervalSort) (config : TrackerConfig) (history : TrackerHistory)
    (ts pid parent : UInt64) : Prop :=
  (history.run S config).Silent ts pid ∧
    reportedParent config history.events pid = some parent ∧ parent ≠ 0

theorem leads_run (S : IntervalSort) (config : TrackerConfig) (history : TrackerHistory)
    (ts : UInt64) :
    Leads ((history.run S config).nextLookup ts) = AsksParent S config history ts := by
  ext pid parent
  rw [AssociationTracker.leads_nextLookup, lookup_run, AsksParent]

/-- A lookup returns if and only if it does not come, going to reported parents from processes
that have no association, to a process that it comes back to. -/
theorem getBoundaryAssociations_returns_iff (S : IntervalSort) (config : TrackerConfig)
    (history : TrackerHistory) (pid ts : UInt64) :
    (∃ fuel result,
        (history.run S config).getBoundaryAssociations fuel pid ts = some result) ↔
      ¬ ∃ q, ReflTransGen (AsksParent S config history ts) pid q ∧
        TransGen (AsksParent S config history ts) q q := by
  rw [AssociationTracker.lookup_returns, leads_run]

/-- A process that is reported as its own child. -/
def ownChild : FoldEvent where
  name := text "fork"
  pid := 1
  args := [(text "ret", .int64 1)]

def processTree : TrackerConfig where
  trackProcessParents := true
  boundaryEvents := []

/-- Its lookup never returns. -/
theorem ownChild_endless : ¬ ∀ (S : IntervalSort) (config : TrackerConfig)
    (history : TrackerHistory) (pid ts : UInt64), ∃ fuel result,
      (history.run S config).getBoundaryAssociations fuel pid ts = some result := by
  intro returns
  have result := returns insertionSort processTree (.extract .empty ownChild) 1 0
  rw [AssociationTracker.lookup_returns, leads_run] at result
  have asks : AsksParent insertionSort processTree (.extract .empty ownChild) 0 1 1 :=
    ⟨rfl, by decide +kernel, by decide⟩
  exact result ⟨1, .refl, .single asks⟩

end DFTracer.Aggregation
