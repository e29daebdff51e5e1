/-
# Process and boundary tracking

A tracker is fed events. Forks make the process tree, and boundary events give a process
intervals of time that have a value, given or counted up. Trackers of slices are merged, and
travel as bytes.
-/

import DFTracer.Aggregation.Metrics
import DFTracer.Flame.Transport

namespace DFTracer.Aggregation

open List

open Math (Table)

structure BoundaryInterval where
  name : Bytes
  value : Bytes
  startTs : UInt64
  endTs : UInt64
  deriving DecidableEq

structure BoundaryEventConfig where
  eventName : Bytes
  valueField : Bytes
  outputName : Bytes

/-- What a tracker reads of the configuration. -/
structure TrackerConfig where
  trackProcessParents : Bool
  boundaryEvents : List BoundaryEventConfig

/-- What sorting promises of intervals: the same ones, by start. -/
structure IntervalSort where
  sort : List BoundaryInterval → List BoundaryInterval
  perm : ∀ l, (sort l).Perm l
  sorted : ∀ l, (sort l).Pairwise fun a b => a.startTs ≤ b.startTs

structure AssociationTracker where
  processParents : Table UInt64 UInt64 := .empty
  allPids : Table UInt64 Unit := .empty
  processIntervals : Table UInt64 (List BoundaryInterval) := .empty
  allIntervals : List BoundaryInterval := []
  autoIncrementCounters : Table Bytes UInt64 := .empty

/-- The decimal digits of a number. -/
def decimal (n : Nat) : Bytes := (Nat.toDigits 10 n).map fun c => UInt8.ofNat c.toNat

/-- The counter of a process and an event name. -/
def counterKey (pid : UInt64) (eventName : Bytes) : Bytes :=
  decimal pid.toNat ++ 58 :: eventName

namespace AssociationTracker

/-- Count up a counter. -/
def countUp (t : AssociationTracker) (key : Bytes) : AssociationTracker × Bytes :=
  let counter := (t.autoIncrementCounters.lookup key).getD 0 + 1
  ({ t with autoIncrementCounters := t.autoIncrementCounters.alter key fun _ => counter },
    decimal counter.toNat)

/-- Keep an interval of a process. -/
def addInterval (t : AssociationTracker) (pid : UInt64) (interval : BoundaryInterval) :
    AssociationTracker :=
  { t with
    processIntervals := t.processIntervals.alter pid fun own => own.getD [] ++ [interval]
    allIntervals := t.allIntervals ++ [interval] }

/-- One boundary configuration. A boundary event without a value is numbered. -/
def extractBoundary (acc : FoldEvent) (t : AssociationTracker) (boundary : BoundaryEventConfig) :
    AssociationTracker :=
  if acc.name ≠ boundary.eventName then t
  else
    let value := acc.argString boundary.valueField
    let (t, finalValue) :=
      if value ≠ [] then (t, value) else t.countUp (counterKey acc.pid boundary.eventName)
    t.addInterval acc.pid ⟨boundary.outputName, finalValue, acc.ts, acc.ts + acc.dur⟩

/-- The process of an event. -/
def extractPid (config : TrackerConfig) (t : AssociationTracker) (acc : FoldEvent) :
    AssociationTracker :=
  if config.trackProcessParents ∧ acc.pid > 0 then
    { t with allPids := t.allPids.alter acc.pid fun _ => () }
  else t

/-- The child of a fork. -/
def extractFork (config : TrackerConfig) (t : AssociationTracker) (acc : FoldEvent) :
    AssociationTracker :=
  if config.trackProcessParents ∧ (acc.name = text "fork" ∨ acc.name = text "spawn") then
    let childPid := acc.argUint (text "ret")
    if childPid > 0 then
      { t with
        processParents := t.processParents.alter childPid fun _ => acc.pid
        allPids := t.allPids.alter childPid fun _ => () }
    else t
  else t

/-- Feed one event. -/
def extract (config : TrackerConfig) (t : AssociationTracker) (acc : FoldEvent) :
    AssociationTracker :=
  config.boundaryEvents.foldl (extractBoundary acc) ((t.extractPid config acc).extractFork config acc)

/-- Feed events to a tracker. -/
def feedFrom (config : TrackerConfig) (t : AssociationTracker) (events : List FoldEvent) :
    AssociationTracker :=
  events.foldl (extract config) t

/-- A tracker of its own, fed events. -/
def feed (config : TrackerConfig) (events : List FoldEvent) : AssociationTracker :=
  feedFrom config {} events

section Queries

variable (t : AssociationTracker)

def getParentPid (pid : UInt64) : UInt64 := (t.processParents.lookup pid).getD 0

def getRootPids : List UInt64 :=
  t.allPids.keys.filter fun pid => (t.processParents.lookup pid).isNone

/-- The intervals of a process. -/
def intervals (pid : UInt64) : List BoundaryInterval := (t.processIntervals.lookup pid).getD []

/-- Go through intervals up to the first one that starts later. -/
def collect (ts : UInt64) : List BoundaryInterval → Table Bytes Bytes → Table Bytes Bytes
  | [], result => result
  | interval :: rest, result =>
    if ts < interval.startTs then result
    else
      collect ts rest
        (if ts ≥ interval.startTs ∧ ts < interval.endTs then
          result.alter interval.name fun _ => interval.value
        else result)

/-- The associations of a process at a time, else those of its parent, and so on. -/
def getBoundaryAssociations : Nat → UInt64 → UInt64 → Option (Table Bytes Bytes)
  | 0, _, _ => none
  | fuel + 1, pid, ts =>
    let result := collect ts (t.intervals pid) .empty
    if result.entries.isEmpty ∧ t.getParentPid pid ≠ 0 then
      getBoundaryAssociations fuel (t.getParentPid pid) ts
    else some result

end Queries

/-- Take over another tracker. The counters stay what they are. -/
def merge (S : IntervalSort) (t other : AssociationTracker) : AssociationTracker where
  allPids := t.allPids.merge (fun _ v => v) other.allPids
  processParents := t.processParents.merge (fun _ parent => parent) other.processParents
  processIntervals :=
    (t.processIntervals.merge (fun own others => own.getD [] ++ others)
      other.processIntervals).mapValues S.sort
  allIntervals :=
    let all := t.allIntervals ++ other.allIntervals
    if all.isEmpty then all else S.sort all
  autoIncrementCounters := t.autoIncrementCounters

/-- The big-endian bytes of a number of `width` bytes. -/
def putBe (width v : Nat) : Bytes := (Flame.put width v).reverse

def putStr (s : Bytes) : Bytes := putBe 4 (s.length % 2 ^ 32) ++ s

def putInterval (interval : BoundaryInterval) : Bytes :=
  putStr interval.name ++ putStr interval.value ++ putBe 8 interval.startTs.toNat
    ++ putBe 8 interval.endTs.toNat

/-- Things after their number. -/
def putMany {α : Type} (putOne : α → Bytes) (l : List α) : Bytes :=
  putBe 4 (l.length % 2 ^ 32) ++ l.flatMap putOne

def putPid (e : UInt64 × Unit) : Bytes := putBe 8 e.1.toNat

def putParent (e : UInt64 × UInt64) : Bytes := putBe 8 e.1.toNat ++ putBe 8 e.2.toNat

def putProcess (e : UInt64 × List BoundaryInterval) : Bytes :=
  putBe 8 e.1.toNat ++ putMany putInterval e.2

def serialize (t : AssociationTracker) : Bytes :=
  putMany putPid t.allPids.entries ++ putMany putParent t.processParents.entries
    ++ putMany putInterval t.allIntervals ++ putMany putProcess t.processIntervals.entries

/-- The number that big-endian bytes are. -/
def decodeBe (bytes : Bytes) : Nat := bytes.foldl (fun v byte => v * 256 + byte.toNat) 0

/-- Read a number of `width` bytes and step over it. -/
def readBe (width : Nat) (data : Bytes) : Nat × Bytes :=
  (decodeBe (data.take width), data.drop width)

def readU64 (data : Bytes) : UInt64 × Bytes :=
  let (v, data) := readBe 8 data
  (UInt64.ofNat v, data)

def readStr (data : Bytes) : Bytes × Bytes :=
  let (length, data) := readBe 4 data
  (data.take length, data.drop length)

def readInterval (data : Bytes) : BoundaryInterval × Bytes :=
  let (name, data) := readStr data
  let (value, data) := readStr data
  let (startTs, data) := readU64 data
  let (endTs, data) := readU64 data
  (⟨name, value, startTs, endTs⟩, data)

/-- Read `n` things. -/
def readTimes {α : Type} (readOne : Bytes → α × Bytes) : Nat → Bytes → List α × Bytes
  | 0, data => ([], data)
  | n + 1, data =>
    let (a, data) := readOne data
    let (rest, data) := readTimes readOne n data
    (a :: rest, data)

/-- Read a number and as many things. -/
def readMany {α : Type} (readOne : Bytes → α × Bytes) (data : Bytes) : List α × Bytes :=
  let (n, data) := readBe 4 data
  readTimes readOne n data

def readPid (data : Bytes) : (UInt64 × Unit) × Bytes :=
  let (pid, data) := readU64 data
  ((pid, ()), data)

def readParent (data : Bytes) : (UInt64 × UInt64) × Bytes :=
  let (child, data) := readU64 data
  let (parent, data) := readU64 data
  ((child, parent), data)

def readProcess (data : Bytes) : (UInt64 × List BoundaryInterval) × Bytes :=
  let (pid, data) := readU64 data
  let (intervals, data) := readMany readInterval data
  ((pid, intervals), data)

/-- The tracker that bytes hold. It has no counters. -/
def deserialize (data : Bytes) : AssociationTracker :=
  let (pids, data) := readMany readPid data
  let (parents, data) := readMany readParent data
  let (all, data) := readMany readInterval data
  let (processes, _) := readMany readProcess data
  { allPids := pids.foldl (fun t e => t.alter e.1 fun _ => e.2) .empty
    processParents := parents.foldl (fun t e => t.alter e.1 fun _ => e.2) .empty
    allIntervals := all
    processIntervals := processes.foldl (fun t e => t.alter e.1 fun own => own.getD [] ++ e.2)
      .empty }

end AssociationTracker

/-- How a tracker comes about: fed a slice, merged from two, or sent as bytes. -/
inductive Sharding where
  | slice (events : List FoldEvent)
  | merge (left right : Sharding)
  | transport (tracker : Sharding)

namespace Sharding

/-- All events, in order. -/
def events : Sharding → List FoldEvent
  | slice events => events
  | merge left right => left.events ++ right.events
  | transport tracker => tracker.events

/-- The tracker. -/
def run (S : IntervalSort) (config : TrackerConfig) : Sharding → AssociationTracker
  | slice events => .feed config events
  | merge left right => (left.run S config).merge S (right.run S config)
  | transport tracker => .deserialize (tracker.run S config).serialize

end Sharding

section Events

variable (config : TrackerConfig)

/-- The boundary configurations that an event is one of. -/
def recorded (acc : FoldEvent) : List BoundaryEventConfig :=
  config.boundaryEvents.filter fun boundary => acc.name = boundary.eventName

/-- The counters that an event counts up. -/
def autoKeys (acc : FoldEvent) : List Bytes :=
  ((recorded config acc).filter fun boundary => acc.argString boundary.valueField = []).map
    fun boundary => counterKey acc.pid boundary.eventName

/-- The starts that an event gives intervals of a process. -/
def starts (pid : UInt64) (acc : FoldEvent) : List UInt64 :=
  if acc.pid = pid then (recorded config acc).map fun _ => acc.ts else []

/-- The child process that an event forks. -/
def forked (acc : FoldEvent) : List UInt64 :=
  if config.trackProcessParents ∧ (acc.name = text "fork" ∨ acc.name = text "spawn") ∧
      acc.argUint (text "ret") > 0 then [acc.argUint (text "ret")] else []

/-- The processes that an event names. -/
def named (acc : FoldEvent) : List UInt64 :=
  (if config.trackProcessParents ∧ acc.pid > 0 then [acc.pid] else []) ++ forked config acc

/-- The lengths that are written in 32 bits fit there. -/
structure Fits32 (events : List FoldEvent) : Prop where
  pids : (events.flatMap (named config)).dedup.length < 2 ^ 32
  children : (events.flatMap (forked config)).dedup.length < 2 ^ 32
  intervals : (events.flatMap (recorded config)).length < 2 ^ 32
  texts : ∀ acc ∈ events, ∀ boundary ∈ recorded config acc,
    boundary.outputName.length < 2 ^ 32 ∧ (acc.argString boundary.valueField).length < 2 ^ 32

/-- No counter is counted up on both sides of a merge, and what is sent fits. -/
def Sharding.Careful : Sharding → Prop
  | slice _ => True
  | merge left right =>
    left.Careful ∧ right.Careful ∧
      ∀ key ∈ left.events.flatMap (autoKeys config), key ∉ right.events.flatMap (autoKeys config)
  | transport tracker => tracker.Careful ∧ Fits32 config tracker.events

/-- The boundary events of each process come in the order of their starts, which are distinct. -/
def InOrder (events : List FoldEvent) : Prop :=
  ∀ pid, (events.flatMap (starts config pid)).Pairwise (· < ·)

end Events

end DFTracer.Aggregation

/-! ## A tracker survives transport

The bytes of a tracker are read back as a tracker that shows the same, as long as the numbers
and the texts that are written with a length in 32 bits have one. -/

namespace DFTracer.Aggregation.AssociationTracker

open List
open Math (Table)

/-- Two trackers hold the same but for the order, and for the counters. -/
structure ShowsSame (t u : AssociationTracker) : Prop where
  parents : ∀ pid, t.processParents.lookup pid = u.processParents.lookup pid
  pids : ∀ pid, t.allPids.lookup pid = u.allPids.lookup pid
  processes : ∀ pid, t.processIntervals.lookup pid = u.processIntervals.lookup pid
  all : t.allIntervals.Perm u.allIntervals

theorem ShowsSame.refl (t : AssociationTracker) : ShowsSame t t :=
  ⟨fun _ => rfl, fun _ => rfl, fun _ => rfl, .refl _⟩

variable {t u : AssociationTracker} {α : Type} {readOne : Bytes → α × Bytes} {putOne : α → Bytes}
  {l : List α}

theorem ShowsSame.trans {v : AssociationTracker} (h : ShowsSame t u) (h' : ShowsSame u v) :
    ShowsSame t v where
  parents pid := (h.parents pid).trans (h'.parents pid)
  pids pid := (h.pids pid).trans (h'.pids pid)
  processes pid := (h.processes pid).trans (h'.processes pid)
  all := h.all.trans h'.all

theorem ShowsSame.intervals (h : ShowsSame t u) (pid : UInt64) :
    t.intervals pid = u.intervals pid :=
  congrArg (Option.getD · []) (h.processes pid)

/-- The numbers and texts that are written with a length in 32 bits have one. -/
structure Storable (t : AssociationTracker) : Prop where
  pids : t.allPids.entries.length < 2 ^ 32
  parents : t.processParents.entries.length < 2 ^ 32
  all : t.allIntervals.length < 2 ^ 32
  processes : t.processIntervals.entries.length < 2 ^ 32
  each : ∀ e ∈ t.processIntervals.entries, e.2.length < 2 ^ 32
  texts : ∀ interval ∈ t.allIntervals, interval.name.length < 2 ^ 32 ∧ interval.value.length < 2 ^ 32
  processTexts : ∀ e ∈ t.processIntervals.entries, ∀ interval ∈ e.2,
    interval.name.length < 2 ^ 32 ∧ interval.value.length < 2 ^ 32

/-- What is stored does not depend on the order. -/
theorem ShowsSame.storable (h : ShowsSame t u) (storable : u.Storable) :
    t.Storable where
  pids := (Table.length_entries h.pids).trans_lt storable.pids
  parents := (Table.length_entries h.parents).trans_lt storable.parents
  all := h.all.length_eq.trans_lt storable.all
  processes := (Table.length_entries h.processes).trans_lt storable.processes
  each e listed := storable.each e ((Table.mem_entries h.processes e).mp listed)
  texts interval listed := storable.texts interval (h.all.subset listed)
  processTexts e listed := storable.processTexts e ((Table.mem_entries h.processes e).mp listed)

/-! ### Reading what was put -/

theorem foldr_littleEndian (bytes : Bytes) :
    bytes.foldr (fun byte v => v * 256 + byte.toNat) 0 = Flame.littleEndian bytes := by
  induction bytes with
  | nil => rfl
  | cons byte bytes ih =>
    rw [foldr_cons, ih, Flame.littleEndian, Nat.mul_comm, Nat.add_comm]

theorem readBe_putBe {width v : Nat} (hv : v < 256 ^ width) (rest : Bytes) :
    readBe width (putBe width v ++ rest) = (v, rest) := by
  have length : (putBe width v).length = width := by
    rw [putBe, length_reverse, Flame.put_length]
  rw [readBe, take_left' length, drop_left' length, decodeBe, putBe, foldl_reverse,
    foldr_littleEndian, Flame.littleEndian_put width v hv]

theorem readU64_putBe (x : UInt64) (rest : Bytes) :
    readU64 (putBe 8 x.toNat ++ rest) = (x, rest) := by
  unfold readU64
  rw [readBe_putBe x.toNat_lt]
  exact congrArg (·, rest) UInt64.ofNat_toNat

theorem readLength_putBe {n : Nat} (short : n < 2 ^ 32) (rest : Bytes) :
    readBe 4 (putBe 4 (n % 2 ^ 32) ++ rest) = (n, rest) := by
  rw [Nat.mod_eq_of_lt short]
  exact readBe_putBe short rest

theorem readStr_putStr {s : Bytes} (short : s.length < 2 ^ 32) (rest : Bytes) :
    readStr (putStr s ++ rest) = (s, rest) := by
  unfold readStr putStr
  rw [append_assoc, readLength_putBe short]
  dsimp only
  rw [take_left, drop_left]

/-- The value is read back when it was put. -/
def Reads {α : Type} (readOne : Bytes → α × Bytes) (putOne : α → Bytes) (a : α) : Prop :=
  ∀ rest, readOne (putOne a ++ rest) = (a, rest)

theorem readTimes_flatMap (each : ∀ a ∈ l, Reads readOne putOne a) (rest : Bytes) :
    readTimes readOne l.length (l.flatMap putOne ++ rest) = (l, rest) := by
  induction l with
  | nil => rfl
  | cons a l ih =>
    rw [flatMap_cons, append_assoc, length_cons, readTimes,
      each a mem_cons_self]
    dsimp only
    rw [ih fun b hb => each b (mem_cons_of_mem a hb)]

theorem reads_putMany (short : l.length < 2 ^ 32) (each : ∀ a ∈ l, Reads readOne putOne a) :
    Reads (readMany readOne) (putMany putOne) l := by
  intro rest
  unfold readMany putMany
  rw [append_assoc, readLength_putBe short]
  exact readTimes_flatMap each rest

theorem reads_interval {interval : BoundaryInterval} (name : interval.name.length < 2 ^ 32)
    (value : interval.value.length < 2 ^ 32) : Reads readInterval putInterval interval := by
  intro rest
  unfold readInterval putInterval
  simp only [append_assoc, readStr_putStr name, readStr_putStr value, readU64_putBe]

theorem reads_pid (e : UInt64 × Unit) : Reads readPid putPid e := by
  intro rest
  unfold readPid putPid
  rw [readU64_putBe]

theorem reads_parent (e : UInt64 × UInt64) : Reads readParent putParent e := by
  intro rest
  unfold readParent putParent
  simp only [append_assoc, readU64_putBe]

theorem reads_process {e : UInt64 × List BoundaryInterval} (short : e.2.length < 2 ^ 32)
    (texts : ∀ interval ∈ e.2,
      interval.name.length < 2 ^ 32 ∧ interval.value.length < 2 ^ 32) :
    Reads readProcess putProcess e := by
  intro rest
  have intervals : Reads (readMany readInterval) (putMany putInterval) e.2 :=
    reads_putMany short fun interval h => reads_interval (texts interval h).1 (texts interval h).2
  unfold readProcess putProcess
  rw [append_assoc, readU64_putBe]
  dsimp only
  rw [intervals rest]

/-- A storable tracker is read back as one that shows the same. -/
theorem deserialize_serialize (storable : t.Storable) :
    ShowsSame (deserialize t.serialize) t := by
  have pids : Reads (readMany readPid) (putMany putPid) t.allPids.entries :=
    reads_putMany storable.pids fun e _ => reads_pid e
  have parents : Reads (readMany readParent) (putMany putParent) t.processParents.entries :=
    reads_putMany storable.parents fun e _ => reads_parent e
  have all : Reads (readMany readInterval) (putMany putInterval) t.allIntervals :=
    reads_putMany storable.all fun interval h =>
      reads_interval (storable.texts interval h).1 (storable.texts interval h).2
  have processes : Reads (readMany readProcess) (putMany putProcess) t.processIntervals.entries :=
    reads_putMany storable.processes fun e h =>
      reads_process (storable.each e h) (storable.processTexts e h)
  have last := processes []
  rw [append_nil] at last
  have read : deserialize t.serialize =
      { allPids := Table.empty.merge (fun _ v => v) t.allPids
        processParents := Table.empty.merge (fun _ v => v) t.processParents
        allIntervals := t.allIntervals
        processIntervals := Table.empty.merge (fun own others => own.getD [] ++ others)
          t.processIntervals } := by
    unfold deserialize serialize
    rw [append_assoc, append_assoc, pids _]
    dsimp only
    rw [parents _]
    rw [all _]
    rw [last]
    rfl
  rw [read]
  exact {
    parents := fun pid => Table.lookup_merge_empty _ (fun _ => rfl) _ pid
    pids := fun pid => Table.lookup_merge_empty _ (fun _ => rfl) _ pid
    processes := fun pid => Table.lookup_merge_empty _ (fun _ => rfl) _ pid
    all := .refl _ }

end DFTracer.Aggregation.AssociationTracker
