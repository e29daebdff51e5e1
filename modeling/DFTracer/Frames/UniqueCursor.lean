/-
# The streaming distinct

The first row of every key goes out, in the order of the input. As long as the keys fit in the
budget they are held in memory. After that every row gets a row id and goes to one of sixteen run
files by the hash of its key, rows of keys already seen left out. Each file gives the row of least
id for every key, a file that is too large is partitioned again, and the rows that remain are
merged by row id.
-/

import DFTracer.Frames.Spill
import DFTracer.Math.RunMerge

namespace DFTracer.Frames

open DFTracer.Math (popMin takeMin)

/-- A cell is null or the bytes of a value. -/
abbrev Cell := Option Bytes

/-- A value has the width of its type. A truth value is one byte. -/
def Cell.Fits (d : DataType) : Cell → Prop
  | none => True
  | some b => (d.id = .Bool → b = [0] ∨ b = [1]) ∧
      ∀ w, valueDomain d.id = .Numeric → byteWidth d.id d.fixedSize = some w → b.length = w

/-- A cell for each column. -/
structure Row (types : List DataType) where
  cells : List Cell
  fits : List.Forall₂ Cell.Fits types cells

/-- A row with its place in the whole input. -/
abbrev Tagged (types : List DataType) := Nat × Row types

/-- A part of a frame: the types its columns have by now, and its rows. -/
structure Morsel (ρ : Type) where
  types : List DataType
  rows : List ρ

/-- The columns of the key: the named ones, or every column. -/
def keyCols {α : Type} (keyIdx : List Nat) (data : List α) : List α :=
  if keyIdx = [] then data else keyIdx.filterMap fun k => data[k]?

/-- Four bytes, the lowest first. -/
def le32 (n : Nat) : Bytes :=
  [UInt8.ofNat n, UInt8.ofNat (n / 256), UInt8.ofNat (n / 65536), UInt8.ofNat (n / 16777216)]

/-- The encoding of a cell: a null flag and the raw bytes, behind their length as a 32-bit
number in a column of byte strings. -/
def encodeCell (d : DataType) : Cell → Bytes
  | none => [0]
  | some b => 1 :: if valueDomain d.id = .Bytes then le32 (b.length % 2 ^ 32) ++ b else b

/-- What a cell appends to a key. -/
def appendCell (d : DataType) (c : Cell) : Except InvalidArgument Bytes :=
  if isOrderableType d.id then .ok (encodeCell d c)
  else
    .error ⟨"column type '" ++ typeName d.id ++ "' has no per-row value to key on"⟩

/-- The key of a row across the given columns. -/
def rowKey : List DataType → List Cell → Except InvalidArgument Bytes
  | d :: ds, c :: cs => do
      let b ← appendCell d c
      let rest ← rowKey ds cs
      return b ++ rest
  | _, _ => .ok []

/-- A distinct over a frame: its types, the positions of the key columns (none stands for
all), the memory budget, and how many rows a morsel is asked to hold. The hash of byte
strings is the standard library's. -/
structure UniquePlan where
  types : List DataType
  keyIdx : List Nat
  keyIdx_lt : ∀ k ∈ keyIdx, k < types.length
  keyed : ∀ d ∈ keyCols keyIdx types, isOrderableType d.id = true
  budget : Nat
  hash : Bytes → UInt64
  parallel : Bool
  maxRows : Nat
  maxRows_pos : 0 < maxRows

abbrev UniquePlan.Row (p : UniquePlan) := Frames.Row p.types

abbrev UniquePlan.Tagged (p : UniquePlan) := Frames.Tagged p.types

variable (p : UniquePlan)

/-- The keys of the rows of a morsel, read by the types its columns have. -/
def rowKeys (types : List DataType) (rows : List p.Row) : Except InvalidArgument (List Bytes) :=
  rows.mapM fun r => rowKey (keyCols p.keyIdx types) (keyCols p.keyIdx r.cells)

/-- The seen keys: one set, or one for each bucket where a parallel backend is installed. -/
structure Seen where
  serial : List Bytes
  buckets : List (List Bytes)

def dedupPartitions : Nat := 32

def dedupEntryOverhead : Nat := 48

/-- The bucket of a key. -/
def bucketOf (hash : Bytes → UInt64) (n : Nat) (key : Bytes) : Nat := (hash key).toNat % n

/-- Insert keys into a set, and tell which of them were not there. -/
def insertAll : List (Bytes × Nat) → List Bytes → List Nat × List Bytes
  | [], set => ([], set)
  | (key, i) :: keys, set =>
    if key ∈ set then insertAll keys set
    else (i :: (insertAll keys (key :: set)).1, (insertAll keys (key :: set)).2)

/-- The positions of the keys seen for the first time, and the sets afterwards. Every bucket
is probed on its own. -/
def firstSeenMask (hash : Bytes → UInt64) (keys : List Bytes) (seen : Seen) :
    List Nat × Seen :=
  if seen.buckets = [] then
    let r := insertAll keys.zipIdx seen.serial
    (r.1, { seen with serial := r.2 })
  else
    let rs := seen.buckets.zipIdx.map fun (set, g) =>
      insertAll (keys.zipIdx.filter fun k => bucketOf hash seen.buckets.length k.1 = g) set
    (rs.flatMap (·.1), { seen with buckets := rs.map (·.2) })

/-- Whether the fast phase has already sent out a row of this key. -/
def alreadySeen (hash : Bytes → UInt64) (seen : Seen) (key : Bytes) : Bool :=
  if seen.buckets = [] then key ∈ seen.serial
  else key ∈ (seen.buckets[bucketOf hash seen.buckets.length key]?).getD []

/-- Gather rows by position. -/
def take {ρ : Type} (rows : List ρ) (idx : List Nat) : List ρ := idx.filterMap fun i => rows[i]?

/-- The part of a morsel that a run file keeps. -/
structure SpilledMorsel where
  types : List SpilledType
  rows : List p.Tagged

/-- A run file being written, with what it holds so far. -/
structure Partition where
  file : List (SpilledMorsel p)
  bytes : Nat
  rows : Nat

def Partition.empty : Partition p := ⟨[], 0, 0⟩

variable {p}

def writeMorsel (m : Morsel p.Tagged) : Except InvalidArgument (SpilledMorsel p) :=
  (m.types.mapM putSeries).map fun types => ⟨types, m.rows⟩

def readMorsel (s : SpilledMorsel p) : Morsel p.Tagged := ⟨s.types.map getSeries, s.rows⟩

def cellBytes (c : Cell) : Nat := (c.getD []).length

/-- The approximate size of a column of cells. -/
def columnBytes (d : DataType) (cells : List Cell) : Nat :=
  match d.id with
  | .LargeString | .LargeBinary => (cells.length + 1) * 8 + (cells.map cellBytes).sum
  | .String | .Binary => (cells.length + 1) * 4 + (cells.map cellBytes).sum
  | .FixedSizeBinary => cells.length * d.fixedSize
  | .Bool => (cells.length + 7) / 8
  | t => cells.length * (byteWidth t 0).getD 0

/-- The approximate size of a morsel, with its column of row ids in front. -/
def morselBytes (m : Morsel p.Tagged) : Nat :=
  m.rows.length * 8 +
    (m.types.zipIdx.map fun (d, c) =>
      columnBytes d (m.rows.map fun t => (t.2.cells[c]?).getD none)).sum

/-- A 64-bit mixing function. -/
def splitmix64 (x : UInt64) : UInt64 :=
  let x := x + 0x9e3779b97f4a7c15
  let x := (x ^^^ (x >>> 30)) * 0xbf58476d1ce4e5b9
  let x := (x ^^^ (x >>> 27)) * 0x94d049bb133111eb
  x ^^^ (x >>> 31)

/-- The hash of a key, salted with the depth of the partition. -/
def uniqueSpillHash (hash : Bytes → UInt64) (key : Bytes) (depth : Nat) : UInt64 :=
  if depth = 0 then hash key
  else splitmix64 (hash key ^^^ (UInt64.ofNat depth * 0x9e3779b97f4a7c15))

def uniqueSpillFanout : Nat := 16
def uniqueSpillMaxDepth : Nat := 3
def uniqueSpillMinLeafRows : Nat := 64

/-- Append the rows of a morsel to the run files by the hashes of their keys. At depth 0 the
keys that the fast phase has resolved are left out. -/
def partitionRows (seen : Seen) (m : Morsel p.Tagged) (depth : Nat) (parts : List (Partition p)) :
    Except InvalidArgument (List (Partition p)) := do
  let keys ← rowKeys p m.types (m.rows.map (·.2))
  let rows := (keys.zip m.rows).filter fun kr => ¬ (depth = 0 ∧ alreadySeen p.hash seen kr.1)
  parts.zipIdx.mapM fun (part, g) =>
    let sel : Morsel p.Tagged :=
      ⟨m.types, (rows.filter fun kr =>
        (uniqueSpillHash p.hash kr.1 depth).toNat % parts.length = g).map (·.2)⟩
    if sel.rows = [] then .ok part
    else do
      let written ← writeMorsel sel
      return ⟨part.file ++ [written], part.bytes + morselBytes sel,
        part.rows + sel.rows.length⟩

/-- Append the rows of several morsels. -/
def partitionAll (seen : Seen) (depth : Nat) :
    List (Morsel p.Tagged) → List (Partition p) → Except InvalidArgument (List (Partition p))
  | [], parts => .ok parts
  | m :: ms, parts => do
      let parts ← partitionRows seen m depth parts
      partitionAll seen depth ms parts

/-- The types of parts of a frame put together. -/
def concatTypes : List (List DataType) → Except InvalidArgument (List DataType)
  | [] => .ok []
  | front :: rest => front.zipIdx.mapM fun (d, c) =>
    concatColumns d (rest.filterMap fun types => types[c]?)

/-- Keep the row of least id for a key. -/
def keepBest (best : List (Bytes × p.Tagged)) (kr : Bytes × p.Tagged) :
    List (Bytes × p.Tagged) :=
  if best.any (·.1 = kr.1) then
    best.map fun b => if b.1 = kr.1 ∧ kr.2.1 < b.2.1 then kr else b
  else best ++ [kr]

/-- Load a run file, keep the row of least id for every key, and write the rows in the order
of their ids as one run. A file without rows gives no run. -/
def leafRun (file : List (SpilledMorsel p)) : Except InvalidArgument (List (SpilledMorsel p)) := do
  let parts := file.map readMorsel
  let rows := parts.flatMap (·.rows)
  if rows = [] then return []
  let types ← concatTypes (parts.map (·.types))
  let keys ← rowKeys p types (rows.map (·.2))
  let survivors := ((keys.zip rows).foldl keepBest []).map (·.2)
  let run ← writeMorsel ⟨types, survivors.mergeSort fun a b => a.1 ≤ b.1⟩
  return [run]

/-- Deduplicate a run file. One that is too large is partitioned again, at most to the depth
that `levels` still allows. -/
def finalizePartition (seen : Seen) : (levels : Nat) → Partition p →
    Except InvalidArgument (List (SpilledMorsel p))
  | 0, part => leafRun part.file
  | levels + 1, part =>
    if 0 < p.budget ∧ p.budget < part.bytes ∧ uniqueSpillMinLeafRows < part.rows then do
      let parts ← partitionAll seen (uniqueSpillMaxDepth - levels) (part.file.map readMorsel)
        (List.replicate uniqueSpillFanout (Partition.empty p))
      let runs ← parts.mapM (finalizePartition seen levels)
      return runs.flatten
    else leafRun part.file

/-- A survivor run being read: its only morsel, until that is behind, and the next row. -/
structure Run (p : UniquePlan) where
  cur : Option (Morsel p.Tagged)
  pos : Nat

namespace Run

/-- The next row, with the types of its columns. -/
def head (r : Run p) : Option (List DataType × p.Tagged) :=
  r.cur.bind fun m => (m.rows[r.pos]?).map fun t => (m.types, t)

/-- Go past the next row. -/
def pop (r : Run p) : Run p :=
  ⟨r.cur.filter fun m => r.pos + 1 < m.rows.length, r.pos + 1⟩

end Run

structure UniqueState (p : UniquePlan) where
  input : List (List p.Row)
  seen : Seen
  fastBytes : Nat
  nextRowId : Nat
  spilling : Bool
  drained : Bool
  runs : List (Run p)

/-- The cursor before the first call, over the input in its morsels. -/
def UniqueState.start (p : UniquePlan) (input : List (List p.Row)) : UniqueState p where
  input := input
  seen := ⟨[], if p.parallel then List.replicate dedupPartitions [] else []⟩
  fastBytes := 0
  nextRowId := 0
  spilling := false
  drained := false
  runs := []

/-- The morsels whose keys are held in memory, up to one that has a row to send out or to
the one that exceeds the budget. -/
def fastPhase (s : UniqueState p) : List (List p.Row) →
    Except InvalidArgument (Option (Morsel p.Row) × UniqueState p)
  | [] => .ok (none, { s with input := [] })
  | rows :: rest => do
      let keys ← rowKeys p p.types rows
      let (mask, seen) := firstSeenMask p.hash keys s.seen
      let keep := (List.range rows.length).filter fun i => i ∈ mask
      let fastBytes := s.fastBytes +
        ((take keys keep).map fun k => k.length % 2 ^ 32 + dedupEntryOverhead).sum
      let s' : UniqueState p :=
        { s with
          input := rest
          seen := seen
          fastBytes := fastBytes
          nextRowId := s.nextRowId + rows.length
          spilling := 0 < p.budget ∧ p.budget < fastBytes }
      if keep ≠ [] then return (some ⟨p.types, take rows keep⟩, s')
      else if s'.spilling then return (none, s')
      else fastPhase s' rest

/-- The morsels still to come, with row ids. -/
def tagFrom (n : Nat) : List (List p.Row) → List (Morsel p.Tagged)
  | [] => []
  | rows :: rest =>
    ⟨p.types, rows.zipIdx.map fun (r, i) => (n + i, r)⟩ :: tagFrom (n + rows.length) rest

/-- Partition what is left of the input and deduplicate every partition. -/
def drainAndFinalize (s : UniqueState p) : Except InvalidArgument (UniqueState p) := do
  let parts ← partitionAll s.seen 0 (tagFrom s.nextRowId s.input)
    (List.replicate uniqueSpillFanout (Partition.empty p))
  let runs ← parts.mapM (finalizePartition s.seen uniqueSpillMaxDepth)
  return { s with
    input := []
    drained := true
    runs := runs.flatten.map fun run => ⟨some (readMorsel run), 0⟩ }

/-- The next rows of the runs by row id. -/
def mergeNext (s : UniqueState p) :
    Except InvalidArgument (Option (Morsel p.Row) × UniqueState p) := do
  let (pieces, runs) := takeMin Run.head Run.pop (·.2.1) p.maxRows s.runs
  if pieces = [] then return (none, { s with runs := runs })
  let types ← concatTypes (pieces.map (·.1))
  return (some ⟨types, pieces.map (·.2.2)⟩, { s with runs := runs })

/-- The next morsel. -/
def UniqueState.next (s : UniqueState p) :
    Except InvalidArgument (Option (Morsel p.Row) × UniqueState p) := do
  let (m, s) ← if s.spilling then .ok (none, s) else fastPhase s s.input
  if m.isSome ∨ ¬ s.spilling then return (m, s)
  let s ← if s.drained then .ok s else drainAndFinalize s
  mergeNext s

/-- The morsels up to the end of the stream, if that comes within this many calls. -/
def UniqueState.collect : Nat → UniqueState p →
    Except InvalidArgument (Option (List (Morsel p.Row)))
  | 0, _ => .ok none
  | n + 1, s => do
      let (m, s) ← s.next
      match m with
      | none => return some []
      | some m => return (← s.collect n).map (m :: ·)

/-- All morsels of the streaming distinct over an input cut into morsels. Every morsel has a
row, so that the number of rows bounds the calls. -/
def uniqueStream (p : UniquePlan) (input : List (List p.Row)) :
    Except InvalidArgument (Option (List (Morsel p.Row))) :=
  (UniqueState.start p input).collect (input.flatten.length + 1)

end DFTracer.Frames
