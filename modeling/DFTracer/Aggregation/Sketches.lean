/-
# Quantile and distinct sketches

Beside its statistic a metric may carry a DDSketch: logarithmic bins in a store of
fixed size, whose lowest bins are collapsed when the range outgrows it. The distinct
files of a key are counted by a HyperLogLog sketch that holds the hashes themselves
while they are few and registers afterwards.
-/

import DFTracer.Aggregation.FieldStatTree

namespace DFTracer.Aggregation

/-! ## DDSketch -/

/-- The number of bins of a DDSketch. -/
abbrev MAX_BINS : Nat := 128

/-- A DDSketch. Bin `k` is at position `k - offset` of the store. -/
structure DDSketch where
  gamma : Float
  logGamma : Float
  minValue : Float
  maxValue : Float
  count : UInt64
  zeroCount : UInt64
  store : Vector UInt32 MAX_BINS
  offset : Int
  minKey : Int
  maxKey : Int
  initialized : Bool
  collapsed : Bool
  numBins : Int

namespace DDSketch

/-- An empty sketch of a relative accuracy. -/
def new (relativeAccuracy : Float) : DDSketch where
  gamma := (1.0 + relativeAccuracy) / (1.0 - relativeAccuracy)
  logGamma := Float.log ((1.0 + relativeAccuracy) / (1.0 - relativeAccuracy))
  minValue := 1.0 / 0.0
  maxValue := -1.0 / 0.0
  count := 0
  zeroCount := 0
  store := Vector.replicate MAX_BINS 0
  offset := 0
  minKey := 0
  maxKey := 0
  initialized := false
  collapsed := false
  numBins := 0

/-- A bin saturates. -/
def saturate (old count : UInt32) : UInt32 :=
  if old > 0xFFFFFFFF - count then 0xFFFFFFFF else old + count

/-- Count into the bin at a position, when there is one. -/
def bump (store : Vector UInt32 MAX_BINS) (pos : Int) (count : UInt32) : Vector UInt32 MAX_BINS :=
  Vector.ofFn fun i => if (i : Int) = pos then saturate store[i] count else store[i]

/-- Move the first `moved` bins up by `shift` positions and clear those below. -/
def moveUp (store : Vector UInt32 MAX_BINS) (shift moved : Int) : Vector UInt32 MAX_BINS :=
  Vector.ofFn fun i =>
    if (i : Int) < shift then 0
    else if (i : Int) - shift < moved then store.toList.getD ((i : Int) - shift).toNat 0
    else store[i]

/-- Drop the first `dropped` bins, move the `moved` bins after them down and clear the
positions that they leave. -/
def moveDown (store : Vector UInt32 MAX_BINS) (dropped moved : Int) : Vector UInt32 MAX_BINS :=
  Vector.ofFn fun i =>
    if (i : Int) < moved then store.toList.getD ((i : Int) + dropped).toNat 0
    else if (i : Int) < moved + dropped then 0
    else store[i]

/-- The first `n` bins, summed up. -/
def collapsedSum (store : Vector UInt32 MAX_BINS) (n : Int) : UInt32 :=
  (store.toList.take n.toNat).foldl saturate 0

/-- Make room for a larger greatest key by collapsing the lowest bins. -/
def collapseToFit (s : DDSketch) (newMaxKey : Int) : DDSketch :=
  let newMinKey := newMaxKey - MAX_BINS + 1
  if newMinKey ≥ s.maxKey then
    { s with
      store := bump (Vector.replicate MAX_BINS 0) 0 (collapsedSum s.store s.numBins)
      offset := newMinKey, minKey := newMinKey, maxKey := newMaxKey
      numBins := MAX_BINS, collapsed := true }
  else
    let bins := newMinKey - s.minKey
    let remaining := s.numBins - bins
    let store :=
      if bins > 0 then
        -- the collapsed bins are cleared before the rest is moved down
        let cleared : Vector UInt32 MAX_BINS :=
          Vector.ofFn fun i => if (i : Int) < bins then 0 else s.store[i]
        let moved := if remaining > 0 then moveDown cleared bins (min remaining MAX_BINS) else cleared
        bump moved 0 (collapsedSum s.store bins)
      else if -bins > 0 ∧ s.numBins > 0 then moveUp s.store (-bins) (min s.numBins (MAX_BINS + bins))
      else s.store
    { s with
      store, offset := newMinKey, minKey := newMinKey, maxKey := newMaxKey
      numBins := min (newMaxKey - newMinKey + 1) MAX_BINS, collapsed := true }

/-- Count into the bin of a key. -/
def addToBin (s : DDSketch) (index : Int) (count : UInt32) : DDSketch :=
  if ¬s.initialized then
    { s with
      offset := index, minKey := index, maxKey := index
      store := s.store.set 0 count, numBins := 1, initialized := true }
  else if s.minKey ≤ index ∧ index ≤ s.maxKey then
    { s with store := bump s.store (index - s.offset) count }
  else if index > s.maxKey then
    let s := if index - s.minKey + 1 > MAX_BINS then s.collapseToFit index else s
    { s with
      maxKey := index, numBins := index - s.minKey + 1
      store := bump s.store (index - s.offset) count }
  else if s.collapsed then { s with store := bump s.store 0 count }
  else if s.maxKey - index + 1 > MAX_BINS then
    { s with store := bump s.store 0 count, collapsed := true }
  else
    let shift := s.minKey - index
    let store :=
      if shift > 0 ∧ s.numBins > 0 then moveUp s.store shift (min s.numBins (MAX_BINS - shift))
      else s.store
    { s with
      offset := index, minKey := index, numBins := s.maxKey - index + 1
      store := store.set 0 count }

/-- Add a value once. -/
def add (s : DDSketch) (value : Float) : DDSketch :=
  let s := { s with
    minValue := if value < s.minValue then value else s.minValue
    maxValue := if value > s.maxValue then value else s.maxValue
    count := s.count + 1 }
  if value == 0.0 then { s with zeroCount := s.zeroCount + 1 }
  else s.addToBin (Float.ceil (Float.log value.abs / s.logGamma)).toInt32.toInt 1

/-- Count the other sketch's bin of a key into this one's. -/
def mergeBin (o : DDSketch) (s : DDSketch) (k : Int) : DDSketch :=
  if 0 ≤ k - o.offset ∧ k - o.offset < MAX_BINS then
    let v := o.store.toList.getD (k - o.offset).toNat 0
    if v = 0 then s
    else if k - s.offset < 0 then { s with store := bump s.store 0 v }
    else { s with store := bump s.store (k - s.offset) v }
  else s

/-- Merge another sketch. -/
def merge (s o : DDSketch) : DDSketch :=
  if o.count = 0 then s
  else
    let s := { s with
      minValue := if o.minValue < s.minValue then o.minValue else s.minValue
      maxValue := if o.maxValue > s.maxValue then o.maxValue else s.maxValue
      count := s.count + o.count
      zeroCount := s.zeroCount + o.zeroCount }
    if ¬o.initialized then s
    else if ¬s.initialized then
      { s with
        store := o.store, offset := o.offset, minKey := o.minKey, maxKey := o.maxKey
        numBins := o.numBins, initialized := o.initialized, collapsed := o.collapsed }
    else
      let mergedMax := max s.maxKey o.maxKey
      let fits := mergedMax - min s.minKey o.minKey + 1 ≤ MAX_BINS
      let mergedMin := if fits then min s.minKey o.minKey else mergedMax - MAX_BINS + 1
      let s := if fits then s else s.collapseToFit mergedMax
      let s :=
        if mergedMin < s.minKey then
          let shift := s.minKey - mergedMin
          let store :=
            if s.numBins > 0 then moveUp s.store shift (min s.numBins (MAX_BINS - shift))
            else s.store
          { s with store, offset := mergedMin, minKey := mergedMin }
        else s
      let s := if mergedMax > s.maxKey then { s with maxKey := mergedMax } else s
      let s := { s with numBins := min (s.maxKey - s.minKey + 1) MAX_BINS }
      ((List.range (o.maxKey - o.minKey + 1).toNat).map fun d => o.minKey + d).foldl (mergeBin o) s

/-- The bytes of an unsigned integer of `width` bytes as memory holds them. -/
def raw (width v : Nat) : Bytes :=
  (List.range width).map fun k => UInt8.ofNat (v >>> (8 * k))

/-- The unsigned integer that bytes in memory are. -/
def unraw : Bytes → Nat
  | [] => 0
  | b :: rest => b.toNat + 256 * unraw rest

/-- Three doubles, two counts, the offset and the number of bins. -/
def HEADER_SIZE : Nat := 48

/-- The bytes of a sketch. -/
def serialize (s : DDSketch) : Bytes :=
  let num := (min s.numBins MAX_BINS).toNat
  raw 8 s.gamma.toBits.toNat ++ raw 8 s.minValue.toBits.toNat ++ raw 8 s.maxValue.toBits.toNat
    ++ raw 8 s.count.toNat ++ raw 8 s.zeroCount.toNat
    ++ raw 4 (s.offset % 2 ^ 32).toNat ++ raw 4 num
    ++ (s.store.toList.take num).flatMap fun bin => raw 4 bin.toNat

/-- The sketch read from bytes. Bytes that are too short give an empty one. -/
def deserialize (data : Bytes) : DDSketch :=
  let field := fun (pos width : Nat) => unraw ((data.drop pos).take width)
  let num := min (field 44 4) MAX_BINS
  if data.length < HEADER_SIZE ∨ data.length < HEADER_SIZE + num * 4 then new 0.01
  else
    let gamma := Float.ofBits (UInt64.ofNat (field 0 8))
    let offset := (Int32.ofNat (field 40 4)).toInt
    { gamma
      logGamma := Float.log gamma
      minValue := Float.ofBits (UInt64.ofNat (field 8 8))
      maxValue := Float.ofBits (UInt64.ofNat (field 16 8))
      count := UInt64.ofNat (field 24 8)
      zeroCount := UInt64.ofNat (field 32 8)
      offset
      store := Vector.ofFn fun i =>
        if i.val < num then UInt32.ofNat (field (HEADER_SIZE + 4 * i) 4) else 0
      minKey := offset
      maxKey := offset + num - 1
      numBins := num
      initialized := decide (0 < field 24 8)
      collapsed := false }

end DDSketch

/-- The number of leading bits of a hash that name a register. -/
abbrev PRECISION : Nat := 13

/-- The number of registers. -/
abbrev REGISTERS : Nat := 8192

/-- The number of held hashes at which they are looked through. -/
abbrev SPARSE_LIMIT : Nat := 2048

/-- A distinct-count sketch: hashes while `dense` is empty, registers afterwards. -/
structure DistinctSketch where
  sparse : List UInt64 := []
  dense : List UInt8 := []

namespace DistinctSketch

/-- The number of leading zero bits. -/
def clz (h : UInt64) : Nat := if h = 0 then 64 else 63 - h.toNat.log2

/-- The register of a hash. -/
def register (h : UInt64) : Nat := h.toNat / 2 ^ (64 - PRECISION)

/-- The rank of a hash in its register: where its remaining bits have their first one. -/
def rank (h : UInt64) : UInt8 :=
  UInt8.ofNat (clz ((h <<< 13) ||| ((1 : UInt64) <<< 12)) + 1)

/-- Raise the register of a hash to its rank. -/
def applyDense (dense : List UInt8) (h : UInt64) : List UInt8 :=
  dense.modify (register h) fun r => if rank h > r then rank h else r

/-- The distinct hashes in order. -/
def unique (hashes : List UInt64) : List UInt64 :=
  (hashes.mergeSort fun a b => decide (a ≤ b)).dedup

/-- Go over from hashes to registers. -/
def toDense (s : DistinctSketch) : DistinctSketch :=
  if s.dense ≠ [] then s
  else { dense := s.sparse.foldl applyDense (List.replicate REGISTERS 0) }

/-- Drop repeated hashes, and go over to registers when too many are left. -/
def compactSparse (s : DistinctSketch) : DistinctSketch :=
  let s := { s with sparse := unique s.sparse }
  if s.sparse.length ≥ SPARSE_LIMIT then s.toDense else s

/-- Add a value that is a hash. -/
def addHash (s : DistinctSketch) (h : UInt64) : DistinctSketch :=
  if s.dense = [] then
    let s := { s with sparse := s.sparse ++ [h] }
    if s.sparse.length ≥ SPARSE_LIMIT then s.compactSparse else s
  else { s with dense := applyDense s.dense h }

/-- Merge another sketch. -/
def mergeFrom (s o : DistinctSketch) : DistinctSketch :=
  if o.dense = [] ∧ o.sparse = [] then s
  else
    let s :=
      if o.dense ≠ [] then
        let s := s.toDense
        { s with dense := s.dense.zipWith (fun a b => if a < b then b else a) o.dense }
      else s
    o.sparse.foldl addHash s

end DistinctSketch

end DFTracer.Aggregation
