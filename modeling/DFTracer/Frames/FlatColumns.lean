/-
# The buffers of a column

A column keeps its values in buffers. Values of one width stand one after the other, and
booleans are bits. Byte strings stand one after the other with offsets that say where each
begins. A bitmap says which rows have a value, and a column that has none has a value in every
row. The count of the nulls of a column that comes from elsewhere may be unknown, and is then
kept as zero.
-/

import DFTracer.Flame.Transport
import DFTracer.Frames.Spill
import DFTracer.Math.Decoding

namespace DFTracer.Frames

/-- Bit `i` of a bitmap. -/
def bit (bits : Bytes) (i : Nat) : Bool := (bits.getD (i / 8) 0).toNat.testBit (i % 8)

def setBit (bits : Bytes) (i : Nat) : Bytes :=
  bits.modify (i / 8) fun byte => byte ||| 1 <<< UInt8.ofNat (i % 8)

/-- How many of the first `n` rows a bitmap leaves out. -/
def countNulls (validity : Bytes) (n : Nat) : Nat :=
  (List.range n).countP fun i => !bit validity i

theorem length_setBit (bits : Bytes) (i : Nat) : (setBit bits i).length = bits.length :=
  List.length_modify _ _ _

variable {i : Nat} {bits : Bytes}

theorem testBit_or_shift (byte : UInt8) (hi : i < 8) (j : Nat) :
    (byte ||| 1 <<< UInt8.ofNat i).toNat.testBit j = (byte.toNat.testBit j || decide (i = j)) := by
  have shifted : (1 <<< UInt8.ofNat i : UInt8).toNat = 2 ^ i := by
    interval_cases i <;> decide
  rw [UInt8.toNat_or, Nat.testBit_or, shifted, Nat.testBit_two_pow]

theorem getD_setBit (hi : i / 8 < bits.length) (k : Nat) :
    (setBit bits i).getD k 0 =
      if i / 8 = k then bits.getD k 0 ||| 1 <<< UInt8.ofNat (i % 8) else bits.getD k 0 := by
  unfold setBit
  rw [List.getD_eq_getElem?_getD, List.getD_eq_getElem?_getD, List.getElem?_modify]
  split
  · rename_i same
    subst same
    rw [List.getElem?_eq_getElem hi]
    rfl
  · simp only [id_map']

theorem bit_setBit (hi : i / 8 < bits.length) (j : Nat) :
    bit (setBit bits i) j = (bit bits j || decide (i = j)) := by
  unfold bit
  rw [getD_setBit hi]
  split
  · rw [testBit_or_shift _ (Nat.mod_lt _ (by decide))]
    congr 1
    exact decide_eq_decide.mpr (by omega)
  · rename_i same
    rw [decide_eq_false fun h : i = j => same (h ▸ rfl), Bool.or_false]

/-- The layout behind a column. -/
structure SeriesData where
  type : TypeId
  length : Int
  nullCount : Int := 0
  data : Bytes := []
  offsets : List Int := []
  offsets64 : List Int := []
  validity : Option Bytes := none
  timeUnit : TimeUnit := .Micro
  timezone : String := ""
  decimalPrecision : Int := 0
  decimalScale : Int := 0
  fixedSize : Int := 0
  deriving DecidableEq

/-- The types with 64-bit offsets. -/
def isWideOffsetType (t : TypeId) : Bool := t = .LargeString || t = .LargeBinary || t = .LargeList

/-- The bytes of the values of a type of one width, where booleans are bits. -/
def bufferBytes (t : TypeId) (n : Int) : Int :=
  if t = .Bool then (n + 7).tdiv 8 else n * ((byteWidth t (-1)).getD 0 : Nat)

namespace SeriesData

def isNull (s : SeriesData) (i : Nat) : Bool := s.validity.elim false fun bits => !bit bits i

/-- The offsets that the type of a column has. -/
def offsetsOf (s : SeriesData) : List Int :=
  if isWideOffsetType s.type then s.offsets64 else s.offsets

/-- The bytes of a row. A boolean is one byte, 0 or 1. -/
def value (s : SeriesData) (i : Nat) : Bytes :=
  if s.type = .Bool then [if bit s.data i then 1 else 0]
  else
    match byteWidth s.type s.fixedSize with
    | some width => (s.data.drop (i * width)).take width
    | none =>
      let first := (s.offsetsOf.getD i 0).toNat
      (s.data.drop first).take ((s.offsetsOf.getD (i + 1) 0).toNat - first)

def cell (s : SeriesData) (i : Nat) : Option Bytes := if s.isNull i then none else some (s.value i)

/-- What the rows of a column hold. -/
def series (s : SeriesData) : Series where
  type := s.type
  fixedSize := s.fixedSize
  cells := (List.range s.length.toNat).map s.cell

/-- The nulls of a column. -/
def nulls (s : SeriesData) : Nat := (List.range s.length.toNat).countP s.isNull

/-- Columns of one type with its parameters and with the same rows. -/
structure Same (s t : SeriesData) : Prop where
  series : s.series = t.series
  timeUnit : s.timeUnit = t.timeUnit
  timezone : s.timezone = t.timezone
  decimalPrecision : s.decimalPrecision = t.decimalPrecision
  decimalScale : s.decimalScale = t.decimalScale

/-- Offsets that grow from row to row and end within the data. The one offset of a column
without rows is zero. -/
structure Offsets (offsets : List Int) (n bound : Int) (data : Bytes) : Prop where
  length : (offsets.length : Int) = n + 1
  addressable : 8 * (offsets.length : Int) < 2 ^ 63
  grow : offsets.Pairwise (· ≤ ·)
  nonneg : ∀ o ∈ offsets, 0 ≤ o
  bounded : ∀ o ∈ offsets, o < bound
  inside : ∀ o ∈ offsets, o ≤ data.length
  empty : n = 0 → ∀ o ∈ offsets, o = 0

/-- A flat column that is not nested. A parameter that its type does not have is the default,
the buffers have the size of the rows, and the nulls are counted or taken to be none. -/
structure Leaf (s : SeriesData) : Prop where
  known : s.type ≠ .Unknown
  addressable : (s.data.length : Int) < 2 ^ 63
  leaf : ¬ s.type.isNested
  nonneg : 0 ≤ s.length
  length : s.length < 2 ^ 63
  bitmap : ∀ bits ∈ s.validity, (bits.length : Int) = (s.length + 7) / 8
  counted : s.nullCount = 0 ∨ s.nullCount = s.nulls
  unit : ¬ s.type.hasTimeUnit → s.timeUnit = .Micro
  zone : s.type ≠ .Timestamp → s.timezone = ""
  decimal : ¬ s.type.isDecimal → s.decimalPrecision = 0 ∧ s.decimalScale = 0
  precision : -2 ^ 31 ≤ s.decimalPrecision ∧ s.decimalPrecision < 2 ^ 31
  scale : -2 ^ 31 ≤ s.decimalScale ∧ s.decimalScale < 2 ^ 31
  size : s.type ≠ .FixedSizeBinary → s.fixedSize = 0
  width : 0 ≤ s.fixedSize ∧ s.fixedSize < 2 ^ 31
  bits : s.type = .Bool → (s.data.length : Int) = (s.length + 7) / 8
  fixed : s.type ≠ .Bool → ∀ width ∈ byteWidth s.type s.fixedSize,
    (s.data.length : Int) = s.length * width
  narrow : s.type = .String ∨ s.type = .Binary → Offsets s.offsets s.length (2 ^ 31) s.data
  wide : isWideOffsetType s.type → Offsets s.offsets64 s.length (2 ^ 63) s.data

end SeriesData

/-- The columns that are not nested. -/
abbrev LeafSeries := { s : SeriesData // s.Leaf }

/-! ## A column in bytes

A column is written to a run file as its type, the number of its rows and of its nulls, its
bitmap where it has nulls, and its buffers. What is read back depends on the type: the
parameters of decimals, the width of byte strings of one width, and the offsets of byte
strings of several. The unit and the zone of times are not in the file. -/

open Flame (put littleEndian)
open Math (Decoder)

def typeCode : TypeId → Int
  | .Unknown => 0
  | .Bool => 1
  | .Int8 => 2
  | .Int16 => 3
  | .Int32 => 4
  | .Int64 => 5
  | .Uint8 => 6
  | .Uint16 => 7
  | .Uint32 => 8
  | .Uint64 => 9
  | .Float32 => 10
  | .Float64 => 11
  | .String => 12
  | .Binary => 13
  | .List => 14
  | .Struct => 15
  | .Float16 => 16
  | .Date32 => 17
  | .Date64 => 18
  | .Time32 => 19
  | .Time64 => 20
  | .Timestamp => 21
  | .Duration => 22
  | .Decimal128 => 23
  | .Decimal256 => 24
  | .FixedSizeBinary => 25
  | .LargeString => 26
  | .LargeBinary => 27
  | .LargeList => 28
  | .FixedSizeList => 29
  | .Map => 30

/-- The types in the order of their codes. -/
def allTypes : List TypeId :=
  [.Unknown, .Bool, .Int8, .Int16, .Int32, .Int64, .Uint8, .Uint16, .Uint32, .Uint64, .Float32,
    .Float64, .String, .Binary, .List, .Struct, .Float16, .Date32, .Date64, .Time32, .Time64,
    .Timestamp, .Duration, .Decimal128, .Decimal256, .FixedSizeBinary, .LargeString, .LargeBinary,
    .LargeList, .FixedSizeList, .Map]

/-- The type of a code. A code of no type has no buffers, as the unknown type. -/
def typeOfCode (code : Int) : TypeId := (allTypes.find? fun t => typeCode t = code).getD .Unknown

theorem typeOfCode_typeCode (t : TypeId) : typeOfCode (typeCode t) = t := by
  cases t <;> decide

/-- An integer of so many bytes. -/
def putPod (width : Nat) (v : Int) : Bytes := put width (v % 256 ^ width).toNat

/-- A bitmap of the rows that have a value. -/
def validityBitmap (s : SeriesData) : Bytes :=
  (List.range s.length.toNat).foldl (fun bits i => if s.isNull i then bits else setBit bits i)
    (List.replicate ((s.length + 7).tdiv 8).toNat 0)

/-- A byte string of several widths, with offsets of so many bytes. -/
def putVarwidth (width : Nat) (n : Int) (offsets : List Int) (data : Bytes) : Bytes :=
  let nbytes := if 0 < n then offsets.getD n.toNat 0 else 0
  putPod 8 nbytes ++ offsets.flatMap (putPod width) ++ data.take nbytes.toNat

namespace SeriesData

def putHeader (s : SeriesData) : Bytes :=
  putPod 4 (typeCode s.type) ++ putPod 8 s.length ++ putPod 8 s.nullCount ++
    if 0 < s.nullCount then validityBitmap s else []

def putBuffers (s : SeriesData) : Bytes :=
  if s.type.isDecimal then
    putPod 4 s.decimalPrecision ++ putPod 4 s.decimalScale ++
      s.data.take (bufferBytes s.type s.length).toNat
  else if s.type = .FixedSizeBinary then
    putPod 4 s.fixedSize ++ s.data.take (s.length * s.fixedSize).toNat
  else if isWideOffsetType s.type then putVarwidth 8 s.length s.offsets64 s.data
  else if byteWidth s.type (-1) = none then putVarwidth 4 s.length s.offsets s.data
  else s.data.take (bufferBytes s.type s.length).toNat

/-- A flat column as it is written to a run file. -/
def putSeries (s : SeriesData) : Except InvalidArgument Bytes :=
  if s.type.isNested then .error ⟨"spill: nested columns unsupported"⟩
  else .ok (s.putHeader ++ s.putBuffers)

end SeriesData

/-- Why no column is read: the bytes end too soon, a type has no builder, or offsets point
past the bytes that were read. -/
inductive ReadError
  | truncated
  | noBuilder
  | outside
  deriving DecidableEq, Repr

abbrev Reading := Decoder UInt8 ReadError

/-- A number of bytes, as 64 bits without a sign. -/
def sizeT (v : Int) : Nat := (v % 2 ^ 64).toNat

def takeBytes (n : Nat) : Reading Bytes := Decoder.take .truncated n

/-- The integer that some bytes hold. -/
def pod (bytes : Bytes) : Int := (littleEndian bytes : Int).bmod (256 ^ bytes.length)

def getPod (width : Nat) : Reading Int := pod <$> takeBytes width

/-- Integers that stand one after the other. -/
def pods (width count : Nat) (bytes : Bytes) : List Int :=
  (List.range count).map fun i => pod ((bytes.drop (width * i)).take width)

/-- A column with a bitmap whose nulls are counted. -/
def SeriesData.withValidity (s : SeriesData) (validity : Option Bytes) : SeriesData :=
  { s with
    validity
    nullCount := validity.elim 0 fun bits => (countNulls bits s.length.toNat : Int) }

/-- A column of values of one width, or of booleans. -/
def seriesNewFlat (type : TypeId) (data : Bytes) (n : Int) (validity : Option Bytes) :
    SeriesData :=
  SeriesData.withValidity { type, length := n, data } validity

/-- A column of byte strings. Its data are as long as the last offset says. -/
def seriesNewString (type : TypeId) (offsets : List Int) (data : Bytes) (n : Int)
    (validity : Option Bytes) : Except ReadError SeriesData :=
  let dataLen := (offsets.getD n.toNat 0).toNat
  if type ≠ .String ∧ type ≠ .Binary then .error .noBuilder
  else if data.length < dataLen then .error .outside
  else
    .ok (SeriesData.withValidity { type, length := n, offsets, data := data.take dataLen } validity)

/-- A column with a bitmap and as many nulls as the file says. -/
def SeriesData.withNulls (s : SeriesData) (validity : Option Bytes) (nulls : Int) : SeriesData :=
  { s with validity, nullCount := validity.elim 0 fun _ => nulls }

section Get

variable (type : TypeId) (n nulls : Int) (validity : Option Bytes)

def getDecimal : Reading SeriesData := do
  let precision ← getPod 4
  let scale ← getPod 4
  let data ← takeBytes (sizeT (bufferBytes type n))
  return SeriesData.withNulls
    { type, length := n, data, decimalPrecision := precision, decimalScale := scale } validity nulls

def getFixedSizeBinary : Reading SeriesData := do
  let width ← getPod 4
  let data ← takeBytes (sizeT (n * width))
  return SeriesData.withNulls { type, length := n, data, fixedSize := width } validity nulls

def getWide : Reading SeriesData := do
  let nbytes ← getPod 8
  let offsets ← takeBytes (sizeT ((n + 1) * 8))
  let data ← takeBytes (sizeT nbytes)
  return SeriesData.withNulls
    { type, length := n, data, offsets64 := pods 8 (n + 1).toNat offsets } validity nulls

def getNarrow : Reading SeriesData := do
  let nbytes ← getPod 8
  let offsets ← takeBytes (sizeT ((n + 1) * 4))
  let data ← takeBytes (sizeT nbytes)
  liftM (seriesNewString type (pods 4 (n + 1).toNat offsets) data n validity)

def getFlat : Reading SeriesData := do
  let data ← takeBytes (sizeT (bufferBytes type n))
  return seriesNewFlat type data n validity

def getBuffers : Reading SeriesData :=
  if type.isDecimal then getDecimal type n nulls validity
  else if type = .FixedSizeBinary then getFixedSizeBinary type n nulls validity
  else if isWideOffsetType type then getWide type n nulls validity
  else if byteWidth type (-1) = none then getNarrow type n validity
  else getFlat type n validity

end Get

/-- The bitmap of a column that has nulls. -/
def getValidity (n nulls : Int) : Reading (Option Bytes) :=
  if 0 < nulls then some <$> takeBytes (sizeT ((n + 7).tdiv 8)) else pure none

/-- A column read from a run file. -/
def SeriesData.getSeries : Reading SeriesData := do
  let code ← getPod 4
  let n ← getPod 8
  let nulls ← getPod 8
  let validity ← getValidity n nulls
  getBuffers (typeOfCode code) n nulls validity

end DFTracer.Frames
