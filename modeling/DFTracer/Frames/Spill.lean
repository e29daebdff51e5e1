/-
# Columns and frames, and how columns are spilled

A column has a type and a cell for each row, null or the raw bytes of its value. A frame
is a list of named columns of one length. Rows are gathered by index, where no index
gathers a null.
-/

import DFTracer.Math.Table

namespace DFTracer.Frames

open List

abbrev Bytes := List UInt8

inductive TypeId
  | Unknown
  | Bool
  | Int8
  | Int16
  | Int32
  | Int64
  | Uint8
  | Uint16
  | Uint32
  | Uint64
  | Float32
  | Float64
  | String
  | Binary
  | List
  | Struct
  | Float16
  | Date32
  | Date64
  | Time32
  | Time64
  | Timestamp
  | Duration
  | Decimal128
  | Decimal256
  | FixedSizeBinary
  | LargeString
  | LargeBinary
  | LargeList
  | FixedSizeList
  | Map
  deriving DecidableEq, Repr

/-- How the rows of a type compare: as numbers, as byte strings, or not at all. -/
inductive ValueDomain
  | None
  | Numeric
  | Bytes
  deriving DecidableEq, Repr

def valueDomain : TypeId → ValueDomain
  | .Bool | .Int8 | .Int16 | .Int32 | .Int64 | .Uint8 | .Uint16 | .Uint32 | .Uint64
  | .Float16 | .Float32 | .Float64 | .Date32 | .Date64 | .Time32 | .Time64 | .Timestamp
  | .Duration => .Numeric
  | .String | .Binary | .LargeString | .LargeBinary | .FixedSizeBinary | .Decimal128
  | .Decimal256 => .Bytes
  | .List | .LargeList | .FixedSizeList | .Struct | .Map | .Unknown => .None

def isOrderableType (t : TypeId) : Bool := valueDomain t != .None

/-- The type of the same layout with 32-bit offsets. -/
def narrowVarwidthType : TypeId → TypeId
  | .LargeString => .String
  | .LargeBinary => .Binary
  | .LargeList => .List
  | t => t

/-- The width of a fixed-width type. -/
def byteWidth (t : TypeId) (fixedSize : Int) : Option Nat :=
  match t with
  | .Bool | .Int8 | .Uint8 => some 1
  | .Int16 | .Uint16 | .Float16 => some 2
  | .Int32 | .Uint32 | .Float32 | .Date32 | .Time32 => some 4
  | .Int64 | .Uint64 | .Float64 | .Date64 | .Time64 | .Timestamp | .Duration => some 8
  | .Decimal128 => some 16
  | .Decimal256 => some 32
  | .FixedSizeBinary => if 0 ≤ fixedSize then some fixedSize.toNat else none
  | .String | .Binary | .List | .Struct | .LargeString | .LargeBinary | .LargeList
  | .FixedSizeList | .Map | .Unknown => none

def typeName : TypeId → String
  | .Bool => "bool"
  | .Int8 => "int8"
  | .Int16 => "int16"
  | .Int32 => "int32"
  | .Int64 => "int64"
  | .Uint8 => "uint8"
  | .Uint16 => "uint16"
  | .Uint32 => "uint32"
  | .Uint64 => "uint64"
  | .Float32 => "float32"
  | .Float64 => "float64"
  | .String => "string"
  | .Binary => "binary"
  | .List => "list"
  | .Struct => "struct"
  | .Float16 => "float16"
  | .Date32 => "date32"
  | .Date64 => "date64"
  | .Time32 => "time32"
  | .Time64 => "time64"
  | .Timestamp => "timestamp"
  | .Duration => "duration"
  | .Decimal128 => "decimal128"
  | .Decimal256 => "decimal256"
  | .FixedSizeBinary => "fixed_size_binary"
  | .LargeString => "large_string"
  | .LargeBinary => "large_binary"
  | .LargeList => "large_list"
  | .FixedSizeList => "fixed_size_list"
  | .Map => "map"
  | .Unknown => "unknown"

/-- A column: a cell for each row, null or the raw bytes of its value. A boolean is one
byte, 0 or 1. -/
structure Series where
  type : TypeId
  fixedSize : Int := 0
  cells : List (Option Bytes)
  deriving DecidableEq

namespace Series

def length (s : Series) : Nat := s.cells.length

/-- A row's value: null when it is, and where there is no row. -/
def cell (s : Series) (i : Nat) : Option Bytes := (s.cells[i]?).join

/-- Gather rows. No index gathers a null. -/
def take (s : Series) (indices : List (Option Nat)) : Series :=
  { s with cells := indices.map fun i => i.bind s.cell }

/-- A run of rows. -/
def slice (s : Series) (offset len : Nat) : Series :=
  { s with cells := (s.cells.drop offset).take len }

/-- The type has a size, and the cells have the size of their type. -/
structure Sized (s : Series) : Prop where
  known : s.type = .FixedSizeBinary → 0 ≤ s.fixedSize
  bool : ∀ b, some b ∈ s.cells → s.type = .Bool → b = [0] ∨ b = [1]
  width : ∀ b, some b ∈ s.cells → ∀ w ∈ byteWidth s.type s.fixedSize, b.length = w

theorem cell_slice (s : Series) (offset len i : Nat) (hi : i < len) :
    (s.slice offset len).cell i = s.cell (offset + i) := by
  unfold cell slice
  rw [getElem?_take_of_lt hi, getElem?_drop]

theorem mem_of_cell {s : Series} {i : Nat} {b : Bytes} (h : s.cell i = some b) :
    some b ∈ s.cells := by
  unfold cell at h
  rw [Option.join_eq_some_iff] at h
  exact mem_of_getElem? h

theorem length_take (s : Series) (indices : List (Option Nat)) :
    (s.take indices).length = indices.length :=
  length_map _

theorem Sized.slice {s : Series} (h : s.Sized) (offset len : Nat) :
    (s.slice offset len).Sized where
  known := h.known
  bool := fun b hb => h.bool b (mem_of_mem_drop (mem_of_mem_take hb))
  width := fun b hb => h.width b (mem_of_mem_drop (mem_of_mem_take hb))

end Series

/-- Named columns. -/
structure DataFrame where
  names : List String := []
  columns : List Series := []
  deriving DecidableEq

namespace DataFrame

def numRows (df : DataFrame) : Nat := df.columns.head?.elim 0 Series.length

/-- The first column of a name. -/
def column (df : DataFrame) (name : String) : Option Series := (df.names.zip df.columns).lookup name

def slice (df : DataFrame) (offset len : Nat) : DataFrame :=
  { df with columns := df.columns.map fun c => c.slice offset len }

/-- A name for each column, and columns of one length with cells of the right size. -/
structure WellFormed (df : DataFrame) : Prop where
  named : df.names.length = df.columns.length
  rectangular : ∀ c ∈ df.columns, c.length = df.numRows
  sized : ∀ c ∈ df.columns, c.Sized

end DataFrame

/-! ## Spilled columns

Columns that do not fit in memory are written to run files and read back, and the parts of
a column are put together again. A file keeps the type of a column with the parameters of
decimals and of fixed-size byte strings. A nested column cannot be written, and a column of
byte strings other than text cannot be put together. -/

inductive TimeUnit
  | Second
  | Milli
  | Micro
  | Nano
  deriving DecidableEq, Repr

namespace TypeId

/-- The types whose values count in a time unit. -/
def hasTimeUnit (t : TypeId) : Prop :=
  t = .Timestamp ∨ t = .Time32 ∨ t = .Time64 ∨ t = .Duration

def isDecimal (t : TypeId) : Prop := t = .Decimal128 ∨ t = .Decimal256

def hasFixedSize (t : TypeId) : Prop := t = .FixedSizeBinary ∨ t = .FixedSizeList

def isNested (t : TypeId) : Prop :=
  t = .List ∨ t = .LargeList ∨ t = .Struct ∨ t = .FixedSizeList ∨ t = .Map

instance : DecidablePred hasTimeUnit := fun _ => inferInstanceAs (Decidable (_ ∨ _))
instance : DecidablePred isDecimal := fun _ => inferInstanceAs (Decidable (_ ∨ _))
instance : DecidablePred hasFixedSize := fun _ => inferInstanceAs (Decidable (_ ∨ _))
instance : DecidablePred isNested := fun _ => inferInstanceAs (Decidable (_ ∨ _))

end TypeId

/-- The type of a column. A parameter that the id does not name has its default. -/
structure DataType where
  id : TypeId
  timeUnit : TimeUnit
  timezone : String
  decimalPrecision : Int
  decimalScale : Int
  fixedSize : Nat
  known : id ≠ .Unknown
  unit_default : ¬ id.hasTimeUnit → timeUnit = .Micro
  zone_default : id ≠ .Timestamp → timezone = ""
  decimal_default : ¬ id.isDecimal → decimalPrecision = 0 ∧ decimalScale = 0
  size_default : ¬ id.hasFixedSize → fixedSize = 0
  deriving DecidableEq

namespace DataType

/-- A type with default parameters. -/
def scalar (id : TypeId) (known : id ≠ .Unknown) : DataType where
  id := id
  timeUnit := .Micro
  timezone := ""
  decimalPrecision := 0
  decimalScale := 0
  fixedSize := 0
  known := known
  unit_default _ := rfl
  zone_default _ := rfl
  decimal_default _ := ⟨rfl, rfl⟩
  size_default _ := rfl

/-- An id and the parameters it names are the whole type. -/
theorem ext_params {d e : DataType} (hid : d.id = e.id)
    (htime : d.id.hasTimeUnit → d.timeUnit = e.timeUnit)
    (hzone : d.id = .Timestamp → d.timezone = e.timezone)
    (hdec : d.id.isDecimal →
      d.decimalPrecision = e.decimalPrecision ∧ d.decimalScale = e.decimalScale)
    (hsize : d.id.hasFixedSize → d.fixedSize = e.fixedSize) : d = e := by
  have h1 : d.timeUnit = e.timeUnit := by
    by_cases h : d.id.hasTimeUnit
    · exact htime h
    · rw [d.unit_default h, e.unit_default (hid ▸ h)]
  have h2 : d.timezone = e.timezone := by
    by_cases h : d.id = .Timestamp
    · exact hzone h
    · rw [d.zone_default h, e.zone_default (hid ▸ h)]
  have h3 : d.decimalPrecision = e.decimalPrecision ∧ d.decimalScale = e.decimalScale := by
    by_cases h : d.id.isDecimal
    · exact hdec h
    · rw [(d.decimal_default h).1, (d.decimal_default h).2, (e.decimal_default (hid ▸ h)).1,
        (e.decimal_default (hid ▸ h)).2]
      exact ⟨rfl, rfl⟩
  have h4 : d.fixedSize = e.fixedSize := by
    by_cases h : d.id.hasFixedSize
    · exact hsize h
    · rw [d.size_default h, e.size_default (hid ▸ h)]
  cases d
  cases e
  simp_all

end DataType

structure InvalidArgument where
  what : String
  deriving DecidableEq, Repr

/-- What a run file keeps of a column's type. -/
structure SpilledType where
  type : TypeId
  precision : Int
  scale : Int
  width : Nat
  known : type ≠ .Unknown
  deriving DecidableEq

/-- The type as it is written to a run file. -/
def putSeries (d : DataType) : Except InvalidArgument SpilledType :=
  if d.id.isNested then .error ⟨"spill: nested columns unsupported"⟩
  else if d.id.isDecimal then .ok ⟨d.id, d.decimalPrecision, d.decimalScale, 0, d.known⟩
  else if d.id = .FixedSizeBinary then .ok ⟨d.id, 0, 0, d.fixedSize, d.known⟩
  else .ok ⟨d.id, 0, 0, 0, d.known⟩

/-- The type of the column that a run file gives back. -/
def getSeries (s : SpilledType) : DataType :=
  if h : s.type.isDecimal then
    { DataType.scalar s.type s.known with
      decimalPrecision := s.precision
      decimalScale := s.scale
      decimal_default := fun hd => absurd h hd }
  else if h : s.type = .FixedSizeBinary then
    { DataType.scalar s.type s.known with
      fixedSize := s.width
      size_default := fun hd => absurd (Or.inl h) hd }
  else DataType.scalar s.type s.known

/-- The types for which the parts of a column can be put together. -/
def concatSupported (t : TypeId) : Bool :=
  t = .String || t = .Bool || (t != .FixedSizeBinary && (byteWidth t 0).isSome)

/-- Every part of a column must have the type of the first part, one that is supported. -/
def checkParts (front : DataType) : List DataType → Except InvalidArgument Unit
  | [] => .ok ()
  | part :: parts =>
    if part.id ≠ front.id then .error ⟨"concat: columns must share a type"⟩
    else if concatSupported front.id then checkParts front parts
    else .error ⟨"concat: column type '" ++ typeName front.id ++ "' is unsupported"⟩

/-- The type of the parts of a column put together, the type of the first part. -/
def concatColumns (front : DataType) (rest : List DataType) : Except InvalidArgument DataType :=
  (checkParts front (front :: rest)).map fun _ => front

/-! ### What survives -/

/-- A column that comes out of run files as it went in. -/
def Survives (d : DataType) : Prop :=
  (putSeries d).map getSeries = .ok d ∧ concatSupported d.id = true

theorem concatSupported_not_nested {t : TypeId} (h : concatSupported t = true) :
    ¬ t.isNested := by
  revert h
  cases t <;> decide

variable {d : DataType}

/-- The parts of a column of one type are put together where the type is supported. -/
theorem concatColumns_same {rest : List DataType} (same : ∀ e ∈ rest, e = d)
    (hd : concatSupported d.id = true) : concatColumns d rest = .ok d := by
  have hall : ∀ e ∈ d :: rest, e = d := by
    rintro e (_ | ⟨_, he⟩)
    · rfl
    · exact same e he
  unfold concatColumns
  generalize d :: rest = parts at hall
  induction parts with
  | nil => rfl
  | cons e parts ih =>
    have he : e.id = d.id := congrArg DataType.id (hall e mem_cons_self)
    rw [checkParts, if_neg (not_not_intro he), if_pos hd]
    exact ih fun e' he' => hall e' (mem_cons_of_mem e he')

theorem concatColumns_unsupported (rest : List DataType)
    (hd : concatSupported d.id = false) : ∃ e, concatColumns d rest = .error e := by
  unfold concatColumns
  rw [checkParts, if_neg (not_not_intro rfl), if_neg (by rw [hd]; exact Bool.false_ne_true)]
  exact ⟨_, rfl⟩

/-- A column read from a run file has the id it was written with, and is written again as
it is. -/
theorem putSeries_getSeries {s : SpilledType} (h : putSeries d = .ok s) :
    (getSeries s).id = d.id ∧ putSeries (getSeries s) = .ok s := by
  unfold putSeries at h
  split at h
  · cases h
  · rename_i hn
    split at h
    · rename_i hdec
      cases h
      have hget : (getSeries ⟨d.id, d.decimalPrecision, d.decimalScale, 0, d.known⟩).id = d.id := by
        unfold getSeries
        rw [dif_pos hdec]
        rfl
      refine ⟨hget, ?_⟩
      unfold putSeries getSeries
      simp only [dif_pos hdec]
      simp [DataType.scalar, hn, hdec]
    · rename_i hdec
      split at h
      · rename_i hfix
        cases h
        unfold putSeries getSeries
        simp only [dif_neg hdec, dif_pos hfix]
        refine ⟨rfl, ?_⟩
        exact (if_neg hn).trans ((if_neg hdec).trans (if_pos hfix))
      · rename_i hfix
        cases h
        unfold putSeries getSeries
        simp only [dif_neg hdec, dif_neg hfix]
        refine ⟨rfl, ?_⟩
        exact (if_neg hn).trans ((if_neg hdec).trans (if_neg hfix))

/-- A type survives when run files keep its parameters and its parts can be put together. -/
theorem survives_iff : Survives d ↔
    (d.id.hasTimeUnit → d.timeUnit = .Micro) ∧ d.timezone = "" ∧ concatSupported d.id = true := by
  constructor
  · rintro ⟨hput, hcat⟩
    cases hs : putSeries d with
    | error e =>
      rw [hs] at hput
      cases hput
    | ok s =>
      rw [hs] at hput
      have hget : getSeries s = d := Except.ok.inj hput
      have hdef : (getSeries s).timeUnit = .Micro ∧ (getSeries s).timezone = "" := by
        unfold getSeries
        split
        · exact ⟨rfl, rfl⟩
        · split
          · exact ⟨rfl, rfl⟩
          · exact ⟨rfl, rfl⟩
      rw [hget] at hdef
      exact ⟨fun _ => hdef.1, hdef.2, hcat⟩
  · rintro ⟨hunit, hzone, hcat⟩
    have hn := concatSupported_not_nested hcat
    refine ⟨?_, hcat⟩
    unfold putSeries
    rw [if_neg hn]
    have hfix : d.id ≠ .FixedSizeBinary := by
      intro h
      rw [h] at hcat
      exact absurd hcat (by decide)
    split
    · rename_i hdec
      apply congrArg Except.ok
      unfold getSeries
      rw [dif_pos hdec]
      apply DataType.ext_params
      · rfl
      · exact fun h => (hunit h).symm
      · exact fun _ => hzone.symm
      · exact fun _ => ⟨rfl, rfl⟩
      · intro h
        have h' : d.id.hasFixedSize := h
        rcases hdec with hdec | hdec <;> simp [TypeId.hasFixedSize, hdec] at h'
    · rename_i hdec
      apply congrArg Except.ok
      unfold getSeries
      rw [dif_neg hdec, dif_neg hfix]
      apply DataType.ext_params
      · rfl
      · exact fun h => (hunit h).symm
      · exact fun _ => hzone.symm
      · exact fun h => absurd h hdec
      · intro h
        rcases h with h | h
        · exact absurd h hfix
        · exact absurd (Or.inr (Or.inr (Or.inr (Or.inl h)))) hn

end DFTracer.Frames
