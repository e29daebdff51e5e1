/-
# Column types in the index

The index stores the type of a column as bytes: its kind, the parameters that the kind has, and
its fields one after the other, each with its name and its own type. The reader takes nothing on
trust. It refuses an unknown kind or unit, a name or a time zone that is too long, too many
fields, too many levels, and bytes that are left over.
-/

import DFTracer.Frames.Spill
import DFTracer.Math.Varint

namespace DFTracer.Indexing

open DFTracer.Math List
open DFTracer.Frames (Bytes TypeId TimeUnit)

/-- The members of a type that only some kinds use. -/
structure TypeParams where
  timeUnit : TimeUnit := .Micro
  timezone : Bytes := []
  decimalPrecision : Int32 := 0
  decimalScale : Int32 := 0
  fixedSize : Int32 := 0
deriving DecidableEq

mutual

/-- A column's full type. -/
inductive DataType where
  | mk (id : TypeId) (params : TypeParams) (fields : List Field)

/-- A named member of a nested type. -/
inductive Field where
  | mk (name : Bytes) (type : DataType) (nullable : Bool)

end

def appendVarint (value : Nat) : Bytes := Varint.write value

def zigzagEncode (v : Int64) : UInt64 := (v.toUInt64 <<< 1) ^^^ (v >>> 63).toUInt64

def zigzagDecode (v : UInt64) : Int64 := (v >>> 1).toInt64 ^^^ -(v &&& 1).toInt64

def appendSvarint (value : Int32) : Bytes :=
  appendVarint (zigzagEncode value.toInt64).toNat

def typeIdByte (id : TypeId) : UInt8 := UInt8.ofNat id.ctorIdx

def timeUnitByte (unit : TimeUnit) : UInt8 := UInt8.ofNat unit.ctorIdx

/-- What stands behind the kind of a type. -/
def encodeParams (params : TypeParams) : TypeId → Bytes
  | .Timestamp =>
    [timeUnitByte params.timeUnit] ++ (appendVarint params.timezone.length ++ params.timezone)
  | .Time32 | .Time64 | .Duration => [timeUnitByte params.timeUnit]
  | .Decimal128 | .Decimal256 =>
    appendSvarint params.decimalPrecision ++ appendSvarint params.decimalScale
  | .FixedSizeBinary | .FixedSizeList => appendSvarint params.fixedSize
  | _ => []

mutual

def encodeType : DataType → Bytes
  | ⟨id, params, fields⟩ =>
    [typeIdByte id] ++ (encodeParams params id ++
      (appendVarint fields.length ++ fields.flatMap encodeField))

def encodeField : Field → Bytes
  | ⟨name, type, nullable⟩ =>
    appendVarint name.length ++ name ++ ([if nullable then 1 else 0] ++ encodeType type)

end

def encodeDataType (type : DataType) : Bytes := encodeType type

def MAX_FIELDS : Nat := 1 <<< 16
def MAX_NAME_LEN : Nat := 1 <<< 20
def MAX_NEST_DEPTH : Nat := 64

def readVarint : Cursor UInt8 Nat := Varint.readLimited 10 0 0

def readSvarint : Cursor UInt8 Int32 := do
  let raw ← readVarint
  pure (zigzagDecode (UInt64.ofNat raw)).toInt32

/-- The kinds in the order of their values. -/
def typeIds : List TypeId :=
  [.Unknown, .Bool, .Int8, .Int16, .Int32, .Int64, .Uint8, .Uint16, .Uint32, .Uint64,
    .Float32, .Float64, .String, .Binary, .List, .Struct, .Float16, .Date32, .Date64,
    .Time32, .Time64, .Timestamp, .Duration, .Decimal128, .Decimal256, .FixedSizeBinary,
    .LargeString, .LargeBinary, .LargeList, .FixedSizeList, .Map]

def timeUnits : List TimeUnit := [.Second, .Milli, .Micro, .Nano]

/-- The kind of a byte. Bytes above the last kind have none. -/
def readTypeId : Cursor UInt8 TypeId := do
  let raw ← Cursor.next
  match typeIds[raw.toNat]? with
  | some id => pure id
  | none => failure

def readTimeUnit : Cursor UInt8 TimeUnit := do
  let raw ← Cursor.next
  match timeUnits[raw.toNat]? with
  | some unit => pure unit
  | none => failure

/-- Bytes behind their number, of which there may not be too many. -/
def readName : Cursor UInt8 Bytes := do
  let size ← readVarint
  guard (size ≤ MAX_NAME_LEN)
  Cursor.take size

def decodeParams : TypeId → Cursor UInt8 TypeParams
  | .Timestamp => do
      let timeUnit ← readTimeUnit
      let timezone ← readName
      pure { timeUnit, timezone }
  | .Time32 | .Time64 | .Duration => do
      let timeUnit ← readTimeUnit
      pure { timeUnit }
  | .Decimal128 | .Decimal256 => do
      let decimalPrecision ← readSvarint
      let decimalScale ← readSvarint
      pure { decimalPrecision, decimalScale }
  | .FixedSizeBinary | .FixedSizeList => do
      let fixedSize ← readSvarint
      pure { fixedSize }
  | _ => pure {}

def decodeField (decodeType : Cursor UInt8 DataType) : Cursor UInt8 Field := do
  let name ← readName
  let nullable ← Cursor.next
  let type ← decodeType
  pure ⟨name, type, nullable != 0⟩

/-- One type at so many levels below the top. -/
def decodeType (depth : Nat) : Cursor UInt8 DataType :=
  if tooDeep : depth > MAX_NEST_DEPTH then failure
  else do
    let id ← readTypeId
    let params ← decodeParams id
    let nFields ← readVarint
    guard (nFields ≤ MAX_FIELDS)
    let fields ← Cursor.repeated (decodeField (decodeType (depth + 1))) nFields
    pure ⟨id, params, fields⟩
termination_by MAX_NEST_DEPTH + 1 - depth
decreasing_by omega

def decodeDataType (bytes : Bytes) : Option DataType := (decodeType 0).whole bytes

/-! ## Column types come back from the index

Reading is followed along what is written. Within the limits of the reader a type comes back with
the members that its kinds use. The reader never looks beyond the type it reads, so bytes that
are cut short and bytes with something behind them are refused. -/

/-- Every bit of the shifted sign is the sign. -/
theorem getElem_sign (v : BitVec 64) {i : Nat} (h : i < 64) : (v.sshiftRight 63)[i] = v.msb := by
  rw [BitVec.getElem_sshiftRight]
  by_cases low : i = 0
  · subst low
    rfl
  · rw [dif_neg (by omega)]

/-- The low bit tells the sign. -/
theorem neg_low (v : BitVec 64) :
    -((v <<< 1 ^^^ v.sshiftRight 63) &&& 1#64) = v.sshiftRight 63 := by
  have low : (v <<< 1 ^^^ v.sshiftRight 63) &&& 1#64 = (BitVec.ofBool v.msb).setWidth 64 := by
    ext i h
    rw [BitVec.getElem_and, BitVec.getElem_xor, getElem_sign v h]
    by_cases first : i = 0
    · simp [first]
    · simp [first]
  rw [low]
  ext i h
  rw [getElem_sign v h]
  cases v.msb with
  | false => simp
  | true =>
    rw [show -BitVec.setWidth 64 (BitVec.ofBool true) = BitVec.allOnes 64 by decide,
      BitVec.getElem_allOnes]

theorem zigzagDecode_zigzagEncode (v : Int64) : zigzagDecode (zigzagEncode v) = v := by
  apply Int64.toBitVec_inj.mp
  change ((v.toBitVec <<< 1 ^^^ v.toBitVec.sshiftRight 63) >>> 1) ^^^
    -((v.toBitVec <<< 1 ^^^ v.toBitVec.sshiftRight 63) &&& 1#64) = v.toBitVec
  rw [neg_low]
  ext i h
  rw [BitVec.getElem_xor, getElem_sign v.toBitVec h, BitVec.getElem_ushiftRight,
    BitVec.getLsbD_xor]
  by_cases top : i < 63
  · have inside : 1 + i < 64 := by omega
    rw [BitVec.getLsbD_eq_getElem inside, BitVec.getLsbD_eq_getElem inside,
      getElem_sign v.toBitVec inside]
    simp
  · have last : i = 63 := by omega
    subst last
    simp [BitVec.msb_eq_getLsbD_last]

/-- The members that a kind uses. The others are left out of what is written. -/
def TypeParams.usedBy (params : TypeParams) : TypeId → TypeParams
  | .Timestamp => { timeUnit := params.timeUnit, timezone := params.timezone }
  | .Time32 | .Time64 | .Duration => { timeUnit := params.timeUnit }
  | .Decimal128 | .Decimal256 =>
    { decimalPrecision := params.decimalPrecision, decimalScale := params.decimalScale }
  | .FixedSizeBinary | .FixedSizeList => { fixedSize := params.fixedSize }
  | _ => {}

/-- The time zone that a kind writes is no longer than a name may be. -/
def TypeParams.Limited (params : TypeParams) (id : TypeId) : Prop :=
  id = .Timestamp → params.timezone.length ≤ MAX_NAME_LEN

instance (params : TypeParams) (id : TypeId) : Decidable (params.Limited id) :=
  inferInstanceAs (Decidable (_ → _))

mutual

/-- The levels below a type. -/
def DataType.nesting : DataType → Nat
  | ⟨_, _, fields⟩ => (fields.map Field.nesting).foldr max 0

def Field.nesting : Field → Nat
  | ⟨_, type, _⟩ => type.nesting + 1

end

mutual

/-- Every size that is written fits its 64 bits. -/
def DataType.Sized : DataType → Prop
  | ⟨_, params, fields⟩ =>
    params.timezone.length < 2 ^ 64 ∧ fields.length < 2 ^ 64 ∧ ∀ field ∈ fields, field.Sized

def Field.Sized : Field → Prop
  | ⟨name, type, _⟩ => name.length < 2 ^ 64 ∧ type.Sized

end

mutual

/-- Names, time zones and numbers of fields are within the limits at every level. -/
def DataType.Limited : DataType → Prop
  | ⟨id, params, fields⟩ =>
    params.Limited id ∧ fields.length ≤ MAX_FIELDS ∧ ∀ field ∈ fields, field.Limited

def Field.Limited : Field → Prop
  | ⟨name, type, _⟩ => name.length ≤ MAX_NAME_LEN ∧ type.Limited

end

mutual

/-- A type with default values in the members that its kinds do not use. -/
def DataType.used : DataType → DataType
  | ⟨id, params, fields⟩ => ⟨id, params.usedBy id, fields.map Field.used⟩

def Field.used : Field → Field
  | ⟨name, type, nullable⟩ => ⟨name, type.used, nullable⟩

end

mutual

/-- The members that a kind does not use have their default values, at every level. -/
def DataType.Plain : DataType → Prop
  | ⟨id, params, fields⟩ => params.usedBy id = params ∧ ∀ field ∈ fields, field.Plain

def Field.Plain : Field → Prop
  | ⟨_, type, _⟩ => type.Plain

end

/-! ### What is read from what is written -/

variable {n : Nat} {name : Bytes} {p : Cursor UInt8 DataType}

theorem readVarint_answers (fits : n < 2 ^ 64) :
    readVarint.Answers (appendVarint n) (some n) := Varint.readLimited_answers fits

theorem readSvarint_answers (v : Int32) : readSvarint.Answers (appendSvarint v) (some v) := by
  have read := (readVarint_answers (zigzagEncode v.toInt64).toNat_lt).bind
    fun raw _ => Cursor.Answers.pure (zigzagDecode (UInt64.ofNat raw)).toInt32
  rw [append_nil, Option.bind_some, UInt64.ofNat_toNat, zigzagDecode_zigzagEncode,
    Int32.toInt32_toInt64] at read
  exact read

theorem readTypeId_answers (id : TypeId) : readTypeId.Answers [typeIdByte id] (some id) := by
  intro rest
  cases id <;> rfl

theorem readTimeUnit_answers (unit : TimeUnit) :
    readTimeUnit.Answers [timeUnitByte unit] (some unit) := by
  intro rest
  cases unit <;> rfl

theorem readName_answers (fits : name.length < 2 ^ 64) :
    readName.Answers (appendVarint name.length ++ name)
      (if name.length ≤ MAX_NAME_LEN then some name else none) := by
  apply (readVarint_answers fits).bind_some
  apply Cursor.Answers.guarded
  exact fun _ => Cursor.Answers.take name

/-- Only the members that the kind uses are read back. -/
theorem decodeParams_answers (params : TypeParams) (id : TypeId)
    (sized : params.timezone.length < 2 ^ 64) :
    (decodeParams id).Answers (encodeParams params id)
      (if params.Limited id then some (params.usedBy id) else none) := by
  have unit := (readTimeUnit_answers params.timeUnit).bind_some
    (f := fun timeUnit => (pure { timeUnit } : Cursor UInt8 TypeParams))
    (Cursor.Answers.pure ({ timeUnit := params.timeUnit } : TypeParams))
  have zone := (readTimeUnit_answers params.timeUnit).bind_some
    (f := fun timeUnit => (do
      let timezone ← readName
      pure { timeUnit, timezone } : Cursor UInt8 TypeParams))
    ((readName_answers sized).bind fun timezone _ =>
      Cursor.Answers.pure ({ timeUnit := params.timeUnit, timezone } : TypeParams))
  have numbers := (readSvarint_answers params.decimalPrecision).bind_some
    (f := fun decimalPrecision => (do
      let decimalScale ← readSvarint
      pure { decimalPrecision, decimalScale } : Cursor UInt8 TypeParams))
    ((readSvarint_answers params.decimalScale).bind_some (Cursor.Answers.pure
      ({ decimalPrecision := params.decimalPrecision, decimalScale := params.decimalScale } :
        TypeParams)))
  have size := (readSvarint_answers params.fixedSize).bind_some
    (f := fun fixedSize => (pure { fixedSize } : Cursor UInt8 TypeParams))
    (Cursor.Answers.pure ({ fixedSize := params.fixedSize } : TypeParams))
  rw [append_nil] at unit zone numbers size
  by_cases limited : params.Limited id
  · rw [if_pos limited]
    cases id
    case Timestamp =>
      rw [if_pos (limited rfl)] at zone
      exact zone
    case Time32 | Time64 | Duration => exact unit
    case Decimal128 | Decimal256 => exact numbers
    case FixedSizeBinary | FixedSizeList => exact size
    all_goals exact Cursor.Answers.pure ({} : TypeParams)
  · rw [if_neg limited]
    obtain ⟨rfl, long⟩ := Classical.not_imp.mp limited
    rw [if_neg long] at zone
    exact zone

theorem decodeField_answers {type : DataType}
    {answer : Option DataType} (nullable : Bool) (sized : name.length < 2 ^ 64)
    (inner : p.Answers (encodeType type) answer) :
    (decodeField p).Answers (encodeField ⟨name, type, nullable⟩)
      (if name.length ≤ MAX_NAME_LEN then answer.map (Field.mk name · nullable) else none) := by
  have flag : ((if nullable then 1 else 0 : UInt8) != 0) = nullable := by
    cases nullable <;> rfl
  have named := readName_answers sized
  rw [encodeField]
  by_cases short : name.length ≤ MAX_NAME_LEN
  · rw [if_pos short] at named ⊢
    apply named.bind_some
    apply (Cursor.Answers.next _).bind_some
    rw [flag, ← append_nil (encodeType type), Option.map_eq_bind]
    exact inner.bind fun type _ => Cursor.Answers.pure (Field.mk name type nullable)
  · rw [if_neg short] at named ⊢
    exact named.bind_none

theorem decodeType_eq (depth : Nat) (shallow : depth ≤ MAX_NEST_DEPTH) :
    decodeType depth = (do
      let id ← readTypeId
      let params ← decodeParams id
      let nFields ← readVarint
      guard (nFields ≤ MAX_FIELDS)
      let fields ← Cursor.repeated (decodeField (decodeType (depth + 1))) nFields
      pure ⟨id, params, fields⟩) := by
  rw [decodeType, dif_neg (by omega)]

theorem foldr_max_le {l : List Nat} : l.foldr max 0 ≤ n ↔ ∀ x ∈ l, x ≤ n := by
  induction l with
  | nil => simp
  | cons x l ih => rw [foldr_cons, Nat.max_le, ih, forall_mem_cons]

theorem nesting_le {id : TypeId} {params : TypeParams} {fields : List Field} {depth : Nat}
    (shallow : depth ≤ MAX_NEST_DEPTH) :
    depth + (DataType.mk id params fields).nesting ≤ MAX_NEST_DEPTH ↔
      ∀ field ∈ fields, depth + field.nesting ≤ MAX_NEST_DEPTH := by
  rw [DataType.nesting, ← Nat.le_sub_iff_add_le' shallow, foldr_max_le, forall_mem_map]
  exact forall₂_congr fun field _ => Nat.le_sub_iff_add_le' shallow

theorem mapM_ite {δ ε : Type} {P : δ → Prop} [DecidablePred P] (f : δ → ε) (l : List δ) :
    (l.mapM fun x => if P x then some (f x) else none) =
      if ∀ x ∈ l, P x then some (l.map f) else none := by
  induction l with
  | nil => rfl
  | cons x l ih =>
    rw [mapM_cons, ih]
    by_cases first : P x
    · rw [if_pos first]
      by_cases others : ∀ x ∈ l, P x
      · rw [if_pos others, if_pos (forall_mem_cons.mpr ⟨first, others⟩)]
        rfl
      · rw [if_neg others, if_neg fun all => others (forall_mem_cons.mp all).2]
        rfl
    · rw [if_neg first, if_neg fun all => first (forall_mem_cons.mp all).1]
      rfl

open Classical in
/-- A type within the limits is read back, and the reading of any other type fails before it
comes to what follows. -/
theorem decodeType_answers : ∀ (type : DataType), type.Sized → ∀ depth : Nat,
    (decodeType depth).Answers (encodeType type)
      (if depth + type.nesting ≤ MAX_NEST_DEPTH ∧ type.Limited then some type.used else none)
  | ⟨id, params, fields⟩, sized, depth => by
    rw [DataType.Sized] at sized
    obtain ⟨zone, count, sized⟩ := sized
    by_cases shallow : depth ≤ MAX_NEST_DEPTH
    · have each : ∀ field ∈ fields, (decodeField (decodeType (depth + 1))).Answers
          (encodeField field) (if depth + field.nesting ≤ MAX_NEST_DEPTH ∧ field.Limited
            then some field.used else none) := by
        rintro ⟨name, inner, nullable⟩ listed
        have fits := sized _ listed
        rw [Field.Sized] at fits
        have read := decodeField_answers nullable fits.1
          (decodeType_answers inner fits.2 (depth + 1))
        have conditions : (depth + (Field.mk name inner nullable).nesting ≤ MAX_NEST_DEPTH ∧
              (Field.mk name inner nullable).Limited) ↔
            name.length ≤ MAX_NAME_LEN ∧
              depth + 1 + inner.nesting ≤ MAX_NEST_DEPTH ∧ inner.Limited := by
          rw [Field.nesting, Field.Limited, Nat.add_assoc, Nat.add_comm 1]
          tauto
        rw [if_congr conditions rfl rfl, ite_and, Field.used]
        convert read using 2
        by_cases inside : depth + 1 + inner.nesting ≤ MAX_NEST_DEPTH ∧ inner.Limited
        · rw [if_pos inside, if_pos inside]
          rfl
        · rw [if_neg inside, if_neg inside]
          rfl
      have all := Cursor.Answers.repeated each
      rw [mapM_ite] at all
      have conditions : depth + (DataType.mk id params fields).nesting ≤ MAX_NEST_DEPTH ∧
            (DataType.mk id params fields).Limited ↔
          params.Limited id ∧ fields.length ≤ MAX_FIELDS ∧
            ∀ field ∈ fields, depth + field.nesting ≤ MAX_NEST_DEPTH ∧ field.Limited := by
        rw [nesting_le shallow, DataType.Limited, forall₂_and]
        tauto
      rw [decodeType_eq depth shallow, encodeType]
      apply (readTypeId_answers id).bind_some
      have kind := decodeParams_answers params id zone
      by_cases limited : params.Limited id
      · rw [if_pos limited] at kind
        apply kind.bind_some
        apply (readVarint_answers count).bind_some
        rw [if_congr conditions rfl rfl, ite_and, if_pos limited, ite_and]
        have behind := (Cursor.Answers.guarded fun _ : fields.length ≤ MAX_FIELDS =>
          all.bind fun read _ => Cursor.Answers.pure (DataType.mk id (params.usedBy id) read))
        rw [append_nil] at behind
        convert behind using 2
        by_cases inside : ∀ field ∈ fields,
            depth + field.nesting ≤ MAX_NEST_DEPTH ∧ field.Limited
        · rw [if_pos inside, if_pos inside, DataType.used]
          rfl
        · rw [if_neg inside, if_neg inside]
          rfl
      · rw [if_neg limited] at kind
        rw [if_neg fun both => limited (conditions.mp both).1]
        exact kind.bind_none
    · rw [decodeType, dif_pos (by omega), if_neg fun both => shallow (by omega)]
      exact fun _ => rfl
termination_by type => sizeOf type
decreasing_by
  have := List.sizeOf_lt_of_mem listed
  simp only [Field.mk.sizeOf_spec] at this
  simp only [DataType.mk.sizeOf_spec]
  omega

theorem readSvarint_local : readSvarint.Local :=
  (Varint.readLimited_local 10 0 0).bind fun _ => Cursor.Local.pure _

theorem readTypeId_local : readTypeId.Local := by
  apply Cursor.Local.next.bind
  intro raw
  cases typeIds[raw.toNat]? with
  | none => exact Cursor.Local.failure
  | some id => exact Cursor.Local.pure id

theorem readTimeUnit_local : readTimeUnit.Local := by
  apply Cursor.Local.next.bind
  intro raw
  cases timeUnits[raw.toNat]? with
  | none => exact Cursor.Local.failure
  | some unit => exact Cursor.Local.pure unit

theorem readName_local : readName.Local := by
  apply (Varint.readLimited_local 10 0 0).bind
  intro size
  apply (Cursor.Local.guarded _).bind
  exact fun _ => Cursor.Local.take size

theorem decodeParams_local (id : TypeId) : (decodeParams id).Local := by
  cases id
  case Timestamp =>
    apply readTimeUnit_local.bind
    intro timeUnit
    exact readName_local.bind fun _ => Cursor.Local.pure _
  case Time32 | Time64 | Duration =>
    exact readTimeUnit_local.bind fun _ => Cursor.Local.pure _
  case Decimal128 | Decimal256 =>
    apply readSvarint_local.bind
    intro precision
    exact readSvarint_local.bind fun _ => Cursor.Local.pure _
  case FixedSizeBinary | FixedSizeList =>
    exact readSvarint_local.bind fun _ => Cursor.Local.pure _
  all_goals exact Cursor.Local.pure _

theorem decodeField_local (inner : p.Local) :
    (decodeField p).Local := by
  apply readName_local.bind
  intro name
  apply Cursor.Local.next.bind
  intro nullable
  exact inner.bind fun _ => Cursor.Local.pure _

theorem decodeType_local (depth : Nat) : (decodeType depth).Local := by
  by_cases shallow : depth ≤ MAX_NEST_DEPTH
  · rw [decodeType_eq depth shallow]
    apply readTypeId_local.bind
    intro id
    apply (decodeParams_local id).bind
    intro params
    apply (Varint.readLimited_local 10 0 0).bind
    intro nFields
    apply (Cursor.Local.guarded _).bind
    intro _
    apply (Cursor.Local.repeated (decodeField_local (decodeType_local (depth + 1))) nFields).bind
    exact fun _ => Cursor.Local.pure _
  · rw [decodeType, dif_pos (by omega)]
    exact Cursor.Local.failure
termination_by MAX_NEST_DEPTH + 1 - depth

theorem DataType.used_eq_self : ∀ type : DataType, type.used = type ↔ type.Plain
  | ⟨id, params, fields⟩ => by
    have each : ∀ field ∈ fields, field.used = field ↔ field.Plain := by
      rintro ⟨name, inner, nullable⟩ listed
      rw [Field.used, Field.Plain, ← DataType.used_eq_self inner]
      simp
    rw [DataType.used, DataType.Plain, DataType.mk.injEq, ← forall₂_congr each,
      and_iff_right rfl, ← map_inj_left (g := fun field => field), map_id']
termination_by type => sizeOf type
decreasing_by
  have := List.sizeOf_lt_of_mem listed
  simp only [Field.mk.sizeOf_spec] at this
  simp only [DataType.mk.sizeOf_spec]
  omega

theorem decodeDataType_back_iff (type : DataType) (sized : type.Sized) :
    decodeDataType (encodeDataType type) = some type ↔
      type.Plain ∧ type.nesting ≤ MAX_NEST_DEPTH ∧ type.Limited := by
  rw [decodeDataType, encodeDataType, Cursor.whole_answers (decodeType_answers type sized 0),
    Nat.zero_add, ← DataType.used_eq_self]
  by_cases within : type.nesting ≤ MAX_NEST_DEPTH ∧ type.Limited
  · rw [if_pos within, Option.some_inj, and_iff_left within]
  · rw [if_neg within, iff_false_intro within, and_false, iff_false]
    exact (Option.some_ne_none type).symm

/-- A type comes back if and only if it keeps the limits and has nothing in the members that its
kinds do not use. What is written of it, cut short or with something behind it, is refused. -/
theorem decodeDataType_encodeDataType (type : DataType) (sized : type.Sized) :
    (decodeDataType (encodeDataType type) = some type ↔
        type.Plain ∧ type.nesting ≤ MAX_NEST_DEPTH ∧ type.Limited) ∧
      (∀ front extra, front ++ extra = encodeDataType type → extra ≠ [] →
        decodeDataType front = none) ∧
      ∀ extra, extra ≠ [] → decodeDataType (encodeDataType type ++ extra) = none := by
  have answers := decodeType_answers type sized 0
  refine ⟨decodeDataType_back_iff type sized, ?_, ?_⟩
  · intro front extra cut some
    exact Cursor.whole_shorter (decodeType_local 0) answers cut some
  · intro extra some
    exact Cursor.whole_longer answers some

/-- A list of decimals. -/
def listOfDecimals : DataType :=
  ⟨.List, {}, [⟨[105], ⟨.Decimal128, { decimalPrecision := 38, decimalScale := -2 }, []⟩, true⟩]⟩

theorem decodeDataType_listOfDecimals :
    decodeDataType (encodeDataType listOfDecimals) = some listOfDecimals := by
  have sized : listOfDecimals.Sized := by simp [listOfDecimals, DataType.Sized, Field.Sized]
  apply (decodeDataType_encodeDataType listOfDecimals sized).1.mpr
  simp [listOfDecimals, DataType.Plain, Field.Plain, DataType.nesting, Field.nesting,
    DataType.Limited, Field.Limited, TypeParams.usedBy, TypeParams.Limited, MAX_NEST_DEPTH,
    MAX_FIELDS, MAX_NAME_LEN]

/-- Moments with a time zone of so many bytes. -/
def zoned (n : Nat) : DataType := ⟨.Timestamp, { timezone := List.replicate n 0 }, []⟩

theorem zoned_back_iff (fits : n < 2 ^ 64) :
    decodeDataType (encodeDataType (zoned n)) = some (zoned n) ↔ n ≤ MAX_NAME_LEN := by
  have sized : (zoned n).Sized := by simpa [zoned, DataType.Sized] using fits
  rw [decodeDataType_back_iff _ sized]
  simp [zoned, DataType.Plain, TypeParams.usedBy, DataType.nesting, DataType.Limited,
    TypeParams.Limited]

/-- Integers with a width, which is not theirs. -/
def wideIntegers : DataType := ⟨.Int64, { fixedSize := 1 }, []⟩

/-- A time zone of one byte more than a name may have is not read back, and neither is a member
that the kind does not use. The types have no names, no fields and no levels below them. -/
theorem zoned_lost :
    ((zoned (MAX_NAME_LEN + 1)).nesting = 0 ∧
        decodeDataType (encodeDataType (zoned (MAX_NAME_LEN + 1))) ≠
          some (zoned (MAX_NAME_LEN + 1))) ∧
      wideIntegers.nesting = 0 ∧
        decodeDataType (encodeDataType wideIntegers) ≠ some wideIntegers := by
  have sized : wideIntegers.Sized := by simp [wideIntegers, DataType.Sized]
  have stray : ¬ wideIntegers.Plain := by
    rw [wideIntegers, DataType.Plain]
    exact fun plain => absurd plain.1 (by decide)
  refine ⟨⟨by simp [zoned, DataType.nesting], ?_⟩, by simp [wideIntegers, DataType.nesting], ?_⟩
  · rw [Ne, zoned_back_iff (by decide)]
    exact Nat.not_succ_le_self MAX_NAME_LEN
  · rw [Ne, decodeDataType_back_iff _ sized]
    exact fun back => stray back.1

end DFTracer.Indexing
