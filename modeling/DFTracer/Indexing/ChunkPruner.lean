/-
# Chunk pruning

Which chunks of a file may hold an event that matches a query, from what the
index recorded of each chunk. `evaluateNode` collects the chunks that may match
and `evaluateAllMatch` those in which every event matches; a negation turns one
into the complement of the other. All comparisons go through texts: a literal is
printed and compared with the recorded texts in the type of the dimension.
-/

import DFTracer.Indexing.ChunkRecorder
import DFTracer.Query.Evaluator
import Mathlib.Data.String.Basic

namespace DFTracer.Indexing

open DFTracer.Query DFTracer.Math.Float64 DFTracer.Math.NumberText Option

/-- `IndexDatabase::HashType`, for the hashed dimensions. -/
inductive HashType where
  | file
  | host
  | string
deriving DecidableEq

/-- What the pruner asks the index database about one file. -/
structure IndexDatabase where
  /-- `query_name_id`. -/
  nameId : String → Option UInt64
  /-- Whether the file postings of a name list this file. -/
  fileHolds : UInt64 → Bool
  /-- `query_name_chunk_postings`, for this file. -/
  chunkPostings : UInt64 → Finset Nat
  /-- `resolve_name_to_hash`. -/
  resolveNameToHash : HashType → String → Option String

/-- `PrunerContext`. -/
structure PrunerContext where
  allChunks : Finset Nat
  dimStats : Nat → String → Option ChunkDimensionStats
  bloomFilters : String → Nat → Option ScalableBloomFilter
  tsHistograms : Nat → Option TimestampHistogram
  db : Option IndexDatabase

/-- `looks_like_hash`. -/
def looksLikeHash (value : String) : Bool :=
  16 ≤ value.utf8ByteSize && value.toList.all fun c =>
    c.isDigit || ('a' ≤ c && c ≤ 'f') || ('A' ≤ c && c ≤ 'F')

/-- `dim_to_hash_type`; the other dimensions are not hashed. -/
def dimToHashType (dim : String) : Option HashType :=
  if dim = "fhash" then some .file
  else if dim = "hhash" then some .host
  else if dim = "shash" then some .string
  else none

/-- `literal_to_string`. -/
def literalToString : Literal → String
  | .string s => s
  | .bool b => if b then "true" else "false"
  | .int64 n => toString n.toInt
  | .uint64 n => toString n.toNat
  | .double x => canonicalNumberText x

/-- `compare_values`: numbers by value when both texts read as numbers of the
type, anything else as text. -/
def compareValues (a b : String) (type : ValueType) : Ordering :=
  let read := match type with
    | .uint => do some (compare (← stoull a) (← stoull b))
    | .int => do some (compare (← stoll a) (← stoll b))
    | .double => do
        let x ← stod a
        let y ← stod b
        some (if x.lt y then .lt else if y.lt x then .gt else .eq)
    | _ => none
  read.getD (compare a b)

/-- An ordering operator on the result of a comparison; the equality operators
hold of any. -/
def orderHolds (op : CompareOp) (cmp : Ordering) : Bool :=
  match op with
  | .gt => cmp == .gt
  | .ge => cmp != .lt
  | .lt => cmp == .lt
  | .le => cmp != .gt
  | .eq | .ne => true

/-- `min > max` in numeric statistics, or an end that is no number. -/
def corrupt (stats : ChunkDimensionStats) : Bool :=
  stats.valueType.isNumeric &&
    match stod stats.minValue, stod stats.maxValue with
    | some low, some high => high.lt low
    | _, _ => true

/-- The end of the range that decides whether some value satisfies an operator. -/
def mayEnd (stats : ChunkDimensionStats) : CompareOp → String
  | .gt | .ge => stats.maxValue
  | _ => stats.minValue

/-- The end of the range that decides whether all values satisfy an operator. -/
def allEnd (stats : ChunkDimensionStats) : CompareOp → String
  | .gt | .ge => stats.minValue
  | _ => stats.maxValue

/-- `range_may_match`. -/
def rangeMayMatch (stats : Option ChunkDimensionStats) (op : CompareOp) (val : String) : Bool :=
  match stats with
  | none => true
  | some ds =>
    if ds.minValue = "" ∧ ds.maxValue = "" then true
    else if ds.minValue ≠ "" ∧ ds.maxValue ≠ "" ∧ corrupt ds then true
    else orderHolds op (compareValues (mayEnd ds op) val ds.valueType)

/-- `range_all_match`. -/
def rangeAllMatch (stats : Option ChunkDimensionStats) (op : CompareOp) (val : String) : Bool :=
  match stats with
  | none => false
  | some ds =>
    if ds.minValue = "" ∨ ds.maxValue = "" then false
    else if corrupt ds then false
    else
      match op with
      | .eq | .ne => false
      | op => orderHolds op (compareValues (allEnd ds op) val ds.valueType)

/-- `is_fixed_dimension`. -/
def isFixedDimension (dim : String) : Bool := (FixedDim.all.map FixedDim.dimension).contains dim

/-- `histogram_has_events`, with the wrap of `ts_val + 1`. -/
def histogramHasEvents (histogram : Option TimestampHistogram) (op : CompareOp) (ts : Nat) : Bool :=
  match histogram with
  | none => true
  | some hist =>
    hist.bins.isEmpty ||
      match op with
      | .gt => 0 < hist.countInRange ((ts + 1) % 2 ^ 64) (2 ^ 64 - 1)
      | .ge => 0 < hist.countInRange ts (2 ^ 64 - 1)
      | .lt => 0 < hist.countInRange 0 ts
      | .le => 0 < hist.countInRange 0 ((ts + 1) % 2 ^ 64)
      | .eq | .ne => true

namespace PrunerContext

variable (ctx : PrunerContext)

/-- The dictionary of a dimension of a chunk. -/
def dict (chunk : Nat) (dim : String) : Option (AList fun _ : String => Nat) :=
  (ctx.dimStats chunk dim).bind ChunkDimensionStats.valueCounts

/-- `resolve_hashes`. -/
def resolveHashes (dim val : String) : List String :=
  match dimToHashType dim, ctx.db with
  | some type, some db =>
    if looksLikeHash val then [] else (db.resolveNameToHash type val).toList
  | _, _ => []

/-- `bloom_probe`. -/
def bloomProbe (dim : String) (chunk : Nat) (val : String) : Bool :=
  match ctx.bloomFilters dim chunk with
  | none => true
  | some bloom => bloom.possiblyContains val

/-- `bloom_may_contain`. -/
def bloomMayContain (dim : String) (chunk : Nat) (val : String) : Bool :=
  match ctx.resolveHashes dim val with
  | [] => ctx.bloomProbe dim chunk val
  | resolved => resolved.any fun hash => ctx.bloomProbe dim chunk hash

/-- `file_contains_name` and `resolve_name_chunks`: the chunks that hold a name,
when the index can tell. -/
def nameChunks (val : String) : Option (Finset Nat) := do
  let db ← ctx.db
  let id ← db.nameId val
  some (if db.fileHolds id then db.chunkPostings id else ∅)

/-- The histogram test on the timestamp, skipped when the literal is no number. -/
def tsMayMatch (op : CompareOp) (val : String) (chunk : Nat) : Bool :=
  match stoull val with
  | some ts => histogramHasEvents (ctx.tsHistograms chunk) op ts
  | none => true

/-- One chunk in `eval_compare`. -/
def mayCompare (field : String) (op : CompareOp) (val : String) (chunk : Nat) : Bool :=
  let stats := ctx.dimStats chunk field
  match op with
  | .eq =>
    match ctx.dict chunk field with
    | some dict => val ∈ dict
    | none =>
      (isFixedDimension field ||
          (rangeMayMatch stats .ge val && rangeMayMatch stats .le val)) &&
        ctx.bloomMayContain field chunk val
  | .ne =>
    match ctx.dict chunk field with
    | some dict => !(dict.keys.length = 1 && val ∈ dict)
    | none => true
  | op =>
    rangeMayMatch stats op val && (field != "ts" || ctx.tsMayMatch op val chunk)

/-- `eval_compare`. A name is answered from the postings when they list a chunk,
and by nothing when the file does not have it. -/
def evalCompare (field : String) (op : CompareOp) (val : String) : Finset Nat :=
  let named := if field = "name" ∧ op = .eq then ctx.db.bind fun db =>
      (db.nameId val).bind fun id =>
        if !db.fileHolds id then some ∅
        else if db.chunkPostings id = ∅ then none else some (db.chunkPostings id)
    else none
  named.getD (ctx.allChunks.filter fun chunk => ctx.mayCompare field op val chunk = true)

/-- `eval_in`. -/
def evalIn (field : String) (values : List String) : Finset Nat :=
  let named : Finset Nat :=
    if field = "name" then values.foldl (fun found val => found ∪ (ctx.nameChunks val).getD ∅) ∅
    else ∅
  if named ≠ ∅ then named
  else ctx.allChunks.filter fun chunk =>
    (values.any fun val =>
      match ctx.dict chunk field with
      | some dict => val ∈ dict
      | none => ctx.bloomMayContain field chunk val) = true

/-- `eval_not_in`. -/
def evalNotIn (field : String) (values : List String) : Finset Nat :=
  ctx.allChunks.filter fun chunk =>
    (match ctx.dict chunk field with
      | some dict => !dict.keys.all fun val => values.contains val
      | none => true) = true

/-- `all_match_compare`. -/
def allMatchCompare (field : String) (op : CompareOp) (val : String) : Finset Nat :=
  ctx.allChunks.filter fun chunk =>
    (match op with
      | .eq => (ctx.dict chunk field).any fun dict => dict.keys.length = 1 && val ∈ dict
      | .ne => (ctx.dict chunk field).any fun dict => val ∉ dict
      | op => rangeAllMatch (ctx.dimStats chunk field) op val) = true

/-- `all_match_in`: every dictionary value is, or is not, in the list. -/
def allMatchIn (field : String) (values : List String) (wantIn : Bool) : Finset Nat :=
  ctx.allChunks.filter fun chunk =>
    ((ctx.dict chunk field).any fun dict =>
      !dict.keys.isEmpty && dict.keys.all fun val => values.contains val == wantIn) = true

mutual

/-- `evaluate_node`: the chunks that may hold a match. -/
def evaluateNode : QueryNode → Finset Nat
  | .compare field op value => ctx.evalCompare field.path op (literalToString value)
  | .isIn field values => ctx.evalIn field.path (values.map literalToString)
  | .notIn field values => ctx.evalNotIn field.path (values.map literalToString)
  | .matches _ _ _ _ => ctx.allChunks
  | .and left right => evaluateNode left ∩ evaluateNode right
  | .or left right => evaluateNode left ∪ evaluateNode right
  | .not operand => ctx.allChunks \ evaluateAllMatch operand

/-- `evaluate_all_match`: chunks in which every event matches. -/
def evaluateAllMatch : QueryNode → Finset Nat
  | .compare field op value => ctx.allMatchCompare field.path op (literalToString value)
  | .isIn field values => ctx.allMatchIn field.path (values.map literalToString) true
  | .notIn field values => ctx.allMatchIn field.path (values.map literalToString) false
  | .matches _ _ _ _ => ∅
  | .and left right => evaluateAllMatch left ∩ evaluateAllMatch right
  | .or left right => evaluateAllMatch left ∪ evaluateAllMatch right
  | .not operand => ctx.allChunks \ evaluateNode operand

end

end PrunerContext

/-! ## Ranges and dictionaries of a loaded chunk

A context the pruner works on holds, for each chunk, some of what was recorded
from its events; a dictionary or a Bloom filter may be missing. `Describes`
states what the statistics of a dimension say about the texts recorded for it,
and the range tests are lifted from the ends to every text between them. -/

variable {a b : String} {type : ValueType} {op : CompareOp}

theorem compareValues_text (textual : ¬type.isNumeric = true) :
    compareValues a b type = compare a b := by
  cases type with
  | uint | int | double => exact absurd rfl textual
  | string | unset | mixed => rfl

/-- Texts that read as numbers compare as these numbers. -/
theorem compareValues_numbers {x y : Int}
    (readA : readKey a type = some x) (readB : readKey b type = some y) :
    compareValues a b type = compare x y := by
  cases type with
  | uint =>
    obtain ⟨n, hn, rfl⟩ := map_eq_some_iff.mp readA
    obtain ⟨m, hm, rfl⟩ := map_eq_some_iff.mp readB
    have same : compareValues a b .uint = compare n m := by
      simp only [compareValues, hn, hm, bind_eq_bind, Option.bind_some, getD_some]
    rw [same, Int.ofNat_eq_natCast, Int.ofNat_eq_natCast]
    rcases Nat.lt_trichotomy n m with below | equal | above
    · rw [compare_lt_iff_lt.mpr below, compare_lt_iff_lt.mpr (Int.ofNat_lt.mpr below)]
    · rw [compare_eq_iff_eq.mpr equal, compare_eq_iff_eq.mpr (congrArg _ equal)]
    · rw [compare_gt_iff_gt.mpr above, compare_gt_iff_gt.mpr (Int.ofNat_lt.mpr above)]
  | int =>
    have hx : stoll a = some x := readA
    have hy : stoll b = some y := readB
    simp only [compareValues, hx, hy, bind_eq_bind, Option.bind_some, getD_some]
  | double =>
    have number : ∀ {text : String} {n : Int}, readKey text .double = some n →
        ∃ p, stod text = some (.number p) ∧ p.rank = n := by
      intro text n read
      cases parsed : stod text with
      | none => simp [readKey, parsed] at read
      | some result =>
        cases result with
        | nan => simp [readKey, parsed] at read
        | number p =>
          simp only [readKey, parsed] at read
          exact ⟨p, rfl, Option.some.inj read⟩
    obtain ⟨p, hp, rfl⟩ := number readA
    obtain ⟨q, hq, rfl⟩ := number readB
    rw [← compareDouble_eq]
    simp only [compareValues, hp, hq, bind_eq_bind, Option.bind_some, getD_some,
      Parsed.lt, compareDouble, decide_eq_true_eq]
  | string | unset | mixed => exact absurd readA (some_ne_none x).symm

/-- A text reads as a number, if the type is numeric. -/
def Reads (text : String) (type : ValueType) : Prop :=
  type.isNumeric = true → (readKey text type).isSome = true

/-- `s` lies on the side of `t` an ordering operator looks at. -/
def Toward (op : CompareOp) (s t : String) (type : ValueType) : Prop :=
  match op with
  | .gt | .ge => TextLe t s type
  | .lt | .le => TextLe s t type
  | .eq | .ne => True

/-- An ordering operator that holds of an element holds further on its side. -/
theorem orderHolds_of_le {α : Type} [LinearOrder α] {s t v : α}
    (up : op = .gt ∨ op = .ge → t ≤ s) (down : op = .lt ∨ op = .le → s ≤ t)
    (holds : orderHolds op (compare t v) = true) : orderHolds op (compare s v) = true := by
  cases op with
  | eq | ne => rfl
  | gt =>
    have above := compare_gt_iff_gt.mp (eq_of_beq holds)
    exact beq_iff_eq.mpr (compare_gt_iff_gt.mpr (lt_of_lt_of_le above (up (.inl rfl))))
  | ge =>
    have above := compare_ge_iff_ge.mp (bne_iff_ne.mp holds)
    exact bne_iff_ne.mpr (compare_ge_iff_ge.mpr (le_trans above (up (.inr rfl))))
  | lt =>
    have below := compare_lt_iff_lt.mp (eq_of_beq holds)
    exact beq_iff_eq.mpr (compare_lt_iff_lt.mpr (lt_of_le_of_lt (down (.inl rfl)) below))
  | le =>
    have below := compare_le_iff_le.mp (bne_iff_ne.mp holds)
    exact bne_iff_ne.mpr (compare_le_iff_le.mpr (le_trans (down (.inr rfl)) below))

/-- What holds of a text holds of every text further on that side. -/
theorem orderHolds_toward {s t val : String}
    (readS : Reads s type) (readT : Reads t type) (readVal : Reads val type)
    (toward : Toward op s t type) (holds : orderHolds op (compareValues t val type) = true) :
    orderHolds op (compareValues s val type) = true := by
  have up : op = .gt ∨ op = .ge → TextLe t s type := by
    rintro (rfl | rfl) <;> exact toward
  have down : op = .lt ∨ op = .le → TextLe s t type := by
    rintro (rfl | rfl) <;> exact toward
  unfold TextLe at up down
  by_cases numeric : type.isNumeric = true
  · obtain ⟨x, hx⟩ := isSome_iff_exists.mp (readS numeric)
    obtain ⟨y, hy⟩ := isSome_iff_exists.mp (readT numeric)
    obtain ⟨z, hz⟩ := isSome_iff_exists.mp (readVal numeric)
    rw [if_pos numeric] at up down
    rw [compareValues_numbers hy hz] at holds
    rw [compareValues_numbers hx hz]
    exact orderHolds_of_le (fun side => up side y x hy hx) (fun side => down side x y hx hy) holds
  · rw [if_neg numeric] at up down
    rw [compareValues_text numeric] at holds ⊢
    exact orderHolds_of_le up down holds

/-! ### What the statistics of a dimension say -/

/-- The statistics of a dimension in a context, for the texts recorded for it.
Texts that are empty make the ends of a dimension unreliable. -/
structure Describes (ds : ChunkDimensionStats) (texts : List String) : Prop where
  printed : ∀ t ∈ texts, Printed t ds.valueType
  ends : ds.valueType ≠ .mixed → "" ∉ texts → Ends ds.valueType ds.minValue ds.maxValue texts
  cleared : ds.valueType = .mixed → ds.minValue = "" ∧ ds.maxValue = ""
  counts : ∀ dict, ds.valueCounts = some dict → ∀ t, t ∈ dict ↔ t ∈ texts

namespace Describes

variable {ds : ChunkDimensionStats} {texts : List String}

section

variable (describes : Describes ds texts) {op : CompareOp} {t val : String}

include describes

/-- A recorded end of statistics that are not corrupt reads as a number. -/
theorem reads_end (sound : corrupt ds = false)
    {s : String} (isEnd : s = ds.minValue ∨ s = ds.maxValue) (seen : s ∈ texts) :
    Reads s ds.valueType := by
  intro numeric
  have printed := describes.printed s seen
  cases type : ds.valueType with
  | uint =>
    rw [type] at printed
    obtain ⟨n, fits, rfl⟩ := printed
    rw [readKey_uint fits]
    rfl
  | int =>
    rw [type] at printed
    obtain ⟨n, low, high, rfl⟩ := printed
    rw [readKey_int low high]
    rfl
  | double =>
    rw [type] at printed
    unfold corrupt at sound
    rw [numeric] at sound
    have parses : ∃ parsed, stod s = some parsed := by
      split at sound
      · rename_i low high readLow readHigh
        rcases isEnd with rfl | rfl
        · exact ⟨low, readLow⟩
        · exact ⟨high, readHigh⟩
      · exact absurd sound (by decide)
    obtain ⟨parsed, read⟩ := parses
    cases parsed with
    | nan => exact absurd read printed
    | number x =>
      simp only [readKey, read]
      rfl
  | string | unset | mixed => exact absurd (type ▸ numeric) (by decide)

/-- `range_may_match` keeps a chunk with a text that satisfies the operator. -/
theorem rangeMayMatch_of (seen : t ∈ texts)
    (echoed : ds.valueType ≠ .mixed → "" ∉ texts ∧ Reads t ds.valueType ∧ Reads val ds.valueType ∧
      orderHolds op (compareValues t val ds.valueType) = true) :
    rangeMayMatch (some ds) op val = true := by
  unfold rangeMayMatch
  dsimp only
  split
  · rfl
  · rename_i present
    split
    · rfl
    · rename_i sound
      have unmixed : ds.valueType ≠ .mixed := fun mixed => present (describes.cleared mixed)
      obtain ⟨nonempty, readT, readVal, holds⟩ := echoed unmixed
      have ends := describes.ends unmixed nonempty
      obtain ⟨low, lowLe⟩ := ends.low_le t seen
      obtain ⟨high, leHigh⟩ := ends.le_high t seen
      have clean : corrupt ds = false := by
        simpa [low, high] using sound
      have isEnd : mayEnd ds op = ds.minValue ∨ mayEnd ds op = ds.maxValue := by
        cases op <;> first | exact .inl rfl | exact .inr rfl
      have listed : mayEnd ds op ∈ texts := by
        rcases isEnd with same | same
        · exact same ▸ ends.low_seen low
        · exact same ▸ ends.high_seen high
      refine orderHolds_toward (describes.reads_end clean isEnd listed) readT readVal ?_ holds
      cases op with
      | eq | ne => trivial
      | gt | ge => exact leHigh
      | lt | le => exact lowLe

/-- `range_all_match` speaks for every recorded text. -/
theorem orderHolds_of_rangeAllMatch (seen : t ∈ texts) (nonempty : "" ∉ texts) (readT : Reads t ds.valueType)
    (readVal : Reads val ds.valueType) (all : rangeAllMatch (some ds) op val = true) :
    orderHolds op (compareValues t val ds.valueType) = true := by
  unfold rangeAllMatch at all
  dsimp only at all
  split at all
  · exact absurd all (by decide)
  · rename_i present
    split at all
    · exact absurd all (by decide)
    · rename_i sound
      have clean : corrupt ds = false := by simpa using sound
      have unmixed : ds.valueType ≠ .mixed := fun mixed =>
        present (.inl (describes.cleared mixed).1)
      have ends := describes.ends unmixed nonempty
      obtain ⟨low, lowLe⟩ := ends.low_le t seen
      obtain ⟨high, leHigh⟩ := ends.le_high t seen
      have isEnd : allEnd ds op = ds.minValue ∨ allEnd ds op = ds.maxValue := by
        cases op <;> first | exact .inl rfl | exact .inr rfl
      have listed : allEnd ds op ∈ texts := by
        rcases isEnd with same | same
        · exact same ▸ ends.low_seen low
        · exact same ▸ ends.high_seen high
      have readEnd := describes.reads_end clean isEnd listed
      cases op with
      | eq | ne => rfl
      | gt | ge => exact orderHolds_toward readT readEnd readVal lowLe all
      | lt | le => exact orderHolds_toward readT readEnd readVal leHigh all

end

end Describes

end DFTracer.Indexing
