/-
# The canonical text of an expression

An expression is written out node by node, with its literals and the values of its sets, so that
the text can stand for the expression in another process. A value is written as a label for
people to read: a double has six decimals, and a null has what lies in its slot.
-/

import DFTracer.Expr.Expressions
import DFTracer.Math.DelimitedText
import DFTracer.Math.FloatText

namespace DFTracer.Expr

open Frames (Bytes TypeId DataType ValueDomain typeCode valueDomain narrowVarwidthType pod)
open Flame (littleEndian)
open Math.Float64 (whole)
open Math.DelimitedText

/-- The bits of the single that a half-precision number is. A subnormal one is shifted until its
leading bit leaves the fraction. -/
def halfBits (h : Nat) : Nat :=
  let sign := h / 2 ^ 15 * 2 ^ 31
  let exp := h / 2 ^ 10 % 2 ^ 5
  let mant := h % 2 ^ 10
  if exp = 0 then
    if mant = 0 then sign
    else
      let shift := 10 - mant.log2
      sign + (113 - shift) * 2 ^ 23 + mant * 2 ^ shift % 2 ^ 10 * 2 ^ 13
  else if exp = 0x1F then sign + 0x7F800000 + mant * 2 ^ 13
  else sign + (exp + 112) * 2 ^ 23 + mant * 2 ^ 13

def halfToFloat (h : Nat) : Float32 := .ofBits (UInt32.ofNat (halfBits h))

/-- An unsigned word of a decimal. -/
def decimalWord (cell : Bytes) (i : Nat) : Float :=
  (UInt64.ofNat (littleEndian ((cell.drop (8 * i)).take 8))).toFloat

def p64 : Float := 18446744073709551616.0

def decimal128ToDouble (cell : Bytes) (scale : Int) : Float :=
  (whole (pod (cell.drop 8)) * p64 + decimalWord cell 0) / Float.pow 10 (whole scale)

def decimal256ToDouble (cell : Bytes) (scale : Int) : Float :=
  (((whole (pod (cell.drop 24)) * p64 + decimalWord cell 2) * p64 + decimalWord cell 1) * p64 +
    decimalWord cell 0) / Float.pow 10 (whole scale)

/-- `read_i64`. -/
def readI64 (t : TypeId) (cell : Bytes) : Int :=
  match t with
  | .Bool => if littleEndian cell = 0 then 0 else 1
  | .Int8 | .Int16 | .Int32 | .Int64 | .Date32 | .Date64 | .Time32 | .Time64 | .Timestamp
  | .Duration => pod cell
  | _ => 0

/-- `read_f64`. -/
def readF64 (t : DataType) (cell : Bytes) : Float :=
  match t.id with
  | .Float16 => (halfToFloat (littleEndian cell)).toFloat
  | .Float32 => (Float32.ofBits (UInt32.ofNat (littleEndian cell))).toFloat
  | .Float64 => .ofBits (UInt64.ofNat (littleEndian cell))
  | .Decimal128 => decimal128ToDouble cell t.decimalScale
  | .Decimal256 => decimal256ToDouble cell t.decimalScale
  | .Uint8 | .Uint16 | .Uint32 | .Uint64 => (UInt64.ofNat (littleEndian cell)).toFloat
  | id => whole (readI64 id cell)

/-- The bytes of a text in ASCII. -/
def ascii (s : String) : Bytes := s.toList.map Char.toUInt8

/-- `std::to_string` of a double. -/
def doubleText (v : Float) : Bytes :=
  if number : v.isNaN = false then ascii (Math.Float64.Double.toFixed6 ⟨v, number⟩)
  else ascii (if v.toBits.toNat / 2 ^ 63 = 1 then "-nan" else "nan")

def cellToString (t : DataType) (cell : Bytes) : Bytes :=
  match t.id with
  | .String | .Binary | .LargeString | .LargeBinary | .FixedSizeBinary => cell
  | .Bool => ascii (if littleEndian cell = 0 then "false" else "true")
  | .Int8 | .Int16 | .Int32 | .Int64 => number (pod cell)
  | .Uint8 | .Uint16 | .Uint32 | .Uint64 => number (littleEndian cell)
  | .Float32 | .Float64 | .Float16 | .Decimal128 | .Decimal256 => doubleText (readF64 t cell)
  | .Date32 | .Date64 | .Time32 | .Time64 | .Timestamp | .Duration => number (readI64 t.id cell)
  | .List | .LargeList | .FixedSizeList | .Struct | .Map | .Unknown => []

def ExprKind.code : ExprKind → Nat
  | .LitI64 => 0
  | .LitF64 => 1
  | .Col => 2
  | .Binary => 3
  | .Prim => 4
  | .Unary => 5
  | .Clip => 6
  | .Fillna => 7
  | .Cmp => 8
  | .Logical => 9
  | .Not => 10
  | .Cast => 11
  | .StrPred => 12
  | .StrMap => 13
  | .StrLen => 14
  | .StrFind => 15
  | .StrReplace => 16
  | .StrSlice => 17
  | .IsIn => 18
  | .Select => 19
  | .IsNull => 20

def exprKinds : List ExprKind :=
  [.LitI64, .LitF64, .Col, .Binary, .Prim, .Unary, .Clip, .Fillna, .Cmp, .Logical, .Not, .Cast,
    .StrPred, .StrMap, .StrLen, .StrFind, .StrReplace, .StrSlice, .IsIn, .Select, .IsNull]

theorem exprKinds_code (k : ExprKind) : exprKinds[k.code]? = some k := by
  cases k <;> rfl

theorem ExprKind.code_injective {j k : ExprKind} (same : j.code = k.code) : j = k := by
  have listed := exprKinds_code j
  rw [same, exprKinds_code k] at listed
  exact (Option.some.inj listed).symm

def comma : UInt8 := ','.toUInt8

section Text

variable (m : Memory) (slots : Nat → Nat → Bytes)

def canonicalScalar (s : Scalar) : Bytes :=
  number s.kind ++ ':'.toUInt8 ::
    (if s.kind = TAG_STR then sized (m.textOf s) else number s.value.toNat)

/-- What the rows of a set of values hold. The slot of a null holds bytes as well. -/
def rowTexts (address : Nat) : List Bytes :=
  (m.column address).cells.zipIdx.map fun (cell, row) =>
    cellToString (m.column address).type (cell.getD (slots address row))

/-- The values of a set, and a comma behind them. -/
def canonicalValues (values : Option Nat) (behind : Bytes) : Bytes :=
  match values with
  | none => comma :: behind
  | some address =>
    number (typeCode (m.column address).type.id) ++
      separated comma (rowTexts m slots address) behind

/-- `canonical_node`, in front of another text. -/
def canonicalNode : ExprNode → Bytes → Bytes
  | .null, behind => '_'.toUInt8 :: behind
  | .node n a b c, behind =>
    '('.toUInt8 :: (number n.kind.code ++ comma :: (number n.i ++ comma ::
      (canonicalScalar m n.scalar ++ comma :: (canonicalScalar m n.scalar2 ++ comma ::
        (sized n.text ++ comma :: (sized n.text2 ++ comma ::
          canonicalValues m slots n.values
            (canonicalNode a (comma :: canonicalNode b (comma :: canonicalNode c
              (')'.toUInt8 :: behind))))))))))

def exprCanonical (e : ExprNode) : Bytes := canonicalNode m slots e []

end Text

/-! ## What the text tells -/

section Faithful

variable {m : Memory} {slots : Nat → Nat → Bytes} {x y : Bytes} {p : Prop} {e e' : ExprNode}

/-- The type of a set of values and the texts of its rows. -/
def valuesText (m : Memory) (slots : Nat → Nat → Bytes) (values : Option Nat) :
    Option (TypeId × List Bytes) :=
  values.map fun address => ((m.column address).type.id, rowTexts m slots address)

/-- Nodes with one text: literals are compared by what they hold, and sets of values by their
texts. -/
structure NodeData.Alike (m : Memory) (slots : Nat → Nat → Bytes) (n n' : NodeData) : Prop where
  kind : n.kind = n'.kind
  i : n.i = n'.i
  scalar : m.literal n.scalar = m.literal n'.scalar
  scalar2 : m.literal n.scalar2 = m.literal n'.scalar2
  text : n.text = n'.text
  text2 : n.text2 = n'.text2
  values : valuesText m slots n.values = valuesText m slots n'.values

/-- Expressions with one text. -/
inductive ExprNode.Alike (m : Memory) (slots : Nat → Nat → Bytes) : ExprNode → ExprNode → Prop
  | null : Alike m slots .null .null
  | node {n n' : NodeData} {a a' b b' c c' : ExprNode} (data : n.Alike m slots n')
      (a_alike : Alike m slots a a') (b_alike : Alike m slots b b')
      (c_alike : Alike m slots c c') : Alike m slots (.node n a b c) (.node n' a' b' c')

theorem comma_stops : ¬ Numeric comma := by
  unfold Numeric
  decide

theorem tells_scalar {s t : Scalar} (tells : Tells x y p) :
    Tells (canonicalScalar m s ++ comma :: x) (canonicalScalar m t ++ comma :: y)
      (m.literal s = m.literal t ∧ p) := by
  have colon : ¬ Numeric ':'.toUInt8 := by
    unfold Numeric
    decide
  have behind : s.kind = t.kind →
      Tells (':'.toUInt8 :: (if s.kind = TAG_STR then sized (m.textOf s) else number s.value.toNat)
          ++ comma :: x)
        (':'.toUInt8 :: (if t.kind = TAG_STR then sized (m.textOf t) else number t.value.toNat)
          ++ comma :: y) (m.literal s = m.literal t ∧ p) := by
    intro kinds
    unfold Memory.literal
    rw [kinds]
    split_ifs
    · refine (((tells.cons comma).sized).cons _).mono ?_
      rintro ⟨texts, told⟩
      exact ⟨congrArg Literal.text texts, told⟩
    · have stops (z : Bytes) : Stops (comma :: z) := .cons z comma_stops
      refine ((Tells.number (stops x) (stops y) fun _ => tells.cons comma).cons _).mono ?_
      rintro ⟨numbers, told⟩
      exact ⟨congrArg (Literal.number t.kind) (UInt64.toNat_inj.mp (Int.ofNat_inj.mp numbers)),
        told⟩
  unfold canonicalScalar
  rw [List.append_assoc, List.append_assoc]
  exact (Tells.number (.cons _ colon) (.cons _ colon) behind).mono And.right

theorem tells_values {values values' : Option Nat} (left : Stops x)
    (right : Stops y) (tells : Tells x y p) :
    Tells (canonicalValues m slots values x) (canonicalValues m slots values' y)
      (valuesText m slots values = valuesText m slots values' ∧ p) := by
  have other (address : Nat) (z : Bytes) : ∃ c rest,
      canonicalValues m slots (some address) z = c :: rest ∧ Numeric c := by
    obtain ⟨c, rest, digits⟩ := List.exists_cons_of_ne_nil
      (number_ne_nil (typeCode (m.column address).type.id))
    refine ⟨c, rest ++ separated comma (rowTexts m slots address) z, ?_, ?_⟩
    · change number _ ++ _ = _
      rw [digits]
      rfl
    · exact numeric_of_mem (n := typeCode (m.column address).type.id)
        (by rw [digits]; exact List.mem_cons_self)
  rcases values with _ | address <;> rcases values' with _ | address'
  · exact (tells.cons comma).mono fun told => ⟨rfl, told⟩
  · obtain ⟨c, rest, text, numeric⟩ := other address' y
    rw [text]
    exact .of_ne fun same => comma_stops (same ▸ numeric)
  · obtain ⟨c, rest, text, numeric⟩ := other address x
    rw [text]
    exact .of_ne fun same => comma_stops (same ▸ numeric)
  · refine (Tells.number (separated_stops comma_stops _ _) (separated_stops comma_stops _ _)
      fun _ => tells.separated left right).mono ?_
    rintro ⟨codes, rows, told⟩
    have types : (m.column address).type.id = (m.column address').type.id := by
      rw [← Frames.typeOfCode_typeCode (m.column address).type.id, codes,
        Frames.typeOfCode_typeCode]
    exact ⟨congrArg some (Prod.ext types rows), told⟩

theorem node_stops (e : ExprNode) (behind : Bytes) : Stops (canonicalNode m slots e behind) := by
  cases e with
  | null | node => exact .cons _ (by unfold Numeric; decide)

/-- The texts of two expressions, in front of other texts. -/
theorem tells_node (tells : Tells x y p) :
    Tells (canonicalNode m slots e x) (canonicalNode m slots e' y) (e.Alike m slots e' ∧ p) := by
  induction e generalizing e' x y p with
  | null =>
    cases e' with
    | null => exact (tells.cons _).mono fun told => ⟨.null, told⟩
    | node => exact .of_ne (by decide)
  | node n a b c ih_a ih_b ih_c =>
    cases e' with
    | null => exact .of_ne (by decide)
    | node n' a' b' c' =>
      have stops (z : Bytes) : Stops (comma :: z) := .cons z comma_stops
      refine Tells.mono (Tells.cons _ (Tells.number (stops _) (stops _) fun _ =>
        Tells.cons _ (Tells.number (stops _) (stops _) fun _ => Tells.cons _
          (tells_scalar (tells_scalar (Tells.sized (Tells.cons _ (Tells.sized (Tells.cons _
            (tells_values (node_stops a _) (node_stops a' _) (ih_a (Tells.cons _
              (ih_b (Tells.cons _ (ih_c (Tells.cons _ tells)))))))))))))))) ?_
      rintro ⟨kinds, i, scalar, scalar2, text, text2, values, alike_a, alike_b, alike_c, told⟩
      have kind : n.kind = n'.kind := ExprKind.code_injective (Int.ofNat_inj.mp kinds)
      exact ⟨.node ⟨kind, i, scalar, scalar2, text, text2, values⟩ alike_a alike_b alike_c,
        told⟩

/-- Expressions with one text differ in addresses alone, as far as the texts of values go. -/
theorem alike_of_canonical
    (same : exprCanonical m slots e = exprCanonical m slots e') : e.Alike m slots e' :=
  ((tells_node Tells.nil).eq same).1

end Faithful

end DFTracer.Expr
