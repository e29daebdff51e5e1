/-
# Column expressions

An expression is a tree of nodes, each with an operation, its parameters and up to three
operands. Literals carry a tag and 64 bits. The 64 bits of a text literal are the address of its
bytes, and a set of values is the address of a column.
-/

import DFTracer.Frames.FlatColumns
import DFTracer.Math.Sharing

namespace DFTracer.Expr

open Frames (Bytes TypeId DataType)

def TAG_I64 : Int := 0
def TAG_U64 : Int := 1
def TAG_F64 : Int := 2
def TAG_STR : Int := 3

/-- A tagged literal. Only a text has a length. -/
structure Scalar where
  kind : Int
  len : UInt32
  value : UInt64
  sized : kind ≠ TAG_STR → len = 0
  deriving DecidableEq

namespace Scalar

theorem no_len {kind : Int} : kind ≠ TAG_STR → (0 : UInt32) = 0 := fun _ => rfl

/-- A number, by its tag and bits. -/
def number (kind : Int) (value : UInt64) : Scalar := ⟨kind, 0, value, no_len⟩

def i64 (v : Int64) : Scalar := number TAG_I64 v.toUInt64

def f64 (v : Float) : Scalar := number TAG_F64 v.toBits

/-- A literal that is not given. -/
def zero : Scalar := number TAG_I64 0

/-- `scalar_to_double`. -/
def toDouble (s : Scalar) : Float :=
  if s.kind = TAG_I64 then Math.Float64.whole s.value.toInt64.toInt
  else if s.kind = TAG_U64 then s.value.toFloat
  else .ofBits s.value

/-- `to_f64_scalar`. -/
def toF64 (s : Scalar) : Scalar := f64 s.toDouble

end Scalar

inductive ExprKind
  | LitI64
  | LitF64
  | Col
  | Binary
  | Prim
  | Unary
  | Clip
  | Fillna
  | Cmp
  | Logical
  | Not
  | Cast
  | StrPred
  | StrMap
  | StrLen
  | StrFind
  | StrReplace
  | StrSlice
  | IsIn
  | Select
  | IsNull
  deriving DecidableEq, Repr

/-- What a node holds besides its operands. The bounds of a slice are integers, and so is the
literal of an integer node. -/
structure NodeData where
  kind : ExprKind
  i : Int := 0
  scalar : Scalar := .zero
  scalar2 : Scalar := .zero
  text : Bytes := []
  text2 : Bytes := []
  values : Option Nat := none
  slice : kind = .StrSlice → scalar.kind = TAG_I64 ∧ scalar2.kind = TAG_I64 := by
    intro h; first | cases h | exact ⟨rfl, rfl⟩
  integer : kind = .LitI64 → scalar.kind = TAG_I64 := by
    intro h; first | cases h | rfl
  double : kind = .LitF64 → scalar.kind = TAG_F64 := by
    intro h; first | cases h | rfl
  deriving DecidableEq

/-- An expression, or a pointer to none. -/
inductive ExprNode
  | null
  | node (data : NodeData) (a b c : ExprNode)
  deriving DecidableEq

namespace ExprNode

/-- `expr_col`. -/
def col (index : Int) : ExprNode := .node { kind := .Col, i := index } .null .null .null

/-- `expr_clip`. -/
def clip (a : ExprNode) (lo hi : Scalar) : ExprNode :=
  .node { kind := .Clip, scalar := lo, scalar2 := hi } a .null .null

/-- `expr_is_in`. -/
def isIn (a : ExprNode) (values : Nat) : ExprNode :=
  .node { kind := .IsIn, values := some values } a .null .null

end ExprNode

inductive BinaryOp
  | Add
  | Sub
  | Mul
  | Div
  deriving DecidableEq, Repr

inductive UnaryOp
  | Abs
  | Round
  | Floor
  | Ceil
  | Log
  | Sqrt
  | Exp
  | Sign
  | Negate
  | Trunc
  | IsNan
  | IsFinite
  | IsInfinite
  deriving DecidableEq, Repr

inductive StrPredOp
  | Contains
  | StartsWith
  | EndsWith
  | Like
  | Matches
  | Search
  deriving DecidableEq, Repr

inductive StrMapOp
  | Lower
  | Upper
  | Strip
  | Lstrip
  | Rstrip
  deriving DecidableEq, Repr

/-- The entry of a table that an index stands for. -/
def entry {α : Type} (all : List α) (i : Int) : Option α :=
  if 0 ≤ i then all[i.toNat]? else none

def binaryOps : List BinaryOp := [.Add, .Sub, .Mul, .Div]

def unaryOps : List UnaryOp :=
  [.Abs, .Round, .Floor, .Ceil, .Log, .Sqrt, .Exp, .Sign, .Negate, .Trunc, .IsNan, .IsFinite,
    .IsInfinite]

def strPredOps : List StrPredOp := [.Contains, .StartsWith, .EndsWith, .Like, .Matches, .Search]

def strMapOps : List StrMapOp := [.Lower, .Upper, .Strip, .Lstrip, .Rstrip]

/-- A column: its type and a cell for each row, null or the raw bytes of its value. -/
structure Column where
  type : DataType
  cells : List (Option Bytes)
  deriving DecidableEq

def Column.length (c : Column) : Nat := c.cells.length

/-- The columns that expressions are evaluated on. -/
structure Frame where
  columns : List Column
  rows : Nat
  rectangular : ∀ c ∈ columns, c.length = rows

/-- What addresses lead to. -/
structure Memory where
  text : UInt64 → UInt32 → Bytes
  column : Nat → Column

/-- A literal with the bytes of its text. -/
inductive Literal
  | number (kind : Int) (value : UInt64)
  | text (bytes : Bytes)
  deriving DecidableEq

/-- The bytes of a text literal. There are none at the null address. -/
def Memory.textOf (m : Memory) (s : Scalar) : Bytes :=
  if s.value = 0 then [] else m.text s.value s.len

def Memory.literal (m : Memory) (s : Scalar) : Literal :=
  if s.kind = TAG_STR then .text (m.textOf s) else .number s.kind s.value

end DFTracer.Expr
