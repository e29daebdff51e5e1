/-
# Compiling expressions

An expression is compiled for the types of the input columns into operations on slots. An
operation goes to an emitter, which gives the slot of its result. The emitter of the code gives
one slot to all operations with one key. Another one gives terms in the place of slots and shares
nothing.
-/

import DFTracer.Expr.Expressions

namespace DFTracer.Expr

open Frames (Bytes TypeId DataType typeCode typeOfCode valueDomain typeName)
open Math.Sharing

inductive Opcode
  | LOAD
  | ADD
  | SUB
  | MUL
  | DIV
  | ADDS
  | SUBS
  | MULS
  | DIVS
  | PRIM
  | UNARY
  | CLIP
  | FILLNA
  | CMP
  | LOGICAL
  | NOT
  | CAST
  | STR_PRED
  | STR_MAP
  | STR_LEN
  | STR_FIND
  | STR_REPLACE
  | STR_SLICE
  | IS_IN
  | CONST
  | SELECT
  | IS_NULL
  deriving DecidableEq, Repr

/-- What an operation holds besides its operands. -/
structure OpHead where
  opcode : Opcode
  param : Int := 0
  scalar : Scalar := .zero
  scalar2 : Scalar := .zero
  text : Bytes := []
  text2 : Bytes := []
  values : Option Nat := none
  deriving DecidableEq

abbrev SlotOp := Op OpHead

def colOp : BinaryOp → Opcode
  | .Add => .ADD
  | .Sub => .SUB
  | .Mul => .MUL
  | .Div => .DIV

def scalarOp : BinaryOp → Opcode
  | .Add => .ADDS
  | .Sub => .SUBS
  | .Mul => .MULS
  | .Div => .DIVS

/-- Why an expression has no result. An `undefined` one is what the code does not guard against:
a missing operand, or a code that stands for no operation. -/
inductive EvalError
  | invalidArgument (what : String)
  | undefined
  deriving DecidableEq, Repr

/-- What gives the slots of operations. -/
structure Emitter (σ τ : Type) where
  absent : σ
  emit : SlotOp σ → τ → σ × τ

/-- A compiled subexpression, a literal or a column in a slot. -/
structure Val (σ : Type) where
  isScalar : Bool
  slot : σ
  type : TypeId
  scalar : Scalar := .zero
  full : Option DataType
  deriving DecidableEq

/-- A type without parameters. The unknown type has none. -/
def scalarType (t : TypeId) : Option DataType :=
  if known : t ≠ .Unknown then some (.scalar t known) else none

namespace Val

variable {σ : Type}

def isUnknown (v : Val σ) : Bool := v.full.isNone

def isFloat (v : Val σ) : Bool :=
  if v.isScalar then v.scalar.kind = TAG_F64 else v.type = .Float32 || v.type = .Float64

/-- A literal in the place of a column. -/
def literal (absent : σ) (scalar : Scalar) (full : Option DataType) : Val σ where
  isScalar := true
  slot := absent
  type := .Int64
  scalar := scalar
  full := full

/-- `unknown_val`. -/
def unknown (absent : σ) : Val σ where
  isScalar := false
  slot := absent
  type := .Unknown
  full := none

end Val

/-! ## The compiler -/

namespace Compiler

variable {σ τ : Type} (E : Emitter σ τ)

/-- A step of the compiler. -/
abbrev Compile (τ α : Type) := StateT τ (Except EvalError) α

/-- An operation, as a column of the type. -/
def column (head : OpHead) (a b c : σ) (t : TypeId) : Compile τ (Val σ) := fun s =>
  .ok (⟨false, (E.emit ⟨head, a, b, c⟩ s).1, t, .zero, scalarType t⟩, (E.emit ⟨head, a, b, c⟩ s).2)

def unary (head : OpHead) (a : σ) (t : TypeId) : Compile τ (Val σ) :=
  column E head a E.absent E.absent t

def asCol (v : Val σ) (who : String) : Compile τ (Val σ) :=
  if v.isScalar then throw (.invalidArgument ("expr: " ++ who ++ " needs a column operand"))
  else pure v

/-- A string operand. Some operations take bytes that need not be text. -/
def asStr (v : Val σ) (who : String) (binaryOk : Bool) : Compile τ (Val σ) := do
  let a ← asCol v who
  if a.type = .String || (binaryOk && a.type = .Binary) then pure a
  else throw (.invalidArgument ("expr: " ++ who ++ " needs a String" ++
    (if binaryOk then " or Binary" else "") ++ " column, got " ++ typeName a.type))

def cast (v : Val σ) (t : TypeId) : Compile τ (Val σ) :=
  unary E { opcode := .CAST, param := typeCode t } v.slot t

/-- Go on with an operand unless its type is unknown. -/
def known (v : Val σ) (go : Compile τ (Val σ)) : Compile τ (Val σ) :=
  if v.isUnknown then pure (.unknown E.absent) else go

def promoteFloat (v : Val σ) : Compile τ (Val σ) :=
  if v.isScalar then pure { v with scalar := v.scalar.toF64 }
  else if v.type ≠ .Float32 ∧ v.type ≠ .Float64 then cast E v .Float64
  else pure v

/-- A column that holds a literal in every row. -/
def broadcast (s : Scalar) (t : TypeId) : Compile τ (Val σ) :=
  column E { opcode := .CONST, param := typeCode t, scalar := s } E.absent E.absent E.absent t

def broadcastArm (v : Val σ) (t : TypeId) : Compile τ (Val σ) :=
  if v.isScalar then broadcast E v.scalar t else pure v

def castArm (v : Val σ) (t : TypeId) : Compile τ (Val σ) :=
  if !v.isScalar ∧ v.type ≠ t then cast E v t else pure v

def foldDouble (op : BinaryOp) (x y : Float) : Float :=
  match op with
  | .Add => x + y
  | .Sub => x - y
  | .Mul => x * y
  | .Div => x / y

def foldInt (op : BinaryOp) (x y : Int64) : Int64 :=
  match op with
  | .Add => x + y
  | .Sub => x - y
  | .Mul => x * y
  | .Div => if y ≠ 0 then x / y else 0

/-- Two literals are computed when the expression is compiled. -/
def fold (op : BinaryOp) (a b : Scalar) : Val σ :=
  if op = .Div ∨ a.kind = TAG_F64 ∨ b.kind = TAG_F64 then
    .literal E.absent (.f64 (foldDouble op a.toDouble b.toDouble)) (scalarType .Float64)
  else .literal E.absent (.i64 (foldInt op a.value.toInt64 b.value.toInt64)) (scalarType .Int64)

/-- The operands of an arithmetic operation and the type of its result. -/
def promote (op : BinaryOp) (a b : Val σ) : Compile τ (Val σ × Val σ × TypeId) :=
  if op = .Div ∨ a.isFloat ∨ b.isFloat then do
    let a ← promoteFloat E a
    let b ← promoteFloat E b
    pure (a, b, .Float64)
  else if !a.isScalar ∧ !b.isScalar ∧ a.type ≠ b.type then do
    let a ← cast E a .Int64
    let b ← cast E b .Int64
    pure (a, b, .Int64)
  else pure (a, b, if a.isScalar then b.type else a.type)

/-- An arithmetic operation on promoted operands. A literal may come first where the operation
commutes. -/
def arithmetic (op : BinaryOp) (a b : Val σ) (t : TypeId) : Compile τ (Val σ) :=
  if !a.isScalar ∧ !b.isScalar then column E { opcode := colOp op } a.slot b.slot E.absent t
  else if !a.isScalar then unary E { opcode := scalarOp op, scalar := b.scalar } a.slot t
  else if op = .Add ∨ op = .Mul then unary E { opcode := scalarOp op, scalar := a.scalar } b.slot t
  else throw (.invalidArgument "expr: scalar - / column has no kernel")

def compileBinary (i : Int) (a b : Val σ) : Compile τ (Val σ) :=
  match entry binaryOps i with
  | none => throw .undefined
  | some op =>
    known E a (known E b (if a.isScalar ∧ b.isScalar then pure (fold E op a.scalar b.scalar)
      else do
        let (a, b, t) ← promote E op a b
        arithmetic E op a b t))

/-- The arms of a choice in a common type. -/
def arms (a b : Val σ) : Compile τ (Val σ × Val σ) :=
  if a.isScalar ∧ b.isScalar then
    if a.scalar.kind = TAG_F64 ∨ b.scalar.kind = TAG_F64 then do
      let a ← broadcast E a.scalar.toF64 .Float64
      let b ← broadcast E b.scalar.toF64 .Float64
      pure (a, b)
    else do
      let a ← broadcast E a.scalar .Int64
      let b ← broadcast E b.scalar .Int64
      pure (a, b)
  else if (!a.isScalar ∧ a.type = .String) ∨ (!b.isScalar ∧ b.type = .String) then
    if a.isScalar ∨ b.isScalar ∨ a.type ≠ b.type then
      throw (.invalidArgument "expr: select needs two String columns for a String arm")
    else pure (a, b)
  else if a.isFloat ∨ b.isFloat then do
    let a ← promoteFloat E a
    let b ← promoteFloat E b
    let a ← broadcastArm E a .Float64
    let b ← broadcastArm E b .Float64
    pure (a, b)
  else do
    let t := if a.isScalar then b.type else if b.isScalar then a.type
      else if a.type = b.type then a.type else .Int64
    let a ← castArm E a t
    let b ← castArm E b t
    let a ← broadcastArm E a t
    let b ← broadcastArm E b t
    pure (a, b)

def compileSelect (c a b : Val σ) : Compile τ (Val σ) :=
  known E c (known E a (known E b (do
    let c ← asCol c "select"
    if c.type ≠ .Bool then
      throw (.invalidArgument ("expr: select needs a Bool condition, got " ++ typeName c.type))
    else do
      let (a, b) ← arms E a b
      column E { opcode := .SELECT } a.slot b.slot c.slot a.type)))

/-- The type of the result of a unary operation on a column of the type. -/
def unaryType (i : Int) (t : TypeId) : TypeId :=
  match entry unaryOps i with
  | some .IsNan | some .IsFinite | some .IsInfinite => .Bool
  | some .Log | some .Sqrt | some .Exp => .Float64
  | _ => t

def compilePrim (i : Int) (v : Val σ) : Compile τ (Val σ) :=
  known E v (do
    let a ← asCol v "prim"
    let a ← if a.type ≠ .Int64 ∧ a.type ≠ .Uint64 then cast E a .Int64 else pure a
    unary E { opcode := .PRIM, param := i } a.slot .Int64)

/-- An operation on one column, whatever its type is. -/
def onColumn (who : String) (head : OpHead) (result : TypeId → TypeId) (v : Val σ) :
    Compile τ (Val σ) :=
  known E v (do
    let a ← asCol v who
    unary E head a.slot (result a.type))

/-- An operation on one column of strings. -/
def onStrings (who : String) (binaryOk : Bool) (head : OpHead) (result : TypeId) (v : Val σ) :
    Compile τ (Val σ) :=
  known E v (do
    let a ← asStr v who binaryOk
    unary E head a.slot result)

def compileIsIn (valuesType : Nat → TypeId) (values : Option Nat) (v : Val σ) :
    Compile τ (Val σ) :=
  known E v (do
    let a ← asCol v "is_in"
    match values with
    | none => throw (.invalidArgument "expr: is_in needs a values column")
    | some address =>
      if valueDomain a.type ≠ valueDomain (valuesType address) then
        throw (.invalidArgument ("expr: is_in over a " ++ typeName a.type ++ " column needs " ++
          typeName a.type ++ " values, got " ++ typeName (valuesType address)))
      else unary E { opcode := .IS_IN, values := some address } a.slot .Bool)

def compileLogical (i : Int) (a b : Val σ) : Compile τ (Val σ) :=
  known E a (known E b (do
    let a ← asCol a "logical"
    let b ← asCol b "logical"
    column E { opcode := .LOGICAL, param := i } a.slot b.slot E.absent .Bool))

def compileCol (types : List (Option DataType)) (i : Int) : Compile τ (Val σ) :=
  match entry types i with
  | none => throw (.invalidArgument "expr: column index out of range")
  | some none => pure (.unknown E.absent)
  | some (some dt) => fun s =>
    let op : SlotOp σ := ⟨{ opcode := .LOAD, param := i }, E.absent, E.absent, E.absent⟩
    .ok (⟨false, (E.emit op s).1, dt.id, .zero, some dt⟩, (E.emit op s).2)

variable (types : List (Option DataType)) (valuesType : Nat → TypeId)

/-- A node, when its operands are compiled. -/
def compile : ExprNode → Compile τ (Val σ)
  | .null => throw .undefined
  | .node n a b c =>
    match n.kind with
    | .LitI64 | .LitF64 => pure (.literal E.absent n.scalar (scalarType .Int64))
    | .Col => compileCol E types n.i
    | .Binary => do
        let a ← compile a
        let b ← compile b
        compileBinary E n.i a b
    | .Prim => do
        let a ← compile a
        compilePrim E n.i a
    | .Unary => do
        let a ← compile a
        onColumn E "unary" { opcode := .UNARY, param := n.i } (unaryType n.i) a
    | .Clip => do
        let a ← compile a
        onColumn E "clip" { opcode := .CLIP, scalar := n.scalar, scalar2 := n.scalar2 } id a
    | .Fillna => do
        let a ← compile a
        onColumn E "fillna" { opcode := .FILLNA, scalar := n.scalar } id a
    | .Cmp => do
        let a ← compile a
        onColumn E "compare" { opcode := .CMP, param := n.i, scalar := n.scalar }
          (fun _ => .Bool) a
    | .Logical => do
        let a ← compile a
        let b ← compile b
        compileLogical E n.i a b
    | .Not => do
        let a ← compile a
        onColumn E "not" { opcode := .NOT } (fun _ => .Bool) a
    | .Cast => do
        let a ← compile a
        let a ← asCol a "cast"
        cast E a (typeOfCode n.i)
    | .StrPred => do
        let a ← compile a
        onStrings E "string predicate" true { opcode := .STR_PRED, param := n.i, text := n.text }
          .Bool a
    | .StrMap => do
        let a ← compile a
        onStrings E "string map" false { opcode := .STR_MAP, param := n.i } .String a
    | .StrLen => do
        let a ← compile a
        onStrings E "string length" true { opcode := .STR_LEN, param := n.i } .Int64 a
    | .StrFind => do
        let a ← compile a
        onStrings E "string find" true { opcode := .STR_FIND, text := n.text } .Int64 a
    | .StrReplace => do
        let a ← compile a
        onStrings E "string replace" false
          { opcode := .STR_REPLACE, param := n.i, text := n.text, text2 := n.text2 } .String a
    | .StrSlice => do
        let a ← compile a
        onStrings E "string slice" false
          { opcode := .STR_SLICE, scalar := n.scalar, scalar2 := n.scalar2 } .String a
    | .IsIn => do
        let a ← compile a
        compileIsIn E valuesType n.values a
    | .Select => do
        let a ← compile a
        let b ← compile b
        let c ← compile c
        compileSelect E a b c
    | .IsNull => do
        let a ← compile a
        onColumn E "is_null" { opcode := .IS_NULL, param := n.i } (fun _ => .Bool) a

end Compiler

/-- The key that operations with one slot have in common. -/
structure Key where
  opcode : Opcode
  a : Slot
  b : Slot
  c : Slot
  param : Int
  kind : Int
  bits : UInt64
  bits2 : UInt64
  len : UInt32
  len2 : UInt32
  text : Bytes
  text2 : Bytes
  values : Option Nat
  deriving DecidableEq

def key (op : SlotOp Slot) : Key where
  opcode := op.head.opcode
  a := op.a
  b := op.b
  c := op.c
  param := op.head.param
  kind := op.head.scalar.kind
  bits := op.head.scalar.value
  bits2 := op.head.scalar2.value
  len := op.head.scalar.len
  len2 := op.head.scalar2.len
  text := op.head.text
  text2 := op.head.text2
  values := op.head.values

/-- The compiler's program, and its slots by key. -/
abbrev Program := Shared OpHead Key

/-- `emit_op`. -/
def sharing : Emitter Slot Program where
  absent := none
  emit := Shared.emit key

/-- Every operation on its own. -/
def unshared : Emitter (Term OpHead) Unit where
  absent := .absent
  emit op s := (.op op.head op.a op.b op.c, s)

end DFTracer.Expr
