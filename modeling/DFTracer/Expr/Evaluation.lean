/-
# Evaluating expressions

A program runs on a range of rows: it loads the rows of its input columns and applies one kernel
after the other. Many rows are cut into ranges, and the columns of the ranges are put together.
Expressions that are all bare columns are not evaluated at all.
-/

import DFTracer.Expr.Compiler

namespace DFTracer.Expr

open Frames (Bytes TypeId DataType typeOfCode byteWidth narrowVarwidthType concatColumns)
open Math.Sharing

/-- The kernels. A kernel that does not take its input gives nothing. -/
structure Kernels where
  arith : BinaryOp → Column → Column → Option Column
  arithScalar : BinaryOp → Column → Scalar → Option Column
  prim : Int → Column → Option Column
  unary : UnaryOp → Column → Option Column
  clip : Column → Scalar → Scalar → Option Column
  fillna : Column → Scalar → Option Column
  compare : Column → Int → Literal → Option Column
  logical : Column → Column → Int → Option Column
  logicalNot : Column → Option Column
  cast : Column → TypeId → Option Column
  strPred : StrPredOp → Column → Bytes → Option Column
  strMap : StrMapOp → Column → Option Column
  strLenChars : Column → Option Column
  strLenBytes : Column → Option Column
  strFind : Column → Bytes → Option Column
  strReplaceAll : Column → Bytes → Bytes → Option Column
  strReplace : Column → Bytes → Bytes → Option Column
  strSlice : Column → Int64 → Int64 → Option Column
  isIn : Column → Column → Option Column
  nullMask : Column → Option Column
  validMask : Column → Option Column
  constColumn : TypeId → Scalar → Nat → Option Column
  choose : Column → Column → Column → Option Column

/-- Kernels that take no input. -/
def refusing : Kernels where
  arith _ _ _ := none
  arithScalar _ _ _ := none
  prim _ _ := none
  unary _ _ := none
  clip _ _ _ := none
  fillna _ _ := none
  compare _ _ _ := none
  logical _ _ _ := none
  logicalNot _ := none
  cast _ _ := none
  strPred _ _ _ := none
  strMap _ _ := none
  strLenChars _ := none
  strLenBytes _ := none
  strFind _ _ := none
  strReplaceAll _ _ _ := none
  strReplace _ _ _ := none
  strSlice _ _ _ := none
  isIn _ _ := none
  nullMask _ := none
  validMask _ := none
  constColumn _ _ _ := none
  choose _ _ _ := none

def GRAIN : Nat := 65536

/-- The types of which rows can be gathered one by one. -/
def gathers (t : TypeId) : Bool :=
  narrowVarwidthType t = .String || narrowVarwidthType t = .Binary || t = .Struct ||
    narrowVarwidthType t = .List

def Column.slice (c : Column) (offset len : Nat) : Column :=
  { c with cells := (c.cells.drop offset).take len }

/-- A range of rows. A column of one width is sliced, and the rows of another are gathered unless
they are all rows. -/
def loadSlice (c : Column) (offset len : Nat) : Option Column :=
  match byteWidth c.type.id c.type.fixedSize with
  | some width => if width = 0 then none else some (c.slice offset len)
  | none =>
    if 0 < len ∧ c.length < offset + len then none
    else if 0 < len ∧ offset = 0 ∧ len = c.length then some c
    else if gathers c.type.id then some (c.slice offset len)
    else none

/-- `concat_columns`. -/
def putTogether : List Column → Except EvalError Column
  | [] => .error .undefined
  | front :: rest =>
    match concatColumns front.type (rest.map Column.type) with
    | .ok type => .ok { type, cells := (front :: rest).flatMap Column.cells }
    | .error e => .error (.invalidArgument e.what)

section Run

variable (K : Kernels) (m : Memory) (inputs : List Column) (offset len : Nat)

/-- An operation on what its operands hold. -/
def apply (op : OpHead) (a b c : Option Column) : Option Column :=
  match op.opcode with
  | .LOAD => (entry inputs op.param).bind fun column => loadSlice column offset len
  | .ADD => a.bind fun a => b.bind fun b => K.arith .Add a b
  | .SUB => a.bind fun a => b.bind fun b => K.arith .Sub a b
  | .MUL => a.bind fun a => b.bind fun b => K.arith .Mul a b
  | .DIV => a.bind fun a => b.bind fun b => K.arith .Div a b
  | .ADDS => a.bind fun a => K.arithScalar .Add a op.scalar
  | .SUBS => a.bind fun a => K.arithScalar .Sub a op.scalar
  | .MULS => a.bind fun a => K.arithScalar .Mul a op.scalar
  | .DIVS => a.bind fun a => K.arithScalar .Div a op.scalar
  | .PRIM => a.bind fun a => K.prim op.param a
  | .UNARY => a.bind fun a => (entry unaryOps op.param).bind fun f => K.unary f a
  | .CLIP => a.bind fun a => K.clip a op.scalar op.scalar2
  | .FILLNA => a.bind fun a => K.fillna a op.scalar
  | .CMP => a.bind fun a => K.compare a op.param (m.literal op.scalar)
  | .LOGICAL => a.bind fun a => b.bind fun b => K.logical a b op.param
  | .NOT => a.bind fun a => K.logicalNot a
  | .CAST => a.bind fun a => K.cast a (typeOfCode op.param)
  | .STR_PRED => a.bind fun a => (entry strPredOps op.param).bind fun f => K.strPred f a op.text
  | .STR_MAP => a.bind fun a => (entry strMapOps op.param).bind fun f => K.strMap f a
  | .STR_LEN => a.bind fun a => if op.param ≠ 0 then K.strLenChars a else K.strLenBytes a
  | .STR_FIND => a.bind fun a => K.strFind a op.text
  | .STR_REPLACE =>
    a.bind fun a =>
      if op.param ≠ 0 then K.strReplaceAll a op.text op.text2
      else K.strReplace a op.text op.text2
  | .STR_SLICE =>
    a.bind fun a => K.strSlice a op.scalar.value.toInt64 op.scalar2.value.toInt64
  | .IS_IN => a.bind fun a => op.values.bind fun address => K.isIn a (m.column address)
  | .IS_NULL => a.bind fun a => if op.param ≠ 0 then K.nullMask a else K.validMask a
  | .CONST => K.constColumn (typeOfCode op.param) op.scalar len
  | .SELECT => c.bind fun c => a.bind fun a => b.bind fun b => K.choose c a b

/-- The columns of the final slots on a range of rows. -/
def evalChunk (program : List (SlotOp Slot)) (finals : List Slot) : Option (List Column) :=
  (run (apply K m inputs offset len) program).bind fun values => finals.mapM (read values)

end Run

/-- Where the ranges of rows run: in the calling thread, or in a pool that takes them one by
one. -/
inductive Backend
  | serial
  | pool
  deriving DecidableEq, Repr

/-- The ranges that rows are cut into, each with its first row and the row behind it. In the
calling thread all rows are one range. -/
def Backend.ranges (backend : Backend) (rows : Nat) : List (Nat × Nat) :=
  match backend with
  | .serial => [(0, rows)]
  | .pool =>
    (List.range ((rows + GRAIN - 1) / GRAIN)).map fun i =>
      (i * GRAIN, min rows ((i + 1) * GRAIN))

/-- What the ranges leave in their places. A place that no range has written holds nothing. -/
def parts {α : Type} (backend : Backend) (rows : Nat) (chunk : Nat → Nat → Option α) :
    List (Option α) :=
  (List.range ((rows + GRAIN - 1) / GRAIN)).map fun place =>
    ((backend.ranges rows).findRev? fun r => r.1 / GRAIN = place).bind fun r =>
      chunk r.1 (r.2 - r.1)

/-- `expr_col_index`, for an index that there is. -/
def bareColumn (inputs : List Column) : ExprNode → Option Column
  | .null => none
  | .node data _ _ _ => if data.kind = .Col then entry inputs data.i else none

def refused : EvalError := .invalidArgument "expr: an operation does not take its input column type"

def noColumn : EvalError := .invalidArgument "expr: a constant expression has no column"

section Eval

variable (K : Kernels) (m : Memory) (backend : Backend) (frame : Frame)

def inputTypes : List (Option DataType) := frame.columns.map fun c => some c.type

def valuesType (address : Nat) : TypeId := (m.column address).type.id

/-- The slots of the columns of expressions. -/
def compileRoots {σ τ : Type} (E : Emitter σ τ) :
    List ExprNode → StateT τ (Except EvalError) (List σ)
  | [] => pure []
  | root :: roots =>
    if root = .null then throw (.invalidArgument "expr: null expression")
    else do
      let out ← Compiler.compile E (inputTypes frame) (valuesType m) root
      if out.isScalar then throw noColumn
      else do
        let finals ← compileRoots E roots
        pure (out.slot :: finals)

/-- `require_evaluated`. -/
def required {α : Type} : Option α → Except EvalError α
  | some outs => .ok outs
  | none => .error refused

/-- The columns of expressions on all rows. -/
def evalRanges (finals : Nat) (chunk : Nat → Nat → Option (List Column)) :
    Except EvalError (List Column) :=
  if frame.rows ≤ GRAIN then required (chunk 0 frame.rows)
  else do
    let parts ← (parts backend frame.rows chunk).mapM required
    (List.range finals).mapM fun j => putTogether (parts.filterMap fun part => part[j]?)

def evalMany (roots : List ExprNode) : Except EvalError (List Column) :=
  if roots = [] then .error (.invalidArgument "expr: needs at least one expression")
  else if frame.columns = [] then
    .error (.invalidArgument "expr: needs at least one input column")
  else
    match roots.mapM (bareColumn frame.columns) with
    | some columns => .ok columns
    | none => do
        let (finals, compiled) ← (compileRoots m frame sharing roots).run {}
        evalRanges backend frame finals.length fun offset len =>
          evalChunk K m frame.columns offset len compiled.program finals

def eval (root : ExprNode) : Except EvalError Column :=
  match root with
  | .null => .error (.invalidArgument "expr: null expression")
  | root => do
      let outs ← evalMany K m backend frame [root]
      required outs.head?

end Eval

end DFTracer.Expr
