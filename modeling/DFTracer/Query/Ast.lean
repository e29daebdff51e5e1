/-
# The query language

The abstract syntax of a predicate over events, and its rendering back to the
query text. A field reference is never empty and a floating-point literal is
never NaN: the tokenizer produces neither, and the types here cannot build one.
-/

import DFTracer.Query.Json

namespace DFTracer.Query

open DFTracer.Math.Float64

/-- Comparison operators. -/
inductive CompareOp where
  | eq
  | ne
  | gt
  | lt
  | ge
  | le
deriving DecidableEq

/-- Pattern operators. The `i` variants ignore case; `icontains` is the
literal-first form `"sub" in field`. -/
inductive MatchOp where
  | like
  | ilike
  | regex
  | iregex
  | icontains
deriving DecidableEq

/-- A field reference: a dotted path into the event. -/
structure FieldNode where
  path : String
  nonempty : path ≠ ""
deriving DecidableEq

/-- A typed literal. -/
inductive Literal where
  | string (value : String)
  | int64 (value : Int64)
  | uint64 (value : UInt64)
  | double (value : Double)
  | bool (value : Bool)
deriving DecidableEq

/-- The syntax tree of a predicate. A pattern node stands for its compiled
matcher too: the parser compiles every pattern it accepts. -/
inductive QueryNode where
  | compare (field : FieldNode) (op : CompareOp) (value : Literal)
  | isIn (field : FieldNode) (values : List Literal)
  | notIn (field : FieldNode) (values : List Literal)
  | matches (field : FieldNode) (op : MatchOp) (pattern : String) (negated : Bool)
  | and (left right : QueryNode)
  | or (left right : QueryNode)
  | not (operand : QueryNode)
deriving DecidableEq

/-- `static_cast<double>` of a signed literal. -/
def int64Double (n : Int64) : Double :=
  .ofInt n.toInt (by
    have low := n.le_toInt
    have high := n.toInt_lt
    omega)

/-- `static_cast<double>` of an unsigned literal. -/
def uint64Double (n : UInt64) : Double :=
  .ofInt n.toNat (by
    have := n.toNat_lt
    omega)

namespace Literal

/-- The exact value of an integer literal. -/
def exactInt : Literal → Option Int
  | .int64 n => some n.toInt
  | .uint64 n => some n.toNat
  | _ => none

/-- `as_number`: a numeric literal as a double. -/
def asNumber : Literal → Option Double
  | .int64 n => some (int64Double n)
  | .uint64 n => some (uint64Double n)
  | .double d => some d
  | _ => none

/-- `literal_to_string`. -/
def toText : Literal → String
  | .string s => "\"" ++ s ++ "\""
  | .bool b => if b then "true" else "false"
  | .int64 n => toString n.toInt
  | .uint64 n => toString n.toNat
  | .double d => d.toGeneral6

end Literal

/-- `compare_op_str`. -/
def CompareOp.text : CompareOp → String
  | .eq => "=="
  | .ne => "!="
  | .gt => ">"
  | .lt => "<"
  | .ge => ">="
  | .le => "<="

/-- `match_op_str`. -/
def MatchOp.text (negated : Bool) : MatchOp → String
  | .like => if negated then "not like" else "like"
  | .ilike => if negated then "not ilike" else "ilike"
  | .regex => if negated then "!~" else "~"
  | .iregex => if negated then "!~*" else "~*"
  | .icontains => "??"

/-- `array_to_string`. -/
def arrayText (values : List Literal) : String :=
  "[" ++ ", ".intercalate (values.map Literal.toText) ++ "]"

/-- `to_string` of a syntax tree. -/
def QueryNode.toText : QueryNode → String
  | .compare field op value => field.path ++ " " ++ op.text ++ " " ++ value.toText
  | .isIn field values => field.path ++ " in " ++ arrayText values
  | .notIn field values => field.path ++ " not in " ++ arrayText values
  | .matches field op pattern negated =>
    if op = .icontains then
      "\"" ++ pattern ++ (if negated then "\" not in " else "\" in ") ++ field.path
    else field.path ++ " " ++ op.text negated ++ " \"" ++ pattern ++ "\""
  | .and left right => "(" ++ left.toText ++ " and " ++ right.toText ++ ")"
  | .or left right => "(" ++ left.toText ++ " or " ++ right.toText ++ ")"
  | .not operand => "not (" ++ operand.toText ++ ")"

end DFTracer.Query
