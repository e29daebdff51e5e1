/-
# Expressions that answer alike

Two expressions are compiled side by side. When they differ in nothing but where their texts and
their sets of values lie, and the sets have the same values, the terms they are compiled to have
the same values on every range of rows, and so have the expressions.
-/

import DFTracer.Expr.Canonical
import DFTracer.Expr.SharingExact

namespace DFTracer.Expr

open Frames (Bytes TypeId DataType ValueDomain typeCode typeOfCode valueDomain narrowVarwidthType)
open Math.Sharing
open Compiler

/-- A double that is among the values of a set. -/
def findsDouble (values : Column) (x : Float) : Bool :=
  valueDomain values.type.id = .Numeric &&
    values.cells.any fun cell => cell.any fun bytes => readF64 values.type bytes == x

/-- Bytes that are among the values of a set, for a column of the type. -/
def findsBytes (t : DataType) (values : Column) (bytes : Bytes) : Bool :=
  (valueDomain values.type.id = .Bytes && (narrowVarwidthType t.id = .String ||
    narrowVarwidthType t.id = .Binary || values.type = t)) && values.cells.contains (some bytes)

theorem bool_known : TypeId.Bool ≠ .Unknown := by decide

/-- `is_in_impl`. -/
def isIn (v values : Column) : Option Column :=
  if valueDomain v.type.id = .None then none
  else
    let hit (cell : Option Bytes) : Bool :=
      cell.any fun bytes =>
        if valueDomain v.type.id = .Bytes then findsBytes v.type values bytes
        else findsDouble values (readF64 v.type bytes)
    some (Column.mk (.scalar .Bool bool_known)
      (v.cells.map fun cell => some [if hit cell then 1 else 0]))

/-- Two sets in which the same values are found. -/
structure FindAlike (values values' : Column) : Prop where
  double : ∀ x, findsDouble values x = findsDouble values' x
  bytes : ∀ t bytes, findsBytes t values bytes = findsBytes t values' bytes

theorem isIn_alike {values values' : Column} (alike : FindAlike values values') (v : Column) :
    isIn v values = isIn v values' := by
  unfold isIn
  simp only [alike.double, alike.bytes]

/-- The sets of values at one place of two expressions have the same values. -/
def SetsAgree (m : Memory) : ExprNode → ExprNode → Prop
  | .node n a b c, .node n' a' b' c' =>
    (n.kind = .IsIn → ∀ address ∈ n.values, ∀ address' ∈ n'.values,
      FindAlike (m.column address) (m.column address')) ∧
    SetsAgree m a a' ∧ SetsAgree m b b' ∧ SetsAgree m c c'
  | _, _ => True

/-- Where a number is needed, no literal is a text. -/
def ExprNode.Numeric : ExprNode → Prop
  | .null => True
  | .node n a b c =>
    (n.kind = .Clip → n.scalar.kind ≠ TAG_STR ∧ n.scalar2.kind ≠ TAG_STR) ∧
    (n.kind = .Fillna → n.scalar.kind ≠ TAG_STR) ∧
    a.Numeric ∧ b.Numeric ∧ c.Numeric

theorem scalar_of_literal {m : Memory} {s t : Scalar} (same : m.literal s = m.literal t)
    (numeric : s.kind ≠ TAG_STR) : s = t := by
  unfold Memory.literal at same
  rw [if_neg numeric] at same
  split_ifs at same with text
  injection same with kind value
  exact Scalar.ext kind ((s.sized numeric).trans (t.sized text).symm) value

/-- The kernels, with the membership kernel of the code. -/
def Kernels.real (K : Kernels) : Kernels := { K with isIn := DFTracer.Expr.isIn }

section Twins

variable (K : Kernels) (m : Memory) (inputs : List Column)

/-- Terms with the same values on every range of rows. -/
def SameValues (t u : Term OpHead) : Prop :=
  ∀ offset len, t.operand (apply K m inputs offset len) = u.operand (apply K m inputs offset len)

/-- Operations with the same results. -/
def SameResults (head head' : OpHead) : Prop :=
  ∀ offset len a b c,
    apply K m inputs offset len head a b c = apply K m inputs offset len head' a b c

structure Twin (v w : Val (Term OpHead)) : Prop where
  isScalar : v.isScalar = w.isScalar
  type : v.type = w.type
  scalar : v.scalar = w.scalar
  full : v.full = w.full
  slot : SameValues K m inputs v.slot w.slot

/-- Two steps that fail alike or give results that are related. -/
def Pair {α : Type} (R : α → α → Prop) (x y : Compile Unit α) : Prop :=
  (∃ e, x () = .error e ∧ y () = .error e) ∨
    ∃ v w, x () = .ok (v, ()) ∧ y () = .ok (w, ()) ∧ R v w

end Twins

variable {K : Kernels} {m : Memory} {inputs : List Column}

theorem SameResults.rfl {head : OpHead} : SameResults K m inputs head head :=
  fun _ _ _ _ _ => Eq.refl _

theorem SameValues.op {head head' : OpHead} {x x' y y' z z' : Term OpHead}
    (results : SameResults K m inputs head head') (first : SameValues K m inputs x x')
    (second : SameValues K m inputs y y') (third : SameValues K m inputs z z') :
    SameValues K m inputs (.op head x y z) (.op head' x' y' z') := by
  intro offset len
  unfold Term.operand
  rw [first offset len, second offset len, third offset len]
  simp only [results offset len]

theorem SameValues.absent : SameValues K m inputs .absent .absent := fun _ _ => rfl

namespace Pair

variable {α β : Type} {R : α → α → Prop} {R' : β → β → Prop}

theorem pure {v w : α} (related : R v w) : Pair R (Pure.pure v) (Pure.pure w) :=
  .inr ⟨v, w, rfl, rfl, related⟩

theorem throw (e : EvalError) : Pair R (MonadExcept.throw e) (MonadExcept.throw e) :=
  .inl ⟨e, rfl, rfl⟩

theorem bind {x y : Compile Unit α} {f g : α → Compile Unit β} (first : Pair R x y)
    (next : ∀ v w, R v w → Pair R' (f v) (g w)) : Pair R' (x >>= f) (y >>= g) := by
  rcases first with ⟨e, left, right⟩ | ⟨v, w, left, right, related⟩
  · refine .inl ⟨e, ?_, ?_⟩
    · change (x () >>= fun r => f r.1 r.2) = _
      rw [left]
      rfl
    · change (y () >>= fun r => g r.1 r.2) = _
      rw [right]
      rfl
  · have unfoldLeft : (x >>= f) () = f v () := by
      change (x () >>= fun r => f r.1 r.2) = _
      rw [left]
      rfl
    have unfoldRight : (y >>= g) () = g w () := by
      change (y () >>= fun r => g r.1 r.2) = _
      rw [right]
      rfl
    unfold Pair
    rw [unfoldLeft, unfoldRight]
    exact next v w related

end Pair

/-! ## The pieces of the compiler -/

section Pieces

variable {v w v' w' : Val (Term OpHead)}

variable {head' head : OpHead}

section

variable (t : TypeId) (results : SameResults K m inputs head head')

include t results

theorem column_twin {x x' y y' z z' : Term OpHead} (first : SameValues K m inputs x x')
    (second : SameValues K m inputs y y') (third : SameValues K m inputs z z') :
    Pair (Twin K m inputs) (column unshared head x y z t) (column unshared head' x' y' z' t) :=
  .inr ⟨_, _, rfl, rfl, ⟨rfl, rfl, rfl, rfl, .op results first second third⟩⟩

theorem unary_twin (twin : Twin K m inputs v w) :
    Pair (Twin K m inputs) (unary unshared head v.slot t) (unary unshared head' w.slot t) :=
  column_twin t results twin.slot .absent .absent

end

theorem known_twin (twin : Twin K m inputs v w) {go go' : Compile Unit (Val (Term OpHead))}
    (pair : Pair (Twin K m inputs) go go') :
    Pair (Twin K m inputs) (known unshared v go) (known unshared w go') := by
  unfold known Val.isUnknown
  rw [twin.full]
  split_ifs
  · exact .pure ⟨rfl, rfl, rfl, rfl, .absent⟩
  · exact pair

theorem asCol_twin (who : String) (twin : Twin K m inputs v w) :
    Pair (Twin K m inputs) (asCol v who) (asCol w who) := by
  unfold asCol
  rw [twin.isScalar]
  split_ifs
  · exact .throw _
  · exact .pure twin

theorem asStr_twin (who : String) (binaryOk : Bool) (twin : Twin K m inputs v w) :
    Pair (Twin K m inputs) (asStr v who binaryOk) (asStr w who binaryOk) := by
  refine (asCol_twin who twin).bind fun v w twin => ?_
  rw [twin.type]
  split
  · exact .pure twin
  · exact .throw _

theorem cast_twin (t : TypeId) (twin : Twin K m inputs v w) :
    Pair (Twin K m inputs) (cast unshared v t) (cast unshared w t) :=
  unary_twin t .rfl twin

theorem onColumn_twin (who : String) (result : TypeId → TypeId)
    (results : SameResults K m inputs head head') (twin : Twin K m inputs v w) :
    Pair (Twin K m inputs) (onColumn unshared who head result v)
      (onColumn unshared who head' result w) := by
  refine known_twin twin ((asCol_twin who twin).bind fun v w twin => ?_)
  rw [twin.type]
  exact unary_twin _ results twin

theorem onStrings_twin (who : String) (binaryOk : Bool) (result : TypeId)
    (results : SameResults K m inputs head head') (twin : Twin K m inputs v w) :
    Pair (Twin K m inputs) (onStrings unshared who binaryOk head result v)
      (onStrings unshared who binaryOk head' result w) :=
  known_twin twin ((asStr_twin who binaryOk twin).bind fun _ _ twin =>
    unary_twin _ results twin)

theorem compilePrim_twin (i : Int) (twin : Twin K m inputs v w) :
    Pair (Twin K m inputs) (compilePrim unshared i v) (compilePrim unshared i w) := by
  refine known_twin twin ((asCol_twin _ twin).bind fun v w twin => ?_)
  rw [twin.type]
  split_ifs
  · exact (cast_twin _ twin).bind fun _ _ twin => unary_twin _ .rfl twin
  · exact unary_twin _ .rfl twin

theorem compileLogical_twin (i : Int) (left : Twin K m inputs v w)
    (right : Twin K m inputs v' w') :
    Pair (Twin K m inputs) (compileLogical unshared i v v') (compileLogical unshared i w w') :=
  known_twin left (known_twin right ((asCol_twin _ left).bind fun _ _ left =>
    (asCol_twin _ right).bind fun _ _ right =>
      column_twin _ .rfl left.slot right.slot .absent))

theorem promoteFloat_twin (twin : Twin K m inputs v w) :
    Pair (Twin K m inputs) (promoteFloat unshared v) (promoteFloat unshared w) := by
  unfold promoteFloat
  rw [twin.isScalar, twin.type]
  split_ifs
  · exact .pure ⟨rfl, rfl, congrArg Scalar.toF64 twin.scalar, twin.full, twin.slot⟩
  · exact cast_twin _ twin
  · exact .pure twin

theorem broadcast_twin (lit : Scalar) (t : TypeId) :
    Pair (Twin K m inputs) (broadcast unshared lit t) (broadcast unshared lit t) :=
  column_twin t .rfl .absent .absent .absent

theorem broadcastArm_twin (t : TypeId) (twin : Twin K m inputs v w) :
    Pair (Twin K m inputs) (broadcastArm unshared v t) (broadcastArm unshared w t) := by
  unfold broadcastArm
  rw [twin.isScalar, twin.scalar]
  split_ifs
  · exact broadcast_twin _ _
  · exact .pure twin

theorem castArm_twin (t : TypeId) (twin : Twin K m inputs v w) :
    Pair (Twin K m inputs) (castArm unshared v t) (castArm unshared w t) := by
  unfold castArm
  rw [twin.isScalar, twin.type]
  split_ifs
  · exact cast_twin _ twin
  · exact .pure twin

theorem Twin.isFloat (twin : Twin K m inputs v w) : v.isFloat = w.isFloat := by
  unfold Val.isFloat
  rw [twin.isScalar, twin.scalar, twin.type]

/-- The operands of an arithmetic operation. -/
theorem promote_twin (op : BinaryOp) (left : Twin K m inputs v w)
    (right : Twin K m inputs v' w') :
    Pair (fun x y => Twin K m inputs x.1 y.1 ∧ Twin K m inputs x.2.1 y.2.1 ∧ x.2.2 = y.2.2)
      (promote unshared op v v') (promote unshared op w w') := by
  unfold promote
  rw [left.isFloat, right.isFloat, left.isScalar, left.type, right.isScalar, right.type]
  split_ifs
  · exact (promoteFloat_twin left).bind fun _ _ left => (promoteFloat_twin right).bind
      fun _ _ right => .pure ⟨left, right, rfl⟩
  · exact (cast_twin _ left).bind fun _ _ left => (cast_twin _ right).bind
      fun _ _ right => .pure ⟨left, right, rfl⟩
  · exact .pure ⟨left, right, rfl⟩
  · exact .pure ⟨left, right, rfl⟩

theorem arithmetic_twin (op : BinaryOp) (t : TypeId) (left : Twin K m inputs v w)
    (right : Twin K m inputs v' w') :
    Pair (Twin K m inputs) (arithmetic unshared op v v' t) (arithmetic unshared op w w' t) := by
  unfold arithmetic
  rw [left.isScalar, right.isScalar, left.scalar, right.scalar]
  split_ifs
  · exact column_twin t .rfl left.slot right.slot .absent
  · exact unary_twin t .rfl left
  · exact unary_twin t .rfl right
  · exact .throw _

theorem compileBinary_twin (i : Int) (left : Twin K m inputs v w)
    (right : Twin K m inputs v' w') :
    Pair (Twin K m inputs) (compileBinary unshared i v v') (compileBinary unshared i w w') := by
  unfold compileBinary
  cases entry binaryOps i with
  | none => exact .throw _
  | some op =>
    refine known_twin left (known_twin right ?_)
    rw [left.isScalar, right.isScalar, left.scalar, right.scalar]
    split_ifs
    · refine .pure ?_
      unfold fold
      split_ifs <;> exact ⟨rfl, rfl, rfl, rfl, .absent⟩
    · refine (promote_twin op left right).bind ?_
      rintro ⟨a, b, t⟩ ⟨a', b', t'⟩ ⟨left, right, rfl⟩
      exact arithmetic_twin op t left right

/-- The arms of a choice. -/
theorem arms_twin (left : Twin K m inputs v w) (right : Twin K m inputs v' w') :
    Pair (fun x y => Twin K m inputs x.1 y.1 ∧ Twin K m inputs x.2 y.2) (arms unshared v v')
      (arms unshared w w') := by
  unfold arms
  rw [left.isFloat, right.isFloat, left.isScalar, left.type, left.scalar, right.isScalar,
    right.type, right.scalar]
  split_ifs
  · exact (broadcast_twin _ _).bind fun _ _ left => (broadcast_twin _ _).bind
      fun _ _ right => .pure ⟨left, right⟩
  · exact (broadcast_twin _ _).bind fun _ _ left => (broadcast_twin _ _).bind
      fun _ _ right => .pure ⟨left, right⟩
  · exact .throw _
  · exact .pure ⟨left, right⟩
  · exact (promoteFloat_twin left).bind fun _ _ left => (promoteFloat_twin right).bind
      fun _ _ right => (broadcastArm_twin _ left).bind fun _ _ left =>
        (broadcastArm_twin _ right).bind fun _ _ right => .pure ⟨left, right⟩
  all_goals
    exact (castArm_twin _ left).bind fun _ _ left => (castArm_twin _ right).bind
      fun _ _ right => (broadcastArm_twin _ left).bind fun _ _ left =>
        (broadcastArm_twin _ right).bind fun _ _ right => .pure ⟨left, right⟩

theorem compileSelect_twin {v'' w'' : Val (Term OpHead)} (cond : Twin K m inputs v w)
    (left : Twin K m inputs v' w') (right : Twin K m inputs v'' w'') :
    Pair (Twin K m inputs) (compileSelect unshared v v' v'')
      (compileSelect unshared w w' w'') := by
  refine known_twin cond (known_twin left (known_twin right
    ((asCol_twin _ cond).bind fun c c' cond => ?_)))
  rw [cond.type]
  split_ifs
  · exact .throw _
  · refine (arms_twin left right).bind ?_
    rintro ⟨a, b⟩ ⟨a', b'⟩ ⟨left, right⟩
    dsimp only
    rw [left.type]
    exact column_twin _ .rfl left.slot right.slot cond.slot

theorem compileCol_twin (types : List (Option DataType)) (i : Int) :
    Pair (Twin K m inputs) (compileCol unshared types i) (compileCol unshared types i) := by
  unfold compileCol
  rcases entry types i with _ | _ | dt
  · exact .throw _
  · exact .pure ⟨rfl, rfl, rfl, rfl, .absent⟩
  · exact .inr ⟨_, _, rfl, rfl, ⟨rfl, rfl, rfl, rfl, fun _ _ => rfl⟩⟩

end Pieces

section Expressions

variable {slots : Nat → Nat → Bytes}

theorem compileIsIn_twin {values values' : Option Nat} {v w : Val (Term OpHead)}
    (texts : valuesText m slots values = valuesText m slots values')
    (agree : ∀ address ∈ values, ∀ address' ∈ values',
      FindAlike (m.column address) (m.column address'))
    (twin : Twin K.real m inputs v w) :
    Pair (Twin K.real m inputs) (compileIsIn unshared (valuesType m) values v)
      (compileIsIn unshared (valuesType m) values' w) := by
  refine known_twin twin ((asCol_twin _ twin).bind fun v w twin => ?_)
  rcases values with _ | address <;> rcases values' with _ | address'
  · exact .throw _
  · cases texts
  · cases texts
  · have types : valuesType m address = valuesType m address' :=
      congrArg Prod.fst (Option.some.inj texts)
    dsimp only
    rw [twin.type, types]
    split
    · exact .throw _
    · refine unary_twin _ (fun offset len a b c => ?_) twin
      refine congrArg (Option.bind a) (funext fun column => ?_)
      exact isIn_alike (agree address rfl address' rfl) column

/-- Expressions with one text whose sets agree are compiled to terms with the same values. -/
theorem compile_twin (types : List (Option DataType)) {e e' : ExprNode}
    (alike : e.Alike m slots e') (agree : SetsAgree m e e') (numeric : e.Numeric) :
    Pair (Twin K.real m inputs) (compile unshared types (valuesType m) e)
      (compile unshared types (valuesType m) e') := by
  induction alike with
  | null => exact .throw _
  | @node n n' a a' b b' c c' data _ _ _ ih_a ih_b ih_c =>
    obtain ⟨sets, agree_a, agree_b, agree_c⟩ := agree
    obtain ⟨clip, fill, numeric_a, numeric_b, numeric_c⟩ := numeric
    have first := ih_a agree_a numeric_a
    have second := ih_b agree_b numeric_b
    have third := ih_c agree_c numeric_c
    unfold compile
    rw [← data.kind, ← data.i, ← data.text, ← data.text2]
    cases kind : n.kind with
    | LitI64 =>
      have same := scalar_of_literal data.scalar (by rw [n.integer kind]; decide)
      exact .pure ⟨rfl, rfl, same, rfl, .absent⟩
    | LitF64 =>
      have same := scalar_of_literal data.scalar (by rw [n.double kind]; decide)
      exact .pure ⟨rfl, rfl, same, rfl, .absent⟩
    | Col => exact compileCol_twin types n.i
    | Binary =>
      exact first.bind fun _ _ left => second.bind fun _ _ right =>
        compileBinary_twin n.i left right
    | Prim => exact first.bind fun _ _ twin => compilePrim_twin n.i twin
    | Clip =>
      have lo := scalar_of_literal data.scalar (clip kind).1
      have hi := scalar_of_literal data.scalar2 (clip kind).2
      rw [lo, hi]
      exact first.bind fun _ _ twin => onColumn_twin _ _ .rfl twin
    | Fillna =>
      rw [scalar_of_literal data.scalar (fill kind)]
      exact first.bind fun _ _ twin => onColumn_twin _ _ .rfl twin
    | Cmp =>
      refine first.bind fun _ _ twin => onColumn_twin _ _ (fun offset len a b c => ?_) twin
      change (a.bind fun a => K.compare a n.i (m.literal n.scalar)) =
        a.bind fun a => K.compare a n.i (m.literal n'.scalar)
      rw [data.scalar]
    | Unary | Not | IsNull => exact first.bind fun _ _ twin => onColumn_twin _ _ .rfl twin
    | Logical =>
      exact first.bind fun _ _ left => second.bind fun _ _ right =>
        compileLogical_twin n.i left right
    | Cast =>
      exact first.bind fun _ _ twin => (asCol_twin _ twin).bind fun _ _ twin =>
        cast_twin _ twin
    | StrPred | StrMap | StrLen | StrFind | StrReplace =>
      exact first.bind fun _ _ twin => onStrings_twin _ _ _ .rfl twin
    | StrSlice =>
      have ints := n.slice kind
      have start := scalar_of_literal data.scalar (by rw [ints.1]; decide)
      have length := scalar_of_literal data.scalar2 (by rw [ints.2]; decide)
      rw [start, length]
      exact first.bind fun _ _ twin => onStrings_twin _ _ _ .rfl twin
    | IsIn =>
      exact first.bind fun _ _ twin => compileIsIn_twin data.values (sets kind) twin
    | Select =>
      exact first.bind fun _ _ cond => second.bind fun _ _ left => third.bind
        fun _ _ right => compileSelect_twin cond left right

end Expressions

end DFTracer.Expr
