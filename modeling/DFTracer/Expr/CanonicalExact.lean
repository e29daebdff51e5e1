/-
# What the canonical text stands for

Two expressions with one text give the same column on every frame, unless a set of values in one
of them differs from its counterpart although the texts of the values are the same. Six decimals
do not tell two doubles apart, and a null is written as what lies in its slot.
-/

import DFTracer.Expr.Twins

namespace DFTracer.Expr

open Frames (Bytes TypeId DataType)
open Flame (put littleEndian)
open Compiler

section Faithful

variable {K : Kernels} {m : Memory} {slots : Nat → Nat → Bytes} {backend : Backend} {frame : Frame}

/-- No two clips of an expression clash. -/
def ClashFree (m : Memory) (frame : Frame) (e : ExprNode) : Prop :=
  ∀ p ∈ e.clips, ∀ q ∈ e.clips, ¬ Clash (inputTypes frame) (valuesType m) p q

/-- An expression is evaluated as it is on its own. -/
theorem eval_eq_alone {e : ExprNode} (free : ClashFree m frame e) :
    (eval K m backend frame e).toOption = (evalAlone K m backend frame e).toOption := by
  have shareable : Shareable m backend frame [e] := by
    refine ⟨List.cons_ne_nil _ _, ?_⟩
    cases bare : bareColumn frame.columns e with
    | some c =>
      left
      intro root mem
      obtain rfl := List.mem_singleton.mp mem
      rw [bare]
      rfl
    | none =>
      right
      constructor
      · intro root mem c column
        obtain rfl := List.mem_singleton.mp mem
        rw [bare] at column
        cases column
      · unfold clipsOf
        rwa [List.flatMap_singleton]
  have alone := invisible_of_shareable K m backend frame [e] shareable
  unfold Invisible at alone
  rw [Math.mapM_cons_some] at alone
  cases e with
  | null =>
    unfold eval evalAlone
    rw [if_pos rfl]
  | node n a b c =>
    have unfolded : (eval K m backend frame (.node n a b c)).toOption =
        (evalMany K m backend frame [.node n a b c]).toOption.bind List.head? := by
      unfold eval
      rw [Math.toOption_bind]
      refine congrArg (Option.bind _) (funext fun outs => ?_)
      exact toOption_required _
    rw [unfolded, alone]
    cases (evalAlone K m backend frame (.node n a b c)).toOption <;> rfl

/-- Compiled on their own, expressions with one text give the same column. -/
theorem evalAlone_alike {e e' : ExprNode} (alike : e.Alike m slots e') (agree : SetsAgree m e e')
    (numeric : e.Numeric) :
    evalAlone K.real m backend frame e = evalAlone K.real m backend frame e' := by
  have pair : Pair (Twin K.real m frame.columns) _ _ :=
    compile_twin (inputTypes frame) alike agree numeric
  have bare : bareColumn frame.columns e = bareColumn frame.columns e' := by
    cases alike with
    | null => rfl
    | node data =>
      change (if _ then _ else _) = if _ then _ else _
      rw [data.kind, data.i]
  have null : e = .null ↔ e' = .null := by
    cases alike with
    | null => exact Iff.rfl
    | node => exact ⟨nofun, nofun⟩
  unfold evalAlone lower
  rw [bare]
  simp only [null]
  split_ifs
  · rfl
  · rfl
  · cases bareColumn frame.columns e' with
    | some c => rfl
    | none =>
      rcases pair with ⟨err, left, right⟩ | ⟨v, w, left, right, twin⟩
      · change ((compile unshared (inputTypes frame) (valuesType m) e ()).map Prod.fst >>= _) =
          ((compile unshared (inputTypes frame) (valuesType m) e' ()).map Prod.fst >>= _)
        rw [left, right]
      · change ((compile unshared (inputTypes frame) (valuesType m) e ()).map Prod.fst >>= _) =
          ((compile unshared (inputTypes frame) (valuesType m) e' ()).map Prod.fst >>= _)
        rw [left, right]
        have values : (fun offset len =>
            v.slot.value (apply K.real m frame.columns offset len)) = fun offset len =>
            w.slot.value (apply K.real m frame.columns offset len) := by
          funext offset len
          exact congrArg Option.join (twin.slot offset len)
        change (if v.isScalar = true then _ else _) = if w.isScalar = true then _ else _
        rw [twin.isScalar, values]

end Faithful

/-- A set at each address: one double, whose bits are the address. -/
def doubleSets : Memory where
  text _ _ := []
  column address := { type := .scalar .Float64 double_known, cells := [some (put 8 address)] }

/-- 1.0000001 and 1.0000002. -/
def nearOne : Nat := 0x3FF000001AD7F29B

def nearOne' : Nat := 0x3FF0000035AFE535

def nearOneRow : Frame where
  columns := [{ type := .scalar .Float64 double_known, cells := [some (put 8 nearOne)] }]
  rows := 1
  rectangular := by decide

/-- The only column, looked up in a set. -/
def among (set : Nat) : ExprNode := (ExprNode.col 0).isIn set

/-- No slot holds anything. -/
def noSlots (_ _ : Nat) : Bytes := []

/-- The same set at two addresses. -/
def twoSets : Memory where
  text _ _ := []
  column _ := { type := .scalar .Float64 double_known, cells := [some (put 8 nearOne)] }

end DFTracer.Expr
