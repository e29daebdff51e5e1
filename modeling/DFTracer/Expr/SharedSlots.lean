/-
# Sharing slots

A compiled expression is compared with its term, which is what it is compiled to when nothing is
shared. As long as no two clips of one column have upper bounds that differ in nothing but their
tag, the slots of a program hold the terms of the expressions, and every operation of the program
is needed for one of them.
-/

import DFTracer.Expr.Evaluation

namespace DFTracer.Expr

open Frames (Bytes TypeId DataType typeCode typeOfCode)
open Math.Sharing List
open Compiler

/-- The clips of an expression, each with its operand. -/
def ExprNode.clips : ExprNode → List (NodeData × ExprNode)
  | .null => []
  | .node n a b c =>
    (if n.kind = .Clip then [(n, a)] else []) ++ (a.clips ++ (b.clips ++ c.clips))

/-- An expression as a term. -/
def lower (types : List (Option DataType)) (valuesType : Nat → TypeId) (n : ExprNode) :
    Except EvalError (Val (Term OpHead)) :=
  ((compile unshared types valuesType n).run ()).map Prod.fst

/-- Two clips of one column between bounds that differ in the tag of the upper bound alone. -/
structure Clash (types : List (Option DataType)) (valuesType : Nat → TypeId)
    (p q : NodeData × ExprNode) : Prop where
  operand : ∃ v w, lower types valuesType p.2 = .ok v ∧ lower types valuesType q.2 = .ok w ∧
    v.slot = w.slot
  lo : p.1.scalar = q.1.scalar
  bits : p.1.scalar2.value = q.1.scalar2.value
  len : p.1.scalar2.len = q.1.scalar2.len
  tag : p.1.scalar2.kind ≠ q.1.scalar2.kind

def clipHead (n : NodeData) : OpHead :=
  { opcode := .CLIP, scalar := n.scalar, scalar2 := n.scalar2 }

/-! ## Programs of terms -/

section Simulation

variable (types : List (Option DataType)) (valuesType : Nat → TypeId)
variable (clips : List (NodeData × ExprNode)) (step : OpHead → Option Column → Option Column →
  Option Column → Option Column)

/-- A clip of the expressions. -/
def Allowed (head : OpHead) (a : Term OpHead) : Prop :=
  ∃ p ∈ clips, ∃ v, lower types valuesType p.2 = .ok v ∧ head = clipHead p.1 ∧ a = v.slot

/-- A program that holds the clips of the expressions, and other operations with one literal at
most that has a tag. -/
structure Good (s : Program) : Prop where
  sound : s.Sound key
  clip : ∀ op ∈ s.program, op.head.opcode = .CLIP →
    Allowed types valuesType clips op.head (termOf (terms s.program) op.a)
  plain : ∀ op ∈ s.program, op.head.opcode ≠ .CLIP → op.head.scalar2.kind = TAG_I64

/-- A written slot and its term. -/
structure Holds (s : Program) (slot : Slot) (t : Term OpHead) : Prop where
  within : Within s.program.length slot
  term : termOf (terms s.program) slot = t

/-- A compiled subexpression and its term. -/
structure Shows (s : Program) (v : Val Slot) (w : Val (Term OpHead)) : Prop where
  isScalar : v.isScalar = w.isScalar
  type : v.type = w.type
  scalar : v.scalar = w.scalar
  full : v.full = w.full
  slot : Holds s v.slot w.slot

/-- A literal, or a column that has a value. -/
def Valued (w : Val (Term OpHead)) : Prop := w.isScalar = true ∨ w.slot.value step ≠ none

/-- Compiling into slots and into terms: both fail alike, or their results are related and the
program grows by operations that have values as soon as the result has one. Then `needs` holds
too. -/
def Sim {α β : Type} (R : Program → α → β → Prop) (valued : β → Prop) (s : Program)
    (x : Compile Program α) (y : Compile Unit β) (needs : Prop) : Prop :=
  (∃ e, x s = .error e ∧ y () = .error e) ∨
    ∃ v s' w, x s = .ok (v, s') ∧ y () = .ok (w, ()) ∧ Good types valuesType clips s' ∧
      s.program <+: s'.program ∧ R s' v w ∧
      (valued w → needs ∧
        ∀ t ∈ terms s'.program, t ∈ terms s.program ∨ t.value step ≠ none)

end Simulation

variable {types : List (Option DataType)} {valuesType : Nat → TypeId}
variable {clips : List (NodeData × ExprNode)} {step : OpHead → Option Column → Option Column →
  Option Column → Option Column}
variable {s : Program} {s' : Program} {v : Val Slot} {w : Val (Term OpHead)}

theorem Holds.none : Holds s none .absent where
  within := by
    intro k mem
    cases mem
  term := rfl

theorem Holds.grow {slot : Slot} {t : Term OpHead} (holds : Holds s slot t)
    (grows : s.program <+: s'.program) : Holds s' slot t where
  within := holds.within.mono grows.length_le
  term := (termOf_grows grows holds.within).trans holds.term

theorem Shows.grow (related : Shows s v w) (grows : s.program <+: s'.program) : Shows s' v w :=
  { related with slot := related.slot.grow grows }

theorem Shows.isFloat (related : Shows s v w) :
    v.isFloat = w.isFloat := by
  unfold Val.isFloat
  rw [related.isScalar, related.scalar, related.type]

namespace Sim

variable {α β γ δ : Type} {R : Program → α → β → Prop} {R' : Program → γ → δ → Prop}
variable {valued : β → Prop} {valued' : δ → Prop} {P Q : Prop}

theorem pure {v : α} {w : β} (good : Good types valuesType clips s) (related : R s v w)
    (needed : valued w → P) :
    Sim types valuesType clips step R valued s (Pure.pure v) (Pure.pure w) P :=
  .inr ⟨v, s, w, rfl, rfl, good, prefix_rfl, related,
    fun has => ⟨needed has, fun _ mem => .inl mem⟩⟩

theorem throw (e : EvalError) :
    Sim types valuesType clips step R valued s (MonadExcept.throw e) (MonadExcept.throw e) P :=
  .inl ⟨e, rfl, rfl⟩

theorem bind {x : Compile Program α} {y : Compile Unit β} {f : α → Compile Program γ}
    {g : β → Compile Unit δ} (first : Sim types valuesType clips step R valued s x y P)
    (next : ∀ v w s', y () = .ok (w, ()) → Good types valuesType clips s' →
      s.program <+: s'.program → R s' v w →
      Sim types valuesType clips step R' valued' s' (f v) (g w) (valued w ∧ Q)) :
    Sim types valuesType clips step R' valued' s (x >>= f) (y >>= g) (P ∧ Q) := by
  rcases first with ⟨e, left, right⟩ | ⟨v, s₁, w, left, right, good, grows, related, has⟩
  · refine .inl ⟨e, ?_, ?_⟩
    · change (x s >>= fun r => f r.1 r.2) = _
      rw [left]
      rfl
    · change (y () >>= fun r => g r.1 r.2) = _
      rw [right]
      rfl
  · have unfoldLeft : (x >>= f) s = f v s₁ := by
      change (x s >>= fun r => f r.1 r.2) = _
      rw [left]
      rfl
    have unfoldRight : (y >>= g) () = g w () := by
      change (y () >>= fun r => g r.1 r.2) = _
      rw [right]
      rfl
    rcases next v w s₁ right good grows related with
      ⟨e, left', right'⟩ | ⟨v', s₂, w', left', right', good', grows', related', has'⟩
    · exact .inl ⟨e, unfoldLeft.trans left', unfoldRight.trans right'⟩
    · refine .inr ⟨v', s₂, w', unfoldLeft.trans left', unfoldRight.trans right', good',
        grows.trans grows', related', fun some => ?_⟩
      obtain ⟨⟨before, also⟩, later⟩ := has' some
      obtain ⟨needed, earlier⟩ := has before
      refine ⟨⟨needed, also⟩, fun t mem => ?_⟩
      rcases later t mem with old | new
      · exact earlier t old
      · exact .inr new

theorem mono {x : Compile Program α} {y : Compile Unit β}
    (sim : Sim types valuesType clips step R valued s x y P) (weaker : P → Q) :
    Sim types valuesType clips step R valued s x y Q := by
  rcases sim with failed | ⟨v, s', w, left, right, good, grows, related, has⟩
  · exact .inl failed
  · exact .inr ⟨v, s', w, left, right, good, grows, related, fun some =>
      ⟨weaker (has some).1, (has some).2⟩⟩

/-- Two subexpressions one after the other. -/
theorem two {x x' : Compile Program (Val Slot)} {y y' : Compile Unit (Val (Term OpHead))}
    {f : Val Slot → Val Slot → Compile Program γ}
    {g : Val (Term OpHead) → Val (Term OpHead) → Compile Unit δ}
    (first : Sim types valuesType clips step Shows (Valued step) s x y P)
    (second : ∀ s', Good types valuesType clips s' → s.program <+: s'.program →
      Sim types valuesType clips step Shows (Valued step) s' x' y' Q)
    (next : ∀ a b t u s', Good types valuesType clips s' → Shows s' a t → Shows s' b u →
      Sim types valuesType clips step R' valued' s' (f a b) (g t u)
        (Valued step t ∧ Valued step u)) :
    Sim types valuesType clips step R' valued' s (x >>= fun a => x' >>= fun b => f a b)
      (y >>= fun t => y' >>= fun u => g t u) (P ∧ Q) := by
  refine first.bind ?_
  intro a t s₁ _ good₁ grows₁ left
  refine ((second s₁ good₁ grows₁).bind (Q := Valued step t) ?_).mono And.symm
  intro b u s₂ _ good₂ grows₂ right
  exact (next a b t u s₂ good₂ (left.grow grows₂) right).mono And.symm

end Sim

/-! ## One operation -/

/-- An operation has a value only where its operands have one. -/
structure Strict (step : OpHead → Option Column → Option Column → Option Column →
    Option Column) : Prop where
  a : ∀ head b c, head.opcode ≠ .LOAD → head.opcode ≠ .CONST → step head none b c = none
  b : ∀ head a c, head.opcode ∈ [.ADD, .SUB, .MUL, .DIV, .LOGICAL, .SELECT] →
    step head a none c = none
  c : ∀ head a b, head.opcode = .SELECT → step head a b none = none

theorem apply_strict (K : Kernels) (m : Memory) (inputs : List Column) (offset len : Nat) :
    Strict (apply K m inputs offset len) where
  a := by
    intro head b c notLoad notConst
    unfold apply
    cases opcode : head.opcode <;> first | rfl | exact absurd opcode notLoad | skip
    · exact absurd opcode notConst
    · cases c <;> rfl
  b := by
    intro head a c binary
    unfold apply
    cases opcode : head.opcode <;> rw [opcode] at binary <;>
      first | exact absurd binary (by decide) | skip
    all_goals cases a <;> first | rfl | skip
    all_goals cases c <;> rfl
  c := by
    intro head a b opcode
    unfold apply
    rw [opcode]
    rfl

variable {x : Term OpHead} {head : OpHead} {y z : Term OpHead}

/-- What a value of an operation says of its operands. -/
theorem value_op (has : (Term.op head x y z).value step ≠ none) :
    step head (x.value step) (y.value step) (z.value step) ≠ none := by
  intro none
  refine has ?_
  unfold Term.value Term.operand
  unfold Term.value at none
  cases hx : x.operand step with
  | none => rfl
  | some u =>
    cases hy : y.operand step with
    | none => rfl
    | some v =>
      cases hz : z.operand step with
      | none => rfl
      | some w =>
        rw [hx, hy, hz] at none
        change ((step head u v w).map some).join = Option.none
        change step head u v w = Option.none at none
        rw [none]
        rfl

theorem Strict.value_a (strict : Strict step) (reads : head.opcode ≠ .LOAD ∧ head.opcode ≠ .CONST)
    (has : (Term.op head x y z).value step ≠ none) : x.value step ≠ none := by
  intro none
  have := value_op has
  rw [none, strict.a head _ _ reads.1 reads.2] at this
  exact this rfl

theorem Strict.value_b (strict : Strict step)
    (reads : head.opcode ∈ [.ADD, .SUB, .MUL, .DIV, .LOGICAL, .SELECT])
    (has : (Term.op head x y z).value step ≠ none) : y.value step ≠ none := by
  intro none
  have := value_op has
  rw [none, strict.b head _ _ reads] at this
  exact this rfl

theorem Strict.value_c (strict : Strict step) (reads : head.opcode = .SELECT)
    (has : (Term.op head x y z).value step ≠ none) : z.value step ≠ none := by
  intro none
  have := value_op has
  rw [none, strict.c head _ _ reads] at this
  exact this rfl

theorem Scalar.ext {v w : Scalar} (kind : v.kind = w.kind) (len : v.len = w.len)
    (value : v.value = w.value) : v = w := by
  cases v
  cases w
  cases kind
  cases len
  cases value
  rfl

/-- Operations with one key that agree in the tag of the second literal. -/
theorem eq_of_key {op op' : SlotOp Slot} (same : key op = key op')
    (tag : op.head.scalar2.kind = op'.head.scalar2.kind) : op = op' := by
  rcases op with ⟨⟨opcode, param, scalar, scalar2, text, text2, values⟩, a, b, c⟩
  rcases op' with ⟨⟨opcode', param', scalar', scalar2', text', text2', values'⟩, a', b', c'⟩
  injection same with h1 h2 h3 h4 h5 h6 h7 h8 h9 h10 h11 h12 h13
  dsimp only at h1 h2 h3 h4 h5 h6 h7 h8 h9 h10 h11 h12 h13 tag
  obtain rfl : scalar = scalar' := Scalar.ext h6 h9 h7
  obtain rfl : scalar2 = scalar2' := Scalar.ext tag h10 h8
  rw [h1, h2, h3, h4, h5, h11, h12, h13]

section Operations

variable (free : ∀ p ∈ clips, ∀ q ∈ clips, ¬ Clash types valuesType p q) {head : OpHead}

include free

/-- An operation is told from those of a program by its key. -/
theorem Good.told (good : Good types valuesType clips s) {op : SlotOp Slot}
    (clip : op.head.opcode = .CLIP →
      Allowed types valuesType clips op.head (termOf (terms s.program) op.a))
    (plain : op.head.opcode ≠ .CLIP → op.head.scalar2.kind = TAG_I64) :
    ∀ op' ∈ s.program, key op' = key op → op' = op := by
  intro op' listed same
  have opcode : op'.head.opcode = op.head.opcode := congrArg Key.opcode same
  refine eq_of_key same ?_
  by_cases isClip : op.head.opcode = .CLIP
  · obtain ⟨p, p_mem, v, p_lower, p_head, p_slot⟩ := good.clip op' listed (opcode.trans isClip)
    obtain ⟨q, q_mem, w, q_lower, q_head, q_slot⟩ := clip isClip
    have slots : op'.a = op.a := congrArg Key.a same
    have lo : p.1.scalar = q.1.scalar := by
      have kinds : op'.head.scalar.kind = op.head.scalar.kind := congrArg Key.kind same
      have lens : op'.head.scalar.len = op.head.scalar.len := congrArg Key.len same
      have values : op'.head.scalar.value = op.head.scalar.value := congrArg Key.bits same
      rw [p_head, q_head] at kinds lens values
      exact Scalar.ext kinds lens values
    have bits : op'.head.scalar2.value = op.head.scalar2.value := congrArg Key.bits2 same
    have len : op'.head.scalar2.len = op.head.scalar2.len := congrArg Key.len2 same
    rw [p_head, q_head] at bits len ⊢
    by_contra tag
    refine free p p_mem q q_mem ⟨⟨v, w, p_lower, q_lower, ?_⟩, lo, bits, len, tag⟩
    rw [← p_slot, ← q_slot, slots]
  · rw [good.plain op' listed (opcode ▸ isClip), plain isClip]

/-- An operation on slots and on their terms. -/
theorem column_sim (good : Good types valuesType clips s)
    {a b c : Slot} {x y z : Term OpHead} (t : TypeId)
    (clip : head.opcode = .CLIP → Allowed types valuesType clips head x)
    (plain : head.opcode ≠ .CLIP → head.scalar2.kind = TAG_I64)
    (a_holds : Holds s a x) (b_holds : Holds s b y) (c_holds : Holds s c z) {needs : Prop}
    (needed : (Term.op head x y z).value step ≠ none → needs) :
    Sim types valuesType clips step Shows (Valued step) s (column sharing head a b c t)
      (column unshared head x y z t) needs := by
  have within : (Op.mk head a b c).Within s.program.length :=
    ⟨a_holds.within, b_holds.within, c_holds.within⟩
  have term : (Op.mk head a b c).term (terms s.program) = .op head x y z := by
    unfold Op.term
    rw [a_holds.term, b_holds.term, c_holds.term]
  have isClip : head.opcode = .CLIP →
      Allowed types valuesType clips head (termOf (terms s.program) a) := by
    rwa [a_holds.term]
  have emits : Shared.Emits key ⟨head, a, b, c⟩ s (sharing.emit ⟨head, a, b, c⟩ s).1
      (sharing.emit ⟨head, a, b, c⟩ s).2 :=
    good.sound.emit within (good.told free isClip plain)
  refine .inr ⟨_, _, _, rfl, rfl, ?_, emits.grows, ?_, ?_⟩
  · refine ⟨emits.sound, fun op listed clipped => ?_, fun op listed other => ?_⟩
    · rcases emits.operations op listed with old | rfl
      · have before := good.clip op old clipped
        obtain ⟨k, place⟩ := getElem?_of_mem old
        have wide := (good.sound.backward k op place).a.mono
          (List.getElem?_eq_some_iff.mp place).1.le
        rwa [termOf_grows emits.grows wide]
      · rw [termOf_grows emits.grows a_holds.within]
        exact isClip clipped
    · rcases emits.operations op listed with old | rfl
      · exact good.plain op old other
      · exact plain other
  · exact ⟨rfl, rfl, rfl, rfl, emits.within, emits.term.trans term⟩
  · rintro (never | valued)
    · cases never
    · refine ⟨needed valued, fun t mem => ?_⟩
      rcases emits.terms t mem with old | rfl
      · exact .inl old
      · rw [term]
        exact .inr valued

/-- An operation on one column. -/
theorem unary_sim (strict : Strict step) (good : Good types valuesType clips s)
    {v : Val Slot} {w : Val (Term OpHead)} (t : TypeId)
    (clip : head.opcode = .CLIP → Allowed types valuesType clips head w.slot)
    (plain : head.opcode ≠ .CLIP → head.scalar2.kind = TAG_I64)
    (reads : head.opcode ≠ .LOAD ∧ head.opcode ≠ .CONST) (related : Shows s v w) :
    Sim types valuesType clips step Shows (Valued step) s (unary sharing head v.slot t)
      (unary unshared head w.slot t) (Valued step w) :=
  column_sim free good t clip plain related.slot .none .none fun has =>
    .inr (strict.value_a reads has)

end Operations

/-! ## The pieces of the compiler -/

section Pieces

variable {v v' : Val Slot} {w w' : Val (Term OpHead)}

theorem not_valued_unknown : ¬ Valued step (Val.unknown (Term.absent (H := OpHead))) := by
  rintro (h | h)
  · cases h
  · exact h rfl

variable {needs : Prop} {go : Val Slot → Compile Program (Val Slot)}
  {go' : Val (Term OpHead) → Compile Unit (Val (Term OpHead))} {head : OpHead}

theorem known_sim (good : Good types valuesType clips s) (related : Shows s v w)
    {go : Compile Program (Val Slot)}
    {go' : Compile Unit (Val (Term OpHead))}
    (sim : Sim types valuesType clips step Shows (Valued step) s go go' needs) :
    Sim types valuesType clips step Shows (Valued step) s (known sharing v go)
      (known unshared w go') needs := by
  unfold known Val.isUnknown
  rw [related.full]
  split_ifs
  · exact .pure good ⟨rfl, rfl, rfl, rfl, .none⟩ fun has => absurd has not_valued_unknown
  · exact sim

theorem asCol_sim (who : String) (related : Shows s v w)
    (sim : Sim types valuesType clips step Shows (Valued step) s (go v) (go' w) needs) :
    Sim types valuesType clips step Shows (Valued step) s (asCol v who >>= go)
      (asCol w who >>= go') needs := by
  unfold asCol
  rw [related.isScalar]
  split_ifs
  · exact .throw _
  · exact sim

theorem asStr_sim (who : String) (binaryOk : Bool) (related : Shows s v w)
    (sim : Sim types valuesType clips step Shows (Valued step) s (go v) (go' w) needs) :
    Sim types valuesType clips step Shows (Valued step) s (asStr v who binaryOk >>= go)
      (asStr w who binaryOk >>= go') needs := by
  unfold asStr
  rw [bind_assoc, bind_assoc]
  refine asCol_sim who related ?_
  rw [related.type]
  split
  · exact sim
  · exact .throw _

variable (free : ∀ p ∈ clips, ∀ q ∈ clips, ¬ Clash types valuesType p q) (strict : Strict step)
variable (good : Good types valuesType clips s)

include free strict good

theorem cast_sim (t : TypeId) (related : Shows s v w) :
    Sim types valuesType clips step Shows (Valued step) s (cast sharing v t) (cast unshared w t)
      (Valued step w) :=
  unary_sim free strict good t (by rintro ⟨⟩) (fun _ => rfl) ⟨by rintro ⟨⟩, by rintro ⟨⟩⟩ related

theorem onColumn_sim (who : String) (result : TypeId → TypeId)
    (clip : head.opcode = .CLIP → Allowed types valuesType clips head w.slot)
    (plain : head.opcode ≠ .CLIP → head.scalar2.kind = TAG_I64)
    (reads : head.opcode ≠ .LOAD ∧ head.opcode ≠ .CONST) (related : Shows s v w) :
    Sim types valuesType clips step Shows (Valued step) s (onColumn sharing who head result v)
      (onColumn unshared who head result w) (Valued step w) := by
  refine known_sim good related (asCol_sim who related ?_)
  rw [related.type]
  exact unary_sim free strict good _ clip plain reads related

theorem onStrings_sim (who : String) (binaryOk : Bool) (result : TypeId)
    (clip : head.opcode ≠ .CLIP) (plain : head.scalar2.kind = TAG_I64)
    (reads : head.opcode ≠ .LOAD ∧ head.opcode ≠ .CONST) (related : Shows s v w) :
    Sim types valuesType clips step Shows (Valued step) s
      (onStrings sharing who binaryOk head result v)
      (onStrings unshared who binaryOk head result w) (Valued step w) :=
  known_sim good related (asStr_sim who binaryOk related
    (unary_sim free strict good _ (absurd · clip) (fun _ => plain) reads related))

theorem compilePrim_sim (i : Int) (related : Shows s v w) :
    Sim types valuesType clips step Shows (Valued step) s (compilePrim sharing i v)
      (compilePrim unshared i w) (Valued step w) := by
  refine known_sim good related (asCol_sim _ related ?_)
  rw [related.type]
  split
  · refine (Sim.bind (cast_sim free strict good .Int64 related) (Q := True) ?_).mono And.left
    intro u x s' _ good' _ related'
    exact (unary_sim free strict good' _ (by rintro ⟨⟩) (fun _ => rfl)
      ⟨by rintro ⟨⟩, by rintro ⟨⟩⟩ related').mono fun has => ⟨has, trivial⟩
  · exact unary_sim free strict good _ (by rintro ⟨⟩) (fun _ => rfl)
      ⟨by rintro ⟨⟩, by rintro ⟨⟩⟩ related

theorem compileIsIn_sim (values : Option Nat) (related : Shows s v w) :
    Sim types valuesType clips step Shows (Valued step) s
      (compileIsIn sharing valuesType values v) (compileIsIn unshared valuesType values w)
      (Valued step w) := by
  refine known_sim good related (asCol_sim _ related ?_)
  cases values with
  | none => exact .throw _
  | some address =>
    dsimp only
    rw [related.type]
    split
    · exact .throw _
    · exact unary_sim free strict good _ (by rintro ⟨⟩) (fun _ => rfl)
        ⟨by rintro ⟨⟩, by rintro ⟨⟩⟩ related

theorem compileLogical_sim (i : Int) (left : Shows s v w) (right : Shows s v' w') :
    Sim types valuesType clips step Shows (Valued step) s (compileLogical sharing i v v')
      (compileLogical unshared i w w') (Valued step w ∧ Valued step w') := by
  refine known_sim good left (known_sim good right (asCol_sim _ left (asCol_sim _ right ?_)))
  exact column_sim free good .Bool (by rintro ⟨⟩) (fun _ => rfl) left.slot right.slot .none
    fun has => ⟨.inr (strict.value_a ⟨by rintro ⟨⟩, by rintro ⟨⟩⟩ has),
      .inr (strict.value_b (show Opcode.LOGICAL ∈ _ by decide) has)⟩

theorem promoteFloat_sim (related : Shows s v w) :
    Sim types valuesType clips step Shows (Valued step) s (promoteFloat sharing v)
      (promoteFloat unshared w) (Valued step w) := by
  unfold promoteFloat
  by_cases isScalar : w.isScalar = true
  · rw [if_pos (related.isScalar.trans isScalar), if_pos isScalar]
    exact .pure good { related with scalar := congrArg Scalar.toF64 related.scalar } id
  · rw [if_neg (related.isScalar ▸ isScalar), related.type]
    split
    · exact cast_sim free strict good _ related
    · exact .pure good related id

omit strict in
theorem broadcast_sim (lit : Scalar) (t : TypeId) (needed : needs) :
    Sim types valuesType clips step Shows (Valued step) s (broadcast sharing lit t)
      (broadcast unshared lit t) needs :=
  column_sim free good t (by rintro ⟨⟩) (fun _ => rfl) .none .none .none fun _ => needed

omit strict in
theorem broadcastArm_sim (t : TypeId) (related : Shows s v w) :
    Sim types valuesType clips step Shows (Valued step) s (broadcastArm sharing v t)
      (broadcastArm unshared w t) (Valued step w) := by
  unfold broadcastArm
  rw [related.isScalar, related.scalar]
  split
  · rename_i isScalar
    exact broadcast_sim free good _ _ (.inl isScalar)
  · exact .pure good related id

theorem castArm_sim (t : TypeId) (related : Shows s v w) :
    Sim types valuesType clips step Shows (Valued step) s (castArm sharing v t)
      (castArm unshared w t) (Valued step w) := by
  unfold castArm
  rw [related.isScalar, related.type]
  split
  · exact cast_sim free strict good _ related
  · exact .pure good related id

/-- The operands of an arithmetic operation. -/
theorem promote_sim (op : BinaryOp) (left : Shows s v w) (right : Shows s v' w') :
    Sim types valuesType clips step
      (fun s x y => Shows s x.1 y.1 ∧ Shows s x.2.1 y.2.1 ∧ x.2.2 = y.2.2)
      (fun y => Valued step y.1 ∧ Valued step y.2.1) s (promote sharing op v v')
      (promote unshared op w w') (Valued step w ∧ Valued step w') := by
  unfold promote
  rw [left.isFloat, right.isFloat, left.isScalar, left.type, right.isScalar, right.type]
  split_ifs
  · exact .two (promoteFloat_sim free strict good left)
      (fun s' good' grows => promoteFloat_sim free strict good' (right.grow grows))
      fun a b x y s' good' left' right' => .pure good' ⟨left', right', rfl⟩ id
  · exact .two (cast_sim free strict good _ left)
      (fun s' good' grows => cast_sim free strict good' _ (right.grow grows))
      fun a b x y s' good' left' right' => .pure good' ⟨left', right', rfl⟩ id
  · exact .pure good ⟨left, right, rfl⟩ id
  · exact .pure good ⟨left, right, rfl⟩ id

theorem arithmetic_sim (op : BinaryOp) (t : TypeId) (left : Shows s v w) (right : Shows s v' w') :
    Sim types valuesType clips step Shows (Valued step) s (arithmetic sharing op v v' t)
      (arithmetic unshared op w w' t) (Valued step w ∧ Valued step w') := by
  have col : colOp op ∈ [.ADD, .SUB, .MUL, .DIV, .LOGICAL, .SELECT] := by cases op <;> decide
  have colClip : colOp op ≠ .CLIP := by cases op <;> decide
  have colReads : colOp op ≠ .LOAD ∧ colOp op ≠ .CONST := by cases op <;> decide
  have scalarClip : scalarOp op ≠ .CLIP := by cases op <;> decide
  have scalarReads : scalarOp op ≠ .LOAD ∧ scalarOp op ≠ .CONST := by cases op <;> decide
  unfold arithmetic
  rw [left.isScalar, right.isScalar, left.scalar, right.scalar]
  split_ifs with columns leftColumn commutes
  · exact column_sim free good t (absurd · colClip) (fun _ => rfl) left.slot right.slot .none
      fun has => ⟨.inr (strict.value_a colReads has), .inr (strict.value_b col has)⟩
  · have rightScalar : w'.isScalar = true := by
      by_contra column
      exact columns ⟨leftColumn, by rw [Bool.eq_false_of_not_eq_true column]; rfl⟩
    exact (unary_sim free strict good t (absurd · scalarClip) (fun _ => rfl) scalarReads left).mono
      fun has => ⟨has, .inl rightScalar⟩
  · have leftScalar : w.isScalar = true := by
      by_contra column
      exact leftColumn (by rw [Bool.eq_false_of_not_eq_true column]; rfl)
    exact (unary_sim free strict good t (absurd · scalarClip) (fun _ => rfl) scalarReads right).mono
      fun has => ⟨.inl leftScalar, has⟩
  · exact .throw _

theorem compileBinary_sim (i : Int) (left : Shows s v w) (right : Shows s v' w') :
    Sim types valuesType clips step Shows (Valued step) s (compileBinary sharing i v v')
      (compileBinary unshared i w w') (Valued step w ∧ Valued step w') := by
  unfold compileBinary
  cases entry binaryOps i with
  | none => exact .throw _
  | some op =>
    refine known_sim good left (known_sim good right ?_)
    rw [left.isScalar, right.isScalar, left.scalar, right.scalar]
    split_ifs with scalars
    · have folded : Shows s (fold sharing op w.scalar w'.scalar)
          (fold unshared op w.scalar w'.scalar) := by
        unfold fold
        split_ifs <;> exact ⟨rfl, rfl, rfl, rfl, .none⟩
      exact .pure good folded fun _ => ⟨.inl scalars.1, .inl scalars.2⟩
    · refine ((promote_sim free strict good op left right).bind (Q := True) ?_).mono And.left
      rintro ⟨a, b, t⟩ ⟨x, y, t'⟩ s' - good' - ⟨left', right', rfl⟩
      exact (arithmetic_sim free strict good' op t left' right').mono fun has => ⟨has, trivial⟩

/-- The arms of a choice. -/
theorem arms_sim (left : Shows s v w) (right : Shows s v' w') :
    Sim types valuesType clips step (fun s x y => Shows s x.1 y.1 ∧ Shows s x.2 y.2)
      (fun y => Valued step y.1 ∧ Valued step y.2) s (arms sharing v v')
      (arms unshared w w') (Valued step w ∧ Valued step w') := by
  unfold arms
  rw [left.isFloat, right.isFloat, left.isScalar, left.type, left.scalar, right.isScalar,
    right.type, right.scalar]
  split_ifs with scalars
  · exact .two (broadcast_sim free good _ _ (.inl scalars.1))
      (fun s' good' _ => broadcast_sim free good' _ _ (.inl scalars.2))
      fun a b x y s' good' left' right' => .pure good' ⟨left', right'⟩ id
  · exact .two (broadcast_sim free good _ _ (.inl scalars.1))
      (fun s' good' _ => broadcast_sim free good' _ _ (.inl scalars.2))
      fun a b x y s' good' left' right' => .pure good' ⟨left', right'⟩ id
  · exact .throw _
  · exact .pure good ⟨left, right⟩ id
  · exact .two (promoteFloat_sim free strict good left)
      (fun s' good' grows => promoteFloat_sim free strict good' (right.grow grows))
      fun a b x y s' good' left' right' =>
        .two (broadcastArm_sim free good' _ left')
          (fun s' good' grows => broadcastArm_sim free good' _ (right'.grow grows))
          fun a b x y s' good' left' right' => .pure good' ⟨left', right'⟩ id
  all_goals
    exact .two (castArm_sim free strict good _ left)
      (fun s' good' grows => castArm_sim free strict good' _ (right.grow grows))
      fun a b x y s' good' left' right' =>
        .two (broadcastArm_sim free good' _ left')
          (fun s' good' grows => broadcastArm_sim free good' _ (right'.grow grows))
          fun a b x y s' good' left' right' => .pure good' ⟨left', right'⟩ id

theorem compileSelect_sim {v'' : Val Slot} {w'' : Val (Term OpHead)} (cond : Shows s v w)
    (left : Shows s v' w') (right : Shows s v'' w'') :
    Sim types valuesType clips step Shows (Valued step) s (compileSelect sharing v v' v'')
      (compileSelect unshared w w' w'')
      (Valued step w ∧ Valued step w' ∧ Valued step w'') := by
  refine known_sim good cond (known_sim good left (known_sim good right (asCol_sim _ cond ?_)))
  rw [cond.type]
  split
  · exact .throw _
  · refine ((arms_sim free strict good left right).bind (Q := Valued step w) ?_).mono And.symm
    rintro ⟨a, b⟩ ⟨x, y⟩ s' - good' grows ⟨left', right'⟩
    dsimp only
    rw [left'.type]
    exact column_sim free good' _ (by rintro ⟨⟩) (fun _ => rfl) left'.slot right'.slot
      (cond.slot.grow grows) fun has =>
        ⟨⟨.inr (strict.value_a ⟨by rintro ⟨⟩, by rintro ⟨⟩⟩ has),
            .inr (strict.value_b (show Opcode.SELECT ∈ _ by decide) has)⟩,
          .inr (strict.value_c rfl has)⟩

omit strict in
theorem compileCol_sim (types' : List (Option DataType)) (i : Int) :
    Sim types valuesType clips step Shows (Valued step) s (compileCol sharing types' i)
      (compileCol unshared types' i) True := by
  unfold compileCol
  rcases entry types' i with _ | _ | dt
  · exact .throw _
  · exact .pure good ⟨rfl, rfl, rfl, rfl, .none⟩ fun _ => trivial
  · have load : Sim types valuesType clips step Shows (Valued step) s
        (column sharing { opcode := .LOAD, param := i } none none none dt.id)
        (column unshared { opcode := .LOAD, param := i } .absent .absent .absent dt.id) True :=
      column_sim free good dt.id (by rintro ⟨⟩) (fun _ => rfl) .none .none .none fun _ => trivial
    rcases load with ⟨e, left, -⟩ | ⟨v, s', w, left, right, good', grows, related, has⟩
    · cases left
    · cases left
      cases right
      exact .inr ⟨_, _, _, rfl, rfl, good', grows,
        { related with full := rfl }, has⟩

/-- Compiling an expression whose clips are known. -/
theorem compile_sim (n : ExprNode) (known : ∀ p ∈ n.clips, p ∈ clips) :
    Sim types valuesType clips step Shows (Valued step) s (compile sharing types valuesType n)
      (compile unshared types valuesType n) True := by
  induction n generalizing s with
  | null => exact .throw _
  | node n a b c ih_a ih_b ih_c =>
    have knownA : ∀ p ∈ a.clips, p ∈ clips := fun p mem => known p (by
      exact mem_append_right _ (mem_append_left _ mem))
    have knownB : ∀ p ∈ b.clips, p ∈ clips := fun p mem => known p (by
      exact mem_append_right _ (mem_append_right _ (mem_append_left _ mem)))
    have knownC : ∀ p ∈ c.clips, p ∈ clips := fun p mem => known p (by
      exact mem_append_right _ (mem_append_right _ (mem_append_right _ mem)))
    -- an operation on the first operand
    have one {f : Val Slot → Compile Program (Val Slot)}
        {g : Val (Term OpHead) → Compile Unit (Val (Term OpHead))}
        (next : ∀ v w s', compile unshared types valuesType a () = .ok (w, ()) →
          Good types valuesType clips s' → Shows s' v w →
          Sim types valuesType clips step Shows (Valued step) s' (f v) (g w) (Valued step w)) :
        Sim types valuesType clips step Shows (Valued step) s
          (compile sharing types valuesType a >>= f)
          (compile unshared types valuesType a >>= g) True := by
      refine ((ih_a good knownA).bind (Q := True) fun v w s' compiled good' _ related => ?_).mono
        fun _ => trivial
      exact (next v w s' compiled good' related).mono fun has => ⟨has, trivial⟩
    -- an operation on two operands
    have two {f : Val Slot → Val Slot → Compile Program (Val Slot)}
        {g : Val (Term OpHead) → Val (Term OpHead) → Compile Unit (Val (Term OpHead))}
        (next : ∀ v v' w w' s', Good types valuesType clips s' → Shows s' v w → Shows s' v' w' →
          Sim types valuesType clips step Shows (Valued step) s' (f v v') (g w w')
            (Valued step w ∧ Valued step w')) :
        Sim types valuesType clips step Shows (Valued step) s
          (compile sharing types valuesType a >>= fun v =>
            compile sharing types valuesType b >>= fun v' => f v v')
          (compile unshared types valuesType a >>= fun w =>
            compile unshared types valuesType b >>= fun w' => g w w') True :=
      (Sim.two (ih_a good knownA) (fun s' good' _ => ih_b good' knownB)
        fun v v' w w' s' good' => next v v' w w' s' good').mono fun _ => trivial
    unfold compile
    cases kind : n.kind with
    | LitI64 | LitF64 => exact .pure good ⟨rfl, rfl, rfl, rfl, .none⟩ fun _ => trivial
    | Col => exact compileCol_sim free good types n.i
    | Binary =>
      exact two fun v v' w w' s' good' left right =>
        compileBinary_sim free strict good' n.i left right
    | Prim =>
      exact one fun v w s' _ good' related => compilePrim_sim free strict good' n.i related
    | Clip =>
      refine one fun v w s' compiled good' related => ?_
      refine onColumn_sim free strict good' _ _ (fun _ => ?_) (absurd rfl)
        ⟨by rintro ⟨⟩, by rintro ⟨⟩⟩ related
      refine ⟨(n, a), known _ ?_, w, ?_, rfl, rfl⟩
      · unfold ExprNode.clips
        rw [if_pos kind]
        exact mem_append_left _ mem_cons_self
      · change ((compile unshared types valuesType a) ()).map Prod.fst = _
        rw [compiled]
        rfl
    | Unary | Fillna | Cmp | Not | IsNull =>
      exact one fun v w s' _ good' related =>
        onColumn_sim free strict good' _ _ (by rintro ⟨⟩) (fun _ => rfl)
          ⟨by rintro ⟨⟩, by rintro ⟨⟩⟩ related
    | Logical =>
      exact two fun v v' w w' s' good' left right =>
        compileLogical_sim free strict good' n.i left right
    | Cast =>
      exact one fun v w s' _ good' related =>
        asCol_sim _ related (cast_sim free strict good' _ related)
    | StrPred | StrMap | StrLen | StrFind | StrReplace =>
      exact one fun v w s' _ good' related =>
        onStrings_sim free strict good' _ _ _ (by rintro ⟨⟩) rfl
          ⟨by rintro ⟨⟩, by rintro ⟨⟩⟩ related
    | StrSlice =>
      exact one fun v w s' _ good' related =>
        onStrings_sim free strict good' _ _ _ (by rintro ⟨⟩) (n.slice kind).2
          ⟨by rintro ⟨⟩, by rintro ⟨⟩⟩ related
    | IsIn =>
      exact one fun v w s' _ good' related =>
        compileIsIn_sim free strict good' n.values related
    | Select =>
      refine two fun v v' w w' s₂ good₂ cond left => ?_
      refine ((ih_c good₂ knownC).bind (Q := Valued step w ∧ Valued step w')
        fun v'' w'' s₃ _ good₃ grows right => ?_).mono And.right
      exact (compileSelect_sim free strict good₃ (cond.grow grows) (left.grow grows)
        right).mono fun has => ⟨has.2.2, has.1, has.2.1⟩

end Pieces

end DFTracer.Expr
