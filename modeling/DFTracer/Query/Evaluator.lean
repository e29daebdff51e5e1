/-
# Evaluating a predicate on an event

Evaluation is two-valued. A comparison of a missing field, or of a value whose
JSON type does not match the literal, is false, and so its negation is true.
Integer literals meet integer values exactly; any other pair of numbers is
compared after both are converted to doubles.
-/

import DFTracer.Query.Ast

namespace DFTracer.Query

open DFTracer.Math.Float64

/-- The three-way result of `<` and `>` on doubles. -/
def compareDouble (x y : Double) : Ordering :=
  if x < y then .lt else if y < x then .gt else .eq

namespace JsonValue

/-- `is_uint`: an integer that `uint64_t` holds. -/
def asUint : JsonValue → Option Nat
  | .int n => if 0 ≤ n.val then some n.val.toNat else none
  | _ => none

/-- `is_int`: an integer that `int64_t` holds. -/
def asInt : JsonValue → Option Int
  | .int n => if n.val < 2 ^ 63 then some n.val else none
  | _ => none

/-- `is_number`, and the number as a double. -/
def asDouble : JsonValue → Option Double
  | .int n => some n.toDouble
  | .double d => some d
  | _ => none

end JsonValue

/-- `compare_value`: how the value of a field compares to a literal, nothing on
a type mismatch. -/
def compareValue (value : JsonValue) : Literal → Option Ordering
  | .string s =>
    match value with
    | .string v => some (compare v s)
    | _ => none
  | .int64 n =>
    match value.asInt with
    | some v => some (compare v n.toInt)
    | none =>
      match value.asUint with
      | some v => if n.toInt < 0 then some .gt else some (compare (v : Int) n.toInt)
      | none => value.asDouble.map (compareDouble · (int64Double n))
  | .uint64 n =>
    match value.asUint with
    | some v => some (compare v n.toNat)
    | none =>
      match value.asInt with
      | some v => if v < 0 then some .lt else some (compare v n.toNat)
      | none => value.asDouble.map (compareDouble · (uint64Double n))
  | .double d => value.asDouble.map (compareDouble · d)
  | .bool b =>
    match value with
    | .bool v => some (compare v b)
    | _ => none

/-- `apply_compare`: a mismatch satisfies no operator. -/
def applyCompare (op : CompareOp) : Option Ordering → Bool
  | none => false
  | some cmp =>
    match op with
    | .eq => cmp == .eq
    | .ne => cmp != .eq
    | .gt => cmp == .gt
    | .lt => cmp == .lt
    | .ge => cmp != .lt
    | .le => cmp != .gt

/-- `has_args_prefix`: an explicit `args.` with something after it. -/
def hasArgsPrefix (path : String) : Bool :=
  "args.".toList.isPrefixOf path.toList && 5 < path.length

/-- `resolve_field`, with an absent value and a JSON null read alike. A bare name
that the event does not carry is looked up among its arguments. -/
def resolveField (event : JsonValue) (path : String) : Option JsonValue :=
  match event.atPath path with
  | some .null | none =>
    if hasArgsPrefix path then none
    else
      match event.atPath ("args." ++ path) with
      | some .null => none
      | found => found
  | found => found

section Evaluate

-- `search op pattern text`: whether the compiled matcher of a pattern finds the text
variable (search : MatchOp → String → String → Bool)

/-- `evaluate` on a JSON event. -/
def evaluate (node : QueryNode) (event : JsonValue) : Bool :=
  match node with
  | .compare field op value =>
    match resolveField event field.path with
    | some v => applyCompare op (compareValue v value)
    | none => false
  | .isIn field values =>
    match resolveField event field.path with
    | some v => values.any fun elem => compareValue v elem == some .eq
    | none => false
  | .notIn field values =>
    match resolveField event field.path with
    | some v => !values.any fun elem => compareValue v elem == some .eq
    | none => false
  | .matches field op pattern negated =>
    match resolveField event field.path with
    | some (.string text) => if negated then !search op pattern text else search op pattern text
    | _ => false
  | .and left right => evaluate left event && evaluate right event
  | .or left right => evaluate left event || evaluate right event
  | .not operand => !evaluate operand event

end Evaluate

/-! ## The order behind the comparisons -/

theorem compareDouble_eq (x y : Double) : compareDouble x y = compare x.rank y.rank := by
  unfold compareDouble
  simp only [Double.lt_iff]
  rcases Int.lt_trichotomy x.rank y.rank with h | h | h
  · rw [if_pos h, compare_lt_iff_lt.mpr h]
  · rw [if_neg (by omega), if_neg (by omega), compare_eq_iff_eq.mpr h]
  · rw [if_neg (by omega), if_pos h, compare_gt_iff_gt.mpr h]

/-- The exact value of a JSON integer. -/
def JsonValue.exactInt : JsonValue → Option Int
  | .int n => some n.val
  | _ => none

variable {value : JsonValue} {literal : Literal} {n m : Int} {x : Double}

/-- Integers compare exactly whatever their signedness. -/
theorem compareValue_exact (hv : value.exactInt = some n) (hl : literal.exactInt = some m) :
    compareValue value literal = some (compare n m) := by
  cases value with
  | int k =>
    obtain rfl : k.val = n := Option.some.inj hv
    cases literal with
    | int64 l =>
      obtain rfl : l.toInt = m := Option.some.inj hl
      unfold compareValue JsonValue.asInt JsonValue.asUint
      by_cases small : k.val < 2 ^ 63
      · simp only [if_pos small]
      · simp only [if_neg small, if_pos (show 0 ≤ k.val by omega)]
        by_cases negative : l.toInt < 0
        · rw [if_pos negative, compare_gt_iff_gt.mpr (by omega)]
        · rw [if_neg negative, Int.toNat_of_nonneg (by omega)]
    | uint64 l =>
      obtain rfl : (l.toNat : Int) = m := Option.some.inj hl
      unfold compareValue JsonValue.asInt JsonValue.asUint
      by_cases positive : 0 ≤ k.val
      · simp only [if_pos positive]
        obtain ⟨j, hj⟩ := Int.eq_ofNat_of_zero_le positive
        rw [hj, Int.toNat_natCast]
        rcases Nat.lt_trichotomy j l.toNat with h | h | h
        · rw [compare_lt_iff_lt.mpr h, compare_lt_iff_lt.mpr (by omega)]
        · rw [compare_eq_iff_eq.mpr h, compare_eq_iff_eq.mpr (by omega)]
        · rw [compare_gt_iff_gt.mpr h, compare_gt_iff_gt.mpr (by omega)]
      · simp only [if_neg positive, if_pos (show k.val < 2 ^ 63 by omega),
          if_pos (show k.val < 0 by omega)]
        rw [compare_lt_iff_lt.mpr (by omega)]
    | string _ | double _ | bool _ => exact absurd hl (by simp [Literal.exactInt])
  | null | bool _ | double _ | string _ | array _ | object _ =>
    exact absurd hv (by simp [JsonValue.exactInt])

variable {y : Double}

/-- A pair of numbers that is not a pair of integers compares as doubles. -/
theorem compareValue_inexact (hv : value.asDouble = some x) (hl : literal.asNumber = some y)
    (inexact : value.exactInt = none ∨ literal.exactInt = none) :
    compareValue value literal = some (compare x.rank y.rank) := by
  rw [← compareDouble_eq]
  cases value with
  | int k =>
    cases literal with
    | double d => simp_all [compareValue, Literal.asNumber]
    | int64 _ | uint64 _ => simp [JsonValue.exactInt, Literal.exactInt] at inexact
    | string _ | bool _ => simp [Literal.asNumber] at hl
  | double d =>
    cases literal <;>
      simp_all [compareValue, Literal.asNumber, JsonValue.asInt, JsonValue.asUint]
  | null | bool _ | string _ | array _ | object _ => simp [JsonValue.asDouble] at hv

/-- A value that is no number compares to no numeric literal. -/
theorem compareValue_not_number (hv : value.asDouble = none) (hl : literal.asNumber = some y) :
    compareValue value literal = none := by
  cases value <;> cases literal <;>
    simp_all [compareValue, Literal.asNumber, JsonValue.asInt, JsonValue.asUint,
      JsonValue.asDouble]

/-- The double of a JSON integer has the rank of the integer. -/
theorem JsonValue.rank_of_exact
    (hv : value.asDouble = some x) (exact : value.exactInt = some n) : x.rank = intRank n := by
  cases value with
  | int k =>
    obtain rfl : k.val = n := Option.some.inj exact
    obtain rfl : k.toDouble = x := Option.some.inj hv
    exact Double.rank_ofInt _ _
  | _ => simp [JsonValue.exactInt] at exact

/-- The double of an integer literal has the rank of the integer. -/
theorem Literal.rank_of_exact
    (hl : literal.asNumber = some y) (exact : literal.exactInt = some m) : y.rank = intRank m := by
  cases literal with
  | int64 l =>
    obtain rfl : l.toInt = m := Option.some.inj exact
    obtain rfl : int64Double l = y := Option.some.inj hl
    exact Double.rank_ofInt _ _
  | uint64 l =>
    obtain rfl : (l.toNat : Int) = m := Option.some.inj exact
    obtain rfl : uint64Double l = y := Option.some.inj hl
    exact Double.rank_ofInt _ _
  | _ => simp [Literal.exactInt] at exact

/-- Doubles in strict order decide the comparison, even of exact integers. -/
theorem compareValue_of_rank_lt
    (hv : value.asDouble = some x) (hl : literal.asNumber = some y) (below : x.rank < y.rank) :
    compareValue value literal = some .lt := by
  cases exactValue : value.exactInt with
  | none =>
    rw [compareValue_inexact hv hl (.inl exactValue), compare_lt_iff_lt.mpr below]
  | some n =>
    cases exactLiteral : literal.exactInt with
    | none => rw [compareValue_inexact hv hl (.inr exactLiteral), compare_lt_iff_lt.mpr below]
    | some m =>
      rw [compareValue_exact exactValue exactLiteral]
      rw [JsonValue.rank_of_exact hv exactValue, Literal.rank_of_exact hl exactLiteral] at below
      have : n < m := by
        by_contra above
        have := intRank_mono (show m ≤ n by omega)
        omega
      rw [compare_lt_iff_lt.mpr this]

/-- Doubles in strict order decide the comparison, even of exact integers. -/
theorem compareValue_of_rank_gt
    (hv : value.asDouble = some x) (hl : literal.asNumber = some y) (above : y.rank < x.rank) :
    compareValue value literal = some .gt := by
  cases exactValue : value.exactInt with
  | none =>
    rw [compareValue_inexact hv hl (.inl exactValue), compare_gt_iff_gt.mpr above]
  | some n =>
    cases exactLiteral : literal.exactInt with
    | none => rw [compareValue_inexact hv hl (.inr exactLiteral), compare_gt_iff_gt.mpr above]
    | some m =>
      rw [compareValue_exact exactValue exactLiteral]
      rw [JsonValue.rank_of_exact hv exactValue, Literal.rank_of_exact hl exactLiteral] at above
      have : m < n := by
        by_contra below
        have := intRank_mono (show n ≤ m by omega)
        omega
      rw [compare_gt_iff_gt.mpr this]

/-- A comparison with a numeric literal bounds the value as a double. -/
theorem compareValue_rank {o : Ordering}
    (hl : literal.asNumber = some y) (compared : compareValue value literal = some o) :
    ∃ x, value.asDouble = some x ∧ (o ≠ .gt → x.rank ≤ y.rank) ∧ (o ≠ .lt → y.rank ≤ x.rank) := by
  cases hv : value.asDouble with
  | none =>
    rw [compareValue_not_number hv hl] at compared
    exact absurd compared (by simp)
  | some x =>
    refine ⟨x, rfl, fun notAbove => ?_, fun notBelow => ?_⟩
    · by_contra above
      rw [compareValue_of_rank_gt hv hl (by omega)] at compared
      exact notAbove (Option.some.inj compared).symm
    · by_contra below
      rw [compareValue_of_rank_lt hv hl (by omega)] at compared
      exact notBelow (Option.some.inj compared).symm

/-! ## Plain names

A name without the characters of the path syntax leads to the member of that name, and is
then what a predicate refers to by it. -/

namespace JsonValue

/-- A name that no path syntax cuts. -/
def PlainName (name : String) : Prop :=
  name.toList ≠ [] ∧ ∀ c ∈ name.toList, c ≠ '.' ∧ c ≠ '[' ∧ c ≠ '\x00'

theorem takeWhile_of_all {p : Char → Bool} {cs : List Char} (h : ∀ c ∈ cs, p c = true) :
    cs.takeWhile p = cs := by
  induction cs with
  | nil => rfl
  | cons c cs ih =>
    rw [List.takeWhile_cons_of_pos (h c List.mem_cons_self),
      ih fun d hd => h d (List.mem_cons_of_mem c hd)]

/-- In an object a plain name leads to the member of that name. -/
theorem atPath_plain {name : String} (plain : PlainName name)
    (members : List (String × JsonValue)) :
    (JsonValue.object members).atPath name = members.lookup name := by
  obtain ⟨nonempty, chars⟩ := plain
  have whole : name.toList.takeWhile (· != '\x00') = name.toList :=
    takeWhile_of_all fun c hc => by simp [(chars c hc).2.2]
  have key : name.toList.takeWhile (fun c => c != '.' && c != '[') = name.toList :=
    takeWhile_of_all fun c hc => by simp [(chars c hc).1, (chars c hc).2.1]
  have step : (JsonValue.object members).segmentStep name.toList =
      (members.lookup name).map (·, name.toList.length) := by
    simp only [segmentStep, key, String.ofList_toList, member, isArray]
    cases members.lookup name with
    | some value => rfl
    | none => simp
  rw [atPath, whole]
  obtain ⟨c, rest, hname⟩ := List.exists_cons_of_ne_nil nonempty
  have hc := chars c (by rw [hname]; exact List.mem_cons_self)
  rw [hname] at step ⊢
  rw [List.length_cons, walk]
  · rw [step]
    cases members.lookup name with
    | none => rfl
    | some value =>
      simp only [Option.map_some, List.length_cons]
      rw [show List.drop (rest.length + 1) (c :: rest) = [] from
        List.drop_eq_nil_of_le (Nat.le_refl _), walk]
  · exact hc.1
  · exact hc.2.1

end JsonValue

/-- A number under a plain name is found by it. -/
theorem resolveField_plain {name : String} (plain : JsonValue.PlainName name) {event : JsonValue}
    {x : JsonInt} (h : event.member name = some (.int x)) :
    resolveField event name = some (.int x) := by
  cases event with
  | object members =>
    have hpath : (JsonValue.object members).atPath name = some (.int x) := by
      rw [JsonValue.atPath_plain plain]
      exact h
    rw [resolveField, hpath]
  | _ => cases h

end DFTracer.Query
