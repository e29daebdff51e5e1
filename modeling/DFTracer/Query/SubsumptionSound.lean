/-
# When subsumption is sound

An accepted query admits only events its view admits, provided three things that flattening does
not check. The value sets a view puts on one field agree and none is empty: they are merged by
union although a conjunction intersects them. Numbers that share a double, or the text a value set
keys them by, are the same number to every event. Opaque residuals that share a text are the same
predicate.
-/

import DFTracer.Query.SubsumptionBuckets

namespace DFTracer.Query

open DFTracer.Math.Float64 List

/-- Two literals every value compares to alike: equal, or numbers with one
double, exact twins if both are integers, and below `2 ^ 53` if only one is. -/
def Literal.alike (a b : Literal) : Bool :=
  match a.asNumber, b.asNumber with
  | some x, some y =>
    x == y &&
      match a.exactInt, b.exactInt with
      | some m, some n => decide (m = n)
      | some m, none => decide (m.natAbs < 2 ^ 53)
      | none, some n => decide (n.natAbs < 2 ^ 53)
      | none, none => true
  | none, none => decide (a = b)
  | _, _ => false

theorem compare_intRank (k m : Int) (small : m.natAbs < 2 ^ 53) :
    compare (intRank k) (intRank m) = compare k m := by
  rcases Int.lt_trichotomy k m with h | rfl | h
  · rw [compare_lt_iff_lt.mpr h, compare_lt_iff_lt.mpr (intRank_strictMono h (.inr small))]
  · rw [compare_eq_iff_eq.mpr rfl, compare_eq_iff_eq.mpr rfl]
  · rw [compare_gt_iff_gt.mpr h, compare_gt_iff_gt.mpr (intRank_strictMono h (.inl small))]

variable {value : JsonValue} {x y : Double} {literal : Literal} {s t : Bool}

/-- The comparison of a number with a numeric literal, case by case. -/
theorem compareValue_cases (hv : value.asDouble = some x) (hl : literal.asNumber = some y) :
    (∃ k m, value.exactInt = some k ∧ literal.exactInt = some m ∧ x.rank = intRank k ∧
        y.rank = intRank m ∧ compareValue value literal = some (compare k m)) ∨
      ((value.exactInt = none ∨ literal.exactInt = none) ∧
        compareValue value literal = some (compare x.rank y.rank)) := by
  cases exactValue : value.exactInt with
  | none => exact .inr ⟨.inl rfl, compareValue_inexact hv hl (.inl exactValue)⟩
  | some k =>
    cases exactLiteral : literal.exactInt with
    | none => exact .inr ⟨.inr rfl, compareValue_inexact hv hl (.inr exactLiteral)⟩
    | some m =>
      exact .inl ⟨k, m, rfl, rfl, JsonValue.rank_of_exact hv exactValue,
        Literal.rank_of_exact hl exactLiteral, compareValue_exact exactValue exactLiteral⟩

variable {a b : Literal}

/-- Alike literals have doubles of one rank. -/
theorem Literal.rank_eq_of_alike (h : a.alike b = true)
    (ha : a.asNumber = some x) (hb : b.asNumber = some y) : x.rank = y.rank := by
  simp only [Literal.alike, ha, hb, Bool.and_eq_true, Double.beq_iff] at h
  exact h.1

/-- No value tells alike literals apart. -/
theorem compareValue_alike (h : a.alike b = true) (value : JsonValue) :
    compareValue value a = compareValue value b := by
  unfold Literal.alike at h
  split at h
  · rename_i x y ha hb
    rw [Bool.and_eq_true, Double.beq_iff] at h
    obtain ⟨same, exactness⟩ := h
    cases hv : value.asDouble with
    | none => rw [compareValue_not_number hv ha, compareValue_not_number hv hb]
    | some v =>
      rcases compareValue_cases hv ha with ⟨k, m, hk, hm, kRank, mRank, cmpA⟩ | ⟨inexactA, cmpA⟩ <;>
        rcases compareValue_cases hv hb with ⟨k', n, hk', hn, kRank', nRank, cmpB⟩ | ⟨inexactB, cmpB⟩
      · rw [hm, hn] at exactness
        obtain rfl : k = k' := Option.some.inj (hk.symm.trans hk')
        obtain rfl : m = n := of_decide_eq_true exactness
        rw [cmpA, cmpB]
      · have hb' : b.exactInt = none := inexactB.resolve_left (by simp [hk])
        rw [hm, hb'] at exactness
        rw [cmpA, cmpB, ← same, kRank, mRank, compare_intRank k m (of_decide_eq_true exactness)]
      · have ha' : a.exactInt = none := inexactA.resolve_left (by simp [hk'])
        rw [ha', hn] at exactness
        rw [cmpA, cmpB, same, kRank', nRank, compare_intRank k' n (of_decide_eq_true exactness)]
      · rw [cmpA, cmpB, same]
  · obtain rfl : a = b := of_decide_eq_true h
    rfl
  · exact absurd h (by simp)

/-! ## Transfer along bounds -/

/-- A value at or, when `strict`, strictly above a literal. -/
def Above (value : JsonValue) (literal : Literal) (strict : Bool) : Prop :=
  ∃ o, compareValue value literal = some o ∧ o ≠ .lt ∧ (strict = true → o ≠ .eq)

/-- A value at or, when `strict`, strictly below a literal. -/
def Below (value : JsonValue) (literal : Literal) (strict : Bool) : Prop :=
  ∃ o, compareValue value literal = some o ∧ o ≠ .gt ∧ (strict = true → o ≠ .eq)

/-- A tighter lower bound implies a looser one, if literals of one rank are alike. -/
theorem Above.transfer (ha : a.asNumber = some x) (hb : b.asNumber = some y)
    (tight : TighterLo ⟨y, t⟩ ⟨x, s⟩) (twins : x.rank = y.rank → a.alike b = true)
    (h : Above value b t) : Above value a s := by
  obtain ⟨o, compared, notBelow, notEqual⟩ := h
  rcases tight with lt | ⟨eq, strict⟩
  · obtain ⟨v, hv, -, atLeast⟩ := compareValue_rank hb compared
    have := atLeast notBelow
    exact ⟨.gt, compareValue_of_rank_gt hv ha (by simp only at lt; omega), by simp, by simp⟩
  · rw [← compareValue_alike (twins eq)] at compared
    exact ⟨o, compared, notBelow, fun hs => notEqual (strict hs)⟩

/-- A tighter upper bound implies a looser one, if literals of one rank are alike. -/
theorem Below.transfer (ha : a.asNumber = some x) (hb : b.asNumber = some y)
    (tight : TighterHi ⟨y, t⟩ ⟨x, s⟩) (twins : x.rank = y.rank → a.alike b = true)
    (h : Below value b t) : Below value a s := by
  obtain ⟨o, compared, notAbove, notEqual⟩ := h
  rcases tight with lt | ⟨eq, strict⟩
  · obtain ⟨v, hv, atMost, -⟩ := compareValue_rank hb compared
    have := atMost notAbove
    exact ⟨.lt, compareValue_of_rank_lt hv ha (by simp only at lt; omega), by simp, by simp⟩
  · rw [← compareValue_alike (twins eq.symm)] at compared
    exact ⟨o, compared, notAbove, fun hs => notEqual (strict hs)⟩

theorem Above.of_eq (h : compareValue value literal = some .eq) : Above value literal false :=
  ⟨.eq, h, by simp, by simp⟩

theorem Below.of_eq (h : compareValue value literal = some .eq) : Below value literal false :=
  ⟨.eq, h, by simp, by simp⟩

section Bounds

variable (search : MatchOp → String → String → Bool) {node : QueryNode} {field : String}
  {literal : Literal} {c : Bound} {event : JsonValue}

/-- A true atom with a lower bound puts its field above the literal. -/
theorem above_of_evaluate (bound : lowerBound? node = some (field, literal, c))
    (holds : evaluate search node event = true) :
    literal.asNumber = some c.val ∧
      ∃ v, resolveField event field = some v ∧ Above v literal c.strict := by
  cases node with
  | compare f op value =>
    simp only [lowerBound?] at bound
    unfold evaluate at holds
    cases found : resolveField event f.path with
    | none => rw [found] at holds; exact absurd holds (by simp)
    | some v =>
      rw [found] at holds
      cases compared : compareValue v value with
      | none => simp [compared, applyCompare] at holds
      | some o =>
        split at bound <;> cases bound <;> rename_i number <;>
          refine ⟨number, v, found, o, compared, ?_⟩ <;>
          cases o <;> simp_all [applyCompare]
  | _ => exact absurd bound (by simp [lowerBound?])

/-- A true atom with an upper bound puts its field below the literal. -/
theorem below_of_evaluate (bound : upperBound? node = some (field, literal, c))
    (holds : evaluate search node event = true) :
    literal.asNumber = some c.val ∧
      ∃ v, resolveField event field = some v ∧ Below v literal c.strict := by
  cases node with
  | compare f op value =>
    simp only [upperBound?] at bound
    unfold evaluate at holds
    cases found : resolveField event f.path with
    | none => rw [found] at holds; exact absurd holds (by simp)
    | some v =>
      rw [found] at holds
      cases compared : compareValue v value with
      | none => simp [compared, applyCompare] at holds
      | some o =>
        split at bound <;> cases bound <;> rename_i number <;>
          refine ⟨number, v, found, o, compared, ?_⟩ <;>
          cases o <;> simp_all [applyCompare]
  | _ => exact absurd bound (by simp [upperBound?])

/-- An atom that bounds a field is true when its field meets its bounds. -/
theorem evaluate_of_bounds {v : JsonValue} (bound : lowerBound? node = some (field, literal, c) ∨
      upperBound? node = some (field, literal, c)) (found : resolveField event field = some v)
    (lower : ∀ c, lowerBound? node = some (field, literal, c) → Above v literal c.strict)
    (upper : ∀ c, upperBound? node = some (field, literal, c) → Below v literal c.strict) :
    evaluate search node event = true := by
  cases node with
  | compare f op value =>
    simp only [lowerBound?, upperBound?] at bound lower upper
    have here : f.path = field ∧ value = literal := by
      rcases bound with bound | bound <;> split at bound <;> cases bound <;> exact ⟨rfl, rfl⟩
    obtain ⟨rfl, rfl⟩ := here
    unfold evaluate
    cases number : value.asNumber with
    | none => rcases bound with bound | bound <;> simp [number] at bound
    | some x =>
      cases op with
      | eq =>
        obtain ⟨o, compared, notLt, -⟩ := lower ⟨x, false⟩ (by simp [number])
        obtain ⟨o', compared', notGt, -⟩ := upper ⟨x, false⟩ (by simp [number])
        simp only [applyCompare]
        cases o <;> simp_all
      | ne => rcases bound with bound | bound <;> simp at bound
      | gt =>
        obtain ⟨o, compared, notLt, notEq⟩ := lower ⟨x, true⟩ (by simp [number])
        simp only [applyCompare]
        cases o <;> simp_all
      | ge =>
        obtain ⟨o, compared, notLt, -⟩ := lower ⟨x, false⟩ (by simp [number])
        simp only [applyCompare]
        cases o <;> simp_all
      | lt =>
        obtain ⟨o, compared, notGt, notEq⟩ := upper ⟨x, true⟩ (by simp [number])
        simp only [applyCompare]
        cases o <;> simp_all
      | le =>
        obtain ⟨o, compared, notGt, -⟩ := upper ⟨x, false⟩ (by simp [number])
        simp only [applyCompare]
        cases o <;> simp_all
  | _ => rcases bound with bound | bound <;> exact absurd bound (by simp [lowerBound?, upperBound?])

end Bounds

/-- Lists of literals that are alike one by one. -/
def alikeAll : List Literal → List Literal → Bool
  | [], [] => true
  | a :: as, b :: bs => a.alike b && alikeAll as bs
  | _, _ => false

/-- Predicates equal up to alike literals. -/
def QueryNode.alike : QueryNode → QueryNode → Bool
  | .compare f op a, .compare g op' b => decide (f.path = g.path ∧ op = op') && a.alike b
  | .isIn f as, .isIn g bs => decide (f.path = g.path) && alikeAll as bs
  | .notIn f as, .notIn g bs => decide (f.path = g.path) && alikeAll as bs
  | .matches f op pattern negated, .matches g op' pattern' negated' =>
    decide (f.path = g.path ∧ op = op' ∧ pattern = pattern' ∧ negated = negated')
  | .and l r, .and l' r' => l.alike l' && r.alike r'
  | .or l r, .or l' r' => l.alike l' && r.alike r'
  | .not n, .not n' => n.alike n'
  | _, _ => false

theorem any_alikeAll {as bs : List Literal} (h : alikeAll as bs = true)
    (value : JsonValue) :
    (as.any fun elem => compareValue value elem == some .eq) =
      bs.any fun elem => compareValue value elem == some .eq := by
  induction as generalizing bs with
  | nil =>
    cases bs with
    | nil => rfl
    | cons b bs => exact absurd h (by simp [alikeAll])
  | cons a as ih =>
    cases bs with
    | nil => exact absurd h (by simp [alikeAll])
    | cons b bs =>
      rw [alikeAll, Bool.and_eq_true] at h
      rw [any_cons, any_cons, ih h.2, compareValue_alike h.1]

/-- Alike predicates evaluate alike on every event. -/
theorem evaluate_alike (search : MatchOp → String → String → Bool) {s t : QueryNode}
    (h : s.alike t = true) (event : JsonValue) :
    evaluate search s event = evaluate search t event := by
  induction s generalizing t with
  | compare f op a =>
    cases t with
    | compare g op' b =>
      simp only [QueryNode.alike, Bool.and_eq_true, decide_eq_true_eq] at h
      obtain ⟨⟨path, rfl⟩, literals⟩ := h
      simp only [evaluate, path, compareValue_alike literals]
    | _ => exact absurd h (by simp [QueryNode.alike])
  | isIn f as =>
    cases t with
    | isIn g bs =>
      simp only [QueryNode.alike, Bool.and_eq_true, decide_eq_true_eq] at h
      simp only [evaluate, h.1, any_alikeAll h.2]
    | _ => exact absurd h (by simp [QueryNode.alike])
  | notIn f as =>
    cases t with
    | notIn g bs =>
      simp only [QueryNode.alike, Bool.and_eq_true, decide_eq_true_eq] at h
      simp only [evaluate, h.1, any_alikeAll h.2]
    | _ => exact absurd h (by simp [QueryNode.alike])
  | «matches» f op pattern negated =>
    cases t with
    | «matches» g op' pattern' negated' =>
      simp only [QueryNode.alike, decide_eq_true_eq] at h
      obtain ⟨path, rfl, rfl, rfl⟩ := h
      simp only [evaluate, path]
    | _ => exact absurd h (by simp [QueryNode.alike])
  | and l r ihl ihr =>
    cases t with
    | and l' r' =>
      rw [QueryNode.alike, Bool.and_eq_true] at h
      rw [evaluate, evaluate, ihl h.1, ihr h.2]
    | _ => exact absurd h (by simp [QueryNode.alike])
  | or l r ihl ihr =>
    cases t with
    | or l' r' =>
      rw [QueryNode.alike, Bool.and_eq_true] at h
      rw [evaluate, evaluate, ihl h.1, ihr h.2]
    | _ => exact absurd h (by simp [QueryNode.alike])
  | not n ih =>
    cases t with
    | not n' =>
      rw [evaluate, evaluate, ih h]
    | _ => exact absurd h (by simp [QueryNode.alike])

/-- Two numbers flattening cannot tell apart: one double, or one text as keys. -/
def sameImage (a b : Literal) : Bool :=
  match a.asNumber, b.asNumber with
  | some x, some y => x == y || literalKey a == literalKey b
  | _, _ => false

/-- The first character of a key tells texts, truth values and numbers apart. -/
theorem literalKey_head (a : Literal) :
    (literalKey a).toList.head? = some (match a with
      | .string _ => 's'
      | .bool _ => 'b'
      | _ => 'n') := by
  cases a with
  | bool b => cases b <;> rfl
  | _ => simp only [literalKey, String.toList_append]; rfl

/-- Literals that share a key are two numbers or one literal. -/
theorem literalKey_eq (h : literalKey a = literalKey b) :
    (∃ x y, a.asNumber = some x ∧ b.asNumber = some y) ∨ (a.asNumber = none ∧ a = b) := by
  have kinds := (literalKey_head a).symm.trans ((congrArg (·.toList.head?) h).trans
    (literalKey_head b))
  cases a <;> cases b
  case string.string s t =>
    have h := congrArg String.toList h
    simp only [literalKey, String.toList_append, append_cancel_left_eq] at h
    exact .inr ⟨rfl, congrArg Literal.string (String.toList_inj.mp h)⟩
  case bool.bool s t =>
    cases s <;> cases t
    · exact .inr ⟨rfl, rfl⟩
    · exact absurd h (by decide)
    · exact absurd h (by decide)
    · exact .inr ⟨rfl, rfl⟩
  all_goals first
    | exact .inl ⟨_, _, rfl, rfl⟩
    | exact absurd kinds (by simp)

/-- The fields and literals a bucketed atom constrains its field by. -/
def constrained (atom : QueryNode) : List (String × Literal) :=
  ((lowerBound? atom).toList.map fun b => (b.1, b.2.1)) ++
    ((upperBound? atom).toList.map fun b => (b.1, b.2.1)) ++
    (setAtom? atom).toList.flatMap fun s => s.2.map fun w => (s.1, w)

/-- The value sets a conjunction imposes. -/
def setAtoms (node : QueryNode) : List (String × List Literal) :=
  (conjuncts node).filterMap setAtom?

/-- The constraints of the bucketed atoms of a conjunction. -/
def constraints (node : QueryNode) : List (String × Literal) :=
  (conjuncts node).flatMap constrained

/-- The opaque atoms of a conjunction. -/
def opaqueAtoms (node : QueryNode) : List QueryNode :=
  (conjuncts node).filter isOpaque

/-- Flattening the conjunctions `mv` and `query` loses nothing that comparing
their buckets relies on. -/
structure Faithful (mv query : QueryNode) : Prop where
  /-- A value set of the view lists something. -/
  filled : ∀ s ∈ setAtoms mv, s.2 ≠ []
  /-- Two value sets of the view on one field list the same keys. -/
  agreeing : ∀ s ∈ setAtoms mv, ∀ t ∈ setAtoms mv, s.1 = t.1 →
    ∀ w ∈ s.2, ∃ u ∈ t.2, literalKey u = literalKey w
  /-- Numbers on one field that share a double or a key are the same to every event. -/
  numbers : ∀ a ∈ constraints mv ++ constraints query,
    ∀ b ∈ constraints mv ++ constraints query, a.1 = b.1 → sameImage a.2 b.2 = true →
      a.2.alike b.2 = true
  /-- Opaque atoms that share a text are the same predicate. -/
  residuals : ∀ s ∈ opaqueAtoms mv, ∀ t ∈ opaqueAtoms query, s.toText = t.toText →
    s.alike t = true

instance (mv query : QueryNode) : Decidable (Faithful mv query) :=
  decidable_of_iff
    ((∀ s ∈ setAtoms mv, s.2 ≠ []) ∧
      (∀ s ∈ setAtoms mv, ∀ t ∈ setAtoms mv, s.1 = t.1 →
        ∀ w ∈ s.2, ∃ u ∈ t.2, literalKey u = literalKey w) ∧
      (∀ a ∈ constraints mv ++ constraints query, ∀ b ∈ constraints mv ++ constraints query,
        a.1 = b.1 → sameImage a.2 b.2 = true → a.2.alike b.2 = true) ∧
      ∀ s ∈ opaqueAtoms mv, ∀ t ∈ opaqueAtoms query, s.toText = t.toText → s.alike t = true)
    ⟨fun ⟨filled, agreeing, numbers, residuals⟩ => ⟨filled, agreeing, numbers, residuals⟩,
      fun h => ⟨h.filled, h.agreeing, h.numbers, h.residuals⟩⟩

/-- The predicates that `or` at the top of a predicate chooses from, itself
included. -/
def orBranches : QueryNode → List QueryNode
  | .or left right => .or left right :: (orBranches left ++ orBranches right)
  | node => [node]

/-- The alternatives of a query that are no `or` themselves. -/
def orLeaves : QueryNode → List QueryNode
  | .or left right => orLeaves left ++ orLeaves right
  | node => [node]

/-- Flattening is faithful for every pair of branches that subsumption compares. -/
def FaithfulBranches (mv query : QueryNode) : Prop :=
  ∀ m ∈ orBranches mv, ∀ q ∈ orLeaves query, Faithful m q

instance (mv query : QueryNode) : Decidable (FaithfulBranches mv query) :=
  inferInstanceAs (Decidable (∀ m ∈ orBranches mv, ∀ q ∈ orLeaves query, Faithful m q))

/-! ## Soundness -/

section Soundness

variable (search : MatchOp → String → String → Bool)

variable {node : QueryNode} {event : JsonValue} {query : QueryNode} {vals : ValueSet} {b : Literal}
  {x : Double} {strict : Bool}

theorem evaluate_conjuncts :
    evaluate search node event = true ↔
      ∀ atom ∈ conjuncts node, evaluate search atom event = true := by
  induction node with
  | and left right ihl ihr =>
    rw [evaluate, Bool.and_eq_true, ihl, ihr, conjuncts]
    simp only [mem_append, or_imp, forall_and]
  | compare | isIn | notIn | «matches» | or | not => simp [conjuncts]

variable {literal : Literal} {field : String} {c : Bound} {atom : QueryNode}

theorem lowerBound_number
    (bound : lowerBound? atom = some (field, literal, c)) : literal.asNumber = some c.val := by
  cases atom with
  | compare f op value =>
    simp only [lowerBound?] at bound
    split at bound <;> cases bound <;> assumption
  | _ => exact absurd bound (by simp [lowerBound?])

theorem upperBound_number
    (bound : upperBound? atom = some (field, literal, c)) : literal.asNumber = some c.val := by
  cases atom with
  | compare f op value =>
    simp only [upperBound?] at bound
    split at bound <;> cases bound <;> assumption
  | _ => exact absurd bound (by simp [upperBound?])

theorem conjuncts_ne_and {left right : QueryNode} : .and left right ∉ conjuncts node := by
  induction node with
  | and l r ihl ihr => simp [conjuncts, ihl, ihr]
  | _ => simp [conjuncts]

section

variable (listed : atom ∈ conjuncts node)

include listed

theorem isOpaque_of_none
    (isSet : setAtom? atom = none) (lower : lowerBound? atom = none)
    (upper : upperBound? atom = none) : isOpaque atom = true := by
  cases atom with
  | and left right => exact absurd listed conjuncts_ne_and
  | _ => simp [isOpaque, isSet, lower, upper]

theorem mem_constraints_lower
    (bound : lowerBound? atom = some (field, literal, c)) :
    (field, literal) ∈ constraints node :=
  mem_flatMap.mpr ⟨atom, listed, by simp [constrained, bound]⟩

theorem mem_constraints_upper
    (bound : upperBound? atom = some (field, literal, c)) :
    (field, literal) ∈ constraints node :=
  mem_flatMap.mpr ⟨atom, listed, by simp [constrained, bound]⟩

theorem mem_constraints_set
    {values : List Literal} {w : Literal}
    (isSet : setAtom? atom = some (field, values)) (hw : w ∈ values) :
    (field, w) ∈ constraints node :=
  mem_flatMap.mpr ⟨atom, listed, by simp [constrained, isSet, hw]⟩

end

variable {iv : Interval}

/-- The literal behind a bound of a true query, and the value it bounds. -/
theorem query_lower (holds : evaluate search query event = true)
    (found : (flatten query .empty).intervals.lookup field = some iv) (lo : iv.lo = some c) :
    ∃ literal, (field, literal) ∈ constraints query ∧ literal.asNumber = some c.val ∧
      ∃ v, resolveField event field = some v ∧ Above v literal c.strict := by
  obtain ⟨atom, listed, literal, bound⟩ :=
    (sourced_flatten (sourced_empty _) fun _ h => h).lower field iv c found lo
  obtain ⟨number, above⟩ := above_of_evaluate search bound
    ((evaluate_conjuncts search).mp holds atom listed)
  exact ⟨literal, mem_constraints_lower listed bound, number, above⟩

/-- The literal behind a bound of a true query, and the value it bounds. -/
theorem query_upper (holds : evaluate search query event = true)
    (found : (flatten query .empty).intervals.lookup field = some iv) (hi : iv.hi = some c) :
    ∃ literal, (field, literal) ∈ constraints query ∧ literal.asNumber = some c.val ∧
      ∃ v, resolveField event field = some v ∧ Below v literal c.strict := by
  obtain ⟨atom, listed, literal, bound⟩ :=
    (sourced_flatten (sourced_empty _) fun _ h => h).upper field iv c found hi
  obtain ⟨number, below⟩ := below_of_evaluate search bound
    ((evaluate_conjuncts search).mp holds atom listed)
  exact ⟨literal, mem_constraints_upper listed bound, number, below⟩

/-- A true query's value set holds the key of a literal its field equals. -/
theorem query_set (holds : evaluate search query event = true)
    (found : (flatten query .empty).sets.lookup field = some vals) :
    ∃ v w, resolveField event field = some v ∧ (field, w) ∈ constraints query ∧
      compareValue v w = some .eq ∧ literalKey w ∈ vals := by
  obtain ⟨atom, listed, values, isSet, keyed⟩ :=
    (sourced_flatten (sourced_empty _) fun _ h => h).keys field vals found
  obtain ⟨v, resolved, w, hw, same⟩ := (evaluate_setAtom search isSet event).mp
    ((evaluate_conjuncts search).mp holds atom listed)
  exact ⟨v, w, resolved, mem_constraints_set listed isSet hw, same, keyed w hw⟩

/-- The literal behind an entry of a value set. -/
theorem set_entry {k : String}
    {n : Option Double} (found : (flatten node .empty).sets.lookup field = some vals)
    (entry : vals.lookup k = some n) :
    ∃ s ∈ setAtoms node, s.1 = field ∧ ∃ w ∈ s.2, (field, w) ∈ constraints node ∧
      literalKey w = k ∧ w.asNumber = n := by
  obtain ⟨atom, listed, values, isSet, w, hw, key, number⟩ :=
    (sourced_flatten (sourced_empty _) fun _ h => h).entries field vals k n found entry
  exact ⟨(field, values), mem_filterMap.mpr ⟨atom, listed, isSet⟩, rfl, w, hw,
    mem_constraints_set listed isSet hw, key, number⟩

variable {mv query : QueryNode} (faithful : Faithful mv query) {event : JsonValue}
  (holds : evaluate search query event = true)

include faithful

variable {a : Literal}

theorem alike_of_rank {y : Double}
    (ha : (field, a) ∈ constraints mv) (hb : (field, b) ∈ constraints query)
    (numberA : a.asNumber = some x) (numberB : b.asNumber = some y) (same : x.rank = y.rank) :
    a.alike b = true :=
  faithful.numbers _ (mem_append_left _ ha) _ (mem_append_right _ hb) rfl
    (by simp [sameImage, numberA, numberB, (Double.beq_iff x y).mpr same])

theorem alike_of_key (ha : (field, a) ∈ constraints mv ++ constraints query)
    (hb : (field, b) ∈ constraints mv ++ constraints query)
    (same : literalKey a = literalKey b) : a.alike b = true := by
  rcases literalKey_eq same with ⟨x, y, numberA, numberB⟩ | ⟨text, rfl⟩
  · exact faithful.numbers _ ha _ hb rfl (by simp [sameImage, numberA, numberB, same])
  · simp [Literal.alike, text]

include holds

/-- A value set of a true query within a range puts its field at a number of the range. -/
theorem query_point {field : String} {iv : Interval} {qs : ValueSet}
    (found : (flatten query .empty).sets.lookup field = some qs)
    (within : setWithinInterval qs iv = true) :
    ∃ v u num, resolveField event field = some v ∧ (field, u) ∈ constraints query ∧
      u.asNumber = some num ∧ compareValue v u = some .eq ∧ pointIn num iv = true := by
  obtain ⟨v, w, resolved, hw, same, present⟩ := query_set search holds found
  obtain ⟨n, entry⟩ := Option.isSome_iff_exists.mp (AList.lookup_isSome.mpr present)
  obtain ⟨-, -, -, u, -, hu, key, numberU⟩ := set_entry found entry
  have inside := all_eq_true.mp within _ (AList.mem_lookup_iff.mp entry)
  cases n with
  | none => exact absurd inside (by simp)
  | some num =>
    have twins := alike_of_key faithful (mem_append_right _ hw) (mem_append_right _ hu) key.symm
    exact ⟨v, u, num, resolved, hu, numberU, by rw [← compareValue_alike twins, same], inside⟩

/-- A range of the view that the query meets bounds the event below as the view
asks. -/
theorem above_of_accepts (ha : (field, a) ∈ constraints mv) (number : a.asNumber = some x)
    (lo : iv.lo = some c) (tight : TighterLo c ⟨x, strict⟩)
    (accepted : intervalAccepts (flatten query .empty) field iv = true) :
    ∃ v, resolveField event field = some v ∧ Above v a strict := by
  rw [intervalAccepts, Bool.or_eq_true] at accepted
  rcases accepted with byRange | bySet
  · cases found : (flatten query .empty).intervals.lookup field with
    | none => rw [found] at byRange; exact absurd byRange (by simp)
    | some qi =>
      simp only [found, Bool.and_eq_true] at byRange
      rw [lo] at byRange
      obtain ⟨cq, qlo, within⟩ := loWithin_spec byRange.1
      obtain ⟨b, hb, numberB, v, resolved, above⟩ := query_lower search holds found qlo
      exact ⟨v, resolved, above.transfer number numberB (within.trans tight)
        (alike_of_rank faithful ha hb number numberB)⟩
  · cases found : (flatten query .empty).sets.lookup field with
    | none => rw [found] at bySet; exact absurd bySet (by simp)
    | some qs =>
      simp only [found] at bySet
      obtain ⟨v, u, num, resolved, hu, numberU, same, inside⟩ :=
        query_point search faithful holds found bySet
      exact ⟨v, resolved, (Above.of_eq same).transfer number numberU
        (((pointIn_spec inside).1 c lo).trans tight) (alike_of_rank faithful ha hu number numberU)⟩

/-- A range of the view that the query meets bounds the event above as the view
asks. -/
theorem below_of_accepts (ha : (field, a) ∈ constraints mv) (number : a.asNumber = some x)
    (hi : iv.hi = some c) (tight : TighterHi c ⟨x, strict⟩)
    (accepted : intervalAccepts (flatten query .empty) field iv = true) :
    ∃ v, resolveField event field = some v ∧ Below v a strict := by
  rw [intervalAccepts, Bool.or_eq_true] at accepted
  rcases accepted with byRange | bySet
  · cases found : (flatten query .empty).intervals.lookup field with
    | none => rw [found] at byRange; exact absurd byRange (by simp)
    | some qi =>
      simp only [found, Bool.and_eq_true] at byRange
      rw [hi] at byRange
      obtain ⟨cq, qhi, within⟩ := hiWithin_spec byRange.2
      obtain ⟨b, hb, numberB, v, resolved, below⟩ := query_upper search holds found qhi
      exact ⟨v, resolved, below.transfer number numberB (within.trans tight)
        (alike_of_rank faithful ha hb number numberB)⟩
  · cases found : (flatten query .empty).sets.lookup field with
    | none => rw [found] at bySet; exact absurd bySet (by simp)
    | some qs =>
      simp only [found] at bySet
      obtain ⟨v, u, num, resolved, hu, numberU, same, inside⟩ :=
        query_point search faithful holds found bySet
      exact ⟨v, resolved, (Below.of_eq same).transfer number numberU
        (((pointIn_spec inside).2 c hi).trans tight) (alike_of_rank faithful ha hu number numberU)⟩

/-- A value set of the view that the query lands in contains the event's value,
for every atom that contributed to it. -/
theorem equalsAny_of_accepts {s : String × List Literal}
    (hs : s ∈ setAtoms mv) (merged : (flatten mv .empty).sets.lookup s.1 = some vals)
    (accepted : setAccepts (flatten query .empty) s.1 vals = true) :
    equalsAny event s.1 s.2 := by
  have inAtom : ∀ k n, vals.lookup k = some n → ∃ u ∈ s.2, (s.1, u) ∈ constraints mv ∧
      literalKey u = k ∧ ∀ num, n = some num → ∃ x, u.asNumber = some x ∧ x.rank = num.rank := by
    intro k n entry
    obtain ⟨t, ht, path, w, hw, constrainedW, rfl, rfl⟩ := set_entry merged entry
    obtain ⟨u, hu, key⟩ := faithful.agreeing t ht s hs path w hw
    obtain ⟨atom, listed, isSet⟩ := mem_filterMap.mp hs
    have constrainedU := mem_constraints_set listed isSet hu
    refine ⟨u, hu, constrainedU, key, fun num number => ?_⟩
    have twins := alike_of_key faithful (mem_append_left _ constrainedU)
      (mem_append_left _ constrainedW) key
    rcases literalKey_eq key with ⟨x, y, numberU, numberW⟩ | ⟨text, rfl⟩
    · exact ⟨x, numberU, Literal.rank_eq_of_alike twins numberU number⟩
    · rw [text] at number
      exact absurd number (by simp)
  rw [setAccepts, Bool.or_eq_true] at accepted
  rcases accepted with bySet | byPoint
  · cases found : (flatten query .empty).sets.lookup s.1 with
    | none => rw [found] at bySet; exact absurd bySet (by simp)
    | some qs =>
      simp only [found] at bySet
      obtain ⟨v, w, resolved, hw, same, present⟩ := query_set search holds found
      obtain ⟨n, entry⟩ := Option.isSome_iff_exists.mp (AList.lookup_isSome.mpr present)
      have inVals := of_decide_eq_true
        (all_eq_true.mp bySet _ (AList.mem_lookup_iff.mp entry))
      obtain ⟨m, mergedEntry⟩ := Option.isSome_iff_exists.mp (AList.lookup_isSome.mpr inVals)
      obtain ⟨u, hu, constrainedU, key, -⟩ := inAtom _ m mergedEntry
      have twins := alike_of_key faithful (mem_append_left _ constrainedU)
        (mem_append_right _ hw) key
      exact ⟨v, resolved, u, hu, by rw [compareValue_alike twins, same]⟩
  · cases found : (flatten query .empty).intervals.lookup s.1 with
    | none => rw [found] at byPoint; exact absurd byPoint (by simp)
    | some qi =>
      simp only [found] at byPoint
      cases point : asPoint qi with
      | none => rw [point] at byPoint; exact absurd byPoint (by simp)
      | some p =>
        simp only [point, any_eq_true] at byPoint
        obtain ⟨⟨k, n⟩, member, equal⟩ := byPoint
        cases n with
        | none => exact absurd equal (by simp)
        | some num =>
          obtain ⟨u, hu, constrainedU, -, numbered⟩ :=
            inAtom k (some num) (AList.mem_lookup_iff.mpr member)
          obtain ⟨x, numberU, rankU⟩ := numbered num rfl
          have rankNum : num.rank = p.rank := (Double.beq_iff _ _).mp equal
          obtain ⟨lo, hi, hlo, hhi, rankLo, rankHi⟩ := asPoint_spec point
          obtain ⟨b, hb, numberB, v, resolved, o, compared, notLt, -⟩ :=
            query_lower search holds found hlo
          obtain ⟨d, hd, numberD, v', resolved', o', compared', notGt, -⟩ :=
            query_upper search holds found hhi
          have twinsB := alike_of_rank faithful constrainedU hb numberU numberB
            (by rw [rankU, rankNum]; exact rankLo.symm)
          have twinsD := alike_of_rank faithful constrainedU hd numberU numberD
            (by rw [rankU, rankNum]; exact rankHi.symm)
          rw [← compareValue_alike twinsB] at compared
          rw [← compareValue_alike twinsD] at compared'
          refine ⟨v, resolved, u, hu, ?_⟩
          cases o <;> simp_all

omit holds in
/-- Containment of faithful conjunctions is sound. -/
theorem conjSubsumes_sound (subsumed : conjSubsumes mv query = true)
    (holds : evaluate search query event = true) : evaluate search mv event = true := by
  simp only [conjSubsumes, Bool.and_eq_true, all_eq_true] at subsumed
  obtain ⟨⟨ranges, sets⟩, residuals⟩ := subsumed
  rw [evaluate_conjuncts]
  intro atom listed
  have rangeOf : ∀ field iv, (flatten mv .empty).intervals.lookup field = some iv →
      intervalAccepts (flatten query .empty) field iv = true :=
    fun field iv found => ranges ⟨field, iv⟩ (AList.mem_lookup_iff.mp found)
  have lower : ∀ field literal c, lowerBound? atom = some (field, literal, c) →
      ∃ v, resolveField event field = some v ∧ Above v literal c.strict := by
    intro field literal c bound
    have number := lowerBound_number bound
    obtain ⟨iv, c', found, lo, tight⟩ := flatten_lower listed bound .empty
    exact above_of_accepts search faithful holds (mem_constraints_lower listed bound) number lo
      tight (rangeOf field iv found)
  have upper : ∀ field literal c, upperBound? atom = some (field, literal, c) →
      ∃ v, resolveField event field = some v ∧ Below v literal c.strict := by
    intro field literal c bound
    have number := upperBound_number bound
    obtain ⟨iv, c', found, hi, tight⟩ := flatten_upper listed bound .empty
    exact below_of_accepts search faithful holds (mem_constraints_upper listed bound) number hi
      tight (rangeOf field iv found)
  have ranged : ∀ field literal c, lowerBound? atom = some (field, literal, c) ∨
      upperBound? atom = some (field, literal, c) → evaluate search atom event = true := by
    intro field literal c bound
    have resolved : ∃ v, resolveField event field = some v := by
      rcases bound with bound | bound
      · exact (lower field literal c bound).imp fun v h => h.1
      · exact (upper field literal c bound).imp fun v h => h.1
    obtain ⟨v, resolved⟩ := resolved
    refine evaluate_of_bounds search bound resolved (fun d hd => ?_) (fun d hd => ?_)
    · obtain ⟨v', resolved', above⟩ := lower field literal d hd
      obtain rfl : v = v' := Option.some.inj (resolved.symm.trans resolved')
      exact above
    · obtain ⟨v', resolved', below⟩ := upper field literal d hd
      obtain rfl : v = v' := Option.some.inj (resolved.symm.trans resolved')
      exact below
  cases isSet : setAtom? atom with
  | some s =>
    obtain ⟨field, values⟩ := s
    have hs : (field, values) ∈ setAtoms mv := mem_filterMap.mpr ⟨atom, listed, isSet⟩
    have present := flatten_setAtom listed isSet (faithful.filled _ hs) .empty
    obtain ⟨vals, found⟩ := Option.isSome_iff_exists.mp (AList.lookup_isSome.mpr present)
    exact (evaluate_setAtom search isSet event).mpr
      (equalsAny_of_accepts search faithful holds hs found
        (sets ⟨field, vals⟩ (AList.mem_lookup_iff.mp found)))
  | none =>
    cases lowerBound : lowerBound? atom with
    | some b => exact ranged b.1 b.2.1 b.2.2 (.inl lowerBound)
    | none =>
      cases upperBound : upperBound? atom with
      | some b => exact ranged b.1 b.2.1 b.2.2 (.inr upperBound)
      | none =>
        have residual := isOpaque_of_none listed isSet lowerBound upperBound
        have copied : atom.toText ∈ (flatten query .empty).residual := by
          simpa using residuals _ (flatten_residual listed residual .empty)
        obtain ⟨twin, listedTwin, residualTwin, text⟩ :=
          (sourced_flatten (sourced_empty _) fun _ h => h).residual _ copied
        rw [evaluate_alike search (faithful.residuals atom
          (mem_filter.mpr ⟨listed, residual⟩) twin
          (mem_filter.mpr ⟨listedTwin, residualTwin⟩) text.symm)]
        exact (evaluate_conjuncts search).mp holds twin listedTwin

omit faithful holds in
/-- The recursion over the `or` of the view compares its branches only. -/
theorem mvSubsumes_sound (faithful : ∀ m ∈ orBranches mv, Faithful m query)
    (subsumed : mvSubsumes mv query = true) (holds : evaluate search query event = true) :
    evaluate search mv event = true := by
  induction mv with
  | or left right ihl ihr =>
    simp only [mvSubsumes, Bool.or_eq_true] at subsumed
    rcases subsumed with whole | inLeft | inRight
    · exact conjSubsumes_sound search (faithful _ mem_cons_self) whole holds
    · have := ihl (fun m hm => faithful m
        (mem_cons_of_mem _ (mem_append_left _ hm))) inLeft
      rw [evaluate, this, Bool.true_or]
    · have := ihr (fun m hm => faithful m
        (mem_cons_of_mem _ (mem_append_right _ hm))) inRight
      rw [evaluate, this, Bool.or_true]
  | _ =>
    simp only [mvSubsumes, Bool.or_false] at subsumed
    exact conjSubsumes_sound search (faithful _ mem_cons_self) subsumed holds

end Soundness

end DFTracer.Query
