/-
# The two evaluators on flat records

A record of named scalars is evaluated as a map of values, for precomputed rows, and as the
JSON object with the same members, in a scan. The map compares numbers of different types,
booleans among them, after converting both to doubles; the scan compares integers exactly
and booleans with booleans only. The scan also reads a name as a path.
-/

import DFTracer.Reader.CompiledFilter

namespace DFTracer.Reader

open Query DFTracer.Math.Float64 List

/-- A record: named scalars. -/
abbrev FlatRecord := List (String × Literal)

theorem int64_fits (n : Int64) : -(2 ^ 63) ≤ n.toInt ∧ n.toInt < 2 ^ 64 := by
  have low := n.le_toInt
  have high := n.toInt_lt
  omega

/-- The JSON value of a scalar. -/
def scalarJson : Literal → JsonValue
  | .string s => .string s
  | .int64 n => .int ⟨n.toInt, int64_fits n⟩
  | .uint64 n => .int ⟨n.toNat, uint64_fits n⟩
  | .double d => .double d
  | .bool b => .bool b

namespace FlatRecord

/-- The record as a map of values. -/
def valueMap (r : FlatRecord) : ValueMap := fun name => r.lookup name

/-- The record as a JSON object. -/
def json (r : FlatRecord) : JsonValue :=
  .object (r.map fun (name, value) => (name, scalarJson value))

end FlatRecord

/-- One is a boolean and the other a number. -/
def BoolAgainstNumber : Literal → Literal → Prop
  | .bool _, b => b.asNumber.isSome = true
  | a, .bool _ => a.asNumber.isSome = true
  | _, _ => False

/-- A signed and an unsigned integer that differ and are the same double. -/
def MergedByDouble : Literal → Literal → Prop
  | .int64 a, .uint64 b => (int64Double a).rank = (uint64Double b).rank ∧ a.toInt ≠ b.toNat
  | .uint64 a, .int64 b => (uint64Double a).rank = (int64Double b).rank ∧ (a.toNat : Int) ≠ b.toInt
  | _, _ => False

/-- Two integers compare as their doubles unless these are the same. -/
theorem compare_rank_iff {a b : Int} {x y : Double} (hx : x.rank = intRank a)
    (hy : y.rank = intRank b) :
    compare x.rank y.rank = compare a b ↔ ¬ (x.rank = y.rank ∧ a ≠ b) := by
  rcases Int.lt_trichotomy a b with h | h | h
  · rw [compare_lt_iff_lt.mpr h, compare_lt_iff_lt]
    have hmono := intRank_mono (show a ≤ b by omega)
    constructor
    · intro hlt
      omega
    · intro hn
      omega
  · subst h
    rw [hx, hy]
    simp
  · rw [compare_gt_iff_gt.mpr h, compare_gt_iff_gt]
    have hmono := intRank_mono (show b ≤ a by omega)
    constructor
    · intro hlt
      omega
    · intro hn
      omega

theorem compareLiterals_mixed {a b : Literal} {x y : Double} {m n : Int}
    (hmap : compareLiterals a b = some (compareDouble x y)) (ha : (scalarJson a).exactInt = some m)
    (hb : b.exactInt = some n) (hx : x.rank = intRank m) (hy : y.rank = intRank n) :
    compareLiterals a b = compareValue (scalarJson a) b ↔ ¬ (x.rank = y.rank ∧ m ≠ n) := by
  rw [hmap, compareValue_exact ha hb, compareDouble_eq, Option.some.injEq]
  exact compare_rank_iff hx hy

/-- A scalar compares to a literal in the map as in the scan, unless a boolean meets a
number, or integers of different signedness are taken for the same double. -/
theorem compareLiterals_iff (a b : Literal) :
    compareLiterals a b = compareValue (scalarJson a) b ↔
      ¬ BoolAgainstNumber a b ∧ ¬ MergedByDouble a b := by
  have same {a b : Literal} (h : compareLiterals a b = compareValue (scalarJson a) b)
      (hbool : ¬ BoolAgainstNumber a b) (hmerge : ¬ MergedByDouble a b) :
      compareLiterals a b = compareValue (scalarJson a) b ↔
        ¬ BoolAgainstNumber a b ∧ ¬ MergedByDouble a b :=
    ⟨fun _ => ⟨hbool, hmerge⟩, fun _ => h⟩
  have apart {a b : Literal} (h : compareLiterals a b ≠ compareValue (scalarJson a) b)
      (hbool : BoolAgainstNumber a b) :
      compareLiterals a b = compareValue (scalarJson a) b ↔
        ¬ BoolAgainstNumber a b ∧ ¬ MergedByDouble a b :=
    ⟨fun he => absurd he h, fun hn => absurd hbool hn.1⟩
  have doubles {a b : Literal} {x y : Double}
      (hmap : compareLiterals a b = some (compareDouble x y))
      (ha : (scalarJson a).asDouble = some x) (hb : b.asNumber = some y)
      (inexact : (scalarJson a).exactInt = none ∨ b.exactInt = none) :
      compareLiterals a b = compareValue (scalarJson a) b := by
    rw [hmap, compareValue_inexact ha hb inexact, compareDouble_eq]
  cases a with
  | string s =>
    cases b with
    | bool w => exact same rfl Bool.false_ne_true id
    | _ => exact same rfl id id
  | bool v =>
    cases b with
    | string s | bool w => exact same rfl Bool.false_ne_true id
    | _ => exact apart (by simp [compareLiterals, asArithmetic, Literal.asNumber, scalarJson,
        compareValue, JsonValue.asInt, JsonValue.asUint, JsonValue.asDouble]) rfl
  | int64 m =>
    cases b with
    | string s => exact same rfl id id
    | bool w => exact apart (by simp [compareLiterals, asArithmetic, Literal.asNumber, scalarJson,
        compareValue]) rfl
    | int64 n => exact same (compareValue_exact rfl rfl).symm id id
    | uint64 n =>
      rw [compareLiterals_mixed (x := int64Double m) (y := uint64Double n) rfl rfl rfl
        (Double.rank_ofInt _ _) (Double.rank_ofInt _ _)]
      exact ⟨fun h => ⟨id, h⟩, fun h => h.2⟩
    | double d => exact same (doubles rfl rfl rfl (.inr rfl)) id id
  | uint64 m =>
    cases b with
    | string s => exact same rfl id id
    | bool w => exact apart (by simp [compareLiterals, asArithmetic, Literal.asNumber, scalarJson,
        compareValue]) rfl
    | int64 n =>
      rw [compareLiterals_mixed (x := uint64Double m) (y := int64Double n) rfl rfl rfl
        (Double.rank_ofInt _ _) (Double.rank_ofInt _ _)]
      exact ⟨fun h => ⟨id, h⟩, fun h => h.2⟩
    | uint64 n =>
      refine same ?_ id id
      rw [compareValue_exact (n := (m.toNat : Int)) (m := (n.toNat : Int)) rfl rfl]
      exact congrArg some (compare_natCast _ _).symm
    | double d => exact same (doubles rfl rfl rfl (.inr rfl)) id id
  | double d =>
    cases b with
    | string s => exact same rfl id id
    | bool w => exact apart (by simp [compareLiterals, asArithmetic, Literal.asNumber, scalarJson,
        compareValue]) rfl
    | double e => exact same rfl id id
    | int64 n | uint64 n => exact same (doubles rfl rfl rfl (.inl rfl)) id id

/-! ## What a query asks -/

/-- The fields that a query compares. -/
def comparedFields : QueryNode → List FieldNode
  | .compare field _ _ => [field]
  | .isIn field _ => [field]
  | .notIn field _ => [field]
  | .matches _ _ _ _ => []
  | .and left right => comparedFields left ++ comparedFields right
  | .or left right => comparedFields left ++ comparedFields right
  | .not operand => comparedFields operand

/-- The literals that it compares them with. -/
def comparands : QueryNode → List (FieldNode × Literal)
  | .compare field _ value => [(field, value)]
  | .isIn field values => values.map (field, ·)
  | .notIn field values => values.map (field, ·)
  | .matches _ _ _ _ => []
  | .and left right => comparands left ++ comparands right
  | .or left right => comparands left ++ comparands right
  | .not operand => comparands operand

/-- The patterns that it searches for. -/
def patterns : QueryNode → List (FieldNode × MatchOp × String)
  | .matches field op pattern _ => [(field, op, pattern)]
  | .and left right => patterns left ++ patterns right
  | .or left right => patterns left ++ patterns right
  | .not operand => patterns operand
  | _ => []

/-- A query that asks nothing that the other one does not ask. -/
structure Within (query q : QueryNode) : Prop where
  fields : ∀ f ∈ comparedFields q, f ∈ comparedFields query
  comparands : ∀ c ∈ comparands q, c ∈ comparands query
  patterns : ∀ m ∈ patterns q, m ∈ patterns query

/-- The text of a scalar. -/
def literalText : Literal → Option String
  | .string s => some s
  | _ => none

/-- The text of a JSON value. -/
def jsonText : JsonValue → Option String
  | .string s => some s
  | _ => none

section Agree

variable (search : MatchOp → String → String → Bool) (r : FlatRecord)

/-- The map and the scan find the same fields, no boolean meets a number, no two integers
are taken for the same double, and where a path finds another value than the field of that
name, it compares and matches alike. -/
structure SeenAlike (query : QueryNode) : Prop where
  found : ∀ f ∈ comparedFields query,
    (r.lookup f.path).isSome = (resolveField r.json f.path).isSome
  own : ∀ c ∈ comparands query, ∀ a, r.lookup c.1.path = some a →
    resolveField r.json c.1.path = some (scalarJson a) →
      ¬ BoolAgainstNumber a c.2 ∧ ¬ MergedByDouble a c.2
  other : ∀ c ∈ comparands query, ∀ a j, r.lookup c.1.path = some a →
    resolveField r.json c.1.path = some j → j ≠ scalarJson a →
      compareLiterals a c.2 = compareValue j c.2
  texts : ∀ m ∈ patterns query,
    ((r.lookup m.1.path).bind literalText).map (search m.2.1 m.2.2) =
      ((resolveField r.json m.1.path).bind jsonText).map (search m.2.1 m.2.2)

/-- How a field of the record compares to a literal in the map. -/
def mapOutcome (path : String) (v : Literal) : Option Ordering :=
  (r.lookup path).bind (compareLiterals · v)

/-- And in the scan. -/
def scanOutcome (path : String) (v : Literal) : Option Ordering :=
  (resolveField r.json path).bind (compareValue · v)

variable {r}

section

variable (f : FieldNode)

include f

theorem evalMapNode_compare (op : CompareOp) (v : Literal) :
    evalMapNode search r.valueMap (.compare f op v) = applyCompare op (mapOutcome r f.path v) := by
  simp only [evalMapNode, FlatRecord.valueMap, mapOutcome]
  cases r.lookup f.path <;> rfl

theorem evaluate_compare (op : CompareOp) (v : Literal) :
    evaluate search (.compare f op v) r.json = applyCompare op (scanOutcome r f.path v) := by
  simp only [evaluate, scanOutcome]
  cases resolveField r.json f.path <;> rfl

section

variable (vs : List Literal)

include vs

theorem evalMapNode_isIn :
    evalMapNode search r.valueMap (.isIn f vs) =
      vs.any fun v => mapOutcome r f.path v == some .eq := by
  simp only [evalMapNode, FlatRecord.valueMap, mapOutcome]
  cases r.lookup f.path <;> simp

theorem evaluate_isIn :
    evaluate search (.isIn f vs) r.json = vs.any fun v => scanOutcome r f.path v == some .eq := by
  simp only [evaluate, scanOutcome]
  cases resolveField r.json f.path <;> simp

theorem evalMapNode_notIn :
    evalMapNode search r.valueMap (.notIn f vs) = ((r.lookup f.path).isSome &&
      !vs.any fun v => mapOutcome r f.path v == some .eq) := by
  simp only [evalMapNode, FlatRecord.valueMap, mapOutcome]
  cases r.lookup f.path <;> simp

theorem evaluate_notIn :
    evaluate search (.notIn f vs) r.json = ((resolveField r.json f.path).isSome &&
      !vs.any fun v => scanOutcome r f.path v == some .eq) := by
  simp only [evaluate, scanOutcome]
  cases resolveField r.json f.path <;> simp

end

theorem evalMapNode_matches (op : MatchOp) (pattern : String) (negated : Bool) :
    evalMapNode search r.valueMap (.matches f op pattern negated) =
      (((r.lookup f.path).bind literalText).map (search op pattern)).any (· != negated) := by
  simp only [evalMapNode, FlatRecord.valueMap]
  cases r.lookup f.path with
  | none => rfl
  | some a => cases a <;> cases negated <;> simp [literalText]

theorem evaluate_matches (op : MatchOp) (pattern : String) (negated : Bool) :
    evaluate search (.matches f op pattern negated) r.json =
      (((resolveField r.json f.path).bind jsonText).map (search op pattern)).any (· != negated) := by
  simp only [evaluate]
  cases resolveField r.json f.path with
  | none => rfl
  | some a => cases a <;> cases negated <;> simp [jsonText]

end

/-- The comparison operators tell outcomes apart. -/
theorem outcome_eq {x y : Option Ordering} (h : ∀ op, applyCompare op x = applyCompare op y) :
    x = y := by
  have heq := h .eq
  have hne := h .ne
  have hlt := h .lt
  revert heq hne hlt
  cases x with
  | none =>
    cases y with
    | none => exact fun _ _ _ => rfl
    | some o => cases o <;> decide
  | some o =>
    cases y with
    | none => cases o <;> decide
    | some o' => cases o <;> cases o' <;> decide

/-- So do a pattern and its negation. -/
theorem found_eq {x y : Option Bool} (h : ∀ negated, x.any (· != negated) = y.any (· != negated)) :
    x = y := by
  have plain := h false
  have negated := h true
  cases x with
  | none =>
    cases y with
    | none => rfl
    | some b => cases b <;> simp at plain negated
  | some a =>
    cases y with
    | none => cases a <;> simp at plain negated
    | some b => cases a <;> cases b <;> simp at plain negated ⊢

variable {search} {query : QueryNode}

section

variable (h : SeenAlike search r query) {f : FieldNode}

include h

theorem SeenAlike.outcome {v : Literal}
    (hf : f ∈ comparedFields query) (hc : (f, v) ∈ comparands query) :
    mapOutcome r f.path v = scanOutcome r f.path v := by
  have hfound := h.found f hf
  unfold mapOutcome scanOutcome
  cases hmap : r.lookup f.path with
  | none =>
    rw [hmap] at hfound
    cases hscan : resolveField r.json f.path with
    | none => rfl
    | some j =>
      rw [hscan] at hfound
      cases hfound
  | some a =>
    rw [hmap] at hfound
    cases hscan : resolveField r.json f.path with
    | none =>
      rw [hscan] at hfound
      cases hfound
    | some j =>
      by_cases hj : j = scalarJson a
      · subst hj
        exact (compareLiterals_iff a v).mpr (h.own (f, v) hc a hmap hscan)
      · exact h.other (f, v) hc a j hmap hscan hj

theorem SeenAlike.any_eq (hf : f ∈ comparedFields query) {vs : List Literal}
    (hc : ∀ v ∈ vs, (f, v) ∈ comparands query) :
    (vs.any fun v => mapOutcome r f.path v == some .eq) =
      vs.any fun v => scanOutcome r f.path v == some .eq := by
  induction vs with
  | nil => rfl
  | cons v vs ih =>
    rw [any_cons, any_cons, h.outcome hf (hc v mem_cons_self),
      ih fun w hw => hc w (mem_cons_of_mem v hw)]

/-- Seen alike, a query is evaluated alike. -/
theorem SeenAlike.evaluate_eq {q : QueryNode} (hq : Within query q) :
    evalMapNode search r.valueMap q = evaluate search q r.json := by
  induction q with
  | compare f op v =>
    rw [evalMapNode_compare, evaluate_compare,
      h.outcome (hq.fields f mem_cons_self) (hq.comparands _ mem_cons_self)]
  | isIn f vs =>
    rw [evalMapNode_isIn, evaluate_isIn, h.any_eq (hq.fields f mem_cons_self)]
    exact fun v hv => hq.comparands _ (mem_map_of_mem hv)
  | notIn f vs =>
    rw [evalMapNode_notIn, evaluate_notIn, h.found f (hq.fields f mem_cons_self),
      h.any_eq (hq.fields f mem_cons_self)]
    exact fun v hv => hq.comparands _ (mem_map_of_mem hv)
  | «matches» f op pattern negated =>
    rw [evalMapNode_matches, evaluate_matches, h.texts _ (hq.patterns _ mem_cons_self)]
  | and left right ihl ihr | or left right ihl ihr =>
    have hl : Within query left := ⟨fun f hf => hq.fields f (mem_append_left _ hf),
      fun c hc => hq.comparands c (mem_append_left _ hc),
      fun m hm => hq.patterns m (mem_append_left _ hm)⟩
    have hr : Within query right := ⟨fun f hf => hq.fields f (mem_append_right _ hf),
      fun c hc => hq.comparands c (mem_append_right _ hc),
      fun m hm => hq.patterns m (mem_append_right _ hm)⟩
    rw [evalMapNode, evaluate, ihl hl, ihr hr]
  | not operand ih =>
    rw [evalMapNode, evaluate, ih ⟨hq.fields, hq.comparands, hq.patterns⟩]

end

/-- The compared literals belong to compared fields. -/
theorem field_of_comparand {q : QueryNode} {c : FieldNode × Literal} (hc : c ∈ comparands q) :
    c.1 ∈ comparedFields q := by
  induction q with
  | compare f op v =>
    rw [mem_singleton.mp hc]
    exact mem_cons_self
  | isIn f vs | notIn f vs =>
    obtain ⟨v, _, rfl⟩ := mem_map.mp hc
    exact mem_cons_self
  | «matches» f op pattern negated => cases hc
  | and left right ihl ihr | or left right ihl ihr =>
    rcases mem_append.mp hc with hc | hc
    · exact mem_append_left _ (ihl hc)
    · exact mem_append_right _ (ihr hc)
  | not operand ih => exact ih hc

/-- The evaluators agree on all that can be asked of the fields, literals and patterns of a
query exactly when these are seen alike. -/
theorem evaluators_agree_iff (search : MatchOp → String → String → Bool) (r : FlatRecord)
    (query : QueryNode) :
    (∀ q, Within query q → evalMapNode search r.valueMap q = evaluate search q r.json) ↔
      SeenAlike search r query := by
  constructor
  · intro agree
    have found : ∀ f ∈ comparedFields query,
        (r.lookup f.path).isSome = (resolveField r.json f.path).isSome := by
      intro f hf
      have h := agree (.notIn f []) ⟨fun g hg => mem_singleton.mp hg ▸ hf,
        fun c hc => (not_mem_nil hc).elim, fun m hm => (not_mem_nil hm).elim⟩
      rw [evalMapNode_notIn, evaluate_notIn] at h
      simpa using h
    have outcome : ∀ c ∈ comparands query,
        mapOutcome r c.1.path c.2 = scanOutcome r c.1.path c.2 := by
      intro c hc
      apply outcome_eq
      intro op
      have h := agree (.compare c.1 op c.2)
        ⟨fun g hg => mem_singleton.mp hg ▸ field_of_comparand hc,
          fun c' hc' => mem_singleton.mp hc' ▸ hc, fun m hm => (not_mem_nil hm).elim⟩
      rwa [evalMapNode_compare, evaluate_compare] at h
    have bound : ∀ c ∈ comparands query, ∀ a j, r.lookup c.1.path = some a →
        resolveField r.json c.1.path = some j → compareLiterals a c.2 = compareValue j c.2 := by
      intro c hc a j ha hj
      have h := outcome c hc
      unfold mapOutcome scanOutcome at h
      rwa [ha, hj] at h
    refine ⟨found, ?_, fun c hc a j ha hj _ => bound c hc a j ha hj, ?_⟩
    · intro c hc a ha hj
      exact (compareLiterals_iff a c.2).mp (bound c hc a _ ha hj)
    · intro m hm
      apply found_eq
      intro negated
      have h := agree (.matches m.1 m.2.1 m.2.2 negated)
        ⟨fun g hg => (not_mem_nil hg).elim, fun c hc => (not_mem_nil hc).elim,
          fun m' hm' => mem_singleton.mp hm' ▸ hm⟩
      rwa [evalMapNode_matches, evaluate_matches] at h
  · exact fun h q hq => h.evaluate_eq hq

end Agree

/-- A record of one flag. -/
def flagged : FlatRecord := [("flag", .bool true)]

theorem nonempty_flag : "flag" ≠ "" := by
  decide

/-- `flag == 1` holds of the map and not of the JSON object. -/
theorem flagged_disagree :
    evalMapNode (fun _ _ _ => false) flagged.valueMap
        (.compare ⟨"flag", nonempty_flag⟩ .eq (.int64 1)) = true ∧
      evaluate (fun _ _ _ => false) (.compare ⟨"flag", nonempty_flag⟩ .eq (.int64 1))
        flagged.json = false := by
  decide

end DFTracer.Reader
