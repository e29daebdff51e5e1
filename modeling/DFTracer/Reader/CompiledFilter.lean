/-
# The filters of the reader

The reader decides a query on a document it parses on demand, without building the tree that the
evaluator walks. A conjunction of equalities is compiled to probes, each of which looks one member
up. For any other query the fields it names are collected into a flat map. Each strategy finds the
value of a field by a rule of its own.
-/

import DFTracer.Reader.Prefilter

namespace DFTracer.Reader

open Query Math.Float64 List

/-- A compiled equality. An empty `nestedKey` probes the top-level member itself. -/
structure CompiledEqProbe where
  topKey : String
  nestedKey : String
  value : Literal

/-- `is_top_level_event_key`. -/
def isTopLevelEventKey (key : String) : Bool :=
  ["id", "name", "cat", "pid", "tid", "ts", "dur", "ph"].contains key

/-- Where `compile_eq_leaf` looks a path up: a bare name at the top when it is a name
of the schema and under `args` otherwise, a name with one dot under its first part. -/
def probeKeys (path : String) : Option (String × String) :=
  let top := path.toList.takeWhile (· != '.')
  match path.toList.drop top.length with
  | [] => if isTopLevelEventKey path then some (path, "") else some ("args", path)
  | _ :: nested => if nested.contains '.' then none else some (.ofList top, .ofList nested)

/-- `try_compile_eq_probes`, nothing for a query of another shape. -/
def tryCompileEqProbes : QueryNode → Option (List CompiledEqProbe)
  | .compare field .eq value => (probeKeys field.path).map fun keys => [⟨keys.1, keys.2, value⟩]
  | .and left right =>
    (tryCompileEqProbes left).bind fun l => (tryCompileEqProbes right).map (l ++ ·)
  | _ => none

/-- `probe_matches_value`. -/
def probeMatchesValue : Literal → JsonValue → Bool
  | .string s, .string t => t == s
  | .int64 n, .int k =>
    if k.val < 2 ^ 63 then k.val == n.toInt
    else if n.toInt < 0 then false else k.val == n.toInt
  | .int64 n, .double d => d == int64Double n
  | .uint64 n, .int k => if k.val < 0 then false else k.val == n.toNat
  | .uint64 n, .double d => d == uint64Double n
  | .double x, .int k => k.toDouble == x
  | .double x, .double d => d == x
  | .bool b, .bool v => v == b
  | _, _ => false

/-- `find_field_unordered` of the on-demand parser after a rewind: the first member
whose name is written as the key, escapes not undone. -/
def findField (key : String) : Members → Option JsonText
  | .nil => none
  | .cons _ name _ _ member _ rest =>
    if name.flatMap Glyph.text = key.toList then some member else findField key rest

/-- The lookup on a value that may not be an object. -/
def lookupField (key : String) : JsonText → Option JsonText
  | .object _ members => findField key members
  | _ => none

/-- The value a probe looks at. -/
def probeTarget (event : JsonText) (keys : String × String) : Option JsonText :=
  (lookupField keys.1 event).bind fun top =>
    if keys.2 = "" then some top else lookupField keys.2 top

/-- `eval_compiled_eq`. -/
def evalCompiledEq (probes : List CompiledEqProbe) (event : JsonText) : Bool :=
  probes.all fun probe =>
    match probeTarget event (probe.topKey, probe.nestedKey) with
    | some found => probeMatchesValue probe.value found.value
    | none => false

/-! ## Collected fields -/

/-- `collect_fields`: the field paths of a query. -/
def collectFields : QueryNode → List String
  | .compare field _ _ => [field.path]
  | .isIn field _ => [field.path]
  | .notIn field _ => [field.path]
  | .matches field _ _ _ => [field.path]
  | .and left right => collectFields left ++ collectFields right
  | .or left right => collectFields left ++ collectFields right
  | .not operand => collectFields operand

/-- The flat map of field values. -/
abbrev ValueMap := String → Option Literal

/-- `ondemand_to_literal`: anything that is no scalar becomes the empty string. -/
def ondemandToLiteral : JsonValue → Literal
  | .string s => .string s
  | .int n => if n.val < 2 ^ 63 then .int64 (.ofInt n.val) else .uint64 (.ofNat n.val.toNat)
  | .double d => .double d
  | .bool b => .bool b
  | .null | .array _ | .object _ => .string ""

section Collect

-- the fields of the query
variable (references : List String)

/-- `query_references_dotted`. -/
def referencesDotted : Bool := references.any fun field => field.toList.contains '.'

/-- `store_referenced_nested`. -/
def storeReferencedNested (parent child : String) (value : JsonValue) (fields : ValueMap) : ValueMap :=
  let dotted := parent ++ "." ++ child
  let fields :=
    if references.contains child then Function.update fields child (some (ondemandToLiteral value))
    else fields
  if referencesDotted references && references.contains dotted then
    Function.update fields dotted (some (ondemandToLiteral value))
  else fields

/-- The members of a top-level object. -/
def collectNested (parent : String) : Members → ValueMap → ValueMap
  | .nil, fields => fields
  | .cons _ name _ _ member _ rest, fields =>
    collectNested parent rest
      (storeReferencedNested references parent (glyphsString name) member.value fields)

/-- One top-level member. -/
def collectMember (name : String) (member : JsonText) (fields : ValueMap) : ValueMap :=
  match member with
  | .object _ nested => collectNested references name nested fields
  | _ =>
    if references.contains name then
      Function.update fields name (some (ondemandToLiteral member.value))
    else fields

/-- The loop of `collect_query_fields` over the top-level members. -/
def collectMembers : Members → ValueMap → ValueMap
  | .nil, fields => fields
  | .cons _ name _ _ member _ rest, fields =>
    collectMembers rest (collectMember references (glyphsString name) member fields)

/-- `collect_query_fields`. -/
def collectQueryFields : JsonText → ValueMap
  | .object _ members => collectMembers references members fun _ => none
  | _ => fun _ => none

end Collect

/-- An arithmetic literal as a double, booleans included. -/
def asArithmetic : Literal → Option Double
  | .bool b => some (uint64Double (if b then 1 else 0))
  | literal => literal.asNumber

/-- `compare_literals`. -/
def compareLiterals : Literal → Literal → Option Ordering
  | .string a, .string b => some (compare a b)
  | .int64 a, .int64 b => some (compare a.toInt b.toInt)
  | .uint64 a, .uint64 b => some (compare a.toNat b.toNat)
  | .double a, .double b => some (compareDouble a b)
  | .bool a, .bool b => some (compare a b)
  | a, b =>
    match asArithmetic a, asArithmetic b with
    | some x, some y => some (compareDouble x y)
    | _, _ => none

section Decide

-- `search op pattern text`: whether the compiled matcher of a pattern finds the text
variable (search : MatchOp → String → String → Bool)

/-- `eval_map_node`. -/
def evalMapNode (fields : ValueMap) : QueryNode → Bool
  | .compare field op value =>
    match fields field.path with
    | some found => applyCompare op (compareLiterals found value)
    | none => false
  | .isIn field values =>
    match fields field.path with
    | some found => values.any fun elem => compareLiterals found elem == some .eq
    | none => false
  | .notIn field values =>
    match fields field.path with
    | some found => !values.any fun elem => compareLiterals found elem == some .eq
    | none => false
  | .matches field op pattern negated =>
    match fields field.path with
    | some (.string text) => if negated then !search op pattern text else search op pattern text
    | _ => false
  | .and left right => evalMapNode fields left && evalMapNode fields right
  | .or left right => evalMapNode fields left || evalMapNode fields right
  | .not operand => !evalMapNode fields operand

/-- The decision by the collected fields. -/
def mapAccepts (query : QueryNode) (event : JsonText) : Bool :=
  evalMapNode search (collectQueryFields (collectFields query) event) query

/-- The decision of `read_arrow`: probes when the query compiles to some. -/
def arrowAccepts (query : QueryNode) (event : JsonText) : Bool :=
  match tryCompileEqProbes query with
  | some (probe :: probes) => evalCompiledEq (probe :: probes) event
  | _ => mapAccepts search query event

end Decide

/-- A probe accepts a value exactly when the evaluator finds it equal. -/
theorem probeMatchesValue_eq (literal : Literal) (value : JsonValue) :
    probeMatchesValue literal value = (compareValue value literal == some .eq) := by
  have doubles : ∀ x y : Double, (x == y) = (some (compareDouble x y) == some .eq) := by
    intro x y
    rw [compareDouble_eq, Bool.eq_iff_iff, Double.beq_iff]
    simp
  cases literal with
  | string s => cases value <;> simp [probeMatchesValue, compareValue]
  | int64 n =>
    cases value with
    | int k =>
      rw [compareValue_exact (n := k.val) (m := n.toInt) rfl rfl]
      simp only [probeMatchesValue]
      split
      · simp
      · split
        · rw [compare_gt_iff_gt.mpr (by omega)]
          rfl
        · simp
    | double d => exact doubles _ _
    | _ => rfl
  | uint64 n =>
    cases value with
    | int k =>
      rw [compareValue_exact (n := k.val) (m := n.toNat) rfl rfl]
      simp only [probeMatchesValue]
      split
      · rw [compare_lt_iff_lt.mpr (by omega)]
        rfl
      · simp
    | double d => exact doubles _ _
    | _ => rfl
  | double x =>
    cases value with
    | int k | double d => exact doubles _ _
    | _ => rfl
  | bool b => cases value <;> simp [probeMatchesValue, compareValue]

def isNull : JsonValue → Bool
  | .null => true
  | _ => false

/-- The probe of a path finds the value that the evaluator resolves, or neither finds
any. A null counts as none. -/
def ProbeAlike (event : JsonText) (path : String) : Prop :=
  ∀ keys ∈ probeKeys path,
    (((probeTarget event keys).map JsonText.value).filter fun value => !isNull value) =
      resolveField event.value path

theorem evalCompiledEq_append (left right : List CompiledEqProbe) (event : JsonText) :
    evalCompiledEq (left ++ right) event = (evalCompiledEq left event && evalCompiledEq right event) :=
  all_append

variable {event : JsonText} {query : QueryNode} {α : Type} {references : List String}
  {path : String} {literal : Literal}

/-- One probe decides its comparison. -/
theorem evalCompiledEq_single (search : MatchOp → String → String → Bool)
    {field : FieldNode} {value : Literal} {keys : String × String}
    (located : probeKeys field.path = some keys) (alike : ProbeAlike event field.path) :
    evalCompiledEq [⟨keys.1, keys.2, value⟩] event =
      evaluate search (.compare field .eq value) event.value := by
  have same := alike keys located
  have equal : ∀ cmp : Option Ordering, applyCompare .eq cmp = (cmp == some .eq) := by
    intro cmp
    cases cmp <;> rfl
  simp only [evalCompiledEq, all_cons, evaluate]
  rw [← same]
  cases target : probeTarget event keys with
  | none => rfl
  | some found =>
    cases null : isNull found.value with
    | true =>
      have dropped : (some found.value).filter (fun value => !isNull value) = none := by
        simp [null]
      have void : probeMatchesValue value found.value = false := by
        cases json : found.value <;> simp [json, isNull] at null
        cases value <;> rfl
      simp [dropped, void]
    | false =>
      have kept : (some found.value).filter (fun value => !isNull value) = some found.value := by
        simp [null]
      simp [kept, equal, probeMatchesValue_eq]

/-- The compiled probes decide the query. -/
theorem evalCompiledEq_eq_evaluate (search : MatchOp → String → String → Bool)
    {probes : List CompiledEqProbe} (compiled : tryCompileEqProbes query = some probes)
    (alike : ∀ path ∈ collectFields query, ProbeAlike event path) :
    evalCompiledEq probes event = evaluate search query event.value := by
  induction query generalizing probes with
  | compare field op value =>
    cases op with
    | eq =>
      obtain ⟨keys, located, rfl⟩ := Option.map_eq_some_iff.mp compiled
      exact evalCompiledEq_single search located (alike field.path (mem_singleton_self _))
    | _ => exact absurd compiled (by simp [tryCompileEqProbes])
  | and left right ihLeft ihRight =>
    obtain ⟨l, compiledLeft, rest⟩ := Option.bind_eq_some_iff.mp compiled
    obtain ⟨r, compiledRight, rfl⟩ := Option.map_eq_some_iff.mp rest
    rw [evalCompiledEq_append, evaluate,
      ihLeft compiledLeft fun path listed => alike path (mem_append_left _ listed),
      ihRight compiledRight fun path listed => alike path (mem_append_right _ listed)]
  | _ => exact absurd compiled (by simp [tryCompileEqProbes])

/-! ## Collected fields against the evaluator -/

/-- The values an event carries under a name, in document order: a top-level member
that is no object, and each member of a top-level object, by its own name and by its
name after that of the object. -/
def nestedSightings (path parent : String) : Members → List JsonValue
  | .nil => []
  | .cons _ name _ _ member _ rest =>
    (if glyphsString name = path then [member.value] else []) ++
      (if parent ++ "." ++ glyphsString name = path then [member.value] else []) ++
      nestedSightings path parent rest

def topSightings (path name : String) (member : JsonText) : List JsonValue :=
  match member with
  | .object _ nested => nestedSightings path name nested
  | _ => if name = path then [member.value] else []

def memberSightings (path : String) : Members → List JsonValue
  | .nil => []
  | .cons _ name _ _ member _ rest =>
    topSightings path (glyphsString name) member ++ memberSightings path rest

def sightings (path : String) : JsonText → List JsonValue
  | .object _ members => memberSightings path members
  | _ => []

section Collected

variable {references : List String} {path : String} (referenced : path ∈ references)

include referenced

theorem storeReferencedNested_at (parent child : String) (value : JsonValue) (fields : ValueMap) :
    storeReferencedNested references parent child value fields path =
      if child = path ∨ parent ++ "." ++ child = path then some (ondemandToLiteral value)
      else fields path := by
  have dotted : parent ++ "." ++ child = path → referencesDotted references = true := by
    rintro rfl
    exact any_eq_true.mpr ⟨_, referenced, by simp⟩
  unfold storeReferencedNested
  by_cases nested : parent ++ "." ++ child = path
  · simp [nested, dotted nested, referenced]
  · by_cases bare : child = path
    · subst bare
      split <;> simp [Function.update_of_ne (Ne.symm nested), referenced]
    · simp only [nested, bare]
      split <;> split <;>
        simp [Function.update_of_ne (Ne.symm nested), Function.update_of_ne (Ne.symm bare)]

end Collected

/-- The last assignment wins, and an earlier value stays when there is none. -/
theorem last_or {β : Type} (f : α → β) (front back : List α) (start : Option β) :
    (back.getLast?.map f).or ((front.getLast?.map f).or start) =
      (((front ++ back).getLast?).map f).or start := by
  rw [getLast?_append]
  cases back.getLast? <;> rfl

theorem collectNested_at (referenced : path ∈ references)
    (parent : String) : ∀ (members : Members) (fields : ValueMap),
    collectNested references parent members fields path =
      ((nestedSightings path parent members).getLast?.map ondemandToLiteral).or (fields path)
  | .nil, _ => rfl
  | .cons _ name _ _ member _ rest, fields => by
    rw [collectNested, collectNested_at referenced parent rest, storeReferencedNested_at referenced,
      nestedSightings, ← last_or]
    congr 1
    by_cases bare : glyphsString name = path
    · simp only [bare, true_or, if_true]
      split <;> rfl
    · by_cases dotted : parent ++ "." ++ glyphsString name = path
      · simp [dotted]
      · simp [bare, dotted]

theorem collectMember_at (referenced : path ∈ references)
    (name : String) (member : JsonText) (fields : ValueMap) :
    collectMember references name member fields path =
      ((topSightings path name member).getLast?.map ondemandToLiteral).or (fields path) := by
  unfold collectMember topSightings
  split
  · exact collectNested_at referenced name _ fields
  · by_cases named : name = path
    · simp [named, referenced]
    · split <;> simp [Function.update_of_ne (Ne.symm named)]

theorem collectMembers_at (referenced : path ∈ references) :
    ∀ (members : Members) (fields : ValueMap), collectMembers references members fields path =
      ((memberSightings path members).getLast?.map ondemandToLiteral).or (fields path)
  | .nil, _ => rfl
  | .cons _ name _ _ member _ rest, fields => by
    rw [collectMembers, collectMembers_at referenced rest, collectMember_at referenced, memberSightings,
      ← last_or]

/-- The map holds the last value the event carries under a field of the query. -/
theorem collectQueryFields_at (referenced : path ∈ references) (event : JsonText) :
    collectQueryFields references event path = (sightings path event).getLast?.map ondemandToLiteral := by
  cases event with
  | object inside members =>
    rw [collectQueryFields, collectMembers_at referenced, Option.or_none]
    rfl
  | _ => rfl

/-- A string, a number or a boolean. -/
def IsScalar : JsonValue → Prop
  | .string _ | .int _ | .double _ | .bool _ => True
  | _ => False

/-- A value and a literal that both orders compare alike: a boolean is not met with a
number, and two integers of different types differ as doubles when they differ. -/
def Comparable (value : JsonValue) (literal : Literal) : Prop :=
  match value, literal with
  | .bool _, .bool _ => True
  | .bool _, .string _ => True
  | .bool _, _ => False
  | .string _, _ => True
  | _, .bool _ => False
  | .int n, .int64 m => n.val < 2 ^ 63 ∨ n.val = m.toInt ∨ intRank n.val ≠ intRank m.toInt
  | .int n, .uint64 m => 2 ^ 63 ≤ n.val ∨ n.val = m.toNat ∨ intRank n.val ≠ intRank m.toNat
  | _, _ => True

/-- Integers whose doubles differ whenever they do are ordered like their doubles. -/
theorem compare_intRank {n m : Int} (apart : n = m ∨ intRank n ≠ intRank m) :
    compare (intRank n) (intRank m) = compare n m := by
  rcases Int.lt_trichotomy n m with below | rfl | above
  · have := intRank_mono (show n ≤ m by omega)
    rw [compare_lt_iff_lt.mpr below, compare_lt_iff_lt.mpr (by omega)]
  · rw [compare_eq_iff_eq.mpr rfl, compare_eq_iff_eq.mpr rfl]
  · have := intRank_mono (show m ≤ n by omega)
    rw [compare_gt_iff_gt.mpr above, compare_gt_iff_gt.mpr (by omega)]

theorem compare_natCast (a b : Nat) : compare (a : Int) (b : Int) = compare a b := by
  rcases Nat.lt_trichotomy a b with h | h | h
  · rw [compare_lt_iff_lt.mpr h, compare_lt_iff_lt.mpr (by omega)]
  · rw [compare_eq_iff_eq.mpr h, compare_eq_iff_eq.mpr (by omega)]
  · rw [compare_gt_iff_gt.mpr h, compare_gt_iff_gt.mpr (by omega)]

/-- An integer of the event against a literal. -/
theorem compareLiterals_int (n : JsonInt) (comparable : Comparable (.int n) literal) :
    compareLiterals (ondemandToLiteral (.int n)) literal = compareValue (.int n) literal := by
  have fits := n.fits
  have signed : n.val < 2 ^ 63 → (Int64.ofInt n.val).toInt = n.val := fun small =>
    Int64.toInt_ofInt_of_le (by omega) small
  have unsigned : 0 ≤ n.val → ((UInt64.ofNat n.val.toNat).toNat : Int) = n.val := by
    intro positive
    rw [UInt64.toNat_ofNat_of_lt' (by simp; omega), Int.toNat_of_nonneg positive]
  have signedDouble : n.val < 2 ^ 63 → int64Double (.ofInt n.val) = n.toDouble := by
    intro small
    simp only [int64Double, JsonInt.toDouble, signed small]
  have unsignedDouble : 0 ≤ n.val → uint64Double (.ofNat n.val.toNat) = n.toDouble := by
    intro positive
    simp only [uint64Double, JsonInt.toDouble, unsigned positive]
  have ranked : ∀ {y : Double} {m : Int}, y.rank = intRank m → (n.val = m ∨ intRank n.val ≠ intRank m) →
      compareDouble n.toDouble y = compare n.val m := by
    intro y m rank apart
    rw [compareDouble_eq, rank, JsonInt.toDouble, Double.rank_ofInt, compare_intRank apart]
  have read : ondemandToLiteral (.int n) =
      if n.val < 2 ^ 63 then .int64 (.ofInt n.val) else .uint64 (.ofNat n.val.toNat) := rfl
  rw [read]
  cases literal with
  | string s => split <;> rfl
  | bool b => exact comparable.elim
  | double d =>
    split
    · rename_i small
      exact congrArg (fun x => some (compareDouble x d)) (signedDouble small)
    · exact congrArg (fun x => some (compareDouble x d)) (unsignedDouble (by omega))
  | int64 m =>
    rw [compareValue_exact (n := n.val) (m := m.toInt) rfl rfl]
    split
    · rename_i small
      exact congrArg (fun x => some (compare x m.toInt)) (signed small)
    · rename_i large
      have apart := comparable.resolve_left large
      rw [← ranked (Double.rank_ofInt _ _) apart, ← unsignedDouble (by omega)]
      rfl
  | uint64 m =>
    rw [compareValue_exact (n := n.val) (m := m.toNat) rfl rfl]
    split
    · rename_i small
      have apart := comparable.resolve_left (by omega)
      rw [← ranked (Double.rank_ofInt _ _) apart, ← signedDouble small]
      rfl
    · have same := compare_natCast (UInt64.ofNat n.val.toNat).toNat m.toNat
      rw [unsigned (by omega)] at same
      exact congrArg some same.symm

theorem compareLiterals_eq {value : JsonValue} (scalar : IsScalar value)
    (comparable : Comparable value literal) :
    compareLiterals (ondemandToLiteral value) literal = compareValue value literal := by
  cases value with
  | string s => cases literal <;> rfl
  | bool b =>
    cases literal with
    | bool _ | string _ => rfl
    | _ => exact comparable.elim
  | double d =>
    cases literal with
    | bool _ => exact comparable.elim
    | _ => rfl
  | int n =>
    exact compareLiterals_int n comparable
  | _ => exact scalar.elim

/-- The last value under the name is the one that the evaluator resolves, and it is a
scalar; or there is none for either. -/
def FieldAlike (event : JsonText) (path : String) : Prop :=
  (sightings path event).getLast? = resolveField event.value path ∧
    ∀ value ∈ resolveField event.value path, IsScalar value

/-- Every field of the query is found alike and compared with literals alike. -/
def MapAlike (event : JsonText) : QueryNode → Prop
  | .compare field _ literal =>
    FieldAlike event field.path ∧ ∀ value ∈ resolveField event.value field.path, Comparable value literal
  | .isIn field literals =>
    FieldAlike event field.path ∧ ∀ value ∈ resolveField event.value field.path,
      ∀ literal ∈ literals, Comparable value literal
  | .notIn field literals =>
    FieldAlike event field.path ∧ ∀ value ∈ resolveField event.value field.path,
      ∀ literal ∈ literals, Comparable value literal
  | .matches field _ _ _ => FieldAlike event field.path
  | .and left right => MapAlike event left ∧ MapAlike event right
  | .or left right => MapAlike event left ∧ MapAlike event right
  | .not operand => MapAlike event operand

/-- What the map holds of a field that is found alike. -/
theorem FieldAlike.collected (alike : FieldAlike event path) (referenced : path ∈ references) :
    collectQueryFields references event path =
      (resolveField event.value path).map ondemandToLiteral := by
  rw [collectQueryFields_at referenced, alike.1]

theorem any_congr_mem {list : List α} {p q : α → Bool}
    (same : ∀ a ∈ list, p a = q a) : list.any p = list.any q := by
  induction list with
  | nil => rfl
  | cons a rest ih =>
    rw [any_cons, any_cons, same a mem_cons_self,
      ih fun b listed => same b (mem_cons_of_mem _ listed)]

/-- The collected fields decide the query. -/
theorem evalMapNode_eq_evaluate (search : MatchOp → String → String → Bool)
    (referenced : ∀ path ∈ collectFields query, path ∈ references) (alike : MapAlike event query) :
    evalMapNode search (collectQueryFields references event) query =
      evaluate search query event.value := by
  induction query with
  | compare field op literal =>
    rw [evalMapNode, evaluate, alike.1.collected (referenced _ (mem_singleton_self _))]
    cases resolved : resolveField event.value field.path with
    | none => rfl
    | some value =>
      simp only [Option.map_some]
      rw [compareLiterals_eq (alike.1.2 value resolved) (alike.2 value resolved)]
  | isIn field literals =>
    rw [evalMapNode, evaluate, alike.1.collected (referenced _ (mem_singleton_self _))]
    cases resolved : resolveField event.value field.path with
    | none => rfl
    | some value =>
      apply any_congr_mem
      intro literal listed
      rw [compareLiterals_eq (alike.1.2 value resolved) (alike.2 value resolved literal listed)]
  | notIn field literals =>
    rw [evalMapNode, evaluate, alike.1.collected (referenced _ (mem_singleton_self _))]
    cases resolved : resolveField event.value field.path with
    | none => rfl
    | some value =>
      apply congrArg (!·)
      apply any_congr_mem
      intro literal listed
      rw [compareLiterals_eq (alike.1.2 value resolved) (alike.2 value resolved literal listed)]
  | «matches» field op pattern negated =>
    rw [evalMapNode, evaluate, alike.collected (referenced _ (mem_singleton_self _))]
    cases resolved : resolveField event.value field.path with
    | none => rfl
    | some value =>
      have scalar := alike.2 value resolved
      cases value with
      | string text => rfl
      | int n =>
        rw [Option.map_some, ondemandToLiteral]
        by_cases small : n.val < 2 ^ 63
        · rw [if_pos small]
        · rw [if_neg small]
      | bool b | double d => rfl
      | _ => exact scalar.elim
  | and left right ihLeft ihRight | or left right ihLeft ihRight =>
    rw [evalMapNode, evaluate,
      ihLeft (fun path listed => referenced path (mem_append_left _ listed)) alike.1,
      ihRight (fun path listed => referenced path (mem_append_right _ listed)) alike.2]
  | not operand ih => rw [evalMapNode, evaluate, ih referenced alike]

/-- What the reader's filter relies on: for compiled probes that each finds its field
where the evaluator does, otherwise that the map does. -/
def FilterAlike (event : JsonText) (query : QueryNode) : Prop :=
  match tryCompileEqProbes query with
  | some (_ :: _) => ∀ path ∈ collectFields query, ProbeAlike event path
  | _ => MapAlike event query

namespace Filters

def name (text : String) : List Glyph := Blanks.plainGlyphs text.toList

/-- `{"args":{"name":"open","ret":null}}`. -/
def nested : JsonText :=
  .object []
    (.cons [] (name "args") [] []
      (.object []
        (.cons [] (name "name") [] [] (.string (name "open")) []
          (.cons [] (name "ret") [] [] .null [] .nil))) [] .nil)

/-- `{"name":"open"}`. -/
def plain : JsonText :=
  .object [] (.cons [] (name "name") [] [] (.string (name "open")) [] .nil)

/-- `name == "open"`, which compiles to a probe of the top level. -/
def named : QueryNode := .compare Blanks.name .eq (.string "open")

/-- `ret != "x"`, which is evaluated on the map. -/
def returned : QueryNode := .compare ⟨"ret", by decide⟩ .ne (.string "x")

def noMatch : MatchOp → String → String → Bool := fun _ _ _ => false

theorem plain_alike : FieldAlike plain "name" ∧ ProbeAlike plain "name" := by
  have resolved : resolveField plain.value "name" = some (.string "open") := by rfl
  refine ⟨⟨?_, ?_⟩, ?_⟩
  · rfl
  · rintro value ⟨⟩
    trivial
  · intro keys located
    cases located
    rfl

end Filters

end DFTracer.Reader
