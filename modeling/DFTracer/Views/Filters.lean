/-
# Composing filters

A scan keeps one query. A filter that is added to it is conjoined as text: both sources are put in
parentheses with `and` between them, and the result is parsed again. So is the phase that a scan
reads. What the result says of an event is what both say of it.
-/

import DFTracer.Query.Evaluator
import DFTracer.Query.Words

namespace DFTracer.Views

open DFTracer.Query List
open DFTracer.Query.Grammar (Succeeds Derives)

/-- Phase of a record, with the value of its `ph` column. -/
inductive RecordPhase where
  | UNKNOWN
  | COMPLETE
  | COUNTER
  | AGGREGATED
  | METADATA
deriving DecidableEq

def phaseToInt : RecordPhase → Nat
  | .UNKNOWN => 0
  | .COMPLETE => 1
  | .COUNTER => 2
  | .AGGREGATED => 3
  | .METADATA => 4

/-- The letter that a phase superseded. -/
def phaseToLetter : RecordPhase → Char
  | .COMPLETE => 'X'
  | .COUNTER => 'C'
  | .AGGREGATED => 'A'
  | .METADATA => 'M'
  | .UNKNOWN => Char.ofNat 0

/-- The records that a scan reads. -/
inductive Phase where
  | Events
  | Counters
  | Aggregated
  | Metadata
  | Any
deriving DecidableEq

section

variable (regexError : String → Bool → Option String)

/-- A parsed query, with the text it was parsed from. -/
structure Query where
  root : QueryNode
  source : List Char
  parsed : Succeeds (parse regexError source) root

/-- Parsing a query text. -/
def parseOrThrow (input : List Char) : Except QueryError (Query regexError) :=
  match h : (parse regexError input).run with
  | some (.ok root) => .ok ⟨root, input, h⟩
  | some (.error e) => .error e
  | none => (DFTracer.Query.Grammar.parse_defined input h).elim

/-- What a scan selects records by. -/
structure ViewPlan where
  query : Option (Query regexError)
  phase : Phase

end

variable {regexError : String → Bool → Option String}

/-- Two predicates, combined as source texts. -/
def combined (first second : List Char) : List Char :=
  '(' :: first ++ ") and (".toList ++ second ++ [')']

/-- Adding a predicate to a scan. -/
def filter (plan : ViewPlan regexError) (q : Query regexError) :
    Except QueryError (ViewPlan regexError) :=
  match plan.query with
  | some query => do
      let query ← parseOrThrow regexError (combined query.source q.source)
      .ok { plan with query := some query }
  | none => .ok { plan with query := some q }

/-- The phase of the records that a scan reads, unless it reads all. -/
def recordPhase : Phase → Option RecordPhase
  | .Events => some .COMPLETE
  | .Counters => some .COUNTER
  | .Aggregated => some .AGGREGATED
  | .Metadata => some .METADATA
  | .Any => none

/-- The predicate on the phase, which takes the integer and the letter of the older format. -/
def phaseSource (rp : RecordPhase) : List Char :=
  "(ph == ".toList ++ (toString (phaseToInt rp)).toList ++ " or ph == \"".toList ++
    [phaseToLetter rp] ++ "\")".toList

/-- The query of a scan, together with the phase that it reads. -/
def effectiveQuery (plan : ViewPlan regexError) :
    Except QueryError (Option (Query regexError)) :=
  match recordPhase plan.phase with
  | none => .ok plan.query
  | some rp => do
      let q := phaseSource rp
      let q := match plan.query with
        | some query => '(' :: query.source ++ ") and ".toList ++ q
        | none => q
      let q ← parseOrThrow regexError q
      .ok (some q)

section Evaluate

variable (search : MatchOp → String → String → Bool)

def Query.evaluate (q : Query regexError) (event : JsonValue) : Bool :=
  DFTracer.Query.evaluate search q.root event

/-- What a scan without a query selects is everything. -/
def selects (q : Option (Query regexError)) (event : JsonValue) : Bool :=
  q.all fun q => q.evaluate search event

theorem phField_nonempty : "ph" ≠ "" := by decide

def phField : FieldNode := ⟨"ph", phField_nonempty⟩

/-- The predicate on the phase as a syntax tree. -/
def phaseNode (rp : RecordPhase) : QueryNode :=
  .or (.compare phField .eq (.uint64 (UInt64.ofNat (phaseToInt rp))))
    (.compare phField .eq (.string (String.ofList [phaseToLetter rp])))

/-- Whether an event is of the phase that a scan reads. -/
def inPhase (phase : Phase) (event : JsonValue) : Bool :=
  (recordPhase phase).all fun rp => DFTracer.Query.evaluate search (phaseNode rp) event

end Evaluate

section Combined

variable {first second : List Char} {left right : QueryNode} {more : List Char}
  {words after : List Word}

theorem boundary_rparen : Boundary ')' := ⟨by decide, by decide, by decide, by decide⟩

theorem wordsOf_parens {text : List Char}
    (hwords : wordsOf text = some words) (hafter : wordsOf more = some after) :
    wordsOf ('(' :: (text ++ ')' :: more)) =
      some ((.LPAREN, "(") :: (words ++ (.RPAREN, ")") :: after)) := by
  have closing : wordsOf (')' :: more) = some ((.RPAREN, ")") :: after) := by
    change (wordsOf more).map _ = _
    rw [hafter]
    rfl
  change (wordsOf (text ++ ')' :: more)).map _ = _
  rw [wordsOf_append boundary_rparen hwords, closing]
  rfl

/-- The words between two texts in parentheses. -/
theorem wordsOf_and (hafter : wordsOf more = some after) :
    wordsOf (" and ".toList ++ more) = some ((.KW_AND, "and") :: after) := by
  change ((wordsOf more).map _) = _
  rw [hafter]
  rfl

theorem combined_eq : combined first second =
    '(' :: (first ++ ')' :: (" and ".toList ++ '(' :: (second ++ [')']))) := by
  have middle : ") and (".toList = ')' :: (" and ".toList ++ ['(']) := rfl
  rw [combined, middle]
  simp only [cons_append, append_assoc, nil_append]

/-- A text in parentheses, with a text that needs none after it. -/
theorem parse_and (hfirst : Succeeds (parse regexError first) left)
    (hwords : wordsOf second = some words) (derives : Derives regexError .not words right) :
    Succeeds (parse regexError ('(' :: (first ++ ')' :: (" and ".toList ++ second))))
      (.and left right) := by
  obtain ⟨others, hothers, hleft⟩ := Grammar.parse_iff_words.mp hfirst
  refine Grammar.parse_iff_words.mpr ⟨_, wordsOf_parens hothers (wordsOf_and hwords), ?_⟩
  have one : Derives regexError .not ((.LPAREN, "(") :: (others ++ [(.RPAREN, ")")])) left :=
    .primary (.parens _ _ hleft)
  have whole := Derives.or (.and one (.andMore "and" derives (.andDone _))) (.orDone _)
  simpa only [append_nil, cons_append, append_assoc, nil_append] using whole

/-- Two texts that are accepted are accepted when they are combined, as their conjunction. -/
theorem parse_combined (hfirst : Succeeds (parse regexError first) left)
    (hsecond : Succeeds (parse regexError second) right) :
    Succeeds (parse regexError (combined first second)) (.and left right) := by
  obtain ⟨words, hwords, derives⟩ := Grammar.parse_iff_words.mp hsecond
  have nothing : wordsOf [] = some [] := rfl
  rw [combined_eq]
  exact parse_and hfirst (wordsOf_parens hwords nothing) (.primary (.parens _ _ derives))

end Combined

/-! ## What a composed query selects -/

theorem parseOrThrow_eq {input : List Char} {root : QueryNode}
    (parsed : Succeeds (parse regexError input) root) :
    parseOrThrow regexError input = .ok ⟨root, input, parsed⟩ := by
  unfold parseOrThrow
  split
  next other h =>
    cases h.symm.trans parsed
    rfl
  next e h => cases h.symm.trans parsed
  next h => cases h.symm.trans parsed

/-- The text of the predicate on a phase. -/
def phaseText (digit letter : Char) : List Char :=
  ['(', 'p', 'h', ' ', '=', '=', ' ', digit, ' ', 'o', 'r', ' ', 'p', 'h', ' ', '=', '=', ' ', '"',
    letter, '"', ')']

/-- The words of the predicate on a phase. -/
def phaseWords (digit letter : Char) : List Word :=
  [(.LPAREN, "("), (.IDENT, "ph"), (.OP_EQ, "=="), (.INT, String.ofList [digit]), (.KW_OR, "or"),
    (.IDENT, "ph"), (.OP_EQ, "=="), (.STRING, String.ofList [letter]), (.RPAREN, ")")]

theorem phaseSource_eq {phase : Phase} {rp : RecordPhase} (h : recordPhase phase = some rp) :
    ∃ digit, toString (phaseToInt rp) = String.ofList [digit] ∧
      phaseSource rp = phaseText digit (phaseToLetter rp) ∧
      wordsOf (phaseText digit (phaseToLetter rp)) = some (phaseWords digit (phaseToLetter rp)) := by
  cases phase <;> cases h
  · exact ⟨'1', by decide, by decide, by rfl⟩
  · exact ⟨'2', by decide, by decide, by rfl⟩
  · exact ⟨'3', by decide, by decide, by rfl⟩
  · exact ⟨'4', by decide, by decide, by rfl⟩

theorem literalOf_toString {n : Nat} (fits : n < 2 ^ 63) :
    Parser.literalOf .INT (toString n) = .ok (.uint64 (UInt64.ofNat n)) := by
  have value : Math.NumberText.fromCharsInt (toString (n : Int)) = some (n : Int) :=
    Math.NumberText.fromCharsInt_toString (by omega) (by omega)
  have same : toString (n : Int) = toString n := rfl
  rw [same] at value
  simp only [Parser.literalOf, value, Int.natCast_nonneg, if_true, Int.toNat_natCast]

theorem phaseToInt_lt (rp : RecordPhase) : phaseToInt rp < 2 ^ 63 := by
  have small : phaseToInt rp ≤ 4 := by cases rp <;> decide
  exact small.trans_lt (by norm_num)

/-- The predicate on a phase is an expression in parentheses. -/
theorem phaseSource_derives {phase : Phase} {rp : RecordPhase} (h : recordPhase phase = some rp) :
    ∃ words, wordsOf (phaseSource rp) = some words ∧
      Derives regexError .not words (phaseNode rp) := by
  obtain ⟨digit, number, text, words⟩ := phaseSource_eq h
  have value : Parser.literalOf .INT (String.ofList [digit]) =
      .ok (.uint64 (UInt64.ofNat (phaseToInt rp))) :=
    number ▸ literalOf_toString (phaseToInt_lt rp)
  have integer : Derives regexError .and _ (.compare phField .eq _) :=
    .and (.primary (.leaf (@Grammar.Leaf.compare regexError .eq _ .OP_EQ .INT _ phField "==" rfl
      value))) (.andDone _)
  have letter : Derives regexError .and _ (.compare phField .eq _) :=
    .and (.primary (.leaf (@Grammar.Leaf.compare regexError .eq _ .OP_EQ .STRING
      (String.ofList [phaseToLetter rp]) phField "==" rfl rfl))) (.andDone _)
  have whole := Derives.primary (.parens "(" ")" (.or integer (.orMore "or" letter (.orDone _))))
  exact ⟨phaseWords digit (phaseToLetter rp), text ▸ words, whole⟩

section

variable {search : MatchOp → String → String → Bool}

/-- Adding a predicate to a scan keeps the phase and selects what both select. -/
theorem filter_selects (plan : ViewPlan regexError) (q : Query regexError) :
    ∃ next, filter plan q = .ok next ∧ next.phase = plan.phase ∧
      ∀ event, selects search next.query event =
        (selects search plan.query event && q.evaluate search event) := by
  obtain ⟨query, phase⟩ := plan
  cases query with
  | none => exact ⟨_, rfl, rfl, fun _ => rfl⟩
  | some query =>
    have parsed := parse_combined query.parsed q.parsed
    refine ⟨⟨some ⟨_, _, parsed⟩, phase⟩, ?_, rfl, fun _ => rfl⟩
    exact Grammar.bind_ok.mpr ⟨_, parseOrThrow_eq parsed, rfl⟩

/-- The effective query of a scan selects the events of its phase that its query selects. -/
theorem effectiveQuery_selects (plan : ViewPlan regexError) :
    ∃ q, effectiveQuery plan = .ok q ∧
      ∀ event, selects search q event =
        (selects search plan.query event && inPhase search plan.phase event) := by
  obtain ⟨query, phase⟩ := plan
  cases hphase : recordPhase phase with
  | none =>
    refine ⟨query, by rw [effectiveQuery, hphase], fun event => ?_⟩
    rw [inPhase, hphase]
    exact (Bool.and_true _).symm
  | some rp =>
    obtain ⟨words, hwords, derives⟩ := @phaseSource_derives regexError _ _ hphase
    cases query with
    | none =>
      have whole := Derives.or (.and derives (.andDone _)) (.orDone _)
      rw [append_nil, append_nil] at whole
      have parsed := Grammar.parse_iff_words.mpr ⟨_, hwords, whole⟩
      refine ⟨some ⟨_, _, parsed⟩, ?_, fun event => ?_⟩
      · rw [effectiveQuery, hphase]
        exact Grammar.bind_ok.mpr ⟨_, parseOrThrow_eq parsed, rfl⟩
      · rw [inPhase, hphase]
        rfl
    | some query =>
      have parsed := parse_and query.parsed hwords derives
      have glued : '(' :: query.source ++ ") and ".toList ++ phaseSource rp =
          '(' :: (query.source ++ ')' :: (" and ".toList ++ phaseSource rp)) := by
        have middle : ") and ".toList = ')' :: " and ".toList := rfl
        rw [middle, cons_append, cons_append, append_assoc, cons_append]
      rw [← glued] at parsed
      refine ⟨some ⟨_, _, parsed⟩, ?_, fun event => ?_⟩
      · rw [effectiveQuery, hphase]
        exact Grammar.bind_ok.mpr ⟨_, parseOrThrow_eq parsed, rfl⟩
      · rw [inPhase, hphase]
        rfl

/-- Composing filters by their texts is conjunction. Two texts that parse parse when they are put
in parentheses with `and` between them, and what the result says of an event is what both say. So
a predicate that is added to a scan, or the phase that it reads, never changes what the earlier
predicates select. -/
theorem filters_conjoin {first second : List Char} {left right : QueryNode}
    (hfirst : Succeeds (parse regexError first) left)
    (hsecond : Succeeds (parse regexError second) right) :
    (∃ node, Succeeds (parse regexError (combined first second)) node ∧
      ∀ event, evaluate search node event =
        (evaluate search left event && evaluate search right event)) ∧
    (∀ (plan : ViewPlan regexError) (q : Query regexError),
      ∃ next, filter plan q = .ok next ∧ next.phase = plan.phase ∧
        ∀ event, selects search next.query event =
          (selects search plan.query event && q.evaluate search event)) ∧
    (∀ plan : ViewPlan regexError, ∃ q, effectiveQuery plan = .ok q ∧
      ∀ event, selects search q event =
        (selects search plan.query event && inPhase search plan.phase event)) :=
  ⟨⟨_, parse_combined hfirst hsecond, fun _ => rfl⟩, filter_selects, effectiveQuery_selects⟩

end

/-- A comparison of an indexed path with a parenthesis. -/
def indexedSource : List Char := ['x', '[', '0', ']', '=', '=', '"', ')', '"']

/-- A negated list, which ends in a bracket. -/
def negatedSource : List Char := ['n', 'o', 't', ' ', 'y', ' ', 'i', 'n', '[', '"', '(', '"', ']']

theorem indexed_nonempty : "x[0]" ≠ "" := by decide

theorem plain_nonempty : "y" ≠ "" := by decide

theorem parse_indexedSource : Succeeds (parse regexError indexedSource)
    (.compare ⟨"x[0]", indexed_nonempty⟩ .eq (.string ")")) := by
  have leaf := @Grammar.Leaf.compare regexError .eq _ .OP_EQ .STRING ")" ⟨"x[0]", indexed_nonempty⟩
    "==" rfl rfl
  have derives := Derives.or (.and (.primary (.leaf leaf)) (.andDone _)) (.orDone _)
  exact Grammar.parse_iff_words.mpr ⟨_, rfl, derives⟩

theorem parse_negatedSource : Succeeds (parse regexError negatedSource)
    (.not (.isIn ⟨"y", plain_nonempty⟩ [.string "("])) := by
  have values := @Grammar.Array.cons _ _ (.string "(") .STRING "(" "[" rfl (.close "]")
  have leaf := @Grammar.Leaf.isIn regexError _ _ ⟨"y", plain_nonempty⟩ "in" values
  have derives := Derives.or (.and (.not "not" (.primary (.leaf leaf))) (.andDone _)) (.orDone _)
  exact Grammar.parse_iff_words.mpr ⟨_, rfl, derives⟩

theorem filters_conjoin_brackets :
    ∃ node, Succeeds (parse (fun _ _ => none) (combined indexedSource negatedSource)) node ∧
      ∀ event, evaluate (fun _ _ _ => true) node event =
        (evaluate (fun _ _ _ => true) (.compare ⟨"x[0]", indexed_nonempty⟩ .eq (.string ")"))
            event &&
          evaluate (fun _ _ _ => true) (.not (.isIn ⟨"y", plain_nonempty⟩ [.string "("])) event) :=
  (filters_conjoin parse_indexedSource parse_negatedSource).1

end DFTracer.Views
