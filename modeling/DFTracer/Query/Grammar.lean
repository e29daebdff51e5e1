/-
# The grammar of queries

Which words make which syntax tree. The parser accepts exactly the texts whose words are derived,
and gives the tree of the derivation: it takes the words of the derivation from the front and
leaves what follows them. The count that it starts with always suffices.
-/

import DFTracer.Query.Parser

namespace DFTracer.Query

open List

/-- What the parser looks at in a token. -/
abbrev Word := TokenKind × String

def Token.word (t : Token) : Word := (t.kind, t.text)

namespace Grammar

open DFTracer.Query.Parser

/-- The operator of a comparison. -/
def compOp : TokenKind → Option CompareOp
  | .OP_EQ => some .eq
  | .OP_NE => some .ne
  | .OP_GT => some .gt
  | .OP_LT => some .lt
  | .OP_GE => some .ge
  | .OP_LE => some .le
  | _ => none

/-- The operator of a pattern, and whether it is negated. -/
def matchOp : TokenKind → Option (MatchOp × Bool)
  | .KW_LIKE => some (.like, false)
  | .KW_ILIKE => some (.ilike, false)
  | .OP_REGEX => some (.regex, false)
  | .OP_IREGEX => some (.iregex, false)
  | .OP_NREGEX => some (.regex, true)
  | .OP_NIREGEX => some (.iregex, true)
  | _ => none

/-- The operator of a pattern that is negated in words. -/
def notMatchOp : TokenKind → Option MatchOp
  | .KW_LIKE => some .like
  | .KW_ILIKE => some .ilike
  | _ => none

/-- The elements of an array after the first. -/
inductive Elements : List Word → List Literal → Prop
  | close (text : String) : Elements [(.RBRACKET, text)] []
  | next {words : List Word} {literals : List Literal} {literal : Literal} {kind : TokenKind}
      {text : String} (comma : String) (value : literalOf kind text = .ok literal)
      (more : Elements words literals) :
      Elements ((.COMMA, comma) :: (kind, text) :: words) (literal :: literals)

/-- An array. -/
inductive Array : List Word → List Literal → Prop
  | empty (left right : String) : Array [(.LBRACKET, left), (.RBRACKET, right)] []
  | cons {words : List Word} {literals : List Literal} {literal : Literal} {kind : TokenKind}
      {text : String} (left : String) (value : literalOf kind text = .ok literal)
      (more : Elements words literals) :
      Array ((.LBRACKET, left) :: (kind, text) :: words) (literal :: literals)

section

variable (regexError : String → Bool → Option String)

/-- A primary that is not in parentheses. -/
inductive Leaf : List Word → QueryNode → Prop
  | compare {op : CompareOp} {literal : Literal} {opKind kind : TokenKind} {text : String}
      (field : FieldNode) (opText : String) (hop : compOp opKind = some op)
      (value : literalOf kind text = .ok literal) :
      Leaf [(.IDENT, field.path), (opKind, opText), (kind, text)] (.compare field op literal)
  | isIn {words : List Word} {literals : List Literal} (field : FieldNode) (text : String)
      (values : Array words literals) :
      Leaf ((.IDENT, field.path) :: (.KW_IN, text) :: words) (.isIn field literals)
  | notIn {words : List Word} {literals : List Literal} (field : FieldNode) (no text : String)
      (values : Array words literals) :
      Leaf ((.IDENT, field.path) :: (.KW_NOT, no) :: (.KW_IN, text) :: words)
        (.notIn field literals)
  | matches {op : MatchOp} {negated : Bool} {kind : TokenKind} {pattern : String}
      (field : FieldNode) (text : String) (hop : matchOp kind = some (op, negated))
      (compiles : compilePattern regexError op pattern = none) :
      Leaf [(.IDENT, field.path), (kind, text), (.STRING, pattern)]
        (.matches field op pattern negated)
  | notMatches {op : MatchOp} {kind : TokenKind} {pattern : String} (field : FieldNode)
      (no text : String) (hop : notMatchOp kind = some op)
      (compiles : compilePattern regexError op pattern = none) :
      Leaf [(.IDENT, field.path), (.KW_NOT, no), (kind, text), (.STRING, pattern)]
        (.matches field op pattern true)
  | contains {pattern : String} (field : FieldNode) (text : String)
      (compiles : compilePattern regexError .icontains pattern = none) :
      Leaf [(.STRING, pattern), (.KW_IN, text), (.IDENT, field.path)]
        (.matches field .icontains pattern false)
  | notContains {pattern : String} (field : FieldNode) (no text : String)
      (compiles : compilePattern regexError .icontains pattern = none) :
      Leaf [(.STRING, pattern), (.KW_NOT, no), (.KW_IN, text), (.IDENT, field.path)]
        (.matches field .icontains pattern true)

/-- What a function of the parser reads: an expression, or the rest of one whose left side is
known. -/
inductive Level where
  | or
  | orRest (left : QueryNode)
  | and
  | andRest (left : QueryNode)
  | not
  | primary

/-- The words of an expression. -/
inductive Derives : Level → List Word → QueryNode → Prop
  | or {first rest : List Word} {left node : QueryNode} (hleft : Derives .and first left)
      (more : Derives (.orRest left) rest node) : Derives .or (first ++ rest) node
  | orDone (left : QueryNode) : Derives (.orRest left) [] left
  | orMore {first rest : List Word} {left right node : QueryNode} (text : String)
      (hright : Derives .and first right) (more : Derives (.orRest (.or left right)) rest node) :
      Derives (.orRest left) ((.KW_OR, text) :: (first ++ rest)) node
  | and {first rest : List Word} {left node : QueryNode} (hleft : Derives .not first left)
      (more : Derives (.andRest left) rest node) : Derives .and (first ++ rest) node
  | andDone (left : QueryNode) : Derives (.andRest left) [] left
  | andMore {first rest : List Word} {left right node : QueryNode} (text : String)
      (hright : Derives .not first right) (more : Derives (.andRest (.and left right)) rest node) :
      Derives (.andRest left) ((.KW_AND, text) :: (first ++ rest)) node
  | not {words : List Word} {operand : QueryNode} (text : String)
      (hoperand : Derives .not words operand) :
      Derives .not ((.KW_NOT, text) :: words) (.not operand)
  | primary {words : List Word} {node : QueryNode} (h : Derives .primary words node) :
      Derives .not words node
  | parens {words : List Word} {node : QueryNode} (left right : String)
      (h : Derives .or words node) :
      Derives .primary ((.LPAREN, left) :: (words ++ [(.RPAREN, right)])) node
  | leaf {words : List Word} {node : QueryNode} (h : Leaf regexError words node) :
      Derives .primary words node

/-- The function of the parser that reads a level. -/
def parseLevel (source : List Char) : Level → Nat → List Token → Parse (QueryNode × List Token)
  | .or, fuel => parseOrExpr regexError source fuel
  | .orRest left, fuel => parseOrRest regexError source fuel left
  | .and, fuel => parseAndExpr regexError source fuel
  | .andRest left, fuel => parseAndRest regexError source fuel left
  | .not, fuel => parseNotExpr regexError source fuel
  | .primary, fuel => parsePrimary regexError source fuel

end

/-- The parser gives a result. -/
def Succeeds {α : Type} (x : Parse α) (a : α) : Prop := x.run = some (.ok a)

section Results

variable {α β : Type}

variable {a : α}

theorem succeeds_pure {b : α} : Succeeds (pure a) b ↔ a = b := by
  unfold Succeeds
  simp

theorem succeeds_bind {x : Parse α} {f : α → Parse β} {b : β} :
    Succeeds (x >>= f) b ↔ ∃ a, Succeeds x a ∧ Succeeds (f a) b := by
  unfold Succeeds
  rw [ExceptT.run_bind]
  cases x.run with
  | none => simp
  | some result =>
    cases result with
    | error e | ok a => simp

theorem not_succeeds_throw {e : QueryError} : ¬ Succeeds (throw e) a := by
  unfold Succeeds
  simp

theorem not_succeeds_outOfFuel : ¬ Succeeds outOfFuel a := fun h => nomatch h

theorem succeeds_mk {e : Except QueryError α} : Succeeds (ExceptT.mk (some e)) a ↔ e = .ok a := by
  unfold Succeeds
  simp

theorem bind_ok {x : Except QueryError α} {f : α → Except QueryError β} {b : β} :
    (x >>= f) = .ok b ↔ ∃ a, x = .ok a ∧ f a = .ok b := by
  cases x with
  | error e | ok a => simp [bind, Except.bind]

end Results

end Grammar

end DFTracer.Query

/-! ## The parser gives derivations

What the parser accepts is derived by the grammar: it takes the words of a derivation from the
front of the tokens, gives its tree and leaves the tokens that follow. -/

namespace DFTracer.Query.Grammar

open DFTracer.Query.Parser List

variable {regexError : String → Bool → Option String} {source : List Char}
  {tokens rest : List Token} {literals : List Literal} {field : FieldNode} {negated : Bool}
  {fuel : Nat}

section Tokens

variable {tokens rest : List Token} {t : Token}

@[simp] theorem currentKind_cons : currentKind (t :: rest) = t.kind := rfl

@[simp] theorem currentText_cons : currentText (t :: rest) = t.text := rfl

/-- A kind other than the end comes from a token. -/
theorem exists_of_kind {kind : TokenKind} (h : currentKind tokens = kind) (more : kind ≠ .END) :
    ∃ t rest, tokens = t :: rest ∧ t.kind = kind := by
  cases tokens with
  | nil => exact absurd h.symm more
  | cons t rest => exact ⟨t, rest, rfl, h⟩

theorem parseField_sound {expected : String} {field : FieldNode}
    (h : parseField source tokens expected = .ok (field, rest)) :
    ∃ t, tokens = t :: rest ∧ t.word = (.IDENT, field.path) := by
  cases tokens with
  | nil => cases h
  | cons t more =>
    rw [parseField] at h
    by_cases ident : t.kind = .IDENT ∧ t.text ≠ ""
    · rw [dif_pos ident] at h
      cases h
      exact ⟨t, rfl, Prod.ext ident.1 rfl⟩
    · rw [dif_neg ident] at h
      cases h

theorem parseCompOp_cons :
    (∀ op, compOp t.kind = some op → parseCompOp source (t :: rest) = .ok (op, rest)) ∧
      (compOp t.kind = none → ∃ e, parseCompOp source (t :: rest) = .error e) := by
  unfold parseCompOp
  rw [currentKind_cons]
  cases t.kind <;> simp [compOp]

theorem parseCompOp_sound {op : CompareOp} (h : parseCompOp source tokens = .ok (op, rest)) :
    ∃ t, tokens = t :: rest ∧ compOp t.kind = some op := by
  cases tokens with
  | nil => cases h
  | cons t more =>
    cases hop : compOp t.kind with
    | none =>
      obtain ⟨e, he⟩ := (@parseCompOp_cons source more t).2 hop
      rw [he] at h
      cases h
    | some op' =>
      rw [parseCompOp_cons.1 op' hop] at h
      cases h
      exact ⟨t, rfl, hop⟩

theorem parseValue_sound {literal : Literal}
    (h : parseValue source tokens = .ok (literal, rest)) :
    ∃ t, tokens = t :: rest ∧ literalOf t.kind t.text = .ok literal := by
  cases tokens with
  | nil => cases h
  | cons t more =>
    unfold parseValue at h
    split at h
    next => cases h
    next value =>
      cases h
      exact ⟨t, rfl, value⟩

end Tokens

theorem parseElements_sound (h : parseElements source tokens = .ok (literals, rest)) :
    ∃ taken, tokens = taken ++ rest ∧ Elements (taken.map Token.word) literals := by
  fun_induction parseElements source tokens generalizing literals with
  | case1 | case2 | case3 => cases h
  | case4 tok comma value more literal hvalue ih =>
    obtain ⟨⟨others, left⟩, hrest, hok⟩ := bind_ok.mp h
    cases hok
    obtain ⟨taken, rfl, elements⟩ := ih hrest
    have first : tok.word = (.COMMA, tok.text) := Prod.ext comma rfl
    refine ⟨tok :: value :: taken, rfl, ?_⟩
    rw [map_cons, first]
    exact .next tok.text hvalue elements
  | case5 tok more notComma close =>
    cases h
    have last : tok.word = (.RBRACKET, tok.text) := Prod.ext close rfl
    refine ⟨[tok], rfl, ?_⟩
    rw [map_singleton, last]
    exact .close tok.text
  | case6 => cases h

theorem parseArray_sound (h : parseArray source tokens = .ok (literals, rest)) :
    ∃ taken, tokens = taken ++ rest ∧ Array (taken.map Token.word) literals := by
  unfold parseArray at h
  split at h
  next => cases h
  next hopen =>
    obtain ⟨t, inside, rfl, kind⟩ := exists_of_kind (not_not.mp hopen) (by decide)
    have first : t.word = (.LBRACKET, t.text) := Prod.ext kind rfl
    split at h
    next hclose =>
      obtain ⟨u, after, rfl, last⟩ := exists_of_kind hclose (by decide)
      have second : u.word = (.RBRACKET, u.text) := Prod.ext last rfl
      cases h
      refine ⟨[t, u], rfl, ?_⟩
      rw [map_cons, map_singleton, first, second]
      exact .empty t.text u.text
    next =>
      obtain ⟨⟨literal, more⟩, hvalue, h⟩ := bind_ok.mp h
      obtain ⟨⟨others, left⟩, helements, hok⟩ := bind_ok.mp h
      cases hok
      obtain ⟨u, rfl, value⟩ := parseValue_sound hvalue
      obtain ⟨taken, rfl, elements⟩ := parseElements_sound helements
      refine ⟨t :: u :: taken, rfl, ?_⟩
      rw [map_cons, first]
      exact .cons t.text value elements

/-! ### Leaves -/

variable {node : QueryNode}

theorem parseMatch_sound {op : MatchOp}
    (h : parseMatch regexError source field op negated tokens = .ok (node, rest)) :
    ∃ t, tokens = t :: rest ∧ t.kind = .STRING ∧ node = .matches field op t.text negated ∧
      compilePattern regexError op t.text = none := by
  unfold parseMatch at h
  split at h
  next => cases h
  next string =>
    obtain ⟨t, more, rfl, kind⟩ := exists_of_kind (not_not.mp string) (by decide)
    split at h
    next => cases h
    next compiles =>
      cases h
      exact ⟨t, rfl, kind, rfl, compiles⟩

theorem parseContainsField_sound {more : List Token}
    (h : parseContainsField regexError source negated tokens more = .ok (node, rest)) :
    ∃ t field, more = t :: rest ∧ t.word = (.IDENT, field.path) ∧
      node = .matches field .icontains (currentText tokens) negated ∧
      compilePattern regexError .icontains (currentText tokens) = none := by
  obtain ⟨⟨field, left⟩, hfield, hmatch⟩ := bind_ok.mp h
  obtain ⟨t, rfl, word⟩ := parseField_sound hfield
  simp only at hmatch
  split at hmatch
  next => cases hmatch
  next compiles =>
    cases hmatch
    exact ⟨t, field, rfl, word, rfl, compiles⟩

theorem parseContains_sound (string : currentKind tokens = .STRING)
    (h : parseContains regexError source tokens = .ok (node, rest)) :
    ∃ taken, tokens = taken ++ rest ∧ Leaf regexError (taken.map Token.word) node := by
  obtain ⟨t, more, rfl, kind⟩ := exists_of_kind string (by decide)
  have first : t.word = (.STRING, t.text) := Prod.ext kind rfl
  unfold parseContains at h
  rw [tail_cons] at h
  split at h
  next no =>
    obtain ⟨u, more, rfl, isNot⟩ := exists_of_kind no (by decide)
    have second : u.word = (.KW_NOT, u.text) := Prod.ext isNot rfl
    rw [tail_cons] at h
    split at h
    next hin =>
      obtain ⟨v, more, rfl, isIn⟩ := exists_of_kind hin (by decide)
      have third : v.word = (.KW_IN, v.text) := Prod.ext isIn rfl
      obtain ⟨w, field, hw, last, rfl, compiles⟩ := parseContainsField_sound h
      rw [tail_cons] at hw
      refine ⟨[t, u, v, w], by rw [hw]; rfl, ?_⟩
      simp only [map_cons, first, second, third, last]
      exact .notContains field u.text v.text compiles
    next => cases h
  next =>
    split at h
    next hin =>
      obtain ⟨v, more, rfl, isIn⟩ := exists_of_kind hin (by decide)
      have second : v.word = (.KW_IN, v.text) := Prod.ext isIn rfl
      obtain ⟨w, field, hw, last, rfl, compiles⟩ := parseContainsField_sound h
      rw [tail_cons] at hw
      refine ⟨[t, v, w], by rw [hw]; rfl, ?_⟩
      simp only [map_cons, first, second, last]
      exact .contains field v.text compiles
    next => cases h

/-- The forms that follow a field. -/
theorem parseFieldRest_sound
    (h : parseFieldRest regexError source field tokens = .ok (node, rest)) :
    ∃ taken, tokens = taken ++ rest ∧
      Leaf regexError ((.IDENT, field.path) :: taken.map Token.word) node := by
  have comparison : ∀ {op : CompareOp} {literal : Literal} {more : List Token},
      parseCompOp source tokens = .ok (op, more) → parseValue source more = .ok (literal, rest) →
      ∃ taken, tokens = taken ++ rest ∧ Leaf regexError
        ((.IDENT, field.path) :: taken.map Token.word) (.compare field op literal) := by
    intro op literal more hop hvalue
    obtain ⟨t, rfl, operator⟩ := parseCompOp_sound hop
    obtain ⟨u, hu, value⟩ := parseValue_sound hvalue
    exact ⟨[t, u], by rw [hu]; rfl, .compare field t.text operator value⟩
  have pattern : ∀ {t : Token} {more : List Token} {op : MatchOp} {negated : Bool},
      matchOp t.kind = some (op, negated) →
      parseMatch regexError source field op negated more = .ok (node, rest) →
      ∃ taken, t :: more = taken ++ rest ∧
        Leaf regexError ((.IDENT, field.path) :: taken.map Token.word) node := by
    intro t more op negated hop h
    obtain ⟨u, rfl, kind, rfl, compiles⟩ := parseMatch_sound h
    have last : u.word = (.STRING, u.text) := Prod.ext kind rfl
    refine ⟨[t, u], rfl, ?_⟩
    rw [map_cons, map_singleton, last]
    exact .matches field t.text hop compiles
  have notPattern : ∀ {t u : Token} {more : List Token} {op : MatchOp},
      t.kind = .KW_NOT → notMatchOp u.kind = some op →
      parseMatch regexError source field op true more = .ok (node, rest) →
      ∃ taken, t :: u :: more = taken ++ rest ∧
        Leaf regexError ((.IDENT, field.path) :: taken.map Token.word) node := by
    intro t u more op hno hop h
    obtain ⟨v, rfl, kind, rfl, compiles⟩ := parseMatch_sound h
    have first : t.word = (.KW_NOT, t.text) := Prod.ext hno rfl
    have last : v.word = (.STRING, v.text) := Prod.ext kind rfl
    refine ⟨[t, u, v], rfl, ?_⟩
    rw [map_cons, map_cons, map_singleton, first, last]
    exact .notMatches field t.text u.text hop compiles
  unfold parseFieldRest at h
  split at h
  case h_1 hin =>
    obtain ⟨t, more, rfl, kind⟩ := exists_of_kind hin (by decide)
    obtain ⟨⟨literals, left⟩, harray, hok⟩ := bind_ok.mp h
    cases hok
    obtain ⟨taken, hmore, array⟩ := parseArray_sound harray
    have first : t.word = (.KW_IN, t.text) := Prod.ext kind rfl
    refine ⟨t :: taken, congrArg (t :: ·) hmore, ?_⟩
    rw [map_cons, first]
    exact .isIn field t.text array
  case h_2 no =>
    obtain ⟨t, more, rfl, kind⟩ := exists_of_kind no (by decide)
    have first : t.word = (.KW_NOT, t.text) := Prod.ext kind rfl
    split at h
    next hin =>
      obtain ⟨u, more, rfl, isIn⟩ := exists_of_kind hin (by decide)
      obtain ⟨⟨literals, left⟩, harray, hok⟩ := bind_ok.mp h
      cases hok
      obtain ⟨taken, hmore, array⟩ := parseArray_sound harray
      have second : u.word = (.KW_IN, u.text) := Prod.ext isIn rfl
      refine ⟨t :: u :: taken, congrArg (fun l => t :: u :: l) hmore, ?_⟩
      rw [map_cons, map_cons, first, second]
      exact .notIn field t.text u.text array
    next like =>
      obtain ⟨u, more, rfl, isLike⟩ := exists_of_kind like (by decide)
      exact notPattern kind (by rw [isLike]; rfl) h
    next ilike =>
      obtain ⟨u, more, rfl, isILike⟩ := exists_of_kind ilike (by decide)
      exact notPattern kind (by rw [isILike]; rfl) h
    next =>
      obtain ⟨⟨op, more⟩, hop, h⟩ := bind_ok.mp h
      obtain ⟨⟨literal, left⟩, hvalue, hok⟩ := bind_ok.mp h
      cases hok
      exact comparison hop hvalue
  case h_9 =>
    obtain ⟨⟨op, more⟩, hop, h⟩ := bind_ok.mp h
    obtain ⟨⟨literal, left⟩, hvalue, hok⟩ := bind_ok.mp h
    cases hok
    exact comparison hop hvalue
  all_goals
    next kind =>
      obtain ⟨t, more, rfl, isMatch⟩ := exists_of_kind kind (by decide)
      exact pattern (by rw [isMatch]; rfl) h

theorem parseLeaf_sound (h : parseLeaf regexError source tokens = .ok (node, rest)) :
    ∃ taken, tokens = taken ++ rest ∧ Leaf regexError (taken.map Token.word) node := by
  unfold parseLeaf at h
  split at h
  next string => exact parseContains_sound string h
  next =>
    obtain ⟨⟨field, more⟩, hfield, hrest⟩ := bind_ok.mp h
    obtain ⟨t, rfl, first⟩ := parseField_sound hfield
    obtain ⟨taken, hmore, leaf⟩ := parseFieldRest_sound hrest
    refine ⟨t :: taken, congrArg (t :: ·) hmore, ?_⟩
    rw [map_cons, first]
    exact leaf

theorem parsePrimary_sound (inner : ∀ {tokens rest node},
      Succeeds (parseOrExpr regexError source fuel tokens) (node, rest) →
        ∃ taken, tokens = taken ++ rest ∧ Derives regexError .or (taken.map Token.word) node)
    (h : Succeeds (parsePrimary regexError source (fuel + 1) tokens) (node, rest)) :
    ∃ taken, tokens = taken ++ rest ∧ Derives regexError .primary (taken.map Token.word) node := by
  rw [parsePrimary] at h
  split at h
  next left =>
    obtain ⟨t, more, rfl, isLeft⟩ := exists_of_kind left (by decide)
    have first : t.word = (.LPAREN, t.text) := Prod.ext isLeft rfl
    obtain ⟨⟨expr, after⟩, hexpr, hclose⟩ := succeeds_bind.mp h
    obtain ⟨taken, hmore, derives⟩ := inner hexpr
    simp only at hclose
    split at hclose
    next right =>
      obtain ⟨u, after, rfl, isRight⟩ := exists_of_kind right (by decide)
      have last : u.word = (.RPAREN, u.text) := Prod.ext isRight rfl
      cases succeeds_pure.mp hclose
      rw [tail_cons] at hmore
      refine ⟨t :: (taken ++ [u]), by rw [hmore]; simp, ?_⟩
      rw [map_cons, map_append, map_singleton, first, last]
      exact .parens t.text u.text derives
    next => exact absurd hclose not_succeeds_throw
  next =>
    obtain ⟨taken, hmore, leaf⟩ := parseLeaf_sound (succeeds_mk.mp h)
    exact ⟨taken, hmore, .leaf leaf⟩

/-- Every function of the parser takes the words of a derivation. -/
theorem parseLevel_sound : ∀ (level : Level) {tokens rest : List Token} {node : QueryNode},
    Succeeds (parseLevel regexError source level fuel tokens) (node, rest) →
      ∃ taken, tokens = taken ++ rest ∧ Derives regexError level (taken.map Token.word) node := by
  induction fuel with
  | zero =>
    intro level tokens rest node h
    cases level with
    | or | and | not | primary => exact absurd h not_succeeds_outOfFuel
    | orRest left | andRest left => exact absurd h not_succeeds_outOfFuel
  | succ fuel ih =>
    intro level tokens rest node h
    cases level with
    | or =>
      obtain ⟨⟨left, more⟩, hleft, hrest⟩ := succeeds_bind.mp h
      obtain ⟨first, rfl, hfirst⟩ := ih .and hleft
      obtain ⟨others, rfl, hothers⟩ := ih (.orRest left) hrest
      refine ⟨first ++ others, by rw [append_assoc], ?_⟩
      rw [map_append]
      exact .or hfirst hothers
    | orRest left =>
      rw [parseLevel, parseOrRest] at h
      split at h
      next disjunct =>
        obtain ⟨t, more, rfl, isOr⟩ := exists_of_kind disjunct (by decide)
        have word : t.word = (.KW_OR, t.text) := Prod.ext isOr rfl
        obtain ⟨⟨right, after⟩, hright, hrest⟩ := succeeds_bind.mp h
        obtain ⟨first, hmore, hfirst⟩ := ih .and hright
        obtain ⟨others, hafter, hothers⟩ := ih (.orRest (.or left right)) hrest
        rw [tail_cons] at hmore
        refine ⟨t :: (first ++ others), by simp [hmore, hafter], ?_⟩
        rw [map_cons, map_append, word]
        exact .orMore t.text hfirst hothers
      next =>
        cases succeeds_pure.mp h
        exact ⟨[], rfl, .orDone node⟩
    | and =>
      obtain ⟨⟨left, more⟩, hleft, hrest⟩ := succeeds_bind.mp h
      obtain ⟨first, rfl, hfirst⟩ := ih .not hleft
      obtain ⟨others, rfl, hothers⟩ := ih (.andRest left) hrest
      refine ⟨first ++ others, by rw [append_assoc], ?_⟩
      rw [map_append]
      exact .and hfirst hothers
    | andRest left =>
      rw [parseLevel, parseAndRest] at h
      split at h
      next conjunct =>
        obtain ⟨t, more, rfl, isAnd⟩ := exists_of_kind conjunct (by decide)
        have word : t.word = (.KW_AND, t.text) := Prod.ext isAnd rfl
        obtain ⟨⟨right, after⟩, hright, hrest⟩ := succeeds_bind.mp h
        obtain ⟨first, hmore, hfirst⟩ := ih .not hright
        obtain ⟨others, hafter, hothers⟩ := ih (.andRest (.and left right)) hrest
        rw [tail_cons] at hmore
        refine ⟨t :: (first ++ others), by simp [hmore, hafter], ?_⟩
        rw [map_cons, map_append, word]
        exact .andMore t.text hfirst hothers
      next =>
        cases succeeds_pure.mp h
        exact ⟨[], rfl, .andDone node⟩
    | not =>
      rw [parseLevel, parseNotExpr] at h
      split at h
      next no =>
        obtain ⟨t, more, rfl, isNot⟩ := exists_of_kind no (by decide)
        have word : t.word = (.KW_NOT, t.text) := Prod.ext isNot rfl
        obtain ⟨⟨operand, after⟩, hoperand, hpure⟩ := succeeds_bind.mp h
        cases succeeds_pure.mp hpure
        obtain ⟨taken, hmore, derives⟩ := ih .not hoperand
        refine ⟨t :: taken, congrArg (t :: ·) hmore, ?_⟩
        rw [map_cons, word]
        exact .not t.text derives
      next =>
        obtain ⟨taken, hmore, derives⟩ := ih .primary h
        exact ⟨taken, hmore, .primary derives⟩
    | primary => exact parsePrimary_sound (ih .or) h

end DFTracer.Query.Grammar
