/-
# The parser takes derivations

What the grammar derives, the parser accepts, whatever follows, as long as what follows does not
go on with the expression. A derivation of as many words needs a count that grows with the words
only, and the count that the parser starts with is more. It never runs out.
-/

import DFTracer.Query.Grammar

namespace DFTracer.Query.Grammar

open DFTracer.Query.Parser List

variable {regexError : String → Bool → Option String} {source : List Char}

/-! ## Leaves -/

section Leaves

variable {taken rest : List Token} {words : List Word} {kind : TokenKind} {text : String}
  {literal : Literal} {literals : List Literal} {op : MatchOp} {negated : Bool} {node : QueryNode}
  {u : Token}

theorem exists_of_word (h : taken.map Token.word = (kind, text) :: words) :
    ∃ t more, taken = t :: more ∧ t.kind = kind ∧ t.text = text ∧
      more.map Token.word = words := by
  obtain ⟨t, more, rfl, word, hmore⟩ := map_eq_cons_iff.mp h
  exact ⟨t, more, rfl, congrArg Prod.fst word, congrArg Prod.snd word, hmore⟩

/-- The last word of several. -/
theorem exists_of_last (h : taken.map Token.word = [(kind, text)]) :
    ∃ t, taken = [t] ∧ t.kind = kind ∧ t.text = text := by
  obtain ⟨t, more, rfl, hkind, htext, hmore⟩ := exists_of_word h
  cases map_eq_nil_iff.mp hmore
  exact ⟨t, rfl, hkind, htext⟩

variable {t : Token} {field : FieldNode}

theorem parseField_complete {expected : String}
    (hkind : t.kind = .IDENT) (htext : t.text = field.path) :
    parseField source (t :: rest) expected = .ok (field, rest) := by
  obtain ⟨path, nonempty⟩ := field
  subst htext
  rw [parseField, dif_pos ⟨hkind, nonempty⟩]

theorem parseValue_complete (value : literalOf t.kind t.text = .ok literal) :
    parseValue source (t :: rest) = .ok (literal, rest) := by
  rw [parseValue, currentKind_cons, currentText_cons, value, tail_cons]

theorem parseElements_complete (h : Elements words literals) :
    ∀ {taken : List Token}, taken.map Token.word = words →
      parseElements source (taken ++ rest) = .ok (literals, rest) := by
  induction h with
  | close text =>
    intro taken hwords
    obtain ⟨t, rfl, hkind, -⟩ := exists_of_last hwords
    rw [parseElements.eq_def]
    simp [hkind]
  | next comma value more ih =>
    intro taken hwords
    obtain ⟨t, others, rfl, hcomma, -, hvalue⟩ := exists_of_word hwords
    obtain ⟨u, others, rfl, rfl, rfl, hmore⟩ := exists_of_word hvalue
    simp only [cons_append, parseElements, hcomma, value]
    exact bind_ok.mpr ⟨_, ih hmore, rfl⟩

theorem parseArray_complete (h : Array words literals) (hwords : taken.map Token.word = words) :
    parseArray source (taken ++ rest) = .ok (literals, rest) := by
  cases h with
  | empty left right =>
    obtain ⟨t, others, rfl, hleft, -, hclose⟩ := exists_of_word hwords
    obtain ⟨u, rfl, hright, -⟩ := exists_of_last hclose
    simp [parseArray, hleft, hright]
  | cons left value more =>
    obtain ⟨t, others, rfl, hleft, -, hvalue⟩ := exists_of_word hwords
    obtain ⟨u, others, rfl, rfl, rfl, hmore⟩ := exists_of_word hvalue
    have isOpen : ¬ currentKind (t :: u :: (others ++ rest)) ≠ .LBRACKET := not_not.mpr hleft
    have notClose : currentKind (t :: u :: (others ++ rest)).tail ≠ .RBRACKET := by
      intro (close : u.kind = .RBRACKET)
      rw [close] at value
      cases value
    rw [cons_append, cons_append, parseArray, if_neg isOpen, if_neg notClose]
    exact bind_ok.mpr ⟨_, parseValue_complete value,
      bind_ok.mpr ⟨_, parseElements_complete more hmore, rfl⟩⟩

theorem parseMatch_complete
    (hkind : t.kind = .STRING) (compiles : compilePattern regexError op t.text = none) :
    parseMatch regexError source field op negated (t :: rest) =
      .ok (.matches field op t.text negated, rest) := by
  simp [parseMatch, hkind, compiles]

theorem parseContainsField_complete {tokens : List Token} (hkind : t.kind = .IDENT)
    (htext : t.text = field.path)
    (compiles : compilePattern regexError .icontains (currentText tokens) = none) :
    parseContainsField regexError source negated tokens (t :: rest) =
      .ok (.matches field .icontains (currentText tokens) negated, rest) := by
  rw [parseContainsField, parseField_complete hkind htext]
  simp only [bind, Except.bind, compiles]

/-- A leaf that starts with a field. -/
theorem parseLeaf_field (hkind : t.kind = .IDENT) (htext : t.text = field.path)
    (h : parseFieldRest regexError source field taken = .ok (node, rest)) :
    parseLeaf regexError source (t :: taken) = .ok (node, rest) := by
  have notString : currentKind (t :: taken) ≠ .STRING := by
    rw [currentKind_cons, hkind]
    decide
  rw [parseLeaf, if_neg notString]
  exact bind_ok.mpr ⟨_, parseField_complete hkind htext, h⟩

/-- A leaf that starts with a string. -/
theorem parseLeaf_string (hkind : t.kind = .STRING) :
    parseLeaf regexError source (t :: taken) = parseContains regexError source (t :: taken) :=
  if_pos hkind

/-- A comparison after its field. -/
theorem parseFieldRest_compare {op : CompareOp} (hop : compOp t.kind = some op) (value : literalOf u.kind u.text = .ok literal) :
    parseFieldRest regexError source field (t :: u :: rest) =
      .ok (.compare field op literal, rest) := by
  have parsed : parseCompOp source (t :: u :: rest) = .ok (op, u :: rest) :=
    parseCompOp_cons.1 op hop
  simp only [parseFieldRest, currentKind_cons, parsed]
  revert hop
  cases t.kind <;> intro hop <;> first
    | exact bind_ok.mpr ⟨_, rfl, bind_ok.mpr ⟨_, parseValue_complete value, rfl⟩⟩
    | cases hop

/-- A pattern after its field. -/
theorem parseFieldRest_matches
    (hop : matchOp t.kind = some (op, negated)) (hkind : u.kind = .STRING)
    (compiles : compilePattern regexError op u.text = none) :
    parseFieldRest regexError source field (t :: u :: rest) =
      .ok (.matches field op u.text negated, rest) := by
  have parsed : parseMatch regexError source field op negated (u :: rest) =
      .ok (.matches field op u.text negated, rest) := parseMatch_complete hkind compiles
  simp only [parseFieldRest, currentKind_cons]
  revert hop
  cases t.kind <;> intro hop <;> cases hop <;> exact parsed

/-- A pattern that is negated in words after its field. -/
theorem parseFieldRest_notMatches {v : Token}
    (hno : t.kind = .KW_NOT) (hop : notMatchOp u.kind = some op) (hkind : v.kind = .STRING)
    (compiles : compilePattern regexError op v.text = none) :
    parseFieldRest regexError source field (t :: u :: v :: rest) =
      .ok (.matches field op v.text true, rest) := by
  have parsed : parseMatch regexError source field op true (v :: rest) =
      .ok (.matches field op v.text true, rest) := parseMatch_complete hkind compiles
  simp only [parseFieldRest, currentKind_cons, tail_cons, hno]
  revert hop
  cases u.kind <;> intro hop <;> cases hop <;> exact parsed

theorem parseLeaf_complete (h : Leaf regexError words node)
    (hwords : taken.map Token.word = words) :
    parseLeaf regexError source (taken ++ rest) = .ok (node, rest) := by
  cases h with
  | compare field opText hop value =>
    obtain ⟨t, others, rfl, hfield, hpath, hsecond⟩ := exists_of_word hwords
    obtain ⟨u, others, rfl, rfl, -, hthird⟩ := exists_of_word hsecond
    obtain ⟨v, rfl, rfl, rfl⟩ := exists_of_last hthird
    exact parseLeaf_field hfield hpath (parseFieldRest_compare hop value)
  | isIn field text values =>
    obtain ⟨t, others, rfl, hfield, hpath, hsecond⟩ := exists_of_word hwords
    obtain ⟨u, others, rfl, hin, -, harray⟩ := exists_of_word hsecond
    rw [cons_append]
    apply parseLeaf_field hfield hpath
    simp only [parseFieldRest, cons_append, currentKind_cons, hin]
    exact bind_ok.mpr ⟨_, parseArray_complete values harray, rfl⟩
  | notIn field no text values =>
    obtain ⟨t, others, rfl, hfield, hpath, hsecond⟩ := exists_of_word hwords
    obtain ⟨u, others, rfl, hno, -, hthird⟩ := exists_of_word hsecond
    obtain ⟨v, others, rfl, hin, -, harray⟩ := exists_of_word hthird
    rw [cons_append]
    apply parseLeaf_field hfield hpath
    simp only [parseFieldRest, cons_append, currentKind_cons, hno, hin, tail_cons]
    exact bind_ok.mpr ⟨_, parseArray_complete values harray, rfl⟩
  | «matches» field text hop compiles =>
    obtain ⟨t, others, rfl, hfield, hpath, hsecond⟩ := exists_of_word hwords
    obtain ⟨u, others, rfl, rfl, -, hthird⟩ := exists_of_word hsecond
    obtain ⟨v, rfl, hstring, rfl⟩ := exists_of_last hthird
    exact parseLeaf_field hfield hpath (parseFieldRest_matches hop hstring compiles)
  | notMatches field no text hop compiles =>
    obtain ⟨t, others, rfl, hfield, hpath, hsecond⟩ := exists_of_word hwords
    obtain ⟨u, others, rfl, hno, -, hthird⟩ := exists_of_word hsecond
    obtain ⟨v, others, rfl, rfl, -, hfourth⟩ := exists_of_word hthird
    obtain ⟨w, rfl, hstring, rfl⟩ := exists_of_last hfourth
    exact parseLeaf_field hfield hpath (parseFieldRest_notMatches hno hop hstring compiles)
  | contains field text compiles =>
    obtain ⟨t, others, rfl, hstring, rfl, hsecond⟩ := exists_of_word hwords
    obtain ⟨u, others, rfl, hin, -, hthird⟩ := exists_of_word hsecond
    obtain ⟨v, rfl, hfield, hpath⟩ := exists_of_last hthird
    rw [cons_append, parseLeaf_string hstring]
    simp only [parseContains, cons_append, tail_cons, currentKind_cons, hin]
    exact parseContainsField_complete hfield hpath compiles
  | notContains field no text compiles =>
    obtain ⟨t, others, rfl, hstring, rfl, hsecond⟩ := exists_of_word hwords
    obtain ⟨u, others, rfl, hno, -, hthird⟩ := exists_of_word hsecond
    obtain ⟨v, others, rfl, hin, -, hfourth⟩ := exists_of_word hthird
    obtain ⟨w, rfl, hfield, hpath⟩ := exists_of_last hfourth
    rw [cons_append, parseLeaf_string hstring]
    simp only [parseContains, cons_append, tail_cons, currentKind_cons, hno, hin]
    exact parseContainsField_complete hfield hpath compiles

/-- A leaf starts with a field or with a string. -/
theorem Leaf.head (h : Leaf regexError words node) :
    ∃ kind text more, words = (kind, text) :: more ∧ (kind = .IDENT ∨ kind = .STRING) := by
  cases h with
  | compare | isIn | notIn | «matches» | notMatches => exact ⟨_, _, _, rfl, .inl rfl⟩
  | contains | notContains => exact ⟨_, _, _, rfl, .inr rfl⟩

end Leaves

/-! ## Expressions -/

/-- The kinds of token that do not go on with an expression. -/
def Level.Follows : Level → TokenKind → Prop
  | .or, kind | .orRest _, kind => kind ≠ .KW_OR ∧ kind ≠ .KW_AND
  | .and, kind | .andRest _, kind => kind ≠ .KW_AND
  | .not, _ | .primary, _ => True

/-- A count that is enough for so many tokens. -/
def Level.need (tokens : Nat) : Level → Nat
  | .or => 6 * tokens + 6
  | .orRest _ => 6 * tokens + 5
  | .and => 6 * tokens + 4
  | .andRest _ => 6 * tokens + 3
  | .not => 6 * tokens + 2
  | .primary => 6 * tokens + 1

section Expressions

variable {words : List Word} {node : QueryNode}

/-- What starts an expression that is neither the rest of one nor a negation. -/
theorem Derives.head_primary (h : Derives regexError .primary words node) :
    ∃ kind text more, words = (kind, text) :: more ∧ kind ≠ .KW_NOT := by
  cases h with
  | parens left right inner => exact ⟨_, _, _, rfl, by decide⟩
  | leaf leaf =>
    obtain ⟨kind, text, more, rfl, hkind⟩ := leaf.head
    refine ⟨kind, text, more, rfl, ?_⟩
    rcases hkind with rfl | rfl <;> decide

/-- The rest of a disjunction is empty or goes on with `or`. -/
theorem Derives.head_orRest {left : QueryNode} (h : Derives regexError (.orRest left) words node)
    {taken rest : List Token} (hwords : taken.map Token.word = words)
    (follows : currentKind rest ≠ .KW_AND) : currentKind (taken ++ rest) ≠ .KW_AND := by
  cases h with
  | orDone =>
    cases map_eq_nil_iff.mp hwords
    exact follows
  | orMore text hright more =>
    obtain ⟨t, others, rfl, hkind, -, -⟩ := exists_of_word hwords
    rw [cons_append, currentKind_cons, hkind]
    decide

/-- Every function of the parser takes what the grammar derives, once it may count down far
enough. The induction is on the derivation: each word that is taken pays for six calls. -/
theorem parseLevel_complete {level : Level} (h : Derives regexError level words node) :
    ∀ {taken rest : List Token} {fuel : Nat}, taken.map Token.word = words →
      level.Follows (currentKind rest) → level.need taken.length ≤ fuel →
        Succeeds (parseLevel regexError source level fuel (taken ++ rest)) (node, rest) := by
  induction h with
  | or hleft more ihleft ihmore =>
    intro taken rest fuel hwords follows enough
    obtain ⟨first, others, rfl, hfirst, hothers⟩ := map_eq_append_iff.mp hwords
    rw [Level.need, length_append] at enough
    obtain ⟨fuel, rfl⟩ : ∃ n, fuel = n + 1 := ⟨fuel - 1, by omega⟩
    rw [append_assoc]
    have next := more.head_orRest hothers follows.2
    exact succeeds_bind.mpr ⟨_, ihleft hfirst next (by rw [Level.need]; omega),
      ihmore hothers follows (by rw [Level.need]; omega)⟩
  | orDone left =>
    intro taken rest fuel hwords follows enough
    cases map_eq_nil_iff.mp hwords
    rw [Level.need] at enough
    obtain ⟨fuel, rfl⟩ : ∃ n, fuel = n + 1 := ⟨fuel - 1, by omega⟩
    rw [nil_append, parseLevel, parseOrRest, if_neg follows.1]
    exact succeeds_pure.mpr rfl
  | orMore text hright more ihright ihmore =>
    intro taken rest fuel hwords follows enough
    obtain ⟨t, after, rfl, hkind, -, hafter⟩ := exists_of_word hwords
    obtain ⟨first, others, rfl, hfirst, hothers⟩ := map_eq_append_iff.mp hafter
    rw [Level.need, length_cons, length_append] at enough
    obtain ⟨fuel, rfl⟩ : ∃ n, fuel = n + 1 := ⟨fuel - 1, by omega⟩
    rw [cons_append, append_assoc, parseLevel, parseOrRest, currentKind_cons, if_pos hkind]
    have next := more.head_orRest hothers follows.2
    exact succeeds_bind.mpr ⟨_, ihright hfirst next (by rw [Level.need]; omega),
      ihmore hothers follows (by rw [Level.need]; omega)⟩
  | and hleft more ihleft ihmore =>
    intro taken rest fuel hwords follows enough
    obtain ⟨first, others, rfl, hfirst, hothers⟩ := map_eq_append_iff.mp hwords
    rw [Level.need, length_append] at enough
    obtain ⟨fuel, rfl⟩ : ∃ n, fuel = n + 1 := ⟨fuel - 1, by omega⟩
    rw [append_assoc]
    exact succeeds_bind.mpr ⟨_, ihleft hfirst trivial (by rw [Level.need]; omega),
      ihmore hothers follows (by rw [Level.need]; omega)⟩
  | andDone left =>
    intro taken rest fuel hwords follows enough
    cases map_eq_nil_iff.mp hwords
    rw [Level.need] at enough
    obtain ⟨fuel, rfl⟩ : ∃ n, fuel = n + 1 := ⟨fuel - 1, by omega⟩
    rw [nil_append, parseLevel, parseAndRest, if_neg follows]
    exact succeeds_pure.mpr rfl
  | andMore text hright more ihright ihmore =>
    intro taken rest fuel hwords follows enough
    obtain ⟨t, after, rfl, hkind, -, hafter⟩ := exists_of_word hwords
    obtain ⟨first, others, rfl, hfirst, hothers⟩ := map_eq_append_iff.mp hafter
    rw [Level.need, length_cons, length_append] at enough
    obtain ⟨fuel, rfl⟩ : ∃ n, fuel = n + 1 := ⟨fuel - 1, by omega⟩
    rw [cons_append, append_assoc, parseLevel, parseAndRest, currentKind_cons, if_pos hkind]
    exact succeeds_bind.mpr ⟨_, ihright hfirst trivial (by rw [Level.need]; omega),
      ihmore hothers follows (by rw [Level.need]; omega)⟩
  | not text hoperand ih =>
    intro taken rest fuel hwords follows enough
    obtain ⟨t, others, rfl, hkind, -, hothers⟩ := exists_of_word hwords
    rw [Level.need, length_cons] at enough
    obtain ⟨fuel, rfl⟩ : ∃ n, fuel = n + 1 := ⟨fuel - 1, by omega⟩
    rw [cons_append, parseLevel, parseNotExpr, currentKind_cons, if_pos hkind]
    exact succeeds_bind.mpr ⟨_, ih hothers trivial (by rw [Level.need]; omega),
      succeeds_pure.mpr rfl⟩
  | primary h ih =>
    intro taken rest fuel hwords follows enough
    obtain ⟨kind, text, more, rfl, notNot⟩ := h.head_primary
    obtain ⟨t, others, rfl, hkind, -, -⟩ := exists_of_word hwords
    rw [Level.need] at enough
    obtain ⟨fuel, rfl⟩ : ∃ n, fuel = n + 1 := ⟨fuel - 1, by omega⟩
    rw [cons_append, parseLevel, parseNotExpr, currentKind_cons, if_neg (hkind ▸ notNot)]
    exact ih hwords trivial (by rw [Level.need]; omega)
  | parens left right h ih =>
    intro taken rest fuel hwords follows enough
    obtain ⟨t, after, rfl, hleft, -, hafter⟩ := exists_of_word hwords
    obtain ⟨inner, closing, rfl, hinner, hclosing⟩ := map_eq_append_iff.mp hafter
    obtain ⟨u, rfl, hright, -⟩ := exists_of_last hclosing
    rw [Level.need, length_cons, length_append] at enough
    obtain ⟨fuel, rfl⟩ : ∃ n, fuel = n + 1 := ⟨fuel - 1, by omega⟩
    rw [cons_append, append_assoc, parseLevel, parsePrimary, currentKind_cons, if_pos hleft]
    have next : Level.or.Follows (currentKind ([u] ++ rest)) := by
      rw [singleton_append, currentKind_cons, hright]
      exact ⟨by decide, by decide⟩
    refine succeeds_bind.mpr ⟨_, ih hinner next (by rw [Level.need]; omega), ?_⟩
    simp only [singleton_append, currentKind_cons, hright]
    exact succeeds_pure.mpr rfl
  | leaf leaf =>
    intro taken rest fuel hwords follows enough
    obtain ⟨kind, text, more, rfl, hhead⟩ := leaf.head
    obtain ⟨t, others, rfl, hkind, -, -⟩ := exists_of_word hwords
    have notParen : t.kind ≠ .LPAREN := by
      rcases hhead with rfl | rfl <;> rw [hkind] <;> decide
    rw [Level.need] at enough
    obtain ⟨fuel, rfl⟩ : ∃ n, fuel = n + 1 := ⟨fuel - 1, by omega⟩
    rw [parseLevel, parsePrimary, cons_append, currentKind_cons, if_neg notParen]
    exact succeeds_mk.mpr (parseLeaf_complete leaf hwords)

end Expressions

/-! ## The count suffices -/

section Totality

variable {α β : Type}

/-- The count did not run out. -/
def Defined (x : Parse α) : Prop := x.run ≠ none

theorem defined_pure {a : α} : Defined (pure a) := Option.some_ne_none _

theorem defined_throw {e : QueryError} : Defined (throw e : Parse α) := Option.some_ne_none _

theorem defined_mk {e : Except QueryError α} : Defined (ExceptT.mk (some e)) :=
  Option.some_ne_none e

theorem defined_bind {x : Parse α} {f : α → Parse β} (hx : Defined x)
    (hf : ∀ a, Succeeds x a → Defined (f a)) : Defined (x >>= f) := by
  unfold Defined at hx hf ⊢
  rw [ExceptT.run_bind]
  cases result : x.run with
  | none => exact absurd result hx
  | some outcome =>
    cases outcome with
    | error e => exact Option.some_ne_none _
    | ok a => exact hf a result

/-- What follows a success is no longer than what it started with. -/
theorem length_rest (level : Level) {fuel : Nat} {tokens rest : List Token} {node : QueryNode}
    (h : Succeeds (parseLevel regexError source level fuel tokens) (node, rest)) :
    rest.length ≤ tokens.length := by
  obtain ⟨taken, rfl, -⟩ := parseLevel_sound level h
  rw [length_append]
  exact Nat.le_add_left _ _

theorem parseLevel_defined {fuel : Nat} : ∀ (level : Level) {tokens : List Token},
    level.need tokens.length ≤ fuel → Defined (parseLevel regexError source level fuel tokens) := by
  induction fuel with
  | zero =>
    intro level tokens enough
    cases level <;> exact absurd enough (Nat.not_succ_le_zero _)
  | succ fuel ih =>
    intro level tokens enough
    cases level with
    | or =>
      rw [Level.need] at enough
      refine defined_bind (ih .and (by rw [Level.need]; omega)) ?_
      rintro ⟨left, rest⟩ hleft
      have shorter := length_rest .and hleft
      exact ih (.orRest left) (by rw [Level.need]; omega)
    | orRest left =>
      rw [parseLevel, parseOrRest]
      split
      next disjunct =>
        obtain ⟨t, more, rfl, -⟩ := exists_of_kind disjunct (by decide)
        rw [Level.need, length_cons] at enough
        refine defined_bind (ih .and (by rw [Level.need, tail_cons]; omega)) ?_
        rintro ⟨right, rest⟩ hright
        have shorter := length_rest .and hright
        rw [tail_cons] at shorter
        exact ih (.orRest (.or left right)) (by rw [Level.need]; omega)
      next => exact defined_pure
    | and =>
      rw [Level.need] at enough
      refine defined_bind (ih .not (by rw [Level.need]; omega)) ?_
      rintro ⟨left, rest⟩ hleft
      have shorter := length_rest .not hleft
      exact ih (.andRest left) (by rw [Level.need]; omega)
    | andRest left =>
      rw [parseLevel, parseAndRest]
      split
      next conjunct =>
        obtain ⟨t, more, rfl, -⟩ := exists_of_kind conjunct (by decide)
        rw [Level.need, length_cons] at enough
        refine defined_bind (ih .not (by rw [Level.need, tail_cons]; omega)) ?_
        rintro ⟨right, rest⟩ hright
        have shorter := length_rest .not hright
        rw [tail_cons] at shorter
        exact ih (.andRest (.and left right)) (by rw [Level.need]; omega)
      next => exact defined_pure
    | not =>
      rw [parseLevel, parseNotExpr]
      split
      next no =>
        obtain ⟨t, more, rfl, -⟩ := exists_of_kind no (by decide)
        rw [Level.need, length_cons] at enough
        exact defined_bind (ih .not (by rw [Level.need, tail_cons]; omega))
          fun _ _ => defined_pure
      next =>
        rw [Level.need] at enough
        exact ih .primary (by rw [Level.need]; omega)
    | primary =>
      rw [parseLevel, parsePrimary]
      split
      next left =>
        obtain ⟨t, more, rfl, -⟩ := exists_of_kind left (by decide)
        rw [Level.need, length_cons] at enough
        refine defined_bind (ih .or (by rw [Level.need, tail_cons]; omega)) ?_
        rintro ⟨expr, rest⟩ -
        simp only
        split
        · exact defined_pure
        · exact defined_throw
      next => exact defined_mk

/-- Parsing always comes to a result. -/
theorem parse_defined (input : List Char) : Defined (parse regexError input) := by
  unfold parse
  split
  next => exact defined_throw
  next tokens =>
    refine defined_bind (parseLevel_defined .or (Nat.le_refl _)) ?_
    rintro ⟨expr, rest⟩ -
    simp only
    split
    · exact defined_pure
    · exact defined_throw

end Totality

/-- The parser accepts a text exactly when its words up to the end are those of an expression,
and gives the tree of the derivation. -/
theorem parse_iff {input : List Char} {node : QueryNode} :
    Succeeds (parse regexError input) node ↔ ∃ taken rest, tokenize input = .ok (taken ++ rest) ∧
      currentKind rest = .END ∧ Derives regexError .or (taken.map Token.word) node := by
  unfold parse
  cases tokenize input with
  | error e =>
    refine ⟨fun h => absurd h not_succeeds_throw, ?_⟩
    rintro ⟨taken, rest, htokens, -⟩
    cases htokens
  | ok tokens =>
    constructor
    · intro h
      obtain ⟨⟨expr, rest⟩, hexpr, hend⟩ := succeeds_bind.mp h
      simp only at hend
      split at hend
      next last =>
        cases succeeds_pure.mp hend
        have parsed : Succeeds (parseLevel regexError input .or (fuelFor tokens) tokens)
            (node, rest) := hexpr
        obtain ⟨taken, rfl, derives⟩ := parseLevel_sound .or parsed
        exact ⟨taken, rest, rfl, last, derives⟩
      next => exact absurd hend not_succeeds_throw
    · rintro ⟨taken, rest, htokens, last, derives⟩
      cases htokens
      have follows : Level.or.Follows (currentKind rest) := by
        rw [last]
        exact ⟨by decide, by decide⟩
      have enough : Level.or.need taken.length ≤ fuelFor (taken ++ rest) := by
        rw [Level.need, fuelFor, length_append]
        omega
      refine succeeds_bind.mpr ⟨_, parseLevel_complete derives rfl follows enough, ?_⟩
      simp only [last]
      exact succeeds_pure.mpr rfl

end DFTracer.Query.Grammar
