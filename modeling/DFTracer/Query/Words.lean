/-
# The words of a text

What the parser sees of a text is its words. They depend on the text alone, not on where it stands,
and a text that is followed by a character that goes on with no token has the words it has alone,
then those of what follows.
-/

import DFTracer.Query.GrammarComplete

namespace DFTracer.Query

open List

open Math.NumberText (isSpace)

/-- The words of a text, once so many characters are skipped. -/
def wordsFrom : Nat → List Char → Option (List Word)
  | _, [] => some []
  | skip + 1, _ :: rest => wordsFrom skip rest
  | 0, c :: rest =>
    if isSpace c then wordsFrom 0 rest
    else
      match lexeme c rest with
      | .error _ => none
      | .ok l => (wordsFrom l.more rest).map fun words =>
        (l.kind, String.ofList l.text) :: words

/-- The words of a text, unless it has a character that starts no token. -/
def wordsOf (text : List Char) : Option (List Word) := wordsFrom 0 text

section Tokens

variable {input rest : List Char} {pos skip : Nat}

theorem tokenizeFrom_ok {tokens : List Token} (h : tokenizeFrom input pos skip rest = .ok tokens) :
    ∃ taken, tokens = taken ++ [⟨.END, "", input.length⟩] ∧
      wordsFrom skip rest = some (taken.map Token.word) := by
  fun_induction tokenizeFrom input pos skip rest generalizing tokens with
  | case1 =>
    cases h
    exact ⟨[], rfl, rfl⟩
  | case2 pos skip c rest ih => exact ih h
  | case3 pos c rest space ih =>
    obtain ⟨taken, rfl, words⟩ := ih h
    refine ⟨taken, rfl, ?_⟩
    rw [wordsFrom, if_pos space, words]
  | case4 | case5 => cases h
  | case6 pos c rest space l hl tokens htokens ih =>
    cases h
    obtain ⟨taken, rfl, words⟩ := ih htokens
    refine ⟨⟨l.kind, String.ofList l.text, pos⟩ :: taken, rfl, ?_⟩
    rw [wordsFrom, if_neg space, hl]
    simp only [words]
    rfl

theorem tokenizeFrom_of_words {words : List Word} (h : wordsFrom skip rest = some words) :
    ∃ taken, tokenizeFrom input pos skip rest = .ok (taken ++ [⟨.END, "", input.length⟩]) ∧
      taken.map Token.word = words := by
  fun_induction tokenizeFrom input pos skip rest generalizing words with
  | case1 =>
    cases h
    exact ⟨[], rfl, rfl⟩
  | case2 pos skip c rest ih => exact ih h
  | case3 pos c rest space ih =>
    rw [wordsFrom, if_pos space] at h
    exact ih h
  | case4 pos c rest space len msg hl =>
    rw [wordsFrom, if_neg space, hl] at h
    cases h
  | case5 pos c rest space l hl e he ih =>
    rw [wordsFrom, if_neg space, hl] at h
    obtain ⟨others, hothers, -⟩ := Option.map_eq_some_iff.mp h
    obtain ⟨taken, htaken, -⟩ := ih hothers
    rw [he] at htaken
    cases htaken
  | case6 pos c rest space l hl tokens htokens ih =>
    rw [wordsFrom, if_neg space, hl] at h
    obtain ⟨others, hothers, rfl⟩ := Option.map_eq_some_iff.mp h
    obtain ⟨taken, htaken, rfl⟩ := ih hothers
    rw [htokens] at htaken
    cases htaken
    exact ⟨⟨l.kind, String.ofList l.text, pos⟩ :: taken, rfl, rfl⟩

end Tokens

variable {c : Char} {rest : List Char} {l : Lexeme}

theorem operator_kind (h : operator c rest = some l) :
    l.kind ≠ .END := by
  unfold operator at h
  split at h <;> cases h <;> simp

theorem identKind_ne_end (text : List Char) : identKind text ≠ .END := by
  unfold identKind
  simp only
  split_ifs <;> decide

theorem lexeme_kind (h : lexeme c rest = .ok l) :
    l.kind ≠ .END := by
  unfold lexeme at h
  split at h
  next op hop =>
    cases h
    exact operator_kind hop
  next =>
    split at h
    next =>
      split at h <;> cases h
      simp
    next =>
      split at h
      next =>
        cases h
        simp only
        split_ifs <;> decide
      next =>
        split at h <;> cases h
        exact identKind_ne_end _

/-- No word of a text is its end. -/
theorem wordsFrom_kind {skip : Nat} {text : List Char} {words : List Word}
    (h : wordsFrom skip text = some words) : ∀ word ∈ words, word.1 ≠ .END := by
  fun_induction wordsFrom skip text generalizing words with
  | case1 =>
    cases h
    exact forall_mem_nil _
  | case2 skip c rest ih | case3 c rest space ih => exact ih h
  | case4 => cases h
  | case5 c rest space l hl ih =>
    obtain ⟨others, hothers, rfl⟩ := Option.map_eq_some_iff.mp h
    intro word hword
    cases hword with
    | head => exact lexeme_kind hl
    | tail _ more => exact ih hothers word more

/-! ## Texts side by side -/

/-- A character that goes on with no token. -/
structure Boundary (d : Char) : Prop where
  notIdent : isIdentChar d = false
  notNumber : isNumberChar d = false
  notOperator : d ≠ '=' ∧ d ≠ '~' ∧ d ≠ '*'
  notBracket : d ≠ '[' ∧ d ≠ ']'

section Boundary

variable {d : Char} {more : List Char} {text : List Char} {words : List Word}

theorem Boundary.notDigit (h : Boundary d) : d.isDigit = false := by
  have notNumber := h.notNumber
  unfold isNumberChar at notNumber
  simp only [Bool.or_eq_false_iff] at notNumber
  exact notNumber.1.1.1

/-- A run of characters of a class is over in front of a character that is not in the class. -/
theorem takeWhile_append_cons {p : Char → Bool} (stop : p d = false) (text : List Char) :
    (text ++ d :: more).takeWhile p = text.takeWhile p := by
  induction text with
  | nil => simp [stop]
  | cons c text ih => rw [cons_append, takeWhile_cons, takeWhile_cons, ih]

theorem stringBody_append {quote : Char} {body : List Char}
    (h : stringBody quote text = some body) (more : List Char) :
    stringBody quote (text ++ more) = some body ∧ body.length < text.length := by
  fun_induction stringBody quote text generalizing body with
  | case1 => cases h
  | case2 rest =>
    cases h
    rw [stringBody.eq_def]
    simp
  | case3 => cases h
  | case4 e rest notQuote ih =>
    obtain ⟨inner, hinner, rfl⟩ := Option.map_eq_some_iff.mp h
    obtain ⟨same, shorter⟩ := ih hinner
    rw [cons_append, cons_append, stringBody.eq_def]
    simp only [notQuote, if_false, if_true, same, Option.map_some, length_cons]
    exact ⟨trivial, by omega⟩
  | case5 c rest notQuote notEscape ih =>
    obtain ⟨inner, hinner, rfl⟩ := Option.map_eq_some_iff.mp h
    obtain ⟨same, shorter⟩ := ih hinner
    rw [cons_append, stringBody.eq_def]
    simp only [notQuote, notEscape, if_false, same, Option.map_some, length_cons]
    exact ⟨trivial, by omega⟩

section

variable (h : Boundary d)

include h

theorem indexSuffix_boundary (bound : Nat) :
    indexSuffix bound (d :: more) = [] := by
  cases bound with
  | zero => rfl
  | succ bound =>
    exact if_neg fun first => h.notBracket.1 first.1

/-- The indices of an identifier end in front of a boundary. -/
theorem indexSuffix_append {bound : Nat} : ∀ {wider : Nat} {text : List Char},
    text.length ≤ bound → bound ≤ wider →
      indexSuffix wider (text ++ d :: more) = indexSuffix bound text ∧
        (indexSuffix bound text).length ≤ text.length := by
  induction bound with
  | zero =>
    intro wider text short wide
    cases length_eq_zero_iff.mp (Nat.le_zero.mp short)
    exact ⟨indexSuffix_boundary h wider, Nat.le_refl _⟩
  | succ bound ih =>
    intro wider text short wide
    obtain ⟨wider, rfl⟩ : ∃ n, wider = n + 1 := ⟨wider - 1, by omega⟩
    cases text with
    | nil =>
      rw [nil_append, indexSuffix_boundary h]
      exact ⟨rfl, Nat.le_refl _⟩
    | cons c rest =>
      have digits : (rest ++ d :: more).takeWhile Char.isDigit = rest.takeWhile Char.isDigit :=
        takeWhile_append_cons h.notDigit rest
      have short' : (rest.takeWhile Char.isDigit).length ≤ rest.length :=
        (List.takeWhile_prefix _).length_le
      have after : (rest ++ d :: more).drop (rest.takeWhile Char.isDigit).length =
          rest.drop (rest.takeWhile Char.isDigit).length ++ d :: more :=
        drop_append_of_le_length short'
      rw [cons_append, indexSuffix, indexSuffix, digits, after]
      cases closing : rest.drop (rest.takeWhile Char.isDigit).length with
      | nil =>
        have openEnd : ¬ (c = '[' ∧ rest.takeWhile Char.isDigit ≠ [] ∧
            ([] ++ d :: more).head? = some ']') := by
          rintro ⟨-, -, close⟩
          exact h.notBracket.2 (Option.some.inj close)
        have openNil : ¬ (c = '[' ∧ rest.takeWhile Char.isDigit ≠ [] ∧
            ([] : List Char).head? = some ']') := fun close => nomatch close.2.2
        rw [if_neg openEnd, if_neg openNil]
        exact ⟨rfl, Nat.zero_le _⟩
      | cons e tail =>
        have next : rest.drop ((rest.takeWhile Char.isDigit).length + 1) = tail := by
          rw [← drop_drop, closing, drop_one, tail_cons]
        have next' : (rest ++ d :: more).drop ((rest.takeWhile Char.isDigit).length + 1) =
            tail ++ d :: more := by
          rw [← drop_drop, after, closing, cons_append, drop_one, tail_cons]
        have fits : (rest.takeWhile Char.isDigit).length + 1 + tail.length =
            rest.length := by
          have total := congrArg List.length closing
          rw [length_drop, length_cons] at total
          omega
        rw [length_cons] at short
        obtain ⟨same, shorter⟩ := @ih wider tail (by omega) (by omega)
        rw [next, next', same]
        refine ⟨rfl, ?_⟩
        split
        · simp only [length_cons, length_append]
          omega
        · exact Nat.zero_le _

theorem identRun_append (text : List Char) :
    identRun (text ++ d :: more) = identRun text ∧ (identRun text).length ≤ text.length := by
  have run : (text ++ d :: more).takeWhile isIdentChar = text.takeWhile isIdentChar :=
    takeWhile_append_cons h.notIdent text
  have short : (text.takeWhile isIdentChar).length ≤ text.length := (List.takeWhile_prefix _).length_le
  have after : (text ++ d :: more).drop (text.takeWhile isIdentChar).length =
      text.drop (text.takeWhile isIdentChar).length ++ d :: more :=
    drop_append_of_le_length short
  have tail : (text.drop (text.takeWhile isIdentChar).length).length ≤ text.length := by
    rw [length_drop]
    omega
  obtain ⟨same, shorter⟩ := @indexSuffix_append d more h _ (text ++ d :: more).length _ tail
    (by rw [length_append]; omega)
  unfold identRun
  simp only [run, after, same]
  rw [length_drop] at shorter
  rw [length_append]
  exact ⟨trivial, by omega⟩

theorem operator_append {c : Char} {text : List Char} {l : Lexeme}
    (hop : operator c text = some l) :
    operator c (text ++ d :: more) = some l ∧ l.more ≤ text.length := by
  obtain ⟨notEq, notTilde, notStar⟩ := h.notOperator
  unfold operator at hop
  split at hop <;> cases hop
  all_goals
    refine ⟨?_, by simp⟩
    -- what decides between a longer and a shorter operator stands in the text or is the boundary
    first
    | rfl
    | cases text with
      | nil => simp [operator, *]
      | cons e rest => simp_all [operator]
    | cases ‹List Char› with
      | nil => simp [operator, *]
      | cons e rest => simp_all [operator]

theorem isNumberStart_append (c : Char) (text : List Char) :
    isNumberStart c (text ++ d :: more) = isNumberStart c text := by
  cases text with
  | nil => simp [isNumberStart, h.notDigit]
  | cons e rest => rfl

end

/-- No operator starts where a token of another kind does. -/
theorem operator_none {c : Char} {l : Lexeme} (h : lexeme c text = .ok l)
    (notOperator : operator c text = none) (other : List Char) : operator c other = none := by
  cases found : operator c other with
  | none => rfl
  | some op =>
    exfalso
    have plain : c ∈ ['=', '!', '>', '<', '~', '(', ')', '[', ']', ','] := by
      unfold operator at found
      split at found <;> simp_all
    rw [lexeme, notOperator] at h
    simp only [mem_cons, not_mem_nil, or_false] at plain
    rcases plain with rfl | rfl | rfl | rfl | rfl | rfl | rfl | rfl | rfl | rfl <;>
      exact nomatch h

/-- A token in front of a boundary is the token that the text has alone. -/
theorem lexeme_append (h : Boundary d) {c : Char} {text : List Char} {l : Lexeme}
    (hl : lexeme c text = .ok l) :
    lexeme c (text ++ d :: more) = .ok l ∧ l.more ≤ text.length := by
  cases hop : operator c text with
  | some op =>
    rw [lexeme, hop] at hl
    cases hl
    obtain ⟨same, short⟩ := @operator_append d more h _ _ _ hop
    rw [lexeme, same]
    exact ⟨rfl, short⟩
  | none =>
    have other := operator_none hl hop (text ++ d :: more)
    rw [lexeme, hop] at hl
    rw [lexeme, other]
    simp only [isNumberStart_append h, takeWhile_append_cons h.notNumber] at hl ⊢
    split at hl
    next quote =>
      rw [if_pos quote]
      split at hl
      next body hbody =>
        cases hl
        obtain ⟨same, shorter⟩ := stringBody_append hbody (d :: more)
        rw [same]
        exact ⟨rfl, shorter⟩
      next => cases hl
    next quote =>
      rw [if_neg quote]
      split at hl
      next number =>
        rw [if_pos number]
        cases hl
        exact ⟨rfl, (List.takeWhile_prefix _).length_le⟩
      next number =>
        rw [if_neg number]
        split at hl
        next ident =>
          obtain ⟨same, short⟩ := @identRun_append d more h text
          rw [if_pos ident, same]
          cases hl
          exact ⟨rfl, short⟩
        next => cases hl

/-- The words of a text in front of a boundary are its own. -/
theorem wordsFrom_append (h : Boundary d) {skip : Nat}
    (hwords : wordsFrom skip text = some words) (inside : skip ≤ text.length) :
    wordsFrom skip (text ++ d :: more) = (wordsOf (d :: more)).map (words ++ ·) := by
  fun_induction wordsFrom skip text generalizing words with
  | case1 skip =>
    cases hwords
    cases Nat.le_zero.mp inside
    exact Option.map_id'.symm
  | case2 skip c rest ih => exact ih hwords (Nat.le_of_succ_le_succ inside)
  | case3 c rest space ih =>
    rw [cons_append, wordsFrom, if_pos space]
    exact ih hwords (Nat.zero_le _)
  | case4 => cases hwords
  | case5 c rest space l hl ih =>
    obtain ⟨others, hothers, rfl⟩ := Option.map_eq_some_iff.mp hwords
    obtain ⟨same, short⟩ := @lexeme_append d more h _ _ _ hl
    rw [cons_append, wordsFrom, if_neg space, same]
    simp only [ih hothers short, Option.map_map]
    rfl

theorem wordsOf_append (h : Boundary d) (hwords : wordsOf text = some words) :
    wordsOf (text ++ d :: more) = (wordsOf (d :: more)).map (words ++ ·) :=
  wordsFrom_append h hwords (Nat.zero_le _)

end Boundary

namespace Grammar

open DFTracer.Query.Parser

variable {regexError : String → Bool → Option String} {words : List Word} {literals : List Literal}
  {node : QueryNode}

theorem literalOf_kind {kind : TokenKind} {text : String} {literal : Literal}
    (h : literalOf kind text = .ok literal) : kind ≠ .END := by
  rintro rfl
  cases h

theorem Elements.kind (h : Elements words literals) :
    ∀ word ∈ words, word.1 ≠ .END := by
  induction h with
  | close text => simp
  | next comma value more ih => simpa [literalOf_kind value] using ih

theorem Array.kind (h : Array words literals) :
    ∀ word ∈ words, word.1 ≠ .END := by
  cases h with
  | empty left right => simp
  | cons left value more => simpa [literalOf_kind value] using more.kind

theorem Leaf.kind (h : Leaf regexError words node) :
    ∀ word ∈ words, word.1 ≠ .END := by
  cases h with
  | compare field opText hop value =>
    have operator : ∀ {kind : TokenKind} {op : CompareOp}, compOp kind = some op →
        kind ≠ .END := by
      rintro kind op h rfl
      cases h
    simp [operator hop, literalOf_kind value]
  | isIn field text values | notIn field no text values => simpa using values.kind
  | «matches» field text hop compiles =>
    have operator : ∀ {kind : TokenKind} {op : MatchOp × Bool}, matchOp kind = some op →
        kind ≠ .END := by
      rintro kind op h rfl
      cases h
    simp [operator hop]
  | notMatches field no text hop compiles =>
    have operator : ∀ {kind : TokenKind} {op : MatchOp}, notMatchOp kind = some op →
        kind ≠ .END := by
      rintro kind op h rfl
      cases h
    simp [operator hop]
  | contains | notContains => simp

/-- No word of an expression is the end. -/
theorem Derives.kind {level : Level}
    (h : Derives regexError level words node) : ∀ word ∈ words, word.1 ≠ .END := by
  induction h with
  | or _ _ first rest | and _ _ first rest =>
    intro word hword
    exact (mem_append.mp hword).elim (first word) (rest word)
  | orDone | andDone => exact forall_mem_nil _
  | orMore text _ _ first rest | andMore text _ _ first rest =>
    intro word hword
    cases hword with
    | head => simp
    | tail _ more => exact (mem_append.mp more).elim (first word) (rest word)
  | not text _ ih => simpa using ih
  | primary _ ih => exact ih
  | parens left right _ ih =>
    intro word hword
    simp only [mem_cons, mem_append, not_mem_nil, or_false] at hword
    rcases hword with rfl | inside | rfl
    · simp
    · exact ih word inside
    · simp
  | leaf leaf => exact leaf.kind

/-- A text is accepted exactly when its words are those of an expression. -/
theorem parse_iff_words {input : List Char} :
    Succeeds (parse regexError input) node ↔
      ∃ words, wordsOf input = some words ∧ Derives regexError .or words node := by
  rw [parse_iff]
  constructor
  · rintro ⟨taken, rest, htokens, last, derives⟩
    obtain ⟨others, hothers, words⟩ := tokenizeFrom_ok htokens
    have noEnd : ∀ t ∈ others, t.kind ≠ .END := fun t ht =>
      wordsFrom_kind words t.word (mem_map_of_mem ht)
    have taken_eq : taken = others := by
      rcases append_eq_append_iff.mp hothers with ⟨more, rfl, hrest⟩ | ⟨more, rfl, hrest⟩
      · cases more with
        | nil => exact (append_nil taken).symm
        | cons t more =>
          -- the parser would have stopped at a token that is not the end
          rw [hrest] at last
          exact absurd last (noEnd t (by simp))
      · cases more with
        | nil => exact append_nil others
        | cons t more =>
          injection hrest with first _
          have inside := derives.kind t.word (by simp)
          rw [← first] at inside
          exact absurd rfl inside
    exact ⟨_, words, taken_eq ▸ derives⟩
  · rintro ⟨words, hwords, derives⟩
    obtain ⟨taken, htokens, rfl⟩ := @tokenizeFrom_of_words input input 0 0 _ hwords
    exact ⟨taken, _, htokens, rfl, derives⟩

end Grammar

end DFTracer.Query
