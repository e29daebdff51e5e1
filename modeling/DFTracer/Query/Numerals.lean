/-
# The numbers of a query

A number token is any run of the characters of numbers, but the readers of its text stop where the
numeral ends, and what follows is dropped without an error. So the numbers of an accepted query
are those written exactly when no number token goes on after its numeral.
-/

import DFTracer.Query.Words
import Mathlib.Data.List.TakeWhile

namespace DFTracer.Query

open List

open Math.NumberText (IntNumeral DecimalNumeral Digits PowerOfTen fromCharsInt stod)

/-- Whether a token is a number. -/
def TokenKind.isNumeric : TokenKind → Bool
  | .INT | .FLOAT => true
  | _ => false

/-- Whether a literal is a number. -/
def Literal.isNumeric : Literal → Bool
  | .int64 _ | .uint64 _ | .double _ => true
  | .string _ | .bool _ => false

/-- The literals of a query, from left to right. -/
def QueryNode.literals : QueryNode → List Literal
  | .compare _ _ value => [value]
  | .isIn _ values | .notIn _ values => values
  | .matches _ _ _ _ => []
  | .and left right | .or left right => left.literals ++ right.literals
  | .not operand => operand.literals

/-- The numbers of a query, from left to right. -/
def QueryNode.numbers (node : QueryNode) : List Literal := node.literals.filter Literal.isNumeric

/-- The number tokens of a text, from left to right. -/
def numberTokens (words : List Word) : List Word := words.filter fun word => word.1.isNumeric

/-- A number that is the value of the complete text of its token. -/
inductive ReadsComplete : Word → Literal → Prop
  | int (n : IntNumeral) {literal : Literal} (value : literal.exactInt = some n.value) :
      ReadsComplete (.INT, String.ofList n.text) literal
  | float (n : DecimalNumeral) {x : Math.Float64.Double} (value : n.value = some (.number x)) :
      ReadsComplete (.FLOAT, String.ofList n.text) (.double x)

/-! ## What follows a numeral -/

/-- The text after a minus sign. -/
def afterMinus : List Char → List Char
  | '-' :: rest => rest
  | rest => rest

/-- The text after a sign. -/
def afterSign : List Char → List Char
  | '+' :: rest => rest
  | '-' :: rest => rest
  | rest => rest

/-- The text after an exponent, which is one only with a digit in it. -/
def afterExponent : List Char → List Char
  | [] => []
  | c :: rest =>
    if (c = 'e' ∨ c = 'E') ∧ (afterSign rest).head?.any Char.isDigit = true then
      (afterSign rest).dropWhile Char.isDigit
    else c :: rest

/-- The text after a point and the digits that follow it. -/
def afterFraction : List Char → List Char
  | '.' :: rest => rest.dropWhile Char.isDigit
  | rest => rest

/-- What follows the numeral at the start of a number token. -/
def numeralTail (word : Word) : List Char :=
  let rest := (afterMinus word.2.toList).dropWhile Char.isDigit
  match word.1 with
  | .FLOAT => afterExponent (afterFraction rest)
  | _ => rest

section Tails

open Math.NumberText.DecimalNumeral (pointText exponentText)

theorem dropWhile_digits {run rest : List Char} (digits : ∀ c ∈ run, c.isDigit = true)
    (stops : rest.head?.all (!·.isDigit) = true) : (run ++ rest).dropWhile Char.isDigit = rest := by
  rw [dropWhile_append_of_pos digits]
  cases rest with
  | nil => rfl
  | cons c rest => exact dropWhile_cons_of_neg (by simpa using stops)

variable {text : List Char} {c : Char}

/-- A text of digits only. -/
theorem digits_of_dropWhile (h : text.dropWhile Char.isDigit = []) :
    ∀ c ∈ text, c.isDigit = true := by
  exact dropWhile_eq_nil_iff.mp h

theorem nonempty_of_head (h : text.head?.any Char.isDigit = true) :
    text ≠ [] := by
  rintro rfl
  cases h

/-- A digit is no sign. -/
theorem afterMinus_digit (digit : c.isDigit = true) (rest : List Char) :
    afterMinus (c :: rest) = c :: rest := by
  unfold afterMinus
  split
  · rename_i same
    cases same
    cases digit
  · rfl

theorem afterSign_digit (digit : c.isDigit = true) (rest : List Char) :
    afterSign (c :: rest) = c :: rest := by
  unfold afterSign
  split
  · rename_i same
    cases same
    cases digit
  · rename_i same
    cases same
    cases digit
  · rfl

theorem afterMinus_spec (text : List Char) :
    ∃ negative : Bool, text = (if negative then ['-'] else []) ++ afterMinus text := by
  unfold afterMinus
  split
  · exact ⟨true, rfl⟩
  · exact ⟨false, rfl⟩

theorem afterMinus_digits (negative : Bool) (run : Digits) (rest : List Char) :
    afterMinus ((if negative then ['-'] else []) ++ (run.text ++ rest)) = run.text ++ rest := by
  cases negative with
  | true => rfl
  | false =>
    obtain ⟨text, nonempty, digits⟩ := run
    cases text with
    | nil => exact absurd rfl nonempty
    | cons c text => exact afterMinus_digit (digits c mem_cons_self) _

theorem afterSign_spec (text : List Char) :
    ∃ negative, text = Math.NumberText.signText negative ++ afterSign text := by
  unfold afterSign
  split
  · exact ⟨some false, rfl⟩
  · exact ⟨some true, rfl⟩
  · exact ⟨none, rfl⟩

theorem afterSign_digits (negative : Option Bool) (run : Digits) :
    afterSign (Math.NumberText.signText negative ++ run.text) = run.text := by
  cases negative with
  | some negative => cases negative <;> rfl
  | none =>
    obtain ⟨text, nonempty, digits⟩ := run
    cases text with
    | nil => exact absurd rfl nonempty
    | cons c text => exact afterSign_digit (digits c mem_cons_self) _

/-- Nothing follows an exponent in its own text, and what nothing follows is one. -/
theorem afterExponent_eq_nil :
    afterExponent text = [] ↔ ∃ e, text = exponentText e := by
  constructor
  · intro h
    cases text with
    | nil => exact ⟨none, rfl⟩
    | cons c rest =>
      rw [afterExponent] at h
      split at h
      next letter =>
        obtain ⟨letter, digit⟩ := letter
        obtain ⟨negative, same⟩ := afterSign_spec rest
        obtain ⟨run, hrun⟩ : ∃ run : Digits, run.text = afterSign rest :=
          ⟨⟨afterSign rest, nonempty_of_head digit, digits_of_dropWhile h⟩, rfl⟩
        rw [← hrun] at same
        rcases letter with rfl | rfl
        · exact ⟨some ⟨false, negative, run⟩, congrArg _ same⟩
        · exact ⟨some ⟨true, negative, run⟩, congrArg _ same⟩
      next => cases h
  · rintro ⟨e, rfl⟩
    cases e with
    | none => rfl
    | some e =>
      obtain ⟨upper, negative, run⟩ := e
      have letters : ∀ upper, (if upper = true then 'E' else 'e') = 'e' ∨
          (if upper = true then 'E' else 'e') = 'E' := by decide
      have digit : run.text.head?.any Char.isDigit = true := by
        obtain ⟨text, nonempty, digits⟩ := run
        cases text with
        | nil => exact absurd rfl nonempty
        | cons c text => exact digits c mem_cons_self
      rw [exponentText, PowerOfTen.text, afterExponent, afterSign_digits]
      rw [if_pos ⟨letters upper, digit⟩]
      have all := @dropWhile_digits run.text [] run.digits rfl
      rw [append_nil] at all
      exact all

theorem afterFraction_spec (text : List Char) :
    ∃ fraction : Option (List Char), (∀ run ∈ fraction, ∀ c ∈ run, c.isDigit = true) ∧
      text = pointText fraction ++ afterFraction text := by
  unfold afterFraction
  split
  · rename_i rest
    refine ⟨some (rest.takeWhile Char.isDigit), ?_, ?_⟩
    · rintro run same c hc
      cases same
      exact mem_takeWhile_imp hc
    · exact congrArg ('.' :: ·) takeWhile_append_dropWhile.symm
  · exact ⟨none, by simp, rfl⟩

theorem afterFraction_text (n : DecimalNumeral) :
    afterFraction (pointText n.fraction ++ exponentText n.exponent) = exponentText n.exponent := by
  cases fraction : n.fraction with
  | some run => exact dropWhile_digits (n.digits run fraction) n.head_exponentText
  | none =>
    unfold afterFraction
    split
    · rename_i same
      cases exponent : n.exponent with
      | none =>
        rw [exponent] at same
        cases same
      | some e =>
        rw [exponent] at same
        obtain ⟨upper, negative, run⟩ := e
        cases upper <;> cases same
    · rfl

/-- Where nothing follows the numeral, a token that has a digit is one. -/
theorem numeralTail_int {text : String}
    (digit : (afterMinus text.toList).head?.any Char.isDigit = true) :
    numeralTail (.INT, text) = [] ↔ ∃ n : IntNumeral, text = String.ofList n.text := by
  constructor
  · intro h
    obtain ⟨negative, same⟩ := afterMinus_spec text.toList
    refine ⟨⟨negative, ⟨afterMinus text.toList, nonempty_of_head digit,
      digits_of_dropWhile h⟩⟩, ?_⟩
    rw [IntNumeral.text, ← same, String.ofList_toList]
  · rintro ⟨n, rfl⟩
    have all := @dropWhile_digits n.run.text [] n.run.digits rfl
    have after := afterMinus_digits n.negative n.run []
    rw [append_nil] at all after
    change (afterMinus (String.ofList n.text).toList).dropWhile Char.isDigit = []
    rw [String.toList_ofList, IntNumeral.text, after, all]

theorem numeralTail_float {text : String}
    (digit : (afterMinus text.toList).head?.any Char.isDigit = true) :
    numeralTail (.FLOAT, text) = [] ↔ ∃ n : DecimalNumeral, text = String.ofList n.text := by
  constructor
  · intro h
    obtain ⟨negative, same⟩ := afterMinus_spec text.toList
    obtain ⟨fraction, digits, hfraction⟩ :=
      afterFraction_spec ((afterMinus text.toList).dropWhile Char.isDigit)
    obtain ⟨exponent, hexponent⟩ := afterExponent_eq_nil.mp h
    have whole : (afterMinus text.toList).takeWhile Char.isDigit ≠ [] := by
      cases hrest : afterMinus text.toList with
      | nil =>
        rw [hrest] at digit
        cases digit
      | cons c rest =>
        rw [hrest] at digit
        have first : c.isDigit = true := digit
        rw [takeWhile_cons_of_pos first]
        exact cons_ne_nil _ _
    refine ⟨⟨negative, ⟨_, whole, fun c hc => mem_takeWhile_imp hc⟩, fraction, exponent,
      digits⟩, ?_⟩
    simp only [DecimalNumeral.text]
    rw [← hexponent, ← hfraction, takeWhile_append_dropWhile, ← same, String.ofList_toList]
  · rintro ⟨n, rfl⟩
    change afterExponent (afterFraction ((afterMinus (String.ofList n.text).toList).dropWhile
      Char.isDigit)) = []
    rw [String.toList_ofList, DecimalNumeral.text, afterMinus_digits,
      dropWhile_digits n.whole.digits n.head_rest, afterFraction_text]
    exact afterExponent_eq_nil.mpr ⟨_, rfl⟩

end Tails

variable {literal : Literal} {word : Word}

/-- The literal of a token is a number when the token is. -/
theorem literalOf_isNumeric {kind : TokenKind} {text : String}
    (h : Parser.literalOf kind text = .ok literal) : literal.isNumeric = kind.isNumeric := by
  unfold Parser.literalOf at h
  split at h
  · cases h
    rfl
  · split at h
    · cases h
    · cases h
      split_ifs <;> rfl
  · split at h
    · cases h
      rfl
    · cases h
  · cases h
    rfl
  · cases h
    rfl
  · cases h

/-- The literal of a whole numeral is its value. -/
theorem readsComplete_of_tail (number : word.1.isNumeric = true)
    (digit : (afterMinus word.2.toList).head?.any Char.isDigit = true)
    (value : Parser.literalOf word.1 word.2 = .ok literal) (h : numeralTail word = []) :
    ReadsComplete word literal := by
  obtain ⟨kind, text⟩ := word
  cases kind <;> cases number
  case INT =>
      obtain ⟨n, rfl⟩ := (numeralTail_int digit).mp h
      simp only [Parser.literalOf] at value
      split at value
      · cases value
      next v hv =>
        cases value
        obtain ⟨low, high⟩ := Math.NumberText.fromCharsInt_range hv
        cases Math.NumberText.fromCharsInt_text n hv
        refine .int n ?_
        split
        next nonneg =>
          have small : n.value.toNat < 2 ^ 64 := by omega
          have back : (n.value.toNat : Int) = n.value := Int.toNat_of_nonneg nonneg
          rw [Literal.exactInt, UInt64.toNat_ofNat_of_lt' small, back]
        next => rw [Literal.exactInt, Int64.toInt_ofInt_of_le low high]
  case FLOAT =>
      obtain ⟨n, rfl⟩ := (numeralTail_float digit).mp h
      simp only [Parser.literalOf, n.stod_text] at value
      split at value
      next x hx =>
        cases value
        exact .float n hx
      next => cases value

theorem ReadsComplete.tail (h : ReadsComplete word literal)
    (digit : (afterMinus word.2.toList).head?.any Char.isDigit = true) : numeralTail word = [] := by
  cases h with
  | int n value => exact (numeralTail_int digit).mpr ⟨n, rfl⟩
  | float n value => exact (numeralTail_float digit).mpr ⟨n, rfl⟩

/-- A number token starts with a digit after its sign. -/
theorem lexeme_number {c : Char} {rest : List Char} {l : Lexeme} (h : lexeme c rest = .ok l)
    (number : l.kind.isNumeric = true) : (afterMinus l.text).head?.any Char.isDigit = true := by
  unfold lexeme at h
  split at h
  next op hop =>
    cases h
    unfold operator at hop
    split at hop <;> cases hop <;> cases number
  next =>
    split at h
    next =>
      split at h <;> cases h
      cases number
    next =>
      split at h
      next start =>
        cases h
        simp only [isNumberStart, Bool.or_eq_true, Bool.and_eq_true, beq_iff_eq] at start
        rcases start with digit | ⟨rfl, digit⟩
        · rw [afterMinus_digit digit]
          exact digit
        · cases rest with
          | nil => cases digit
          | cons d rest =>
            have first : d.isDigit = true := digit
            have inside : isNumberChar d = true := by simp [isNumberChar, first]
            simp only [takeWhile_cons_of_pos inside]
            exact first
      next =>
        split at h <;> cases h
        simp only [identKind] at number
        split_ifs at number <;> cases number

theorem wordsFrom_number {skip : Nat} {text : List Char} {words : List Word}
    (h : wordsFrom skip text = some words) : ∀ word ∈ words, word.1.isNumeric = true →
      (afterMinus word.2.toList).head?.any Char.isDigit = true := by
  fun_induction wordsFrom skip text generalizing words with
  | case1 =>
    cases h
    exact forall_mem_nil _
  | case2 skip c rest ih | case3 c rest space ih => exact ih h
  | case4 => cases h
  | case5 c rest space l hl ih =>
    obtain ⟨others, hothers, rfl⟩ := Option.map_eq_some_iff.mp h
    intro word hword number
    cases hword with
    | head =>
      rw [String.toList_ofList]
      exact lexeme_number hl number
    | tail _ more => exact ih hothers word more number

/-! ## The numbers of an expression -/

/-- A literal is what its token reads as. -/
def ReadsAs (word : Word) (literal : Literal) : Prop :=
  Parser.literalOf word.1 word.2 = .ok literal

namespace Grammar

open DFTracer.Query.Parser

variable {regexError : String → Bool → Option String}

/-- The numbers that the left side of a level has brought. -/
def Level.numbers : Level → List Literal
  | .orRest left | .andRest left => left.numbers
  | _ => []

variable {words : List Word} {kind : TokenKind} {literals : List Literal} {node : QueryNode}

/-- A value of an expression, in front of the others. -/
theorem readsAs_cons {text : String} {literal : Literal} (value : literalOf kind text = .ok literal)
    (h : List.Forall₂ ReadsAs (numberTokens words) (literals.filter Literal.isNumeric)) :
    List.Forall₂ ReadsAs (numberTokens ((kind, text) :: words))
      ((literal :: literals).filter Literal.isNumeric) := by
  have same := literalOf_isNumeric value
  unfold numberTokens at h ⊢
  cases number : kind.isNumeric with
  | true =>
    simp only [filter_cons, number, same]
    exact .cons value h
  | false =>
    simp only [filter_cons, number, same]
    exact h

theorem numberTokens_cons (plain : kind.isNumeric = false) (text : String)
    (words : List Word) : numberTokens ((kind, text) :: words) = numberTokens words :=
  filter_cons_of_neg (by simp [plain])

theorem numberTokens_append (first rest : List Word) :
    numberTokens (first ++ rest) = numberTokens first ++ numberTokens rest :=
  filter_append ..

theorem Elements.numbers (h : Elements words literals) :
    List.Forall₂ ReadsAs (numberTokens words) (literals.filter Literal.isNumeric) := by
  induction h with
  | close text => exact .nil
  | next comma value more ih =>
    rw [numberTokens_cons rfl]
    exact readsAs_cons value ih

theorem Array.numbers (h : Array words literals) :
    List.Forall₂ ReadsAs (numberTokens words) (literals.filter Literal.isNumeric) := by
  cases h with
  | empty left right => exact .nil
  | cons left value more =>
    rw [numberTokens_cons rfl]
    exact readsAs_cons value more.numbers

theorem Leaf.numbers (h : Leaf regexError words node) :
    List.Forall₂ ReadsAs (numberTokens words) node.numbers := by
  cases h with
  | @compare op literal opKind kind text field opText hop value =>
    have plain : opKind.isNumeric = false := by
      cases opKind <;> first | rfl | cases hop
    rw [numberTokens_cons rfl, numberTokens_cons plain]
    exact readsAs_cons value .nil
  | isIn field text values =>
    exact values.numbers
  | notIn field no text values =>
    exact values.numbers
  | @«matches» op negated kind pattern field text hop compiles =>
    have plain : kind.isNumeric = false := by
      cases kind <;> first | rfl | cases hop
    rw [numberTokens_cons rfl, numberTokens_cons plain]
    exact .nil
  | @notMatches op kind pattern field no text hop compiles =>
    have plain : kind.isNumeric = false := by
      cases kind <;> first | rfl | cases hop
    rw [numberTokens_cons rfl, numberTokens_cons rfl, numberTokens_cons plain]
    exact .nil
  | contains | notContains => exact .nil

/-- The numbers of an expression are what its number tokens read as, in their order, after those
of a left side. -/
theorem Derives.numbers {level : Level} (h : Derives regexError level words node) :
    ∃ numbers, node.numbers = level.numbers ++ numbers ∧
      List.Forall₂ ReadsAs (numberTokens words) numbers := by
  have append : ∀ left right : List Literal, (left ++ right).filter Literal.isNumeric =
      left.filter Literal.isNumeric ++ right.filter Literal.isNumeric :=
    fun left right => filter_append left right
  induction h with
  | or _ _ hleft hmore | and _ _ hleft hmore =>
    obtain ⟨first, hfirst, readsFirst⟩ := hleft
    obtain ⟨rest, hrest, readsRest⟩ := hmore
    refine ⟨first ++ rest, ?_, ?_⟩
    · rw [hrest, Level.numbers, hfirst]
      rfl
    · rw [numberTokens_append]
      exact rel_append readsFirst readsRest
  | orDone left | andDone left => exact ⟨[], (append_nil _).symm, .nil⟩
  | orMore text _ _ hright hmore | andMore text _ _ hright hmore =>
    obtain ⟨first, hfirst, readsFirst⟩ := hright
    obtain ⟨rest, hrest, readsRest⟩ := hmore
    refine ⟨first ++ rest, ?_, ?_⟩
    · rw [hrest, ← append_assoc]
      congr 1
      refine (append _ _).trans ?_
      exact congrArg _ hfirst
    · rw [numberTokens_cons rfl, numberTokens_append]
      exact rel_append readsFirst readsRest
  | not text _ ih =>
    obtain ⟨numbers, same, reads⟩ := ih
    refine ⟨numbers, same, ?_⟩
    exact reads
  | primary _ ih => exact ih
  | parens left right _ ih =>
    obtain ⟨numbers, same, reads⟩ := ih
    refine ⟨numbers, same, ?_⟩
    rw [numberTokens_cons rfl, numberTokens_append]
    have closing : numberTokens [(.RPAREN, right)] = [] := rfl
    rw [closing, append_nil]
    exact reads
  | leaf leaf => exact ⟨_, rfl, leaf.numbers⟩

end Grammar

/-- The numbers of a query are those written, each read from its complete token. -/
def NumbersRead (source : List Char) (node : QueryNode) : Prop :=
  ∃ words, wordsOf source = some words ∧
    List.Forall₂ ReadsComplete (numberTokens words) node.numbers

/-- No number token of a text goes on after its numeral: no second sign, no second point and no
exponent without a digit. -/
def NumbersWhole (source : List Char) : Prop :=
  ∀ words, wordsOf source = some words → ∀ word ∈ numberTokens words, numeralTail word = []

/-- The numbers of an accepted query are those written exactly when no number token goes on after
its numeral. -/
theorem numbersRead_iff {regexError : String → Bool → Option String} {source : List Char}
    {node : QueryNode} (accepted : Grammar.Succeeds (parse regexError source) node) :
    NumbersRead source node ↔ NumbersWhole source := by
  obtain ⟨words, hwords, derives⟩ := Grammar.parse_iff_words.mp accepted
  obtain ⟨numbers, same, reads⟩ := derives.numbers
  have all : node.numbers = numbers := same
  subst all
  have digit : ∀ word ∈ numberTokens words,
      word.1.isNumeric = true ∧ (afterMinus word.2.toList).head?.any Char.isDigit = true := by
    intro word hword
    obtain ⟨listed, number⟩ := mem_filter.mp hword
    exact ⟨number, wordsFrom_number hwords word listed number⟩
  constructor
  · rintro ⟨others, hothers, complete⟩ again hagain word hword
    cases hwords.symm.trans hothers
    cases hwords.symm.trans hagain
    have both := (forall₂_and_left _ _).mpr ⟨digit, complete⟩
    have tails : List.Forall₂ (fun word literal => numeralTail word = [] ∧
        ReadsComplete word literal) (numberTokens words) node.numbers :=
      both.imp fun word literal h => ⟨h.2.tail h.1.2, h.2⟩
    exact ((forall₂_and_left _ _).mp tails).1 word hword
  · intro whole
    have tails := whole words hwords
    have both := (forall₂_and_left _ _).mpr
      ⟨fun word hword => And.intro (digit word hword) (tails word hword), reads⟩
    exact ⟨words, hwords, both.imp fun word literal h =>
      readsComplete_of_tail h.1.1.1 h.1.1.2 h.2 h.1.2⟩

/-- A comparison with a number that has a second sign, which is read as `1`. -/
def secondSign : List Char := ['d', '=', '=', '1', '-', '2']

theorem secondSign_field : "d" ≠ "" := by decide

theorem parse_secondSign {regexError : String → Bool → Option String} :
    Grammar.Succeeds (parse regexError secondSign)
      (.compare ⟨"d", secondSign_field⟩ .eq (.uint64 1)) := by
  have value : Parser.literalOf .INT "1-2" = .ok (.uint64 1) := by
    rfl
  have leaf := @Grammar.Leaf.compare regexError .eq _ .OP_EQ .INT "1-2" ⟨"d", secondSign_field⟩
    "==" rfl value
  have derives := Grammar.Derives.or (.and (.primary (.leaf leaf)) (.andDone _)) (.orDone _)
  exact Grammar.parse_iff_words.mpr ⟨_, rfl, derives⟩

theorem numbersRead_iff_secondSign :
    NumbersRead secondSign (.compare ⟨"d", secondSign_field⟩ .eq (.uint64 1)) ↔
      NumbersWhole secondSign :=
  numbersRead_iff (@parse_secondSign fun _ _ => none)

/-- Not every accepted query has the numbers that are written. -/
theorem secondSign_accepted :
    ¬ ∀ (regexError : String → Bool → Option String) (source : List Char) (node : QueryNode),
      Grammar.Succeeds (parse regexError source) node → NumbersRead source node := by
  intro claim
  have accepted := @parse_secondSign fun _ _ => none
  have whole := (numbersRead_iff accepted).mp (claim _ _ _ accepted)
  have listed : wordsOf secondSign = some [(.IDENT, "d"), (.OP_EQ, "=="), (.INT, "1-2")] := rfl
  have tail : numeralTail (.INT, "1-2") = [] := whole _ listed _ (mem_singleton_self _)
  exact absurd tail (by decide)

end DFTracer.Query
