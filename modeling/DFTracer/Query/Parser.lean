/-
# The tokens of a query and their parser

A query text is split into tokens from the front, each the longest that starts where the last one
ended. A string keeps its escapes, a number is any run of the characters of numbers, and an
identifier takes the indices that abut it. A character stands for one byte of the text.
-/

import DFTracer.Math.NumberText
import DFTracer.Query.Ast

namespace DFTracer.Query

open Math.NumberText (isSpace)

inductive TokenKind where
  | IDENT
  | STRING
  | INT
  | FLOAT
  | BOOL
  | OP_EQ
  | OP_NE
  | OP_GT
  | OP_LT
  | OP_GE
  | OP_LE
  | OP_REGEX
  | OP_IREGEX
  | OP_NREGEX
  | OP_NIREGEX
  | KW_AND
  | KW_OR
  | KW_NOT
  | KW_IN
  | KW_LIKE
  | KW_ILIKE
  | KW_TRUE
  | KW_FALSE
  | LPAREN
  | RPAREN
  | LBRACKET
  | RBRACKET
  | COMMA
  | END
deriving DecidableEq

/-- A token, its text and where it starts. -/
structure Token where
  kind : TokenKind
  text : String
  column : Nat
deriving DecidableEq

/-- A parse error, with the place that it points at. -/
structure QueryError where
  message : String
  column : Nat
  source : String
  indicator : String
deriving DecidableEq

/-- An error at a column of the source, underlined as long as what is wrong. -/
def makeError (source : List Char) (col len : Nat) (msg : String) : QueryError where
  message := msg
  column := col
  source := String.ofList source
  indicator := String.ofList (List.replicate col ' ' ++ '^' :: List.replicate (len - 1) '~')

def isIdentStart (c : Char) : Bool := c.isAlpha || c == '_'

def isIdentChar (c : Char) : Bool := c.isAlphanum || c == '_' || c == '.'

/-- The characters that make a number a floating-point one. -/
def isFloatChar (c : Char) : Bool := c == '.' || c == 'e' || c == 'E'

/-- The characters that a number goes on with. -/
def isNumberChar (c : Char) : Bool := c.isDigit || isFloatChar c || c == '+' || c == '-'

/-- A token that was recognized: its text, and how many characters it takes after the first. -/
structure Lexeme where
  kind : TokenKind
  text : List Char
  more : Nat
deriving DecidableEq

/-- Operators and punctuation. -/
def operator : Char → List Char → Option Lexeme
  | '=', '=' :: _ => some ⟨.OP_EQ, ['=', '='], 1⟩
  | '!', '=' :: _ => some ⟨.OP_NE, ['!', '='], 1⟩
  | '!', '~' :: '*' :: _ => some ⟨.OP_NIREGEX, ['!', '~', '*'], 2⟩
  | '!', '~' :: _ => some ⟨.OP_NREGEX, ['!', '~'], 1⟩
  | '>', '=' :: _ => some ⟨.OP_GE, ['>', '='], 1⟩
  | '<', '=' :: _ => some ⟨.OP_LE, ['<', '='], 1⟩
  | '>', _ => some ⟨.OP_GT, ['>'], 0⟩
  | '<', _ => some ⟨.OP_LT, ['<'], 0⟩
  | '~', '*' :: _ => some ⟨.OP_IREGEX, ['~', '*'], 1⟩
  | '~', _ => some ⟨.OP_REGEX, ['~'], 0⟩
  | '(', _ => some ⟨.LPAREN, ['('], 0⟩
  | ')', _ => some ⟨.RPAREN, [')'], 0⟩
  | '[', _ => some ⟨.LBRACKET, ['['], 0⟩
  | ']', _ => some ⟨.RBRACKET, [']'], 0⟩
  | ',', _ => some ⟨.COMMA, [','], 0⟩
  | _, _ => none

/-- The characters of a string up to its closing quote. A backslash takes the next character with
it. -/
def stringBody (quote : Char) : List Char → Option (List Char)
  | [] => none
  | c :: rest =>
    if c = quote then some []
    else if c = '\\' then
      match rest with
      | [] => none
      | d :: rest => (stringBody quote rest).map fun body => c :: d :: body
    else (stringBody quote rest).map fun body => c :: body

/-- The indices that abut an identifier. Each takes three characters or more, so the length of
what follows is bound enough. -/
def indexSuffix : Nat → List Char → List Char
  | 0, _ => []
  | _, [] => []
  | bound + 1, c :: rest =>
    let digits := rest.takeWhile Char.isDigit
    if c = '[' ∧ digits ≠ [] ∧ (rest.drop digits.length).head? = some ']' then
      c :: digits ++ ']' :: indexSuffix bound (rest.drop (digits.length + 1))
    else []

/-- The kind of an identifier, which is a keyword in any case. -/
def identKind (text : List Char) : TokenKind :=
  let iequals := fun keyword : String => text.map Char.toLower == keyword.toList
  if iequals "and" then .KW_AND
  else if iequals "or" then .KW_OR
  else if iequals "not" then .KW_NOT
  else if iequals "in" then .KW_IN
  else if iequals "like" then .KW_LIKE
  else if iequals "ilike" then .KW_ILIKE
  else if iequals "true" then .KW_TRUE
  else if iequals "false" then .KW_FALSE
  else .IDENT

/-- A digit, or a minus sign in front of one. -/
def isNumberStart (c : Char) (rest : List Char) : Bool :=
  c.isDigit || (c == '-' && rest.head?.any Char.isDigit)

/-- The characters of an identifier after the first. -/
def identRun (rest : List Char) : List Char :=
  let run := rest.takeWhile isIdentChar
  run ++ indexSuffix rest.length (rest.drop run.length)

/-- The token that starts with a character, or the length and the message of an error. -/
def lexeme (c : Char) (rest : List Char) : Except (Nat × String) Lexeme :=
  match operator c rest with
  | some op => .ok op
  | none =>
    if c = '"' ∨ c = '\'' then
      match stringBody c rest with
      | some body => .ok ⟨.STRING, body, body.length + 1⟩
      | none => .error (rest.length + 1, "Unterminated string literal")
    else if isNumberStart c rest then
      let run := rest.takeWhile isNumberChar
      .ok ⟨if run.any isFloatChar then .FLOAT else .INT, c :: run, run.length⟩
    else if isIdentStart c then
      let run := identRun rest
      .ok ⟨identKind (c :: run), c :: run, run.length⟩
    else .error (1, "Unexpected character '" ++ String.singleton c ++ "'")

/-- The tokens from a position on, once the characters that the last token still takes are
skipped. -/
def tokenizeFrom (input : List Char) (pos : Nat) : Nat → List Char → Except QueryError (List Token)
  | _, [] => .ok [⟨.END, "", input.length⟩]
  | skip + 1, _ :: rest => tokenizeFrom input (pos + 1) skip rest
  | 0, c :: rest =>
    if isSpace c then tokenizeFrom input (pos + 1) 0 rest
    else
      match lexeme c rest with
      | .error (len, msg) => .error (makeError input pos len msg)
      | .ok l =>
        match tokenizeFrom input (pos + 1) l.more rest with
        | .error e => .error e
        | .ok tokens => .ok (⟨l.kind, String.ofList l.text, pos⟩ :: tokens)

def tokenize (input : List Char) : Except QueryError (List Token) := tokenizeFrom input 0 0 input

/-! ## Parsing a query

A recursive descent over the tokens: disjunctions of conjunctions of negations of primaries. A
primary is an expression in parentheses or one of the leaf forms. The functions that call each
other count down, and the count that they start with is more than any text needs. -/

open Math.NumberText (fromCharsInt stod)

/-- A character that a regular expression takes literally. -/
def appendEscaped (c : Char) : List Char :=
  if c ∈ ['.', '\\', '+', '*', '?', '(', ')', '[', ']', '{', '}', '^', '$', '|'] then ['\\', c]
  else [c]

/-- The anchored regular expression of a LIKE pattern. -/
def likeToRegex (like : String) : String :=
  String.ofList ('^' :: (like.toList.flatMap fun c =>
    if c = '%' then ['.', '*'] else if c = '_' then ['.'] else appendEscaped c) ++ ['$'])

/-- The regular expression that finds a text anywhere. -/
def containsToRegex (sub : String) : String := String.ofList (sub.toList.flatMap appendEscaped)

/-- The regular expression of a pattern, and whether it ignores case. -/
def regexSource (op : MatchOp) (pattern : String) : String × Bool :=
  match op with
  | .like => (likeToRegex pattern, false)
  | .ilike => (likeToRegex pattern, true)
  | .regex => (pattern, false)
  | .iregex => (pattern, true)
  | .icontains => (containsToRegex pattern, true)

/-! ### The parser -/

/-- What the functions that count down give: nothing when the count has run out. -/
abbrev Parse (α : Type) := ExceptT QueryError Option α

/-- The count has run out. -/
def outOfFuel {α : Type} : Parse α := ExceptT.mk none

/-- The kind of the current token. -/
def currentKind (tokens : List Token) : TokenKind := (tokens.head?.map Token.kind).getD .END

/-- The text of the current token. -/
def currentText (tokens : List Token) : String := (tokens.head?.map Token.text).getD ""

namespace Parser

section

-- `regexError regex ignoreCase`: what `std::regex` says when the expression is invalid
variable (regexError : String → Bool → Option String) (source : List Char)

/-- The error of a pattern that does not compile. -/
def compilePattern (op : MatchOp) (pattern : String) : Option String :=
  regexError (regexSource op pattern).1 (regexSource op pattern).2

/-- An error at the current token. -/
def error (tokens : List Token) (msg : String) : QueryError :=
  let tok := tokens.headD ⟨.END, "", source.length⟩
  makeError source tok.column (if tok.text = "" then 1 else tok.text.length) msg

def parseField (tokens : List Token) (expected : String) :
    Except QueryError (FieldNode × List Token) :=
  match tokens with
  | [] => .error (error source tokens expected)
  | tok :: rest =>
    -- an identifier is never empty
    if h : tok.kind = .IDENT ∧ tok.text ≠ "" then .ok (⟨tok.text, h.2⟩, rest)
    else .error (error source tokens (expected ++ tok.text ++ "'"))

def parseCompOp (tokens : List Token) : Except QueryError (CompareOp × List Token) :=
  match currentKind tokens with
  | .OP_EQ => .ok (.eq, tokens.tail)
  | .OP_NE => .ok (.ne, tokens.tail)
  | .OP_GT => .ok (.gt, tokens.tail)
  | .OP_LT => .ok (.lt, tokens.tail)
  | .OP_GE => .ok (.ge, tokens.tail)
  | .OP_LE => .ok (.le, tokens.tail)
  | _ => .error (error source tokens
      ("Expected comparison operator (==, !=, >, <, >=, <=), got '" ++ currentText tokens ++ "'"))

/-- The literal of a token. -/
def literalOf (kind : TokenKind) (text : String) : Except String Literal :=
  match kind with
  | .STRING => .ok (.string text)
  | .INT =>
    match fromCharsInt text with
    | none => .error ("Invalid integer: '" ++ text ++ "'")
    | some val =>
      .ok (if 0 ≤ val then .uint64 (UInt64.ofNat val.toNat) else .int64 (Int64.ofInt val))
  | .FLOAT =>
    match stod text with
    | some (.number val) => .ok (.double val)
    | _ => .error ("Invalid float: '" ++ text ++ "'")
  | .KW_TRUE => .ok (.bool true)
  | .KW_FALSE => .ok (.bool false)
  | _ => .error ("Expected value (string, number, or bool), got '" ++ text ++ "'")

def parseValue (tokens : List Token) : Except QueryError (Literal × List Token) :=
  match literalOf (currentKind tokens) (currentText tokens) with
  | .error msg => .error (error source tokens msg)
  | .ok literal => .ok (literal, tokens.tail)

/-- The elements of an array after the first, up to the bracket that closes it. -/
def parseElements : List Token → Except QueryError (List Literal × List Token)
  | [] => .error (error source [] "Expected ']' or ','")
  | tok :: rest =>
    if tok.kind = .COMMA then
      match rest with
      | [] => .error (error source [] "Expected value (string, number, or bool), got ''")
      | value :: rest =>
        match literalOf value.kind value.text with
        | .error msg => .error (error source (value :: rest) msg)
        | .ok literal => do
            let (literals, rest) ← parseElements rest
            .ok (literal :: literals, rest)
    else if tok.kind = .RBRACKET then .ok ([], rest)
    else .error (error source (tok :: rest) "Expected ']' or ','")

def parseArray (tokens : List Token) : Except QueryError (List Literal × List Token) :=
  if currentKind tokens ≠ .LBRACKET then .error (error source tokens "Expected '['")
  else if currentKind tokens.tail = .RBRACKET then .ok ([], tokens.tail.tail)
  else do
    let (literal, rest) ← parseValue source tokens.tail
    let (literals, rest) ← parseElements source rest
    .ok (literal :: literals, rest)

def parseMatch (field : FieldNode) (op : MatchOp) (negated : Bool) (tokens : List Token) :
    Except QueryError (QueryNode × List Token) :=
  if currentKind tokens ≠ .STRING then
    .error (error source tokens ("Expected string pattern, got '" ++ currentText tokens ++ "'"))
  else
    match compilePattern regexError op (currentText tokens) with
    | some what => .error (error source tokens ("Invalid pattern: " ++ what))
    | none => .ok (.matches field op (currentText tokens) negated, tokens.tail)

/-- The field of the literal-first form, whose string is the current token of `tokens`. -/
def parseContainsField (negated : Bool) (tokens rest : List Token) :
    Except QueryError (QueryNode × List Token) := do
  let (field, rest) ← parseField source rest "Expected field name after 'in', got '"
  match compilePattern regexError .icontains (currentText tokens) with
  | some what => .error (error source tokens ("Invalid pattern: " ++ what))
  | none => .ok (.matches field .icontains (currentText tokens) negated, rest)

/-- The literal-first form, from its string on. -/
def parseContains (tokens : List Token) : Except QueryError (QueryNode × List Token) :=
  if currentKind tokens.tail = .KW_NOT then
    if currentKind tokens.tail.tail = .KW_IN then
      parseContainsField regexError source true tokens tokens.tail.tail.tail
    else .error (error source tokens.tail "Expected 'in' after 'not'")
  else if currentKind tokens.tail = .KW_IN then
    parseContainsField regexError source false tokens tokens.tail.tail
  else .error (error source tokens.tail
    ("Expected 'in' after string literal, got '" ++ currentText tokens.tail ++ "'"))

/-- What follows a field. -/
def parseFieldRest (field : FieldNode) (tokens : List Token) :
    Except QueryError (QueryNode × List Token) :=
  let comparison : Except QueryError (QueryNode × List Token) := do
    let (op, rest) ← parseCompOp source tokens
    let (value, rest) ← parseValue source rest
    .ok (.compare field op value, rest)
  match currentKind tokens with
  | .KW_IN => do
      let (values, rest) ← parseArray source tokens.tail
      .ok (.isIn field values, rest)
  | .KW_NOT =>
    match currentKind tokens.tail with
    | .KW_IN => do
        let (values, rest) ← parseArray source tokens.tail.tail
        .ok (.notIn field values, rest)
    | .KW_LIKE => parseMatch regexError source field .like true tokens.tail.tail
    | .KW_ILIKE => parseMatch regexError source field .ilike true tokens.tail.tail
    | _ => comparison
  | .KW_LIKE => parseMatch regexError source field .like false tokens.tail
  | .KW_ILIKE => parseMatch regexError source field .ilike false tokens.tail
  | .OP_REGEX => parseMatch regexError source field .regex false tokens.tail
  | .OP_IREGEX => parseMatch regexError source field .iregex false tokens.tail
  | .OP_NREGEX => parseMatch regexError source field .regex true tokens.tail
  | .OP_NIREGEX => parseMatch regexError source field .iregex true tokens.tail
  | _ => comparison

/-- A primary that is not in parentheses. -/
def parseLeaf (tokens : List Token) : Except QueryError (QueryNode × List Token) :=
  if currentKind tokens = .STRING then parseContains regexError source tokens
  else do
    let (field, rest) ← parseField source tokens "Expected field name, string, or '(', got '"
    parseFieldRest regexError source field rest

mutual

def parseOrExpr : Nat → List Token → Parse (QueryNode × List Token)
  | 0, _ => outOfFuel
  | fuel + 1, tokens => do
      let (left, tokens) ← parseAndExpr fuel tokens
      parseOrRest fuel left tokens

/-- The loop of a disjunction. -/
def parseOrRest : Nat → QueryNode → List Token → Parse (QueryNode × List Token)
  | 0, _, _ => outOfFuel
  | fuel + 1, left, tokens =>
    if currentKind tokens = .KW_OR then do
      let (right, tokens) ← parseAndExpr fuel tokens.tail
      parseOrRest fuel (.or left right) tokens
    else pure (left, tokens)

def parseAndExpr : Nat → List Token → Parse (QueryNode × List Token)
  | 0, _ => outOfFuel
  | fuel + 1, tokens => do
      let (left, tokens) ← parseNotExpr fuel tokens
      parseAndRest fuel left tokens

/-- The loop of a conjunction. -/
def parseAndRest : Nat → QueryNode → List Token → Parse (QueryNode × List Token)
  | 0, _, _ => outOfFuel
  | fuel + 1, left, tokens =>
    if currentKind tokens = .KW_AND then do
      let (right, tokens) ← parseNotExpr fuel tokens.tail
      parseAndRest fuel (.and left right) tokens
    else pure (left, tokens)

def parseNotExpr : Nat → List Token → Parse (QueryNode × List Token)
  | 0, _ => outOfFuel
  | fuel + 1, tokens =>
    if currentKind tokens = .KW_NOT then do
      let (operand, tokens) ← parseNotExpr fuel tokens.tail
      pure (.not operand, tokens)
    else parsePrimary fuel tokens

def parsePrimary : Nat → List Token → Parse (QueryNode × List Token)
  | 0, _ => outOfFuel
  | fuel + 1, tokens =>
    if currentKind tokens = .LPAREN then do
      let (expr, tokens) ← parseOrExpr fuel tokens.tail
      if currentKind tokens = .RPAREN then pure (expr, tokens.tail)
      else throw (error source tokens "Expected ')'")
    else ExceptT.mk (some (parseLeaf regexError source tokens))

end

/-- A count that is more than the tokens need. -/
def fuelFor (tokens : List Token) : Nat := 6 * tokens.length + 6

def parseQuery (tokens : List Token) : Parse QueryNode := do
  let (expr, rest) ← parseOrExpr regexError source (fuelFor tokens) tokens
  if currentKind rest = .END then pure expr
  else throw (error source rest
    ("Expected 'and', 'or', or end of query, got '" ++ currentText rest ++ "'"))

end

end Parser

section

variable (regexError : String → Bool → Option String)

def parse (input : List Char) : Parse QueryNode :=
  match tokenize input with
  | .error e => throw e
  | .ok tokens => Parser.parseQuery regexError input tokens

end

end DFTracer.Query
