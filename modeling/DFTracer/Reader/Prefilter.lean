/-
# The raw line prefilter

Before a line is parsed it can be refused by its characters alone. From a query that
is a conjunction of equalities the prefilter takes one literal an equality, the name
and the value as a compact writer would put them, and a line that lacks one of the
long literals is dropped. The evaluator compares parsed values instead, and a value
has many texts.
-/

import DFTracer.Query.Evaluator
import DFTracer.Query.JsonText
import DFTracer.Math.NumberText

namespace DFTracer.Reader

open Query List

/-- `MIN_LITERAL_LEN`: shorter literals are too common to be worth a search. -/
def minLiteralLen : Nat := 16

/-- The value of an equality as the prefilter writes it, nothing for a double. -/
def literalValueText : Literal → Option String
  | .string s => some ("\"" ++ s ++ "\"")
  | .int64 n => some (toString n.toInt)
  | .uint64 n => some (toString n.toNat)
  | .bool b => some (if b then "true" else "false")
  | .double _ => none

/-- The literal of an equality: the name in quotes, a colon and the value. -/
def eqLiteral (path : String) (value : Literal) : Option String :=
  (literalValueText value).map fun text => "\"" ++ path ++ "\":" ++ text

/-- `collect_and_eq_literals`, nothing when a node of the query is not supported. -/
def collectAndEqLiterals : QueryNode → Option (List String)
  | .compare field .eq value => (eqLiteral field.path value).map ([·])
  | .and left right =>
    (collectAndEqLiterals left).bind fun l => (collectAndEqLiterals right).map (l ++ ·)
  | _ => none

/-- Literals that must appear in any line that matches. -/
structure LinePrefilter where
  required : List String := []

namespace LinePrefilter

def empty (prefilter : LinePrefilter) : Bool := prefilter.required.isEmpty

/-- `may_match`: every literal is a substring. -/
def mayMatch (prefilter : LinePrefilter) (text : List Char) : Bool :=
  prefilter.required.all fun literal => decide (literal.toList <:+: text)

end LinePrefilter

/-- `build_prefilter`. -/
def buildPrefilter (query : QueryNode) : LinePrefilter where
  required := match collectAndEqLiterals query with
    | some literals => literals.filter fun literal => minLiteralLen ≤ literal.utf8ByteSize
    | none => []

/-- The characters of a span of lines; the last newline may be missing. -/
def spanText (ended : Bool) : List JsonLine → List Char
  | [] => []
  | [line] => line.text ++ (if ended then ['\n'] else [])
  | line :: rest => line.text ++ '\n' :: spanText ended rest

section Reads

-- `search op pattern text`: whether the compiled matcher of a pattern finds the text
variable (search : MatchOp → String → String → Bool)

/-- `yield_lines_from_stream` on one span: the span is refused as a whole, or each line
is evaluated and then searched. -/
def yieldLines (query : QueryNode) (ended : Bool) (lines : List JsonLine) : List JsonLine :=
  let prefilter := buildPrefilter query
  if !prefilter.empty && !prefilter.mayMatch (spanText ended lines) then []
  else
    lines.filter fun line =>
      evaluate search query line.value && (prefilter.empty || prefilter.mayMatch line.text)

/-- `collect_matching_lines`, and the evaluation of what it kept. -/
def collectMatchingLines (query : QueryNode) (lines : List JsonLine) : List JsonLine :=
  (lines.filter fun line => (buildPrefilter query).mayMatch line.text).filter fun line =>
    evaluate search query line.value

end Reads

/-- The query is a conjunction of equalities, none of them with a double. -/
def OnlyEqualities : QueryNode → Prop
  | .compare _ op value => op = .eq ∧ ∀ d, value ≠ .double d
  | .and left right => OnlyEqualities left ∧ OnlyEqualities right
  | _ => False

/-- The comparisons of a conjunction. -/
def comparisons : QueryNode → List (String × Literal)
  | .compare field _ value => [(field.path, value)]
  | .and left right => comparisons left ++ comparisons right
  | _ => []

/-- The literal of a comparison is long enough to be searched for. -/
def IsLong (comparison : String × Literal) : Prop :=
  ∃ literal ∈ eqLiteral comparison.1 comparison.2, minLiteralLen ≤ literal.utf8ByteSize

/-- Some literal is searched for. -/
def Searches (query : QueryNode) : Prop :=
  OnlyEqualities query ∧ ∃ comparison ∈ comparisons query, IsLong comparison

theorem eqLiteral_isSome_iff (path : String) (value : Literal) :
    (eqLiteral path value).isSome ↔ ∀ d, value ≠ .double d := by
  cases value <;> simp [eqLiteral, literalValueText]

/-- What is collected are the literals of the comparisons. -/
theorem collectAndEqLiterals_eq (query : QueryNode) :
    (OnlyEqualities query → ∃ literals, collectAndEqLiterals query = some literals ∧
      ∀ literal, literal ∈ literals ↔
        ∃ comparison ∈ comparisons query, eqLiteral comparison.1 comparison.2 = some literal) ∧
    (¬ OnlyEqualities query → collectAndEqLiterals query = none) := by
  induction query with
  | compare field op value =>
    cases op with
    | eq =>
      cases literal : eqLiteral field.path value with
      | none =>
        have double : ¬ ∀ d, value ≠ .double d := by
          rw [← eqLiteral_isSome_iff field.path, literal]
          simp
        constructor
        · intro only
          exact absurd only.2 double
        · intro _
          rw [collectAndEqLiterals, literal]
          rfl
      | some text =>
        have single : ∀ d, value ≠ .double d := by
          rw [← eqLiteral_isSome_iff field.path, literal]
          rfl
        constructor
        · intro _
          refine ⟨[text], by rw [collectAndEqLiterals, literal]; rfl, fun other => ?_⟩
          simp [comparisons, literal, eq_comm]
        · intro not
          exact absurd ⟨rfl, single⟩ not
    | _ => simp [OnlyEqualities, collectAndEqLiterals]
  | and left right ihLeft ihRight =>
    constructor
    · rintro ⟨onlyLeft, onlyRight⟩
      obtain ⟨l, collectedLeft, memLeft⟩ := ihLeft.1 onlyLeft
      obtain ⟨r, collectedRight, memRight⟩ := ihRight.1 onlyRight
      refine ⟨l ++ r, ?_, fun literal => ?_⟩
      · rw [collectAndEqLiterals, collectedLeft, collectedRight]
        rfl
      · rw [mem_append, memLeft, memRight]
        simp [comparisons, or_and_right, exists_or]
    · intro not
      rw [collectAndEqLiterals]
      by_cases onlyLeft : OnlyEqualities left
      · have onlyRight : ¬ OnlyEqualities right := fun onlyRight => not ⟨onlyLeft, onlyRight⟩
        rw [ihRight.2 onlyRight]
        cases collectAndEqLiterals left <;> rfl
      · rw [ihLeft.2 onlyLeft]
        rfl
  | _ => simp [OnlyEqualities, collectAndEqLiterals]

/-- A literal is required when it is the long literal of a comparison. -/
theorem mem_required_iff (query : QueryNode) (literal : String) :
    literal ∈ (buildPrefilter query).required ↔
      OnlyEqualities query ∧ minLiteralLen ≤ literal.utf8ByteSize ∧
        ∃ comparison ∈ comparisons query, eqLiteral comparison.1 comparison.2 = some literal := by
  by_cases only : OnlyEqualities query
  · obtain ⟨literals, collected, mem⟩ := (collectAndEqLiterals_eq query).1 only
    simp [buildPrefilter, collected, mem, only, and_comm]
  · simp [buildPrefilter, (collectAndEqLiterals_eq query).2 only, only]

theorem required_eq_nil_iff (query : QueryNode) :
    (buildPrefilter query).required = [] ↔ ¬ Searches query := by
  rw [eq_nil_iff_forall_not_mem]
  constructor
  · rintro none ⟨only, comparison, asked, literal, written, long⟩
    exact none literal ((mem_required_iff query literal).mpr ⟨only, long, comparison, asked, written⟩)
  · intro quiet literal required
    obtain ⟨only, long, comparison, asked, written⟩ := (mem_required_iff query literal).mp required
    exact quiet ⟨only, comparison, asked, literal, written, long⟩

/-! ## The same line with a blank after every colon -/

/-- Every colon is followed by a space. -/
def ColonSpaced (text : List Char) : Prop :=
  ∀ before after, text = before ++ ':' :: after → ∃ rest, after = ' ' :: rest

variable {text : List Char} {ch : Char} {value : Literal}

theorem colonSpaced_of_not_mem (none : ':' ∉ text) : ColonSpaced text := by
  rintro before after rfl
  simp at none

theorem colonSpaced_append {left right : List Char} (hl : ColonSpaced left) (hr : ColonSpaced right) :
    ColonSpaced (left ++ right) := by
  intro before after split
  rcases append_eq_append_iff.mp split with ⟨middle, rfl, rest⟩ | ⟨middle, rfl, rest⟩
  · exact hr middle after rest
  · cases middle with
    | nil => exact hr [] after (by simpa using rest.symm)
    | cons first middle =>
      obtain ⟨rfl, rfl⟩ := List.cons.inj rest
      obtain ⟨spaced, rfl⟩ := hl before middle rfl
      exact ⟨_, rfl⟩

theorem colonSpaced_cons (other : ch ≠ ':') (h : ColonSpaced text) :
    ColonSpaced (ch :: text) := by
  have single : ColonSpaced [ch] := colonSpaced_of_not_mem (by simpa using other.symm)
  exact colonSpaced_append single h

/-- A colon inside a string is escaped. -/
def escapeColon : Glyph → Glyph
  | .plain ch allowed => if ch = ':' then .unicode ch (fun _ => false) (fun _ => false) else .plain ch allowed
  | glyph => glyph

theorem escapeColon_char (glyph : Glyph) : (escapeColon glyph).char = glyph.char := by
  cases glyph with
  | plain ch allowed =>
    simp only [escapeColon]
    split <;> rfl
  | short escape | unicode ch high low => rfl

theorem colon_not_mem_escapeColon (glyph : Glyph) : ':' ∉ (escapeColon glyph).text := by
  cases glyph with
  | plain ch allowed =>
    simp only [escapeColon]
    split
    · exact colon_not_mem_unicode _ _ _
    · rename_i other
      simpa [Glyph.text] using Ne.symm other
  | short escape => cases escape <;> decide
  | unicode ch high low => exact colon_not_mem_unicode _ _ _

theorem glyphsString_escapeColon (glyphs : List Glyph) :
    glyphsString (glyphs.map escapeColon) = glyphsString glyphs := by
  simp [glyphsString, Function.comp_def, escapeColon_char]

theorem colon_not_mem_glyphsText (glyphs : List Glyph) : ':' ∉ glyphsText (glyphs.map escapeColon) := by
  have each : ∀ glyph ∈ glyphs, ':' ∉ (escapeColon glyph).text := fun glyph _ =>
    colon_not_mem_escapeColon glyph
  simpa [glyphsText] using each

mutual

/-- The same value with a space after every colon and no other colon. -/
def spaced : JsonText → JsonText
  | .string glyphs => .string (glyphs.map escapeColon)
  | .array inside elements => .array inside (spacedElements elements)
  | .object inside members => .object inside (spacedMembers members)
  | other => other

def spacedElements : Elements → Elements
  | .nil => .nil
  | .cons before element after rest => .cons before (spaced element) after (spacedElements rest)

def spacedMembers : Members → Members
  | .nil => .nil
  | .cons before name beforeColon _ member after rest =>
    .cons before (name.map escapeColon) beforeColon [.space] (spaced member) after (spacedMembers rest)

end

mutual

theorem spaced_value : ∀ json : JsonText, (spaced json).value = json.value
  | .null => rfl
  | .bool _ => rfl
  | .number _ => rfl
  | .string glyphs => by simp only [spaced, JsonText.value, glyphsString_escapeColon]
  | .array _ elements => by simp only [spaced, JsonText.value, spacedElements_values elements]
  | .object _ members => by simp only [spaced, JsonText.value, spacedMembers_values members]

theorem spacedElements_values : ∀ elements : Elements, (spacedElements elements).values = elements.values
  | .nil => rfl
  | .cons _ element _ rest => by
    simp only [spacedElements, Elements.values, spaced_value element, spacedElements_values rest]

theorem spacedMembers_values : ∀ members : Members, (spacedMembers members).values = members.values
  | .nil => rfl
  | .cons _ _ _ _ member _ rest => by
    simp only [spacedMembers, Members.values, glyphsString_escapeColon, spaced_value member,
      spacedMembers_values rest]

end

theorem colonSpaced_blanks (blanks : List Blank) : ColonSpaced (blanksText blanks) :=
  colonSpaced_of_not_mem (colon_not_mem_blanksText blanks)

theorem colonSpaced_closing (other : ch ≠ ':') : ColonSpaced [ch] :=
  colonSpaced_of_not_mem (by simpa using other.symm)

mutual

theorem spaced_colonSpaced : ∀ json : JsonText, ColonSpaced (spaced json).text
  | .null => colonSpaced_of_not_mem (by decide)
  | .bool value => colonSpaced_of_not_mem (by cases value <;> decide)
  | .number number => colonSpaced_of_not_mem (colon_not_mem_number number.spelling)
  | .string glyphs => colonSpaced_of_not_mem (colon_not_mem_glyphsText glyphs)
  | .array inside elements => by
    apply colonSpaced_append _ (colonSpaced_closing (by decide))
    apply colonSpaced_append _ (spacedElements_colonSpaced [] (by simp) elements)
    exact colonSpaced_cons (by decide) (colonSpaced_blanks inside)
  | .object inside members => by
    apply colonSpaced_append _ (colonSpaced_closing (by decide))
    apply colonSpaced_append _ (spacedMembers_colonSpaced [] (by simp) members)
    exact colonSpaced_cons (by decide) (colonSpaced_blanks inside)

theorem spacedElements_colonSpaced (separator : List Char) (plain : ':' ∉ separator) :
    ∀ elements : Elements, ColonSpaced ((spacedElements elements).text separator)
  | .nil => colonSpaced_of_not_mem (by simp [spacedElements, Elements.text])
  | .cons before element after rest => by
    apply colonSpaced_append _ (spacedElements_colonSpaced [','] (by decide) rest)
    apply colonSpaced_append _ (colonSpaced_blanks after)
    apply colonSpaced_append _ (spaced_colonSpaced element)
    exact colonSpaced_append (colonSpaced_of_not_mem plain) (colonSpaced_blanks before)

theorem spacedMembers_colonSpaced (separator : List Char) (plain : ':' ∉ separator) :
    ∀ members : Members, ColonSpaced ((spacedMembers members).text separator)
  | .nil => colonSpaced_of_not_mem (by simp [spacedMembers, Members.text])
  | .cons before name beforeColon afterColon member after rest => by
    have colon : ColonSpaced ([':'] ++ blanksText [.space]) := by
      intro front back split
      cases front with
      | nil => exact ⟨[], (List.cons.inj split).2.symm⟩
      | cons first front =>
        have tail := (List.cons.inj split).2
        cases front with
        | nil => exact absurd (List.cons.inj tail).1 (by decide)
        | cons second front => exact absurd (List.cons.inj tail).2 (by simp)
    apply colonSpaced_append _ (spacedMembers_colonSpaced [','] (by decide) rest)
    apply colonSpaced_append _ (colonSpaced_blanks after)
    apply colonSpaced_append _ (spaced_colonSpaced member)
    rw [append_assoc]
    apply colonSpaced_append _ colon
    apply colonSpaced_append _ (colonSpaced_blanks beforeColon)
    apply colonSpaced_append _ (colonSpaced_of_not_mem (colon_not_mem_glyphsText name))
    exact colonSpaced_append (colonSpaced_of_not_mem plain) (colonSpaced_blanks before)

end

/-- The line with a space after every colon. -/
def spacedLine (line : JsonLine) : JsonLine := { line with root := spaced line.root }

theorem spacedLine_value (line : JsonLine) : (spacedLine line).value = line.value :=
  spaced_value line.root

theorem spacedLine_colonSpaced (line : JsonLine) : ColonSpaced (spacedLine line).text :=
  colonSpaced_append (colonSpaced_append (colonSpaced_blanks _) (spaced_colonSpaced _))
    (colonSpaced_blanks _)

/-- A printed number starts with a digit. -/
theorem toDigits_visible (n : Nat) :
    ∃ ch rest, Nat.toDigits 10 n = ch :: rest ∧ ch ≠ ' ' := by
  cases digits : Nat.toDigits 10 n with
  | nil => exact absurd digits Nat.toDigits_ne_nil
  | cons ch rest =>
    refine ⟨ch, rest, rfl, ?_⟩
    rintro rfl
    have digit : ' '.isDigit = true :=
      Nat.isDigit_of_mem_toDigits (b := 10) (n := n) (by decide) (by decide) (by simp [digits])
    exact absurd digit (by decide)

/-- A value is never written with a space in front. -/
theorem literalValueText_head {text : String}
    (written : literalValueText value = some text) : ∃ ch rest, text.toList = ch :: rest ∧ ch ≠ ' ' := by
  cases value with
  | string s =>
    obtain rfl := Option.some.inj written
    exact ⟨'"', s.toList ++ ['"'], by simp, by decide⟩
  | int64 n =>
    obtain rfl := Option.some.inj written
    obtain ⟨ch, rest, digits, visible⟩ := toDigits_visible n.toInt.natAbs
    rw [Math.NumberText.toList_toString, digits]
    by_cases negative : n.toInt < 0
    · exact ⟨'-', ch :: rest, by rw [if_pos negative]; rfl, by decide⟩
    · exact ⟨ch, rest, by rw [if_neg negative]; rfl, visible⟩
  | uint64 n =>
    obtain rfl := Option.some.inj written
    obtain ⟨ch, rest, digits, visible⟩ := toDigits_visible n.toNat
    exact ⟨ch, rest, by rw [← digits]; exact Nat.toList_repr, visible⟩
  | bool b =>
    obtain rfl := Option.some.inj written
    cases b with
    | true => exact ⟨'t', _, rfl, by decide⟩
    | false => exact ⟨'f', _, rfl, by decide⟩
  | double d => exact absurd written (by simp [literalValueText])

/-- No literal of the prefilter is found in a line with spaces after its colons. -/
theorem eqLiteral_not_infix {path : String} {literal : String}
    (asked : eqLiteral path value = some literal) (blank : ColonSpaced text) :
    ¬ literal.toList <:+: text := by
  obtain ⟨valueText, written, rfl⟩ := Option.map_eq_some_iff.mp asked
  obtain ⟨ch, rest, head, visible⟩ := literalValueText_head written
  rintro ⟨before, after, split⟩
  obtain ⟨tail, found⟩ := blank (before ++ '"' :: path.toList ++ ['"']) (ch :: rest ++ after) (by
    rw [← split, ← head]
    simp)
  exact visible (List.cons.inj found).1

/-! ## Members written as the prefilter expects -/

/-- Every character stands for itself. -/
def AllPlain (glyphs : List Glyph) : Prop :=
  ∀ glyph ∈ glyphs, glyph.text = [glyph.char]

/-- A value is written the way the prefilter writes the literal. -/
def WrittenAs : Literal → JsonText → Prop
  | .string s, .string glyphs => AllPlain glyphs ∧ glyphsString glyphs = s
  | .int64 n, .number number => number.spelling.text = (toString n.toInt).toList
  | .uint64 n, .number number => number.spelling.text = (toString n.toNat).toList
  | .bool b, .bool value => value = b
  | _, _ => False

mutual

/-- At some depth a member of that name is written without escapes and without
blanks around its colon, with the value as the prefilter writes the literal. -/
def Writes (path : String) (value : Literal) : JsonText → Prop
  | .array _ elements => WritesElement path value elements
  | .object _ members => WritesMember path value members
  | _ => False

def WritesElement (path : String) (value : Literal) : Elements → Prop
  | .nil => False
  | .cons _ element _ rest => Writes path value element ∨ WritesElement path value rest

def WritesMember (path : String) (value : Literal) : Members → Prop
  | .nil => False
  | .cons _ name beforeColon afterColon member _ rest =>
    AllPlain name ∧ glyphsString name = path ∧ beforeColon = [] ∧ afterColon = [] ∧
      WrittenAs value member ∨
    Writes path value member ∨ WritesMember path value rest

end

theorem glyphsText_of_allPlain {glyphs : List Glyph} (plain : AllPlain glyphs) :
    glyphsText glyphs = '"' :: (glyphsString glyphs).toList ++ ['"'] := by
  have each : glyphs.flatMap Glyph.text = glyphs.map Glyph.char := by
    induction glyphs with
    | nil => rfl
    | cons glyph rest ih =>
      rw [flatMap_cons, plain glyph mem_cons_self,
        ih fun other listed => plain other (mem_cons_of_mem _ listed)]
      rfl
  rw [glyphsText, each, glyphsString, String.toList_ofList]

theorem writtenAs_text {json : JsonText} (written : WrittenAs value json)
    {text : String} (asked : literalValueText value = some text) : json.text = text.toList := by
  cases value with
  | string s =>
    obtain rfl := Option.some.inj asked
    cases json with
    | string glyphs =>
      obtain ⟨plain, rfl⟩ := written
      rw [JsonText.text, glyphsText_of_allPlain plain]
      simp
    | _ => exact written.elim
  | int64 n | uint64 n =>
    obtain rfl := Option.some.inj asked
    cases json with
    | number number => exact written
    | _ => exact written.elim
  | bool b =>
    obtain rfl := Option.some.inj asked
    cases json with
    | bool value =>
      obtain rfl := written
      rfl
    | _ => exact written.elim
  | double d => exact absurd asked (by simp [literalValueText])

mutual

variable {path : String} {value : Literal} {literal : String}

theorem infix_of_writes (asked : eqLiteral path value = some literal) :
    ∀ json : JsonText, Writes path value json → literal.toList <:+: json.text
  | .null, written => written.elim
  | .bool _, written => written.elim
  | .number _, written => written.elim
  | .string _, written => written.elim
  | .array inside elements, written =>
    have inner := infix_of_writesElement asked [] elements written
    inner.trans ⟨'[' :: blanksText inside, [']'], rfl⟩
  | .object inside members, written =>
    have inner := infix_of_writesMember asked [] members written
    inner.trans ⟨'{' :: blanksText inside, ['}'], rfl⟩

theorem infix_of_writesElement
    (asked : eqLiteral path value = some literal) (separator : List Char) :
    ∀ elements : Elements, WritesElement path value elements →
      literal.toList <:+: elements.text separator
  | .nil, written => written.elim
  | .cons before element after rest, written => by
    rw [Elements.text]
    rcases written with here | later
    · exact (infix_of_writes asked element here).trans
        ⟨separator ++ blanksText before, blanksText after ++ rest.text [','], by simp⟩
    · exact (infix_of_writesElement asked [','] rest later).trans (suffix_append _ _).isInfix

theorem infix_of_writesMember
    (asked : eqLiteral path value = some literal) (separator : List Char) :
    ∀ members : Members, WritesMember path value members → literal.toList <:+: members.text separator
  | .nil, written => written.elim
  | .cons before name beforeColon afterColon member after rest, written => by
    rw [Members.text]
    rcases written with ⟨plain, named, rfl, rfl, written⟩ | inner | later
    · obtain ⟨valueText, valueAsked, rfl⟩ := Option.map_eq_some_iff.mp asked
      rw [glyphsText_of_allPlain plain, named, writtenAs_text written valueAsked]
      exact ⟨separator ++ blanksText before, blanksText after ++ rest.text [','], by
        simp [blanksText]⟩
    · exact (infix_of_writes asked member inner).trans
        ⟨separator ++ blanksText before ++ glyphsText name ++ blanksText beforeColon ++ [':'] ++
          blanksText afterColon, blanksText after ++ rest.text [','], by simp⟩
    · exact (infix_of_writesMember asked [','] rest later).trans (suffix_append _ _).isInfix

end

/-! ## When the prefilter loses nothing -/

section Exact

variable (search : MatchOp → String → String → Bool)

/-- No line that the query accepts is refused, and the filtered reads return exactly
the lines that the query accepts. -/
structure PrefilterKeeps (query : QueryNode) : Prop where
  passes : ∀ line : JsonLine,
    evaluate search query line.value = true → (buildPrefilter query).mayMatch line.text = true
  yields : ∀ ended lines,
    yieldLines search query ended lines = lines.filter fun line => evaluate search query line.value
  collects : ∀ lines,
    collectMatchingLines search query lines =
      lines.filter fun line => evaluate search query line.value

theorem mayMatch_iff (prefilter : LinePrefilter) (text : List Char) :
    prefilter.mayMatch text = true ↔ ∀ literal ∈ prefilter.required, literal.toList <:+: text := by
  simp [LinePrefilter.mayMatch]

/-- A line stands in the span it came with. -/
theorem text_infix_spanText (ended : Bool) {lines : List JsonLine} {line : JsonLine}
    (listed : line ∈ lines) : line.text <:+: spanText ended lines := by
  induction lines with
  | nil => exact absurd listed not_mem_nil
  | cons first rest ih =>
    cases rest with
    | nil =>
      obtain rfl := mem_singleton.mp listed
      exact (List.prefix_append _ _).isInfix
    | cons second rest =>
      rcases mem_cons.mp listed with rfl | later
      · exact (List.prefix_append _ _).isInfix
      · exact (ih later).trans ⟨first.text ++ ['\n'], [], by simp [spanText]⟩

/-- Refusing no accepted line is all that the filtered reads need. -/
theorem prefilterKeeps_of_passes {query : QueryNode}
    (passes : ∀ line : JsonLine, evaluate search query line.value = true →
      (buildPrefilter query).mayMatch line.text = true) : PrefilterKeeps search query where
  passes := passes
  yields := by
    intro ended lines
    unfold yieldLines
    have same : lines.filter (fun line => evaluate search query line.value &&
          ((buildPrefilter query).empty || (buildPrefilter query).mayMatch line.text)) =
        lines.filter fun line => evaluate search query line.value := by
      apply filter_congr
      intro line _
      cases accepted : evaluate search query line.value with
      | false => rfl
      | true => rw [passes line accepted, Bool.or_true, Bool.and_true]
    simp only [same]
    split
    · rename_i refused
      symm
      rw [filter_eq_nil_iff]
      intro line listed accepted
      have found := (mayMatch_iff _ _).mp (passes line accepted)
      have spanned : (buildPrefilter query).mayMatch (spanText ended lines) = true :=
        (mayMatch_iff _ _).mpr fun literal required =>
          (found literal required).trans (text_infix_spanText ended listed)
      simp [spanned] at refused
    · rfl
  collects := by
    intro lines
    unfold collectMatchingLines
    rw [filter_filter]
    apply filter_congr
    intro line _
    cases accepted : evaluate search query line.value with
    | false => rfl
    | true => rw [passes line accepted]; rfl

/-- The prefilter keeps every accepted line exactly when it searches for nothing, or
when the query accepts no line. A single line is kept whenever it writes the long
comparisons of the query the way the prefilter does. -/
theorem prefilterKeeps_iff (query : QueryNode) :
    (PrefilterKeeps search query ↔
      ¬ Searches query ∨ ∀ line : JsonLine, evaluate search query line.value = false) ∧
    ∀ line : JsonLine,
      (∀ comparison ∈ comparisons query, IsLong comparison →
        Writes comparison.1 comparison.2 line.root) →
      (buildPrefilter query).mayMatch line.text = true := by
  constructor
  · constructor
    · intro keeps
      by_cases searches : Searches query
      · right
        intro line
        by_contra accepted
        rw [Bool.not_eq_false, ← spacedLine_value] at accepted
        have found := (mayMatch_iff _ _).mp (keeps.passes (spacedLine line) accepted)
        obtain ⟨only, comparison, listed, literal, asked, long⟩ := searches
        have required := (mem_required_iff query literal).mpr ⟨only, long, comparison, listed, asked⟩
        exact eqLiteral_not_infix asked (spacedLine_colonSpaced line) (found literal required)
      · exact .inl searches
    · rintro (quiet | refused)
      · apply prefilterKeeps_of_passes
        intro line _
        rw [mayMatch_iff, (required_eq_nil_iff query).mpr quiet]
        simp
      · apply prefilterKeeps_of_passes
        intro line accepted
        rw [refused line] at accepted
        exact absurd accepted Bool.false_ne_true
  · intro line writes
    rw [mayMatch_iff]
    intro literal required
    obtain ⟨_, long, comparison, listed, asked⟩ := (mem_required_iff query literal).mp required
    have inner := infix_of_writes asked line.root (writes comparison listed ⟨literal, asked, long⟩)
    exact inner.trans ⟨blanksText line.before, blanksText line.after, rfl⟩

end Exact

namespace Blanks

def name : FieldNode := ⟨"name", by decide⟩

/-- `name == "checkpoint.0001"`. -/
def query : QueryNode := .compare name .eq (.string "checkpoint.0001")

def plainGlyphs (text : List Char) : List Glyph :=
  text.filterMap fun ch => if allowed : PlainChar ch then some (.plain ch allowed) else none

/-- The line `{"name": "checkpoint.0001"}`, with a blank after the colon. -/
def line : JsonLine where
  before := []
  root := .object [] (.cons [] (plainGlyphs "name".toList) [] [.space]
    (.string (plainGlyphs "checkpoint.0001".toList)) [] .nil)
  after := []

/-- The query accepts the line and the prefilter refuses it. -/
theorem not_prefilterKeeps : ¬ PrefilterKeeps (fun _ _ _ => false) query := by
  intro keeps
  have passed := keeps.passes line (by decide +kernel)
  exact absurd passed (by decide +kernel)

end Blanks

end DFTracer.Reader
