/-
# JSON as it is written

One value has many texts: blanks stand between tokens, any character of a string
may be escaped, a number may carry a fraction or an exponent. A written value is the
tree of those choices. It has a text, and a value that the parser makes of the text.
The tree holds no newline outside an escape, so a written value stands on one line.
-/

import DFTracer.Query.Json

namespace DFTracer.Query

open DFTracer.Math.Float64

/-- A blank of a line. The fourth blank of the grammar, the newline, ends it. -/
inductive Blank where
  | space
  | tab
  | carriageReturn
deriving DecidableEq

def Blank.char : Blank → Char
  | .space => ' '
  | .tab => '\t'
  | .carriageReturn => '\r'

/-- The text of a run of blanks. -/
def blanksText (blanks : List Blank) : List Char := blanks.map Blank.char

/-- The escapes of two characters. -/
inductive ShortEscape where
  | quote
  | backslash
  | slash
  | backspace
  | formFeed
  | newline
  | carriageReturn
  | tab
deriving DecidableEq

/-- The character after the backslash. -/
def ShortEscape.letter : ShortEscape → Char
  | .quote => '"'
  | .backslash => '\\'
  | .slash => '/'
  | .backspace => 'b'
  | .formFeed => 'f'
  | .newline => 'n'
  | .carriageReturn => 'r'
  | .tab => 't'

/-- The character that is meant. -/
def ShortEscape.char : ShortEscape → Char
  | .quote => '"'
  | .backslash => '\\'
  | .slash => '/'
  | .backspace => '\x08'
  | .formFeed => '\x0c'
  | .newline => '\n'
  | .carriageReturn => '\r'
  | .tab => '\t'

/-- A digit of a numeric escape, in either case. -/
def hexDigit (upper : Bool) (digit : Fin 16) : Char :=
  if upper then (Nat.digitChar digit.val).toUpper else Nat.digitChar digit.val

/-- A numeric escape of one code unit; each digit has a case of its own. -/
def unitEscape (upper : Fin 4 → Bool) (unit : Nat) : List Char :=
  ['\\', 'u', hexDigit (upper 0) (.ofNat 16 (unit / 4096)), hexDigit (upper 1) (.ofNat 16 (unit / 256)),
    hexDigit (upper 2) (.ofNat 16 (unit / 16)), hexDigit (upper 3) (.ofNat 16 unit)]

/-- A character may stand in a string as it is. -/
def PlainChar (ch : Char) : Prop := 0x20 ≤ ch.toNat ∧ ch ≠ '"' ∧ ch ≠ '\\'

instance (ch : Char) : Decidable (PlainChar ch) := inferInstanceAs (Decidable (_ ∧ _ ∧ _))

/-- One character of a string, as it is written. -/
inductive Glyph where
  | plain (ch : Char) (allowed : PlainChar ch)
  | short (escape : ShortEscape)
  | unicode (ch : Char) (high low : Fin 4 → Bool)

namespace Glyph

def char : Glyph → Char
  | .plain ch _ => ch
  | .short escape => escape.char
  | .unicode ch _ _ => ch

/-- A character beyond the basic plane is escaped as two surrogates. -/
def text : Glyph → List Char
  | .plain ch _ => [ch]
  | .short escape => ['\\', escape.letter]
  | .unicode ch high low =>
    if ch.toNat < 0x10000 then unitEscape low ch.toNat
    else unitEscape high (0xd800 + (ch.toNat - 0x10000) / 0x400) ++
      unitEscape low (0xdc00 + (ch.toNat - 0x10000) % 0x400)

end Glyph

/-- The string a run of glyphs stands for. -/
def glyphsString (glyphs : List Glyph) : String := .ofList (glyphs.map Glyph.char)

/-- The text of a string, its quotes included. -/
def glyphsText (glyphs : List Glyph) : List Char := '"' :: glyphs.flatMap Glyph.text ++ ['"']

/-- The exponent of a number: its letter, its sign when it is written, its digits. -/
structure Exponent where
  upper : Bool
  sign : Option Bool
  digits : List (Fin 10)

/-- A number, as it is written. -/
structure NumberSpelling where
  negative : Bool
  whole : List (Fin 10)
  fraction : Option (List (Fin 10))
  exponent : Option Exponent

def digitsText (digits : List (Fin 10)) : List Char := digits.map fun d => Nat.digitChar d.val

def digitsValue (digits : List (Fin 10)) : Nat := digits.foldl (fun n d => 10 * n + d.val) 0

namespace Exponent

def text (exponent : Exponent) : List Char :=
  (if exponent.upper then 'E' else 'e') ::
    (match exponent.sign with
      | none => []
      | some negative => [if negative then '-' else '+']) ++ digitsText exponent.digits

def value (exponent : Exponent) : Int :=
  if exponent.sign = some true then -(digitsValue exponent.digits : Int) else digitsValue exponent.digits

end Exponent

namespace NumberSpelling

/-- No run of digits is empty, and only a lone zero starts with one. -/
def WellFormed (number : NumberSpelling) : Prop :=
  number.whole ≠ [] ∧ (number.whole.head? = some 0 → number.whole.length = 1) ∧
    number.fraction ≠ some [] ∧ ∀ exponent ∈ number.exponent, exponent.digits ≠ []

def text (number : NumberSpelling) : List Char :=
  (if number.negative then ['-'] else []) ++ digitsText number.whole ++
    (match number.fraction with
      | none => []
      | some digits => '.' :: digitsText digits) ++
    (match number.exponent with
      | none => []
      | some exponent => exponent.text)

/-- An integer is kept when it fits. -/
def readInteger (number : NumberSpelling) : Option JsonValue :=
  let n : Int := if number.negative then -(digitsValue number.whole : Int) else digitsValue number.whole
  if fits : -(2 ^ 63) ≤ n ∧ n < 2 ^ 64 then some (.int ⟨n, fits⟩) else none

/-- Any other number is the nearest double, refused when that is infinite. -/
def readDouble (number : NumberSpelling) : Option JsonValue :=
  let fraction := number.fraction.getD []
  let exponent := (number.exponent.elim 0 Exponent.value) - fraction.length
  let magnitude : Float :=
    .ofScientific (digitsValue (number.whole ++ fraction)) (exponent < 0) exponent.natAbs
  let x := if number.negative then -magnitude else magnitude
  if finite : x.isNaN = false ∧ x.isInf = false then some (.double ⟨x, finite.1⟩) else none

/-- What the parser makes of a number, nothing when it is out of range. -/
def read (number : NumberSpelling) : Option JsonValue :=
  if number.fraction.isNone && number.exponent.isNone then number.readInteger else number.readDouble

end NumberSpelling

/-- A number the parser accepts, with its value. -/
structure JsonNumber where
  spelling : NumberSpelling
  wellFormed : spelling.WellFormed
  value : JsonValue
  reads : spelling.read = some value

mutual

/-- A value, as it is written. -/
inductive JsonText where
  | null
  | bool (value : Bool)
  | number (number : JsonNumber)
  | string (glyphs : List Glyph)
  | array (inside : List Blank) (elements : Elements)
  | object (inside : List Blank) (members : Members)

/-- The elements of an array, each between blanks. -/
inductive Elements where
  | nil
  | cons (before : List Blank) (element : JsonText) (after : List Blank) (rest : Elements)

/-- The members of an object. Blanks may stand around the name and around the value. -/
inductive Members where
  | nil
  | cons (before : List Blank) (name : List Glyph) (beforeColon afterColon : List Blank)
      (member : JsonText) (after : List Blank) (rest : Members)

end

mutual

/-- The characters of a written value. -/
def JsonText.text : JsonText → List Char
  | .null => "null".toList
  | .bool value => (if value then "true" else "false").toList
  | .number number => number.spelling.text
  | .string glyphs => glyphsText glyphs
  | .array inside elements => '[' :: blanksText inside ++ elements.text [] ++ [']']
  | .object inside members => '{' :: blanksText inside ++ members.text [] ++ ['}']

/-- Every element but the first follows a comma. -/
def Elements.text (separator : List Char) : Elements → List Char
  | .nil => []
  | .cons before element after rest =>
    separator ++ blanksText before ++ element.text ++ blanksText after ++ rest.text [',']

/-- Every member but the first follows a comma. -/
def Members.text (separator : List Char) : Members → List Char
  | .nil => []
  | .cons before name beforeColon afterColon member after rest =>
    separator ++ blanksText before ++ glyphsText name ++ blanksText beforeColon ++ [':'] ++
      blanksText afterColon ++ member.text ++ blanksText after ++ rest.text [',']

end

mutual

/-- What the parser makes of a written value. -/
def JsonText.value : JsonText → JsonValue
  | .null => .null
  | .bool value => .bool value
  | .number number => number.value
  | .string glyphs => .string (glyphsString glyphs)
  | .array _ elements => .array elements.values
  | .object _ members => .object members.values

def Elements.values : Elements → List JsonValue
  | .nil => []
  | .cons _ element _ rest => element.value :: rest.values

def Members.values : Members → List (String × JsonValue)
  | .nil => []
  | .cons _ name _ _ member _ rest => (glyphsString name, member.value) :: rest.values

end

/-- A line of a file of JSON lines, without its newline. -/
structure JsonLine where
  before : List Blank
  root : JsonText
  after : List Blank

namespace JsonLine

def text (line : JsonLine) : List Char := blanksText line.before ++ line.root.text ++ blanksText line.after

def value (line : JsonLine) : JsonValue := line.root.value

end JsonLine

section Characters

-- a character that no token of the grammar is made of
variable {ch : Char}

theorem not_mem_blanksText (blank : ∀ b : Blank, b.char ≠ ch) (blanks : List Blank) :
    ch ∉ blanksText blanks := by
  intro member
  obtain ⟨b, _, same⟩ := List.mem_map.mp member
  exact blank b same

theorem not_mem_digitsText (digit : ∀ d : Fin 10, Nat.digitChar d.val ≠ ch) (digits : List (Fin 10)) :
    ch ∉ digitsText digits := by
  intro member
  obtain ⟨d, _, same⟩ := List.mem_map.mp member
  exact digit d same

end Characters

theorem colon_not_mem_digitsText (digits : List (Fin 10)) : ':' ∉ digitsText digits :=
  not_mem_digitsText (by decide) digits

theorem colon_not_mem_blanksText (blanks : List Blank) : ':' ∉ blanksText blanks :=
  not_mem_blanksText (fun b => by cases b <;> decide) blanks

theorem colon_not_mem_exponent (exponent : Exponent) : ':' ∉ exponent.text := by
  unfold Exponent.text
  have digits := colon_not_mem_digitsText exponent.digits
  cases exponent.upper <;> rcases exponent.sign with _ | _ | _ <;> simp [digits]

/-- A number has no colon. -/
theorem colon_not_mem_number (number : NumberSpelling) : ':' ∉ number.text := by
  unfold NumberSpelling.text
  have whole := colon_not_mem_digitsText number.whole
  have fraction : ∀ digits, ':' ∉ digitsText digits := colon_not_mem_digitsText
  have exponent : ∀ e : Exponent, ':' ∉ e.text := colon_not_mem_exponent
  cases number.negative <;> cases number.fraction <;> cases number.exponent <;>
    simp [whole, fraction, exponent]

theorem hexDigit_ne_colon (upper : Bool) (digit : Fin 16) : hexDigit upper digit ≠ ':' := by
  revert upper digit
  decide

theorem colon_not_mem_unitEscape (upper : Fin 4 → Bool) (unit : Nat) : ':' ∉ unitEscape upper unit := by
  intro member
  simp only [unitEscape, List.mem_cons, List.not_mem_nil, or_false] at member
  rcases member with h | h | h | h | h | h
  · exact absurd h (by decide)
  · exact absurd h (by decide)
  · exact hexDigit_ne_colon _ _ h.symm
  · exact hexDigit_ne_colon _ _ h.symm
  · exact hexDigit_ne_colon _ _ h.symm
  · exact hexDigit_ne_colon _ _ h.symm

/-- A character escaped by its number leaves no colon in the text. -/
theorem colon_not_mem_unicode (ch : Char) (high low : Fin 4 → Bool) :
    ':' ∉ (Glyph.unicode ch high low).text := by
  simp only [Glyph.text]
  split
  · exact colon_not_mem_unitEscape _ _
  · simp [colon_not_mem_unitEscape]

end DFTracer.Query
