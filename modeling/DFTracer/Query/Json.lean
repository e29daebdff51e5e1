/-
# JSON values and path lookup

An event is a parsed JSON value. Integers keep their exact value within the sixty-four bits the
parser stores; every other number is a double. A path walks members and elements from the root. A
member name may itself contain dots, so a segment that is not a member is retried with longer and
longer dotted names.
-/

import DFTracer.Math.FloatText

namespace DFTracer.Query

open DFTracer.Math.Float64

/-- An integer the parser keeps exactly: it fits `int64_t` or `uint64_t`. -/
structure JsonInt where
  /-- The exact value. -/
  val : Int
  /-- It is representable in sixty-four bits, signed or unsigned. -/
  fits : -(2 ^ 63) ≤ val ∧ val < 2 ^ 64
deriving DecidableEq

/-- A parsed JSON value. Objects keep their members in source order. -/
inductive JsonValue where
  | null
  | bool (value : Bool)
  | int (value : JsonInt)
  | double (value : Double)
  | string (value : String)
  | array (elements : List JsonValue)
  | object (members : List (String × JsonValue))

namespace JsonInt

theorem natAbs_lt (n : JsonInt) : n.val.natAbs < 2 ^ 64 := by
  have := n.fits
  omega

/-- The double nearest to the integer. -/
def toDouble (n : JsonInt) : Double := .ofInt n.val n.natAbs_lt

end JsonInt

/-- An unsigned 64-bit number is a JSON integer. -/
theorem uint64_fits (n : UInt64) : -(2 ^ 63) ≤ (n.toNat : Int) ∧ (n.toNat : Int) < 2 ^ 64 := by
  have := n.toNat_lt
  omega

namespace JsonValue

/-- `operator[](key)`: the first member of that name, of an object only. -/
def member (key : String) : JsonValue → Option JsonValue
  | .object members => members.lookup key
  | _ => none

/-- `operator[](index)`: an element of an array only. -/
def element (index : Nat) : JsonValue → Option JsonValue
  | .array elements => elements[index]?
  | _ => none

def isArray : JsonValue → Bool
  | .array _ => true
  | _ => false

def isObject : JsonValue → Bool
  | .object _ => true
  | _ => false

/-- The decimal value of a digit run, as a wrapping `size_t`. -/
def decimalIndex (digits : List Char) : Nat :=
  digits.foldl (fun index c => (index * 10 + (c.toNat - '0'.toNat)) % 2 ^ 64) 0

def isDigit (c : Char) : Bool := '0' ≤ c && c ≤ '9'

/-- Lengths of the dotted keys to retry, longest first: the whole run up to the
next bracket, then the run cut at each later dot. -/
def flatCuts (run : List Char) (segment : Nat) : List Nat :=
  run.length ::
    ((List.range run.length).filter fun i => segment < i && run[i]? == some '.').reverse

/-- The flat-key fallback: the longest dotted key that is a member, and its
length within the run. -/
def flatMember (current : JsonValue) (run : List Char) (segment : Nat) :
    Option (JsonValue × Nat) :=
  (flatCuts run segment).findSome? fun cut =>
    (current.member (String.ofList (run.take cut))).map (·, cut)

/-- One name segment of a path: the member of that name, else an array element
when the name is a number, else the flat-key fallback. The result carries the
number of characters consumed. -/
def segmentStep (current : JsonValue) (path : List Char) : Option (JsonValue × Nat) :=
  let key := path.takeWhile fun c => c != '.' && c != '['
  let next := current.member (String.ofList key)
  let next :=
    if next.isNone && current.isArray && key.all isDigit then
      current.element (decimalIndex key)
    else next
  match next with
  | some value => some (value, key.length)
  | none =>
    if current.isObject && path[key.length]? == some '.' then
      current.flatMember (path.takeWhile (· != '[')) key.length
    else none

/-- The walk of `at`. Every turn consumes at least one character, so a fuel of
the length of the path never runs out. -/
def walk : Nat → JsonValue → List Char → Option JsonValue
  | _, current, [] => some current
  | 0, _, _ :: _ => none
  | fuel + 1, current, '.' :: rest => walk fuel current rest
  | fuel + 1, current, '[' :: rest =>
    let digits := rest.takeWhile isDigit
    let rest := rest.drop digits.length
    let rest := if rest.head? == some ']' then rest.tail else rest
    if digits.isEmpty then none
    else
      match current.element (decimalIndex digits) with
      | some value => walk fuel value rest
      | none => none
  | fuel + 1, current, c :: rest =>
    match current.segmentStep (c :: rest) with
    | some (value, consumed) => walk fuel value ((c :: rest).drop consumed)
    | none => none

/-- `JsonValue::at`: the value a path leads to. The path is a C string, so it
ends at a NUL character. -/
def atPath (value : JsonValue) (path : String) : Option JsonValue :=
  let path := path.toList.takeWhile (· != '\x00')
  walk path.length value path

end JsonValue

end DFTracer.Query
