/-
# The parser of requests

A scan of the buffer decides whether there is an empty line, so whether a request is complete. Only
then the lines are parsed: an optional line break, the request line, headers and an empty line. The
cursor of the parser is what is left of the buffer.
-/

import Mathlib.Algebra.Ring.Nat
import Mathlib.Data.List.DropRight

namespace DFTracer.Server

abbrev Bytes := List UInt8

def HT : UInt8 := 0x09

def LF : UInt8 := 0x0A

def CR : UInt8 := 0x0D

def SP : UInt8 := 0x20

def COLON : UInt8 := 0x3A

/-- Which of the first 128 characters may stand in a token. -/
def tokenTable : List Nat :=
  [0, 0, 0, 0, 0, 0, 0, 0, 0, 0, 0, 0, 0, 0, 0, 0,
   0, 0, 0, 0, 0, 0, 0, 0, 0, 0, 0, 0, 0, 0, 0, 0,
   0, 1, 0, 1, 1, 1, 1, 1, 0, 0, 1, 1, 0, 1, 1, 0,
   1, 1, 1, 1, 1, 1, 1, 1, 1, 1, 1, 1, 0, 0, 0, 0,
   0, 1, 1, 1, 1, 1, 1, 1, 1, 1, 1, 1, 1, 1, 1, 1,
   1, 1, 1, 1, 1, 1, 1, 1, 1, 1, 1, 0, 0, 0, 1, 1,
   1, 1, 1, 1, 1, 1, 1, 1, 1, 1, 1, 1, 1, 1, 1, 1,
   1, 1, 1, 1, 1, 1, 1, 1, 1, 1, 1, 0, 1, 0, 1, 0]

def isTokenChar (c : UInt8) : Bool := tokenTable.getD c.toNat 0 = 1

def isPrintable (c : UInt8) : Bool := 0x20 ≤ c && c ≠ 0x7F

/-- Bytes up to one that stops, which is left, as long as all of them are allowed. -/
def readUntil (stops allowed : UInt8 → Bool) : Bytes → Option (Bytes × Bytes)
  | [] => none
  | c :: rest =>
    if stops c then some ([], c :: rest)
    else if allowed c then
      (readUntil stops allowed rest).map fun read => (c :: read.1, read.2)
    else none

def skipSpaces (c : Bytes) : Bytes := c.dropWhile (· = SP)

def readToken (delim : UInt8) (c : Bytes) : Option (Bytes × Bytes) :=
  (readUntil (· = delim) isTokenChar c).filter fun read => read.1 ≠ []

def readRequestTarget (c : Bytes) : Option (Bytes × Bytes) :=
  (readUntil (· = SP) (fun ch => !(ch < 0x21 || ch = 0x7F)) c).filter fun read => read.1 ≠ []

/-- A line break, with or without a carriage return. -/
def consumeEol : Bytes → Option Bytes
  | [] => none
  | c :: rest =>
    if c = CR then
      match rest with
      | [] => none
      | d :: rest => if d = LF then some rest else none
    else if c = LF then some rest
    else none

def isBlank (c : UInt8) : Bool := c = SP || c = HT

/-- A header value with its line break. Blanks behind the value are cut off. -/
def readHeaderValue (c : Bytes) : Option (Bytes × Bytes) :=
  (readUntil (fun ch => ch = CR || ch = LF) (fun ch => ch = HT || isPrintable ch) c).bind
    fun read => (consumeEol read.2).map fun rest => (read.1.rdropWhile isBlank, rest)

structure Header where
  name : Bytes
  value : Bytes
  deriving DecidableEq, Repr

structure ParsedRequest where
  method : Bytes
  path : Bytes
  minorVersion : Nat
  headers : List Header
  deriving DecidableEq, Repr

/-- The scan for an empty line. -/
def hasEmptyLine : Bytes → Bool
  | c :: d :: rest =>
    c = LF && (d = LF || (d = CR && rest.head? = some LF)) || hasEmptyLine (d :: rest)
  | _ => false

def hasCompleteRequest (buf : Bytes) : Bool := 4 ≤ buf.length && hasEmptyLine buf

/-- The optional line break in front of a request. -/
def skipLeading : Bytes → Option Bytes
  | [] => some []
  | c :: rest => if c = CR || c = LF then consumeEol (c :: rest) else some (c :: rest)

/-- `HTTP/1.` and a digit. -/
def readVersion : Bytes → Option (Nat × Bytes)
  | h :: t :: t' :: p :: slash :: one :: dot :: digit :: rest =>
    if [h, t, t', p, slash, one, dot] = [0x48, 0x54, 0x54, 0x50, 0x2F, 0x31, 0x2E] then
      if digit < 0x30 || 0x39 < digit then none else some (digit.toNat - 0x30, rest)
    else none
  | _ => none

def readHeader (c : Bytes) : Option (Header × Bytes) :=
  (readToken COLON c).bind fun name =>
    (readHeaderValue ((name.2.drop 1).dropWhile isBlank)).map fun value =>
      ({ name := name.1, value := value.1 }, value.2)

def MAX_HEADERS : Nat := 64

/-- Headers up to an empty line, or up to the end of the buffer, as long as there is room. -/
def readHeaders : Nat → Bytes → Option (List Header × Bytes)
  | _, [] => some ([], [])
  | room, c :: rest =>
    if c = CR || c = LF then (consumeEol (c :: rest)).map fun rest => ([], rest)
    else
      match room with
      | 0 => none
      | room + 1 =>
        (readHeader (c :: rest)).bind fun header =>
          (readHeaders room header.2).map fun headers =>
            (header.1 :: headers.1, headers.2)

/-- The request at the front of a buffer, with what is behind it. -/
def parseLines (buf : Bytes) : Option (ParsedRequest × Bytes) :=
  (skipLeading buf).bind fun c =>
    (readToken SP c).bind fun method =>
      (readRequestTarget (skipSpaces (method.2.drop 1))).bind fun path =>
        (readVersion (skipSpaces (path.2.drop 1))).bind fun version =>
          (consumeEol version.2).bind fun c =>
            (readHeaders MAX_HEADERS c).map fun headers =>
              ({ method := method.1, path := path.1, minorVersion := version.1,
                  headers := headers.1 }, headers.2)

/-- The number of bytes as a signed integer of 32 bits. -/
def toInt (n : Nat) : Int := (n : Int).bmod (2 ^ 32)

/-- The bytes of a request and the request, -2 where it is incomplete and -1 where it is none. -/
def parseRequest (buf : Bytes) : Int × Option ParsedRequest :=
  if hasCompleteRequest buf then
    match parseLines buf with
    | some (out, rest) => (toInt (buf.length - rest.length), some out)
    | none => (-1, none)
  else (-2, none)

end DFTracer.Server
