/-
# The hash join

The right frame is indexed once: a table leads from a hash to the first row that has it,
and the rows with one hash are chained in ascending order. A single dense integer key is
looked up by direct address instead. Left frames are then probed one after the other,
and at the end the right rows that never matched are flushed.
-/

import DFTracer.Frames.Spill
import Mathlib.Data.Nat.Digits.Defs

namespace DFTracer.Frames

open Math (Table)

/-- Which rows a join keeps. -/
inductive JoinHow
  | Inner
  | Left
  | Right
  | Outer
  | Semi
  | Anti
  | Cross
  deriving DecidableEq, Repr

def keepsUnmatchedLeft (how : JoinHow) : Bool := how == .Left || how == .Outer

def keepsUnmatchedRight (how : JoinHow) : Bool := how == .Right || how == .Outer

def leftOnly (how : JoinHow) : Bool := how == .Semi || how == .Anti

/-- Why a call gives no frame: it throws, it goes beyond the end of a table, or it goes
round in a chain. -/
inductive JoinFailure
  | invalidArgument (message : String)
  | outOfRange (message : String)
  | outOfBounds
  | diverges
  deriving DecidableEq, Repr

inductive KeyKind
  | Fixed
  | Bool
  | Str32
  | Str64
  deriving DecidableEq, Repr

/-- A key column as the probe reads it. -/
structure KeyView where
  kind : KeyKind
  width : Nat := 0
  cells : List (Option Bytes)

/-- Eight bytes as a word, the first one the lowest. -/
def wordOf (b : Bytes) : UInt64 := UInt64.ofNat (Nat.ofDigits 256 (b.map UInt8.toNat))

namespace KeyView

/-- The view of a column that has values to key on. -/
def ofSeries (c : Series) : KeyView :=
  if narrowVarwidthType c.type = .String ∨ narrowVarwidthType c.type = .Binary then
    { kind := if c.type = .LargeString ∨ c.type = .LargeBinary then .Str64 else .Str32
      cells := c.cells }
  else if c.type = .Bool then { kind := .Bool, cells := c.cells }
  else { kind := .Fixed, width := (byteWidth c.type c.fixedSize).getD 0, cells := c.cells }

def new (c : Series) : Except JoinFailure KeyView :=
  if !isOrderableType c.type then
    .error (.invalidArgument ("join: key column type '" ++ typeName c.type
      ++ "' has no per-row value to key on"))
  else .ok (ofSeries c)

def isNull (v : KeyView) (i : Nat) : Bool := ((v.cells[i]?).join).isNone

/-- The bytes of a text. -/
def bytes (v : KeyView) (i : Nat) : Bytes := ((v.cells[i]?).join).getD []

/-- The buffer of a fixed-width column. -/
def data (v : KeyView) : Bytes :=
  v.cells.flatMap fun cell => cell.getD (List.replicate v.width 0)

/-- The bytes at a row of a buffer. -/
def fixedBytes (buffer : Bytes) (width i : Nat) : Bytes := (buffer.drop (i * width)).take width

def bit (v : KeyView) (i : Nat) : Bool := (v.bytes i).headD 0 &&& 1 == 1

section Hash

variable (strHash : Bytes → UInt64)

/-- The value's bits for a fixed-width cell, the bytes' hash otherwise. -/
def hash (v : KeyView) (i : Nat) : UInt64 :=
  match v.kind with
  | .Fixed =>
    let p := fixedBytes v.data v.width i
    if v.width = 8 then wordOf p
    else
      let bits := wordOf (p.take 8)
      if v.width > 8 then bits ^^^ strHash p else bits
  | .Bool => if v.bit i then 1 else 0
  | .Str32 | .Str64 => strHash (v.bytes i)

end Hash

/-- Two rows have the same key. The other column is read with this one's width. -/
def equals (v : KeyView) (i : Nat) (o : KeyView) (j : Nat) : Bool :=
  match v.kind with
  | .Fixed =>
    let a := fixedBytes v.data v.width i
    let b := fixedBytes o.data v.width j
    if v.width = 8 ∨ v.width = 4 then wordOf a == wordOf b else a == b
  | .Bool => v.bit i == o.bit j
  | .Str32 | .Str64 => v.bytes i == o.bytes j

end KeyView

def keyViews (keys : List Series) : Except JoinFailure (List KeyView) := keys.mapM KeyView.new

def anyNull (keys : List KeyView) (i : Nat) : Bool := keys.any fun k => k.isNull i

/-- Fold a value into a hash. -/
def hashCombine (seed value : UInt64) : UInt64 :=
  seed ^^^ (value + (0x9e3779b97f4a7c15 : UInt64) + (seed <<< (6 : UInt64)) + (seed >>> (2 : UInt64)))

def rowsEqual (a : List KeyView) (i : Nat) (b : List KeyView) (j : Nat) : Bool :=
  (a.zip b).all fun k => k.1.equals i k.2 j

section Hash

variable (strHash : Bytes → UInt64)

def rowHash (keys : List KeyView) (i : Nat) : UInt64 :=
  match keys with
  | [k] => k.hash strHash i
  | _ => keys.foldl (fun h k => hashCombine h (k.hash strHash i)) 0

/-- The key hash of each row, none where a key is null. -/
def buildHashes (keys : List KeyView) (n : Nat) : List (Option UInt64) :=
  (List.range n).map fun i => if anyNull keys i then none else some (rowHash strHash keys i)

end Hash

/-! ## The index of the right frame -/

/-- The two tables that are built: where a chain starts, and how it goes on. -/
structure DirectIndex where
  direct : List (Option Nat)
  next : List (Option Nat)

/-- Put a row in front of its chain. -/
def DirectIndex.insert (hashes : List (Option UInt64)) (lo : UInt64) (index : DirectIndex)
    (i : Nat) : Except JoinFailure DirectIndex :=
  match (hashes[i]?).join with
  | none => .ok index
  | some v =>
    match index.direct[(v - lo).toNat]? with
    | none => .error .outOfBounds
    | some slot => .ok
        { direct := index.direct.set (v - lo).toNat (some i)
          next := if slot.isSome then index.next.set i slot else index.next }

/-- The rows back to front, so that each chain lists them in ascending order. -/
def buildDirect (hashes : List (Option UInt64)) (lo : UInt64) (span : Nat) :
    Except JoinFailure DirectIndex :=
  (List.range hashes.length).reverse.foldlM (DirectIndex.insert hashes lo)
    { direct := List.replicate span none, next := List.replicate hashes.length none }

structure HashIndex where
  first : Table UInt64 Nat
  next : List (Option Nat)

def HashIndex.insert (hashes : List (Option UInt64)) (index : HashIndex) (i : Nat) : HashIndex :=
  match (hashes[i]?).join with
  | none => index
  | some v =>
    match index.first.lookup v with
    | none => { index with first := index.first.alter v fun _ => i }
    | some r =>
      { first := index.first.alter v fun _ => i
        next := index.next.set i (some r) }

def buildHash (hashes : List (Option UInt64)) : HashIndex :=
  (List.range hashes.length).reverse.foldl (HashIndex.insert hashes)
    { first := Table.empty, next := List.replicate hashes.length none }

def lesser (a b : UInt64) : UInt64 := if b < a then b else a

def greater (a b : UInt64) : UInt64 := if a < b then b else a

/-- The least and the greatest word, when there is any. -/
def wordRange (hashes : List (Option UInt64)) : Option (UInt64 × UInt64) :=
  hashes.reduceOption.foldl
    (fun range v =>
      let (lo, hi) := range.getD (0xFFFFFFFFFFFFFFFF, 0)
      some (lesser lo v, greater hi v))
    none

/-- The key is one integer column of eight bytes. -/
def oneInteger (keys : List Series) (views : List KeyView) : Bool :=
  match keys, views with
  | [key], [view] =>
    view.kind == .Fixed && view.width == 8 && (key.type == .Int64 || key.type == .Uint64)
  | _, _ => false

/-- The base and the span of the direct table, where the key is looked up by address. -/
def directRange (keys : List Series) (views : List KeyView) (hashes : List (Option UInt64)) :
    Option (UInt64 × UInt64) :=
  if oneInteger keys views then
    (wordRange hashes).bind fun r =>
      let span := r.2 - r.1 + 1
      if span ≤ UInt64.ofNat hashes.length * 4 + 1024 then some (r.1, span) else none
  else none

/-- The build side of a join. -/
structure HashJoin where
  right : DataFrame
  leftOn : List String
  rightOn : List String
  how : JoinHow
  suffix : String
  rightKeys : List Series := []
  first : Table UInt64 Nat := Table.empty
  direct : List (Option Nat) := []
  directBase : UInt64 := 0
  next : List (Option Nat) := []
  rightMatched : List Bool := []
  flushed : Bool := false

namespace HashJoin

def DEFAULT_SUFFIX : String := "_right"

/-- Check the key columns of a join. -/
def checkKeys (leftOn rightOn : List String) (how : JoinHow) :
    Except JoinFailure (List String × List String) :=
  if how = .Cross then .ok ([], [])
  else if leftOn.isEmpty then .error (.invalidArgument "join: no key columns")
  else if leftOn.length ≠ rightOn.length then
    .error (.invalidArgument "join: left_on and right_on differ in length")
  else .ok (leftOn, rightOn)

def rightKey (right : DataFrame) (k : String) : Except JoinFailure Series :=
  match right.column k with
  | none => .error (.outOfRange ("join: no right column named " ++ k))
  | some c => .ok c

/-- Index the right rows by their keys. -/
def index (strHash : Bytes → UInt64) (hj : HashJoin) (views : List KeyView) :
    Except JoinFailure HashJoin :=
  let hashes := buildHashes strHash views hj.right.numRows
  match directRange hj.rightKeys views hashes with
  | some (lo, span) =>
    (buildDirect hashes lo span.toNat).map fun built =>
      { hj with direct := built.direct, directBase := lo, next := built.next }
  | none =>
    let built := buildHash hashes
    .ok { hj with first := built.first, next := built.next }

def new (strHash : Bytes → UInt64) (right : DataFrame) (leftOn rightOn : List String)
    (how : JoinHow) (suffix : String) : Except JoinFailure HashJoin := do
  let (leftOn, rightOn) ← checkKeys leftOn rightOn how
  let rightKeys ← rightOn.mapM (rightKey right)
  let hj : HashJoin :=
    { right, leftOn, rightOn, how, rightKeys
      suffix := if suffix.isEmpty then DEFAULT_SUFFIX else suffix
      rightMatched := if keepsUnmatchedRight how then List.replicate right.numRows false else [] }
  if how = .Cross then pure hj
  else
    let views ← keyViews rightKeys
    hj.index strHash views

/-- The right columns of the output: all but a key that shares its left key's name,
with the suffix where a left column has the name. -/
def rightLayout (hj : HashJoin) (leftNames : List String) : List (String × Series) :=
  if leftOnly hj.how then []
  else
    ((hj.right.names.zip hj.right.columns).filter fun c =>
        !((hj.leftOn.zip hj.rightOn).any fun p => p.2 == c.1 && p.1 == c.1)).map fun c =>
      (if leftNames.contains c.1 then c.1 ++ hj.suffix else c.1, c.2)

/-- The right key that shares the name of a left column. -/
def sharedKeyOf (hj : HashJoin) (leftName : String) : Option Series :=
  (((hj.leftOn.zip hj.rightOn).zip hj.rightKeys).find? fun p =>
    p.1.1 == leftName && p.1.2 == leftName).map Prod.snd

/-! ## Probing -/

/-- The key is one word. -/
def oneWord (views : List KeyView) : Bool :=
  match views with
  | [view] => view.kind == .Fixed && view.width == 8
  | _ => false

/-- The word of a row of a one-word key. -/
def keyWord (views : List KeyView) (i : Nat) : UInt64 :=
  match views with
  | view :: _ => wordOf (KeyView.fixedBytes view.data 8 i)
  | [] => 0

/-- The first row of a chain, by direct address. -/
def directFirst (direct : List (Option Nat)) (base h : UInt64) : Option Nat :=
  let slot := h - base
  if slot < UInt64.ofNat direct.length then (direct[slot.toNat]?).join else none

section Probe

variable (strHash : Bytes → UInt64) (hj : HashJoin) (lviews rviews : List KeyView)

def isNull (i : Nat) : Bool :=
  if oneWord lviews then lviews.any fun k => k.isNull i else anyNull lviews i

/-- The first candidate row. -/
def firstOf (i : Nat) : Option Nat :=
  if oneWord lviews then
    if !hj.direct.isEmpty then directFirst hj.direct hj.directBase (keyWord lviews i)
    else hj.first.lookup (keyWord lviews i)
  else
    let h := rowHash strHash lviews i
    if !hj.direct.isEmpty then directFirst hj.direct hj.directBase h else hj.first.lookup h

def equal (i r : Nat) : Bool :=
  if oneWord lviews then keyWord lviews i == keyWord rviews r else rowsEqual lviews i rviews r

/-- The row after this one in its chain. -/
def nextOf (r : Nat) : Except JoinFailure (Option Nat) :=
  match hj.next[r]? with
  | some next => .ok next
  | none => .error .outOfBounds

/-- The first row of a chain whose key really equals. -/
def firstEqual (i : Nat) : Nat → Option Nat → Except JoinFailure (Option Nat)
  | _, none => .ok none
  | 0, some _ => .error .diverges
  | fuel + 1, some r =>
    if equal lviews rviews i r then .ok (some r)
    else (hj.nextOf r).bind (firstEqual i fuel)

/-- The rows of a chain whose keys really equal. -/
def equalRows (i : Nat) : Nat → Option Nat → Except JoinFailure (List Nat)
  | _, none => .ok []
  | 0, some _ => .error .diverges
  | fuel + 1, some r =>
    (hj.nextOf r).bind fun next =>
      (equalRows i fuel next).map fun rows =>
        if equal lviews rviews i r then r :: rows else rows

/-- The pair lists that a probe writes, and the right rows that have matched. -/
structure Pairs where
  left : List Nat := []
  right : List (Option Nat) := []
  matched : List Bool

/-- Pair a left row with the matching right rows. -/
def probeRow (out : Pairs) (i : Nat) : Except JoinFailure Pairs :=
  let fuel := hj.next.length + 1
  let start := if isNull lviews i then none else firstOf strHash hj lviews i
  (firstEqual hj lviews rviews i fuel start).bind fun found =>
    match found with
    | none =>
      if hj.how = .Anti then .ok { out with left := out.left ++ [i] }
      else if keepsUnmatchedLeft hj.how then
        .ok { out with left := out.left ++ [i], right := out.right ++ [none] }
      else .ok out
    | some r =>
      if hj.how = .Semi then .ok { out with left := out.left ++ [i] }
      else if hj.how = .Anti then .ok out
      else
        (equalRows hj lviews rviews i fuel (some r)).map fun rows =>
          { left := out.left ++ rows.map fun _ => i
            right := out.right ++ rows.map some
            matched :=
              if hj.rightMatched.length ≠ 0 then
                rows.foldl (fun matched r => matched.set r true) out.matched
              else out.matched }

def probeRows (n : Nat) : Except JoinFailure Pairs :=
  (List.range n).foldlM (probeRow strHash hj lviews rviews) { matched := hj.rightMatched }

end Probe

/-- The output rows of a probe. -/
def emit (hj : HashJoin) (left : DataFrame) (leftIdx : List Nat) (rightIdx : List (Option Nat)) :
    DataFrame :=
  let layout := hj.rightLayout left.names
  { names := left.names ++ layout.map Prod.fst
    columns := left.columns.map (fun c => c.take (leftIdx.map some))
      ++ layout.map fun c => c.2.take rightIdx }

def leftKey (left : DataFrame) (k : String) : Except JoinFailure Series :=
  match left.column k with
  | none => .error (.outOfRange ("join: no left column named " ++ k))
  | some c => .ok c

/-- The left key has the type of its right key. -/
def checkType (names : String × String) (lc rc : Series) : Except JoinFailure Unit :=
  if lc.type ≠ rc.type then
    .error (.invalidArgument ("join: key '" ++ names.1 ++ "' is " ++ typeName lc.type
      ++ " on the left but '" ++ names.2 ++ "' is " ++ typeName rc.type ++ " on the right"))
  else .ok ()

/-- Join one left frame. -/
def probe (strHash : Bytes → UInt64) (hj : HashJoin) (left : DataFrame) :
    Except JoinFailure (DataFrame × HashJoin) := do
  let leftKeys ← hj.leftOn.mapM (leftKey left)
  ((hj.leftOn.zip hj.rightOn).zip (leftKeys.zip hj.rightKeys)).forM fun p =>
    checkType p.1 p.2.1 p.2.2
  if hj.how = .Cross then
    let pairs := (List.range left.numRows).flatMap fun i =>
      (List.range hj.right.numRows).map fun r => (i, some r)
    pure (hj.emit left (pairs.map Prod.fst) (pairs.map Prod.snd), hj)
  else
    let lviews ← keyViews leftKeys
    let rviews ← keyViews hj.rightKeys
    let pairs ← probeRows strHash hj lviews rviews left.numRows
    pure (hj.emit left pairs.left pairs.right, { hj with rightMatched := pairs.matched })

/-- The right rows that never matched. -/
def unmatched (hj : HashJoin) : List Nat :=
  (List.range hj.rightMatched.length).filter fun r => (hj.rightMatched[r]?).getD false == false

/-- The output rows of right rows alone. A left column is null there, except a key that
shares its right key's name. -/
def emitRight (hj : HashJoin) (leftNames : List String) (leftTemplates : List Series)
    (rightIdx : List (Option Nat)) : DataFrame :=
  let layout := hj.rightLayout leftNames
  { names := leftNames ++ layout.map Prod.fst
    columns := (leftNames.zip leftTemplates).map (fun c =>
        match hj.sharedKeyOf c.1 with
        | some key => key.take rightIdx
        | none => c.2.take (rightIdx.map fun _ => none))
      ++ layout.map fun c => c.2.take rightIdx }

/-- Emit the right rows that never matched, once. -/
def flush (hj : HashJoin) (leftNames : List String) (leftTemplates : List Series) :
    Except JoinFailure (DataFrame × HashJoin) :=
  if hj.flushed || !keepsUnmatchedRight hj.how then .ok ({}, hj)
  else if leftTemplates.length ≠ leftNames.length then
    .error (.invalidArgument "join: left templates do not match the left column count")
  else
    let rightIdx := hj.unmatched.map some
    .ok (if rightIdx.isEmpty then {} else hj.emitRight leftNames leftTemplates rightIdx,
      { hj with flushed := true })

end HashJoin

/-! ## The relational join

What a join of two frames is, row by row: a left row is paired with the right rows whose
keys have the same values, in ascending order. A null key has no value. Unmatched rows
are kept once where the kind of join says so. The code is given the left frame in parts. -/

/-- Two rows agree on all key columns, and no key is null. -/
def keyMatch (lefts rights : List Series) (i r : Nat) : Bool :=
  (lefts.zip rights).all fun k => (k.1.cell i).isSome && k.1.cell i == k.2.cell r

/-- A join on key columns that are there and have equal types. A cross join has none. -/
structure JoinInput where
  left : DataFrame
  right : DataFrame
  leftOn : List String
  rightOn : List String
  how : JoinHow
  suffix : String
  leftKeys : List Series
  rightKeys : List Series
  leftFormed : left.WellFormed
  rightFormed : right.WellFormed
  keyed : how ≠ .Cross → leftOn ≠ [] ∧ leftOn.length = rightOn.length
  leftFound : how ≠ .Cross → leftOn.map left.column = leftKeys.map some
  rightFound : how ≠ .Cross → rightOn.map right.column = rightKeys.map some
  unkeyed : how = .Cross → leftKeys = [] ∧ rightKeys = []
  typed : leftKeys.map (fun c => (c.type, c.fixedSize)) = rightKeys.map fun c => (c.type, c.fixedSize)
  orderable : ∀ c ∈ rightKeys, isOrderableType c.type

section Pairs

variable (how : JoinHow) (rightRows : Nat) (agree : Nat → Nat → Bool)

/-- The right rows that a left row is paired with. -/
def matching (i : Nat) : List Nat := (List.range rightRows).filter (agree i)

/-- The right sides of a left row's output rows: none where there is no right row. -/
def rowMatches (i : Nat) : List (Option Nat) :=
  let rows := matching rightRows agree i
  match how with
  | .Semi => if rows.isEmpty then [] else [none]
  | .Anti => if rows.isEmpty then [none] else []
  | .Left | .Outer => if rows.isEmpty then [none] else rows.map some
  | .Inner | .Right | .Cross => rows.map some

/-- The output rows of a left row. -/
def rowPairs (i : Nat) : List (Nat × Option Nat) :=
  (rowMatches how rightRows agree i).map fun r => (i, r)

/-- The right rows that no left row matches, where they are kept. -/
def neverMatched (leftRows : Nat) : List Nat :=
  if keepsUnmatchedRight how then
    (List.range rightRows).filter fun r => (List.range leftRows).all fun i => !agree i r
  else []

end Pairs

namespace JoinInput

variable (input : JoinInput)

/-- The two rows match. -/
def agree (i r : Nat) : Bool := keyMatch input.leftKeys input.rightKeys i r

/-- The right columns of the output with their names. -/
def keptRight : List (String × Series) :=
  if leftOnly input.how then []
  else
    ((input.right.names.zip input.right.columns).filter fun c =>
      input.how = .Cross || (input.leftOn.zip input.rightOn).all fun p => p ≠ (c.1, c.1)).map
      fun c =>
        (if c.1 ∈ input.left.names then
            c.1 ++ if input.suffix.isEmpty then "_right" else input.suffix
          else c.1, c.2)

/-- The right key of the name of a left column, when both sides call it so. -/
def sharedKey (name : String) : Option Series :=
  (((input.leftOn.zip input.rightOn).zip input.rightKeys).find? fun p =>
    p.1 = (name, name)).map Prod.snd

/-- The join as a frame: first the rows of the left frame, then the right rows that
nothing matched. -/
def reference : DataFrame :=
  let rows := input.right.numRows
  let pairs := (List.range input.left.numRows).flatMap (rowPairs input.how rows input.agree)
  let rest := neverMatched input.how rows input.agree input.left.numRows
  { names := input.left.names ++ input.keptRight.map Prod.fst
    columns :=
      (input.left.names.zip input.left.columns).map (fun c =>
        { c.2 with
          cells := pairs.map (fun p => c.2.cell p.1)
            ++ rest.map fun r => (input.sharedKey c.1).bind fun key => key.cell r })
      ++ input.keptRight.map fun c =>
        { c.2 with
          cells := pairs.map (fun p => p.2.bind c.2.cell) ++ rest.map c.2.cell } }

/-- A key of the right frame covers all words: its one integer column holds both the word
of all zeros and the word of all ones. -/
def CoversAllWords : Prop :=
  ∃ key, input.rightKeys = [key] ∧ (key.type = .Int64 ∨ key.type = .Uint64) ∧
    some (List.replicate 8 0) ∈ key.cells ∧ some (List.replicate 8 0xFF) ∈ key.cells

instance : Decidable input.CoversAllWords :=
  decidable_of_iff
    (∃ key ∈ input.rightKeys.head?, input.rightKeys.length = 1 ∧
      (key.type = .Int64 ∨ key.type = .Uint64) ∧
      some (List.replicate 8 0) ∈ key.cells ∧ some (List.replicate 8 0xFF) ∈ key.cells) (by
    constructor
    · rintro ⟨key, hkey, hlength, h⟩
      obtain ⟨only, honly⟩ := List.length_eq_one_iff.mp hlength
      rw [honly, List.head?_cons, Option.mem_some_iff] at hkey
      exact ⟨key, by rw [honly, hkey], h⟩
    · rintro ⟨key, hkey, h⟩
      exact ⟨key, by rw [hkey]; rfl, by rw [hkey]; rfl, h⟩)

end JoinInput

namespace DataFrame

/-- Put the rows of one frame below those of another one. -/
def append (df below : DataFrame) : DataFrame :=
  { df with
    columns := List.zipWith (fun c d => { c with cells := c.cells ++ d.cells }) df.columns
      below.columns }

def concat : List DataFrame → DataFrame
  | [] => {}
  | df :: rest => rest.foldl append df

/-- Cut a frame from a row on into consecutive parts of the given sizes and a last one
with the rest. -/
def cutFrom (df : DataFrame) (offset : Nat) : List Nat → List DataFrame
  | [] => [df.slice offset (df.numRows - offset)]
  | n :: sizes => df.slice offset n :: df.cutFrom (min (offset + n) df.numRows) sizes

def cut (df : DataFrame) (sizes : List Nat) : List DataFrame := df.cutFrom 0 sizes

end DataFrame

/-- Probe one part after the other. -/
def HashJoin.probeAll (strHash : Bytes → UInt64) (hj : HashJoin) :
    List DataFrame → Except JoinFailure (List DataFrame × HashJoin)
  | [] => .ok ([], hj)
  | part :: parts =>
    (hj.probe strHash part).bind fun probed =>
      (HashJoin.probeAll strHash probed.2 parts).map fun rest => (probed.1 :: rest.1, rest.2)

/-- Index the right frame, probe the parts of the left one, flush, and put the outputs
below one another. -/
def JoinInput.run (input : JoinInput) (strHash : Bytes → UInt64) (sizes : List Nat) :
    Except JoinFailure DataFrame := do
  let hj ← HashJoin.new strHash input.right input.leftOn input.rightOn input.how input.suffix
  let probed ← hj.probeAll strHash (input.left.cut sizes)
  let flushed ← probed.2.flush input.left.names input.left.columns
  pure (DataFrame.concat (probed.1 ++ if flushed.1.numRows = 0 then [] else [flushed.1]))

end DFTracer.Frames
