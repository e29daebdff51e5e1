/-
# Arithmetic of decimals

A decimal is an integer and a scale, the number of its digits behind the point. The integers of a
column have 128 or 256 bits and are kept also under nulls. Two columns are brought to the scale of
the result and computed row by row. Where a row does not fit, there is no result at all.
-/

import DFTracer.Math.Limbs

namespace DFTracer.Kernels

open Math.Limbs

inductive BinOp
  | Add
  | Sub
  | Mul
  | Div
  deriving DecidableEq, Repr

def DECIMAL128_MAX_PRECISION : Int := 38
def DECIMAL256_MAX_PRECISION : Int := 76
def DECIMAL_DIVIDE_SCALE_INCREMENT : Int := 4

/-- `pow10_u128`. A power that does not fit loses its high bits. -/
def pow10U128 (n : Int) : BitVec 128 := (fun v => v * 10)^[n.toNat] 1

/-- The magnitude of a signed integer, as the code casts it. -/
def magnitude (v : BitVec 128) : BitVec 128 := if v.slt 0 then -(v + 1) + 1 else v

def i128FitsPrecision (v : BitVec 128) (precision : Int) : Bool :=
  if precision ≤ 0 then false
  else if DECIMAL128_MAX_PRECISION + 1 ≤ precision then true
  else magnitude v < pow10U128 precision

def I128_MAX : BitVec 128 := (1 <<< 127) - 1

def rescaleUpI128 (v : BitVec 128) (fromScale toScale : Int) : Option (BitVec 128) :=
  if toScale = fromScale then some v
  else if v = 0 then some 0
  else
    let factor := pow10U128 (toScale - fromScale)
    if factor = 0 then none
    else
      let mag := if v.slt 0 then ~~~ v + 1 else v
      if I128_MAX / factor < mag then none
      else some (if v.slt 0 then -(mag * factor) else mag * factor)

/-- A product of 256 bits. -/
structure U256 where
  lo : BitVec 128
  hi : BitVec 128
  deriving DecidableEq

/-- The low and the high half of a product. -/
def umul128 (a b : BitVec 128) : U256 :=
  let aLo := (a.setWidth 64).setWidth 128
  let aHi := a >>> 64
  let bLo := (b.setWidth 64).setWidth 128
  let bHi := b >>> 64
  let t0 := aLo * bLo
  let t1 := aLo * bHi
  let t2 := aHi * bLo
  let t3 := aHi * bHi
  let mid := t0 >>> 64 + (t1.setWidth 64).setWidth 128 + (t2.setWidth 64).setWidth 128
  let carry := mid >>> 64
  { lo := (mid.setWidth 64).setWidth 128 <<< 64 ||| (t0.setWidth 64).setWidth 128
    hi := t3 + t1 >>> 64 + t2 >>> 64 + carry }

/-- A magnitude with its sign, where it fits. -/
def signedI128 (neg : Bool) (mag : BitVec 128) (precision : Int) : Option (BitVec 128) :=
  if mag >>> 127 ≠ 0 then none
  else
    let result := if neg then -mag else mag
    if i128FitsPrecision result precision then some result else none

def mulCheckedI128 (a b : BitVec 128) (resultPrecision : Int) : Option (BitVec 128) :=
  let neg := a.slt 0 != b.slt 0
  let prod := umul128 (magnitude a) (magnitude b)
  if prod.hi ≠ 0 then none else signedI128 neg prod.lo resultPrecision

/-- The quotient of a dividend that is shifted by some digits. -/
def muldivCheckedI128 (a : BitVec 128) (shift : Int) (b : BitVec 128) (resultPrecision : Int) :
    Option (BitVec 128) :=
  if b = 0 ∨ shift < 0 ∨ DECIMAL128_MAX_PRECISION < shift then none
  else
    let neg := a.slt 0 != b.slt 0
    let prod := umul128 (magnitude a) (pow10U128 shift)
    if prod.hi ≠ 0 ∨ prod.lo >>> 127 ≠ 0 then none
    else signedI128 neg (prod.lo / magnitude b) resultPrecision

/-- Four words. -/
structure Limbs256 where
  words : List UInt64
  four : words.length = 4
  deriving DecidableEq

namespace Limbs256

def isNegative (v : Limbs256) : Bool := (v.words.getD 3 0).toInt64 < 0

def negate (v : Limbs256) : Limbs256 where
  words := (ripple (fun w => (~~~ w).toNat) v.words 1).1
  four := length_ripple.trans v.four

def abs (v : Limbs256) : Limbs256 := if v.isNegative then v.negate else v

/-- `add256_raw`: the sum, and whether there is a carry. -/
def addRaw (a b : Limbs256) : Limbs256 × Bool :=
  let sum := ripple (fun p => p.1.toNat + p.2.toNat) (a.words.zip b.words) 0
  (⟨sum.1, by rw [length_ripple, List.length_zip, a.four, b.four, Nat.min_self]⟩, sum.2 ≠ 0)

def addOverflows (a b out : Limbs256) : Bool :=
  a.isNegative == b.isNegative && out.isNegative != a.isNegative

/-- `mul10_256`: the product with ten, and whether it needs another word. -/
def mul10 (v : Limbs256) : Limbs256 × Bool :=
  let prod := ripple (fun w => w.toNat * 10) v.words 0
  (⟨prod.1, length_ripple.trans v.four⟩, prod.2 ≠ 0)

def one : Limbs256 := ⟨[1, 0, 0, 0], rfl⟩

def pow10 (n : Int) : Limbs256 := (fun v => v.mul10.1)^[n.toNat] one

/-- `compare_u256`. -/
def compare (a b : Limbs256) : Ordering := compareWords a.words b.words

def fitsPrecision (v : Limbs256) (precision : Int) : Bool :=
  if precision ≤ 0 then false
  else if DECIMAL256_MAX_PRECISION < precision then true
  else compare v.abs (pow10 precision) = .lt

def addsubChecked (a b : Limbs256) (neg : Bool) (resultPrecision : Int) : Option Limbs256 :=
  let rhs := if neg then b.negate else b
  let sum := (a.addRaw rhs).1
  if addOverflows a rhs sum then none
  else if sum.fitsPrecision resultPrecision then some sum
  else none

/-- A magnitude times ten, several times. -/
def rescaleLoop : Nat → Limbs256 → Option Limbs256
  | 0, mag => some mag
  | n + 1, mag => if mag.mul10.2 || mag.mul10.1.isNegative then none else rescaleLoop n mag.mul10.1

/-- `rescale_up_256`. -/
def rescaleUp (v : Limbs256) (fromScale toScale : Int) : Option Limbs256 :=
  if toScale = fromScale then some v
  else (rescaleLoop (toScale - fromScale).toNat v.abs).map fun mag =>
    if v.isNegative then mag.negate else mag

end Limbs256

/-- A decimal column: in each row whether there is a value, and what lies in its slot. -/
structure DecimalColumn (α : Type) where
  precision : Int
  scale : Int
  rows : List (Bool × α)

def resultScale (op : BinOp) (aScale bScale : Int) : Int :=
  match op with
  | .Add | .Sub => max aScale bScale
  | .Mul => aScale + bScale
  | .Div => aScale + DECIMAL_DIVIDE_SCALE_INCREMENT

def resultPrecision {α : Type} (op : BinOp) (maxPrec : Int) (a b : DecimalColumn α) : Int :=
  match op with
  | .Add | .Sub => min maxPrec
      (max (a.precision - a.scale) (b.precision - b.scale) + resultScale op a.scale b.scale + 1)
  | .Mul => min maxPrec (a.precision + b.precision + 1)
  | .Div => min maxPrec (a.precision + b.scale + DECIMAL_DIVIDE_SCALE_INCREMENT)

/-- A row of 128 bits. -/
def row128 (op : BinOp) (aScale bScale precision : Int) (va vb : BitVec 128) :
    Option (BitVec 128) :=
  let scale := resultScale op aScale bScale
  match op with
  | .Add | .Sub =>
    (rescaleUpI128 va aScale scale).bind fun ra =>
      (rescaleUpI128 vb bScale scale).bind fun rb =>
        let rhs := if op = .Add then rb else -rb
        let sum := ra + rhs
        let overflow := ((ra ^^^ sum) &&& (rhs ^^^ sum)).slt 0
        if !overflow && i128FitsPrecision sum precision then some sum else none
  | .Mul => mulCheckedI128 va vb precision
  | .Div => muldivCheckedI128 va (bScale + DECIMAL_DIVIDE_SCALE_INCREMENT) vb precision

/-- A row of 256 bits. Only sums and differences get here. -/
def row256 (op : BinOp) (aScale bScale precision : Int) (va vb : Limbs256) : Option Limbs256 :=
  let scale := resultScale op aScale bScale
  (va.rescaleUp aScale scale).bind fun ra =>
    (vb.rescaleUp bScale scale).bind fun rb =>
      ra.addsubChecked rb (op = .Sub) precision

/-- The two types of decimals. -/
inductive Width
  | i128
  | i256
  deriving DecidableEq, Repr

namespace Width

def Slot : Width → Type
  | .i128 => BitVec 128
  | .i256 => Limbs256

def maxPrec : Width → Int
  | .i128 => DECIMAL128_MAX_PRECISION
  | .i256 => DECIMAL256_MAX_PRECISION

def row : (w : Width) → BinOp → Int → Int → Int → w.Slot → w.Slot → Option w.Slot
  | .i128 => row128
  | .i256 => row256

end Width

/-- `decimal_binop_exact`. -/
def decimalBinopExact (w : Width) (a b : DecimalColumn w.Slot) (op : BinOp) :
    Option (DecimalColumn w.Slot) :=
  let scale := resultScale op a.scale b.scale
  let precision := resultPrecision op w.maxPrec a b
  if w.maxPrec < scale ∨ precision ≤ 0 then none
  else
    ((a.rows.zip b.rows).mapM fun p =>
      (w.row op a.scale b.scale precision p.1.2 p.2.2).map fun r => (p.1.1 && p.2.1, r)).map
        fun rows => { precision, scale, rows }

end DFTracer.Kernels
