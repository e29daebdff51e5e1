/-
# Decimal text of doubles

The C library prints a double from its exact value, rounding the last digit to the nearest and a
tie to the even one. Two formats occur: fixed point with six decimals, and the general format with
six significant digits, which drops trailing zeros. Both lose information, so different doubles
can share a text.
-/

import DFTracer.Math.Float64

open Float.Model.UnpackedFloat

namespace DFTracer.Math.Float64.Double

/-- Numerator and denominator of the magnitude of a finite double. -/
def magnitude (x : Double) : Nat × Nat :=
  match x.val.toModel.unpack with
  | .finite _ m e _ => (m * 2 ^ e.toNat, 2 ^ (-e).toNat)
  | _ => (0, 1)

/-- The sign printed before the digits. A negative zero keeps its sign. -/
def signText (x : Double) : String :=
  if x.val.toModel.toBits.toNat / 2 ^ 63 = 1 then "-" else ""

def zeros (n : Nat) : String := String.ofList (List.replicate n '0')

/-- The decimal digits of `n`, padded with zeros on the left to `width`. -/
def padded (width n : Nat) : String :=
  zeros (width - (toString n).length) ++ toString n

/-- Fixed point with six decimals: `printf` with `%f`, and `std::to_string`. -/
def toFixed6 (x : Double) : String :=
  if x.val.isInf then x.signText ++ "inf"
  else
    let (num, den) := x.magnitude
    let units := roundHalfEven (num * 10 ^ 6) den
    x.signText ++ toString (units / 10 ^ 6) ++ "." ++ padded 6 (units % 10 ^ 6)

/-- The exponent of the leading decimal digit of a positive fraction. -/
def decimalExponent (num den : Nat) : Int :=
  if den ≤ num then ((toString (num / den)).length : Int) - 1
  else -((toString ((den + num - 1) / num - 1)).length : Int)

/-- Six significant digits and the exponent of the first of them. A rounding
that carries into a seventh digit moves the exponent instead. -/
def sixDigits (num den : Nat) : Nat × Int :=
  let x := decimalExponent num den
  let digits := roundHalfEven (num * 10 ^ (5 - x).toNat) (den * 10 ^ (x - 5).toNat)
  if digits = 10 ^ 6 then (10 ^ 5, x + 1) else (digits, x)

/-- The decimals of a number with trailing zeros, and then a bare point, gone. -/
def trimDecimals (decimals : String) : String :=
  match (decimals.toList.reverse.dropWhile (· == '0')).reverse with
  | [] => ""
  | kept => "." ++ String.ofList kept

/-- General format with six significant digits: what `std::ostream` prints. -/
def toGeneral6 (x : Double) : String :=
  if x.val.isInf then x.signText ++ "inf"
  else
    let (num, den) := x.magnitude
    if num = 0 then x.signText ++ "0"
    else
      let (digits, exponent) := sixDigits num den
      let text := (toString digits).toList
      x.signText ++
        if exponent < -4 ∨ 6 ≤ exponent then
          String.ofList (text.take 1) ++ trimDecimals (String.ofList (text.drop 1)) ++
            (if exponent < 0 then "e-" else "e+") ++ padded 2 exponent.natAbs
        else if exponent < 0 then
          "0" ++ trimDecimals (zeros (exponent.natAbs - 1) ++ toString digits)
        else
          String.ofList (text.take (exponent.toNat + 1)) ++
            trimDecimals (String.ofList (text.drop (exponent.toNat + 1)))

end DFTracer.Math.Float64.Double
