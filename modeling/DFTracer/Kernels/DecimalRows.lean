/-
# Rows of decimals as integers

The words of a row stand for signed integers. Rescaling, products, quotients and sums are checked
against the size of the container and the digits of the result, so what a row gives is the result
of the integers, or nothing where one of the checks fails.
-/

import DFTracer.Kernels.DecimalArith

namespace DFTracer.Kernels

open Math.Limbs

/-- A value that is multiplied by a power of ten stays below a bound. One that is not multiplied
is not checked. -/
def Scales (bound digits : Nat) (v : Int) : Prop := digits = 0 ∨ v.natAbs * 10 ^ digits < bound

instance (bound digits : Nat) (v : Int) : Decidable (Scales bound digits v) :=
  inferInstanceAs (Decidable (_ ∨ _))

/-- An integer of so many digits at most. -/
def FitsDigits (precision : Int) (v : Int) : Prop := 0 < precision ∧ v.natAbs < 10 ^ precision.toNat

instance (precision v : Int) : Decidable (FitsDigits precision v) :=
  inferInstanceAs (Decidable (_ ∧ _))

section Words

variable {v : BitVec 128}

theorem toNat_neg_or_self (v : BitVec 128) :
    (if v.slt 0 then -v else v).toNat = v.toInt.natAbs := by
  have large : v.msb = true → 2 ^ 127 ≤ v.toNat := fun h => by
    have := BitVec.msb_eq_decide v
    rw [h] at this
    exact of_decide_eq_true this.symm
  rw [show v.slt 0 = v.msb from BitVec.slt_zero_eq_msb, BitVec.toInt_eq_msb_cond]
  split_ifs with negative
  · rw [BitVec.toNat_neg]
    have := large negative
    omega
  · omega

theorem toNat_magnitude (v : BitVec 128) : (magnitude v).toNat = v.toInt.natAbs := by
  have neg : -(v + 1) + 1 = -v := by
    ring
  rw [← toNat_neg_or_self, magnitude, neg]

theorem toInt_signed {mag : BitVec 128} (neg : Bool) (small : mag.toNat < 2 ^ 127) :
    (if neg then -mag else mag).toInt = if neg then -(mag.toNat : Int) else mag.toNat := by
  have plain : mag.toInt = mag.toNat := by
    rw [BitVec.toInt_eq_toNat_cond, if_pos (by omega)]
  cases neg with
  | false => exact plain
  | true =>
    change (-mag).toInt = -(mag.toNat : Int)
    rw [BitVec.toInt_neg, plain]
    exact Int.bmod_eq_of_le (by omega) (by omega)

/-- A magnitude with the sign of a number. -/
theorem signed_natAbs (v : BitVec 128) (k : Nat) :
    (if v.slt 0 then -((v.toInt.natAbs * k : Nat) : Int) else (v.toInt.natAbs * k : Nat)) =
      v.toInt * (k : Int) := by
  have sign : v.slt 0 = decide (v.toInt < 0) := rfl
  rw [sign]
  push_cast
  by_cases negative : v.toInt < 0
  · rw [decide_eq_true negative, if_pos rfl, abs_of_neg negative, neg_mul, neg_neg]
  · rw [decide_eq_false negative, if_neg (by decide), abs_of_nonneg (not_lt.mp negative)]

theorem toNat_pow10 (n : Int) : (pow10U128 n).toNat = 10 ^ n.toNat % 2 ^ 128 := by
  unfold pow10U128
  induction n.toNat with
  | zero => rfl
  | succ n ih =>
    rw [Function.iterate_succ_apply', BitVec.toNat_mul, ih]
    exact Nat.mod_mul_mod _ _ _

theorem toNat_pow10_of_le {n : Int} (le : n ≤ 38) : (pow10U128 n).toNat = 10 ^ n.toNat := by
  have bound : 10 ^ n.toNat ≤ 10 ^ 38 := Nat.pow_le_pow_right (by omega) (by omega)
  rw [toNat_pow10, Nat.mod_eq_of_lt (by omega)]

theorem fits_iff {precision : Int} (le : precision ≤ 38) :
    i128FitsPrecision v precision = true ↔ FitsDigits precision v.toInt := by
  unfold i128FitsPrecision FitsDigits DECIMAL128_MAX_PRECISION
  split_ifs with none all
  · exact ⟨nofun, fun h => absurd h.1 (by omega)⟩
  · omega
  · rw [decide_eq_true_iff, BitVec.lt_def, toNat_magnitude, toNat_pow10_of_le le]
    exact ⟨fun h => ⟨by omega, h⟩, And.right⟩

end Words

theorem rescale_toInt {v : BitVec 128} {fromScale toScale : Int} (le : fromScale ≤ toScale)
    (gap : toScale - fromScale ≤ 38 ∨ 128 ≤ toScale - fromScale) :
    (rescaleUpI128 v fromScale toScale).map BitVec.toInt =
      if Scales (2 ^ 127) (toScale - fromScale).toNat v.toInt
      then some (v.toInt * 10 ^ (toScale - fromScale).toNat) else none := by
  generalize digits : (toScale - fromScale).toNat = d
  unfold rescaleUpI128
  by_cases same : toScale = fromScale
  · obtain rfl : d = 0 := by omega
    rw [if_pos same, pow_zero, mul_one]
    rfl
  by_cases zero : v = 0
  · subst zero
    have scales : Scales (2 ^ 127) d (0 : BitVec 128).toInt := by
      right
      change 0 * 10 ^ d < 2 ^ 127
      omega
    rw [if_neg same, if_pos scales]
    change some (0 : Int) = some (0 * 10 ^ d)
    rw [zero_mul]
  have some_digits : d ≠ 0 := by omega
  have nonzero : v.toInt.natAbs ≠ 0 := fun none =>
    zero (BitVec.eq_of_toInt_eq (Int.natAbs_eq_zero.mp none))
  have mag : (if v.slt 0 then ~~~ v + 1 else v).toNat = v.toInt.natAbs := by
    rw [← toNat_neg_or_self, BitVec.neg_eq_not_add]
    rfl
  have factor := toNat_pow10 (toScale - fromScale)
  rw [digits] at factor
  rw [if_neg same, if_neg zero]
  rcases gap with few | many
  · have bound : 10 ^ d ≤ 10 ^ 38 := Nat.pow_le_pow_right (by omega) (by omega)
    have pos : 0 < 10 ^ d := Nat.pow_pos (by omega)
    rw [Nat.mod_eq_of_lt (by omega)] at factor
    have some_factor : pow10U128 (toScale - fromScale) ≠ 0 := fun none => by
      rw [none] at factor
      exact pos.ne factor
    rw [if_neg some_factor]
    have fits : I128_MAX / pow10U128 (toScale - fromScale) < (if v.slt 0 then ~~~ v + 1 else v) ↔
        ¬ v.toInt.natAbs * 10 ^ d < 2 ^ 127 := by
      have max : I128_MAX.toNat = 2 ^ 127 - 1 := by decide
      rw [BitVec.lt_def, mag, BitVec.toNat_udiv, factor, ← not_le, Nat.le_div_iff_mul_le pos]
      omega
    have scales : Scales (2 ^ 127) d v.toInt ↔ v.toInt.natAbs * 10 ^ d < 2 ^ 127 :=
      or_iff_right some_digits
    by_cases small : v.toInt.natAbs * 10 ^ d < 2 ^ 127
    · rw [if_neg (fits.not_left.mpr small), if_pos (scales.mpr small)]
      have product : ((if v.slt 0 then ~~~ v + 1 else v) * pow10U128 (toScale - fromScale)).toNat =
          v.toInt.natAbs * 10 ^ d := by
        rw [BitVec.toNat_mul, mag, factor, Nat.mod_eq_of_lt (by omega)]
      have signed := toInt_signed (v.slt 0) (product.trans_lt small)
      rw [product] at signed
      refine congrArg some (signed.trans ?_)
      rw [signed_natAbs]
      rfl
    · rw [if_pos (fits.mpr small), if_neg (mt scales.mp small)]
      rfl
  · have power : 2 ^ 128 ∣ 10 ^ d :=
      (pow_dvd_pow 2 (by omega : 128 ≤ d)).trans (pow_dvd_pow_of_dvd (by decide) d)
    rw [Nat.mod_eq_zero_of_dvd power] at factor
    have large : 10 ^ 128 ≤ 10 ^ d := Nat.pow_le_pow_right (by omega) (by omega)
    have beyond : ¬ Scales (2 ^ 127) d v.toInt := by
      rintro (none | small)
      · exact some_digits none
      · have : 10 ^ d ≤ v.toInt.natAbs * 10 ^ d := Nat.le_mul_of_pos_left _ (by omega)
        omega
    rw [if_pos (BitVec.eq_of_toNat_eq factor), if_neg beyond]
    rfl

/-! ## Products and quotients -/

theorem toNat_low (v : BitVec 128) : ((v.setWidth 64).setWidth 128).toNat = v.toNat % 2 ^ 64 := by
  rw [BitVec.toNat_setWidth, BitVec.toNat_setWidth]
  omega

theorem toNat_high (v : BitVec 128) : (v >>> 64).toNat = v.toNat / 2 ^ 64 := by
  rw [BitVec.toNat_ushiftRight, Nat.shiftRight_eq_div_pow]

theorem toNat_join (x y : BitVec 128) :
    ((x.setWidth 64).setWidth 128 <<< 64 ||| (y.setWidth 64).setWidth 128).toNat =
      x.toNat % 2 ^ 64 * 2 ^ 64 + y.toNat % 2 ^ 64 := by
  have low : y.toNat % 2 ^ 64 < 2 ^ 64 := Nat.mod_lt _ (by decide)
  have shifted : x.toNat % 2 ^ 64 * 2 ^ 64 < 2 ^ 128 := by omega
  rw [BitVec.toNat_or, BitVec.toNat_shiftLeft, toNat_low, toNat_low, Nat.shiftLeft_eq,
    Nat.mod_eq_of_lt shifted, ← Nat.shiftLeft_eq, ← Nat.shiftLeft_add_eq_or_of_lt low]

/-- The four products of the halves, put together. -/
theorem halves_product (al ah bl bh : Nat) (h : al < 2 ^ 64) (h' : ah < 2 ^ 64) (k : bl < 2 ^ 64)
    (k' : bh < 2 ^ 64) :
    ∃ mid, mid = al * bl / 2 ^ 64 + al * bh % 2 ^ 64 + ah * bl % 2 ^ 64 ∧ mid < 2 ^ 66 ∧
      ah * bh + al * bh / 2 ^ 64 + ah * bl / 2 ^ 64 + mid / 2 ^ 64 < 2 ^ 128 ∧
      (ah * bh + al * bh / 2 ^ 64 + ah * bl / 2 ^ 64 + mid / 2 ^ 64) * 2 ^ 128 +
        (mid % 2 ^ 64 * 2 ^ 64 + al * bl % 2 ^ 64) = (al + 2 ^ 64 * ah) * (bl + 2 ^ 64 * bh) := by
  have bound {x y : Nat} (hx : x < 2 ^ 64) (hy : y < 2 ^ 64) :
      x * y ≤ (2 ^ 64 - 1) * (2 ^ 64 - 1) :=
    Nat.mul_le_mul (by omega) (by omega)
  have t0 := bound h k
  have t1 := bound h k'
  have t2 := bound h' k
  have t3 := bound h' k'
  have expand : (al + 2 ^ 64 * ah) * (bl + 2 ^ 64 * bh) =
      al * bl + 2 ^ 64 * (al * bh) + 2 ^ 64 * (ah * bl) + 2 ^ 128 * (ah * bh) := by ring
  generalize al * bl = u0 at *
  generalize al * bh = u1 at *
  generalize ah * bl = u2 at *
  generalize ah * bh = u3 at *
  refine ⟨_, rfl, ?_, ?_, ?_⟩ <;> omega

/-- The halves of a product. -/
theorem umul_toNat (a b : BitVec 128) :
    (umul128 a b).hi.toNat * 2 ^ 128 + (umul128 a b).lo.toNat = a.toNat * b.toNat := by
  obtain ⟨mid, mid_eq, mid_lt, hi_lt, product⟩ := halves_product (a.toNat % 2 ^ 64)
    (a.toNat / 2 ^ 64) (b.toNat % 2 ^ 64) (b.toNat / 2 ^ 64) (Nat.mod_lt _ (by decide))
    (by omega) (Nat.mod_lt _ (by decide)) (by omega)
  rw [Nat.mod_add_div, Nat.mod_add_div] at product
  have times {x y : BitVec 128} {m n : Nat} (hx : x.toNat = m) (hy : y.toNat = n)
      (m_lt : m < 2 ^ 64) (n_lt : n < 2 ^ 64) : (x * y).toNat = m * n := by
    have : m * n ≤ (2 ^ 64 - 1) * (2 ^ 64 - 1) := Nat.mul_le_mul (by omega) (by omega)
    rw [BitVec.toNat_mul, hx, hy, Nat.mod_eq_of_lt (by omega)]
  have aLow : a.toNat % 2 ^ 64 < 2 ^ 64 := Nat.mod_lt _ (by decide)
  have bLow : b.toNat % 2 ^ 64 < 2 ^ 64 := Nat.mod_lt _ (by decide)
  have aHigh : a.toNat / 2 ^ 64 < 2 ^ 64 := by omega
  have bHigh : b.toNat / 2 ^ 64 < 2 ^ 64 := by omega
  have t0 := times (toNat_low a) (toNat_low b) aLow bLow
  have t1 := times (toNat_low a) (toNat_high b) aLow bHigh
  have t2 := times (toNat_high a) (toNat_low b) aHigh bLow
  have t3 := times (toNat_high a) (toNat_high b) aHigh bHigh
  unfold umul128
  dsimp only
  generalize (a.setWidth 64).setWidth 128 * (b.setWidth 64).setWidth 128 = p0 at t0 ⊢
  generalize (a.setWidth 64).setWidth 128 * (b >>> 64) = p1 at t1 ⊢
  generalize (a >>> 64) * (b.setWidth 64).setWidth 128 = p2 at t2 ⊢
  generalize (a >>> 64) * (b >>> 64) = p3 at t3 ⊢
  rw [← t0, ← t1, ← t2] at mid_eq
  rw [← t0, ← t1, ← t2, ← t3] at product
  have middle : (p0 >>> 64 + (p1.setWidth 64).setWidth 128 + (p2.setWidth 64).setWidth 128).toNat =
      mid := by
    rw [BitVec.toNat_add, BitVec.toNat_add, toNat_high, toNat_low, toNat_low,
      Nat.mod_add_mod, ← mid_eq, Nat.mod_eq_of_lt (by omega)]
  have high : (p3 + p1 >>> 64 + p2 >>> 64 +
      (p0 >>> 64 + (p1.setWidth 64).setWidth 128 + (p2.setWidth 64).setWidth 128) >>> 64).toNat =
      p3.toNat + p1.toNat / 2 ^ 64 + p2.toNat / 2 ^ 64 + mid / 2 ^ 64 := by
    rw [BitVec.toNat_add, BitVec.toNat_add, BitVec.toNat_add, toNat_high, toNat_high, toNat_high]
    omega
  rw [high, toNat_join, middle]
  exact product

theorem top_bit (v : BitVec 128) : v >>> 127 = 0 ↔ v.toNat < 2 ^ 127 := by
  rw [← BitVec.toNat_inj, BitVec.toNat_ushiftRight, Nat.shiftRight_eq_div_pow]
  change v.toNat / 2 ^ 127 = 0 ↔ _
  omega

variable {precision : Int} {v : Int} {op : BinOp} {aScale bScale : Int} {va vb : BitVec 128}

theorem FitsDigits.lt (fits : FitsDigits precision v) (le : precision ≤ 38) :
    v.natAbs < 2 ^ 127 := by
  have bound : 10 ^ precision.toNat ≤ 10 ^ 38 := Nat.pow_le_pow_right (by omega) (by omega)
  have := fits.2
  omega

theorem fitsDigits_neg (precision v : Int) :
    FitsDigits precision (-v) ↔ FitsDigits precision v := by
  unfold FitsDigits
  rw [Int.natAbs_neg]

theorem signed_toInt (neg : Bool) (mag : BitVec 128) (le : precision ≤ 38) :
    (signedI128 neg mag precision).map BitVec.toInt =
      if FitsDigits precision mag.toNat then some (if neg then -(mag.toNat : Int) else mag.toNat)
      else none := by
  unfold signedI128
  by_cases top : mag >>> 127 = 0
  · have value := toInt_signed neg ((top_bit mag).mp top)
    have fits : i128FitsPrecision (if neg then -mag else mag) precision = true ↔
        FitsDigits precision mag.toNat := by
      rw [fits_iff le, value]
      cases neg with
      | false => rfl
      | true => exact fitsDigits_neg _ _
    rw [if_neg (not_not.mpr top)]
    by_cases digits : FitsDigits precision mag.toNat
    · rw [if_pos (fits.mpr digits), if_pos digits, Option.map_some, value]
    · rw [if_neg (mt fits.mp digits), if_neg digits]
      rfl
  · have large : ¬ FitsDigits precision mag.toNat := fun fits =>
      top ((top_bit mag).mpr (fits.lt le))
    rw [if_pos top, if_neg large]
    rfl

theorem signed_toInt_of {z : Int} {mag : BitVec 128} {a b : BitVec 128} (eq : mag.toNat = z.natAbs)
    (sign : z ≠ 0 → (z < 0 ↔ ¬ (a.toInt < 0 ↔ b.toInt < 0)))
    (le : precision ≤ 38) :
    (signedI128 (a.slt 0 != b.slt 0) mag precision).map BitVec.toInt =
      if FitsDigits precision z then some z else none := by
  have fits : FitsDigits precision (mag.toNat : Int) ↔ FitsDigits precision z := by
    unfold FitsDigits
    rw [Int.natAbs_natCast, eq]
  have slt (v : BitVec 128) : v.slt 0 = decide (v.toInt < 0) := rfl
  have differ : (a.slt 0 != b.slt 0) = decide (¬ (a.toInt < 0 ↔ b.toInt < 0)) := by
    rw [slt, slt]
    by_cases ha : a.toInt < 0 <;> by_cases hb : b.toInt < 0 <;> simp [ha, hb]
  have value : (if (a.slt 0 != b.slt 0) then -(mag.toNat : Int) else mag.toNat) = z := by
    rw [differ, eq]
    by_cases zero : z = 0
    · rw [zero]
      split <;> rfl
    · rw [decide_eq_decide.mpr (sign zero).symm]
      by_cases negative : z < 0
      · rw [decide_eq_true negative, if_pos rfl]
        omega
      · rw [decide_eq_false negative, if_neg (by decide)]
        omega
  rw [signed_toInt _ _ le, value]
  by_cases digits : FitsDigits precision z
  · rw [if_pos (fits.mpr digits), if_pos digits]
  · rw [if_neg (mt fits.mp digits), if_neg digits]

theorem mul_toInt (a b : BitVec 128) (le : precision ≤ 38) :
    (mulCheckedI128 a b precision).map BitVec.toInt =
      if FitsDigits precision (a.toInt * b.toInt) then some (a.toInt * b.toInt) else none := by
  have product := umul_toNat (magnitude a) (magnitude b)
  rw [toNat_magnitude, toNat_magnitude, ← Int.natAbs_mul] at product
  unfold mulCheckedI128
  by_cases high : (umul128 (magnitude a) (magnitude b)).hi = 0
  · have zero : (umul128 (magnitude a) (magnitude b)).hi.toNat = 0 := by rw [high]; rfl
    have low : (umul128 (magnitude a) (magnitude b)).lo.toNat = (a.toInt * b.toInt).natAbs := by
      omega
    rw [if_neg (not_not.mpr high)]
    refine signed_toInt_of low (fun nonzero => ?_) le
    rw [mul_neg_iff]
    have left : a.toInt ≠ 0 := left_ne_zero_of_mul nonzero
    have right : b.toInt ≠ 0 := right_ne_zero_of_mul nonzero
    omega
  · have some_high : (umul128 (magnitude a) (magnitude b)).hi.toNat ≠ 0 := fun zero =>
      high (BitVec.eq_of_toNat_eq zero)
    have large : ¬ FitsDigits precision (a.toInt * b.toInt) := fun fits => by
      have := fits.lt le
      omega
    rw [if_pos high, if_neg large]
    rfl

/-- The sign of a quotient that is not zero. -/
theorem tdiv_neg_iff {x y : Int} (nonzero : x.tdiv y ≠ 0) :
    x.tdiv y < 0 ↔ ¬ (x < 0 ↔ y < 0) := by
  have left : x ≠ 0 := fun zero => nonzero (zero ▸ Int.zero_tdiv y)
  have right : y ≠ 0 := fun zero => nonzero (zero ▸ Int.tdiv_zero x)
  rcases le_total 0 x with hx | hx <;> rcases le_total 0 y with hy | hy
  · have := Int.tdiv_nonneg hx hy
    omega
  · have := Int.tdiv_nonpos_of_nonneg_of_nonpos hx hy
    omega
  · have := Int.tdiv_nonneg (Int.neg_nonneg_of_nonpos hx) hy
    rw [Int.neg_tdiv] at this
    omega
  · have := Int.tdiv_nonneg_of_nonpos_of_nonpos hx hy
    omega

theorem muldiv_toInt (a b : BitVec 128) (shift : Int) (le : precision ≤ 38) :
    (muldivCheckedI128 a shift b precision).map BitVec.toInt =
      if b.toInt ≠ 0 ∧ 0 ≤ shift ∧ shift ≤ 38 ∧ a.toInt.natAbs * 10 ^ shift.toNat < 2 ^ 127 ∧
        FitsDigits precision ((a.toInt * 10 ^ shift.toNat).tdiv b.toInt)
      then some ((a.toInt * 10 ^ shift.toNat).tdiv b.toInt) else none := by
  unfold muldivCheckedI128 DECIMAL128_MAX_PRECISION
  by_cases refused : b = 0 ∨ shift < 0 ∨ 38 < shift
  · rw [if_pos refused, if_neg]
    · rfl
    · rintro ⟨nonzero, low, high, -⟩
      rcases refused with rfl | negative | large
      · exact nonzero rfl
      · omega
      · omega
  · rw [if_neg refused]
    push Not at refused
    obtain ⟨nonzero, low, high⟩ := refused
    have divisor : b.toInt ≠ 0 := fun zero => nonzero (BitVec.eq_of_toInt_eq zero)
    have product := umul_toNat (magnitude a) (pow10U128 shift)
    rw [toNat_magnitude, toNat_pow10_of_le high] at product
    have dividend : (a.toInt * 10 ^ shift.toNat).natAbs = a.toInt.natAbs * 10 ^ shift.toNat := by
      rw [Int.natAbs_mul]
      rfl
    have power : (0 : Int) < 10 ^ shift.toNat := pow_pos (by decide) _
    by_cases small : a.toInt.natAbs * 10 ^ shift.toNat < 2 ^ 127
    · have high_zero : (umul128 (magnitude a) (pow10U128 shift)).hi.toNat = 0 := by omega
      have low_eq : (umul128 (magnitude a) (pow10U128 shift)).lo.toNat =
          a.toInt.natAbs * 10 ^ shift.toNat := by omega
      have within : ¬ ((umul128 (magnitude a) (pow10U128 shift)).hi ≠ 0 ∨
          (umul128 (magnitude a) (pow10U128 shift)).lo >>> 127 ≠ 0) := by
        rw [not_or, not_not, not_not, top_bit, low_eq]
        exact ⟨BitVec.eq_of_toNat_eq high_zero, small⟩
      rw [if_neg within]
      refine (signed_toInt_of (z := (a.toInt * 10 ^ shift.toNat).tdiv b.toInt) ?_
        (fun nonzero => ?_) le).trans ?_
      · rw [BitVec.toNat_udiv, low_eq, toNat_magnitude, Int.natAbs_tdiv, dividend]
        rfl
      · have positive := mul_nonneg_iff_of_pos_right (b := a.toInt) power
        rw [tdiv_neg_iff nonzero, lt_iff_lt_of_le_iff_le positive]
      · simp only [divisor, ne_eq, not_false_eq_true, low, high, small, true_and]
    · have beyond : (umul128 (magnitude a) (pow10U128 shift)).hi ≠ 0 ∨
          (umul128 (magnitude a) (pow10U128 shift)).lo >>> 127 ≠ 0 := by
        by_contra within
        rw [not_or, not_not, not_not, top_bit] at within
        have high_zero : (umul128 (magnitude a) (pow10U128 shift)).hi.toNat = 0 := by
          rw [within.1]
          rfl
        omega
      rw [if_pos beyond, if_neg fun all => small all.2.2.2.1]
      rfl

theorem sum_overflow (x y : BitVec 128) :
    ((x ^^^ (x + y)) &&& (y ^^^ (x + y))).slt 0 = x.saddOverflow y := by
  have sign (v : BitVec 128) : v.slt 0 = v.msb := BitVec.slt_zero_eq_msb
  rw [sign, BitVec.saddOverflow_eq, BitVec.msb_and, BitVec.msb_xor, BitVec.msb_xor]
  cases x.msb <;> cases y.msb <;> cases (x + y).msb <;> rfl

/-- The sum of two values that are brought to one scale. A difference has the other sign. -/
def signedSum (op : BinOp) (x y : Int) : Int := if op = .Add then x + y else x - y

theorem sum_toInt (op : BinOp) (ra rb : BitVec 128) (least : op ≠ .Add → rb.toInt ≠ -2 ^ 127)
    (le : precision ≤ 38) :
    (let rhs := if op = .Add then rb else -rb
      let sum := ra + rhs
      let overflow := ((ra ^^^ sum) &&& (rhs ^^^ sum)).slt 0
      if !overflow && i128FitsPrecision sum precision then some sum else none).map BitVec.toInt =
      if FitsDigits precision (signedSum op ra.toInt rb.toInt)
      then some (signedSum op ra.toInt rb.toInt) else none := by
  dsimp only
  have right : (if op = .Add then rb else -rb).toInt =
      if op = .Add then rb.toInt else -rb.toInt := by
    split_ifs with add
    · rfl
    · exact BitVec.toInt_neg_of_ne_intMin fun lowest => least add (by rw [lowest]; decide)
  have whole : ra.toInt + (if op = .Add then rb else -rb).toInt =
      signedSum op ra.toInt rb.toInt := by
    rw [right]
    unfold signedSum
    split_ifs
    · rfl
    · rfl
  generalize (if op = .Add then rb else -rb) = rhs at whole ⊢
  rw [sum_overflow, ← whole]
  cases overflow : ra.saddOverflow rhs with
  | true =>
    have large : ¬ FitsDigits precision (ra.toInt + rhs.toInt) := fun fits => by
      have small := fits.lt le
      rw [BitVec.saddOverflow, Bool.or_eq_true, decide_eq_true_iff, decide_eq_true_iff]
        at overflow
      omega
    rw [if_neg large]
    rfl
  | false =>
    have exact : (ra + rhs).toInt = ra.toInt + rhs.toInt :=
      BitVec.toInt_add_of_not_saddOverflow (by rw [overflow]; decide)
    change (if i128FitsPrecision (ra + rhs) precision then some (ra + rhs) else none).map _ = _
    by_cases digits : FitsDigits precision (ra.toInt + rhs.toInt)
    · rw [if_pos ((fits_iff le).mpr (exact ▸ digits)), if_pos digits, Option.map_some, exact]
    · rw [if_neg (mt (fits_iff le).mp (exact ▸ digits)), if_neg digits]
      rfl

/-- What a row of integers of so many bits comes to: nothing, unless the values at the scale of the
result stay below the bound and the result has the digits. -/
def rowResult (bound : Nat) (op : BinOp) (aScale bScale precision : Int) (va vb : Int) :
    Option Int :=
  match op with
  | .Add | .Sub =>
    let scale := max aScale bScale
    let ra := va * 10 ^ (scale - aScale).toNat
    let rb := vb * 10 ^ (scale - bScale).toNat
    if Scales bound (scale - aScale).toNat va ∧ Scales bound (scale - bScale).toNat vb ∧
      FitsDigits precision (signedSum op ra rb) then some (signedSum op ra rb) else none
  | .Mul => if FitsDigits precision (va * vb) then some (va * vb) else none
  | .Div =>
    let shift := bScale + DECIMAL_DIVIDE_SCALE_INCREMENT
    let quotient := (va * 10 ^ shift.toNat).tdiv vb
    if vb ≠ 0 ∧ 0 ≤ shift ∧ shift ≤ 38 ∧ va.natAbs * 10 ^ shift.toNat < bound ∧
      FitsDigits precision quotient then some quotient else none

/-- Scales that are not so far apart, or so far that no value can be brought from one to the
other. -/
def ScalesMeet (aScale bScale : Int) : Prop :=
  (max aScale bScale - aScale ≤ 38 ∨ 128 ≤ max aScale bScale - aScale) ∧
    (max aScale bScale - bScale ≤ 38 ∨ 128 ≤ max aScale bScale - bScale)

/-- Scaled values are not the lowest one, unless they were before. -/
theorem scaled_ne {bound digits : Nat} (least : v ≠ -bound)
    (scales : Scales bound digits v) : v * 10 ^ digits ≠ -bound := by
  rcases scales with rfl | small
  · rwa [pow_zero, mul_one]
  · intro lowest
    have size := congrArg Int.natAbs lowest
    rw [Int.natAbs_mul, Int.natAbs_neg] at size
    change v.natAbs * 10 ^ digits = bound at size
    omega

/-- Two operands that are brought to a scale, and what they come to. -/
theorem two_toInt {α : Type} {toInt : α → Int} {x y : Option α} {f : α → α → Option α}
    {p q r : Prop} [Decidable p] [Decidable q] [Decidable r] {u w : Int}
    (left : x.map toInt = if p then some u else none)
    (right : y.map toInt = if q then some v else none)
    (result : ∀ a b, q → toInt a = u → toInt b = v →
      (f a b).map toInt = if r then some w else none) :
    (x.bind fun a => y.bind fun b => f a b).map toInt = if p ∧ q ∧ r then some w else none := by
  by_cases hp : p
  · rw [if_pos hp] at left
    obtain ⟨a, rfl, a_value⟩ := Option.map_eq_some_iff.mp left
    by_cases hq : q
    · rw [if_pos hq] at right
      obtain ⟨b, rfl, b_value⟩ := Option.map_eq_some_iff.mp right
      refine (result a b hq a_value b_value).trans ?_
      simp only [hp, hq, true_and]
    · rw [if_neg hq, Option.map_eq_none_iff] at right
      rw [right, if_neg fun all => hq all.2.1]
      rfl
  · rw [if_neg hp, Option.map_eq_none_iff] at left
    rw [left, if_neg fun all => hp all.1]
    rfl

theorem sumRow_toInt (meet : ScalesMeet aScale bScale) (least : op ≠ .Add → vb.toInt ≠ -2 ^ 127)
    (le : precision ≤ 38) :
    ((rescaleUpI128 va aScale (max aScale bScale)).bind fun ra =>
      (rescaleUpI128 vb bScale (max aScale bScale)).bind fun rb =>
        let rhs := if op = .Add then rb else -rb
        let sum := ra + rhs
        let overflow := ((ra ^^^ sum) &&& (rhs ^^^ sum)).slt 0
        if !overflow && i128FitsPrecision sum precision then some sum else none).map BitVec.toInt =
      let ra := va.toInt * 10 ^ (max aScale bScale - aScale).toNat
      let rb := vb.toInt * 10 ^ (max aScale bScale - bScale).toNat
      if Scales (2 ^ 127) (max aScale bScale - aScale).toNat va.toInt ∧
        Scales (2 ^ 127) (max aScale bScale - bScale).toNat vb.toInt ∧
        FitsDigits precision (signedSum op ra rb) then some (signedSum op ra rb) else none := by
  refine two_toInt (rescale_toInt (le_max_left aScale bScale) meet.1)
    (rescale_toInt (le_max_right aScale bScale) meet.2) fun ra rb fits ra_value rb_value => ?_
  have sum := sum_toInt op ra rb (fun sub => rb_value ▸ scaled_ne (least sub) fits) le
  rwa [ra_value, rb_value] at sum

theorem row128_toInt (meet : op = .Add ∨ op = .Sub → ScalesMeet aScale bScale)
    (least : op = .Sub → vb.toInt ≠ -2 ^ 127) (le : precision ≤ 38) :
    (row128 op aScale bScale precision va vb).map BitVec.toInt =
      rowResult (2 ^ 127) op aScale bScale precision va.toInt vb.toInt := by
  cases op with
  | Add => exact sumRow_toInt (meet (.inl rfl)) (fun sub => absurd rfl sub) le
  | Sub => exact sumRow_toInt (meet (.inr rfl)) (fun _ => least rfl) le
  | Mul => exact mul_toInt va vb le
  | Div => exact muldiv_toInt va vb _ le

/-! ## Words of 256 bits -/

namespace Limbs256

/-- The unsigned value of four words. -/
def toNat (v : Limbs256) : Nat := value v.words

/-- The signed value of four words. -/
def toInt (v : Limbs256) : Int := if v.toNat < 2 ^ 255 then v.toNat else v.toNat - 2 ^ 256

theorem toNat_lt (v : Limbs256) : v.toNat < 2 ^ 256 := by
  have := value_lt v.words
  rwa [v.four] at this

theorem isNegative_iff (v : Limbs256) : v.isNegative = true ↔ 2 ^ 255 ≤ v.toNat := by
  obtain ⟨words, four⟩ := v
  obtain ⟨w0, w1, w2, w3, rfl⟩ := List.length_eq_four.mp four
  have top : w3.toInt64 < 0 ↔ 2 ^ 63 ≤ w3.toNat := by
    rw [Int64.lt_iff_toInt_lt]
    change w3.toBitVec.toInt < 0 ↔ _
    rw [BitVec.toInt_neg_iff]
    change 2 ^ 64 ≤ 2 * w3.toNat ↔ _
    omega
  have l0 := w0.toNat_lt
  have l1 := w1.toNat_lt
  have l2 := w2.toNat_lt
  change decide (w3.toInt64 < 0) = true ↔ 2 ^ 255 ≤ w0.toNat + 2 ^ 64 * (w1.toNat + 2 ^ 64 *
    (w2.toNat + 2 ^ 64 * (w3.toNat + 2 ^ 64 * 0)))
  rw [decide_eq_true_iff, top]
  omega

theorem isNegative_eq (v : Limbs256) : v.isNegative = decide (v.toInt < 0) := by
  have sign := v.isNegative_iff
  have small := v.toNat_lt
  unfold toInt
  rw [Bool.eq_iff_iff, sign, decide_eq_true_iff]
  split_ifs <;> omega

theorem toNat_negate (v : Limbs256) : v.negate.toNat = (2 ^ 256 - v.toNat) % 2 ^ 256 := by
  have words := @value_complement v.words
  rwa [v.four] at words

variable {v : Limbs256} {precision : Int}

theorem toInt_negate (least : v.toInt ≠ -2 ^ 255) : v.negate.toInt = -v.toInt := by
  have small := v.toNat_lt
  have negated := v.toNat_negate
  unfold toInt at *
  split_ifs at * <;> omega

theorem toNat_abs (v : Limbs256) : v.abs.toNat = v.toInt.natAbs := by
  have small := v.toNat_lt
  have sign := v.isNegative_iff
  have negated := v.toNat_negate
  unfold abs toInt
  by_cases negative : v.isNegative
  · have large := sign.mp negative
    rw [if_pos negative]
    omega
  · have := mt sign.mpr negative
    rw [if_neg negative, if_pos (by omega)]
    rfl

theorem toNat_addRaw (a b : Limbs256) : (a.addRaw b).1.toNat = (a.toNat + b.toNat) % 2 ^ 256 := by
  have sum := value_plus (a.four.trans b.four.symm) 0
  have small := (a.addRaw b).1.toNat_lt
  rw [a.four] at sum
  change (a.addRaw b).1.toNat + 2 ^ 256 * _ = a.toNat + b.toNat + 0 at sum
  generalize (ripple _ (a.words.zip b.words) 0).2 = carry at sum
  omega

/-- A sum that does not overflow is exact. -/
theorem toInt_addRaw (a b : Limbs256) :
    (addOverflows a b (a.addRaw b).1 = true ↔
        ¬ (-2 ^ 255 ≤ a.toInt + b.toInt ∧ a.toInt + b.toInt < 2 ^ 255)) ∧
      (addOverflows a b (a.addRaw b).1 = false → (a.addRaw b).1.toInt = a.toInt + b.toInt) := by
  have a_small := a.toNat_lt
  have b_small := b.toNat_lt
  have sum := a.toNat_addRaw b
  have same : addOverflows a b (a.addRaw b).1 = true ↔ (a.toInt < 0 ↔ b.toInt < 0) ∧
      ¬ ((a.addRaw b).1.toInt < 0 ↔ a.toInt < 0) := by
    unfold addOverflows
    rw [isNegative_eq, isNegative_eq, isNegative_eq, Bool.and_eq_true, beq_iff_eq, bne_iff_ne,
      Ne, decide_eq_decide, decide_eq_decide]
  rw [← Bool.not_eq_true, same]
  unfold toInt at *
  split_ifs <;> omega

theorem mul10_spec (v : Limbs256) :
    (v.mul10.2 = true ↔ 2 ^ 256 ≤ v.toNat * 10) ∧ v.mul10.1.toNat = v.toNat * 10 % 2 ^ 256 := by
  have prod := @value_times v.words 10 0
  have small := v.mul10.1.toNat_lt
  rw [v.four] at prod
  change v.mul10.1.toNat + 2 ^ 256 * _ = v.toNat * 10 + 0 at prod
  have flag : v.mul10.2 = true ↔ (ripple (fun w => w.toNat * 10) v.words 0).2 ≠ 0 :=
    decide_eq_true_iff
  rw [flag]
  generalize (ripple (fun w => w.toNat * 10) v.words 0).2 = carry at *
  omega

theorem toNat_pow10 {n : Int} (le : n ≤ 76) : (pow10 n).toNat = 10 ^ n.toNat := by
  have power (k : Nat) (few : k ≤ 76) : ((fun v => v.mul10.1)^[k] one).toNat = 10 ^ k := by
    induction k with
    | zero => rfl
    | succ k ih =>
      have bound : 10 ^ (k + 1) ≤ 10 ^ 76 := Nat.pow_le_pow_right (by omega) few
      rw [Function.iterate_succ_apply', (mul10_spec _).2, ih (by omega), ← Nat.pow_succ,
        Nat.mod_eq_of_lt (by omega)]
  exact power n.toNat (by omega)

theorem fits_iff (le : precision ≤ 76) :
    v.fitsPrecision precision = true ↔ FitsDigits precision v.toInt := by
  unfold fitsPrecision FitsDigits DECIMAL256_MAX_PRECISION
  split_ifs with none all
  · exact ⟨nofun, fun h => absurd h.1 (by omega)⟩
  · omega
  · have order : compare v.abs (pow10 precision) =
        Ord.compare v.abs.toNat (pow10 precision).toNat :=
      compareWords_eq (v.abs.four.trans (pow10 precision).four.symm)
    rw [decide_eq_true_iff, order, compare_lt_iff_lt, toNat_abs, toNat_pow10 le]
    exact ⟨fun h => ⟨by omega, h⟩, And.right⟩

theorem addsub_toInt {a b : Limbs256} {neg : Bool} (least : neg = true → b.toInt ≠ -2 ^ 255) (le : precision ≤ 76) :
    (a.addsubChecked b neg precision).map toInt =
      let sum := if neg then a.toInt - b.toInt else a.toInt + b.toInt
      if FitsDigits precision sum then some sum else none := by
  have right : (if neg then b.negate else b).toInt = if neg then -b.toInt else b.toInt := by
    split_ifs with sub
    · exact toInt_negate (least sub)
    · rfl
  have whole : (if neg then a.toInt - b.toInt else a.toInt + b.toInt) =
      a.toInt + (if neg then b.negate else b).toInt := by
    rw [right]
    split_ifs
    · rfl
    · rfl
  unfold addsubChecked
  dsimp only
  rw [whole]
  generalize (if neg then b.negate else b) = rhs
  obtain ⟨overflow, exact⟩ := a.toInt_addRaw rhs
  cases wraps : addOverflows a rhs (a.addRaw rhs).1 with
  | true =>
    have large : ¬ FitsDigits precision (a.toInt + rhs.toInt) := fun fits => by
      have bound : 10 ^ precision.toNat ≤ 10 ^ 76 :=
        Nat.pow_le_pow_right (by omega) (by omega)
      have := fits.2
      have := overflow.mp wraps
      omega
    rw [if_neg large]
    rfl
  | false =>
    have sum := exact wraps
    rw [if_neg (by decide)]
    by_cases digits : FitsDigits precision (a.toInt + rhs.toInt)
    · rw [if_pos ((fits_iff le).mpr (sum ▸ digits)), if_pos digits, Option.map_some, sum]
    · rw [if_neg (mt (fits_iff le).mp (sum ▸ digits)), if_neg digits]
      rfl

theorem rescaleLoop_toNat (n : Nat) (mag : Limbs256) :
    (rescaleLoop n mag).map toNat =
      if n = 0 ∨ mag.toNat * 10 ^ n < 2 ^ 255 then some (mag.toNat * 10 ^ n) else none := by
  induction n generalizing mag with
  | zero =>
    rw [Nat.pow_zero, Nat.mul_one]
    rfl
  | succ n ih =>
    obtain ⟨overflow, product⟩ := mag.mul10_spec
    have stops : (mag.mul10.2 || mag.mul10.1.isNegative) = true ↔
        ¬ mag.toNat * 10 < 2 ^ 255 := by
      rw [Bool.or_eq_true, overflow, isNegative_iff, product]
      rcases Nat.lt_or_ge (mag.toNat * 10) (2 ^ 256) with fits | beyond
      · rw [Nat.mod_eq_of_lt fits]
        omega
      · exact ⟨fun _ => by omega, fun _ => .inl beyond⟩
    have power : mag.toNat * 10 ^ (n + 1) = mag.toNat * 10 * 10 ^ n := by
      ring
    rw [power, rescaleLoop]
    by_cases small : mag.toNat * 10 < 2 ^ 255
    · have last : n = 0 → mag.toNat * 10 * 10 ^ n < 2 ^ 255 := by
        rintro rfl
        rwa [Nat.pow_zero, Nat.mul_one]
      rw [if_neg (stops.not_left.mpr small), ih, product, Nat.mod_eq_of_lt (by omega)]
      simp only [or_iff_right_of_imp last, Nat.succ_ne_zero, false_or]
    · have large : mag.toNat * 10 ≤ mag.toNat * 10 * 10 ^ n :=
        Nat.le_mul_of_pos_right _ (Nat.pow_pos (by omega))
      rw [if_pos (stops.mpr small), if_neg]
      · rfl
      · rintro (none | fits)
        · exact Nat.succ_ne_zero n none
        · omega

theorem rescaleUp_toInt {fromScale toScale : Int} (le : fromScale ≤ toScale) :
    (v.rescaleUp fromScale toScale).map toInt =
      if Scales (2 ^ 255) (toScale - fromScale).toNat v.toInt
      then some (v.toInt * 10 ^ (toScale - fromScale).toNat) else none := by
  unfold rescaleUp
  by_cases same : toScale = fromScale
  · have none : (toScale - fromScale).toNat = 0 := by omega
    rw [if_pos same, none, pow_zero, mul_one]
    rfl
  have some_digits : (toScale - fromScale).toNat ≠ 0 := by omega
  generalize (toScale - fromScale).toNat = d at *
  have loop := rescaleLoop_toNat d v.abs
  have scales : Scales (2 ^ 255) d v.toInt ↔ v.toInt.natAbs * 10 ^ d < 2 ^ 255 :=
    or_iff_right some_digits
  rw [toNat_abs] at loop
  simp only [some_digits, false_or] at loop
  rw [if_neg same]
  by_cases small : v.toInt.natAbs * 10 ^ d < 2 ^ 255
  · rw [if_pos small] at loop
    obtain ⟨mag, mag_eq, mag_value⟩ := Option.map_eq_some_iff.mp loop
    have plain : mag.toInt = (v.toInt.natAbs * 10 ^ d : Nat) := by
      change (if mag.toNat < 2 ^ 255 then (mag.toNat : Int) else _) = _
      rw [mag_value, if_pos small]
    rw [mag_eq, if_pos (scales.mpr small), Option.map_some, Option.map_some, isNegative_eq]
    refine congrArg some ?_
    by_cases negative : v.toInt < 0
    · rw [decide_eq_true negative, if_pos rfl, toInt_negate (by omega), plain]
      push_cast
      rw [abs_of_neg negative, neg_mul, neg_neg]
    · rw [decide_eq_false negative, if_neg (by decide), plain]
      push_cast
      rw [abs_of_nonneg (not_lt.mp negative)]
  · rw [if_neg small, Option.map_eq_none_iff] at loop
    rw [loop, if_neg (mt scales.mp small)]
    rfl

end Limbs256

theorem row256_toInt {va vb : Limbs256}
    (sums : op = .Add ∨ op = .Sub) (least : op = .Sub → vb.toInt ≠ -2 ^ 255) (le : precision ≤ 76) :
    (row256 op aScale bScale precision va vb).map Limbs256.toInt =
      rowResult (2 ^ 255) op aScale bScale precision va.toInt vb.toInt := by
  have sum {neg : Bool} (sub : neg = true → vb.toInt ≠ -2 ^ 255) :=
    two_toInt (Limbs256.rescaleUp_toInt (v := va) (le_max_left aScale bScale))
      (Limbs256.rescaleUp_toInt (v := vb) (le_max_right aScale bScale))
      fun ra rb fits ra_value rb_value => by
        have sum := Limbs256.addsub_toInt (a := ra)
          (fun subtracts => rb_value ▸ scaled_ne (sub subtracts) fits) le
        rwa [ra_value, rb_value] at sum
  rcases sums with rfl | rfl
  · exact @sum false nofun
  · exact @sum true fun _ => least rfl

end DFTracer.Kernels
