/-
# Exact results of decimals

A decimal stands for a rational number. A row is exact when the mathematical result, cut off at
the scale of the result, has the declared digits. The columns are computed exactly or refused, and
what is refused besides is what leaves the container on the way to the result.
-/

import DFTracer.Kernels.DecimalRows
import DFTracer.Math.Fallible

namespace DFTracer.Kernels

open Option

open Math (mapM_isSome mapM_of_none forall₂_of_mapM)

/-- The number that an integer stands for at a scale. -/
def decimalValue (v scale : Int) : ℚ := v * 10 ^ (-scale)

def mathResult (op : BinOp) (x y : ℚ) : Option ℚ :=
  match op with
  | .Add => some (x + y)
  | .Sub => some (x - y)
  | .Mul => some (x * y)
  | .Div => if y = 0 then none else some (x / y)

/-- A number without what is behind the point. -/
def truncate (q : ℚ) : Int := if 0 ≤ q then ⌊q⌋ else ⌈q⌉

/-- The mathematical result of two decimals, as an integer at the scale of the result. -/
def exactResult (op : BinOp) (aScale bScale va vb : Int) : Option Int :=
  (mathResult op (decimalValue va aScale) (decimalValue vb bScale)).map fun q =>
    truncate (q * 10 ^ resultScale op aScale bScale)

theorem truncate_intCast (n : Int) : truncate (n : ℚ) = n := by
  unfold truncate
  split_ifs
  · exact Int.floor_intCast n
  · exact Int.ceil_intCast n

theorem ten_ne_zero : (10 : ℚ) ≠ 0 := by norm_num

variable {v scale : Int} {op : BinOp} {vb : Int}

/-- A decimal at a larger scale. -/
theorem decimalValue_mul {s : Int} (le : scale ≤ s) :
    decimalValue v scale * 10 ^ s = ((v * 10 ^ (s - scale).toNat : Int) : ℚ) := by
  have digits : ((s - scale).toNat : Int) = -scale + s := by omega
  unfold decimalValue
  push_cast
  rw [mul_assoc, ← zpow_add₀ ten_ne_zero, ← digits, zpow_natCast]

theorem exactResult_sum (sums : op = .Add ∨ op = .Sub) (aScale bScale va vb : Int) :
    exactResult op aScale bScale va vb =
      some (signedSum op (va * 10 ^ (max aScale bScale - aScale).toNat)
        (vb * 10 ^ (max aScale bScale - bScale).toNat)) := by
  have left := decimalValue_mul (v := va) (le_max_left aScale bScale)
  have right := decimalValue_mul (v := vb) (le_max_right aScale bScale)
  rcases sums with rfl | rfl
  · change some (truncate ((_ + _) * 10 ^ max aScale bScale)) = some (_ + _)
    rw [add_mul, left, right, ← Int.cast_add, truncate_intCast]
  · change some (truncate ((_ - _) * 10 ^ max aScale bScale)) = some (_ - _)
    rw [sub_mul, left, right, ← Int.cast_sub, truncate_intCast]

theorem exactResult_mul (aScale bScale va vb : Int) :
    exactResult .Mul aScale bScale va vb = some (va * vb) := by
  change some (truncate (decimalValue va aScale * decimalValue vb bScale *
    10 ^ (aScale + bScale))) = _
  have product : decimalValue va aScale * decimalValue vb bScale * 10 ^ (aScale + bScale) =
      ((va * vb : Int) : ℚ) := by
    unfold decimalValue
    rw [zpow_add₀ ten_ne_zero, zpow_neg, zpow_neg]
    push_cast
    field_simp
  rw [product, truncate_intCast]

theorem truncate_div_natCast (p : Int) (q : Nat) : truncate ((p : ℚ) / (q : ℚ)) = p.tdiv q := by
  unfold truncate
  rcases q.eq_zero_or_pos with rfl | pos
  · rw [Nat.cast_zero, div_zero, if_pos le_rfl, Int.floor_zero, Nat.cast_zero, Int.tdiv_zero]
  have q_pos : (0 : ℚ) < q := Nat.cast_pos.mpr pos
  have sign : 0 ≤ (p : ℚ) / (q : ℚ) ↔ 0 ≤ p := by
    rw [le_div_iff₀ q_pos, zero_mul, Int.cast_nonneg_iff]
  by_cases nonneg : 0 ≤ p
  · rw [if_pos (sign.mpr nonneg), Rat.floor_intCast_div_natCast, Int.tdiv_eq_ediv_of_nonneg nonneg]
  · rw [if_neg (mt sign.mp nonneg), Rat.ceil_intCast_div_natCast,
      ← Int.tdiv_eq_ediv_of_nonneg (by omega : 0 ≤ -p), Int.neg_tdiv, neg_neg]

/-- A quotient that is cut off is the quotient of the integers. -/
theorem truncate_div (p q : Int) : truncate ((p : ℚ) / q) = p.tdiv q := by
  obtain ⟨n, rfl | rfl⟩ := q.eq_nat_or_neg
  · exact truncate_div_natCast p n
  · have moved : (p : ℚ) / ((-(n : Int) : Int) : ℚ) = ((-p : Int) : ℚ) / (n : ℚ) := by
      push_cast
      rw [div_neg, neg_div]
    rw [moved, truncate_div_natCast, Int.neg_tdiv, Int.tdiv_neg]

theorem decimalValue_eq_zero : decimalValue v scale = 0 ↔ v = 0 := by
  unfold decimalValue
  rw [mul_eq_zero, or_iff_left (zpow_ne_zero _ ten_ne_zero), Int.cast_eq_zero]

theorem exactResult_div_zero (aScale bScale va : Int) :
    exactResult .Div aScale bScale va 0 = none := by
  change Option.map _ (if decimalValue 0 bScale = 0 then none else _) = none
  rw [if_pos (decimalValue_eq_zero.mpr rfl)]
  rfl

theorem exactResult_div (aScale bScale va : Int) (nonzero : vb ≠ 0)
    (shift : 0 ≤ bScale + DECIMAL_DIVIDE_SCALE_INCREMENT) :
    exactResult .Div aScale bScale va vb =
      some ((va * 10 ^ (bScale + DECIMAL_DIVIDE_SCALE_INCREMENT).toNat).tdiv vb) := by
  change Option.map _ (if decimalValue vb bScale = 0 then none else _) = _
  rw [if_neg (mt decimalValue_eq_zero.mp nonzero), ← truncate_div]
  refine congrArg some (congrArg truncate ?_)
  have digits : ((bScale + DECIMAL_DIVIDE_SCALE_INCREMENT).toNat : Int) =
      bScale + DECIMAL_DIVIDE_SCALE_INCREMENT := Int.toNat_of_nonneg shift
  change decimalValue va aScale / decimalValue vb bScale *
    10 ^ (aScale + DECIMAL_DIVIDE_SCALE_INCREMENT) = _
  unfold decimalValue
  push_cast
  rw [← zpow_natCast, digits, zpow_neg, zpow_neg, zpow_add₀ ten_ne_zero, zpow_add₀ ten_ne_zero]
  field_simp

namespace Width

def toInt : (w : Width) → w.Slot → Int
  | .i128 => BitVec.toInt
  | .i256 => Limbs256.toInt

def bound : Width → Nat
  | .i128 => 2 ^ 127
  | .i256 => 2 ^ 255

end Width

/-- What is computed on the way to a result stays in the container. -/
def Intermediate (bound : Nat) (op : BinOp) (aScale bScale va vb : Int) : Prop :=
  match op with
  | .Add | .Sub => Scales bound (max aScale bScale - aScale).toNat va ∧
      Scales bound (max aScale bScale - bScale).toNat vb
  | .Mul => True
  | .Div => 0 ≤ bScale + DECIMAL_DIVIDE_SCALE_INCREMENT ∧
      bScale + DECIMAL_DIVIDE_SCALE_INCREMENT ≤ DECIMAL128_MAX_PRECISION ∧
      va.natAbs * 10 ^ (bScale + DECIMAL_DIVIDE_SCALE_INCREMENT).toNat < bound

theorem rowResult_eq_some {bound : Nat} {aScale bScale precision va r : Int} :
    rowResult bound op aScale bScale precision va vb = some r ↔
      Intermediate bound op aScale bScale va vb ∧ exactResult op aScale bScale va vb = some r ∧
        FitsDigits precision r := by
  have sum (sums : op = .Add ∨ op = .Sub) :
      (if Scales bound (max aScale bScale - aScale).toNat va ∧
          Scales bound (max aScale bScale - bScale).toNat vb ∧
          FitsDigits precision (signedSum op (va * 10 ^ (max aScale bScale - aScale).toNat)
            (vb * 10 ^ (max aScale bScale - bScale).toNat))
        then some (signedSum op (va * 10 ^ (max aScale bScale - aScale).toNat)
            (vb * 10 ^ (max aScale bScale - bScale).toNat))
        else none) = some r ↔
      (Scales bound (max aScale bScale - aScale).toNat va ∧
          Scales bound (max aScale bScale - bScale).toNat vb) ∧
        exactResult op aScale bScale va vb = some r ∧ FitsDigits precision r := by
    rw [exactResult_sum sums, ite_none_right_eq_some, some_inj]
    constructor
    · rintro ⟨⟨left, right, fits⟩, rfl⟩
      exact ⟨⟨left, right⟩, rfl, fits⟩
    · rintro ⟨⟨left, right⟩, rfl, fits⟩
      exact ⟨⟨left, right, fits⟩, rfl⟩
  cases op with
  | Add => exact sum (.inl rfl)
  | Sub => exact sum (.inr rfl)
  | Mul =>
    change (if _ then _ else _) = _ ↔ True ∧ _
    rw [exactResult_mul, ite_none_right_eq_some, some_inj, true_and]
    constructor
    · rintro ⟨fits, rfl⟩
      exact ⟨rfl, fits⟩
    · rintro ⟨rfl, fits⟩
      exact ⟨fits, rfl⟩
  | Div =>
    change (if _ then _ else _) = _ ↔ (_ ∧ _ ∧ _) ∧ _
    rw [ite_none_right_eq_some, some_inj]
    constructor
    · rintro ⟨⟨nonzero, shift, small, inside, fits⟩, rfl⟩
      exact ⟨⟨shift, small, inside⟩, exactResult_div aScale bScale va nonzero shift, fits⟩
    · rintro ⟨⟨shift, small, inside⟩, exact, fits⟩
      have nonzero : vb ≠ 0 := by
        rintro rfl
        rw [exactResult_div_zero] at exact
        cases exact
      rw [exactResult_div aScale bScale va nonzero shift, some_inj] at exact
      subst exact
      exact ⟨⟨nonzero, shift, small, inside, fits⟩, rfl⟩

section Columns

variable {w : Width} {a b : DecimalColumn w.Slot} {op : BinOp}
  {p : (Bool × w.Slot) × (Bool × w.Slot)}

/-- A row that is computed: the result exists and has the declared digits, and nothing on the way
to it leaves the container. -/
def Accepts (w : Width) (a b : DecimalColumn w.Slot) (op : BinOp) (va vb : w.Slot) : Prop :=
  Intermediate w.bound op a.scale b.scale (w.toInt va) (w.toInt vb) ∧
    ∃ r, exactResult op a.scale b.scale (w.toInt va) (w.toInt vb) = some r ∧
      FitsDigits (resultPrecision op w.maxPrec a b) r

/-- Every row of a column is null, or holds the exact result of two values. -/
structure Correct (a b : DecimalColumn w.Slot) (op : BinOp) (out : DecimalColumn w.Slot) :
    Prop where
  scale : out.scale = resultScale op a.scale b.scale
  precision : out.precision = resultPrecision op w.maxPrec a b
  rows : List.Forall₂ (fun p r => r.1 = (p.1.1 && p.2.1) ∧ (r.1 = true →
    exactResult op a.scale b.scale (w.toInt p.1.2) (w.toInt p.2.2) = some (w.toInt r.2)))
    (a.rows.zip b.rows) out.rows

/-- Columns of the same length, with scales that are not far apart and slots that can be negated.
The slots under the nulls are such that they are computed too. -/
structure Computable (a b : DecimalColumn w.Slot) (op : BinOp) : Prop where
  length : a.rows.length = b.rows.length
  sums : w = .i256 → op = .Add ∨ op = .Sub
  scales : w = .i128 → op = .Add ∨ op = .Sub → ScalesMeet a.scale b.scale
  negates : op = .Sub → ∀ y ∈ b.rows, w.toInt y.2 ≠ -w.bound
  nulls : ∀ p ∈ a.rows.zip b.rows, (p.1.1 && p.2.1) = false → Accepts w a b op p.1.2 p.2.2

theorem resultPrecision_le (a b : DecimalColumn w.Slot) (op : BinOp) :
    resultPrecision op w.maxPrec a b ≤ w.maxPrec := by
  cases op with
  | Add | Sub | Mul | Div => exact min_le_left _ _

theorem row_toInt (domain : Computable a b op) (listed : p ∈ a.rows.zip b.rows) :
    (w.row op a.scale b.scale (resultPrecision op w.maxPrec a b) p.1.2 p.2.2).map w.toInt =
      rowResult w.bound op a.scale b.scale (resultPrecision op w.maxPrec a b)
        (w.toInt p.1.2) (w.toInt p.2.2) := by
  have least : op = .Sub → w.toInt p.2.2 ≠ -w.bound := fun sub =>
    domain.negates sub p.2 (List.of_mem_zip listed).2
  have le := resultPrecision_le a b op
  cases w with
  | i128 => exact row128_toInt (domain.scales rfl) least le
  | i256 => exact row256_toInt (domain.sums rfl) least le

/-- A row comes to a slot exactly where it is accepted. -/
theorem row_eq_some (domain : Computable a b op) (listed : p ∈ a.rows.zip b.rows) {r : w.Slot}
    (row : w.row op a.scale b.scale (resultPrecision op w.maxPrec a b) p.1.2 p.2.2 = some r) :
    Accepts w a b op p.1.2 p.2.2 ∧
      exactResult op a.scale b.scale (w.toInt p.1.2) (w.toInt p.2.2) = some (w.toInt r) := by
  have value := row_toInt domain listed
  rw [row] at value
  obtain ⟨inside, exact, fits⟩ := rowResult_eq_some.mp value.symm
  exact ⟨⟨inside, w.toInt r, exact, fits⟩, exact⟩

theorem exists_row (domain : Computable a b op) (listed : p ∈ a.rows.zip b.rows)
    (accepts : Accepts w a b op p.1.2 p.2.2) :
    ∃ r, w.row op a.scale b.scale (resultPrecision op w.maxPrec a b) p.1.2 p.2.2 = some r := by
  obtain ⟨inside, v, exact, fits⟩ := accepts
  have value := (row_toInt domain listed).trans (rowResult_eq_some.mpr ⟨inside, exact, fits⟩)
  obtain ⟨r, row, -⟩ := map_eq_some_iff.mp value
  exact ⟨r, row⟩

def fares : DecimalColumn (BitVec 128) := ⟨10, 2, [(true, 12345), (false, 7)]⟩

def riders : DecimalColumn (BitVec 128) := ⟨10, 0, [(true, -7), (true, 3)]⟩

/-- 123.45 divided by -7 is -17.635714, and the second row is null. -/
def shares : DecimalColumn (BitVec 128) := ⟨14, 6, [(true, -17635714), (false, 23333)]⟩

theorem computable_fares : Computable (w := Width.i128) fares riders .Div where
  length := rfl
  sums := nofun
  scales := fun _ sums => by rcases sums with sums | sums <;> cases sums
  negates := nofun
  nulls := by
    intro p listed null
    rcases List.mem_cons.mp listed with rfl | listed
    · cases null
    obtain rfl := List.mem_singleton.mp listed
    exact ⟨⟨by decide, by decide, by decide⟩, _, exactResult_div 2 0 7 (by decide) (by decide),
      by decide⟩

def distances : DecimalColumn (BitVec 128) := ⟨38, 0, [(true, 10 ^ 35)]⟩

def stages : DecimalColumn (BitVec 128) := ⟨38, 0, [(true, 10 ^ 10)]⟩

end Columns

end DFTracer.Kernels
