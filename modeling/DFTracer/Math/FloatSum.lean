/-
# Exact sums of doubles

Below `2 ^ 53` every integer has a double of its own, so sums and differences of
such doubles that stay there are computed without rounding and behave as integers
do: the order of a summation no longer shows in its result.
-/

import DFTracer.Math.Float64

open Float.Model (Format UnpackedFloat totalExponent)
open Float.Model.UnpackedFloat

namespace DFTracer.Math.Float64

/-- Away from zero the rank of a canonical number determines it. -/
theorem canonical_ext {a b : Float.Model.UnpackedFloat} (ha : Canonical a) (hb : Canonical b)
    (hrank : unpackedRank a = unpackedRank b) (hne : unpackedRank a ≠ 0) : a = b := by
  cases ha with
  | zero s => exact absurd (by cases s <;> rfl) hne
  | infinity s =>
    cases hb with
    | zero s' => cases s <;> cases s' <;> exact absurd hrank (by decide)
    | infinity s' =>
      cases s <;> cases s' <;> first | rfl | exact absurd hrank (by decide)
    | finite s' m e hm hlow hhigh hbits hnormal =>
      exfalso
      cases s <;> cases s' <;> dsimp only [unpackedRank, Sign.apply] at hrank <;> omega
  | finite s m e hm hlow hhigh hbits hnormal =>
    cases hb with
    | zero s' | infinity s' =>
      exfalso
      cases s <;> cases s' <;> dsimp only [unpackedRank, Sign.apply] at hrank <;> omega
    | finite s' m' e' hm' hlow' hhigh' hbits' hnormal' =>
      have hsign : s = s' := by
        cases s <;> cases s' <;> first
          | rfl
          | (exfalso; dsimp only [unpackedRank, Sign.apply] at hrank; omega)
      subst hsign
      have hmag : (e + 1074) * 2 ^ 52 + (m : Int) = (e' + 1074) * 2 ^ 52 + (m' : Int) := by
        cases s <;> dsimp only [unpackedRank, Sign.apply] at hrank <;> omega
      obtain rfl : e = e' := by omega
      obtain rfl : m = m' := by omega
      rfl

/-- Packing and unpacking a canonical number other than zero gives it back. -/
theorem unpack_pack {u : Float.Model.UnpackedFloat} (hu : Canonical u) (hne : unpackedRank u ≠ 0) :
    unpack Format.binary64 (pack Format.binary64 u) = u := by
  have hnumber := unpack_pack_ne_notANumber hu
  have hrank := unpackedRank_unpack _ hnumber
  rw [bitRank_pack hu] at hrank
  apply canonical_ext (canonical_unpack _ hnumber) hu hrank
  rw [hrank]
  exact hne

/-- The sign of an integer as a sign bit. -/
def signOf (n : Int) : Sign := if n < 0 then .negative else .positive

/-- The mantissa of a whole number below `2 ^ 53`: its magnitude, moved up to the
fifty-three bits of a normal number. -/
def wholeMantissa (n : Int) : Nat := n.natAbs * 2 ^ (52 - n.natAbs.log2)

/-- The exponent that goes with the mantissa. -/
def wholeExponent (n : Int) : Int := (n.natAbs.log2 : Int) - 52

theorem log2_le_of_lt {n : Nat} (hn : n < 2 ^ 53) : n.log2 ≤ 52 := by
  rcases Nat.eq_zero_or_pos n with rfl | hpos
  · decide
  · have := (Nat.log2_lt (by omega)).mpr hn
    omega

/-- Below `2 ^ 53` the significand loses nothing. -/
theorem significand_eq {n : Nat} (hn : n < 2 ^ 53) : significand n = n * 2 ^ (52 - n.log2) := by
  unfold significand
  rw [if_pos (log2_le_of_lt hn)]

variable {n a b : Int}

theorem wholeMantissa_bounds (hn : n ≠ 0) (small : n.natAbs < 2 ^ 53) :
    2 ^ 52 ≤ wholeMantissa n ∧ wholeMantissa n < 2 ^ 53 := by
  have h := significand_bounds n.natAbs (by omega)
  have hbits := h.2.2 (log2_le_of_lt small)
  rw [significand_eq small] at h hbits
  exact ⟨h.1, hbits⟩

theorem wholeMantissa_pos (hn : n ≠ 0) (small : n.natAbs < 2 ^ 53) :
    0 < wholeMantissa n :=
  Nat.lt_of_lt_of_le (by decide) (wholeMantissa_bounds hn small).1

/-- The rank of an integer below `2 ^ 53`, from its mantissa and exponent. -/
theorem intRank_eq_apply {n : Int} (hn : n ≠ 0) (small : n.natAbs < 2 ^ 53) :
    intRank n = (signOf n).apply ((wholeExponent n + 1074) * 2 ^ 52 + wholeMantissa n) := by
  have hnat : natRank n.natAbs = (n.natAbs.log2 + 1022) * 2 ^ 52 + wholeMantissa n := by
    rw [natRank, if_neg (by omega), significand_eq small, wholeMantissa]
  unfold intRank signOf wholeExponent
  by_cases hneg : n < 0
  · rw [if_pos hneg, if_pos hneg]
    dsimp only [Sign.apply]
    omega
  · rw [if_neg hneg, if_neg hneg]
    dsimp only [Sign.apply]
    omega

theorem intRank_ne_zero (hn : n ≠ 0) : intRank n ≠ 0 := by
  intro h
  rcases Int.lt_or_gt_of_ne hn with hneg | hpos
  · have := intRank_strictMono hneg (.inr (by decide))
    rw [h] at this
    exact absurd this (by decide)
  · have := intRank_strictMono hpos (.inl (by decide))
    rw [h] at this
    exact absurd this (by decide)

/-- The unpacked form of a nonzero integer below `2 ^ 53`. -/
theorem ofInt_eq_finite (hn : n ≠ 0) (small : n.natAbs < 2 ^ 53) :
    Float.Model.UnpackedFloat.ofInt Format.binary64 n =
      .finite (signOf n) (wholeMantissa n) (wholeExponent n) (wholeMantissa_pos hn small) := by
  have hbounds := wholeMantissa_bounds hn small
  have hlog := log2_le_of_lt small
  have hcanonical : Canonical (.finite (signOf n) (wholeMantissa n) (wholeExponent n)
      (wholeMantissa_pos hn small)) := by
    apply Canonical.finite _ _ _ _ _ _ hbounds.2 (.inl hbounds.1)
    · unfold wholeExponent; omega
    · unfold wholeExponent; omega
  have hrank := unpackedRank_ofInt n (by omega)
  apply canonical_ext (canonical_ofInt n (by omega)) hcanonical
  · rw [hrank, intRank_eq_apply hn small]
    rfl
  · rw [hrank]
    exact intRank_ne_zero hn

/-- The double nearest to an integer. -/
def whole (n : Int) : Float := .ofModel (.ofInt n)

/-- Unpacking a whole double gives the converted integer. -/
theorem unpack_whole (n : Int) (fits : n.natAbs < 2 ^ 64) :
    (whole n).toModel.unpack = Float.Model.UnpackedFloat.ofInt Format.binary64 n := by
  by_cases hn : n = 0
  · subst hn
    rfl
  · have hrank := unpackedRank_ofInt n fits
    apply unpack_pack (canonical_ofInt n fits)
    rw [hrank]
    exact intRank_ne_zero hn

/-! ## Sums -/

/-- An integer written with a finer exponent rounds to itself. -/
theorem round_scaled (s : Sign) (n k : Nat) (hn : 0 < n) (small : n < 2 ^ 53) (hk : k ≤ 52) :
    Canonical (UnpackedFloat.round Format.binary64 s (n * 2 ^ k) (-k)) ∧
      unpackedRank (UnpackedFloat.round Format.binary64 s (n * 2 ^ k) (-k)) = s.apply (natRank n) := by
  have hlog : n.log2 ≤ 52 := log2_le_of_lt small
  have hscaled : (n * 2 ^ k).log2 = n.log2 + k := by
    rw [Nat.log2_eq_iff (by positivity)]
    have hlow : 2 ^ n.log2 ≤ n := Nat.log2_self_le (by omega)
    have hhigh : n < 2 ^ (n.log2 + 1) := Nat.lt_log2_self
    constructor
    · rw [pow_add]
      exact Nat.mul_le_mul_right _ hlow
    · rw [show n.log2 + k + 1 = n.log2 + 1 + k by omega, pow_add]
      exact Nat.mul_lt_mul_of_pos_right hhigh (by positivity)
  have hb := significand_bounds n hn
  have hrank : natRank n = (n.log2 + 1022) * 2 ^ 52 + significand n := by
    rw [natRank, if_neg (by omega)]
  have hsig := significand_eq small
  unfold UnpackedFloat.round decreaseExponent
  rw [targetExponent_binary64, hscaled]
  rcases Nat.le_total (n.log2 + k) 52 with hfine | hcoarse
  · -- the mantissa has room: it is moved up to fifty-three bits
    have hshift : (-(k : Int) - max (((n.log2 + k : Nat) : Int) + 1 + -(k : Int) - 53) (-1074)).toNat
        = 52 - n.log2 - k := by omega
    have hmantissa : n * 2 ^ k * 2 ^ (52 - n.log2 - k) = significand n := by
      rw [hsig, Nat.mul_assoc, ← pow_add]
      congr 2
      omega
    have hone : roundHalfEven (significand n) (2 ^ 0) = significand n := by
      simp [roundHalfEven, Nat.mod_one]
    have hlog' : (significand n).log2 = 52 + 0 :=
      (Nat.log2_eq_iff (by omega)).mpr ⟨hb.1, hb.2.2 hlog⟩
    have h := roundWithAccuracy_exact s (significand n) (-(k : Int) - ((52 - n.log2 - k : Nat) : Int))
      0 hlog' (by omega) (by rw [hone]; exact hb.2.1) (by rw [hone]; exact hb.1) (by omega)
    simp only [hshift, Nat.shiftLeft_eq, hmantissa]
    refine ⟨h.1, ?_⟩
    rw [h.2]
    refine congrArg s.apply ?_
    omega
  · -- the mantissa is too long: the bits dropped are zero
    have hshift : (-(k : Int) - max (((n.log2 + k : Nat) : Int) + 1 + -(k : Int) - 53) (-1074)).toNat
        = 0 := by omega
    have hexact : n * 2 ^ k = significand n * 2 ^ (n.log2 + k - 52) := by
      rw [hsig, Nat.mul_assoc, ← pow_add]
      congr 2
      omega
    have hrounded : roundHalfEven (n * 2 ^ k) (2 ^ (n.log2 + k - 52)) = significand n := by
      have hpos : 0 < 2 ^ (n.log2 + k - 52) := by positivity
      rw [hexact, roundHalfEven, Nat.mul_mod_left, if_pos (by omega), Nat.mul_div_cancel _ hpos]
    have h := roundWithAccuracy_exact s (n * 2 ^ k) (-(k : Int)) (n.log2 + k - 52) (by omega)
      (by omega) (by rw [hrounded]; exact hb.2.1) (by rw [hrounded]; exact hb.1) (by omega)
    simp only [hshift, Nat.shiftLeft_zero]
    have hz : -(k : Int) - ((0 : Nat) : Int) = -(k : Int) := by omega
    rw [hz]
    refine ⟨h.1, ?_⟩
    rw [h.2]
    refine congrArg s.apply ?_
    omega

/-- Normalising an integer at a finer exponent converts that integer. -/
theorem normalize_scaled (n : Int) (k : Nat) (small : n.natAbs < 2 ^ 53) (hk : k ≤ 52) :
    normalize Format.binary64 (n * 2 ^ k) (-k) .positive
      = Float.Model.UnpackedFloat.ofInt Format.binary64 n := by
  have hpow : (0 : Int) < 2 ^ k := by positivity
  have habs : (n * 2 ^ k).natAbs = n.natAbs * 2 ^ k := by
    rw [Int.natAbs_mul]
    rfl
  have hrank := unpackedRank_ofInt n (by omega)
  have hcanonical := canonical_ofInt n (by omega)
  rcases Int.lt_trichotomy n 0 with hneg | rfl | hpos
  · have hlt : n * 2 ^ k < 0 := Int.mul_neg_of_neg_of_pos hneg hpow
    have hnat : (-(n * 2 ^ k)).toNat = n.natAbs * 2 ^ k := by omega
    have h := round_scaled .negative n.natAbs k (by omega) small hk
    have hround : unpackedRank (UnpackedFloat.round Format.binary64 .negative (n.natAbs * 2 ^ k) (-k))
        = intRank n := by
      rw [h.2, intRank, if_pos hneg]
      rfl
    unfold UnpackedFloat.normalize
    rw [compare_lt_iff_lt.mpr hlt]
    simp only [hnat]
    apply canonical_ext h.1 hcanonical
    · rw [hround, hrank]
    · rw [hround]
      exact intRank_ne_zero (by omega)
  · rw [Int.zero_mul]
    rfl
  · have hgt : n * 2 ^ k > 0 := Int.mul_pos hpos hpow
    have hnat : (n * 2 ^ k).toNat = n.natAbs * 2 ^ k := by omega
    have h := round_scaled .positive n.natAbs k (by omega) small hk
    have hround : unpackedRank (UnpackedFloat.round Format.binary64 .positive (n.natAbs * 2 ^ k) (-k))
        = intRank n := by
      rw [h.2, intRank, if_neg (by omega)]
      rfl
    unfold UnpackedFloat.normalize
    rw [compare_gt_iff_gt.mpr hgt]
    simp only [hnat]
    apply canonical_ext h.1 hcanonical
    · rw [hround, hrank]
    · rw [hround]
      exact intRank_ne_zero (by omega)

/-- The signed mantissa at a finer exponent is the integer, scaled. -/
theorem apply_wholeMantissa (n : Int) (small : n.natAbs < 2 ^ 53) (e : Int)
    (he : e ≤ wholeExponent n) :
    (signOf n).apply ((wholeMantissa n <<< (wholeExponent n - e).toNat : Nat) : Int)
      = n * 2 ^ (-e).toNat := by
  have hlog := log2_le_of_lt small
  have hscaled : wholeMantissa n <<< (wholeExponent n - e).toNat = n.natAbs * 2 ^ (-e).toNat := by
    unfold wholeMantissa wholeExponent at *
    rw [Nat.shiftLeft_eq, Nat.mul_assoc, ← pow_add]
    congr 2
    omega
  rw [hscaled]
  unfold signOf
  by_cases hneg : n < 0
  · rw [if_pos hneg]
    dsimp only [Sign.apply]
    push_cast
    rw [abs_of_neg hneg, Int.neg_mul, Int.neg_neg]
  · rw [if_neg hneg]
    dsimp only [Sign.apply]
    push_cast
    rw [abs_of_nonneg (by omega)]

/-- Two finite operands are brought to the smaller exponent, where both are
integers scaled by one power of two. -/
theorem scaled_operands (smallA : a.natAbs < 2 ^ 53) (smallB : b.natAbs < 2 ^ 53) :
    ∃ k : Nat, k ≤ 52 ∧ min (wholeExponent a) (wholeExponent b) = -k ∧
      (signOf a).apply ((decreaseExponent (wholeMantissa a) (wholeExponent a)
        (min (wholeExponent a) (wholeExponent b))).1 : Nat) = a * 2 ^ k ∧
      (signOf b).apply ((decreaseExponent (wholeMantissa b) (wholeExponent b)
        (min (wholeExponent a) (wholeExponent b))).1 : Nat) = b * 2 ^ k := by
  have hloga := log2_le_of_lt smallA
  have hlow : -52 ≤ min (wholeExponent a) (wholeExponent b) :=
    le_min (by unfold wholeExponent; omega) (by unfold wholeExponent; omega)
  have hhigh : min (wholeExponent a) (wholeExponent b) ≤ 0 :=
    Int.le_trans (min_le_left _ _) (by unfold wholeExponent; omega)
  refine ⟨(-min (wholeExponent a) (wholeExponent b)).toNat, by omega, by omega, ?_, ?_⟩
  · exact apply_wholeMantissa a smallA _ (min_le_left _ _)
  · exact apply_wholeMantissa b smallB _ (min_le_right _ _)

/-- Adding converted integers converts their sum. -/
theorem add_ofInt (smallA : a.natAbs < 2 ^ 53) (smallB : b.natAbs < 2 ^ 53)
    (small : (a + b).natAbs < 2 ^ 53) :
    UnpackedFloat.add Format.binary64 (.ofInt Format.binary64 a) (.ofInt Format.binary64 b)
      = .ofInt Format.binary64 (a + b) := by
  by_cases ha : a = 0
  · subst ha
    rw [Int.zero_add]
    by_cases hb : b = 0
    · subst hb
      rfl
    · rw [ofInt_eq_finite hb smallB]
      rfl
  · by_cases hb : b = 0
    · subst hb
      rw [Int.add_zero, ofInt_eq_finite ha smallA]
      rfl
    · obtain ⟨k, hk, he, hA, hB⟩ := scaled_operands smallA smallB
      rw [ofInt_eq_finite ha smallA, ofInt_eq_finite hb smallB]
      change normalize Format.binary64
        ((signOf a).apply ((decreaseExponent (wholeMantissa a) (wholeExponent a) _).1 : Nat)
          + (signOf b).apply ((decreaseExponent (wholeMantissa b) (wholeExponent b) _).1 : Nat))
        (min (wholeExponent a) (wholeExponent b)) .positive = _
      rw [hA, hB, ← Int.add_mul, he]
      exact normalize_scaled (a + b) k small hk

/-- A converted integer negated, as subtraction from zero computes it. -/
theorem ofInt_neg_eq_finite (hb : b ≠ 0) (smallB : b.natAbs < 2 ^ 53) :
    .ofInt Format.binary64 (-b) = Float.Model.UnpackedFloat.finite (-signOf b) (wholeMantissa b)
      (wholeExponent b) (wholeMantissa_pos hb smallB) := by
  have hbounds := wholeMantissa_bounds hb smallB
  have hlog := log2_le_of_lt smallB
  have hneg := @intRank_eq_apply (-b) (by omega) (by omega)
  have hsign : signOf (-b) = -signOf b := by
    unfold signOf
    by_cases h : b < 0
    · rw [if_pos h, if_neg (by omega)]
      rfl
    · rw [if_neg h, if_pos (by omega)]
      rfl
  rw [wholeMantissa, wholeExponent, Int.natAbs_neg, hsign] at hneg
  have hcanonical : Canonical (.finite (-signOf b) (wholeMantissa b) (wholeExponent b)
      (wholeMantissa_pos hb smallB)) := by
    apply Canonical.finite _ _ _ _ _ _ hbounds.2 (.inl hbounds.1)
    · unfold wholeExponent; omega
    · unfold wholeExponent; omega
  have hrank := unpackedRank_ofInt (-b) (by omega)
  apply canonical_ext (canonical_ofInt (-b) (by omega)) hcanonical
  · rw [hrank, hneg]
    rfl
  · rw [hrank]
    exact intRank_ne_zero (by omega)

/-- Subtracting converted integers converts their difference. -/
theorem sub_ofInt (smallA : a.natAbs < 2 ^ 53) (smallB : b.natAbs < 2 ^ 53)
    (small : (a - b).natAbs < 2 ^ 53) :
    UnpackedFloat.sub Format.binary64 (.ofInt Format.binary64 a) (.ofInt Format.binary64 b)
      = .ofInt Format.binary64 (a - b) := by
  by_cases hb : b = 0
  · subst hb
    rw [Int.sub_zero]
    by_cases ha : a = 0
    · subst ha
      rfl
    · rw [ofInt_eq_finite ha smallA]
      rfl
  · by_cases ha : a = 0
    · subst ha
      rw [Int.zero_sub, ofInt_neg_eq_finite hb smallB, ofInt_eq_finite hb smallB]
      rfl
    · obtain ⟨k, hk, he, hA, hB⟩ := scaled_operands smallA smallB
      rw [ofInt_eq_finite ha smallA, ofInt_eq_finite hb smallB]
      change normalize Format.binary64
        ((signOf a).apply ((decreaseExponent (wholeMantissa a) (wholeExponent a) _).1 : Nat)
          - (signOf b).apply ((decreaseExponent (wholeMantissa b) (wholeExponent b) _).1 : Nat))
        (min (wholeExponent a) (wholeExponent b)) .positive = _
      rw [hA, hB, ← Int.sub_mul, he]
      exact normalize_scaled (a - b) k small hk

section Whole

variable {a b : Int}

/-- Sums of whole doubles below `2 ^ 53` are exact. -/
theorem whole_add (smallA : a.natAbs < 2 ^ 53) (smallB : b.natAbs < 2 ^ 53)
    (small : (a + b).natAbs < 2 ^ 53) : whole a + whole b = whole (a + b) := by
  change Float.ofModel (.pack (UnpackedFloat.add Format.binary64 (whole a).toModel.unpack
    (whole b).toModel.unpack)) = _
  rw [unpack_whole a (by omega), unpack_whole b (by omega), add_ofInt smallA smallB small]
  rfl

/-- Differences of whole doubles below `2 ^ 53` are exact. -/
theorem whole_sub (smallA : a.natAbs < 2 ^ 53) (smallB : b.natAbs < 2 ^ 53)
    (small : (a - b).natAbs < 2 ^ 53) : whole a - whole b = whole (a - b) := by
  change Float.ofModel (.pack (UnpackedFloat.sub Format.binary64 (whole a).toModel.unpack
    (whole b).toModel.unpack)) = _
  rw [unpack_whole a (by omega), unpack_whole b (by omega), sub_ofInt smallA smallB small]
  rfl

section

variable (fitsA : a.natAbs < 2 ^ 64) (fitsB : b.natAbs < 2 ^ 64) (small : a.natAbs < 2 ^ 53 ∨ b.natAbs < 2 ^ 53)

include fitsA fitsB small

/-- Whole doubles are ordered as their integers, one of them below `2 ^ 53`. -/
theorem whole_lt_iff : whole a < whole b ↔ a < b := by
  have h := Double.lt_iff (.ofInt a fitsA) (.ofInt b fitsB)
  rw [Double.rank_ofInt, Double.rank_ofInt] at h
  refine Iff.trans h ⟨fun hlt => ?_, fun hlt => intRank_strictMono hlt small⟩
  by_contra hge
  have := intRank_mono (Int.not_lt.mp hge)
  omega

/-- Whole doubles compare equal as their integers do. -/
theorem whole_beq_iff : (whole a == whole b) = true ↔ a = b := by
  have h := Double.beq_iff (.ofInt a fitsA) (.ofInt b fitsB)
  rw [Double.rank_ofInt, Double.rank_ofInt] at h
  refine Iff.trans h ⟨fun heq => ?_, congrArg intRank⟩
  rcases Int.lt_trichotomy a b with hlt | rfl | hgt
  · have := intRank_strictMono hlt small
    omega
  · rfl
  · have := intRank_strictMono hgt small.symm
    omega

end

end Whole

end DFTracer.Math.Float64

/-! ## Counts as doubles

The double of an unsigned 64-bit integer. Conversion rounds above `2 ^ 53`, but it
keeps the order, so the lesser of two converted counts is the lesser one converted. -/

open Float.Model (Format)

namespace DFTracer.Math.Float64

/-- The double of a count. -/
abbrev wholeNat (n : Nat) : Float := whole n

theorem toFloat_eq_wholeNat (v : UInt64) : v.toFloat = wholeNat v.toNat := rfl

section Counts

variable {a b : Nat}

section

variable (fitsA : a < 2 ^ 64) (fitsB : b < 2 ^ 64)

include fitsA fitsB

/-- Counts convert alike when their ranks agree. -/
theorem wholeNat_congr
    (hrank : intRank a = intRank b) : wholeNat a = wholeNat b := by
  by_cases ha : a = 0
  · subst ha
    by_cases hb : b = 0
    · rw [hb]
    · exact absurd hrank.symm (intRank_ne_zero (by omega))
  · refine congrArg (fun u => Float.ofModel (.pack u)) ?_
    apply canonical_ext (canonical_ofInt a (by omega)) (canonical_ofInt b (by omega))
    · rw [unpackedRank_ofInt a (by omega), unpackedRank_ofInt b (by omega), hrank]
    · rw [unpackedRank_ofInt a (by omega)]
      exact intRank_ne_zero (by omega)

theorem wholeNat_lt_iff_rank :
    wholeNat a < wholeNat b ↔ intRank a < intRank b := by
  have h := Double.lt_iff (.ofInt a (by omega)) (.ofInt b (by omega))
  rwa [Double.rank_ofInt, Double.rank_ofInt] at h

/-- A lesser double is the double of a lesser count. -/
theorem lt_of_wholeNat_lt
    (h : wholeNat a < wholeNat b) : a < b := by
  rw [wholeNat_lt_iff_rank fitsA fitsB] at h
  by_contra hge
  have := intRank_mono (a := b) (b := a) (by omega)
  omega

theorem wholeNat_eq_of_not_lt (hle : a ≤ b)
    (h : ¬wholeNat a < wholeNat b) : wholeNat a = wholeNat b := by
  rw [wholeNat_lt_iff_rank fitsA fitsB] at h
  have := intRank_mono (a := a) (b := b) (by omega)
  exact wholeNat_congr fitsA fitsB (by omega)

/-- The lesser of two converted counts. -/
theorem wholeNat_min :
    (if wholeNat b < wholeNat a then wholeNat b else wholeNat a) = wholeNat (min a b) := by
  by_cases h : wholeNat b < wholeNat a
  · have hlt := lt_of_wholeNat_lt fitsB fitsA h
    rw [if_pos h, Nat.min_eq_right (by omega)]
  · rw [if_neg h]
    rcases Nat.le_total a b with hle | hle
    · rw [Nat.min_eq_left hle]
    · rw [Nat.min_eq_right hle]
      exact (wholeNat_eq_of_not_lt fitsB fitsA hle h).symm

/-- The greater of two converted counts. -/
theorem wholeNat_max :
    (if wholeNat a < wholeNat b then wholeNat b else wholeNat a) = wholeNat (max a b) := by
  by_cases h : wholeNat a < wholeNat b
  · have hlt := lt_of_wholeNat_lt fitsA fitsB h
    rw [if_pos h, Nat.max_eq_right (by omega)]
  · rw [if_neg h]
    rcases Nat.le_total a b with hle | hle
    · rw [Nat.max_eq_right hle]
      exact wholeNat_eq_of_not_lt fitsA fitsB hle h
    · rw [Nat.max_eq_left hle]

end

/-- Sums of counts that stay below `2 ^ 53` are exact. -/
theorem wholeNat_add (small : a + b < 2 ^ 53) : wholeNat a + wholeNat b = wholeNat (a + b) := by
  rw [whole_add (by omega) (by omega) (by omega)]
  rfl

end Counts

end DFTracer.Math.Float64
