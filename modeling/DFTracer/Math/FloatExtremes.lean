/-
# Doubles in memory and their extremes

A double is copied by its bits. Packing what was unpacked gives the bits back: the rank
fixes all of them except for the two zeros, and what is no number has one pattern.
-/

import DFTracer.Math.Float64

open Float.Model (Format UnpackedFloat)
open Float.Model.UnpackedFloat

namespace DFTracer.Math.Float64

open List

/-- The rank fixes the bits of a number that is not zero. -/
theorem eq_of_bitRank {a b : BitVec 64} (same : bitRank a = bitRank b) (some : bitRank b ≠ 0) :
    a = b := by
  apply BitVec.eq_of_toNat_eq
  unfold bitRank at same some
  split at same <;> split at same <;> simp_all <;> omega

theorem eq_zero_of_bitRank {b : BitVec 64} (none : bitRank b = 0) :
    b = 0#64 ∨ b = BitVec.ofNat 64 (2 ^ 63) := by
  have hcases : b.toNat = 0 ∨ b.toNat = 2 ^ 63 := by
    unfold bitRank at none
    split at none <;> omega
  rcases hcases with h | h
  · exact .inl (BitVec.eq_of_toNat_eq h)
  · exact .inr (BitVec.eq_of_toNat_eq h)

/-- Packing gives the bits back that were unpacked. -/
theorem pack_unpack {b : BitVec 64} (valid : Format.binary64.Valid b) :
    pack Format.binary64 (unpack Format.binary64 b) = b := by
  by_cases hnan : unpack Format.binary64 b = .notANumber
  · have hbig := (unpack_eq_notANumber_iff b).mp hnan
    have hexponent : @unpackExponent Format.binary64 b = (-1#_) := by
      apply BitVec.eq_of_toNat_eq
      rw [exponent_toNat]
      change b.toNat / 2 ^ 52 % 2 ^ 11 = 2047
      omega
    have hmantissa : @unpackMantissa Format.binary64 b ≠ 0#_ := by
      intro h
      have hzero := congrArg BitVec.toNat h
      change b.toNat % 2 ^ 52 = 0 at hzero
      omega
    rw [valid.eq_packedNaN hexponent hmantissa]
    rfl
  · have hrank : bitRank (pack Format.binary64 (unpack Format.binary64 b)) = bitRank b :=
      (bitRank_pack (canonical_unpack b hnan)).trans (unpackedRank_unpack b hnan)
    by_cases hzero : bitRank b = 0
    · rcases eq_zero_of_bitRank hzero with rfl | rfl
      · decide
      · decide
    · exact eq_of_bitRank hrank hzero

/-- A double copied by its bits is the double. -/
theorem ofBits_toBits (x : Float) : Float.ofBits x.toBits = x := by
  have hbits : (Float.Model.ofBits x.toModel.toBits).toBits = x.toModel.toBits := by
    change UInt64.ofBitVec (pack Format.binary64 (unpack Format.binary64 x.toModel.toBits.toBitVec)) = _
    rw [pack_unpack x.toModel.valid]
  have hmodel : Float.Model.ofBits x.toModel.toBits = x.toModel := by
    cases h : x.toModel with
    | mk bits valid =>
      rw [h] at hbits
      cases hpacked : Float.Model.ofBits bits with
      | mk bits' valid' =>
        rw [hpacked] at hbits
        cases hbits
        rfl
  exact congrArg Float.ofModel hmodel

end DFTracer.Math.Float64

/-! ## The least and the greatest of doubles

A running minimum that starts at infinity and skips what does not compare below it is the
least of the numbers it was fed, up to the sign of zero: the order does not show. -/

open Float.Model (Format UnpackedFloat)
open Float.Model.UnpackedFloat

namespace DFTracer.Math.Float64

open List

/-- The signed magnitude of the bits. -/
def floatRank (v : Float) : Int := bitRank v.toModel.toBits.toBitVec

theorem number_of_lt {a b : Float} (h : a < b) : a.isNaN = false ∧ b.isNaN = false := by
  have hlt : a.toModel.unpack.lt b.toModel.unpack = true := decide_eq_true_iff.mp h
  constructor
  · change a.toModel.unpack.isNaN = false
    cases ha : a.toModel.unpack with
    | notANumber =>
      rw [ha] at hlt
      cases hlt
    | _ => rfl
  · change b.toModel.unpack.isNaN = false
    cases hb : b.toModel.unpack with
    | notANumber =>
      rw [hb] at hlt
      cases ha : a.toModel.unpack <;> rw [ha] at hlt <;> cases hlt
    | _ => rfl

/-- Doubles compare when both are numbers, as their ranks do. -/
theorem float_lt_iff (a b : Float) :
    a < b ↔ a.isNaN = false ∧ b.isNaN = false ∧ floatRank a < floatRank b := by
  constructor
  · intro h
    obtain ⟨ha, hb⟩ := number_of_lt h
    exact ⟨ha, hb, (Double.lt_iff ⟨a, ha⟩ ⟨b, hb⟩).mp h⟩
  · intro ⟨ha, hb, h⟩
    exact (Double.lt_iff ⟨a, ha⟩ ⟨b, hb⟩).mpr h

theorem float_beq_of_rank {a b : Float} (ha : a.isNaN = false) (hb : b.isNaN = false)
    (h : floatRank a = floatRank b) : (a == b) = true :=
  (Double.beq_iff ⟨a, ha⟩ ⟨b, hb⟩).mpr h

/-- A number with the least key among a start value and the numbers of a list. -/
structure Extreme (key : Float → Int) (start m : Float) (vs : List Float) : Prop where
  number : m.isNaN = false
  attained : m = start ∨ m ∈ vs
  start_le : key m ≤ key start
  le : ∀ v ∈ vs, v.isNaN = false → key m ≤ key v

section Extreme

variable {key : Float → Int} {start m m' v : Float} {vs vs' : List Float}

theorem Extreme.nil (h : start.isNaN = false) : Extreme key start start [] :=
  ⟨h, .inl rfl, Int.le_refl _, fun _ hv => (not_mem_nil hv).elim⟩

section

variable (h : Extreme key start m vs)

include h

/-- One more value is taken over when it is a number below. -/
theorem Extreme.insert {p : Prop} [Decidable p]
    (hp : p ↔ v.isNaN = false ∧ m.isNaN = false ∧ key v < key m) :
    Extreme key start (if p then v else m) (vs ++ [v]) := by
  by_cases taken : p
  · obtain ⟨hv, _, below⟩ := hp.mp taken
    rw [if_pos taken]
    refine ⟨hv, .inr (mem_append_right _ mem_cons_self), ?_, ?_⟩
    · have := h.start_le
      omega
    · intro w hw number
      rcases mem_append.mp hw with hw | hw
      · have := h.le w hw number
        omega
      · rw [mem_singleton.mp hw]
  · rw [if_neg taken]
    refine ⟨h.number, h.attained.imp id (mem_append_left _), h.start_le, ?_⟩
    intro w hw number
    rcases mem_append.mp hw with hw | hw
    · exact h.le w hw number
    · rw [mem_singleton.mp hw] at number ⊢
      by_contra below
      exact taken (hp.mpr ⟨number, h.number, by omega⟩)

section

variable (h' : Extreme key start m' vs')

include h'

/-- The lesser of two extremes. -/
theorem Extreme.merge {p : Prop}
    [Decidable p] (hp : p ↔ m'.isNaN = false ∧ m.isNaN = false ∧ key m' < key m) :
    Extreme key start (if p then m' else m) (vs ++ vs') := by
  by_cases taken : p
  · have below := (hp.mp taken).2.2
    rw [if_pos taken]
    refine ⟨h'.number, h'.attained.imp id (mem_append_right _), h'.start_le, ?_⟩
    intro w hw number
    rcases mem_append.mp hw with hw | hw
    · have := h.le w hw number
      omega
    · exact h'.le w hw number
  · have above : ¬ key m' < key m := fun below => taken (hp.mpr ⟨h'.number, h.number, below⟩)
    rw [if_neg taken]
    refine ⟨h.number, h.attained.imp id (mem_append_left _), h.start_le, ?_⟩
    intro w hw number
    rcases mem_append.mp hw with hw | hw
    · exact h.le w hw number
    · have := h'.le w hw number
      omega

theorem Extreme.key_le
    (sub : ∀ v ∈ vs', v ∈ vs) : key m ≤ key m' := by
  rcases h'.attained with rfl | hm'
  · exact h.start_le
  · exact h.le m' (sub m' hm') h'.number

/-- The order of the values does not show. -/
theorem Extreme.key_eq
    (same : vs.Perm vs') : key m = key m' := by
  have := h.key_le h' fun v hv => same.mem_iff.mpr hv
  have := h'.key_le h fun v hv => same.mem_iff.mp hv
  omega

end

end

end Extreme

end DFTracer.Math.Float64
