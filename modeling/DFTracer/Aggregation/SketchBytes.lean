/-
# A sketch in bytes

The bytes of a sketch hold its counts, its extreme values, where its bins begin and the bins
that are in use. The keys that they span, and whether there are any, are read off these.
-/

import DFTracer.Aggregation.SketchBins
import DFTracer.Flame.Transport
import DFTracer.Math.FloatExtremes

namespace DFTracer.Aggregation.DDSketch

open Flame Math.Float64

/-- The sketch that is read back. -/
def restored (s : DDSketch) : DDSketch :=
  { s with
    logGamma := Float.log s.gamma
    store := Vector.ofFn fun i => if (i : Int) < s.numBins then s.store.get i else 0
    minKey := s.offset
    maxKey := s.offset + s.numBins - 1
    initialized := decide (0 < s.count.toNat)
    collapsed := false }

/-- The bins in use are those of the store and begin at a key. -/
structure Storable (s : DDSketch) : Prop where
  some : 0 ≤ s.numBins
  fits : s.numBins ≤ MAX_BINS
  least : -2 ^ 31 ≤ s.offset
  greatest : s.offset < 2 ^ 31

/-! ## Reading what was written -/

section Bytes

variable {data : Bytes} {pos : Nat}

@[simp] theorem raw_length (width v : Nat) : (raw width v).length = width := put_length width v

theorem unraw_eq (bytes : Bytes) : unraw bytes = littleEndian bytes := by
  induction bytes with
  | nil => rfl
  | cons b bytes ih => rw [unraw, littleEndian, ih]

/-- An integer read from where it was written. -/
theorem unraw_at {width v : Nat} (h : At data pos (raw width v)) (hv : v < 256 ^ width) :
    unraw ((data.drop pos).take width) = v := by
  have htake := h.take_eq
  rw [raw_length] at htake
  rw [htake, unraw_eq]
  exact littleEndian_put width v hv

theorem toNat_at {v : UInt64} (h : At data pos (raw 8 v.toNat)) :
    unraw ((data.drop pos).take 8) = v.toNat :=
  unraw_at h v.toNat_lt

theorem uint64_at {v : UInt64} (h : At data pos (raw 8 v.toNat)) :
    UInt64.ofNat (unraw ((data.drop pos).take 8)) = v := by
  rw [toNat_at h, UInt64.ofNat_toNat]

theorem uint32_at {v : UInt32} (h : At data pos (raw 4 v.toNat)) :
    UInt32.ofNat (unraw ((data.drop pos).take 4)) = v := by
  rw [unraw_at h v.toNat_lt, UInt32.ofNat_toNat]

theorem float_at {x : Float} (h : At data pos (raw 8 x.toBits.toNat)) :
    Float.ofBits (UInt64.ofNat (unraw ((data.drop pos).take 8))) = x := by
  rw [uint64_at h, ofBits_toBits]

theorem int32_at {v : Int} (h : At data pos (raw 4 (v % 2 ^ 32).toNat)) (least : -2 ^ 31 ≤ v)
    (greatest : v < 2 ^ 31) : (Int32.ofNat (unraw ((data.drop pos).take 4))).toInt = v := by
  rw [unraw_at h (by omega), Int32.toInt_ofNat', Int.toNat_of_nonneg (by omega)]
  have reduced := Int.emod_bmod v (2 ^ 32)
  have own : v.bmod (2 ^ 32) = v := Int.bmod_eq_of_le (by omega) (by omega)
  exact reduced.trans own

/-- The bins stand one after the other. -/
theorem bin_at {bins : List UInt32} (h : At data pos (bins.flatMap fun bin => raw 4 bin.toNat))
    {i : Nat} (hi : i < bins.length) : At data (pos + 4 * i) (raw 4 bins[i].toNat) := by
  induction bins generalizing pos i with
  | nil => cases hi
  | cons bin bins ih =>
    obtain ⟨first, rest⟩ := h.split
    cases i with
    | zero => exact first
    | succ i =>
      rw [show pos + 4 * (i + 1) = pos + 4 + 4 * i by omega]
      exact ih rest (by rwa [List.length_cons, Nat.succ_lt_succ_iff] at hi)

theorem length_flatMap_raw (bins : List UInt32) :
    (bins.flatMap fun bin => raw 4 bin.toNat).length = 4 * bins.length := by
  induction bins with
  | nil => rfl
  | cons bin bins ih =>
    rw [List.flatMap_cons, List.length_append, raw_length, List.length_cons]
    omega

end Bytes

/-- The fields of a sketch at their places. -/
structure Placed (s : DDSketch) (num : Nat) (data : Bytes) : Prop where
  gamma : At data 0 (raw 8 s.gamma.toBits.toNat)
  minValue : At data 8 (raw 8 s.minValue.toBits.toNat)
  maxValue : At data 16 (raw 8 s.maxValue.toBits.toNat)
  count : At data 24 (raw 8 s.count.toNat)
  zeroCount : At data 32 (raw 8 s.zeroCount.toNat)
  offset : At data 40 (raw 4 (s.offset % 2 ^ 32).toNat)
  width : At data 44 (raw 4 num)
  bins : At data HEADER_SIZE ((s.store.toList.take num).flatMap fun bin => raw 4 bin.toNat)

theorem placed_serialize (s : DDSketch) :
    Placed s (min s.numBins MAX_BINS).toNat s.serialize := by
  have h : At s.serialize 0 s.serialize := ⟨Nat.zero_le _, List.prefix_rfl⟩
  obtain ⟨h, bins⟩ := h.split
  obtain ⟨h, width⟩ := h.split
  obtain ⟨h, offset⟩ := h.split
  obtain ⟨h, zeroCount⟩ := h.split
  obtain ⟨h, count⟩ := h.split
  obtain ⟨h, maxValue⟩ := h.split
  obtain ⟨gamma, minValue⟩ := h.split
  exact { gamma, minValue, maxValue, count, zeroCount, offset, width, bins }

/-- Reading the bytes of a sketch. -/
theorem deserialize_serialize {s : DDSketch} (storable : Storable s) :
    deserialize s.serialize = s.restored := by
  have some := storable.some
  have fits := storable.fits
  have placed := placed_serialize s
  have hmax : (MAX_BINS : Int) = 128 := rfl
  obtain ⟨n, hn⟩ := Int.eq_ofNat_of_zero_le some
  have hnum : (min s.numBins MAX_BINS).toNat = n := by omega
  rw [hnum] at placed
  have hread : unraw ((s.serialize.drop 44).take 4) = n := unraw_at placed.width (by omega)
  have hmin : min n MAX_BINS = n := by omega
  have hend := placed.bins.end_le
  have hlen : (s.store.toList.take n).length = n := by
    rw [List.length_take, Vector.length_toList]
    omega
  rw [length_flatMap_raw] at hend
  have hstore : (Vector.ofFn fun i : Fin MAX_BINS => if i.val < n then
      UInt32.ofNat (unraw ((s.serialize.drop (HEADER_SIZE + 4 * i)).take 4)) else 0) =
        Vector.ofFn fun i : Fin MAX_BINS => if (i : Int) < s.numBins then s.store.get i else 0 := by
    apply Vector.ext
    intro i hi
    rw [Vector.getElem_ofFn, Vector.getElem_ofFn]
    by_cases h : i < n
    · have bin := @bin_at _ _ _ placed.bins i (by omega)
      rw [List.getElem_take] at bin
      rw [if_pos h, if_pos (by dsimp only; omega), uint32_at bin]
      rfl
    · rw [if_neg h, if_neg (by dsimp only; omega)]
  unfold deserialize
  simp only [hread, hmin]
  rw [if_neg (by omega), hstore, float_at placed.gamma, float_at placed.minValue,
    float_at placed.maxValue, uint64_at placed.count, uint64_at placed.zeroCount,
    int32_at placed.offset storable.least storable.greatest]
  simp only [toNat_at placed.count, restored, hn]

end DFTracer.Aggregation.DDSketch
