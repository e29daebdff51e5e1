/-
# Columns that come back from a file

Reading takes exactly the bytes that were written for a column and fails on every part of
them. The column that is read has the type, the parameters of decimals, the width and the
values of the one that was written, and its nulls where they were counted. Its times count in
microseconds and have no zone.
-/

import DFTracer.Frames.FlatColumns

namespace DFTracer.Frames

open Flame Math Math.Decoder List

theorem length_putPod (width : Nat) (v : Int) : (putPod width v).length = width :=
  put_length width _

/-- An integer that fits so many bytes. -/
def Fits (width : Nat) (v : Int) : Prop := -256 ^ width ≤ v * 2 ∧ v * 2 < 256 ^ width

variable {v : Int}

theorem pod_putPod {width : Nat} (h : Fits width v) : pod (putPod width v) = v := by
  have positive : (0 : Int) < 256 ^ width := by positivity
  have nonneg := Int.emod_nonneg v positive.ne'
  have below := Int.emod_lt_of_pos v positive
  have fits : (v % 256 ^ width).toNat < 256 ^ width := by
    zify
    rwa [Int.toNat_of_nonneg nonneg]
  unfold pod
  rw [length_putPod]
  unfold putPod
  rw [littleEndian_put _ _ fits, Int.toNat_of_nonneg nonneg]
  have reduced := Int.emod_bmod v (256 ^ width)
  push_cast at reduced
  rw [reduced]
  exact Int.bmod_eq_of_le_mul_two h.1 h.2

theorem fits_four (h : -2 ^ 31 ≤ v ∧ v < 2 ^ 31) : Fits 4 v := by
  unfold Fits
  omega

theorem fits_eight (h : 0 ≤ v) (h' : v < 2 ^ 63) : Fits 8 v := by
  unfold Fits
  omega

theorem sizeT_eq (h : 0 ≤ v) (h' : v < 2 ^ 64) : sizeT v = v.toNat := by
  unfold sizeT
  rw [Int.emod_eq_of_lt h h']

section Integers

variable {width : Nat}

theorem length_flatMap_putPod (offsets : List Int) :
    (offsets.flatMap (putPod width)).length = width * offsets.length := by
  induction offsets with
  | nil => rfl
  | cons o offsets ih =>
    rw [flatMap_cons, length_append, length_putPod, ih, length_cons, Nat.mul_succ,
      Nat.add_comm]

/-- Integers that are written one after the other are read one after the other. -/
theorem pods_flatMap {offsets : List Int} (h : ∀ o ∈ offsets, Fits width o) :
    pods width offsets.length (offsets.flatMap (putPod width)) = offsets := by
  unfold pods
  induction offsets with
  | nil => rfl
  | cons o offsets ih =>
    have first : (putPod width o).length = width := length_putPod width o
    rw [length_cons, range_succ_eq_map, map_cons, map_map, flatMap_cons,
      Nat.mul_zero, drop_zero, take_left' first, pod_putPod (h o mem_cons_self)]
    congr 1
    conv => rhs; rw [← ih fun k hk => h k (mem_cons_of_mem _ hk)]
    apply map_congr_left
    intro i _
    change pod (((putPod width o ++ _).drop (width * (i + 1))).take width) = _
    rw [Nat.mul_succ, Nat.add_comm, ← drop_drop, drop_left' first]

theorem reads_getPod {v : Int} (h : Fits width v) :
    Reads (getPod width) .truncated (putPod width v) v := by
  have taken : Reads (takeBytes width) .truncated (putPod width v) (putPod width v) :=
    reads_take (length_putPod width v)
  have decoded := taken.map pod
  rwa [pod_putPod h] at decoded

end Integers

/-- The first `n` rows of a bitmap, set where they have a value. -/
def setValid (isNull : Nat → Bool) (n : Nat) (bits : Bytes) : Bytes :=
  (List.range n).foldl (fun bits i => if isNull i then bits else setBit bits i) bits

theorem setValid_spec (isNull : Nat → Bool) {n : Nat} {bits : Bytes} (fits : n ≤ 8 * bits.length) :
    (setValid isNull n bits).length = bits.length ∧
      ∀ j, bit (setValid isNull n bits) j = (bit bits j || (decide (j < n) && !isNull j)) := by
  induction n with
  | zero =>
    refine ⟨rfl, fun j => ?_⟩
    rw [decide_eq_false (Nat.not_lt_zero j), Bool.false_and, Bool.or_false]
    rfl
  | succ n ih =>
    obtain ⟨length, bits_eq⟩ := ih (by omega)
    have step : setValid isNull (n + 1) bits = if isNull n then setValid isNull n bits
        else setBit (setValid isNull n bits) n := by
      unfold setValid
      rw [range_succ, foldl_append]
      rfl
    rw [step]
    by_cases null : isNull n
    · rw [if_pos null]
      refine ⟨length, fun j => ?_⟩
      rw [bits_eq]
      by_cases same : j = n
      · subst same
        simp [null]
      · congr 2
        exact decide_eq_decide.mpr (by omega)
    · rw [if_neg null]
      refine ⟨(length_setBit _ n).trans length, fun j => ?_⟩
      rw [bit_setBit (by omega), bits_eq]
      by_cases same : n = j
      · subst same
        simp [null]
      · rw [decide_eq_false same, Bool.or_false]
        congr 2
        exact decide_eq_decide.mpr (by omega)

theorem bit_replicate (n i : Nat) : bit (List.replicate n 0) i = false := by
  have zero : (List.replicate n (0 : UInt8)).getD (i / 8) 0 = 0 := by
    rw [getD_eq_getElem?_getD, getElem?_replicate]
    split <;> rfl
  unfold bit
  rw [zero]
  exact Nat.zero_testBit _

namespace SeriesData

variable {s : SeriesData} {i : Nat} {t : SeriesData}

theorem bitmapSize_nonneg (h : s.Leaf) : 0 ≤ (s.length + 7).tdiv 8 :=
  Int.tdiv_nonneg (by have := h.nonneg; omega) (by decide)

theorem bitmapSize_eq (h : s.Leaf) : (s.length + 7).tdiv 8 = (s.length + 7) / 8 :=
  Int.tdiv_eq_ediv_of_nonneg (by have := h.nonneg; omega)

theorem length_validityBitmap (h : s.Leaf) :
    (validityBitmap s).length = ((s.length + 7).tdiv 8).toNat := by
  have size := bitmapSize_eq h
  have set := @setValid_spec s.isNull s.length.toNat
    (List.replicate ((s.length + 7).tdiv 8).toNat 0) (by rw [length_replicate]; omega)
  exact set.1.trans length_replicate

theorem bit_validityBitmap (h : s.Leaf) (hi : i < s.length.toNat) :
    bit (validityBitmap s) i = !s.isNull i := by
  have size := bitmapSize_eq h
  have set := @setValid_spec s.isNull s.length.toNat
    (List.replicate ((s.length + 7).tdiv 8).toNat 0) (by rw [length_replicate]; omega)
  refine (set.2 i).trans ?_
  rw [bit_replicate, decide_eq_true hi, Bool.false_or, Bool.true_and]

/-- The bitmap that is written. -/
def keptValidity (s : SeriesData) : Option Bytes :=
  if 0 < s.nullCount then some (validityBitmap s) else none

/-- A column as a file gives it back. -/
structure Kept (s t : SeriesData) : Prop where
  type : t.type = s.type
  length : t.length = s.length
  fixedSize : t.fixedSize = s.fixedSize
  decimalPrecision : t.decimalPrecision = s.decimalPrecision
  decimalScale : t.decimalScale = s.decimalScale
  timeUnit : t.timeUnit = .Micro
  timezone : t.timezone = ""
  validity : t.validity = s.keptValidity
  value : ∀ i < s.length.toNat, t.value i = s.value i

/-- The rows of a column whose nulls are counted are read as they are. -/
theorem isNull_kept (h : s.Leaf) (counted : s.nullCount = 0 → s.nulls = 0)
    (hi : i < s.length.toNat) :
    (s.keptValidity.elim false fun bits => !bit bits i) = s.isNull i := by
  unfold keptValidity
  split
  · change (!bit (validityBitmap s) i) = _
    rw [bit_validityBitmap h hi, Bool.not_not]
  · have none : s.nulls = 0 := by
      rcases h.counted with h | h <;> omega
    have := countP_eq_zero.mp none i (mem_range.mpr hi)
    exact (Bool.not_eq_true _ ▸ this).symm

theorem byteWidth_eq {t : TypeId} (h : t ≠ .FixedSizeBinary) (a b : Int) :
    byteWidth t a = byteWidth t b := by
  cases t <;> first | rfl | exact absurd rfl h

/-- The data of values of one width are as long as the type says. -/
theorem bufferBytes_eq (h : s.Leaf) (some : byteWidth s.type (-1) ≠ none) :
    bufferBytes s.type s.length = s.data.length := by
  unfold bufferBytes
  split
  · rename_i bool
    rw [h.bits bool, bitmapSize_eq h]
  · rename_i bool
    obtain ⟨width, hw⟩ := Option.ne_none_iff_exists'.mp some
    have other : s.type ≠ .FixedSizeBinary := by
      intro fixed
      rw [fixed] at hw
      cases hw
    rw [hw, h.fixed bool width (by rw [byteWidth_eq other _ (-1)]; exact hw)]
    rfl

theorem value_fixed (type : t.type = s.type) (size : t.fixedSize = s.fixedSize)
    (data : t.data = s.data) (some : byteWidth s.type s.fixedSize ≠ none) (i : Nat) :
    t.value i = s.value i := by
  obtain ⟨width, hw⟩ := Option.ne_none_iff_exists'.mp some
  unfold value
  rw [type, size, data, hw]

/-- Reading so many bytes as the data have. -/
theorem reads_data {data : Bytes} {size : Int} (h : size = data.length)
    (addressable : (data.length : Int) < 2 ^ 63) :
    Reads (takeBytes (sizeT size)) .truncated (data.take size.toNat) data := by
  subst h
  rw [Int.toNat_natCast, take_length]
  refine reads_take ?_
  rw [sizeT_eq (by omega) (by omega), Int.toNat_natCast]

section Offsets

variable {offsets : List Int} {n bound : Int} {data : Bytes}

section

variable (h : Offsets offsets n bound data)

include h

theorem Offsets.getD_mem {i : Nat} (hi : i ≤ n.toNat)
    (nonneg : 0 ≤ n) : offsets.getD i 0 ∈ offsets := by
  have length := h.length
  have inside : i < offsets.length := by omega
  rw [getD_eq_getElem?_getD, getElem?_eq_getElem inside]
  exact getElem_mem inside

/-- No offset is past the last one. -/
theorem Offsets.getD_le {i : Nat} (hi : i ≤ n.toNat)
    (nonneg : 0 ≤ n) : offsets.getD i 0 ≤ offsets.getD n.toNat 0 := by
  have length := h.length
  have inside : i < offsets.length := by omega
  have last : n.toNat < offsets.length := by omega
  rw [getD_eq_getElem?_getD, getElem?_eq_getElem inside, getD_eq_getElem?_getD,
    getElem?_eq_getElem last]
  rcases Nat.lt_or_eq_of_le hi with before | same
  · exact pairwise_iff_getElem.mp h.grow i n.toNat inside last before
  · subst same
    exact le_rfl

section

variable (nonneg : 0 ≤ n)

include nonneg

/-- The last offset says how many bytes there are, also without rows. -/
theorem Offsets.nbytes_eq :
    (if 0 < n then offsets.getD n.toNat 0 else 0) = offsets.getD n.toNat 0 := by
  split
  · rfl
  · exact (h.empty (by omega) _ (h.getD_mem le_rfl nonneg)).symm

/-- A row of byte strings does not depend on what follows the last of them. -/
theorem Offsets.row_take {i : Nat}
    (hi : i < n.toNat) :
    ((data.take (offsets.getD n.toNat 0).toNat).drop (offsets.getD i 0).toNat).take
        ((offsets.getD (i + 1) 0).toNat - (offsets.getD i 0).toNat) =
      (data.drop (offsets.getD i 0).toNat).take
        ((offsets.getD (i + 1) 0).toNat - (offsets.getD i 0).toNat) := by
  have within := h.getD_le (i := i + 1) (by omega) nonneg
  rw [drop_take, take_take]
  congr 1
  omega

/-- A byte string that is written, as its parts. -/
theorem Offsets.putVarwidth_eq (width : Nat) :
    putVarwidth width n offsets data =
      putPod 8 (offsets.getD n.toNat 0) ++ (offsets.flatMap (putPod width) ++
        data.take (offsets.getD n.toNat 0).toNat) := by
  unfold putVarwidth
  rw [h.nbytes_eq nonneg, append_assoc]

/-- The last offset is the length of what is written of the data. -/
theorem Offsets.length_take :
    (data.take (offsets.getD n.toNat 0).toNat).length = (offsets.getD n.toNat 0).toNat := by
  have inside := h.inside _ (h.getD_mem le_rfl nonneg)
  rw [List.length_take]
  omega

/-- Byte strings are read as they are written. -/
theorem Offsets.reads {width : Nat}
    (narrow : width ≤ 8) (fits : ∀ o ∈ offsets, Fits width o) (last : ∀ o ∈ offsets, Fits 8 o)
    (make : List Int → Bytes → Reading SeriesData) {t : SeriesData}
    (ht : make offsets (data.take (offsets.getD n.toNat 0).toNat) = pure t) :
    Reads (do
      let nbytes ← getPod 8
      let bytes ← takeBytes (sizeT ((n + 1) * width))
      let data ← takeBytes (sizeT nbytes)
      make (pods width (n + 1).toNat bytes) data) .truncated
      (putVarwidth width n offsets data) t := by
  have length := h.length
  have addressable := h.addressable
  have mem := h.getD_mem le_rfl nonneg
  have positive := h.nonneg _ mem
  have below : (n + 1) * width ≤ (n + 1) * 8 := by
    exact Int.mul_le_mul_of_nonneg_left (by omega) (by omega)
  have total : 0 ≤ (n + 1) * (width : Int) := Int.mul_nonneg (by omega) (by omega)
  have size : sizeT ((n + 1) * width) = width * offsets.length := by
    rw [sizeT_eq total (by omega), ← length]
    rw [← Nat.cast_mul, Int.toNat_natCast, Nat.mul_comm]
  have rows : (n + 1).toNat = offsets.length := by omega
  rw [h.putVarwidth_eq nonneg]
  refine (reads_getPod (last _ mem)).bind ?_
  refine (reads_take (by rw [length_flatMap_putPod, size])).bind ?_
  rw [rows, pods_flatMap fits]
  have small : offsets.getD n.toNat 0 < 2 ^ 63 := by
    have := (last _ mem).2
    omega
  have read : Reads (takeBytes (sizeT (offsets.getD n.toNat 0))) .truncated
      (data.take (offsets.getD n.toNat 0).toNat) (data.take (offsets.getD n.toNat 0).toNat) :=
    reads_take (by rw [h.length_take nonneg, sizeT_eq positive (by omega)])
  have made := read.bind (k := make offsets) (by rw [ht]; exact Reads.pure t)
  rwa [append_nil] at made

end

end

end Offsets

/-! ## Whole columns -/

section Families

/-- What comes back of a column. -/
def Returns (s : SeriesData) (reading : Reading SeriesData) : Prop :=
  ∃ t, Reads reading .truncated s.putBuffers t ∧ Kept s t

section

variable (h : s.Leaf)

include h

theorem returns_decimal (decimal : s.type.isDecimal) :
    Returns s (getDecimal s.type s.length s.nullCount s.keptValidity) := by
  have some (width : Int) : byteWidth s.type width ≠ none := by
    rcases decimal with h | h <;> rw [h] <;> exact Option.some_ne_none _
  have other : s.type ≠ .FixedSizeBinary := by
    rcases decimal with h | h <;> rw [h] <;> decide
  have data := reads_data (bufferBytes_eq h (some _)) h.addressable
  unfold Returns putBuffers getDecimal
  rw [if_pos decimal]
  refine ⟨_, (reads_getPod (fits_four h.precision)).bind
    ((reads_getPod (fits_four h.scale)).bind (data.then _)), ?_⟩
  exact {
    type := rfl
    length := rfl
    fixedSize := (h.size other).symm
    decimalPrecision := rfl
    decimalScale := rfl
    timeUnit := rfl
    timezone := rfl
    validity := rfl
    value := by
      intro i _
      refine value_fixed ?_ ?_ ?_ (some _) i
      · rfl
      · exact (h.size other).symm
      · rfl }

theorem returns_fixedSizeBinary (fixed : s.type = .FixedSizeBinary) :
    Returns s (getFixedSizeBinary s.type s.length s.nullCount s.keptValidity) := by
  have plain : ¬ s.type.isDecimal := by
    rw [fixed]
    decide
  have width : byteWidth s.type s.fixedSize = some s.fixedSize.toNat := by
    rw [fixed]
    exact if_pos h.width.1
  have size : s.length * s.fixedSize = s.data.length := by
    rw [h.fixed (by rw [fixed]; decide) _ width, Int.toNat_of_nonneg h.width.1]
  have data := reads_data size h.addressable
  unfold Returns putBuffers getFixedSizeBinary
  rw [if_neg plain, if_pos fixed]
  have parameter : Fits 4 s.fixedSize := fits_four ⟨by have := h.width.1; omega, h.width.2⟩
  refine ⟨_, (reads_getPod parameter).bind (data.then _), ?_⟩
  exact {
    type := rfl
    length := rfl
    fixedSize := rfl
    decimalPrecision := (h.decimal plain).1.symm
    decimalScale := (h.decimal plain).2.symm
    timeUnit := rfl
    timezone := rfl
    validity := rfl
    value := by
      intro i _
      refine value_fixed ?_ ?_ ?_ (by rw [width]; exact Option.some_ne_none _) i
      · rfl
      · rfl
      · rfl }

theorem returns_wide (wide : isWideOffsetType s.type) :
    Returns s (getWide s.type s.length s.nullCount s.keptValidity) := by
  have offsets := h.wide wide
  have fits : ∀ o ∈ s.offsets64, Fits 8 o := fun o ho =>
    fits_eight (offsets.nonneg o ho) (offsets.bounded o ho)
  have family : ¬ s.type.isDecimal ∧ s.type ≠ .FixedSizeBinary ∧ s.type ≠ .Bool ∧
      ∀ size, byteWidth s.type size = none := by
    revert wide
    cases s.type <;> simp [isWideOffsetType, TypeId.isDecimal, byteWidth]
  obtain ⟨plain, other, bool, varwidth⟩ := family
  unfold Returns putBuffers
  rw [if_neg plain, if_neg other, if_pos wide]
  refine ⟨_, offsets.reads h.nonneg le_rfl fits fits (fun offsets64 data =>
    pure (SeriesData.withNulls { type := s.type, length := s.length, data, offsets64 }
      s.keptValidity s.nullCount)) rfl, ?_⟩
  exact {
    type := rfl
    length := rfl
    fixedSize := (h.size other).symm
    decimalPrecision := (h.decimal plain).1.symm
    decimalScale := (h.decimal plain).2.symm
    timeUnit := rfl
    timezone := rfl
    validity := rfl
    value := fun i hi => by
      have row := offsets.row_take h.nonneg hi
      unfold value offsetsOf SeriesData.withNulls
      simp only [if_neg bool, varwidth, if_pos wide]
      exact row }

section

variable (plain : ¬ s.type.isDecimal) (other : s.type ≠ .FixedSizeBinary) (short : ¬ isWideOffsetType s.type)

include plain other short

theorem returns_narrow (varwidth : byteWidth s.type (-1) = none) :
    Returns s (getNarrow s.type s.length s.keptValidity) := by
  have narrow : s.type = .String ∨ s.type = .Binary := by
    have known := h.known
    have leaf := h.leaf
    revert plain other short varwidth known leaf
    cases s.type <;> simp [isWideOffsetType, TypeId.isDecimal, byteWidth, TypeId.isNested]
  have bool : s.type ≠ .Bool := by
    rcases narrow with h | h <;> rw [h] <;> decide
  have offsets := h.narrow narrow
  have fits : ∀ o ∈ s.offsets, Fits 4 o := fun o ho =>
    fits_four ⟨by have := offsets.nonneg o ho; omega, offsets.bounded o ho⟩
  have last : ∀ o ∈ s.offsets, Fits 8 o := fun o ho =>
    fits_eight (offsets.nonneg o ho) (by have := offsets.bounded o ho; omega)
  have long := offsets.length_take h.nonneg
  have built : seriesNewString s.type s.offsets
      (s.data.take (s.offsets.getD s.length.toNat 0).toNat) s.length s.keptValidity = .ok (SeriesData.withValidity
        { type := s.type
          length := s.length
          offsets := s.offsets
          data := s.data.take (s.offsets.getD s.length.toNat 0).toNat } s.keptValidity) := by
    unfold seriesNewString
    rw [if_neg (by rcases narrow with h | h <;> simp [h]), if_neg (by omega),
      take_of_length_le]
    exact long.le
  unfold Returns putBuffers
  rw [if_neg plain, if_neg other, if_neg short, if_pos varwidth]
  refine ⟨_, offsets.reads h.nonneg (by decide) fits last (fun offsets data =>
    liftM (seriesNewString s.type offsets data s.length s.keptValidity)) (by rw [built]; rfl), ?_⟩
  exact {
    type := rfl
    length := rfl
    fixedSize := (h.size other).symm
    decimalPrecision := (h.decimal plain).1.symm
    decimalScale := (h.decimal plain).2.symm
    timeUnit := rfl
    timezone := rfl
    validity := rfl
    value := fun i hi => by
      have row := offsets.row_take h.nonneg hi
      unfold value offsetsOf SeriesData.withValidity
      simp only [if_neg bool, byteWidth_eq other _ (-1), varwidth, if_neg short]
      exact row }

theorem returns_flat (some : byteWidth s.type (-1) ≠ none) :
    Returns s (getFlat s.type s.length s.keptValidity) := by
  have data := reads_data (bufferBytes_eq h some) h.addressable
  unfold Returns putBuffers getFlat
  rw [if_neg plain, if_neg other, if_neg short, if_neg some]
  refine ⟨_, data.then _, ?_⟩
  exact {
    type := rfl
    length := rfl
    fixedSize := (h.size other).symm
    decimalPrecision := (h.decimal plain).1.symm
    decimalScale := (h.decimal plain).2.symm
    timeUnit := rfl
    timezone := rfl
    validity := rfl
    value := by
      intro i _
      refine value_fixed ?_ ?_ ?_ (by rwa [byteWidth_eq other _ (-1)]) i
      · rfl
      · exact (h.size other).symm
      · rfl }

end

theorem returns_buffers :
    Returns s (getBuffers s.type s.length s.nullCount s.keptValidity) := by
  unfold getBuffers
  by_cases decimal : s.type.isDecimal
  · rw [if_pos decimal]
    exact returns_decimal h decimal
  rw [if_neg decimal]
  by_cases fixed : s.type = .FixedSizeBinary
  · rw [if_pos fixed]
    exact returns_fixedSizeBinary h fixed
  rw [if_neg fixed]
  by_cases wide : isWideOffsetType s.type
  · rw [if_pos wide]
    exact returns_wide h wide
  rw [if_neg wide]
  by_cases varwidth : byteWidth s.type (-1) = none
  · rw [if_pos varwidth]
    exact returns_narrow h decimal fixed wide varwidth
  · rw [if_neg varwidth]
    exact returns_flat h decimal fixed wide varwidth

end

end Families

/-- A column is read from exactly the bytes that it is written as. -/
theorem returns_series (h : s.Leaf) :
    ∃ t, Reads getSeries .truncated (s.putHeader ++ s.putBuffers) t ∧ Kept s t := by
  obtain ⟨t, reads, kept⟩ := returns_buffers h
  refine ⟨t, ?_, kept⟩
  have nullCount : 0 ≤ s.nullCount ∧ s.nullCount ≤ s.length := by
    have nonneg := h.nonneg
    rcases h.counted with counted | counted
    · omega
    · have few : s.nulls ≤ _ := countP_le_length
      rw [length_range] at few
      omega
  have type : Fits 4 (typeCode s.type) := fits_four (by cases s.type <;> decide)
  have validity : Reads (getValidity s.length s.nullCount) .truncated
      (if 0 < s.nullCount then validityBitmap s else []) s.keptValidity := by
    unfold keptValidity getValidity
    split
    · refine (reads_take ?_).map some
      have size := bitmapSize_eq h
      have length := h.length
      rw [length_validityBitmap h, sizeT_eq (bitmapSize_nonneg h) (by omega)]
    · exact Reads.pure none
  refine (reads_getPod type).bind ?_
  refine (reads_getPod (fits_eight h.nonneg h.length)).bind ?_
  refine (reads_getPod (fits_eight nullCount.1 (lt_of_le_of_lt nullCount.2 h.length))).bind ?_
  refine validity.bind ?_
  rw [typeOfCode_typeCode]
  exact reads

/-- A column that comes back unchanged, from exactly the bytes that were written. -/
def ComesBack (s : SeriesData) : Prop :=
  ∃ bytes t, s.putSeries = .ok bytes ∧ Reads getSeries .truncated bytes t ∧ Same t s

/-- A column that is kept is the same when its unit, its zone and its nulls are. -/
theorem Kept.same_iff (h : s.Leaf) (kept : Kept s t) :
    Same t s ↔ s.timeUnit = .Micro ∧ s.timezone = "" ∧ (s.nullCount = 0 → s.nulls = 0) := by
  constructor
  · intro same
    refine ⟨same.timeUnit.symm.trans kept.timeUnit, same.timezone.symm.trans kept.timezone, ?_⟩
    intro zero
    have cells := congrArg Series.cells same.series
    have none : t.validity = none := kept.validity.trans (if_neg (by omega))
    refine countP_eq_zero.mpr fun i hi null => ?_
    have present : t.cell i = s.cell i := by
      unfold series at cells
      rw [kept.length] at cells
      exact map_inj_left.mp cells i hi
    unfold cell isNull at present
    rw [none] at present
    unfold isNull at null
    rw [if_pos null] at present
    cases present
  · rintro ⟨unit, zone, counted⟩
    refine ⟨?_, kept.timeUnit.trans unit.symm, kept.timezone.trans zone.symm,
      kept.decimalPrecision, kept.decimalScale⟩
    have cells :
        (List.range s.length.toNat).map t.cell = (List.range s.length.toNat).map s.cell := by
      apply map_congr_left
      intro i hi
      have inside := mem_range.mp hi
      have null : t.isNull i = s.isNull i := by
        unfold isNull
        rw [kept.validity]
        exact isNull_kept h counted inside
      unfold cell
      rw [null, kept.value i inside]
    unfold series
    rw [kept.type, kept.fixedSize, kept.length, cells]

/-- A column that comes back has the unit and the zone that every column comes back with, and
no nulls that are not counted. -/
theorem ComesBack.plain (h : s.Leaf) (back : ComesBack s) :
    s.timeUnit = .Micro ∧ s.timezone = "" ∧ (s.nullCount = 0 → s.nulls = 0) := by
  obtain ⟨bytes, t, put, reads, same⟩ := back
  obtain ⟨t', reads', kept⟩ := returns_series h
  unfold putSeries at put
  rw [if_neg h.leaf] at put
  cases put
  have once := (reads.whole []).symm.trans (reads'.whole [])
  cases once
  exact (kept.same_iff h).mp same

end SeriesData

/-- A column comes back unchanged when its times count in microseconds and have no zone, and
when its nulls are counted. -/
theorem comesBack_iff (s : LeafSeries) : s.val.ComesBack ↔
    s.val.timeUnit = .Micro ∧ s.val.timezone = "" ∧ (s.val.nullCount = 0 → s.val.nulls = 0) := by
  constructor
  · exact SeriesData.ComesBack.plain s.property
  · intro condition
    obtain ⟨t, reads, kept⟩ := SeriesData.returns_series s.property
    exact ⟨_, t, if_neg s.property.leaf, reads, (kept.same_iff s.property).mpr condition⟩

/-- One time in nanoseconds. -/
def nanoseconds : SeriesData where
  type := .Timestamp
  length := 1
  data := [1, 0, 0, 0, 0, 0, 0, 0]
  timeUnit := .Nano

theorem nanoseconds_leaf : nanoseconds.Leaf where
  known := by decide
  addressable := by decide
  leaf := by decide
  nonneg := by decide
  length := by decide
  bitmap := by
    rintro bits ⟨⟩
  counted := .inl rfl
  unit plain := absurd (Or.inl rfl) plain
  zone _ := rfl
  decimal _ := ⟨rfl, rfl⟩
  precision := by decide
  scale := by decide
  size _ := rfl
  width := by decide
  bits bool := by cases bool
  fixed := by
    rintro _ width ⟨⟩
    rfl
  narrow varwidth := by rcases varwidth with h | h <;> cases h
  wide varwidth := by cases varwidth

/-- A time in nanoseconds comes back in microseconds. -/
theorem nanoseconds_not_comesBack : ∃ s : LeafSeries, ¬ s.val.ComesBack := by
  refine ⟨⟨nanoseconds, nanoseconds_leaf⟩, fun back => ?_⟩
  have unit := (back.plain nanoseconds_leaf).1
  cases unit

end DFTracer.Frames
