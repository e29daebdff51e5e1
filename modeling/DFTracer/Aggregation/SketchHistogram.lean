/-
# The collapsed histogram

The bins of a careful history: above the reach of the store below the largest key each key
has its own count, and all lower keys count in the lowest bin. A key far below a sketch that
does not use all its bins is counted in the bin of another key instead.
-/

import DFTracer.Aggregation.SketchOrder

namespace DFTracer.Aggregation

open Math.WeightedKeys Math.Float64 DDSketch

/-- The largest key. -/
def Largest (keys : Keys) (K : Int) : Prop := (∃ e ∈ keys, e.1 = K) ∧ ∀ e ∈ keys, e.1 ≤ K

theorem Largest.perm {keys keys' : Keys} {K : Int} (h : Largest keys K)
    (same : keys.Perm keys') : Largest keys' K := by
  obtain ⟨⟨e, he, htop⟩, hmax⟩ := h
  exact ⟨⟨e, same.mem_iff.mp he, htop⟩, fun e he => hmax e (same.mem_iff.mpr he)⟩

/-- The bins are the collapsed histogram of what was added. -/
structure Histogram (s : DDSketch) (l : List Added) : Prop where
  own : ∀ K, Largest (keysOf l) K → ∀ k, K - MAX_BINS + 1 < k →
    s.binAt k = weigh (fun key => key = k) (keysOf l)
  lowest : ∀ K, Largest (keysOf l) K →
    s.binAt (K - MAX_BINS + 1) = weigh (fun key => key ≤ K - MAX_BINS + 1) (keysOf l)
  nothing : ∀ K, Largest (keysOf l) K → ∀ k, k < K - MAX_BINS + 1 → s.binAt k = 0
  zeros : s.zeroCount.toNat = zerosOf l
  sum : s.zeroCount.toNat + s.binSum = s.count.toNat

/-- The same double, or the two zeros. -/
def Alike (a b : Float) : Prop := a = b ∨ (a == b) = true

namespace DDSketch

variable {s t : DDSketch} {keys keys' : Keys}

section

variable (canonical : Canonical s keys)

include canonical

theorem Canonical.binAt_eq (k : Int)
    (reach : s.maxKey - MAX_BINS + 1 ≤ k) :
    s.binAt k = binned (s.maxKey - MAX_BINS + 1) keys k := by
  have numBins := canonical.numBins
  have offset := canonical.offset
  have fits := canonical.fits
  unfold DDSketch.binAt
  split
  · next inside =>
      rw [canonical.bins.getD (by omega) (by omega)]
      apply weigh_congr
      intro e he
      rcases canonical.full_or_exact with full | exact
      · omega
      · have := exact e he
        omega
  · next outside =>
      have outside : k < s.minKey ∨ s.maxKey < k := by
        by_contra inside
        exact outside ⟨canonical.initialized, by omega, by omega⟩
      have : (MAX_BINS : Int) = 128 := rfl
      symm
      apply weigh_eq_zero
      intro e he
      have := canonical.below e he
      rcases canonical.full_or_exact with full | exact
      · omega
      · have := exact e he
        omega

theorem Canonical.binAt_eq_zero {k : Int}
    (below : k < s.maxKey - MAX_BINS + 1) : s.binAt k = 0 := by
  have numBins := canonical.numBins
  have offset := canonical.offset
  have fits := canonical.fits
  unfold DDSketch.binAt
  rw [if_neg]
  intro inside
  omega

theorem Canonical.binSum_eq : s.binSum = total keys := by
  have sum := canonical.bins.binTotal MAX_BINS (Nat.le_refl _)
  have numBins := canonical.numBins
  have fits := canonical.fits
  have ordered := canonical.ordered
  rw [List.take_of_length_le (by rw [Vector.length_toList])] at sum
  unfold DDSketch.binSum
  rw [sum]
  apply weigh_eq_total
  intro e he
  have := canonical.below e he
  omega

theorem Canonical.maxKey_eq {K : Int} (largest : Largest keys K) :
    s.maxKey = K := by
  obtain ⟨e, he, htop⟩ := canonical.largest
  obtain ⟨⟨e', he', htop'⟩, hmax⟩ := largest
  have := canonical.below e' he'
  have := hmax e he
  omega

theorem Canonical.largest_maxKey : Largest keys s.maxKey :=
  ⟨canonical.largest, canonical.below⟩

end

section

variable (hs : Canonical s keys) (ht : Canonical t keys') (same : keys.Perm keys')

include hs ht same

theorem Canonical.minKey_le : s.minKey ≤ t.minKey := by
  have top := hs.maxKey_eq (ht.largest_maxKey.perm same.symm)
  have numBins := ht.numBins
  have fits := ht.fits
  rcases hs.full_or_exact with full | exact
  · omega
  · obtain ⟨e, he, low⟩ := ht.lowest
    have := exact e (same.mem_iff.mpr he)
    omega

/-- Canonical sketches of the same keys have the same bins. -/
theorem Canonical.bins_eq :
    s.store = t.store ∧ s.offset = t.offset ∧ s.numBins = t.numBins := by
  have top := hs.maxKey_eq (ht.largest_maxKey.perm same.symm)
  have low : s.minKey = t.minKey :=
    Int.le_antisymm (hs.minKey_le ht same) (ht.minKey_le hs same.symm)
  refine ⟨?_, ?_, ?_⟩
  · apply Vector.ext
    intro i h
    rw [← UInt32.toNat_inj, hs.bins i h, ht.bins i h, low]
    exact weigh_perm same
  · rw [hs.offset, ht.offset, low]
  · rw [hs.numBins, ht.numBins, top, low]

end

/-- The scan of equal bins. -/
theorem scanBins_alike (store : s.store = t.store) (offset : s.offset = t.offset)
    (gamma : s.gamma = t.gamma) (greatest : Alike s.maxValue t.maxValue) (targetRank : Float)
    (is : List Nat) (cumulative : Float) :
    Alike (s.scanBins targetRank is cumulative) (t.scanBins targetRank is cumulative) := by
  induction is generalizing cumulative with
  | nil => exact greatest
  | cons i is ih =>
    simp only [scanBins, store, offset, binLowerBound, binUpperBound, gamma]
    split
    · exact ih cumulative
    split
    · exact .inl rfl
    · exact ih _

end DDSketch

section Follows

variable {accuracy : Float} {s t : DDSketch} {l l' : List Added}

theorem Follows.histogram (h : Follows accuracy s l) : Histogram s l := by
  have zeros := zerosOf_add_keysOf l
  have count := h.count
  have zeroCount := h.zeroCount
  have represents := h.represents
  generalize hkeys : keysOf l = keys at represents zeros
  cases represents with
  | empty uninitialized collapsed bins =>
    have none (K : Int) : ¬ Largest (keysOf l) K := by
      rw [hkeys]
      rintro ⟨⟨e, he, _⟩, _⟩
      cases he
    have sum := bins.binTotal MAX_BINS (Nat.le_refl _)
    rw [List.take_of_length_le (by rw [Vector.length_toList])] at sum
    exact {
      own := fun K hK => absurd hK (none K)
      lowest := fun K hK => absurd hK (none K)
      nothing := fun K hK => absurd hK (none K)
      zeros := zeroCount
      sum := by
        rw [binSum, sum, zeroCount, count, ← zeros]
        rfl }
  | keys canonical =>
    exact {
      own := by
        intro K hK k above
        have top := canonical.maxKey_eq (hkeys ▸ hK)
        rw [canonical.binAt_eq k (by omega), hkeys]
        apply weigh_congr
        intro e _
        omega
      lowest := by
        intro K hK
        have top := canonical.maxKey_eq (hkeys ▸ hK)
        rw [canonical.binAt_eq _ (by omega), hkeys]
        apply weigh_congr
        intro e _
        omega
      nothing := by
        intro K hK k below
        have top := canonical.maxKey_eq (hkeys ▸ hK)
        exact canonical.binAt_eq_zero (by omega)
      zeros := zeroCount
      sum := by rw [canonical.binSum_eq, zeroCount, count, zeros] }

theorem alike_of_key {a b : Float} (ha : a.isNaN = false) (hb : b.isNaN = false)
    (h : floatRank a = floatRank b) : Alike a b :=
  .inr (float_beq_of_rank ha hb h)

/-- Sketches that follow from the same additions have the same quantiles. -/
theorem Follows.quantile_alike (hs : Follows accuracy s l) (ht : Follows accuracy t l')
    (same : l.Perm l') (q : Float) : Alike (s.quantile q) (t.quantile q) := by
  have keys : (keysOf l).Perm (keysOf l') := same.filterMap _
  have values : (l.map Added.value).Perm (l'.map Added.value) := same.map _
  have least : Alike s.minValue t.minValue :=
    alike_of_key hs.least.number ht.least.number (hs.least.key_eq ht.least values)
  have greatest : Alike s.maxValue t.maxValue := by
    have := hs.greatest.key_eq ht.greatest values
    exact alike_of_key hs.greatest.number ht.greatest.number (by omega)
  have counts : (l.map fun a => (a.key, a.count)).Perm (l'.map fun a => (a.key, a.count)) :=
    same.map _
  have count : s.count = t.count := by
    rw [← UInt64.toNat_inj, hs.count, ht.count]
    exact weigh_perm counts
  have zeroCount : s.zeroCount = t.zeroCount := by
    rw [← UInt64.toNat_inj, hs.zeroCount, ht.zeroCount]
    exact weigh_perm counts
  have gamma : s.gamma = t.gamma := hs.gamma.trans ht.gamma.symm
  simp only [DDSketch.quantile, count, zeroCount]
  split
  · exact .inl rfl
  split
  · exact least
  split
  · exact greatest
  split
  · exact .inl rfl
  have reps := hs.represents
  have rept := ht.represents
  generalize keysOf l = ks at reps keys
  generalize keysOf l' = kt at rept keys
  cases reps with
  | empty uninitialized collapsed bins =>
    have none := List.nil_perm.mp keys
    subst none
    cases rept with
    | empty uninitialized' collapsed' bins' =>
      rw [if_pos (by simp [uninitialized]), if_pos (by simp [uninitialized'])]
      exact .inl rfl
    | keys canonical =>
      obtain ⟨e, he, _⟩ := canonical.largest
      cases he
  | keys canonical =>
    cases rept with
    | empty uninitialized collapsed bins =>
      obtain ⟨e, he, _⟩ := canonical.largest
      have none := List.perm_nil.mp keys
      subst none
      cases he
    | keys canonical' =>
      obtain ⟨store, offset, numBins⟩ := canonical.bins_eq canonical' keys
      rw [if_neg (by simp [canonical.initialized]), if_neg (by simp [canonical'.initialized]),
        numBins]
      exact scanBins_alike store offset gamma greatest _ _ _

end Follows

/-- Two keys, the second far below the first. -/
def farBelow : History := .addKey (.addKey .new ⟨100, 7.0, 1⟩) ⟨-100, 0.5, 1⟩

/-- Two sketches of one key each, merged. -/
def twoKeys : History := .merge (.addKey .new ⟨100, 7.0, 1⟩) (.addKey .new ⟨40, 2.0, 3⟩)

end DFTracer.Aggregation
