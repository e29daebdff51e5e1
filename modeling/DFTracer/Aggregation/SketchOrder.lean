/-
# A careful history shows in nothing but its keys

Along a history whose keys are all taken a sketch follows from the multiset of what was
added: its counts, its extreme values and its bins.
-/

import DFTracer.Aggregation.SketchMerge

namespace DFTracer.Aggregation

open Math.WeightedKeys Math.Float64 DDSketch List

namespace DDSketch

variable {s o : DDSketch} {keys keys' : Keys}

/-- What counting into bins leaves alone. -/
def tallies (s : DDSketch) : Float × Float × Float × UInt64 × UInt64 :=
  (s.gamma, s.minValue, s.maxValue, s.count, s.zeroCount)

section Tallies

variable (s o) (k : Int) (weight : UInt32)

@[simp] theorem collapseToFit_tallies : (s.collapseToFit k).tallies = s.tallies := by
  unfold collapseToFit
  dsimp only
  split <;> simp only [tallies]

@[simp] theorem addToBin_tallies : (s.addToBin k weight).tallies = s.tallies := by
  unfold addToBin
  split
  · simp only [tallies]
  split
  · simp only [tallies]
  split
  · split
    · have h := s.collapseToFit_tallies k
      simp only [tallies] at h ⊢
      exact h
    · simp only [tallies]
  split
  · simp only [tallies]
  split
  · simp only [tallies]
  · simp only [tallies]

@[simp] theorem mergeBin_tallies : (o.mergeBin s k).tallies = s.tallies := by
  unfold mergeBin
  split
  · dsimp only
    split
    · simp only
    split <;> simp only [tallies]
  · simp only

@[simp] theorem foldl_mergeBin_tallies (ks : List Int) :
    (ks.foldl (mergeBin o) s).tallies = s.tallies := by
  induction ks generalizing s with
  | nil => rfl
  | cons k ks ih => rw [foldl_cons, ih, mergeBin_tallies]

@[simp] theorem lowerTo_tallies : (s.lowerTo k).tallies = s.tallies := by
  unfold lowerTo
  split <;> simp only [tallies]

@[simp] theorem raiseTo_tallies : (s.raiseTo k).tallies = s.tallies := by
  unfold raiseTo
  split <;> simp only [tallies]

@[simp] theorem makeRoom_tallies : (s.makeRoom o).tallies = s.tallies := by
  unfold makeRoom
  rw [raiseTo_tallies, lowerTo_tallies]
  split
  · simp only
  · exact collapseToFit_tallies s _

/-- Merging takes over the counts and the extreme values of a sketch with values. -/
theorem merge_tallies (counted : o.count ≠ 0) : (s.merge o).tallies = (s.takeOver o).tallies := by
  by_cases ho : o.initialized = true
  · by_cases hs : s.initialized = true
    · rw [merge_initialized hs ho counted, foldl_mergeBin_tallies, makeRoom_tallies]
    · unfold merge
      rw [if_neg counted]
      rw [if_neg (by simp [ho]), if_pos (by simpa using hs)]
      rfl
  · unfold merge
    rw [if_neg counted]
    rw [if_pos (by simpa using ho)]
    rfl

end Tallies

/-! ## One step -/

section

variable (represents : Represents s keys)

include represents

theorem Represents.tallies {t : DDSketch}
    (same : t = { s with
      gamma := t.gamma, logGamma := t.logGamma, minValue := t.minValue, maxValue := t.maxValue
      count := t.count, zeroCount := t.zeroCount }) : Represents t keys := by
  rw [same]
  cases represents with
  | empty uninitialized collapsed bins => exact .empty uninitialized collapsed bins
  | keys canonical => exact .keys { canonical with }

theorem Represents.addToBin {key : Int} {weight : UInt32}
    (absorbs : s.initialized = true → Absorbs s key)
    (small : total (keys ++ [(key, weight.toNat)]) < 2 ^ 32) :
    Represents (s.addToBin key weight) (keys ++ [(key, weight.toNat)]) := by
  apply Represents.keys
  cases represents with
  | empty uninitialized collapsed bins =>
    unfold DDSketch.addToBin
    rw [if_pos (by simp [uninitialized])]
    exact Canonical.single (bins.start key weight) rfl rfl rfl rfl rfl collapsed
  | keys canonical => exact canonical.addToBin (absorbs canonical.initialized) small

theorem Represents.takeOver : Represents (s.takeOver o) keys :=
  represents.tallies rfl

end

theorem Represents.merge (hs : Represents s keys) (ho : Represents o keys')
    (counted : o.count ≠ 0) (small : total (keys ++ keys') < 2 ^ 32) :
    Represents (s.merge o) (keys ++ keys') := by
  cases ho with
  | empty uninitialized collapsed bins =>
    unfold DDSketch.merge
    rw [if_neg counted]
    rw [if_pos (by simp [uninitialized]), append_nil]
    exact hs.takeOver
  | keys ho =>
    cases hs with
    | empty uninitialized collapsed bins =>
      unfold DDSketch.merge
      rw [if_neg counted]
      rw [if_neg (by simp [ho.initialized]), if_pos (by simp [uninitialized])]
      exact .keys { ho with }
    | keys hs => exact .keys (hs.merge ho counted small)

end DDSketch

/-- The counts and the extreme values are those of what was added. -/
structure Tallied (accuracy : Float) (s : DDSketch) (l : List Added) : Prop where
  gamma : s.gamma = (DDSketch.new accuracy).gamma
  count : s.count.toNat = totalOf l
  zeroCount : s.zeroCount.toNat = zerosOf l
  least : Extreme floatRank (1.0 / 0.0) s.minValue (l.map Added.value)
  greatest : Extreme (fun v => -floatRank v) (-1.0 / 0.0) s.maxValue (l.map Added.value)

/-- The sketch follows from what was added. -/
structure Follows (accuracy : Float) (s : DDSketch) (l : List Added) : Prop extends
    Tallied accuracy s l where
  represents : Represents s (keysOf l)

section Follows

variable {accuracy : Float} {s o : DDSketch} {l l' : List Added}

theorem Tallied.congr {t : DDSketch} (h : Tallied accuracy t l) (same : s.tallies = t.tallies) :
    Tallied accuracy s l := by
  simp only [tallies, Prod.mk.injEq] at same
  obtain ⟨gamma, minValue, maxValue, count, zeroCount⟩ := same
  exact {
    gamma := gamma ▸ h.gamma
    count := count ▸ h.count
    zeroCount := zeroCount ▸ h.zeroCount
    least := minValue ▸ h.least
    greatest := maxValue ▸ h.greatest }

theorem Follows.new : Follows accuracy (.new accuracy) [] where
  gamma := rfl
  count := rfl
  zeroCount := rfl
  least := .nil (by decide +kernel)
  greatest := .nil (by decide +kernel)
  represents := .empty rfl rfl fun i h => toNat_replicate h

theorem float_gt_iff (a b : Float) :
    a > b ↔ a.isNaN = false ∧ b.isNaN = false ∧ -floatRank a < -floatRank b := by
  rw [gt_iff_lt, float_lt_iff, Int.neg_lt_neg_iff]
  exact and_left_comm

theorem toNat_add_count {c d : UInt64} {m n : Nat} (hc : c.toNat = m) (hd : d.toNat = n)
    (small : m + n < 2 ^ 32) : (c + d).toNat = m + n := by
  rw [UInt64.toNat_add]
  omega

theorem totalOf_singleton (a : Added) : totalOf [a] = (atLeastOnce a.weight).toNat := rfl

theorem zerosOf_singleton (a : Added) :
    zerosOf [a] = if a.key = SKETCH_ZERO_KEY then (atLeastOnce a.weight).toNat else 0 := by
  rfl

theorem Follows.addKey (h : Follows accuracy s l) (a : Added)
    (takes : a.key ≠ SKETCH_ZERO_KEY → s.Takes a.key.toInt)
    (small : totalOf (l ++ [a]) < 2 ^ 32) :
    Follows accuracy (s.addKey a.key a.value a.weight) (l ++ [a]) := by
  have bound : totalOf l + (atLeastOnce a.weight).toNat < 2 ^ 32 := by
    rwa [totalOf_append, totalOf_singleton] at small
  have zeros := zerosOf_add_keysOf l
  have least : Extreme floatRank (1.0 / 0.0)
      (if a.value < s.minValue then a.value else s.minValue) ((l ++ [a]).map Added.value) := by
    rw [map_append]
    exact h.least.insert (float_lt_iff a.value s.minValue)
  have greatest : Extreme (fun v => -floatRank v) (-1.0 / 0.0)
      (if a.value > s.maxValue then a.value else s.maxValue) ((l ++ [a]).map Added.value) := by
    rw [map_append]
    exact h.greatest.insert (float_gt_iff a.value s.maxValue)
  have count : (s.count + (atLeastOnce a.weight).toUInt64).toNat = totalOf (l ++ [a]) := by
    rw [totalOf_append]
    exact toNat_add_count h.count rfl bound
  unfold DDSketch.addKey
  by_cases zero : a.key = SKETCH_ZERO_KEY
  · rw [if_pos zero]
    exact {
      gamma := h.gamma
      count
      zeroCount := by
        rw [zerosOf_append, zerosOf_singleton, if_pos zero]
        exact toNat_add_count h.zeroCount rfl (by omega)
      least
      greatest
      represents := by
        rw [keysOf_append, keysOf_singleton, if_pos zero, append_nil]
        exact h.represents.tallies rfl }
  · rw [if_neg zero]
    exact {
      toTallied := by
        apply Tallied.congr _ (addToBin_tallies _ _ _)
        exact {
          gamma := h.gamma
          count
          zeroCount := by
            rw [zerosOf_append, zerosOf_singleton, if_neg zero]
            exact h.zeroCount
          least
          greatest }
      represents := by
        have kept := total_keysOf_le (l ++ [a])
        rw [keysOf_append, keysOf_singleton, if_neg zero] at kept ⊢
        apply Represents.addToBin (h.represents.tallies rfl)
        · exact fun hs => (takes zero hs).1
        · exact Nat.lt_of_le_of_lt kept small }

theorem Follows.merge (h : Follows accuracy s l) (ho : Follows accuracy o l')
    (small : totalOf (l ++ l') < 2 ^ 32) : Follows accuracy (s.merge o) (l ++ l') := by
  have bound : totalOf l + totalOf l' < 2 ^ 32 := by rwa [totalOf_append] at small
  by_cases counted : o.count = 0
  · have none : l' = [] := by
      apply eq_nil_of_totalOf
      rw [← ho.count, counted]
      rfl
    rw [none, append_nil]
    unfold DDSketch.merge
    rw [if_pos counted]
    exact h
  · exact {
      toTallied := by
        apply Tallied.congr _ (merge_tallies s o counted)
        exact {
          gamma := h.gamma
          count := by
            rw [totalOf_append]
            exact toNat_add_count h.count ho.count bound
          zeroCount := by
            have zeros := zerosOf_add_keysOf l
            have zeros' := zerosOf_add_keysOf l'
            rw [zerosOf_append]
            exact toNat_add_count h.zeroCount ho.zeroCount (by omega)
          least := by
            rw [map_append]
            exact h.least.merge ho.least (float_lt_iff o.minValue s.minValue)
          greatest := by
            rw [map_append]
            exact h.greatest.merge ho.greatest (float_gt_iff o.maxValue s.maxValue) }
      represents := by
        have kept := total_keysOf_le (l ++ l')
        rw [keysOf_append] at kept ⊢
        exact h.represents.merge ho.represents counted (Nat.lt_of_le_of_lt kept small) }

/-- A careful history shows in nothing but what was added. -/
theorem History.Careful.follows {h : History} (careful : h.Careful accuracy)
    (small : totalOf h.added < 2 ^ 32) : Follows accuracy (h.run accuracy) h.added := by
  induction h with
  | new => exact .new
  | addKey h a ih =>
    have bound : totalOf h.added < 2 ^ 32 := by
      rw [History.added, totalOf_append] at small
      omega
    exact (ih careful.1 bound).addKey a careful.2 small
  | merge h other ih ihOther =>
    have bound : totalOf h.added + totalOf other.added < 2 ^ 32 := by
      rwa [History.added, totalOf_append] at small
    exact (ih careful.1 (by omega)).merge (ihOther careful.2.1 (by omega)) small

end Follows

end DFTracer.Aggregation
