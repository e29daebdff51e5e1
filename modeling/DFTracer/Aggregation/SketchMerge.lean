/-
# Merging sketches

Merging two canonical sketches makes room for the keys of both and then counts the bins of
the other sketch into those of this one. The result is canonical for the keys of both.
-/

import DFTracer.Aggregation.SketchBins
import DFTracer.Math.FloatExtremes

namespace DFTracer.Aggregation.DDSketch

open Math.WeightedKeys

/-- Bins down to a lower key. -/
def lowerTo (s : DDSketch) (mergedMin : Int) : DDSketch :=
  if mergedMin < s.minKey then
    let shift := s.minKey - mergedMin
    let store :=
      if s.numBins > 0 then moveUp s.store shift (min s.numBins (MAX_BINS - shift))
      else s.store
    { s with store, offset := mergedMin, minKey := mergedMin }
  else s

/-- Bins up to a larger key. -/
def raiseTo (s : DDSketch) (mergedMax : Int) : DDSketch :=
  let s := if mergedMax > s.maxKey then { s with maxKey := mergedMax } else s
  { s with numBins := min (s.maxKey - s.minKey + 1) MAX_BINS }

/-- Room for the bins of another sketch. -/
def makeRoom (s o : DDSketch) : DDSketch :=
  let mergedMax := max s.maxKey o.maxKey
  let fits := mergedMax - min s.minKey o.minKey + 1 ≤ MAX_BINS
  let mergedMin := if fits then min s.minKey o.minKey else mergedMax - MAX_BINS + 1
  ((if fits then s else s.collapseToFit mergedMax).lowerTo mergedMin).raiseTo mergedMax

/-- The sketch with the other one's counts and extreme values taken over. -/
def takeOver (s o : DDSketch) : DDSketch :=
  { s with
    minValue := if o.minValue < s.minValue then o.minValue else s.minValue
    maxValue := if o.maxValue > s.maxValue then o.maxValue else s.maxValue
    count := s.count + o.count
    zeroCount := s.zeroCount + o.zeroCount }

/-- The keys of the other sketch's bins. -/
def binKeys (o : DDSketch) : List Int :=
  (List.range (o.maxKey - o.minKey + 1).toNat).map fun d => o.minKey + d

section Merge

variable {s o : DDSketch} {keys keys' : Keys}

/-- Two sketches with keys are merged bin by bin. -/
theorem merge_initialized (hs : s.initialized = true) (ho : o.initialized = true)
    (counted : o.count ≠ 0) :
    s.merge o = o.binKeys.foldl (mergeBin o) ((s.takeOver o).makeRoom o) := by
  simp only [merge, if_neg counted, ho, hs, not_true_eq_false, if_false, DDSketch.makeRoom,
    lowerTo, raiseTo, takeOver, binKeys]

section Room

variable (s) (key : Int)

@[simp] theorem lowerTo_minKey : (s.lowerTo key).minKey = min key s.minKey := by
  unfold lowerTo
  split
  · dsimp only
    omega
  · omega

@[simp] theorem lowerTo_maxKey : (s.lowerTo key).maxKey = s.maxKey := by
  unfold lowerTo
  split <;> rfl

@[simp] theorem lowerTo_initialized : (s.lowerTo key).initialized = s.initialized := by
  unfold lowerTo
  split <;> rfl

@[simp] theorem lowerTo_collapsed : (s.lowerTo key).collapsed = s.collapsed := by
  unfold lowerTo
  split <;> rfl

@[simp] theorem raiseTo_store : (s.raiseTo key).store = s.store := by
  unfold raiseTo
  split <;> rfl

@[simp] theorem raiseTo_offset : (s.raiseTo key).offset = s.offset := by
  unfold raiseTo
  split <;> rfl

@[simp] theorem raiseTo_minKey : (s.raiseTo key).minKey = s.minKey := by
  unfold raiseTo
  split <;> rfl

@[simp] theorem raiseTo_maxKey : (s.raiseTo key).maxKey = max s.maxKey key := by
  unfold raiseTo
  dsimp only
  split
  · dsimp only
    omega
  · omega

@[simp] theorem raiseTo_numBins :
    (s.raiseTo key).numBins = min (max s.maxKey key - s.minKey + 1) MAX_BINS := by
  rw [← raiseTo_maxKey, ← raiseTo_minKey s key]
  rfl

@[simp] theorem raiseTo_initialized : (s.raiseTo key).initialized = s.initialized := by
  unfold raiseTo
  split <;> rfl

@[simp] theorem raiseTo_collapsed : (s.raiseTo key).collapsed = s.collapsed := by
  unfold raiseTo
  split <;> rfl

end Room

/-- Bins that begin lower and end higher hold the same keys. -/
theorem Spans.widen (spans : Spans s keys) {newMin newMax : Int}
    (exact : newMin < s.minKey → ∀ e ∈ keys, s.minKey ≤ e.1)
    (reach : max s.maxKey newMax - min newMin s.minKey + 1 ≤ MAX_BINS) :
    Spans ((s.lowerTo newMin).raiseTo newMax) keys where
  bins := by
    have numBins := spans.numBins
    have ordered := spans.ordered
    rw [raiseTo_store, raiseTo_minKey]
    unfold lowerTo
    split
    · next lower =>
        dsimp only
        rw [if_pos (by omega)]
        have h := spans.bins.moveUp (s.minKey - newMin) s.numBins (by omega) ?_
        · rwa [show s.minKey - (s.minKey - newMin) = newMin by omega, show s.numBins =
            min s.numBins (MAX_BINS - (s.minKey - newMin)) by omega] at h
        · intro e he
          have := spans.below e he
          have := exact lower e he
          omega
    · exact spans.bins
  offset := by
    rw [raiseTo_offset, raiseTo_minKey]
    unfold lowerTo
    split
    · rfl
    · exact spans.offset
  numBins := by
    simp only [raiseTo_numBins, raiseTo_maxKey, raiseTo_minKey, lowerTo_maxKey, lowerTo_minKey]
    omega
  ordered := by
    have ordered := spans.ordered
    simp only [raiseTo_maxKey, raiseTo_minKey, lowerTo_maxKey, lowerTo_minKey]
    omega
  fits := by
    simp only [raiseTo_numBins]
    omega
  below := by
    intro e he
    have := spans.below e he
    simp only [raiseTo_maxKey, lowerTo_maxKey]
    omega

/-- Bins for the keys of this sketch that reach over those of both. -/
structure Joint (r s o : DDSketch) (keys : Keys) : Prop extends Spans r keys where
  initialized : r.initialized = true
  maxKey : r.maxKey = max s.maxKey o.maxKey
  minKey : r.minKey = max (min s.minKey o.minKey) (max s.maxKey o.maxKey - MAX_BINS + 1)
  collapsed : r.collapsed = true → s.collapsed = true ∨ r.minKey = r.maxKey - MAX_BINS + 1

theorem Canonical.makeRoom (hs : Canonical s keys) (small : total keys < 2 ^ 32) :
    Joint (s.makeRoom o) s o keys := by
  have full := hs.full_or_exact
  unfold DDSketch.makeRoom
  by_cases fits : max s.maxKey o.maxKey - min s.minKey o.minKey + 1 ≤ MAX_BINS
  · simp only [if_pos fits]
    exact {
      toSpans := by
        apply hs.toSpans.widen
        · intro lower
          rcases full with full | exact
          · omega
          · exact exact
        · omega
      initialized := by simp [hs.initialized]
      maxKey := by
        simp only [raiseTo_maxKey, lowerTo_maxKey]
        omega
      minKey := by
        simp only [raiseTo_minKey, lowerTo_minKey]
        omega
      collapsed := by
        simp only [raiseTo_collapsed, lowerTo_collapsed]
        exact .inl }
  · simp only [if_neg fits]
    have spans := hs.toSpans.collapseToFit (max s.maxKey o.maxKey) small (by omega) ?_
    · exact {
        toSpans := by
          apply spans.widen
          · intro lower
            rw [collapseToFit_minKey] at lower
            omega
          · simp only [collapseToFit_minKey, collapseToFit_maxKey]
            omega
        initialized := by simp [hs.initialized]
        maxKey := by
          simp only [raiseTo_maxKey, lowerTo_maxKey, collapseToFit_maxKey]
          omega
        minKey := by
          simp only [raiseTo_minKey, lowerTo_minKey, collapseToFit_minKey]
          omega
        collapsed := by
          intro _
          simp only [raiseTo_minKey, lowerTo_minKey, collapseToFit_minKey, raiseTo_maxKey,
            lowerTo_maxKey, collapseToFit_maxKey]
          omega }
    · rcases full with full | exact
      · exact .inl (by omega)
      · exact .inr exact

/-! ## Counting the other bins -/

theorem binKeys_eq (o : DDSketch) :
    o.binKeys = (List.range (o.maxKey - o.minKey + 1).toNat).map fun d : Nat => o.minKey + d := by
  change ((List.range _).flatMap fun d : Nat => [(d : Int)]).map _ = _
  rw [← List.map_eq_flatMap, List.map_map]
  rfl

/-- The weights of the other sketch's keys in the bins counted so far. -/
def counted (low oLow : Int) (keys' : Keys) (bound k : Int) : Nat :=
  weigh (fun key => max key oLow < bound ∧ max (max key oLow) low = k) keys'

/-- Counting the next bin of the other sketch. -/
theorem counted_succ (low oLow : Int) (keys' : Keys) (bound k : Int) :
    counted low oLow keys' (bound + 1) k =
      counted low oLow keys' bound k + if max bound low = k then binned oLow keys' bound else 0 := by
  by_cases h : max bound low = k
  · rw [if_pos h]
    symm
    apply weigh_add
    · intro e _ hp hq
      omega
    · intro e _
      omega
  · rw [if_neg h]
    apply weigh_congr
    intro e _
    omega

theorem bump_zero (store : Vector UInt32 MAX_BINS) (pos : Int) : bump store pos 0 = store := by
  apply Vector.ext
  intro i h
  rw [getElem_bump]
  split
  · rw [← UInt32.toNat_inj, toNat_saturate]
    · rfl
    · exact store[i].toNat_lt
  · rfl

theorem mergeBin_eq {r : DDSketch} {k : Int} (inside : 0 ≤ k - o.offset)
    (within : k - o.offset < MAX_BINS) :
    mergeBin o r k = { r with
      store := bump r.store (max k r.offset - r.offset)
        (o.store.toList.getD (k - o.offset).toNat 0) } := by
  unfold mergeBin
  rw [if_pos ⟨inside, within⟩]
  dsimp only
  split
  · next h => rw [h, bump_zero]
  split
  · rw [show max k r.offset - r.offset = 0 by omega]
  · rw [show max k r.offset - r.offset = k - r.offset by omega]

/-- The bins with those of the other sketch below a bound counted in. -/
structure Counting (r t : DDSketch) (o : DDSketch) (keys keys' : Keys) (bound : Int) : Prop where
  frame : t = { r with store := t.store }
  bins : ∀ i (h : i < MAX_BINS), t.store[i].toNat =
    binned r.minKey keys (r.minKey + i) + counted r.minKey o.minKey keys' bound (r.minKey + i)

theorem Counting.step {r t : DDSketch} {bound : Int} (counting : Counting r t o keys keys' bound)
    (ho : Spans o keys') (hr : r.offset = r.minKey) (above : o.minKey ≤ bound)
    (below : bound ≤ o.maxKey) (small : total keys + total keys' < 2 ^ 32) :
    Counting r (mergeBin o t bound) o keys keys' (bound + 1) where
  frame := by
    have numBins := ho.numBins
    have fits := ho.fits
    have offset := ho.offset
    rw [mergeBin_eq (by omega) (by omega), counting.frame]
  bins := by
    have numBins := ho.numBins
    have fits := ho.fits
    have offset := ho.offset
    have toffset : t.offset = r.minKey := by
      rw [counting.frame]
      exact hr
    intro i h
    have bin : (o.store.toList.getD (bound - o.minKey).toNat 0).toNat = binned o.minKey keys' bound := by
      rw [ho.bins.getD (by omega) (by omega)]
      exact congrArg (binned o.minKey keys') (by omega)
    have next := counted_succ r.minKey o.minKey keys' bound (r.minKey + i)
    have bound₁ : binned r.minKey keys (r.minKey + i) ≤ total keys := weigh_le_total
    have bound₂ : counted r.minKey o.minKey keys' (bound + 1) (r.minKey + i) ≤ total keys' :=
      weigh_le_total
    rw [mergeBin_eq (by omega) (by omega), toffset, offset]
    rw [getElem_bump]
    by_cases hpos : (i : Int) = max bound r.minKey - r.minKey
    · rw [if_pos (by omega)] at next
      rw [if_pos hpos, toNat_saturate, counting.bins i h]
      · omega
      · rw [counting.bins i h]
        omega
    · rw [if_neg (by omega)] at next
      rw [if_neg hpos, counting.bins i h]
      omega

theorem Counting.foldl {r : DDSketch} (hr : Spans r keys) (ho : Spans o keys')
    (small : total keys + total keys' < 2 ^ 32) (n : Nat) (hn : n ≤ (o.maxKey - o.minKey + 1).toNat) :
    Counting r (((List.range n).map fun d : Nat => o.minKey + (d : Int)).foldl (mergeBin o) r)
      o keys keys'
      (o.minKey + n) := by
  induction n with
  | zero =>
    exact {
      frame := rfl
      bins := by
        intro i h
        have none : counted r.minKey o.minKey keys' (o.minKey + (0 : Nat)) (r.minKey + i) = 0 := by
          apply weigh_eq_zero
          intro e _
          omega
        rw [none]
        exact hr.bins i h }
  | succ n ih =>
    rw [List.range_succ, List.map_append, List.foldl_append]
    have step := (ih (by omega)).step ho hr.offset (by omega) (by omega) small
    rwa [show o.minKey + (n : Int) + 1 = o.minKey + (n + 1 : Nat) by omega] at step

theorem Canonical.takeOver (hs : Canonical s keys) : Canonical (s.takeOver o) keys :=
  { hs with }

/-- Canonical sketches merge into the canonical sketch of the keys of both. -/
theorem Canonical.merge (hs : Canonical s keys) (ho : Canonical o keys') (counted : o.count ≠ 0)
    (small : total (keys ++ keys') < 2 ^ 32) : Canonical (s.merge o) (keys ++ keys') := by
  have small' : total keys + total keys' < 2 ^ 32 := by
    rw [total, weigh_append] at small
    exact small
  have room : Joint ((s.takeOver o).makeRoom o) (s.takeOver o) o keys :=
    hs.takeOver.makeRoom (total_lt small)
  rw [merge_initialized hs.initialized ho.initialized counted, binKeys_eq]
  generalize (s.takeOver o).makeRoom o = r at room
  have minKey : r.minKey = max (min s.minKey o.minKey) (max s.maxKey o.maxKey - MAX_BINS + 1) :=
    room.minKey
  have maxKey : r.maxKey = max s.maxKey o.maxKey := room.maxKey
  have ordered := ho.ordered
  have counting := Counting.foldl room.toSpans ho.toSpans small' _ (Nat.le_refl _)
  generalize ((List.range (o.maxKey - o.minKey + 1).toNat).map fun d : Nat =>
    o.minKey + (d : Int)).foldl (mergeBin o) r = t at counting
  rw [counting.frame]
  -- either sketch holds its keys exactly, or the joint bins begin no lower than its own
  have exact : r.minKey = r.maxKey - MAX_BINS + 1 ∨ ∀ e ∈ keys ++ keys', r.minKey ≤ e.1 := by
    rcases hs.full_or_exact with full | exact
    · exact .inl (by omega)
    rcases ho.full_or_exact with full | exact'
    · exact .inl (by omega)
    by_cases wide : max s.maxKey o.maxKey - MAX_BINS + 1 ≤ min s.minKey o.minKey
    · right
      intro e he
      rcases List.mem_append.mp he with he | he
      · have := exact e he
        omega
      · have := exact' e he
        omega
    · exact .inl (by omega)
  have clamp : ∀ e ∈ keys', max (max e.1 o.minKey) r.minKey = max e.1 r.minKey := by
    intro e he
    rcases ho.full_or_exact with full | exact
    · omega
    · have := exact e he
      omega
  exact {
    bins := by
      intro i h
      rw [counting.bins i h]
      simp only [binned, weigh_append, Nat.add_left_cancel_iff]
      apply weigh_congr
      intro e he
      have := ho.below e he
      have := clamp e he
      omega
    __ := room
    below := by
      intro e he
      dsimp only
      rcases List.mem_append.mp he with he | he
      · have := hs.below e he
        omega
      · have := ho.below e he
        omega
    largest := by
      dsimp only
      obtain ⟨e, he, htop⟩ := hs.largest
      obtain ⟨e', he', htop'⟩ := ho.largest
      by_cases h : o.maxKey ≤ s.maxKey
      · exact ⟨e, List.mem_append_left _ he, by omega⟩
      · exact ⟨e', List.mem_append_right _ he', by omega⟩
    lowest := by
      dsimp only
      obtain ⟨e, he, hlow⟩ := hs.lowest
      obtain ⟨e', he', hlow'⟩ := ho.lowest
      by_cases h : s.minKey ≤ o.minKey
      · exact ⟨e, List.mem_append_left _ he, by omega⟩
      · exact ⟨e', List.mem_append_right _ he', by omega⟩
    full_or_exact := exact
    full_of_collapsed := by
      intro h
      rcases room.collapsed h with collapsed | full
      · have := hs.full_of_collapsed collapsed
        dsimp only
        omega
      · exact full }

end Merge

end DFTracer.Aggregation.DDSketch

/-! ## Sketches and the order of their keys

A sketch comes about by adding keys and merging other sketches, in any tree shape. As long as
every key that is added is absorbed, its bins are the collapsed histogram of all keys that
went into it, so they do not show the order, and neither does a quantile. -/

namespace DFTracer.Aggregation

open Math.WeightedKeys Math.Float64

namespace DDSketch

/-- The key of a zero. -/
def SKETCH_ZERO_KEY : Int32 := Int32.minValue

/-- A key counts at least once. -/
def atLeastOnce (weight : UInt32) : UInt32 := if weight = 0 then 1 else weight

/-- Add a value whose key is known. -/
def addKey (s : DDSketch) (key : Int32) (value : Float) (weight : UInt32) : DDSketch :=
  let weight := atLeastOnce weight
  let s := { s with
    minValue := if value < s.minValue then value else s.minValue
    maxValue := if value > s.maxValue then value else s.maxValue
    count := s.count + weight.toUInt64 }
  if key = SKETCH_ZERO_KEY then { s with zeroCount := s.zeroCount + weight.toUInt64 }
  else s.addToBin key.toInt weight

/-- The bounds of a bin. -/
def binLowerBound (s : DDSketch) (index : Int) : Float := Float.pow s.gamma (Float.ofInt (index - 1))

def binUpperBound (s : DDSketch) (index : Int) : Float := Float.pow s.gamma (Float.ofInt index)

/-- The middle of the first bin at which the counts reach a rank. -/
def scanBins (s : DDSketch) (targetRank : Float) : List Nat → Float → Float
  | [], _ => s.maxValue
  | i :: rest, cumulative =>
    let bin := s.store.toList.getD i 0
    if bin = 0 then scanBins s targetRank rest cumulative
    else if cumulative + bin.toFloat ≥ targetRank then
      (s.binLowerBound (i + s.offset) + s.binUpperBound (i + s.offset)) / 2.0
    else scanBins s targetRank rest (cumulative + bin.toFloat)

/-- A quantile of the values. -/
def quantile (s : DDSketch) (q : Float) : Float :=
  if s.count = 0 then 0.0 / 0.0
  else if q ≤ 0.0 then s.minValue
  else if q ≥ 1.0 then s.maxValue
  else
    let targetRank := q * s.count.toFloat
    let cumulative := s.zeroCount.toFloat
    if cumulative ≥ targetRank ∧ s.zeroCount > 0 then 0.0
    else if ¬s.initialized then 0.0
    else s.scanBins targetRank (List.range (min s.numBins MAX_BINS).toNat) cumulative

/-- The count of a bin, of those that are in use. -/
def binAt (s : DDSketch) (k : Int) : Nat :=
  if s.initialized ∧ 0 ≤ k - s.offset ∧ k - s.offset < min s.numBins MAX_BINS then
    (s.store.toList.getD (k - s.offset).toNat 0).toNat
  else 0

/-- All bins summed up. -/
def binSum (s : DDSketch) : Nat := binTotal s.store.toList

end DDSketch

open DDSketch

/-- What a call adds. -/
structure Added where
  key : Int32
  value : Float
  weight : UInt32

/-- The weight of an addition. -/
def Added.count (a : Added) : Nat := (atLeastOnce a.weight).toNat

/-- How a sketch came about. -/
inductive History where
  | new
  | addKey (h : History) (a : Added)
  | merge (h other : History)

/-- All that went into the sketch. -/
def History.added : History → List Added
  | new => []
  | addKey h a => h.added ++ [a]
  | merge h other => h.added ++ other.added

/-- The sketch of a history. -/
def History.run (accuracy : Float) : History → DDSketch
  | new => .new accuracy
  | addKey h a => (h.run accuracy).addKey a.key a.value a.weight
  | merge h other => (h.run accuracy).merge (other.run accuracy)

section Added

variable (l : List Added)

/-- The keys that were added, those of zeros left out. -/
def keysOf : Keys :=
  l.filterMap fun a => if a.key = SKETCH_ZERO_KEY then none else some (a.key.toInt, a.count)

/-- The weight of the zeros. -/
def zerosOf : Nat :=
  weigh (fun key => key = SKETCH_ZERO_KEY) (l.map fun a => (a.key, a.count))

/-- The weight of everything that was added. -/
def totalOf : Nat := total (l.map fun a => (a.key, a.count))

end Added

/-- The sketch takes the key: it absorbs it, and the numbers of bins are no larger than an
`int`. -/
def DDSketch.Takes (s : DDSketch) (key : Int) : Prop :=
  s.initialized = true →
    s.Absorbs key ∧ key - s.minKey + 1 < 2 ^ 31 ∧
      (s.collapsed = false → s.maxKey - key + 1 < 2 ^ 31)

/-- The number of bins of both sketches is no larger than an `int`. -/
def DDSketch.Joins (s o : DDSketch) : Prop :=
  s.initialized = true → o.initialized = true →
    max s.maxKey o.maxKey - min s.minKey o.minKey + 1 < 2 ^ 31

/-- Every key was taken when it was added. -/
def History.Careful (accuracy : Float) : History → Prop
  | new => True
  | addKey h a =>
    h.Careful accuracy ∧ (a.key ≠ SKETCH_ZERO_KEY → (h.run accuracy).Takes a.key.toInt)
  | merge h other =>
    h.Careful accuracy ∧ other.Careful accuracy ∧
      (h.run accuracy).Joins (other.run accuracy)

section Added

variable {l l' : List Added}

theorem keysOf_append : keysOf (l ++ l') = keysOf l ++ keysOf l' :=
  List.filterMap_append

theorem keysOf_singleton (a : Added) :
    keysOf [a] = if a.key = SKETCH_ZERO_KEY then [] else [(a.key.toInt, a.count)] := by
  by_cases h : a.key = SKETCH_ZERO_KEY
  · simp [keysOf, h]
  · simp [keysOf, h]

theorem zerosOf_append : zerosOf (l ++ l') = zerosOf l + zerosOf l' := by
  rw [zerosOf, List.map_append, weigh_append]
  rfl

theorem totalOf_append : totalOf (l ++ l') = totalOf l + totalOf l' := by
  rw [totalOf, List.map_append, total, weigh_append]
  rfl

/-- The zeros and the other keys together are everything. -/
theorem zerosOf_add_keysOf (l : List Added) : zerosOf l + total (keysOf l) = totalOf l := by
  induction l with
  | nil => rfl
  | cons a l ih =>
    rw [total] at ih ⊢
    rw [← List.singleton_append, zerosOf_append, keysOf_append, totalOf_append, weigh_append,
      keysOf_singleton]
    have whole : totalOf [a] = a.count := rfl
    by_cases h : a.key = SKETCH_ZERO_KEY
    · rw [if_pos h, zerosOf, List.map_singleton, weigh_singleton, if_pos h, weigh_nil]
      omega
    · rw [if_neg h, zerosOf, List.map_singleton, weigh_singleton, if_neg h, weigh_singleton,
        if_pos trivial]
      omega

theorem total_keysOf_le (l : List Added) : total (keysOf l) ≤ totalOf l := by
  rw [← zerosOf_add_keysOf]
  exact Nat.le_add_left _ _

theorem count_pos (a : Added) : 0 < a.count := by
  unfold Added.count atLeastOnce
  split
  · decide
  · next h =>
      apply Nat.pos_of_ne_zero
      exact fun h0 => h (UInt32.toNat_inj.mp h0)

/-- Nothing weighs nothing. -/
theorem eq_nil_of_totalOf (h : totalOf l = 0) : l = [] := by
  cases l with
  | nil => rfl
  | cons a l =>
    rw [← List.singleton_append, totalOf_append] at h
    have whole : totalOf [a] = a.count := rfl
    have := count_pos a
    omega

end Added

end DFTracer.Aggregation
