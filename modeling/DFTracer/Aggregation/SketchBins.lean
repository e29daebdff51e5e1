/-
# What the bins of a sketch hold

A store that starts at a key holds, in each bin, the weight of the keys that fall there when
every lower key is counted in the first one. Counting a key, moving the bins up and
collapsing the lowest ones keep this, as long as all weights fit a bin.
-/

import DFTracer.Aggregation.Sketches
import DFTracer.Math.WeightedKeys

namespace DFTracer.Aggregation.DDSketch

open Math.WeightedKeys

/-- Keys, each with the weight that it was added with. -/
abbrev Keys := List (Int × Nat)

/-- The weight that falls to a key when every key below `low` counts as `low`. -/
def binned (low : Int) (keys : Keys) (k : Int) : Nat :=
  weigh (fun key => max key low = k) keys

/-- The store that starts at `low` holds the keys. -/
def Stores (store : Vector UInt32 MAX_BINS) (low : Int) (keys : Keys) : Prop :=
  ∀ i (h : i < MAX_BINS), store[i].toNat = binned low keys (low + i)

section Store

variable {store : Vector UInt32 MAX_BINS} {low : Int} {keys : Keys}

theorem binned_lt (small : total keys < 2 ^ 32) (k : Int) : binned low keys k < 2 ^ 32 :=
  Nat.lt_of_le_of_lt weigh_le_total small

/-- A bin that stays below its limit does not saturate. -/
theorem toNat_saturate {old count : UInt32} (fits : old.toNat + count.toNat < 2 ^ 32) :
    (saturate old count).toNat = old.toNat + count.toNat := by
  have room : (0xFFFFFFFF - count : UInt32).toNat = 2 ^ 32 - 1 - count.toNat := by
    rw [UInt32.toNat_sub_of_le]
    · rfl
    · rw [UInt32.le_iff_toNat_le]
      have : (0xFFFFFFFF : UInt32).toNat = 2 ^ 32 - 1 := rfl
      omega
  rw [saturate, if_neg, UInt32.toNat_add, Nat.mod_eq_of_lt fits]
  rw [gt_iff_lt, UInt32.lt_iff_toNat_lt]
  omega

variable {i : Nat}

theorem getElem_bump (pos : Int) (count : UInt32) (h : i < MAX_BINS) :
    (bump store pos count)[i] = if (i : Int) = pos then saturate store[i] count else store[i] := by
  simp only [bump, Vector.getElem_ofFn, Fin.getElem_fin]

/-- Counting a key into its bin. -/
theorem Stores.bump (stores : Stores store low keys) {key : Int} {weight : UInt32}
    (small : total (keys ++ [(key, weight.toNat)]) < 2 ^ 32) :
    Stores (bump store (max key low - low) weight) low (keys ++ [(key, weight.toNat)]) := by
  intro i h
  have fits := @binned_lt low _ small (low + i)
  simp only [binned, weigh_append, weigh_singleton] at fits ⊢
  have old : store[i].toNat = weigh (fun k => max k low = low + i) keys := stores i h
  rw [getElem_bump, ← old]
  rw [← old] at fits
  by_cases hpos : (i : Int) = max key low - low
  · rw [if_pos (show max key low = low + i by omega)] at fits ⊢
    rw [if_pos hpos, toNat_saturate fits]
  · rw [if_neg hpos, if_neg (show ¬ max key low = low + i by omega), Nat.add_zero]

theorem getElem_moveUp (shift moved : Int) (h : i < MAX_BINS) :
    (moveUp store shift moved)[i] =
      if (i : Int) < shift then 0
      else if (i : Int) - shift < moved then store.toList.getD ((i : Int) - shift).toNat 0
      else store[i] := by
  simp only [moveUp, Vector.getElem_ofFn, Fin.getElem_fin]

theorem getElem_moveDown (dropped moved : Int) (h : i < MAX_BINS) :
    (moveDown store dropped moved)[i] =
      if (i : Int) < moved then store.toList.getD ((i : Int) + dropped).toNat 0
      else if (i : Int) < moved + dropped then 0
      else store[i] := by
  simp only [moveDown, Vector.getElem_ofFn, Fin.getElem_fin]

theorem getD_toList (store : Vector UInt32 MAX_BINS) {n : Nat} (h : n < MAX_BINS) :
    store.toList.getD n 0 = store[n] := by
  rw [List.getD_eq_getElem?_getD, List.getElem?_eq_getElem, Option.getD_some, Vector.getElem_toList]
  rwa [Vector.length_toList]

/-- The bin of a key in the list of a store. -/
theorem Stores.getD (stores : Stores store low keys) {pos : Int} (from0 : 0 ≤ pos)
    (below : pos < MAX_BINS) :
    (store.toList.getD pos.toNat 0).toNat = binned low keys (low + pos) := by
  have h : pos.toNat < MAX_BINS := by omega
  rw [getD_toList store h, stores pos.toNat h, Int.toNat_of_nonneg from0]

theorem Stores.moveUp (stores : Stores store low keys) (shift moved : Int) (up : 0 ≤ shift)
    (within : ∀ e ∈ keys, low ≤ e.1 ∧ e.1 < low + moved) :
    Stores (moveUp store shift moved) (low - shift) keys := by
  intro i h
  have clamp : binned (low - shift) keys (low - shift + i) = binned low keys (low - shift + i) := by
    apply weigh_congr
    intro e he
    have := within e he
    omega
  have empty {k : Int} (out : k < low ∨ low + moved ≤ k) : binned low keys k = 0 := by
    apply weigh_eq_zero
    intro e he
    have := within e he
    omega
  rw [getElem_moveUp, clamp]
  split
  · rw [empty (by omega)]
    rfl
  · split
    · rw [stores.getD (by omega) (by omega)]
      exact congrArg (binned low keys) (by omega)
    · rw [stores i h, empty (by omega), empty (by omega)]

/-- Bins summed up. -/
def binTotal (bins : List UInt32) : Nat := bins.foldl (fun sum bin => sum + bin.toNat) 0

theorem binTotal_concat (bins : List UInt32) (bin : UInt32) :
    binTotal (bins ++ [bin]) = binTotal bins + bin.toNat := by
  rw [binTotal, List.foldl_append]
  rfl

/-- A sum that stays below the limit does not saturate. -/
theorem toNat_foldl_saturate {bins : List UInt32} (fits : binTotal bins < 2 ^ 32) :
    (bins.foldl saturate 0).toNat = binTotal bins := by
  induction bins using List.reverseRecOn with
  | nil => rfl
  | append_singleton bins bin ih =>
    rw [binTotal_concat] at fits ⊢
    have sum := ih (by omega)
    rw [List.foldl_append, List.foldl_cons, List.foldl_nil, toNat_saturate, sum]
    rw [sum]
    exact fits

/-- The sum of the first bins is the weight of the keys below. -/
theorem Stores.binTotal (stores : Stores store low keys) (n : Nat) (hn : n ≤ MAX_BINS) :
    DDSketch.binTotal (store.toList.take n) = weigh (fun key => max key low < low + n) keys := by
  induction n with
  | zero =>
    rw [weigh_eq_zero]
    · rfl
    · intro e _
      omega
  | succ n ih =>
    have hlt : n < store.toList.length := by
      rw [Vector.length_toList]
      exact hn
    have bin : store.toList[n].toNat = binned low keys (low + n) := by
      exact stores n (by omega)
    rw [List.take_succ_eq_append_getElem hlt, binTotal_concat, ih (by omega), bin]
    apply weigh_add
    · intro e _ hp hq
      omega
    · intro e _
      omega

theorem Stores.collapsedSum (stores : Stores store low keys) (small : total keys < 2 ^ 32)
    (n : Nat) (hn : n ≤ MAX_BINS) :
    (collapsedSum store n).toNat = weigh (fun key => max key low < low + n) keys := by
  have sum := stores.binTotal n hn
  rw [DDSketch.collapsedSum, Int.toNat_natCast, toNat_foldl_saturate, sum]
  rw [sum]
  exact Nat.lt_of_le_of_lt weigh_le_total small

theorem toNat_replicate (h : i < MAX_BINS) :
    (Vector.replicate MAX_BINS (0 : UInt32))[i].toNat = 0 := by
  rw [Vector.getElem_replicate]
  rfl

theorem Stores.collapseAll (stores : Stores store low keys) (small : total keys < 2 ^ 32)
    {n : Nat} (hn : n ≤ MAX_BINS) (newLow : Int) (inside : ∀ e ∈ keys, max e.1 low < low + n)
    (above : ∀ e ∈ keys, e.1 ≤ newLow) :
    Stores (DDSketch.bump (Vector.replicate MAX_BINS 0) 0 (DDSketch.collapsedSum store n))
      newLow keys := by
  intro i h
  have sum : (DDSketch.collapsedSum store n).toNat = total keys := by
    rw [stores.collapsedSum small n hn]
    exact weigh_eq_total inside
  rw [getElem_bump]
  by_cases h0 : (i : Int) = 0
  · rw [if_pos h0, toNat_saturate, toNat_replicate h, sum, Nat.zero_add]
    · symm
      apply weigh_eq_total
      intro e he
      have := above e he
      omega
    · rw [toNat_replicate h, sum, Nat.zero_add]
      exact small
  · rw [if_neg h0, toNat_replicate h]
    symm
    apply weigh_eq_zero
    intro e he
    have := above e he
    omega

/-- The lowest bins collapsed into the first one that stays. -/
theorem Stores.collapseLow (stores : Stores store low keys) (small : total keys < 2 ^ 32)
    (bins moved : Int) (some : 0 < bins) (left : 0 < moved) (fits : bins + moved ≤ MAX_BINS)
    (inside : ∀ e ∈ keys, e.1 < low + bins + moved) :
    Stores
      (DDSketch.bump
        (DDSketch.moveDown
          (Vector.ofFn fun i => if (i : Int) < bins then 0 else store[i]) bins moved)
        0 (DDSketch.collapsedSum store bins)) (low + bins) keys := by
  have above {k : Int} (out : low + bins + moved ≤ k) : binned low keys k = 0 := by
    apply weigh_eq_zero
    intro e he
    have := inside e he
    omega
  have down {i : Nat} (h : i < MAX_BINS) : (DDSketch.moveDown
      (Vector.ofFn fun i => if (i : Int) < bins then 0 else store[i]) bins moved)[i].toNat =
        binned low keys (low + bins + i) := by
    rw [getElem_moveDown]
    split
    · rw [getD_toList _ (show ((i : Int) + bins).toNat < MAX_BINS by omega), Vector.getElem_ofFn,
        if_neg (by dsimp only; omega)]
      simp only [Fin.getElem_fin]
      rw [stores _ (by omega)]
      exact congrArg (binned low keys) (by omega)
    · rw [above (by omega)]
      split
      · rfl
      · rw [Vector.getElem_ofFn, if_neg (by dsimp only; omega)]
        simp only [Fin.getElem_fin]
        rw [stores _ h, above (by omega)]
  intro i h
  have sum := stores.collapsedSum small bins.toNat (by omega)
  rw [show ((bins.toNat : Nat) : Int) = bins by omega] at sum
  rw [getElem_bump]
  by_cases h0 : (i : Int) = 0
  · have whole : binned low keys (low + bins + i) + weigh (fun key => max key low < low + bins) keys =
        binned (low + bins) keys (low + bins + i) := by
      apply weigh_add
      · intro e _ hp
        omega
      · intro e _
        omega
    have bound : binned (low + bins) keys (low + bins + i) ≤ total keys := weigh_le_total
    rw [if_pos h0, toNat_saturate, down h, sum, whole]
    rw [down h]
    omega
  · rw [if_neg h0, down h]
    apply weigh_congr
    intro e _
    omega

end Store

/-! ## The span of a sketch

A sketch spans the bins from its lowest to its largest key. It is canonical when the largest
is the largest key it was fed, and the lowest is the least one, or as far below as the store
reaches. Adding a key that the sketch absorbs and merging keep a sketch canonical. -/

/-- The bins from the lowest to the largest key hold the keys. -/
structure Spans (s : DDSketch) (keys : Keys) : Prop where
  bins : Stores s.store s.minKey keys
  offset : s.offset = s.minKey
  numBins : s.numBins = s.maxKey - s.minKey + 1
  ordered : s.minKey ≤ s.maxKey
  fits : s.numBins ≤ MAX_BINS
  below : ∀ e ∈ keys, e.1 ≤ s.maxKey

/-- The bins are those of the collapsed histogram of the keys. -/
structure Canonical (s : DDSketch) (keys : Keys) : Prop extends Spans s keys where
  initialized : s.initialized = true
  largest : ∃ e ∈ keys, e.1 = s.maxKey
  lowest : ∃ e ∈ keys, e.1 ≤ s.minKey
  full_or_exact : s.minKey = s.maxKey - MAX_BINS + 1 ∨ ∀ e ∈ keys, s.minKey ≤ e.1
  full_of_collapsed : s.collapsed = true → s.minKey = s.maxKey - MAX_BINS + 1

variable {s o : DDSketch} {keys keys' : Keys}

section Collapse

variable (s) (newMaxKey : Int)

@[simp] theorem collapseToFit_offset :
    (s.collapseToFit newMaxKey).offset = newMaxKey - MAX_BINS + 1 := by
  unfold collapseToFit
  dsimp only
  split <;> rfl

@[simp] theorem collapseToFit_minKey :
    (s.collapseToFit newMaxKey).minKey = newMaxKey - MAX_BINS + 1 := by
  unfold collapseToFit
  dsimp only
  split <;> rfl

@[simp] theorem collapseToFit_maxKey : (s.collapseToFit newMaxKey).maxKey = newMaxKey := by
  unfold collapseToFit
  dsimp only
  split <;> rfl

@[simp] theorem collapseToFit_numBins : (s.collapseToFit newMaxKey).numBins = MAX_BINS := by
  unfold collapseToFit
  dsimp only
  split
  · rfl
  · dsimp only
    omega

@[simp] theorem collapseToFit_initialized :
    (s.collapseToFit newMaxKey).initialized = s.initialized := by
  unfold collapseToFit
  dsimp only
  split <;> rfl

@[simp] theorem collapseToFit_collapsed : (s.collapseToFit newMaxKey).collapsed = true := by
  unfold collapseToFit
  dsimp only
  split <;> rfl

variable {s}

/-- Collapsing makes the bins end at the new largest key. -/
theorem Spans.collapseToFit (spans : Spans s keys) (small : total keys < 2 ^ 32)
    (grows : s.maxKey ≤ newMaxKey)
    (lower : s.minKey ≤ newMaxKey - MAX_BINS + 1 ∨ ∀ e ∈ keys, s.minKey ≤ e.1) :
    Spans (s.collapseToFit newMaxKey) keys where
  bins := by
    have numBins := spans.numBins
    have ordered := spans.ordered
    have fits := spans.fits
    unfold DDSketch.collapseToFit
    dsimp only
    split
    · next all =>
        have h := spans.bins.collapseAll small (n := s.numBins.toNat) (by omega)
          (newMaxKey - MAX_BINS + 1) ?_ ?_
        · rwa [show ((s.numBins.toNat : Nat) : Int) = s.numBins by omega] at h
        · intro e he
          have := spans.below e he
          omega
        · intro e he
          have := spans.below e he
          omega
    · next some =>
        split
        · next down =>
            rw [if_pos (by omega), show min (s.numBins - (newMaxKey - MAX_BINS + 1 - s.minKey))
              (MAX_BINS : Int) = s.numBins - (newMaxKey - MAX_BINS + 1 - s.minKey) by omega]
            have h := spans.bins.collapseLow small (newMaxKey - MAX_BINS + 1 - s.minKey)
              (s.numBins - (newMaxKey - MAX_BINS + 1 - s.minKey)) down (by omega)
              (by omega) ?_
            · rwa [show s.minKey + (newMaxKey - MAX_BINS + 1 - s.minKey) =
                newMaxKey - MAX_BINS + 1 by omega] at h
            · intro e he
              have := spans.below e he
              omega
        · next up =>
            split
            · next h =>
                have within : ∀ e ∈ keys, s.minKey ≤ e.1 := by
                  rcases lower with lower | exact
                  · omega
                  · exact exact
                rw [show min s.numBins ((MAX_BINS : Int) + (newMaxKey - MAX_BINS + 1 - s.minKey)) =
                  s.numBins by omega]
                have h := spans.bins.moveUp (-(newMaxKey - MAX_BINS + 1 - s.minKey)) s.numBins
                  (by omega) ?_
                · rwa [show s.minKey - -(newMaxKey - MAX_BINS + 1 - s.minKey) =
                    newMaxKey - MAX_BINS + 1 by omega] at h
                · intro e he
                  have := spans.below e he
                  have := within e he
                  omega
            · rw [show newMaxKey - MAX_BINS + 1 = s.minKey by omega]
              exact spans.bins
  offset := by simp
  numBins := by
    simp only [collapseToFit_numBins, collapseToFit_maxKey, collapseToFit_minKey]
    omega
  ordered := by
    have : (MAX_BINS : Int) = 128 := rfl
    simp only [collapseToFit_maxKey, collapseToFit_minKey]
    omega
  fits := by simp
  below := by
    intro e he
    have := spans.below e he
    rw [collapseToFit_maxKey]
    omega

end Collapse

/-! ### Adding a key -/

/-- A sketch without keys, or a canonical one. -/
inductive Represents (s : DDSketch) : Keys → Prop
  | empty (uninitialized : s.initialized = false) (collapsed : s.collapsed = false)
      (bins : Stores s.store 0 []) : Represents s []
  | keys {keys : Keys} (canonical : Canonical s keys) : Represents s keys

/-- The key is not far below the bins, or they are all in use. -/
def Absorbs (s : DDSketch) (key : Int) : Prop :=
  s.minKey ≤ key ∨ s.maxKey - key + 1 ≤ MAX_BINS ∨ s.minKey = s.maxKey - MAX_BINS + 1

theorem Stores.start {store : Vector UInt32 MAX_BINS} {low : Int} (stores : Stores store low [])
    (key : Int) (weight : UInt32) :
    Stores (store.set 0 weight) key [(key, weight.toNat)] := by
  intro i h
  rw [binned, weigh_singleton, Vector.getElem_set]
  by_cases h0 : 0 = i
  · rw [if_pos h0, if_pos (by omega)]
  · rw [if_neg h0, if_neg (by omega), stores i h]
    rfl

variable {key : Int} {weight : UInt32}

/-- Counting a key into a bin that is there. -/
theorem Spans.bump (spans : Spans s keys) (below : key ≤ s.maxKey)
    (small : total (keys ++ [(key, weight.toNat)]) < 2 ^ 32) {pos : Int}
    (hpos : pos = max key s.minKey - s.minKey) :
    Spans { s with store := DDSketch.bump s.store pos weight } (keys ++ [(key, weight.toNat)]) where
  bins := hpos ▸ spans.bins.bump small
  __ := spans
  below := by
    intro e he
    rcases List.mem_append.mp he with he | he
    · exact spans.below e he
    · rw [List.mem_singleton.mp he]
      exact below

/-- Bins up to a larger key. -/
theorem Spans.grow (spans : Spans s keys) (grows : s.maxKey ≤ key)
    (fits : key - s.minKey + 1 ≤ MAX_BINS) :
    Spans { s with maxKey := key, numBins := key - s.minKey + 1 } keys where
  bins := spans.bins
  offset := spans.offset
  numBins := rfl
  ordered := Int.le_trans spans.ordered grows
  fits := fits
  below := fun e he => Int.le_trans (spans.below e he) grows

theorem Canonical.total_lt (small : total (keys ++ keys') < 2 ^ 32) : total keys < 2 ^ 32 := by
  rw [total, weigh_append] at small
  exact Nat.lt_of_le_of_lt (Nat.le_add_right _ _) small

/-- A canonical sketch that was fed one key. -/
theorem Canonical.single {s : DDSketch}
    (bins : Stores s.store key [(key, weight.toNat)]) (initialized : s.initialized = true)
    (offset : s.offset = key) (minKey : s.minKey = key) (maxKey : s.maxKey = key)
    (numBins : s.numBins = 1) (collapsed : s.collapsed = false) :
    Canonical s [(key, weight.toNat)] where
  bins := minKey.symm ▸ bins
  offset := by rw [offset, minKey]
  numBins := by omega
  ordered := by omega
  fits := by
    have : (MAX_BINS : Int) = 128 := rfl
    omega
  below := by
    intro e he
    rw [List.mem_singleton.mp he, maxKey]
  initialized := initialized
  largest := ⟨_, List.mem_cons_self, maxKey.symm⟩
  lowest := ⟨_, List.mem_cons_self, by rw [minKey]⟩
  full_or_exact := .inr fun e he => by rw [List.mem_singleton.mp he, minKey]
  full_of_collapsed := by
    intro h
    rw [collapsed] at h
    cases h

/-- Room for larger keys: the bins hold the keys and begin where those of all keys up to the
new largest one do. -/
structure Room (s : DDSketch) (keys : Keys) (newMaxKey : Int) : Prop extends Spans s keys where
  initialized : s.initialized = true
  upTo : s.maxKey ≤ newMaxKey
  reach : newMaxKey - s.minKey + 1 ≤ MAX_BINS
  lowest : ∃ e ∈ keys, e.1 ≤ s.minKey
  full_or_exact : s.minKey = newMaxKey - MAX_BINS + 1 ∨ ∀ e ∈ keys, s.minKey ≤ e.1
  full_of_collapsed : s.collapsed = true → s.minKey = newMaxKey - MAX_BINS + 1

/-- Collapsing makes the room when the bins do not reach. -/
theorem Canonical.collapseToFit (canonical : Canonical s keys) (small : total keys < 2 ^ 32)
    {newMaxKey : Int} (grows : s.maxKey ≤ newMaxKey)
    (lower : s.minKey ≤ newMaxKey - MAX_BINS + 1 ∨ ∀ e ∈ keys, s.minKey ≤ e.1)
    (reached : ∃ e ∈ keys, e.1 ≤ newMaxKey - MAX_BINS + 1) :
    Room (s.collapseToFit newMaxKey) keys newMaxKey where
  toSpans := canonical.toSpans.collapseToFit _ small grows lower
  initialized := by rw [collapseToFit_initialized, canonical.initialized]
  upTo := by rw [collapseToFit_maxKey]
  reach := by
    rw [collapseToFit_minKey]
    omega
  lowest := by rwa [collapseToFit_minKey]
  full_or_exact := .inl (collapseToFit_minKey s newMaxKey)
  full_of_collapsed := fun _ => collapseToFit_minKey s newMaxKey

/-- Counting a larger key where there is room. -/
theorem Room.bump (room : Room s keys key)
    (small : total (keys ++ [(key, weight.toNat)]) < 2 ^ 32) :
    Canonical { s with
      maxKey := key, numBins := key - s.minKey + 1
      store := DDSketch.bump s.store (key - s.offset) weight }
      (keys ++ [(key, weight.toNat)]) := by
  have reached := Int.le_trans room.ordered room.upTo
  obtain ⟨bottom, hbottom, hmin⟩ := room.lowest
  exact {
    toSpans := (room.toSpans.grow room.upTo room.reach).bump (Int.le_refl key) small
      (by rw [room.offset]; dsimp only; omega)
    initialized := room.initialized
    largest := ⟨_, List.mem_append_right _ List.mem_cons_self, rfl⟩
    lowest := ⟨bottom, List.mem_append_left _ hbottom, hmin⟩
    full_or_exact := room.full_or_exact.imp id fun exact e he => by
      rcases List.mem_append.mp he with he | he
      · exact exact e he
      · rw [List.mem_singleton.mp he]
        exact reached
    full_of_collapsed := room.full_of_collapsed }

/-- Counting a key not above the largest one in a bin that is there, the lowest one for a key
below all bins that are in use. -/
theorem Canonical.bump (canonical : Canonical s keys) (pos : Int)
    (below : key ≤ s.maxKey) (small : total (keys ++ [(key, weight.toNat)]) < 2 ^ 32)
    (hpos : pos = max key s.minKey - s.minKey)
    (full : s.minKey ≤ key ∨ s.minKey = s.maxKey - MAX_BINS + 1) :
    Canonical { s with store := DDSketch.bump s.store pos weight }
      (keys ++ [(key, weight.toNat)]) := by
  obtain ⟨top, htop, hmax⟩ := canonical.largest
  obtain ⟨bottom, hbottom, hmin⟩ := canonical.lowest
  exact {
    toSpans := canonical.toSpans.bump below small hpos
    initialized := canonical.initialized
    largest := ⟨top, List.mem_append_left _ htop, hmax⟩
    lowest := ⟨bottom, List.mem_append_left _ hbottom, hmin⟩
    full_or_exact := by
      rcases full with above | full
      · apply canonical.full_or_exact.imp id
        intro exact e he
        rcases List.mem_append.mp he with he | he
        · exact exact e he
        · rw [List.mem_singleton.mp he]
          exact above
      · exact .inl full
    full_of_collapsed := canonical.full_of_collapsed }

/-- Bins down to a smaller key. -/
theorem Canonical.reachDown (canonical : Canonical s keys) {weight : UInt32}
    (below : key < s.minKey) (reach : s.maxKey - key + 1 ≤ MAX_BINS)
    (collapsed : s.collapsed = false) :
    Canonical { s with
      offset := key, minKey := key, numBins := s.maxKey - key + 1
      store := (moveUp s.store (s.minKey - key) (min s.numBins (MAX_BINS - (s.minKey - key)))).set 0
        weight }
      (keys ++ [(key, weight.toNat)]) := by
  have numBins := canonical.numBins
  have ordered := canonical.ordered
  have exact : ∀ e ∈ keys, s.minKey ≤ e.1 := by
    rcases canonical.full_or_exact with full | exact
    · omega
    · exact exact
  have moved : Stores (moveUp s.store (s.minKey - key)
      (min s.numBins (MAX_BINS - (s.minKey - key)))) key keys := by
    have h := canonical.bins.moveUp (s.minKey - key) s.numBins (by omega) ?_
    · rwa [show s.minKey - (s.minKey - key) = key by omega, show s.numBins =
        min s.numBins (MAX_BINS - (s.minKey - key)) by omega] at h
    · intro e he
      have := canonical.below e he
      have := exact e he
      omega
  obtain ⟨top, htop, hmax⟩ := canonical.largest
  exact {
    bins := by
      intro i h
      simp only [binned, weigh_append, weigh_singleton, Vector.getElem_set]
      by_cases h0 : 0 = i
      · rw [if_pos h0, if_pos (by omega), weigh_eq_zero, Nat.zero_add]
        intro e he
        have := exact e he
        omega
      · rw [if_neg h0, if_neg (by omega), moved i h]
        rfl
    offset := rfl
    numBins := rfl
    ordered := by dsimp only; omega
    fits := reach
    below := by
      intro e he
      rcases List.mem_append.mp he with he | he
      · exact canonical.below e he
      · rw [List.mem_singleton.mp he]
        dsimp only
        omega
    initialized := canonical.initialized
    largest := ⟨top, List.mem_append_left _ htop, hmax⟩
    lowest := ⟨_, List.mem_append_right _ List.mem_cons_self, Int.le_refl key⟩
    full_or_exact := .inr fun e he => by
      rcases List.mem_append.mp he with he | he
      · exact Int.le_trans (Int.le_of_lt below) (exact e he)
      · rw [List.mem_singleton.mp he]
    full_of_collapsed := by
      intro h
      rw [collapsed] at h
      cases h }

/-- A canonical sketch that absorbs the key stays canonical. -/
theorem Canonical.addToBin (canonical : Canonical s keys)
    (absorbs : Absorbs s key) (small : total (keys ++ [(key, weight.toNat)]) < 2 ^ 32) :
    Canonical (s.addToBin key weight) (keys ++ [(key, weight.toNat)]) := by
  have numBins := canonical.numBins
  have ordered := canonical.ordered
  have full := canonical.full_of_collapsed
  obtain ⟨bottom, hbottom, hmin⟩ := canonical.lowest
  unfold DDSketch.addToBin
  rw [if_neg (by simp [canonical.initialized])]
  split
  · next inside =>
      exact canonical.bump _ inside.2 small (by rw [canonical.offset]; omega) (.inl inside.1)
  split
  · next above =>
      apply Room.bump _ small
      by_cases wide : key - s.minKey + 1 > MAX_BINS
      · rw [if_pos wide]
        exact canonical.collapseToFit (total_lt small) (Int.le_of_lt above) (.inl (by omega))
          ⟨bottom, hbottom, by omega⟩
      · rw [if_neg wide]
        exact {
          toSpans := canonical.toSpans
          initialized := canonical.initialized
          upTo := Int.le_of_lt above
          reach := by omega
          lowest := ⟨bottom, hbottom, hmin⟩
          full_or_exact := canonical.full_or_exact.imp (by omega) id
          full_of_collapsed := by
            intro h
            have := full h
            omega }
  split
  · next collapsed =>
      exact canonical.bump _ (by omega) small (by omega) (.inr (full collapsed))
  split
  · next far =>
      have used : s.minKey = s.maxKey - MAX_BINS + 1 := by
        rcases absorbs with h | h | h
        · omega
        · omega
        · exact h
      have h := canonical.bump 0 (by omega) small (by omega) (.inr used)
      exact { h with full_of_collapsed := fun _ => used }
  · next collapsed near =>
      dsimp only
      rw [if_pos (by omega)]
      exact canonical.reachDown (by omega) (by omega) (by simpa using collapsed)

end DFTracer.Aggregation.DDSketch
