/-
# The shape of a sketch

A sketch that came about by adding keys and merging, in any order, either has no keys and
looks like a new one apart from its counts, or its bins in use begin with one that is not
empty and all bins after them are empty. Nothing is assumed about how far apart the keys are
or how much they weigh.
-/

import DFTracer.Aggregation.SketchMerge

namespace DFTracer.Aggregation.DDSketch

/-- The keys that are not the one of a zero. -/
def leastKey : Int := -2 ^ 31 + 1

def greatestKey : Int := 2 ^ 31 - 1

/-- The bins from a number on are empty. -/
def Ends (store : Vector UInt32 MAX_BINS) (num : Int) : Prop :=
  ∀ i (h : i < MAX_BINS), num ≤ i → store[i] = 0

/-- The bins from the lowest to the largest key are in use, none after them is, and the lowest
one is not empty. Only far enough above the least key of all are bins collapsed. -/
structure Live (s : DDSketch) : Prop where
  initialized : s.initialized = true
  offset : s.offset = s.minKey
  numBins : s.numBins = s.maxKey - s.minKey + 1
  ordered : s.minKey ≤ s.maxKey
  fits : s.numBins ≤ MAX_BINS
  first : s.store[0] ≠ 0
  ends : Ends s.store s.numBins
  least : leastKey ≤ s.minKey
  greatest : s.maxKey ≤ greatestKey
  deep : s.collapsed = true → leastKey + MAX_BINS ≤ s.maxKey

/-- Only the counts and the extreme values tell the sketch from a new one. -/
structure Idle (s : DDSketch) : Prop where
  uninitialized : s.initialized = false
  collapsed : s.collapsed = false
  store : s.store = Vector.replicate MAX_BINS 0
  offset : s.offset = 0
  numBins : s.numBins = 0

/-- What a sketch can look like. -/
inductive Shaped (s : DDSketch) : Prop
  | idle (idle : Idle s)
  | live (live : Live s)

section Store

variable {store : Vector UInt32 MAX_BINS} {num : Int} {count : UInt32} {pos : Int}

theorem saturate_ne_zero {old : UInt32} (some : old ≠ 0 ∨ count ≠ 0) :
    saturate old count ≠ 0 := by
  unfold saturate
  split
  · decide
  · next fits =>
      intro none
      have hsum := congrArg UInt32.toNat none
      have hcount := count.toNat_lt
      have room : (0xFFFFFFFF - count : UInt32).toNat = 2 ^ 32 - 1 - count.toNat := by
        rw [UInt32.toNat_sub_of_le]
        · rfl
        · rw [UInt32.le_iff_toNat_le]
          have : (0xFFFFFFFF : UInt32).toNat = 2 ^ 32 - 1 := rfl
          omega
      rw [gt_iff_lt, UInt32.lt_iff_toNat_lt] at fits
      rw [UInt32.toNat_add] at hsum
      have hzero : (0 : UInt32).toNat = 0 := rfl
      rcases some with h | h
      · exact h (UInt32.toNat_inj.mp (by omega))
      · exact h (UInt32.toNat_inj.mp (by omega))

theorem bump_ne_zero {i : Nat} (h : i < MAX_BINS)
    (some : store[i] ≠ 0 ∨ (i : Int) = pos ∧ count ≠ 0) : (bump store pos count)[i] ≠ 0 := by
  rw [getElem_bump pos count h]
  split
  · exact saturate_ne_zero (some.imp id And.right)
  · next other => exact some.resolve_right fun here => other here.1

theorem foldl_saturate_ne_zero (bins : List UInt32) {sum : UInt32} (some : sum ≠ 0) :
    bins.foldl saturate sum ≠ 0 := by
  induction bins generalizing sum with
  | nil => exact some
  | cons bin bins ih => exact ih (saturate_ne_zero (.inl some))

theorem collapsedSum_ne_zero (first : store[0] ≠ 0) {n : Int} (positive : 0 < n) :
    collapsedSum store n ≠ 0 := by
  have hlist : store.toList = store[0] :: store.toList.tail := by
    have hcons := List.cons_head_tail (l := store.toList) (by
      intro hnil
      have := congrArg List.length hnil
      rw [Vector.length_toList] at this
      cases this)
    rw [← hcons]
    congr 1
    rw [List.head_eq_getElem, Vector.getElem_toList]
  obtain ⟨m, hm⟩ : ∃ m, n.toNat = m + 1 := ⟨n.toNat - 1, by omega⟩
  rw [collapsedSum, hm, hlist, List.take_succ_cons, List.foldl_cons]
  exact foldl_saturate_ne_zero _ (saturate_ne_zero (.inr first))

theorem Ends.bump (ends : Ends store num) (inside : pos < num) (count : UInt32) :
    Ends (DDSketch.bump store pos count) num := by
  intro i h above
  rw [getElem_bump pos count h, if_neg (by omega)]
  exact ends i h above

theorem Ends.mono (ends : Ends store num) {more : Int} (grows : num ≤ more) : Ends store more :=
  fun i h above => ends i h (by omega)

theorem Ends.all : Ends store MAX_BINS := by
  intro i h above
  omega

/-- Bins moved up leave as many empty ones fewer. -/
theorem Ends.moveUp (ends : Ends store num) {shift : Int} (up : 0 ≤ shift) :
    Ends (DDSketch.moveUp store shift (min num (MAX_BINS - shift))) (num + shift) := by
  intro i h above
  rw [getElem_moveUp shift _ h]
  split
  · rfl
  rw [if_neg (by omega)]
  exact ends i h (by omega)

end Store

/-! ## Adding a key -/

variable {s o : DDSketch} {key : Int} {count : UInt32} {offset : Int}
  {store : Vector UInt32 MAX_BINS}

theorem Idle.addToBin (idle : Idle s) (least : leastKey ≤ key)
    (greatest : key ≤ greatestKey) (some : count ≠ 0) : Live (s.addToBin key count) := by
  unfold DDSketch.addToBin
  rw [if_pos (by simp [idle.uninitialized])]
  exact {
    initialized := rfl
    offset := rfl
    numBins := by dsimp only; omega
    ordered := Int.le_refl key
    fits := by
      change (1 : Int) ≤ 128
      decide
    first := by
      rwa [Vector.getElem_set_self]
    ends := by
      intro i h above
      dsimp only at above ⊢
      rw [Vector.getElem_set_ne _ _ (by omega), idle.store, Vector.getElem_replicate]
    least
    greatest
    deep := by
      intro collapsed
      rw [idle.collapsed] at collapsed
      cases collapsed }

/-- Collapsing to a key beyond the reach of the bins. -/
theorem Live.collapseToFit_first (live : Live s) (below : s.minKey ≤ key - MAX_BINS + 1) :
    (s.collapseToFit key).store[0] ≠ 0 := by
  have numBins := live.numBins
  have ordered := live.ordered
  have first := live.first
  unfold DDSketch.collapseToFit
  dsimp only
  split
  · exact bump_ne_zero (by decide) (.inr ⟨rfl, collapsedSum_ne_zero first (by omega)⟩)
  · split
    · next down => exact bump_ne_zero (by decide) (.inr ⟨rfl, collapsedSum_ne_zero first down⟩)
    · rw [if_neg (by omega)]
      exact first

/-- Counting in a bin in use. -/
theorem Live.bump (live : Live s) {pos : Int} (inside : pos < s.numBins) (count : UInt32) :
    Live { s with store := DDSketch.bump s.store pos count } where
  initialized := by rw [live.initialized]
  __ := live
  first := by
    exact bump_ne_zero (by decide) (.inl live.first)
  ends := by
    exact live.ends.bump inside count

/-- Counting in a bin above all that are in use. -/
theorem Live.grow (live : Live s) (grows : s.maxKey ≤ key)
    (reach : key - s.minKey + 1 ≤ MAX_BINS) (greatest : key ≤ greatestKey) :
    Live { s with maxKey := key, numBins := key - s.minKey + 1 } := by
  have ordered := live.ordered
  have numBins := live.numBins
  exact {
    initialized := by rw [live.initialized]
    __ := live
    numBins := rfl
    ordered := by dsimp only; omega
    fits := reach
    ends := live.ends.mono (by dsimp only; omega)
    greatest
    deep := fun collapsed => by
      have := live.deep collapsed
      dsimp only
      omega }

theorem Live.collapseToFit (live : Live s) (below : s.minKey ≤ key - MAX_BINS)
    (greatest : key ≤ greatestKey) : Live (s.collapseToFit key) := by
  have least := live.least
  have hmax : (MAX_BINS : Int) = 128 := rfl
  exact {
    initialized := by rw [collapseToFit_initialized, live.initialized]
    offset := by rw [collapseToFit_offset, collapseToFit_minKey]
    numBins := by
      rw [collapseToFit_numBins, collapseToFit_minKey, collapseToFit_maxKey]
      omega
    ordered := by
      rw [collapseToFit_minKey, collapseToFit_maxKey]
      omega
    fits := by rw [collapseToFit_numBins]
    first := live.collapseToFit_first (by omega)
    ends := by
      rw [collapseToFit_numBins]
      exact Ends.all
    least := by
      rw [collapseToFit_minKey]
      omega
    greatest := by rwa [collapseToFit_maxKey]
    deep := by
      intro _
      rw [collapseToFit_maxKey]
      omega }

section AddToBin

variable {key : Int} (count : UInt32)

section

variable (initialized : s.initialized = true)

include initialized

theorem addToBin_inside (low : s.minKey ≤ key)
    (high : key ≤ s.maxKey) :
    s.addToBin key count = { s with store := DDSketch.bump s.store (key - s.offset) count } := by
  unfold DDSketch.addToBin
  rw [if_neg (by simp [initialized]), if_pos ⟨low, high⟩]

theorem addToBin_above_far (above : s.maxKey < key)
    (far : MAX_BINS < key - s.minKey + 1) :
    s.addToBin key count =
      { s.collapseToFit key with
        maxKey := key, numBins := key - (s.collapseToFit key).minKey + 1
        store := DDSketch.bump (s.collapseToFit key).store
          (key - (s.collapseToFit key).offset) count } := by
  unfold DDSketch.addToBin
  rw [if_neg (by simp [initialized]), if_neg (by omega), if_pos above]
  simp only [if_pos (show key - s.minKey + 1 > MAX_BINS from far)]

theorem addToBin_above_near (above : s.maxKey < key)
    (near : key - s.minKey + 1 ≤ MAX_BINS) :
    s.addToBin key count =
      { s with
        maxKey := key, numBins := key - s.minKey + 1
        store := DDSketch.bump s.store (key - s.offset) count } := by
  unfold DDSketch.addToBin
  rw [if_neg (by simp [initialized]), if_neg (by omega), if_pos above]
  simp only [if_neg (show ¬key - s.minKey + 1 > MAX_BINS by omega)]

/-- A key below bins that have collapsed, or far below them. -/
theorem addToBin_below (below : key < s.minKey)
    (ordered : s.minKey ≤ s.maxKey)
    (used : s.collapsed = true ∨ MAX_BINS < s.maxKey - key + 1) :
    s.addToBin key count =
      { s with store := DDSketch.bump s.store 0 count, collapsed := true } := by
  unfold DDSketch.addToBin
  rw [if_neg (by simp [initialized]), if_neg (by omega), if_neg (by omega)]
  split
  · next collapsed => rw [← collapsed]
  · next kept => rw [if_pos (used.resolve_left kept)]

theorem addToBin_lower (below : key < s.minKey)
    (some : 0 < s.numBins) (ordered : s.minKey ≤ s.maxKey) (kept : s.collapsed = false)
    (near : s.maxKey - key + 1 ≤ MAX_BINS) :
    s.addToBin key count =
      { s with
        offset := key, minKey := key, numBins := s.maxKey - key + 1
        store := (moveUp s.store (s.minKey - key)
          (min s.numBins (MAX_BINS - (s.minKey - key)))).set 0 count } := by
  unfold DDSketch.addToBin
  rw [if_neg (by simp [initialized]), if_neg (by omega), if_neg (by omega),
    if_neg (by simp [kept]), if_neg (by omega)]
  simp only [if_pos (show s.minKey - key > 0 ∧ s.numBins > 0 by omega)]

end

end AddToBin

theorem Live.addToBin (live : Live s) (least : leastKey ≤ key)
    (greatest : key ≤ greatestKey) (some : count ≠ 0) : Live (s.addToBin key count) := by
  have offset := live.offset
  have numBins := live.numBins
  have ordered := live.ordered
  by_cases below : key < s.minKey
  · by_cases used : s.collapsed = true ∨ MAX_BINS < s.maxKey - key + 1
    · rw [addToBin_below count live.initialized below ordered used]
      have bumped := live.bump (show 0 < s.numBins by omega) count
      exact {
        bumped with
        deep := by
          intro _
          dsimp only
          rcases used with collapsed | far
          · exact live.deep collapsed
          · omega }
    · have kept : s.collapsed = false := by
        rw [← Bool.not_eq_true]
        exact fun collapsed => used (.inl collapsed)
      have near : s.maxKey - key + 1 ≤ MAX_BINS := Int.not_lt.mp fun far => used (.inr far)
      rw [addToBin_lower count live.initialized below (by omega) ordered kept near]
      exact {
        initialized := by rw [live.initialized]
        offset := rfl
        numBins := rfl
        ordered := by dsimp only; omega
        fits := near
        first := by
          rwa [Vector.getElem_set_self]
        ends := by
          intro i h far
          dsimp only at far ⊢
          rw [Vector.getElem_set_ne _ _ (by omega)]
          exact (live.ends.moveUp (show 0 ≤ s.minKey - key by omega)) i h (by omega)
        least
        greatest := live.greatest
        deep := by
          intro collapsed
          exact absurd collapsed (by simp [kept]) }
  by_cases inside : key ≤ s.maxKey
  · rw [addToBin_inside count live.initialized (by omega) inside]
    exact live.bump (by omega) count
  by_cases far : MAX_BINS < key - s.minKey + 1
  · rw [addToBin_above_far count live.initialized (by omega) far]
    have room := live.collapseToFit (show s.minKey ≤ key - MAX_BINS by omega) greatest
    have roomOffset := room.offset
    have reached : (s.collapseToFit key).maxKey ≤ key := by
      rw [collapseToFit_maxKey]
    have grown := room.grow reached (by rw [collapseToFit_minKey]; omega) greatest
    exact grown.bump (by dsimp only; omega) count
  · rw [addToBin_above_near count live.initialized (by omega) (by omega)]
    have grown := live.grow (show s.maxKey ≤ key by omega) (by omega) greatest
    exact grown.bump (by dsimp only; omega) count

theorem Shaped.addToBin (shaped : Shaped s) (least : leastKey ≤ key)
    (greatest : key ≤ greatestKey) (some : count ≠ 0) : Live (s.addToBin key count) := by
  cases shaped with
  | idle idle => exact idle.addToBin least greatest some
  | live live => exact live.addToBin least greatest some

/-! ## Merging -/

/-- The store with the other sketch's bins of some keys counted in. -/
def countedIn (o : DDSketch) (offset : Int) :
    List Int → Vector UInt32 MAX_BINS → Vector UInt32 MAX_BINS
  | [], store => store
  | k :: ks, store =>
    countedIn o offset ks
      (bump store (max k offset - offset) (o.store.toList.getD (k - o.offset).toNat 0))

/-- A merge changes the store only. -/
theorem foldl_mergeBin_eq (ks : List Int) (r : DDSketch)
    (inside : ∀ k ∈ ks, 0 ≤ k - o.offset ∧ k - o.offset < MAX_BINS) :
    ks.foldl (mergeBin o) r = { r with store := countedIn o r.offset ks r.store } := by
  induction ks generalizing r with
  | nil => rw [List.foldl_nil, countedIn]
  | cons k ks ih =>
    obtain ⟨low, high⟩ := inside k List.mem_cons_self
    rw [List.foldl_cons, mergeBin_eq low high,
      ih _ fun k hk => inside k (List.mem_cons_of_mem _ hk), countedIn]

theorem countedIn_ne_zero (ks : List Int)
    (first : store[0] ≠ 0) : (countedIn o offset ks store)[0] ≠ 0 := by
  induction ks generalizing store with
  | nil => rwa [countedIn]
  | cons k ks ih =>
    exact ih (bump_ne_zero (by decide) (.inl first))

theorem Ends.countedIn {num : Int} (ks : List Int)
    (ends : Ends store num) (inside : ∀ k ∈ ks, max k offset - offset < num) :
    Ends (countedIn o offset ks store) num := by
  induction ks generalizing store with
  | nil => rwa [DDSketch.countedIn]
  | cons k ks ih =>
    apply ih
    · exact ends.bump (inside k List.mem_cons_self) _
    · exact fun k hk => inside k (List.mem_cons_of_mem _ hk)

theorem mem_binKeys {k : Int} (h : k ∈ o.binKeys) : o.minKey ≤ k ∧ k ≤ o.maxKey := by
  rw [binKeys_eq] at h
  obtain ⟨d, hd, rfl⟩ := List.mem_map.mp h
  have := List.mem_range.mp hd
  omega

/-- The bins of the other sketch begin with its lowest key. -/
theorem Live.binKeys_cons (live : Live o) : ∃ ks, o.binKeys = o.minKey :: ks := by
  have ordered := live.ordered
  obtain ⟨m, hm⟩ : ∃ m, (o.maxKey - o.minKey + 1).toNat = m + 1 :=
    ⟨(o.maxKey - o.minKey).toNat, by omega⟩
  rw [binKeys_eq, hm, List.range_succ_eq_map, List.map_cons]
  exact ⟨_, by rw [show o.minKey + ((0 : Nat) : Int) = o.minKey by omega]⟩

theorem Live.binKeys_inside (live : Live o) :
    ∀ k ∈ o.binKeys, 0 ≤ k - o.offset ∧ k - o.offset < MAX_BINS := by
  intro k hk
  have offset := live.offset
  have numBins := live.numBins
  have fits := live.fits
  have := mem_binKeys hk
  omega

/-- Bins that begin lower and end higher. -/
structure Widened (r s o : DDSketch) : Prop where
  initialized : r.initialized = true
  offset : r.offset = r.minKey
  minKey : r.minKey = max (min s.minKey o.minKey) (max s.maxKey o.maxKey - MAX_BINS + 1)
  maxKey : r.maxKey = max s.maxKey o.maxKey
  numBins : r.numBins = r.maxKey - r.minKey + 1
  ends : Ends r.store r.numBins
  first : s.minKey ≤ r.minKey → r.store[0] ≠ 0
  deep : r.collapsed = true → leastKey + MAX_BINS ≤ r.maxKey

theorem Live.lowerTo (live : Live s) (key : Int) :
    (s.lowerTo key).offset = (s.lowerTo key).minKey ∧
      Ends (s.lowerTo key).store ((s.lowerTo key).maxKey - (s.lowerTo key).minKey + 1) ∧
      (s.minKey ≤ key → (s.lowerTo key).store = s.store) := by
  have numBins := live.numBins
  have ordered := live.ordered
  unfold DDSketch.lowerTo
  split
  · next lower =>
      dsimp only
      rw [if_pos (by omega)]
      refine ⟨rfl, ?_, fun above => by omega⟩
      exact (live.ends.moveUp (show 0 ≤ s.minKey - key by omega)).mono (by omega)
  · exact ⟨live.offset, live.ends.mono (by omega), fun _ => rfl⟩

theorem makeRoom_near (near : max s.maxKey o.maxKey - min s.minKey o.minKey + 1 ≤ MAX_BINS) :
    s.makeRoom o = (s.lowerTo (min s.minKey o.minKey)).raiseTo (max s.maxKey o.maxKey) := by
  unfold makeRoom
  simp only [if_pos near]

theorem makeRoom_far (far : ¬max s.maxKey o.maxKey - min s.minKey o.minKey + 1 ≤ MAX_BINS) :
    s.makeRoom o =
      ((s.collapseToFit (max s.maxKey o.maxKey)).lowerTo
        (max s.maxKey o.maxKey - MAX_BINS + 1)).raiseTo (max s.maxKey o.maxKey) := by
  unfold makeRoom
  simp only [if_neg far]

theorem Live.makeRoom (hs : Live s) (ho : Live o) : Widened (s.makeRoom o) s o := by
  by_cases near : max s.maxKey o.maxKey - min s.minKey o.minKey + 1 ≤ MAX_BINS
  · rw [makeRoom_near near]
    obtain ⟨offset, ends, kept⟩ := hs.lowerTo (min s.minKey o.minKey)
    rw [lowerTo_maxKey, lowerTo_minKey] at ends
    exact {
      initialized := by rw [raiseTo_initialized, lowerTo_initialized, hs.initialized]
      offset := by rw [raiseTo_offset, raiseTo_minKey, offset]
      minKey := by
        rw [raiseTo_minKey, lowerTo_minKey]
        omega
      maxKey := by
        rw [raiseTo_maxKey, lowerTo_maxKey]
        omega
      numBins := by
        rw [raiseTo_numBins, raiseTo_maxKey, raiseTo_minKey, lowerTo_maxKey, lowerTo_minKey]
        omega
      ends := by
        rw [raiseTo_store, raiseTo_numBins, lowerTo_minKey]
        exact ends.mono (by omega)
      first := by
        intro above
        rw [raiseTo_minKey, lowerTo_minKey] at above
        rw [raiseTo_store, kept (by omega)]
        exact hs.first
      deep := by
        intro collapsed
        rw [raiseTo_collapsed, lowerTo_collapsed] at collapsed
        have := hs.deep collapsed
        rw [raiseTo_maxKey]
        omega }
  · rw [makeRoom_far near]
    have least := hs.least
    have least' := ho.least
    exact {
      initialized := by
        rw [raiseTo_initialized, lowerTo_initialized, collapseToFit_initialized, hs.initialized]
      offset := by
        rw [raiseTo_offset, raiseTo_minKey, lowerTo_minKey, collapseToFit_minKey]
        unfold DDSketch.lowerTo
        rw [if_neg (by rw [collapseToFit_minKey]; omega), collapseToFit_offset]
        omega
      minKey := by
        rw [raiseTo_minKey, lowerTo_minKey, collapseToFit_minKey]
        omega
      maxKey := by
        rw [raiseTo_maxKey, lowerTo_maxKey, collapseToFit_maxKey]
        omega
      numBins := by
        rw [raiseTo_numBins, raiseTo_maxKey, raiseTo_minKey, lowerTo_maxKey, lowerTo_minKey,
          collapseToFit_maxKey, collapseToFit_minKey]
        omega
      ends := by
        rw [raiseTo_numBins, lowerTo_minKey]
        exact Ends.all.mono (by omega)
      first := by
        intro above
        rw [raiseTo_minKey, lowerTo_minKey] at above
        rw [raiseTo_store]
        unfold DDSketch.lowerTo
        rw [if_neg (by rw [collapseToFit_minKey]; omega)]
        exact hs.collapseToFit_first (by omega)
      deep := by
        intro _
        rw [raiseTo_maxKey]
        omega }

theorem Live.takeOver (live : Live s) : Live (s.takeOver o) where
  initialized := by
    exact live.initialized
  __ := live

theorem merge_live (hs : s.initialized = true) (ho : Live o) (counted : o.count ≠ 0) :
    s.merge o = { (s.takeOver o).makeRoom o with
      store := countedIn o ((s.takeOver o).makeRoom o).offset o.binKeys
        ((s.takeOver o).makeRoom o).store } := by
  rw [merge_initialized hs ho.initialized counted,
    foldl_mergeBin_eq _ _ ho.binKeys_inside]

theorem Live.merge (hs : Live s) (ho : Live o) (counted : o.count ≠ 0) : Live (s.merge o) := by
  have ordered := hs.ordered
  have least := hs.least
  have least' := ho.least
  have greatest := hs.greatest
  have greatest' := ho.greatest
  have room := (hs.takeOver (o := o)).makeRoom ho
  rw [merge_live hs.initialized ho counted]
  have minKey : ((s.takeOver o).makeRoom o).minKey =
    max (min s.minKey o.minKey) (max s.maxKey o.maxKey - MAX_BINS + 1) := room.minKey
  have maxKey : ((s.takeOver o).makeRoom o).maxKey = max s.maxKey o.maxKey := room.maxKey
  have first : s.minKey ≤ ((s.takeOver o).makeRoom o).minKey →
    ((s.takeOver o).makeRoom o).store[0] ≠ 0 := room.first
  have initialized := room.initialized
  have offset := room.offset
  have numBins := room.numBins
  have ends := room.ends
  have deep := room.deep
  generalize (s.takeOver o).makeRoom o = r at *
  have hmax : (MAX_BINS : Int) = 128 := rfl
  exact {
    initialized := by rw [initialized]
    offset
    numBins
    ordered := by
      dsimp only
      omega
    fits := by
      dsimp only
      omega
    first := by
      by_cases above : s.minKey ≤ r.minKey
      · exact countedIn_ne_zero _ (first above)
      · -- the bins now begin at a key of the other sketch, or where it is collapsed to
        obtain ⟨ks, hks⟩ := ho.binKeys_cons
        have ofirst : o.store.toList.getD (o.minKey - o.offset).toNat 0 ≠ 0 := by
          rw [ho.offset, Int.sub_self, getD_toList _ (by decide)]
          exact ho.first
        rw [hks, DDSketch.countedIn]
        apply countedIn_ne_zero
        exact bump_ne_zero (by decide) (.inr ⟨by omega, ofirst⟩)
    ends := by
      apply ends.countedIn
      intro k hk
      have := mem_binKeys hk
      omega
    least := by
      dsimp only
      omega
    greatest := by
      dsimp only
      omega
    deep }

/-- Merging a sketch without keys. -/
theorem merge_idle (counted : o.count ≠ 0) (ho : o.initialized = false) :
    s.merge o = s.takeOver o := by
  unfold DDSketch.merge
  rw [if_neg counted]
  rw [if_pos (by simp [ho])]
  rfl

/-- Merging into a sketch without keys. -/
theorem merge_into_idle (counted : o.count ≠ 0) (ho : o.initialized = true)
    (hs : s.initialized = false) :
    s.merge o =
      { s.takeOver o with
        store := o.store, offset := o.offset, minKey := o.minKey, maxKey := o.maxKey
        numBins := o.numBins, initialized := o.initialized, collapsed := o.collapsed } := by
  unfold DDSketch.merge
  rw [if_neg counted]
  rw [if_neg (by simp [ho]), if_pos (by simp [hs])]
  rfl

theorem Idle.takeOver (idle : Idle s) : Idle (s.takeOver o) :=
  ⟨idle.uninitialized, idle.collapsed, idle.store, idle.offset, idle.numBins⟩

theorem Idle.merge (idle : Idle s) (ho : Live o) (counted : o.count ≠ 0) : Live (s.merge o) := by
  rw [merge_into_idle counted ho.initialized idle.uninitialized]
  exact ⟨ho.initialized, ho.offset, ho.numBins, ho.ordered, ho.fits, ho.first, ho.ends,
    ho.least, ho.greatest, ho.deep⟩

theorem Shaped.merge (hs : Shaped s) (ho : Shaped o) : Shaped (s.merge o) := by
  by_cases counted : o.count = 0
  · unfold DDSketch.merge
    rwa [if_pos counted]
  cases ho with
  | idle ho =>
    rw [merge_idle counted ho.uninitialized]
    cases hs with
    | idle hs => exact .idle hs.takeOver
    | live hs => exact .live hs.takeOver
  | live ho =>
    cases hs with
    | idle hs | live hs => exact .live (hs.merge ho counted)

end DFTracer.Aggregation.DDSketch
