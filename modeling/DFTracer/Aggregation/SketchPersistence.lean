/-
# Sketches across persistence

The bytes of a sketch do not say whether it has keys and whether it has collapsed. Where what
is read back says the same about the former, and all bins of a collapsed sketch are in use, it
goes on as the sketch itself would have. Everywhere else a key or two tell them apart.
-/

import DFTracer.Aggregation.SketchBytes
import DFTracer.Aggregation.SketchOrder
import DFTracer.Aggregation.SketchShape

namespace DFTracer.Aggregation

namespace DDSketch

/-- A bin with its bounds. -/
structure HistogramBin where
  lower : Float
  upper : Float
  count : UInt64

/-- The bin of the zeros. -/
def zeroBins (s : DDSketch) : List HistogramBin :=
  if s.zeroCount > 0 then [{ lower := 0.0, upper := 0.0, count := s.zeroCount }] else []

/-- The bins of the keys. -/
def keyBins (s : DDSketch) : List HistogramBin :=
  if s.initialized then
    (List.range (min s.numBins MAX_BINS).toNat).filterMap fun i =>
      let bin := s.store.toList.getD i 0
      if bin = 0 then none
      else
        some
          { lower := s.binLowerBound (i + s.offset)
            upper := s.binUpperBound (i + s.offset)
            count := bin.toUInt64 }
  else []

/-- The bins that are not empty. -/
def bins (s : DDSketch) : List HistogramBin := s.zeroBins ++ s.keyBins

/-- The sketches that adding keys and merging lead to. -/
inductive Reached : DDSketch → Prop
  | new (accuracy : Float) : Reached (.new accuracy)
  | addKey {s : DDSketch} (reached : Reached s) (a : Added) :
      Reached (s.addKey a.key a.value a.weight)
  | merge {s o : DDSketch} (reached : Reached s) (other : Reached o) : Reached (s.merge o)

end DDSketch

open DDSketch

/-- A sketch that adding keys and merging led to. -/
abbrev ReachedSketch := { s : DDSketch // Reached s }

/-- What can be done to a sketch. -/
inductive SketchOp where
  | addKey (a : Added)
  | merge (o : ReachedSketch)

namespace DDSketch

def step (s : DDSketch) : SketchOp → DDSketch
  | .addKey a => s.addKey a.key a.value a.weight
  | .merge o => s.merge o.1

/-- The sketch after some operations. -/
def after (s : DDSketch) (later : List SketchOp) : DDSketch := later.foldl step s

/-- Sketches that show the same. -/
structure ShowsSame (s t : DDSketch) : Prop where
  bins : s.bins = t.bins
  count : s.count = t.count
  quantile : ∀ q, s.quantile q = t.quantile q

/-- Whatever is done to the sketch, doing it to the one read back from its bytes shows the
same. -/
def Persists (s : DDSketch) : Prop :=
  ∀ later, ShowsSame ((deserialize s.serialize).after later) (s.after later)

/-- The counts tell whether the sketch has keys, and all its bins are in use when it has
collapsed. -/
structure Restorable (s : DDSketch) : Prop where
  initialized : s.initialized = decide (0 < s.count.toNat)
  collapsed : s.collapsed = true → s.numBins = MAX_BINS

variable {s t o : DDSketch} {key : Int32} {count : UInt32}

theorem Idle.new (accuracy : Float) : Idle (.new accuracy) := ⟨rfl, rfl, rfl, rfl, rfl⟩

theorem atLeastOnce_ne_zero (weight : UInt32) : atLeastOnce weight ≠ 0 := by
  unfold atLeastOnce
  split
  · decide
  · assumption

/-- A key that is not the one of a zero is within the limits. -/
theorem key_limits (some : key ≠ SKETCH_ZERO_KEY) :
    leastKey ≤ key.toInt ∧ key.toInt ≤ greatestKey := by
  have least := key.le_toInt
  have greatest := key.toInt_lt
  have differs : key.toInt ≠ -2 ^ 31 := fun h => some (Int32.toInt_inj.mp h)
  unfold leastKey greatestKey
  omega

/-- The sketch with the counts of one more key. -/
def tallied (s : DDSketch) (a : Added) : DDSketch :=
  { s with
    minValue := if a.value < s.minValue then a.value else s.minValue
    maxValue := if a.value > s.maxValue then a.value else s.maxValue
    count := s.count + (atLeastOnce a.weight).toUInt64
    zeroCount :=
      if a.key = SKETCH_ZERO_KEY then s.zeroCount + (atLeastOnce a.weight).toUInt64
      else s.zeroCount }

theorem addKey_eq (s : DDSketch) (a : Added) :
    s.addKey a.key a.value a.weight =
      if a.key = SKETCH_ZERO_KEY then s.tallied a
      else (s.tallied a).addToBin a.key.toInt (atLeastOnce a.weight) := by
  unfold DDSketch.addKey tallied
  dsimp only
  split <;> rfl

theorem Idle.tallied (idle : Idle s) (a : Added) : Idle (s.tallied a) :=
  ⟨idle.uninitialized, idle.collapsed, idle.store, idle.offset, idle.numBins⟩

theorem Live.tallied (live : Live s) (a : Added) : Live (s.tallied a) :=
  ⟨by rw [DDSketch.tallied, live.initialized], live.offset, live.numBins, live.ordered, live.fits,
    live.first, live.ends, live.least, live.greatest, live.deep⟩

theorem Shaped.tallied (shaped : Shaped s) (a : Added) : Shaped (s.tallied a) := by
  cases shaped with
  | idle idle => exact .idle (idle.tallied a)
  | live live => exact .live (live.tallied a)

theorem Shaped.addKey (shaped : Shaped s) (a : Added) :
    Shaped (s.addKey a.key a.value a.weight) := by
  rw [addKey_eq]
  split
  · exact shaped.tallied a
  · next some =>
      obtain ⟨least, greatest⟩ := key_limits some
      exact .live ((shaped.tallied a).addToBin least greatest (atLeastOnce_ne_zero _))

theorem Reached.shaped (reached : Reached s) : Shaped s := by
  induction reached with
  | new accuracy => exact .idle (Idle.new accuracy)
  | addKey reached a ih => exact ih.addKey a
  | merge reached other ih ihOther => exact ih.merge ihOther

/-- The sketch with another logarithm and another mark whether it has collapsed. -/
def disguised (s : DDSketch) (logGamma : Float) (collapsed : Bool) : DDSketch :=
  { s with logGamma, collapsed }

/-- Sketches that differ in what no operation shows: whether they have collapsed when all bins
are in use, and the span while there are no keys. -/
inductive Agrees (s : DDSketch) : DDSketch → Prop
  | live (live : Live s) (logGamma : Float) (collapsed : Bool)
      (same : collapsed = s.collapsed ∨ s.numBins = MAX_BINS) :
      Agrees s (s.disguised logGamma collapsed)
  | idle (idle : Idle s) (logGamma : Float) (minKey maxKey : Int) :
      Agrees s { s with logGamma, minKey, maxKey }

/-- The scan of equal bins. -/
theorem scanBins_congr (store : s.store = t.store) (offset : s.offset = t.offset)
    (gamma : s.gamma = t.gamma) (maxValue : s.maxValue = t.maxValue) (targetRank : Float)
    (is : List Nat) (cumulative : Float) :
    s.scanBins targetRank is cumulative = t.scanBins targetRank is cumulative := by
  induction is generalizing cumulative with
  | nil => exact maxValue
  | cons i is ih =>
    simp only [scanBins, store, offset, binLowerBound, binUpperBound, gamma, ih]

/-- What no operation shows does not show in a quantile. -/
theorem quantile_hidden (s : DDSketch) (logGamma : Float) (collapsed : Bool) (minKey maxKey : Int)
    (q : Float) :
    ({ s with logGamma, collapsed, minKey, maxKey } : DDSketch).quantile q = s.quantile q := by
  have scan :
      ({ s with logGamma, collapsed, minKey, maxKey } : DDSketch).scanBins = s.scanBins := by
    funext targetRank is cumulative
    exact @scanBins_congr { s with logGamma, collapsed, minKey, maxKey } s rfl rfl rfl rfl
      targetRank is cumulative
  unfold quantile
  rw [scan]

theorem Agrees.showsSame (agrees : Agrees s t) : ShowsSame t s := by
  cases agrees with
  | live live logGamma collapsed same =>
    exact ⟨rfl, rfl, quantile_hidden s logGamma collapsed s.minKey s.maxKey⟩
  | idle idle logGamma minKey maxKey =>
    exact ⟨rfl, rfl, quantile_hidden s logGamma s.collapsed minKey maxKey⟩

/-! ## Every operation keeps the agreement -/

theorem collapseToFit_disguised (s : DDSketch) (logGamma : Float) (collapsed : Bool) (key : Int) :
    (s.disguised logGamma collapsed).collapseToFit key =
      (s.collapseToFit key).disguised logGamma true := by
  unfold collapseToFit disguised
  dsimp only
  split <;> rfl

theorem lowerTo_disguised (s : DDSketch) (logGamma : Float) (collapsed : Bool) (key : Int) :
    (s.disguised logGamma collapsed).lowerTo key =
      (s.lowerTo key).disguised logGamma collapsed := by
  unfold lowerTo disguised
  split <;> rfl

theorem raiseTo_disguised (s : DDSketch) (logGamma : Float) (collapsed : Bool) (key : Int) :
    (s.disguised logGamma collapsed).raiseTo key =
      (s.raiseTo key).disguised logGamma collapsed := by
  unfold raiseTo disguised
  split <;> rfl

theorem makeRoom_disguised (s o : DDSketch) (logGamma : Float) (collapsed : Bool) :
    ∃ c, (s.disguised logGamma collapsed).makeRoom o = (s.makeRoom o).disguised logGamma c ∧
      (c = (s.makeRoom o).collapsed ∨ c = collapsed ∧ (s.makeRoom o).collapsed = s.collapsed) := by
  by_cases near : max s.maxKey o.maxKey - min s.minKey o.minKey + 1 ≤ MAX_BINS
  · refine ⟨collapsed, ?_, .inr ⟨rfl, ?_⟩⟩
    · rw [makeRoom_near near, @makeRoom_near (s.disguised logGamma collapsed) o near,
        lowerTo_disguised, raiseTo_disguised]
      rfl
    · rw [makeRoom_near near, raiseTo_collapsed, lowerTo_collapsed]
  · refine ⟨true, ?_, .inl ?_⟩
    · rw [makeRoom_far near, @makeRoom_far (s.disguised logGamma collapsed) o near,
        collapseToFit_disguised, lowerTo_disguised, raiseTo_disguised]
      rfl
    · rw [makeRoom_far near, raiseTo_collapsed, lowerTo_collapsed, collapseToFit_collapsed]

theorem Live.addToBin_agrees (live : Live s) (logGamma : Float) (collapsed : Bool)
    (same : collapsed = s.collapsed ∨ s.numBins = MAX_BINS) {key : Int}
    (least : leastKey ≤ key) (greatest : key ≤ greatestKey) (some : count ≠ 0) :
    Agrees (s.addToBin key count) ((s.disguised logGamma collapsed).addToBin key count) := by
  have after := live.addToBin least greatest some
  have numBins := live.numBins
  have ordered := live.ordered
  have initialized := live.initialized
  have initialized' : (s.disguised logGamma collapsed).initialized = true := initialized
  by_cases below : key < s.minKey
  · by_cases used : s.collapsed = true ∨ MAX_BINS < s.maxKey - key + 1
    · have used' : collapsed = true ∨ MAX_BINS < s.maxKey - key + 1 := by
        rcases same with same | full
        · rwa [same]
        · exact .inr (by omega)
      rw [addToBin_below count initialized below ordered used] at after ⊢
      rw [addToBin_below count initialized' below ordered used']
      exact .live after logGamma true (.inl rfl)
    · have kept : s.collapsed = false := by
        rw [← Bool.not_eq_true]
        exact fun collapsed => used (.inl collapsed)
      have near : s.maxKey - key + 1 ≤ MAX_BINS := Int.not_lt.mp fun far => used (.inr far)
      have same : collapsed = s.collapsed := same.resolve_right (by omega)
      rw [addToBin_lower count initialized below (by omega) ordered kept near] at after ⊢
      rw [addToBin_lower count initialized' below (show 0 < s.numBins by omega) ordered
        (same.trans kept) near]
      exact .live after logGamma collapsed (.inl same)
  by_cases inside : key ≤ s.maxKey
  · rw [addToBin_inside count initialized (by omega) inside] at after ⊢
    rw [addToBin_inside count initialized' (Int.not_lt.mp below) inside]
    exact .live after logGamma collapsed same
  have above : s.maxKey < key := Int.not_le.mp inside
  by_cases far : MAX_BINS < key - s.minKey + 1
  · rw [addToBin_above_far count initialized above far] at after ⊢
    rw [addToBin_above_far count initialized' above far, collapseToFit_disguised]
    refine .live after logGamma true (.inl ?_)
    rw [collapseToFit_collapsed]
  · rw [addToBin_above_near count initialized above (by omega)] at after ⊢
    rw [addToBin_above_near count initialized' above (Int.not_lt.mp far)]
    refine .live after logGamma collapsed ?_
    rcases same with same | full
    · exact .inl same
    · omega

theorem Agrees.tallied (agrees : Agrees s t) (a : Added) : Agrees (s.tallied a) (t.tallied a) := by
  cases agrees with
  | live live logGamma collapsed same => exact .live (live.tallied a) logGamma collapsed same
  | idle idle logGamma minKey maxKey => exact .idle (idle.tallied a) logGamma minKey maxKey

theorem Agrees.addToBin (agrees : Agrees s t) {key : Int}
    (least : leastKey ≤ key) (greatest : key ≤ greatestKey) (some : count ≠ 0) :
    Agrees (s.addToBin key count) (t.addToBin key count) := by
  cases agrees with
  | live live logGamma collapsed same =>
    exact live.addToBin_agrees logGamma collapsed same least greatest some
  | idle idle logGamma minKey maxKey =>
    have after := idle.addToBin least greatest some
    unfold DDSketch.addToBin at after ⊢
    rw [if_pos (by simp [idle.uninitialized])] at after ⊢
    rw [if_pos (by simp [idle.uninitialized])]
    exact .live after logGamma s.collapsed (.inl rfl)

theorem Agrees.addKey (agrees : Agrees s t) (a : Added) :
    Agrees (s.addKey a.key a.value a.weight) (t.addKey a.key a.value a.weight) := by
  rw [addKey_eq, addKey_eq]
  by_cases zero : a.key = SKETCH_ZERO_KEY
  · rw [if_pos zero, if_pos zero]
    exact agrees.tallied a
  · rw [if_neg zero, if_neg zero]
    obtain ⟨least, greatest⟩ := key_limits zero
    exact (agrees.tallied a).addToBin least greatest (atLeastOnce_ne_zero _)

theorem Live.merge_agrees (live : Live s) (ho : Live o) (counted : o.count ≠ 0) (logGamma : Float)
    (collapsed : Bool) (same : collapsed = s.collapsed ∨ s.numBins = MAX_BINS) :
    Agrees (s.merge o) ((s.disguised logGamma collapsed).merge o) := by
  have after := live.merge ho counted
  have numBins := live.numBins
  have room := (live.takeOver (o := o)).makeRoom ho
  have roomNumBins := room.numBins
  have minKey : ((s.takeOver o).makeRoom o).minKey =
    max (min s.minKey o.minKey) (max s.maxKey o.maxKey - MAX_BINS + 1) := room.minKey
  have maxKey : ((s.takeOver o).makeRoom o).maxKey = max s.maxKey o.maxKey := room.maxKey
  obtain ⟨c, hroom, hc⟩ := makeRoom_disguised (s.takeOver o) o logGamma collapsed
  rw [merge_live live.initialized ho counted] at after ⊢
  rw [@merge_live (s.disguised logGamma collapsed) o live.initialized ho counted]
  rw [show (s.disguised logGamma collapsed).takeOver o =
    (s.takeOver o).disguised logGamma collapsed from rfl, hroom]
  refine .live after logGamma c ?_
  dsimp only
  rcases hc with hc | ⟨hc, kept⟩
  · exact .inl hc
  rcases same with same | full
  · left
    rw [hc, kept, same]
    rfl
  · -- bins that are all in use stay so
    right
    omega

theorem Agrees.merge (agrees : Agrees s t) (ho : Shaped o) : Agrees (s.merge o) (t.merge o) := by
  by_cases counted : o.count = 0
  · unfold DDSketch.merge
    rwa [if_pos counted, if_pos counted]
  cases ho with
  | idle ho =>
    rw [merge_idle counted ho.uninitialized, merge_idle counted ho.uninitialized]
    cases agrees with
    | live live logGamma collapsed same => exact .live live.takeOver logGamma collapsed same
    | idle idle logGamma minKey maxKey => exact .idle idle.takeOver logGamma minKey maxKey
  | live ho =>
    cases agrees with
    | live live logGamma collapsed same =>
      exact live.merge_agrees ho counted logGamma collapsed same
    | idle idle logGamma minKey maxKey =>
      have same : ({ s with logGamma, minKey, maxKey } : DDSketch).merge o =
          (s.merge o).disguised logGamma (s.merge o).collapsed := by
        rw [merge_into_idle counted ho.initialized idle.uninitialized,
          merge_into_idle counted ho.initialized (by exact idle.uninitialized)]
        rfl
      rw [same]
      exact .live (idle.merge ho counted) logGamma _ (.inl rfl)

/-- Agreement is kept over whatever is done later. -/
theorem Agrees.after (agrees : Agrees s t) (later : List SketchOp) :
    Agrees (s.after later) (t.after later) := by
  induction later generalizing s t with
  | nil => exact agrees
  | cons op later ih =>
    apply ih
    cases op with
    | addKey a => exact agrees.addKey a
    | merge o => exact agrees.merge o.2.shaped

theorem Shaped.storable (shaped : Shaped s) : Storable s := by
  cases shaped with
  | idle idle =>
    have offset := idle.offset
    have numBins := idle.numBins
    exact ⟨by omega, by omega, by omega, by omega⟩
  | live live =>
    have offset := live.offset
    have numBins := live.numBins
    have ordered := live.ordered
    have least := live.least
    have greatest := live.greatest
    unfold leastKey at least
    unfold greatestKey at greatest
    exact ⟨by omega, live.fits, by omega, by omega⟩

theorem Live.restored_eq (live : Live s) (counted : 0 < s.count.toNat) :
    s.restored = s.disguised (Float.log s.gamma) false := by
  have offset := live.offset
  have numBins := live.numBins
  have store : (Vector.ofFn fun i : Fin MAX_BINS =>
      if (i : Int) < s.numBins then s.store.get i else 0) = s.store := by
    apply Vector.ext
    intro i h
    rw [Vector.getElem_ofFn]
    split
    · rfl
    · next beyond => exact (live.ends i h (Int.not_lt.mp beyond)).symm
  unfold restored disguised
  rw [decide_eq_true counted, show s.offset + s.numBins - 1 = s.maxKey by omega, ← live.initialized]
  congr 1

/-- No bins are read back where none are in use. -/
theorem Idle.restored_store (idle : Idle s) :
    s.restored.store = Vector.replicate MAX_BINS 0 := by
  have numBins := idle.numBins
  apply Vector.ext
  intro i h
  unfold restored
  rw [Vector.getElem_ofFn, Vector.getElem_replicate, if_neg (by omega)]

theorem Idle.restored_eq (idle : Idle s) (none : s.count.toNat = 0) :
    s.restored =
      { s with
        logGamma := Float.log s.gamma
        minKey := s.offset, maxKey := s.offset + s.numBins - 1 } := by
  have store := idle.restored_store
  unfold restored at store ⊢
  dsimp only at store
  rw [store, ← idle.store, none, idle.uninitialized, idle.collapsed]
  rfl

theorem Restorable.agrees (restorable : Restorable s) (shaped : Shaped s) :
    Agrees s s.restored := by
  have initialized := restorable.initialized
  cases shaped with
  | idle idle =>
    have none : s.count.toNat = 0 := by
      rw [idle.uninitialized] at initialized
      have := of_decide_eq_false initialized.symm
      omega
    rw [idle.restored_eq none]
    exact .idle idle _ _ _
  | live live =>
    rw [live.initialized] at initialized
    rw [live.restored_eq (of_decide_eq_true initialized.symm)]
    apply Agrees.live live
    by_cases collapsed : s.collapsed = true
    · exact .inr (restorable.collapsed collapsed)
    · exact .inl (Bool.eq_false_iff.mpr collapsed).symm

/-- A sketch whose counts and bins tell what is not stored persists. -/
theorem Restorable.persists (restorable : Restorable s) (shaped : Shaped s) : Persists s := by
  intro later
  rw [deserialize_serialize shaped.storable]
  exact ((restorable.agrees shaped).after later).showsSame

/-! ## Telling what was read back apart -/

/-- The count of the first bin of the keys. -/
def firstCount (s : DDSketch) : Option UInt64 := (s.keyBins.map HistogramBin.count).head?

theorem ShowsSame.firstCount (same : ShowsSame s t) (zeros : s.zeroCount = t.zeroCount) :
    s.firstCount = t.firstCount := by
  have zeroBins : s.zeroBins = t.zeroBins := by rw [DDSketch.zeroBins, DDSketch.zeroBins, zeros]
  have keyBins : s.keyBins = t.keyBins := by
    have bins := same.bins
    rwa [DDSketch.bins, DDSketch.bins, zeroBins, List.append_cancel_left_eq] at bins
  rw [DDSketch.firstCount, DDSketch.firstCount, keyBins]

theorem firstCount_eq (initialized : s.initialized = true) (some : 0 < s.numBins)
    (first : s.store[0] ≠ 0) : s.firstCount = Option.some s.store[0].toUInt64 := by
  have hmax : (MAX_BINS : Int) = 128 := rfl
  obtain ⟨n, hn⟩ : ∃ n, (min s.numBins MAX_BINS).toNat = n + 1 :=
    ⟨(min s.numBins MAX_BINS).toNat - 1, by omega⟩
  unfold firstCount keyBins
  rw [if_pos initialized, hn, List.range_succ_eq_map, List.filterMap_cons]
  rw [getD_toList _ (by decide), if_neg first]
  rfl

theorem firstCount_none (initialized : s.initialized = false) : s.firstCount = none := by
  unfold firstCount keyBins
  rw [if_neg (by simp [initialized])]
  rfl

theorem toUInt64_ne {a b : UInt32} (h : a ≠ b) : Option.some a.toUInt64 ≠ some b.toUInt64 := by
  intro same
  apply h
  have := congrArg UInt64.toNat (Option.some.inj same)
  exact UInt32.toNat_inj.mp this

theorem saturate_one_ne {old : UInt32} (some : old ≠ 0) : saturate old 1 ≠ 1 := by
  unfold saturate
  split
  · decide
  · intro one
    apply some
    have := congrArg (· - 1) one
    simpa using this

/-- One addition of a key. -/
def once (key : Int32) : Added := { key, value := 1.0, weight := 1 }

theorem step_once (some : key ≠ SKETCH_ZERO_KEY) :
    s.step (.addKey (once key)) = (s.tallied (once key)).addToBin key.toInt 1 := by
  change s.addKey (once key).key (once key).value (once key).weight = _
  rw [addKey_eq, if_neg (by exact some)]
  rfl

theorem step_once_zeroCount (some : key ≠ SKETCH_ZERO_KEY) :
    (s.step (.addKey (once key))).zeroCount = s.zeroCount := by
  have tallies := addToBin_tallies (s.tallied (once key)) key.toInt 1
  simp only [DDSketch.tallies, Prod.mk.injEq] at tallies
  rw [step_once some, tallies.2.2.2.2]
  exact if_neg some

/-- The first bin after a key below all that are in use. -/
theorem firstCount_below (initialized : s.initialized = true) {key : Int} (below : key < s.minKey)
    (some : 0 < s.numBins) (ordered : s.minKey ≤ s.maxKey)
    (used : s.collapsed = true ∨ MAX_BINS < s.maxKey - key + 1) :
    (s.addToBin key 1).firstCount = Option.some (saturate s.store[0] 1).toUInt64 := by
  have first : (DDSketch.bump s.store 0 1)[0] = saturate s.store[0] 1 := by
    rw [getElem_bump 0 1 (by decide), if_pos (by rfl)]
  rw [addToBin_below 1 initialized below ordered used, ← first]
  apply firstCount_eq
  · exact initialized
  · exact some
  · exact bump_ne_zero (by decide) (.inr ⟨rfl, by decide⟩)

/-- The first bin after a key that gets one of its own below all others. -/
theorem firstCount_lower (initialized : s.initialized = true) {key : Int} (below : key < s.minKey)
    (some : 0 < s.numBins) (ordered : s.minKey ≤ s.maxKey) (kept : s.collapsed = false)
    (near : s.maxKey - key + 1 ≤ MAX_BINS) :
    (s.addToBin key 1).firstCount = Option.some (1 : UInt32).toUInt64 := by
  rw [addToBin_lower 1 initialized below some ordered kept near, firstCount_eq]
  · rw [Vector.getElem_set_self]
  · exact initialized
  · dsimp only
    omega
  · rw [Vector.getElem_set_self]
    decide

/-- Bins that are read back from a sketch whose count has come round to zero are not shown. -/
theorem Live.not_persists_of_count (live : Live s) (none : s.count.toNat = 0) : ¬Persists s := by
  intro persists
  have same := (persists []).firstCount
  rw [deserialize_serialize (Shaped.live live).storable] at same
  have numBins := live.numBins
  have ordered := live.ordered
  have shown : s.firstCount = some s.store[0].toUInt64 :=
    firstCount_eq live.initialized (by omega) live.first
  have hidden : s.restored.firstCount = Option.none := by
    apply firstCount_none
    unfold restored
    rw [none]
    rfl
  have same : s.restored.firstCount = s.firstCount := same rfl
  rw [shown, hidden] at same
  cases same

/-- A key that is not the one of a zero, within the limits. -/
theorem exists_key {k : Int} (least : leastKey ≤ k) (greatest : k ≤ greatestKey) :
    ∃ key : Int32, key.toInt = k ∧ key ≠ SKETCH_ZERO_KEY := by
  unfold leastKey at least
  unfold greatestKey at greatest
  have hkey : (Int32.ofInt k).toInt = k := Int32.toInt_ofInt_of_le (by omega) (by omega)
  refine ⟨Int32.ofInt k, hkey, ?_⟩
  intro zero
  rw [zero] at hkey
  have : SKETCH_ZERO_KEY.toInt = -2 ^ 31 := rfl
  omega

/-- A key just below the bins is counted in the first one by a sketch that has collapsed, and in
one of its own by the sketch read back when there is still room. -/
theorem Live.not_persists_of_collapsed (live : Live s) (counted : 0 < s.count.toNat)
    (collapsed : s.collapsed = true) (room : s.numBins ≠ MAX_BINS) : ¬Persists s := by
  intro persists
  have numBins := live.numBins
  have ordered := live.ordered
  have fits := live.fits
  have deep := live.deep collapsed
  have greatest := live.greatest
  obtain ⟨key, hkey, nonzero⟩ := @exists_key (s.minKey - 1) (by omega) (by omega)
  have below : key.toInt < s.minKey := by omega
  have own : (s.step (.addKey (once key))).firstCount = some (saturate s.store[0] 1).toUInt64 := by
    rw [step_once nonzero]
    exact @firstCount_below (s.tallied (once key)) live.initialized _ below
      (show 0 < s.numBins by omega) ordered (.inl collapsed)
  have back : ((s.disguised (Float.log s.gamma) false).step (.addKey (once key))).firstCount =
      some (1 : UInt32).toUInt64 := by
    rw [step_once nonzero]
    exact @firstCount_lower ((s.disguised (Float.log s.gamma) false).tallied (once key))
      live.initialized _ below (show 0 < s.numBins by omega) ordered rfl
      (show s.maxKey - key.toInt + 1 ≤ MAX_BINS by omega)
  have same := (persists [.addKey (once key)]).firstCount
  rw [deserialize_serialize (Shaped.live live).storable, live.restored_eq counted] at same
  change ((s.disguised (Float.log s.gamma) false).step (.addKey (once key))).zeroCount =
    (s.step (.addKey (once key))).zeroCount →
    ((s.disguised (Float.log s.gamma) false).step (.addKey (once key))).firstCount =
      (s.step (.addKey (once key))).firstCount at same
  rw [step_once_zeroCount nonzero, step_once_zeroCount nonzero, own, back] at same
  exact toUInt64_ne (saturate_one_ne live.first).symm (same rfl)

/-! ### A sketch of zeros -/

theorem high_ne_zero : (200 : Int32) ≠ SKETCH_ZERO_KEY := by decide

theorem low_ne_zero : (-800 : Int32) ≠ SKETCH_ZERO_KEY := by decide

/-- The second key falls to the bin of the first. -/
theorem Idle.firstCount_after (idle : Idle s) :
    (s.after [.addKey (once 200), .addKey (once (-800))]).firstCount =
      some (2 : UInt32).toUInt64 := by
  have added : (s.tallied (once 200)).addToBin (200 : Int32).toInt 1 =
      { s.tallied (once 200) with
        offset := (200 : Int32).toInt, minKey := (200 : Int32).toInt
        maxKey := (200 : Int32).toInt
        store := s.store.set 0 1, numBins := 1, initialized := true } := by
    unfold DDSketch.addToBin
    rw [if_pos (by simp [DDSketch.tallied, idle.uninitialized])]
    rfl
  change ((s.step (.addKey (once 200))).step (.addKey (once (-800)))).firstCount = _
  rw [step_once high_ne_zero, added, step_once low_ne_zero, firstCount_below]
  · have first : (s.store.set 0 1)[0] = (1 : UInt32) := Vector.getElem_set_self _
    change some (saturate (s.store.set 0 1)[0] 1).toUInt64 = _
    rw [first]
    rfl
  · rfl
  · change (-800 : Int32).toInt < (200 : Int32).toInt
    decide
  · exact Int.one_pos
  · exact Int.le_refl _
  · right
    change (128 : Int) < (200 : Int32).toInt - (-800 : Int32).toInt + 1
    decide

/-- What is read back takes the first key for one far above a bin of key zero, and the second one
gets the lowest bin for its own. -/
theorem Idle.firstCount_restored (idle : Idle s) (counted : 0 < s.count.toNat) :
    (s.restored.after [.addKey (once 200), .addKey (once (-800))]).firstCount =
      some (1 : UInt32).toUInt64 := by
  have hmax : (MAX_BINS : Int) = 128 := rfl
  have high : (200 : Int32).toInt = 200 := by decide
  have low : (-800 : Int32).toInt = -800 := by decide
  have initialized : (s.restored.tallied (once 200)).initialized = true := decide_eq_true counted
  have minKey : (s.restored.tallied (once 200)).minKey = 0 := idle.offset
  have maxKey : (s.restored.tallied (once 200)).maxKey = -1 := by
    change s.offset + s.numBins - 1 = -1
    rw [idle.offset, idle.numBins]
    rfl
  have numBins : (s.restored.tallied (once 200)).numBins = 0 := idle.numBins
  change ((s.restored.step (.addKey (once 200))).step (.addKey (once (-800)))).firstCount = _
  rw [step_once high_ne_zero, step_once low_ne_zero]
  generalize s.restored.tallied (once 200) = r at *
  have empty : (r.collapseToFit (200 : Int32).toInt).store = Vector.replicate MAX_BINS 0 := by
    unfold collapseToFit
    rw [if_pos (by omega), numBins]
    exact bump_zero _ _
  have added := addToBin_above_far 1 initialized
    (show r.maxKey < (200 : Int32).toInt by omega) (by omega)
  have addedInitialized : (r.addToBin (200 : Int32).toInt 1).initialized = true := by
    rw [added]
    rw [collapseToFit_initialized, initialized]
  have addedMinKey : (r.addToBin (200 : Int32).toInt 1).minKey = 73 := by
    rw [added]
    rw [collapseToFit_minKey]
    omega
  have addedMaxKey : (r.addToBin (200 : Int32).toInt 1).maxKey = 200 := by rw [added, high]
  have addedNumBins : (r.addToBin (200 : Int32).toInt 1).numBins = 128 := by
    rw [added]
    dsimp only
    rw [collapseToFit_minKey]
    omega
  have addedCollapsed : (r.addToBin (200 : Int32).toInt 1).collapsed = true := by
    rw [added]
    rw [collapseToFit_collapsed]
  have first : (r.addToBin (200 : Int32).toInt 1).store[0] = 0 := by
    rw [added]
    rw [getElem_bump _ _ (by decide), if_neg (by rw [collapseToFit_offset]; omega), empty,
      Vector.getElem_replicate]
  clear added empty
  generalize r.addToBin (200 : Int32).toInt 1 = added at *
  rw [@firstCount_below (added.tallied (once (-800))) addedInitialized _
    (show (-800 : Int32).toInt < added.minKey by omega) (show 0 < added.numBins by omega)
    (show added.minKey ≤ added.maxKey by omega) (.inl addedCollapsed)]
  change some (saturate added.store[0] 1).toUInt64 = _
  rw [first]
  rfl

/-- A sketch of zeros only goes on from a bin of key zero that it never had. -/
theorem Idle.not_persists_of_count (idle : Idle s) (counted : 0 < s.count.toNat) :
    ¬Persists s := by
  intro persists
  have same := (persists [.addKey (once 200), .addKey (once (-800))]).firstCount
  rw [deserialize_serialize (Shaped.idle idle).storable, idle.firstCount_after,
    idle.firstCount_restored counted] at same
  have zeros : (s.restored.after [.addKey (once 200), .addKey (once (-800))]).zeroCount =
      (s.after [.addKey (once 200), .addKey (once (-800))]).zeroCount := by
    simp only [after, List.foldl_cons, List.foldl_nil, step_once_zeroCount high_ne_zero,
      step_once_zeroCount low_ne_zero]
    rfl
  exact toUInt64_ne (by decide) (same zeros)

/-- Every reached sketch that is not restorable is told apart. -/
theorem Persists.restorable (persists : Persists s) (shaped : Shaped s) : Restorable s := by
  cases shaped with
  | idle idle =>
    constructor
    · rw [idle.uninitialized]
      by_contra differs
      have counted : 0 < s.count.toNat := by
        by_contra none
        exact differs (decide_eq_false none).symm
      exact idle.not_persists_of_count counted persists
    · intro collapsed
      rw [idle.collapsed] at collapsed
      cases collapsed
  | live live =>
    have counted : 0 < s.count.toNat := by
      by_contra none
      exact live.not_persists_of_count (by omega) persists
    constructor
    · rw [live.initialized, decide_eq_true counted]
    · intro collapsed
      by_contra room
      exact live.not_persists_of_collapsed counted collapsed room persists

end DDSketch

end DFTracer.Aggregation
