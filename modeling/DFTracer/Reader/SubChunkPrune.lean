/-
# Skipping the buckets of a chunk by their bounds

The indexer keeps, for each bucket of events, the least and the greatest timestamp and
duration. A query whose AND-ed comparisons bound a field excludes a bucket that lies outside
these bounds. An event without a duration is kept with duration zero, while a query looks
for its duration among its arguments too.
-/

import DFTracer.Reader.CompiledFilter

namespace DFTracer.Reader

open Query List

/-- The largest 64-bit number. -/
def uint64Max : Nat := 2 ^ 64 - 1

/-- The bounds of a bucket of events. -/
structure SubChunkZoneMap where
  eventCount : Nat
  minTimestampUs : Nat
  maxTimestampUs : Nat
  minDurationUs : Nat
  maxDurationUs : Nat

namespace SubChunkZoneMap

def empty : SubChunkZoneMap := ⟨0, uint64Max, 0, uint64Max, 0⟩

def observe (z : SubChunkZoneMap) (ts dur : Nat) : SubChunkZoneMap where
  eventCount := z.eventCount + 1
  minTimestampUs := min z.minTimestampUs ts
  maxTimestampUs := max z.maxTimestampUs ts
  minDurationUs := min z.minDurationUs dur
  maxDurationUs := max z.maxDurationUs dur

end SubChunkZoneMap

/-- An inclusive bound on a field. -/
structure NumericRange where
  lo : Nat
  hi : Nat
  constrained : Bool

namespace NumericRange

def free : NumericRange := ⟨0, uint64Max, false⟩

end NumericRange

/-- An integer literal that is not negative. -/
def litU64 : Literal → Option Nat
  | .int64 n => if n.toInt < 0 then none else some n.toInt.toNat
  | .uint64 n => some n.toNat
  | _ => none

/-- One comparison tightens the range. -/
def tighten (r : NumericRange) (op : CompareOp) (v : Nat) : NumericRange :=
  match op with
  | .eq => ⟨max r.lo v, min r.hi v, true⟩
  | .ge => ⟨max r.lo v, r.hi, true⟩
  | .gt => ⟨max r.lo (if v = uint64Max then v else v + 1), r.hi, true⟩
  | .le => ⟨r.lo, min r.hi v, true⟩
  | .lt => ⟨r.lo, min r.hi (if v = 0 then v else v - 1), true⟩
  | .ne => r

/-- The walk of `extract_and_range`: the range so far, and whether it is sound. -/
def visit (field : String) : QueryNode → NumericRange × Bool → NumericRange × Bool
  | .compare f op value, (r, sound) =>
    if f.path = field then
      match litU64 value with
      | some v => (tighten r op v, sound)
      | none => (r, false)
    else (r, sound)
  | .and left right, s => visit field right (visit field left s)
  | .or left right, (r, sound) =>
    if field ∈ collectFields left ∨ field ∈ collectFields right then (r, false) else (r, sound)
  | .not operand, (r, sound) =>
    if field ∈ collectFields operand then (r, false) else (r, sound)
  | _, s => s

def extractAndRange (root : QueryNode) (field : String) : NumericRange :=
  let s := visit field root (.free, true)
  if s.2 then s.1 else .free

/-- The bucket lies outside the ranges. -/
def bucketOutside (ts dur : NumericRange) (z : SubChunkZoneMap) : Bool :=
  (ts.constrained && (z.maxTimestampUs < ts.lo || z.minTimestampUs > ts.hi)) ||
    (dur.constrained && (z.maxDurationUs < dur.lo || z.minDurationUs > dur.hi))

/-- The buckets that can hold a match; empty when none is excluded. -/
def subChunkKeepMask (buckets : List SubChunkZoneMap) (root : QueryNode)
    (tsField durField : String) : List Bool :=
  let ts := extractAndRange root tsField
  let dur := extractAndRange root durField
  if buckets = [] then []
  else if !ts.constrained && !dur.constrained then []
  else
    let keep := buckets.map fun z => !bucketOutside ts dur z
    if keep.all id then [] else keep

/-- A 64-bit number as JSON. -/
def jsonUint (n : UInt64) : JsonValue :=
  .int ⟨n.toNat, uint64_fits n⟩

/-- An event with a timestamp, and with a duration or without. -/
structure TimedEvent where
  event : JsonValue
  ts : UInt64
  dur : Option UInt64
  ts_member : event.member "ts" = some (jsonUint ts)
  dur_member : event.member "dur" = dur.map jsonUint

/-- The bounds of a bucket of events, a duration that is absent taken as zero. -/
def zoneMap (bucket : List TimedEvent) : SubChunkZoneMap :=
  bucket.foldl (fun z e => z.observe e.ts.toNat ((e.dur.map UInt64.toNat).getD 0)) .empty

theorem plain_ts : JsonValue.PlainName "ts" := by
  simp [JsonValue.PlainName]

theorem plain_dur : JsonValue.PlainName "dur" := by
  simp [JsonValue.PlainName]

/-! ## Bounds -/

/-- A bucket's bounds take in each of its events. -/
theorem zoneMap_bounds {bucket : List TimedEvent} {e : TimedEvent} (he : e ∈ bucket) :
    (zoneMap bucket).minTimestampUs ≤ e.ts.toNat ∧ e.ts.toNat ≤ (zoneMap bucket).maxTimestampUs ∧
      (zoneMap bucket).minDurationUs ≤ (e.dur.map UInt64.toNat).getD 0 ∧
      (e.dur.map UInt64.toNat).getD 0 ≤ (zoneMap bucket).maxDurationUs := by
  have wider : ∀ (l : List TimedEvent) (z : SubChunkZoneMap),
      let z' := l.foldl (fun z e => z.observe e.ts.toNat ((e.dur.map UInt64.toNat).getD 0)) z
      z'.minTimestampUs ≤ z.minTimestampUs ∧ z.maxTimestampUs ≤ z'.maxTimestampUs ∧
        z'.minDurationUs ≤ z.minDurationUs ∧ z.maxDurationUs ≤ z'.maxDurationUs := by
    intro l
    induction l with
    | nil =>
      intro z
      exact ⟨Nat.le_refl _, Nat.le_refl _, Nat.le_refl _, Nat.le_refl _⟩
    | cons x l ih =>
      intro z
      obtain ⟨h1, h2, h3, h4⟩ := ih (z.observe x.ts.toNat ((x.dur.map UInt64.toNat).getD 0))
      exact ⟨h1.trans (Nat.min_le_left _ _), (Nat.le_max_left _ _).trans h2,
        h3.trans (Nat.min_le_left _ _), (Nat.le_max_left _ _).trans h4⟩
  obtain ⟨before, after, rfl⟩ := append_of_mem he
  rw [zoneMap, foldl_append]
  obtain ⟨h1, h2, h3, h4⟩ := wider after (SubChunkZoneMap.observe
    (before.foldl (fun z e => z.observe e.ts.toNat ((e.dur.map UInt64.toNat).getD 0)) .empty)
    e.ts.toNat ((e.dur.map UInt64.toNat).getD 0))
  exact ⟨h1.trans (Nat.min_le_right _ _), (Nat.le_max_right _ _).trans h2,
    h3.trans (Nat.min_le_right _ _), (Nat.le_max_right _ _).trans h4⟩

theorem litU64_exact {literal : Literal} {v : Nat} (h : litU64 literal = some v) :
    literal.exactInt = some (v : Int) := by
  cases literal with
  | int64 n =>
    rw [litU64] at h
    by_cases hn : n.toInt < 0
    · rw [if_pos hn] at h
      cases h
    · rw [if_neg hn] at h
      cases h
      rw [Literal.exactInt, Int.toNat_of_nonneg (by omega)]
  | uint64 n =>
    cases h
    rfl
  | _ => cases h

/-- The range takes in the number. -/
def NumericRange.Has (r : NumericRange) (x : Nat) : Prop := r.lo ≤ x ∧ x ≤ r.hi

/-- A comparison that holds of a number keeps it in the range. -/
theorem tighten_has {r : NumericRange} {op : CompareOp} {value : Literal} {v : Nat} {x : UInt64}
    (hv : litU64 value = some v)
    (holds : applyCompare op (compareValue (jsonUint x) value) = true)
    (hx : r.Has x.toNat) : (tighten r op v).Has x.toNat := by
  rw [compareValue_exact (n := (x.toNat : Int)) rfl (litU64_exact hv)] at holds
  obtain ⟨hlo, hhi⟩ := hx
  cases op with
  | eq =>
    have heq : (x.toNat : Int) = v := by simpa [applyCompare] using holds
    simp only [tighten, NumericRange.Has]
    omega
  | ne => exact ⟨hlo, hhi⟩
  | gt =>
    have hgt : (v : Int) < x.toNat := compare_gt_iff_gt.mp (by simpa [applyCompare] using holds)
    simp only [tighten, NumericRange.Has]
    split <;> omega
  | lt =>
    have hlt : (x.toNat : Int) < v := compare_lt_iff_lt.mp (by simpa [applyCompare] using holds)
    simp only [tighten, NumericRange.Has]
    split <;> omega
  | ge =>
    have hge : (v : Int) ≤ x.toNat := by
      simp only [applyCompare, bne_iff_ne] at holds
      by_contra h
      exact holds (compare_lt_iff_lt.mpr (by omega))
    simp only [tighten, NumericRange.Has]
    omega
  | le =>
    have hle : (x.toNat : Int) ≤ v := by
      simp only [applyCompare, bne_iff_ne] at holds
      by_contra h
      exact holds (compare_gt_iff_gt.mpr (by omega))
    simp only [tighten, NumericRange.Has]
    omega

section Query

variable (search : MatchOp → String → String → Bool) {query : QueryNode} {field : String}
  {event : JsonValue} {x : UInt64}

/-- A query that holds of an event keeps the value of the field in the range. -/
theorem visit_has (hx : resolveField event field = some (jsonUint x))
    (holds : evaluate search query event = true) {s : NumericRange × Bool}
    (hs : s.1.Has x.toNat) : (visit field query s).1.Has x.toNat := by
  induction query generalizing s with
  | compare f op value =>
    rw [visit]
    split
    · rename_i hf
      rw [evaluate, hf, hx] at holds
      cases hv : litU64 value with
      | none => exact hs
      | some v => exact tighten_has hv holds hs
    · exact hs
  | and left right ihl ihr =>
    rw [evaluate, Bool.and_eq_true] at holds
    exact ihr holds.2 (ihl holds.1 hs)
  | or left right | not operand =>
    rw [visit]
    split <;> exact hs
  | isIn f values | notIn f values | «matches» f op pattern negated => exact hs

theorem free_has (x : UInt64) : NumericRange.free.Has x.toNat := by
  have := x.toNat_lt
  refine ⟨Nat.zero_le _, ?_⟩
  simp only [NumericRange.free, uint64Max]
  omega

theorem extractAndRange_has (hx : resolveField event field = some (jsonUint x))
    (holds : evaluate search query event = true) : (extractAndRange query field).Has x.toNat := by
  unfold extractAndRange
  dsimp only
  split
  · exact visit_has search hx holds (free_has x)
  · exact free_has x

end Query

/-! ## Queries that demand a positive number -/

/-- The parts that an AND of any depth joins. -/
def conjuncts : QueryNode → List QueryNode
  | .and left right => conjuncts left ++ conjuncts right
  | node => [node]

/-- The part leaves the range sound: a comparison of the field has an integer literal that
is not negative, and neither an OR nor a NOT mentions the field. -/
def Readable (field : String) : QueryNode → Prop
  | .compare f _ value => f.path = field → (litU64 value).isSome = true
  | .or left right => ¬ (field ∈ collectFields left ∨ field ∈ collectFields right)
  | .not operand => field ∉ collectFields operand
  | _ => True

/-- The part is a comparison that zero does not satisfy. -/
def Raises (field : String) : QueryNode → Prop
  | .compare f op value => f.path = field ∧ ∃ v, litU64 value = some v ∧
      (op = .gt ∨ (op = .eq ∨ op = .ge) ∧ 0 < v)
  | _ => False

/-- The AND-ed comparisons demand a positive number of the field. -/
structure Demands (field : String) (query : QueryNode) : Prop where
  readable : ∀ c ∈ conjuncts query, Readable field c
  raises : ∃ c ∈ conjuncts query, Raises field c

section Demands

variable {query : QueryNode} {field : String}

theorem visit_sound (s : NumericRange × Bool) :
    (visit field query s).2 = true ↔ s.2 = true ∧ ∀ c ∈ conjuncts query, Readable field c := by
  induction query generalizing s with
  | compare f op value =>
    simp only [visit, conjuncts, forall_mem_singleton, Readable]
    split
    · rename_i hf
      cases hv : litU64 value <;> simp [hf]
    · rename_i hf
      simp [hf]
  | and left right ihl ihr =>
    simp only [visit, conjuncts, forall_mem_append, ihr, ihl, and_assoc]
  | or left right | not operand =>
    simp only [visit, conjuncts, Readable]
    split <;> simp_all
  | isIn f values | notIn f values | «matches» f op pattern negated =>
    simp [visit, conjuncts, Readable]

theorem tighten_lo {r : NumericRange} {op : CompareOp} {v : Nat} :
    0 < (tighten r op v).lo ↔ 0 < r.lo ∨ op = .gt ∨ (op = .eq ∨ op = .ge) ∧ 0 < v := by
  cases op with
  | gt =>
    simp only [tighten, true_or, or_true, iff_true]
    split
    · rename_i hv
      rw [hv]
      exact Nat.lt_of_lt_of_le (by decide) (Nat.le_max_right _ _)
    · omega
  | _ => simp [tighten]

theorem visit_lo (s : NumericRange × Bool) :
    0 < (visit field query s).1.lo ↔ 0 < s.1.lo ∨ ∃ c ∈ conjuncts query, Raises field c := by
  induction query generalizing s with
  | compare f op value =>
    simp only [visit, conjuncts, mem_singleton, exists_eq_left, Raises]
    split
    · rename_i hf
      cases hv : litU64 value with
      | none => simp
      | some v => simp [hf, tighten_lo]
    · rename_i hf
      simp [hf]
  | and left right ihl ihr =>
    simp only [visit, conjuncts, ihr, ihl, mem_append, or_and_right, exists_or, or_assoc]
  | or left right | not operand =>
    simp only [visit, conjuncts, mem_singleton, exists_eq_left, Raises, or_false]
    split <;> rfl
  | isIn f values | notIn f values | «matches» f op pattern negated =>
    simp [visit, conjuncts, Raises]

/-- The range has a positive lower end exactly when the query demands a positive number. -/
theorem extractAndRange_lo : 0 < (extractAndRange query field).lo ↔ Demands field query := by
  have hsound := @visit_sound query field (.free, true)
  have hlo := @visit_lo query field (.free, true)
  unfold extractAndRange
  dsimp only
  split
  · rename_i h
    rw [hlo]
    constructor
    · rintro (h0 | hr)
      · exact absurd h0 (Nat.lt_irrefl 0)
      · exact ⟨(hsound.mp h).2, hr⟩
    · exact fun hd => .inr hd.raises
  · rename_i h
    constructor
    · exact fun h0 => absurd h0 (Nat.lt_irrefl 0)
    · exact fun hd => absurd (hsound.mpr ⟨rfl, hd.readable⟩) h

/-- A bound comes only from a comparison. -/
theorem extractAndRange_constrained (h : 0 < (extractAndRange query field).lo) :
    (extractAndRange query field).constrained = true := by
  have tight : ∀ (r : NumericRange) (op : CompareOp) (v : Nat),
      (0 < r.lo → r.constrained = true) →
      0 < (tighten r op v).lo → (tighten r op v).constrained = true := by
    intro r op v hr
    cases op <;> simp only [tighten] <;> first | exact hr | simp
  have step : ∀ s : NumericRange × Bool, (0 < s.1.lo → s.1.constrained = true) →
      0 < (visit field query s).1.lo → (visit field query s).1.constrained = true := by
    clear h
    induction query with
    | compare f op value =>
      intro s hs
      rw [visit]
      split
      · cases litU64 value with
        | none => exact hs
        | some v => exact tight s.1 op v hs
      · exact hs
    | and left right ihl ihr =>
      intro s hs
      exact ihr _ (ihl s hs)
    | or left right | not operand =>
      intro s hs
      rw [visit]
      split <;> exact hs
    | isIn f values | notIn f values | «matches» f op pattern negated => exact fun s hs => hs
  unfold extractAndRange at h ⊢
  dsimp only at h ⊢
  split
  · rename_i hs
    rw [if_pos hs] at h
    exact step _ (fun h0 => absurd h0 (Nat.lt_irrefl 0)) h
  · rename_i hs
    rw [if_neg hs] at h
    exact absurd h (Nat.lt_irrefl 0)

end Demands

section Sound

variable (search : MatchOp → String → String → Bool) (query : QueryNode)

/-- No event of a skipped bucket satisfies the query, whatever the buckets. -/
def SkipsSoundly : Prop :=
  ∀ (buckets : List (List TimedEvent)) (b : Nat) (bucket : List TimedEvent),
    buckets[b]? = some bucket →
    (subChunkKeepMask (buckets.map zoneMap) query "ts" "dur")[b]? = some false →
    ∀ e ∈ bucket, evaluate search query e.event = false

variable {query} {z : SubChunkZoneMap}

/-- A skipped bucket lies outside the ranges. -/
theorem excluded_of_skipped {zones : List SubChunkZoneMap} {b : Nat}
    (hz : zones[b]? = some z) (h : (subChunkKeepMask zones query "ts" "dur")[b]? = some false) :
    bucketOutside (extractAndRange query "ts") (extractAndRange query "dur") z = true := by
  unfold subChunkKeepMask at h
  dsimp only at h
  split at h
  · cases h
  · split at h
    · cases h
    · split at h
      · cases h
      · rw [getElem?_map, hz] at h
        simpa using h

/-- The mask skips the only bucket when it lies outside the range of the duration. -/
theorem skipped_of_excluded (hc : (extractAndRange query "dur").constrained = true)
    (hz : bucketOutside (extractAndRange query "ts") (extractAndRange query "dur") z = true) :
    subChunkKeepMask [z] query "ts" "dur" = [false] := by
  unfold subChunkKeepMask
  simp [hc, hz]

/-- Skipping is sound exactly when the query demands no positive duration, or no event
without a duration of its own satisfies it. -/
theorem skipsSoundly_iff : SkipsSoundly search query ↔
    ¬ Demands "dur" query ∨ ∀ e : TimedEvent, e.dur = none → evaluate search query e.event = false := by
  constructor
  · intro sound
    by_cases hd : Demands "dur" query
    · right
      intro e he
      have hlo := extractAndRange_lo.mpr hd
      have hmax : (zoneMap [e]).maxDurationUs = 0 := by
        simp [zoneMap, SubChunkZoneMap.observe, SubChunkZoneMap.empty, he]
      have hex : bucketOutside (extractAndRange query "ts") (extractAndRange query "dur")
          (zoneMap [e]) = true := by
        simp [bucketOutside, hmax, extractAndRange_constrained hlo, hlo]
      apply sound [[e]] 0 [e] rfl _ e mem_cons_self
      rw [map_singleton, skipped_of_excluded (extractAndRange_constrained hlo) hex]
      rfl
    · exact .inl hd
  · intro good buckets b bucket hb hskip e he
    by_contra hne
    have holds : evaluate search query e.event = true := by simpa using hne
    have hz : (buckets.map zoneMap)[b]? = some (zoneMap bucket) := by
      rw [getElem?_map, hb]
      rfl
    have hex := excluded_of_skipped hz hskip
    obtain ⟨hts1, hts2, hdur1, hdur2⟩ := zoneMap_bounds he
    have hts := extractAndRange_has search (resolveField_plain plain_ts e.ts_member) holds
    have hdur : ∀ d, e.dur = some d → (extractAndRange query "dur").Has d.toNat := by
      intro d hd
      apply extractAndRange_has search _ holds
      apply resolveField_plain plain_dur
      rw [e.dur_member, hd]
      rfl
    have hzero : e.dur = none → (extractAndRange query "dur").lo = 0 := by
      intro hnone
      rcases good with hd | hall
      · exact Nat.eq_zero_of_not_pos fun hpos => hd (extractAndRange_lo.mp hpos)
      · rw [hall e hnone] at holds
        cases holds
    unfold NumericRange.Has at hts hdur
    simp only [bucketOutside, Bool.or_eq_true, Bool.and_eq_true, decide_eq_true_eq] at hex
    cases hd : e.dur with
    | none =>
      have := hzero hd
      rw [hd] at hdur1 hdur2
      simp only [Option.map_none, Option.getD_none] at hdur1 hdur2
      omega
    | some d =>
      have := hdur d hd
      rw [hd] at hdur1 hdur2
      simp only [Option.map_some, Option.getD_some] at hdur1 hdur2
      omega

end Sound

/-- An event at time 5 whose only duration is an argument. -/
def argDuration : TimedEvent where
  event := .object [("ts", jsonUint 5), ("args", .object [("dur", jsonUint 100)])]
  ts := 5
  dur := none
  ts_member := rfl
  dur_member := rfl

theorem nonempty_dur : "dur" ≠ "" := by
  decide

/-- `dur >= 50` -/
def longCalls : QueryNode := .compare ⟨"dur", nonempty_dur⟩ .ge (.int64 50)

/-- The event satisfies the query, and its bucket is skipped. -/
theorem longCalls_skips_a_match :
    ¬ SkipsSoundly (fun _ _ _ => false) longCalls := by
  intro sound
  have hskip : (subChunkKeepMask ([[argDuration]].map zoneMap) longCalls "ts" "dur")[0]? =
      some false := by
    decide
  have h := sound [[argDuration]] 0 [argDuration] rfl hskip argDuration mem_cons_self
  exact absurd h (by decide)

end DFTracer.Reader
