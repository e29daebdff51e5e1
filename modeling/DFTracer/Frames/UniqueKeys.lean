/-
# Keys of the streaming distinct

Every row has a key, which the columns give whether they come from the input or from a run
file. While the keys are in memory, a morsel loses the rows whose keys have come before. The
key tells rows apart as long as no cell has 2^32 bytes.
-/

import DFTracer.Frames.UniqueCursor
import DFTracer.Math.Fallible
import DFTracer.Math.Firsts
import DFTracer.Math.Lists

namespace DFTracer.Frames

open DFTracer.Math List

theorem keyCols_map {α β : Type} (keyIdx : List Nat) (f : α → β) (data : List α) :
    (keyCols keyIdx data).map f = keyCols keyIdx (data.map f) := by
  unfold keyCols
  split
  · rfl
  · rw [map_filterMap]
    apply filterMap_congr
    intro k _
    rw [getElem?_map]

/-- The key of cells depends on the ids of the column types only. -/
theorem encodeCell_congr {d e : DataType} (h : d.id = e.id) (c : Cell) :
    encodeCell d c = encodeCell e c := by
  cases c with
  | none => rfl
  | some b => rw [encodeCell, encodeCell, h]

theorem rowKey_ok {ds es : List DataType} (ids : es.map (·.id) = ds.map (·.id))
    (orderable : ∀ d ∈ ds, isOrderableType d.id = true) (cs : List Cell) :
    rowKey es cs = .ok (List.zipWith encodeCell ds cs).flatten := by
  induction ds generalizing es cs with
  | nil =>
    obtain rfl : es = [] := map_eq_nil_iff.mp ids
    rfl
  | cons d ds ih =>
    obtain ⟨e, es, rfl, hid, hids⟩ := map_eq_cons_iff.mp ids
    cases cs with
    | nil => rfl
    | cons c cs =>
      have hd := orderable d mem_cons_self
      have hcell : appendCell e c = .ok (encodeCell d c) := by
        rw [appendCell, hid, if_pos hd, encodeCell_congr hid]
      rw [rowKey, hcell, ih hids (fun d' h => orderable d' (mem_cons_of_mem d h))]
      rfl

namespace UniquePlan

variable (p : UniquePlan)

/-- The cells of the key columns. -/
def keyCells (r : p.Row) : List Cell := keyCols p.keyIdx r.cells

/-- The key made of the cells of the key columns. -/
def encodeKey (cells : List Cell) : Bytes :=
  (List.zipWith encodeCell (keyCols p.keyIdx p.types) cells).flatten

/-- The key of a row. -/
def key (r : p.Row) : Bytes := p.encodeKey (p.keyCells r)

end UniquePlan

variable {p : UniquePlan}

/-- Columns whose types have the ids of the input give the keys of the input. -/
theorem rowKeys_ok {types : List DataType} (ids : types.map (·.id) = p.types.map (·.id))
    (rows : List p.Row) : rowKeys p types rows = .ok (rows.map p.key) := by
  apply mapM_ok
  intro r _
  apply rowKey_ok _ p.keyed
  rw [keyCols_map, keyCols_map, ids]

/-- No two of the rows share a key without sharing the cells of it. -/
def KeysExact (p : UniquePlan) (rows : List p.Row) : Prop :=
  ∀ r ∈ rows, ∀ r' ∈ rows, p.key r = p.key r' → p.keyCells r = p.keyCells r'

/-! ## First seen -/

/-- The sets hold exactly these keys. -/
def Known (hash : Bytes → UInt64) (seen : Seen) (known : List Bytes) : Prop :=
  ∀ k, alreadySeen hash seen k = true ↔ k ∈ known

/-- The inserted keys that were not there are the first of each new key. -/
theorem insertAll_new (keys : List (Bytes × Nat)) (set : List Bytes) :
    (insertAll keys set).1 = (firsts Prod.fst set keys).map Prod.snd := by
  induction keys generalizing set with
  | nil => rfl
  | cons ki keys ih =>
    obtain ⟨k, i⟩ := ki
    rw [insertAll]
    by_cases h : k ∈ set
    · rw [if_pos h, firsts_cons_known h, ih]
    · rw [if_neg h, firsts_cons_new h, ih, map_cons]

theorem mem_insertAll {keys : List (Bytes × Nat)} {set : List Bytes} {k : Bytes} :
    k ∈ (insertAll keys set).2 ↔ k ∈ set ∨ k ∈ keys.map Prod.fst := by
  induction keys generalizing set with
  | nil => simp [insertAll]
  | cons ki keys ih =>
    obtain ⟨k', i⟩ := ki
    rw [insertAll, map_cons, mem_cons]
    by_cases h : k' ∈ set
    · rw [if_pos h, ih]
      constructor
      · rintro (hk | hk)
        · exact .inl hk
        · exact .inr (.inr hk)
      · rintro (hk | rfl | hk)
        · exact .inl hk
        · exact .inl h
        · exact .inr hk
    · rw [if_neg h, ih, mem_cons]
      tauto

section FirstSeen

variable {hash : Bytes → UInt64} {seen : Seen} {known : List Bytes} {set : List Bytes} {g : Nat}
  {keys : List Bytes}

theorem Known.serial (h : Known hash seen known) (hs : seen.buckets = []) (k : Bytes) :
    k ∈ seen.serial ↔ k ∈ known := by
  rw [← h k, alreadySeen, if_pos hs, decide_eq_true_iff]

theorem Known.bucket (h : Known hash seen known) (hg : seen.buckets[g]? = some set) {k : Bytes}
    (hk : bucketOf hash seen.buckets.length k = g) : k ∈ set ↔ k ∈ known := by
  have hs : seen.buckets ≠ [] := by
    intro hs
    rw [hs] at hg
    cases hg
  rw [← h k, alreadySeen, if_neg hs, hk, hg, Option.getD_some, decide_eq_true_iff]

theorem bucketOf_lt (hash : Bytes → UInt64) (hs : seen.buckets ≠ []) (k : Bytes) :
    bucketOf hash seen.buckets.length k < seen.buckets.length :=
  Nat.mod_lt _ (length_pos_iff.mpr hs)

/-- The bucket of a key after the probe, where its keys have been inserted. -/
theorem firstSeenMask_bucket (hs : seen.buckets ≠ []) (hg : seen.buckets[g]? = some set) :
    (firstSeenMask hash keys seen).2.buckets[g]? = some (insertAll (keys.zipIdx.filter fun k =>
        bucketOf hash seen.buckets.length k.1 = g) set).2 := by
  rw [firstSeenMask, if_neg hs]
  simp only [map_map, getElem?_map, getElem?_zipIdx, hg, Option.map_some,
    Function.comp_apply, Nat.zero_add]

theorem firstSeenMask_buckets_length :
    (firstSeenMask hash keys seen).2.buckets.length = seen.buckets.length := by
  unfold firstSeenMask
  split
  · rfl
  · simp

/-- After the probe the new keys are in the sets too. -/
theorem firstSeenMask_known (h : Known hash seen known) (keys : List Bytes) :
    Known hash (firstSeenMask hash keys seen).2 (known ++ keys) := by
  intro k
  rw [mem_append]
  by_cases hs : seen.buckets = []
  · have hs' : (firstSeenMask hash keys seen).2.buckets = [] := by
      rw [firstSeenMask, if_pos hs]
      exact hs
    rw [alreadySeen, if_pos hs', decide_eq_true_iff, firstSeenMask, if_pos hs]
    rw [mem_insertAll, h.serial hs, zipIdx_map_fst]
  · have hs' : (firstSeenMask hash keys seen).2.buckets ≠ [] := by
      rw [← length_pos_iff, firstSeenMask_buckets_length]
      exact length_pos_iff.mpr hs
    have hlt := bucketOf_lt hash hs k
    have hg := getElem?_eq_getElem hlt
    rw [alreadySeen, if_neg hs', firstSeenMask_buckets_length, firstSeenMask_bucket hs hg,
      Option.getD_some, decide_eq_true_iff, mem_insertAll, h.bucket hg rfl]
    apply or_congr Iff.rfl
    rw [mem_map]
    constructor
    · rintro ⟨ki, hki, rfl⟩
      have := (mem_filter.mp hki).1
      rw [← zipIdx_map_fst 0 keys]
      exact mem_map_of_mem this
    · intro hk
      rw [← zipIdx_map_fst 0 keys] at hk
      obtain ⟨ki, hki, rfl⟩ := mem_map.mp hk
      exact ⟨ki, mem_filter.mpr ⟨hki, decide_eq_true rfl⟩, rfl⟩

/-- The marked positions are those of the first of each new key. -/
theorem mem_firstSeenMask (h : Known hash seen known) (keys : List Bytes) (i : Nat) :
    i ∈ (firstSeenMask hash keys seen).1 ↔
      i ∈ (firsts Prod.fst known keys.zipIdx).map Prod.snd := by
  by_cases hs : seen.buckets = []
  · rw [firstSeenMask, if_pos hs, insertAll_new, firsts_congr (h.serial hs)]
  · have each : ∀ {g : Nat} {set : List Bytes}, seen.buckets[g]? = some set →
        (insertAll (keys.zipIdx.filter fun k => bucketOf hash seen.buckets.length k.1 = g) set).1
          = ((firsts Prod.fst known keys.zipIdx).filter fun k =>
              bucketOf hash seen.buckets.length k.1 = g).map Prod.snd := by
      intro g set hg
      rw [insertAll_new, ← firsts_filter (q := fun k => decide (bucketOf hash _ k = g))
        (fun _ => rfl)]
      congr 1
      apply firsts_congr_on
      intro ki hki
      exact h.bucket hg (of_decide_eq_true (mem_filter.mp hki).2)
    rw [firstSeenMask, if_neg hs]
    simp only [mem_flatMap, mem_map]
    constructor
    · rintro ⟨r, ⟨⟨set, g⟩, hset, rfl⟩, hi⟩
      have hg := mk_mem_zipIdx_iff_getElem?.mp hset
      rw [each hg] at hi
      obtain ⟨ki, hki, rfl⟩ := mem_map.mp hi
      exact ⟨ki, (mem_filter.mp hki).1, rfl⟩
    · rintro ⟨ki, hki, rfl⟩
      have hg := getElem?_eq_getElem (bucketOf_lt hash hs ki.1)
      refine ⟨_, ⟨(_, _), mk_mem_zipIdx_iff_getElem?.mpr hg, rfl⟩, ?_⟩
      rw [each hg]
      exact mem_map_of_mem (mem_filter.mpr ⟨hki, decide_eq_true rfl⟩)

end FirstSeen

variable {ρ : Type}

/-- Gathering the positions that pass a test keeps the rows at these positions. -/
theorem take_filter_range (rows : List ρ) (q : Nat → Bool) :
    take rows ((List.range rows.length).filter q) =
      (rows.zipIdx.filter fun x => q x.2).map Prod.fst := by
  rw [take, range_eq_range', ← zipIdx_map_snd 0 rows, filter_map,
    filterMap_map, ← filterMap_eq_map]
  apply filterMap_congr
  rintro ⟨r, i⟩ hx
  have hi := mk_mem_zipIdx_iff_getElem?.mp (mem_filter.mp hx).1
  exact hi

/-- Gathering the marked positions gives the first row of each new key. -/
theorem take_marked {key : ρ → Bytes} {rows : List ρ} {known : List Bytes} {mask : List Nat}
    (hmask : ∀ i, i ∈ mask ↔ i ∈ (firsts Prod.fst known (rows.map key).zipIdx).map Prod.snd) :
    take rows ((List.range rows.length).filter fun i => i ∈ mask) = firsts key known rows := by
  have hpos : (firsts Prod.fst known (rows.map key).zipIdx).map Prod.snd =
      (firsts (fun x : ρ × Nat => key x.1) known rows.zipIdx).map Prod.snd := by
    rw [zipIdx_map, firsts_map, map_map]
    rfl
  have hnodup : (rows.zipIdx.map Prod.snd).Nodup := by
    rw [zipIdx_map_snd]
    exact nodup_range'
  rw [take_filter_range]
  have hfilter : (rows.zipIdx.filter fun x => decide (x.2 ∈ mask)) =
      firsts (fun x : ρ × Nat => key x.1) known rows.zipIdx := by
    rw [← filter_mem_map_sublist firsts_sublist hnodup]
    apply filter_congr
    intro x _
    rw [decide_eq_decide, hmask, hpos]
  rw [hfilter, ← firsts_map (f := Prod.fst), zipIdx_map_fst]

theorem take_filter_range_eq_nil (rows : List ρ) (q : Nat → Bool) :
    take rows ((List.range rows.length).filter q) = [] ↔
      (List.range rows.length).filter q = [] := by
  constructor
  · intro h
    apply eq_nil_iff_forall_not_mem.mpr
    intro i hi
    have hlt := mem_range.mp (mem_filter.mp hi).1
    have hnone := filterMap_eq_nil_iff.mp h i hi
    rw [getElem?_eq_getElem hlt] at hnone
    cases hnone
  · intro h
    rw [h]
    rfl

/-- Gathering keys and rows by the same positions gives the keys of the rows. -/
theorem take_map {σ : Type} (f : ρ → σ) (rows : List ρ) (idx : List Nat) :
    take (rows.map f) idx = (take rows idx).map f := by
  rw [take, take, map_filterMap]
  apply filterMap_congr
  intro i _
  rw [getElem?_map]

end DFTracer.Frames
