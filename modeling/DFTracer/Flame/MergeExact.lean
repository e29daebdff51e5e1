/-
# Merged flamegraphs are the flamegraph

Lanes are dealt out to shards, each shard serializes the arena of its lanes, and partials are
merged, possibly in several rounds. As long as durations scale to whole numbers whose sum a double
holds exactly, every arena on the way denotes the sum of its lanes' profiles, so the merged frame
has the rows of the frame built at once. Doubles that round make the result depend on the order of
the sums, and the self time of an event that overlaps its parent is cut at zero.
-/

import DFTracer.Flame.Frame

namespace DFTracer.Flame

open Math.Float64 Math.PathProfile List

/-- Rows with the order in which their lanes come out of the hash map. -/
structure Shard where
  intern : StringIntern
  rows : List (ContainmentRow intern)
  order : LaneOrder rows

namespace Shard

/-- The sorted lanes of a shard. -/
def lanes (s : Shard) : List (List (ContainmentRow s.intern)) := sortedLanes s.rows s.order

/-- The rows of every lane in buffer order, with their strings looked up. -/
def laneRows (s : Shard) : List (UInt64 × List Span) :=
  s.order.keys.map fun key =>
    (key, (s.rows.filter fun r => r.lane = key).map ContainmentRow.span)

def partialBytes (timeScale : Float) (s : Shard) : Bytes :=
  flamegraphPartial timeScale s.rows s.order

def flamegraph (timeScale : Float) (s : Shard) : List FlameRow :=
  buildFlamegraph timeScale s.lanes

end Shard

/-- Some lanes, sorted as the walk takes them. -/
def sortedRows (lanes : List (UInt64 × List Span)) : List (List Span) :=
  lanes.map fun l => sortedSpans l.2

/-- The bytes of a merge tree over the lanes of its shards: a shard's own partial, or
the serialized merge of partials. -/
inductive IsPartial (timeScale : Float) : List (UInt64 × List Span) → Bytes → Prop
  | shard (s : Shard) : IsPartial timeScale s.laneRows (s.partialBytes timeScale)
  | merge (parts : List (List (UInt64 × List Span) × Bytes))
      (h : ∀ x ∈ parts, IsPartial timeScale x.1 x.2) :
      IsPartial timeScale (parts.flatMap Prod.fst)
        (serializeFlameArena (mergePartials (parts.map Prod.snd)))

/-- Durations that scale to whole numbers with an exact sum, a group key for all rows
or for none, and names and rows that fit the arena's thirty-two bit fields. -/
structure ExactRows (timeScale : Float) (d : Int64 → Int) (grouped : Bool) (s : Shard) : Prop where
  whole : ∀ r ∈ s.rows, WholeDurations timeScale d r.dur
  grouped : ∀ r ∈ s.rows, r.groupId.isSome = grouped
  small : (s.rows.map fun r => d r.dur).sum < 2 ^ 53
  names : ∀ r ∈ s.rows, r.span.name.length < 2 ^ 32 ∧ ∀ g ∈ r.span.group, g.length < 2 ^ 32
  count : 2 * s.rows.length + 1 < 2 ^ 32

/-! ## From rows to lanes -/

theorem Shard.lanes_span (s : Shard) :
    (s.lanes.map fun l => l.map ContainmentRow.span) = sortedRows s.laneRows := by
  unfold Shard.lanes sortedLanes sortedRows Shard.laneRows
  rw [map_map, map_map]
  apply map_congr_left
  intro key _
  exact sortedLane_span s.rows key

/-- Summing over the lanes is summing over the rows. -/
theorem sum_lanes {M : Type} [AddCommMonoid M] {intern : StringIntern}
    (f : ContainmentRow intern → M) (rows : List (ContainmentRow intern)) {keys : List UInt64}
    (distinct : keys.Nodup) (covers : ∀ r ∈ rows, r.lane ∈ keys) :
    (keys.map fun key => ((rows.filter fun r => r.lane = key).map f).sum).sum
      = (rows.map f).sum := by
  induction rows with
  | nil =>
    apply sum_eq_zero
    intro x hx
    obtain ⟨key, -, rfl⟩ := mem_map.mp hx
    rfl
  | cons r rows ih =>
    have hsplit : ∀ key, (((r :: rows).filter fun r => r.lane = key).map f).sum
        = (if r.lane = key then f r else 0) + ((rows.filter fun r => r.lane = key).map f).sum := by
      intro key
      by_cases h : r.lane = key
      · rw [if_pos h, filter_cons_of_pos (by simpa using h), map_cons, sum_cons]
      · rw [if_neg h, filter_cons_of_neg (by simpa using h), zero_add]
    have hone : (keys.map fun key => if r.lane = key then f r else 0).sum = f r := by
      rw [sum_map_unique distinct (covers r mem_cons_self) fun k hk => if_neg (Ne.symm hk),
        if_pos rfl]
    simp only [hsplit]
    rw [sum_map_add, hone, ih fun q hq => covers q (mem_cons_of_mem _ hq),
      map_cons, sum_cons]

section

variable {timeScale : Float} {d : Int64 → Int} {grouped : Bool} {a : FlameArena}
  {lanes : List (UInt64 × List Span)}

/-- Conditions on lanes before they are sorted. -/
structure ExactLaneRows (timeScale : Float) (d : Int64 → Int) (grouped : Bool)
    (lanes : List (UInt64 × List Span)) : Prop where
  nonempty : ∀ l ∈ lanes, l.2 ≠ []
  whole : ∀ l ∈ lanes, ∀ s ∈ l.2, WholeDurations timeScale d s.dur
  grouped : ∀ l ∈ lanes, Grouped grouped l.2
  small : (lanes.map fun l => laneSum d l.2).sum < 2 ^ 53
  names : ∀ l ∈ lanes, ∀ s ∈ l.2, s.name.length < 2 ^ 32 ∧ ∀ g ∈ s.group, g.length < 2 ^ 32
  count : 2 * (lanes.map fun l => l.2.length).sum + 1 < 2 ^ 32

theorem Shard.exactLaneRows {s : Shard} (h : ExactRows timeScale d grouped s) :
    ExactLaneRows timeScale d grouped s.laneRows := by
  have hrow : ∀ l ∈ s.laneRows, ∀ t ∈ l.2, ∃ r ∈ s.rows, r.span = t := by
    intro l hl t ht
    obtain ⟨key, -, rfl⟩ := mem_map.mp hl
    obtain ⟨r, hr, rfl⟩ := mem_map.mp ht
    exact ⟨r, (mem_filter.mp hr).1, rfl⟩
  have hcovers : ∀ r ∈ s.rows, r.lane ∈ s.order.keys := fun r hr =>
    (s.order.covers _).mpr ⟨r, hr, rfl⟩
  refine ⟨?_, ?_, ?_, ?_, ?_, ?_⟩
  · intro l hl
    obtain ⟨key, hkey, rfl⟩ := mem_map.mp hl
    obtain ⟨r, hr, hlane⟩ := (s.order.covers key).mp hkey
    rw [Ne, map_eq_nil_iff]
    exact ne_nil_of_mem (mem_filter.mpr ⟨hr, by simpa using hlane⟩)
  · intro l hl t ht
    obtain ⟨r, hr, rfl⟩ := hrow l hl t ht
    exact h.whole r hr
  · intro l hl t ht
    obtain ⟨r, hr, rfl⟩ := hrow l hl t ht
    rw [← h.grouped r hr]
    exact Option.isSome_map
  · have hsum := sum_lanes (fun r => d r.dur) s.rows s.order.distinct hcovers
    rw [Shard.laneRows, map_map]
    have hlane : ((fun l : UInt64 × List Span => laneSum d l.2) ∘ fun key =>
        (key, (s.rows.filter fun r => r.lane = key).map ContainmentRow.span))
        = fun key => ((s.rows.filter fun r => r.lane = key).map fun r => d r.dur).sum := by
      funext key
      change laneSum d ((s.rows.filter fun r => r.lane = key).map ContainmentRow.span) = _
      rw [laneSum, map_map]
      rfl
    rw [hlane, hsum]
    exact h.small
  · intro l hl t ht
    obtain ⟨r, hr, rfl⟩ := hrow l hl t ht
    exact h.names r hr
  · have hsum := sum_lanes (fun _ => 1) s.rows s.order.distinct hcovers
    rw [Shard.laneRows, map_map]
    have hlane : ((fun l : UInt64 × List Span => l.2.length) ∘ fun key =>
        (key, (s.rows.filter fun r => r.lane = key).map ContainmentRow.span))
        = fun key => ((s.rows.filter fun r => r.lane = key).map fun _ => 1).sum := by
      funext key
      simp
    have hlen : (s.rows.map fun _ => 1).sum = s.rows.length := by simp
    rw [hlane, hsum, hlen]
    exact h.count

theorem laneSum_sorted (spans : List Span) : laneSum d (sortedSpans spans) = laneSum d spans :=
  ((mergeSort_perm spans _).map _).sum_eq

theorem lanesSum_sortedRows (lanes : List (UInt64 × List Span)) :
    lanesSum d (sortedRows lanes) = (lanes.map fun l => laneSum d l.2).sum := by
  rw [lanesSum, sortedRows, map_map]
  congr 1
  apply map_congr_left
  intro l _
  exact laneSum_sorted l.2

namespace ExactLaneRows

variable {lanes : List (UInt64 × List Span)}

theorem spans (h : ExactLaneRows timeScale d grouped lanes) :
    ExactSpans d grouped (sortedRows lanes) := by
  have hspan : ∀ l ∈ sortedRows lanes, ∃ k ∈ lanes, l = sortedSpans k.2 ∧
      ∀ s ∈ l, WholeDurations timeScale d s.dur := by
    intro l hl
    obtain ⟨k, hk, rfl⟩ := mem_map.mp hl
    exact ⟨k, hk, rfl, fun s hs => h.whole k hk s (mem_sortedSpans.mp hs)⟩
  refine ⟨?_, ?_, ?_, ?_, ?_, ?_⟩
  · intro l hl
    obtain ⟨k, hk, rfl, -⟩ := hspan l hl
    obtain ⟨s, hs⟩ := exists_mem_of_ne_nil _ (h.nonempty k hk)
    exact ne_nil_of_mem (mem_sortedSpans.mpr hs)
  · intro l hl s hs
    obtain ⟨k, hk, rfl, hwhole⟩ := hspan l hl
    exact (hwhole s hs).nonneg
  · intro l hl
    obtain ⟨k, hk, rfl, hwhole⟩ := hspan l hl
    exact nested_lanePaths (sortedSpans_sorted k.2) fun s hs => (hwhole s hs).dur_nonneg
  · intro l hl s hs
    obtain ⟨k, hk, rfl, hwhole⟩ := hspan l hl
    exact (hwhole s hs).positive
  · intro l hl s hs
    obtain ⟨k, hk, rfl, -⟩ := hspan l hl
    exact h.grouped k hk s (mem_sortedSpans.mp hs)
  · rw [lanesSum_sortedRows]
    exact h.small

theorem sendable (h : ExactLaneRows timeScale d grouped lanes) : Sendable (sortedRows lanes) := by
  refine ⟨?_, ?_⟩
  · intro l hl s hs
    obtain ⟨k, hk, rfl⟩ := mem_map.mp hl
    exact h.names k hk s (mem_sortedSpans.mp hs)
  · have hcount : eventCount (sortedRows lanes) = (lanes.map fun l => l.2.length).sum := by
      rw [eventCount, sortedRows, map_map]
      congr 1
      apply map_congr_left
      intro l _
      exact (mergeSort_perm l.2 _).length_eq
    rw [hcount]
    exact h.count

/-- A part of the lanes satisfies what all of them do. -/
theorem part {parts : List (List (UInt64 × List Span) × Bytes)}
    (h : ExactLaneRows timeScale d grouped (parts.flatMap Prod.fst))
    {x : List (UInt64 × List Span) × Bytes} (hx : x ∈ parts) :
    ExactLaneRows timeScale d grouped x.1 := by
  have hin : ∀ l ∈ x.1, l ∈ parts.flatMap Prod.fst := fun l hl => mem_flatMap.mpr ⟨x, hx, hl⟩
  obtain ⟨before, after, rfl⟩ := append_of_mem hx
  have hsplit : (before ++ x :: after).flatMap Prod.fst
      = before.flatMap Prod.fst ++ (x.1 ++ after.flatMap Prod.fst) := by
    rw [flatMap_append, flatMap_cons]
  have hnonneg : ∀ ls : List (UInt64 × List Span),
      (∀ l ∈ ls, l ∈ (before ++ x :: after).flatMap Prod.fst) →
      0 ≤ (ls.map fun l => laneSum d l.2).sum := by
    intro ls hls
    apply sum_nonneg
    intro k hk
    obtain ⟨l, hl, rfl⟩ := mem_map.mp hk
    exact laneSum_nonneg fun s hs => (h.whole l (hls l hl) s hs).nonneg
  refine ⟨fun l hl => h.nonempty l (hin l hl), fun l hl => h.whole l (hin l hl),
    fun l hl => h.grouped l (hin l hl), ?_, fun l hl => h.names l (hin l hl), ?_⟩
  · have hsmall := h.small
    have h1 := hnonneg (before.flatMap Prod.fst) fun l hl => by
      rw [hsplit]
      exact mem_append_left _ hl
    have h2 := hnonneg (after.flatMap Prod.fst) fun l hl => by
      rw [hsplit]
      exact mem_append_right _ (mem_append_right _ hl)
    rw [hsplit, map_append, map_append, sum_append, sum_append] at hsmall
    omega
  · have hcount := h.count
    rw [hsplit, map_append, map_append, sum_append, sum_append] at hcount
    omega

theorem perm {lanes' : List (UInt64 × List Span)} (h : ExactLaneRows timeScale d grouped lanes)
    (hp : lanes'.Perm lanes) : ExactLaneRows timeScale d grouped lanes' where
  nonempty := fun l hl => h.nonempty l (hp.mem_iff.mp hl)
  whole := fun l hl => h.whole l (hp.mem_iff.mp hl)
  grouped := fun l hl => h.grouped l (hp.mem_iff.mp hl)
  small := by
    rw [(hp.map _).sum_eq]
    exact h.small
  names := fun l hl => h.names l (hp.mem_iff.mp hl)
  count := by
    rw [(hp.map _).sum_eq]
    exact h.count

end ExactLaneRows

/-! ## What the arenas denote -/

/-- The arena a shard serializes. -/
theorem Shard.denotes (s : Shard) (h : ExactLaneRows timeScale d grouped s.laneRows) :
    Denotes (foldFlameArena timeScale s.lanes)
        (lanesProfile (laneSpec d) (sortedRows s.laneRows)) ∧
      Indexed (foldFlameArena timeScale s.lanes) := by
  have hspans := h.spans
  rw [← s.lanes_span] at hspans ⊢
  have hrow : ∀ l ∈ s.lanes, ∀ r ∈ l, ∃ k ∈ s.laneRows, r.span ∈ k.2 := by
    intro l hl r hr
    obtain ⟨key, hkey, rfl⟩ := mem_map.mp hl
    refine ⟨_, mem_map_of_mem hkey, ?_⟩
    exact mem_map_of_mem ((mergeSort_perm _ _).mem_iff.mp hr)
  have hlanes : ExactLanes timeScale d grouped s.lanes := by
    refine ⟨?_, ?_, ?_, ?_, hspans.small⟩
    · intro l hl
      have := hspans.nonempty _ (mem_map_of_mem hl)
      rwa [Ne, map_eq_nil_iff] at this
    · intro l hl r hr
      obtain ⟨k, hk, hmem⟩ := hrow l hl r hr
      exact h.whole k hk r.span hmem
    · intro l hl
      exact hspans.grouped _ (mem_map_of_mem hl)
    · intro l hl
      obtain ⟨key, hkey, rfl⟩ := mem_map.mp hl
      rw [sortedLane_span]
      exact sortedSpans_sorted _
  exact foldFlameArena_denotes hlanes

/-- Serialized partials that denote their lanes. -/
structure Delivers (d : Int64 → Int) (lanes : List (UInt64 × List Span)) (bytes : Bytes) :
    Prop where
  denotes : Denotes (deserializeFlameArena bytes)
    (lanesProfile (laneSpec d) (sortedRows lanes))

/-- Merging partials one after the other. -/
theorem mergePartials_loop (parts : List (List (UInt64 × List Span) × Bytes))
    (hparts : ∀ x ∈ parts, Delivers d x.1 x.2) {done : List (List Span)}
    (ha : Denotes a (lanesProfile (laneSpec d) done)) (hk : Indexed a)
    (hdone : ∀ l ∈ done, ∀ s ∈ l, 0 ≤ d s.dur)
    (hlanes : ∀ x ∈ parts, ∀ l ∈ sortedRows x.1, ∀ s ∈ l, 0 ≤ d s.dur)
    (hsmall : lanesSum d done + lanesSum d (sortedRows (parts.flatMap Prod.fst)) < 2 ^ 53) :
    Extends a ((parts.map Prod.snd).foldl (fun merged p =>
        let b := deserializeFlameArena p
        if b.isEmpty then merged else mergeFlameArena b.length merged 0 b 0) a)
      (lanesProfile (laneSpec d) (done ++ sortedRows (parts.flatMap Prod.fst))) := by
  induction parts generalizing done a with
  | nil =>
    rw [show sortedRows (List.flatMap Prod.fst ([] : List (List (UInt64 × List Span) × Bytes))) = []
      from rfl, append_nil]
    exact ⟨ha, hk, fun q j hq => hq⟩
  | cons x parts ih =>
    have hx := (hparts x mem_cons_self).denotes
    have hxs := hlanes x mem_cons_self
    have hrest : ∀ l ∈ sortedRows (parts.flatMap Prod.fst), ∀ s ∈ l, 0 ≤ d s.dur := by
      intro l hl s hs
      obtain ⟨k, hk, rfl⟩ := mem_map.mp hl
      obtain ⟨y, hy, hky⟩ := mem_flatMap.mp hk
      exact hlanes y (mem_cons_of_mem _ hy) _ (mem_map_of_mem hky) s hs
    have hsplit : sortedRows ((x :: parts).flatMap Prod.fst)
        = sortedRows x.1 ++ sortedRows (parts.flatMap Prod.fst) := by
      rw [flatMap_cons, sortedRows, map_append]
      rfl
    have hsum : ∀ a b : List (List Span), lanesSum d (a ++ b) = lanesSum d a + lanesSum d b := by
      intro a b
      rw [lanesSum, map_append, sum_append]
      rfl
    rw [hsplit, hsum] at hsmall
    have hnonneg := lanesSum_nonneg hrest
    have hmerge := mergeFlameArena_spec hx (deserializeFlameArena x.2).length ha hk
      (resolve_nil a) (resolve_nil _) (Nat.le_refl _) (fun q => Fits.of_within
        (within_lanesProfile _ fun l hl => within_laneSpec (hdone l hl) _)
        (within_lanesProfile _ fun l hl => within_laneSpec (hxs l hl) _) (by omega))
    have hjoin : lanesProfile (laneSpec d) done
        + plant [] (below (lanesProfile (laneSpec d) (sortedRows x.1)) [])
        = lanesProfile (laneSpec d) (done ++ sortedRows x.1) := by
      have hbare : (Pi.single [] bare : Profile) + Pi.single [] bare = Pi.single [] bare := by
        rw [← Pi.single_add]
        rfl
      rw [plant_nil, below_nil, lanesProfile, lanesProfile, lanesProfile, map_append,
        sum_append, add_add_add_comm, hbare]
    rw [hjoin] at hmerge
    have hnonempty : (deserializeFlameArena x.2).isEmpty = false := by
      cases hb : deserializeFlameArena x.2 with
      | nil =>
        have hpos := hx.tree.nonempty
        rw [hb] at hpos
        exact absurd hpos (Nat.lt_irrefl 0)
      | cons n b => rfl
    have hloop := ih (fun y hy => hparts y (mem_cons_of_mem _ hy)) hmerge.denotes
      hmerge.indexed
      (fun l hl => by
        rcases mem_append.mp hl with hl | hl
        · exact hdone l hl
        · exact hxs l hl)
      (fun y hy => hlanes y (mem_cons_of_mem _ hy))
      (by
        rw [hsum]
        omega)
    rw [hsplit, ← append_assoc, map_cons, foldl_cons]
    simp only [hnonempty]
    exact hmerge.trans hloop

theorem mergePartials_denotes {parts : List (List (UInt64 × List Span) × Bytes)}
    (hparts : ∀ x ∈ parts, Delivers d x.1 x.2)
    (h : ExactLaneRows timeScale d grouped (parts.flatMap Prod.fst)) :
    Extends rootArena (mergePartials (parts.map Prod.snd))
      (lanesProfile (laneSpec d) (sortedRows (parts.flatMap Prod.fst))) := by
  have hroot : Denotes rootArena (lanesProfile (laneSpec d) []) := by
    rw [lanesProfile, map_nil, sum_nil, add_zero]
    exact denotes_rootArena
  have hloop := mergePartials_loop parts hparts hroot indexed_rootArena (fun l hl => by cases hl)
    (fun x hx l hl s hs => by
      obtain ⟨k, hk, rfl⟩ := mem_map.mp hl
      exact ((h.part hx).whole k hk s (mem_sortedSpans.mp hs)).nonneg)
    (by
      have := h.spans.small
      change 0 + _ < _
      omega)
  exact hloop

/-- What is sent over denotes the lanes it was made from. -/
theorem Delivers.of_denotes (h : ExactLaneRows timeScale d grouped lanes)
    (ha : Denotes a (lanesProfile (laneSpec d) (sortedRows lanes))) :
    Delivers d lanes (serializeFlameArena a) := by
  refine ⟨?_⟩
  rw [ha.transport h.spans h.sendable]
  exact ha.stripped

/-- The bytes of every merge tree denote the lanes of its shards. -/
theorem IsPartial.delivers {bytes : Bytes}
    (hp : IsPartial timeScale lanes bytes) (h : ExactLaneRows timeScale d grouped lanes) :
    Delivers d lanes bytes := by
  induction hp with
  | shard s => exact .of_denotes h (s.denotes h).1
  | merge parts _ ih =>
    apply Delivers.of_denotes h
    exact (mergePartials_denotes (fun x hx => ih x hx (h.part hx)) h).denotes

theorem rootedProfile_perm {lanes lanes' : List (List Span)} (h : lanes.Perm lanes') :
    rootedProfile d lanes = rootedProfile d lanes' := by
  rw [rootedProfile, rootedProfile, lanesProfile, lanesProfile, lanesTop, lanesTop,
    (h.map (laneSpec d)).sum_eq, (h.map (laneTop d)).sum_eq]

/-- An arena that denotes sendable lanes is small. -/
theorem length_lt (h : ExactLaneRows timeScale d grouped lanes)
    (ha : Denotes a (lanesProfile (laneSpec d) (sortedRows lanes))) : a.length < 2 ^ 63 := by
  have h1 := ha.length_le fun q hq => mem_allPaths h.spans hq
  have h2 := length_allPaths h.spans.nonempty
  have h3 := h.sendable.count
  omega

/-- Merging partials of whole lanes gives along every path the total, self time and
count of the flamegraph of all rows, and in both frames self times are what the
children's totals leave. -/
theorem mergeFlamegraphPartials_exact {parts : List (List (UInt64 × List Span) × Bytes)}
    {whole : Shard} (hparts : ∀ x ∈ parts, IsPartial timeScale x.1 x.2)
    (hperm : (parts.flatMap Prod.fst).Perm whole.laneRows)
    (h : ExactRows timeScale d grouped whole) :
    (∀ p, (findRow (mergeFlamegraphPartials (parts.map Prod.snd)) p).map FlameRow.stats
      = (findRow (whole.flamegraph timeScale) p).map FlameRow.stats) ∧
    SelfTimes (mergeFlamegraphPartials (parts.map Prod.snd)) ∧
    SelfTimes (whole.flamegraph timeScale) := by
  have hwhole := Shard.exactLaneRows h
  have hall := hwhole.perm hperm
  obtain ⟨hbuilt, hindexed⟩ := whole.denotes hwhole
  have hmerged := mergePartials_denotes (fun x hx => (hparts x hx).delivers (hall.part hx)) hall
  have hsame : rootedProfile d (sortedRows (parts.flatMap Prod.fst))
      = rootedProfile d (sortedRows whole.laneRows) :=
    rootedProfile_perm (hperm.map _)
  refine ⟨?_, ?_, ?_⟩
  · intro p
    have hleft := frame_stats hmerged.denotes hmerged.indexed hall.spans
      (length_lt hall hmerged.denotes) p
    have hright := frame_stats hbuilt hindexed hwhole.spans (length_lt hwhole hbuilt) p
    rw [hsame] at hleft
    exact hleft.trans hright.symm
  · exact frame_selfTimes hmerged.denotes hmerged.indexed hall.spans
      (length_lt hall hmerged.denotes)
  · exact frame_selfTimes hbuilt hindexed hwhole.spans (length_lt hwhole hbuilt)

end

/-! ## Runs -/

/-- A table with the names "main", "open" and "read". -/
def sampleIntern : StringIntern where
  strings := [[109, 97, 105, 110], [111, 112, 101, 110], [114, 101, 97, 100]]
  distinct := by decide

def sampleRow (lane : UInt64) (start dur : Int64) (name : Fin 3) (group : Option (Fin 3)) :
    ContainmentRow sampleIntern :=
  { lane, start, dur, nameId := some name, groupId := group }

/-- The shard of rows that come lane after lane. -/
def sampleShard (rows : List (ContainmentRow sampleIntern)) : Shard where
  intern := sampleIntern
  rows
  order := {
    keys := (rows.map ContainmentRow.lane).dedup
    distinct := List.nodup_dedup _
    covers := by
      intro key
      rw [List.mem_dedup, List.mem_map] }

/-- Rows that are sorted already make the lanes as they come. -/
theorem sampleShard_lanes (rows : List (ContainmentRow sampleIntern))
    (sorted : ∀ lane ∈ (rows.map ContainmentRow.lane).dedup.map fun key =>
      rows.filter fun r => r.lane = key, lane.Pairwise fun a b => a.sortsBefore b) :
    sortedLanes rows (sampleShard rows).order =
      (rows.map ContainmentRow.lane).dedup.map fun key => rows.filter fun r => r.lane = key := by
  apply map_congr_left
  intro key hkey
  exact mergeSort_of_pairwise (sorted _ (mem_map_of_mem hkey))

def firstRows : List (ContainmentRow sampleIntern) :=
  [sampleRow 1 0 10 1 (some 0), sampleRow 1 2 3 2 (some 0)]

def secondRows : List (ContainmentRow sampleIntern) := [sampleRow 2 1 4 1 (some 0)]

/-- The lanes and partials of two shards. -/
def sampleParts : List (List (UInt64 × List Span) × Bytes) :=
  [firstRows, secondRows].map fun rows =>
    ((sampleShard rows).laneRows, (sampleShard rows).partialBytes 1)

/-- Two lanes of the group "main", one with a nested event, sent in two shards that are
merged before the final merge. -/
theorem mergeFlamegraphPartials_exact_sample :
    (∀ p, (findRow (mergeFlamegraphPartials
        [serializeFlameArena (mergePartials (sampleParts.map Prod.snd))]) p).map FlameRow.stats
      = (findRow ((sampleShard (firstRows ++ secondRows)).flamegraph 1) p).map FlameRow.stats) ∧
    SelfTimes (mergeFlamegraphPartials
      [serializeFlameArena (mergePartials (sampleParts.map Prod.snd))]) ∧
    SelfTimes ((sampleShard (firstRows ++ secondRows)).flamegraph 1) := by
  have hrow : ∀ r ∈ firstRows ++ secondRows, WholeDurations 1 Int64.toInt r.dur ∧
      r.groupId.isSome = true ∧
      r.span.name.length < 2 ^ 32 ∧ ∀ g ∈ r.span.group, g.length < 2 ^ 32 := by
    intro r hr
    have hcases : r = sampleRow 1 0 10 1 (some 0) ∨ r = sampleRow 1 2 3 2 (some 0) ∨
        r = sampleRow 2 1 4 1 (some 0) := by simpa [firstRows, secondRows] using hr
    rcases hcases with rfl | rfl | rfl <;>
      exact ⟨⟨by decide +kernel, by decide, by decide, by decide⟩, rfl, by decide, by decide⟩
  have h : ExactRows 1 Int64.toInt true (sampleShard (firstRows ++ secondRows)) :=
    ⟨fun r hr => (hrow r hr).1, fun r hr => (hrow r hr).2.1, by decide +kernel,
      fun r hr => (hrow r hr).2.2, by decide +kernel⟩
  have hmerge : IsPartial 1 (sampleParts.flatMap Prod.fst)
      (serializeFlameArena (mergePartials (sampleParts.map Prod.snd))) := by
    apply IsPartial.merge
    intro x hx
    obtain ⟨rows, -, rfl⟩ := mem_map.mp hx
    exact .shard (sampleShard rows)
  have hparts : ∀ x ∈ [(sampleParts.flatMap Prod.fst,
      serializeFlameArena (mergePartials (sampleParts.map Prod.snd)))], IsPartial 1 x.1 x.2 := by
    intro x hx
    rw [mem_singleton.mp hx]
    exact hmerge
  have hperm : ([(sampleParts.flatMap Prod.fst,
      serializeFlameArena (mergePartials (sampleParts.map Prod.snd)))].flatMap Prod.fst).Perm
      (sampleShard (firstRows ++ secondRows)).laneRows := by
    exact .of_eq (by decide +kernel)
  have hexact := mergeFlamegraphPartials_exact hparts hperm h
  exact hexact

/-- An event that ends after its parent makes the parent's total differ from its self
time and its child's total; sums that round depend on the shards; so do lanes with and
without a group that share a name, and durations that cancel. -/
theorem mergeFlamegraphPartials_differs :
    (¬ ∀ r ∈ (sampleShard [sampleRow 1 0 10 1 none, sampleRow 1 5 95 2 none]).flamegraph 1,
      r.total = (((sampleShard [sampleRow 1 0 10 1 none, sampleRow 1 5 95 2 none]).flamegraph 1).filter
        fun q => q.parent = r.nodeId).foldl (fun t q => t + q.total) r.self) ∧
    ((findRow (mergeFlamegraphPartials
        [(sampleShard [sampleRow 1 0 9007199254740992 1 none]).partialBytes 1,
          (sampleShard [sampleRow 2 0 1 1 none, sampleRow 3 0 1 1 none]).partialBytes 1])
        [[111, 112, 101, 110]]).map FlameRow.stats
      ≠ (findRow ((sampleShard [sampleRow 1 0 9007199254740992 1 none, sampleRow 2 0 1 1 none,
          sampleRow 3 0 1 1 none]).flamegraph 1) [[111, 112, 101, 110]]).map FlameRow.stats) ∧
    ((findRow (mergeFlamegraphPartials [(sampleShard [sampleRow 1 0 1 0 none]).partialBytes 1,
          (sampleShard [sampleRow 2 0 2 1 (some 0)]).partialBytes 1])
        [[109, 97, 105, 110]]).map FlameRow.stats
      ≠ (findRow ((sampleShard [sampleRow 1 0 1 0 none, sampleRow 2 0 2 1 (some 0)]).flamegraph 1)
        [[109, 97, 105, 110]]).map FlameRow.stats) ∧
    (findRow (mergeFlamegraphPartials
        [(sampleShard [sampleRow 1 0 5 1 none, sampleRow 1 1 2 2 none]).partialBytes 1,
          (sampleShard [sampleRow 2 0 (-5) 1 none]).partialBytes 1])
        [[111, 112, 101, 110]]).map FlameRow.stats
      ≠ (findRow ((sampleShard [sampleRow 1 0 5 1 none, sampleRow 1 1 2 2 none,
          sampleRow 2 0 (-5) 1 none]).flamegraph 1) [[111, 112, 101, 110]]).map FlameRow.stats := by
  have hlanes : ∀ rows, (∀ lane ∈ (rows.map ContainmentRow.lane).dedup.map fun key =>
      rows.filter fun r => r.lane = key, lane.Pairwise fun a b => a.sortsBefore b) →
      (sampleShard rows).flamegraph 1 = buildFlamegraph 1
          ((rows.map ContainmentRow.lane).dedup.map fun key => rows.filter fun r => r.lane = key) ∧
        (sampleShard rows).partialBytes 1 = serializeFlameArena (foldFlameArena 1
          ((rows.map ContainmentRow.lane).dedup.map fun key => rows.filter fun r => r.lane = key)) := by
    intro rows sorted
    rw [← sampleShard_lanes rows sorted]
    exact ⟨rfl, rfl⟩
  refine ⟨?_, ?_, ?_, ?_⟩
  · rw [(hlanes _ (by decide +kernel)).1]
    decide +kernel
  · decide +kernel
  · decide +kernel
  · rw [(hlanes _ (by decide +kernel)).1, (hlanes _ (by decide +kernel)).2]
    decide +kernel

end DFTracer.Flame
