/-
# The call tree

Every row of the call tree has the level and the parent that the containment walk gives it in its
lane. Lanes are lists of row numbers here, as the columns are filled by row number. The frame has
no child lists: the children of a row are the rows that name it as their parent.
-/

import DFTracer.Flame.Lane

namespace DFTracer.Flame

open List

variable {intern : StringIntern}

/-- A row with the process and the thread of its event. -/
structure CallRow (intern : StringIntern) extends ContainmentRow intern where
  pid : Int64
  tid : Int64

section Lanes

variable (rows : List (CallRow intern))

def rowStart (i : Fin rows.length) : Int64 := (rows.get i).start

def rowStop (i : Fin rows.length) : Int64 := (rows.get i).toContainmentRow.stop

/-- The row numbers of one lane, sorted stably. -/
def sortedLaneIds (key : UInt64) : List (Fin rows.length) :=
  ((List.finRange rows.length).filter fun i => (rows.get i).lane = key).mergeSort fun a b =>
    (rows.get a).toContainmentRow.sortsBefore (rows.get b).toContainmentRow

/-- `sorted_lanes`: the lanes in an order of their keys. -/
def sortedLaneNumbers (order : LaneOrder (rows.map CallRow.toContainmentRow)) :
    List (List (Fin rows.length)) :=
  order.keys.map (sortedLaneIds rows)

end Lanes

/-- The columns of a call tree. -/
structure CallTree where
  pid : List Int64
  tid : List Int64
  ts : List Int64
  dur : List Int64
  name : List Bytes
  level : List Int64
  parentId : List Int64

/-- The names of the columns. -/
def CallTree.names : List String := ["pid", "tid", "ts", "dur", "name", "level", "parent_id"]

/-- `static_cast<std::int64_t>(static_cast<double>(v) * time_scale)` -/
def scaleTime (timeScale : Float) (v : Int64) : Int64 :=
  (Float.ofModel (.ofInt v.toInt) * timeScale).toInt64

/-- Fill in the levels and the parents of a lane. -/
def fillLane (rows : List (CallRow intern)) (columns : List Int64 × List Int64)
    (lane : List (Fin rows.length)) : List Int64 × List Int64 :=
  containmentWalk (rowStart rows) (rowStop rows) (-1 : Int64)
    (fun columns r level parent =>
      ((columns.1.set r (.ofNat level), columns.2.set r parent), Int64.ofNat r))
    columns [] lane

/-- `build_call_tree`. -/
def buildCallTree (timeScale : Float) (rows : List (CallRow intern))
    (lanes : List (List (Fin rows.length))) : CallTree :=
  let columns := lanes.foldl (fillLane rows)
    (List.replicate rows.length 0, List.replicate rows.length (-1))
  { pid := rows.map CallRow.pid
    tid := rows.map CallRow.tid
    ts := rows.map fun r => scaleTime timeScale r.start
    dur := rows.map fun r => scaleTime timeScale r.dur
    name := rows.map fun r => r.toContainmentRow.name
    level := columns.1
    parentId := columns.2 }

section Fill

variable {rows : List (CallRow intern)}

/-- A row of a lane, by the rows before it. -/
structure Filled (before : List (Fin rows.length)) (i : Fin rows.length)
    (columns : List Int64 × List Int64) : Prop where
  level : columns.1[i.val]? =
    some (.ofNat (before.filter fun j => Encloses (rowStart rows) (rowStop rows) j i).length)
  parent : columns.2[i.val]? =
    some ((before.filter fun j => Encloses (rowStart rows) (rowStop rows) j i).getLast?.elim (-1)
      fun j => .ofNat j.val)

/-- A lane leaves all other rows. -/
def Alike (i : Fin rows.length) (columns columns' : List Int64 × List Int64) : Prop :=
  columns'.1[i.val]? = columns.1[i.val]? ∧ columns'.2[i.val]? = columns.2[i.val]?

def Sized (rows : List (CallRow intern)) (columns : List Int64 × List Int64) : Prop :=
  columns.1.length = rows.length ∧ columns.2.length = rows.length

/-- The walk with row numbers for handles. -/
def fillWalk (columns : List Int64 × List Int64) (before lane : List (Fin rows.length)) :
    List Int64 × List Int64 :=
  treeWalk (rowStart rows) (rowStop rows) (-1 : Int64)
    (fun columns r level parent =>
      ((columns.1.set r (.ofNat level), columns.2.set r parent), Int64.ofNat r))
    columns (before.map fun j => (j, Int64.ofNat j.val)) lane

/-- One row is filled in. -/
def fillRow (columns : List Int64 × List Int64) (before : List (Fin rows.length))
    (i : Fin rows.length) : List Int64 × List Int64 :=
  (columns.1.set i
      (.ofNat (before.filter fun j => Encloses (rowStart rows) (rowStop rows) j i).length),
    columns.2.set i
      ((before.filter fun j => Encloses (rowStart rows) (rowStop rows) j i).getLast?.elim (-1)
        fun j => .ofNat j.val))

theorem fillWalk_cons (columns : List Int64 × List Int64) (before : List (Fin rows.length))
    (i : Fin rows.length) (lane : List (Fin rows.length)) :
    fillWalk columns before (i :: lane) = fillWalk (fillRow columns before i) (before ++ [i]) lane := by
  have above : (before.map fun j => (j, Int64.ofNat j.val)).filter
      (fun p => Encloses (rowStart rows) (rowStop rows) p.1 i) =
        (before.filter fun j => Encloses (rowStart rows) (rowStop rows) j i).map
          fun j => (j, Int64.ofNat j.val) := by
    rw [filter_map]
    rfl
  have parent : (((before.filter fun j => Encloses (rowStart rows) (rowStop rows) j i).map
      fun j => (j, Int64.ofNat j.val)).getLast?.elim (-1) Prod.snd : Int64) =
        (before.filter fun j => Encloses (rowStart rows) (rowStop rows) j i).getLast?.elim (-1)
          fun j => .ofNat j.val := by
    rw [getLast?_map]
    cases (before.filter fun j => Encloses (rowStart rows) (rowStop rows) j i).getLast? with
    | none | some j => rfl
  rw [fillWalk, treeWalk, above, length_map, parent, fillWalk, map_append]
  rfl

variable {columns : List Int64 × List Int64}

theorem fillRow_sized (sized : Sized rows columns)
    (before : List (Fin rows.length)) (i : Fin rows.length) :
    Sized rows (fillRow columns before i) := by
  rw [Sized, fillRow, length_set, length_set]
  exact sized

theorem fillRow_alike {before : List (Fin rows.length)}
    {i r : Fin rows.length} (other : r ≠ i) : Alike r columns (fillRow columns before i) := by
  have apart : i.val ≠ r.val := fun same => other (Fin.ext same.symm)
  exact ⟨getElem?_set_ne apart, getElem?_set_ne apart⟩

theorem fillRow_filled (sized : Sized rows columns)
    (before : List (Fin rows.length)) (i : Fin rows.length) :
    Filled before i (fillRow columns before i) where
  level := getElem?_set_self (by rw [sized.1]; exact i.isLt)
  parent := getElem?_set_self (by rw [sized.2]; exact i.isLt)

theorem fillWalk_spec (sized : Sized rows columns)
    {before lane : List (Fin rows.length)} (distinct : lane.Nodup) :
    Sized rows (fillWalk columns before lane) ∧
      (∀ i ∉ lane, Alike i columns (fillWalk columns before lane)) ∧
      ∀ front i back, lane = front ++ i :: back →
        Filled (before ++ front) i (fillWalk columns before lane) := by
  induction lane generalizing columns before with
  | nil =>
    refine ⟨sized, fun i _ => ⟨rfl, rfl⟩, fun front i back split => ?_⟩
    cases front with
    | nil | cons _ _ => cases split
  | cons r lane ih =>
    obtain ⟨fresh, distinct⟩ := nodup_cons.mp distinct
    obtain ⟨sized', alike, filled⟩ := @ih (fillRow columns before r)
      (fillRow_sized sized before r) (before ++ [r]) distinct
    rw [fillWalk_cons]
    refine ⟨sized', fun i absent => ?_, fun front i back split => ?_⟩
    · rw [mem_cons, not_or] at absent
      have first := @fillRow_alike _ _ columns before r i absent.1
      have rest := alike i absent.2
      exact ⟨rest.1.trans first.1, rest.2.trans first.2⟩
    · cases front with
      | nil =>
        cases split
        have here := fillRow_filled sized before r
        have rest := alike r fresh
        rw [append_nil]
        exact ⟨rest.1.trans here.level, rest.2.trans here.parent⟩
      | cons _ front =>
        cases split
        have here := filled front i back rfl
        rwa [append_assoc] at here

end Fill

/-! ## Filling all lanes -/

section Lanes

variable {rows : List (CallRow intern)}

/-- The intervals of every lane are laminar. -/
def LaminarLanes (rows : List (CallRow intern)) : Prop :=
  ∀ i j : Fin rows.length, i ≠ j → (rows.get i).lane = (rows.get j).lane →
    Laminar (rowStart rows) (rowStop rows) i j

theorem before_iff (i j : Fin rows.length) :
    (rows.get i).toContainmentRow.sortsBefore (rows.get j).toContainmentRow = true ↔
      Before (rowStart rows) (rowStop rows) i j := by
  have onSpans := Span.sortsBefore_iff (rows.get i).toContainmentRow.span
    (rows.get j).toContainmentRow.span
  apply onSpans.trans
  change rowStart rows i < rowStart rows j ∨
    rowStart rows i = rowStart rows j ∧ rowStop rows j ≤ rowStop rows i ↔ _
  simp only [Before, Int64.lt_iff_toInt_lt, Int64.le_iff_toInt_le, ← Int64.toInt_inj]
  omega

theorem sortsBefore_trans {a b c : ContainmentRow intern} (hab : a.sortsBefore b = true)
    (hbc : b.sortsBefore c = true) : a.sortsBefore c = true :=
  @Span.sortsBefore_trans a.span b.span c.span hab hbc

theorem sortsBefore_total (a b : ContainmentRow intern) :
    (a.sortsBefore b || b.sortsBefore a) = true :=
  Span.sortsBefore_total a.span b.span

variable {i : Fin rows.length} {j : Fin rows.length} {front back : List (Fin rows.length)}

theorem mem_sortedLaneIds {key : UInt64} :
    i ∈ sortedLaneIds rows key ↔ (rows.get i).lane = key := by
  rw [sortedLaneIds, (mergeSort_perm _ _).mem_iff, mem_filter, decide_eq_true_eq]
  exact and_iff_right (mem_finRange i)

theorem nodup_sortedLaneIds (key : UInt64) : (sortedLaneIds rows key).Nodup :=
  (mergeSort_perm _ _).nodup_iff.mpr ((nodup_finRange _).filter _)

theorem sorted_sortedLaneIds (key : UInt64) :
    (sortedLaneIds rows key).Pairwise (Before (rowStart rows) (rowStop rows)) := by
  apply (pairwise_mergeSort _ _ _).imp
  · intro i j before
    exact (before_iff i j).mp before
  · intro i j k
    exact sortsBefore_trans
  · intro i j
    exact sortsBefore_total _ _

/-- Two rows that could stand in either order stand in the order of their numbers. -/
theorem stable_sortedLaneIds (key : UInt64) :
    (sortedLaneIds rows key).Pairwise fun i j =>
      Before (rowStart rows) (rowStop rows) j i → i < j := by
  rw [pairwise_iff_forall_sublist]
  intro i j inOrder tie
  by_contra above
  have members := inOrder.subset
  have distinct := (nodup_sortedLaneIds key).sublist inOrder
  have other : i ≠ j := fun same => (nodup_cons.mp distinct).1 (same ▸ mem_cons_self)
  have below : j < i := lt_of_le_of_ne (not_lt.mp above) other.symm
  have numbers : ((List.finRange rows.length).filter fun r => (rows.get r).lane = key).Pairwise
      (· < ·) := (pairwise_lt_finRange _).filter _
  have listed : ∀ r ∈ [i, j], r ∈ (List.finRange rows.length).filter
      fun r => (rows.get r).lane = key :=
    fun r mem => (mergeSort_perm _ _).mem_iff.mp (members mem)
  have original := Math.pair_sublist_of_lt numbers (listed j (by simp)) (listed i (by simp)) below
  have back : [j, i].Sublist (sortedLaneIds rows key) :=
    pair_sublist_mergeSort (fun _ _ _ => sortsBefore_trans)
      (fun _ _ => sortsBefore_total _ _) ((before_iff j i).mpr tie) original
  exact Math.not_both_orders (nodup_sortedLaneIds key) inOrder back

section

variable (laminar : LaminarLanes rows) {columns : List Int64 × List Int64}

include laminar

theorem laminar_sortedLaneIds (key : UInt64) :
    (sortedLaneIds rows key).Pairwise (Laminar (rowStart rows) (rowStop rows)) := by
  apply (nodup_sortedLaneIds key).imp_of_mem
  intro i j i_mem j_mem other
  exact laminar i j other ((mem_sortedLaneIds.mp i_mem).trans (mem_sortedLaneIds.mp j_mem).symm)

/-- In a sorted lane the walk finds the nesting. -/
theorem walk_sortedLaneIds {σ Handle : Type} (root : Handle)
    (sink : σ → Fin rows.length → Nat → Handle → σ × Handle) (state : σ) (key : UInt64) :
    containmentWalk (rowStart rows) (rowStop rows) root sink state [] (sortedLaneIds rows key) =
      treeWalk (rowStart rows) (rowStop rows) root sink state [] (sortedLaneIds rows key) := by
  apply containmentWalk_eq
  · exact fun _ _ => rfl
  · exact sorted_sortedLaneIds key
  · exact laminar_sortedLaneIds laminar key

/-- A lane fills in its rows and leaves all others. -/
theorem fillLane_spec (sized : Sized rows columns) (key : UInt64) :
    Sized rows (fillLane rows columns (sortedLaneIds rows key)) ∧
      (∀ i, (rows.get i).lane ≠ key →
        Alike i columns (fillLane rows columns (sortedLaneIds rows key))) ∧
      ∀ front i back, sortedLaneIds rows key = front ++ i :: back →
        Filled front i (fillLane rows columns (sortedLaneIds rows key)) := by
  have walk := walk_sortedLaneIds laminar (-1 : Int64)
    (fun columns r level parent =>
      (((columns : List Int64 × List Int64).1.set r (.ofNat level), columns.2.set r parent),
        Int64.ofNat r)) columns key
  have filled := @fillWalk_spec _ rows columns sized [] _ (nodup_sortedLaneIds key)
  have same : fillLane rows columns (sortedLaneIds rows key) =
      fillWalk columns [] (sortedLaneIds rows key) := walk
  rw [same]
  refine ⟨filled.1, fun i other => filled.2.1 i ?_, filled.2.2⟩
  exact fun listed => other (mem_sortedLaneIds.mp listed)

theorem fillLanes_spec (sized : Sized rows columns) {keys : List UInt64} (distinct : keys.Nodup) :
    (∀ i, (rows.get i).lane ∉ keys →
      Alike i columns ((keys.map (sortedLaneIds rows)).foldl (fillLane rows) columns)) ∧
    ∀ i, (rows.get i).lane ∈ keys → ∀ front back,
      sortedLaneIds rows (rows.get i).lane = front ++ i :: back →
        Filled front i ((keys.map (sortedLaneIds rows)).foldl (fillLane rows) columns) := by
  induction keys generalizing columns with
  | nil => exact ⟨fun i _ => ⟨rfl, rfl⟩, fun i listed => absurd listed not_mem_nil⟩
  | cons key keys ih =>
    obtain ⟨fresh, distinct⟩ := nodup_cons.mp distinct
    obtain ⟨sized', alike, filled⟩ := fillLane_spec laminar sized key
    obtain ⟨later, rest⟩ := ih sized' distinct
    refine ⟨fun i absent => ?_, fun i listed front back split => ?_⟩
    · rw [mem_cons, not_or] at absent
      have first := alike i absent.1
      have second := later i absent.2
      exact ⟨second.1.trans first.1, second.2.trans first.2⟩
    · rcases mem_cons.mp listed with here | listed
      · rw [here] at split
        have first := filled front i back split
        have second := later i (by rwa [here])
        exact ⟨second.1.trans first.level, second.2.trans first.parent⟩
      · exact rest i listed front back split

end

/-! ## The tree -/

/-- Row `j` encloses row `i` in its lane. Of two rows with the same interval the first one does. -/
def Above (rows : List (CallRow intern)) (j i : Fin rows.length) : Prop :=
  (rows.get j).lane = (rows.get i).lane ∧ Encloses (rowStart rows) (rowStop rows) j i ∧
    (Encloses (rowStart rows) (rowStop rows) i j → j < i)

instance (j i : Fin rows.length) : Decidable (Above rows j i) :=
  inferInstanceAs (Decidable (_ = _ ∧ Encloses (rowStart rows) (rowStop rows) j i ∧
    (Encloses (rowStart rows) (rowStop rows) i j → j < i)))

theorem before_of_encloses (encloses : Encloses (rowStart rows) (rowStop rows) i j) :
    Before (rowStart rows) (rowStop rows) i j :=
  ⟨encloses.1, fun _ => encloses.2.2⟩

/-- The enclosing rows stand before a row. -/
theorem mem_filter_front
    (split : sortedLaneIds rows (rows.get i).lane = front ++ i :: back) (j : Fin rows.length) :
    j ∈ front.filter (fun j => Encloses (rowStart rows) (rowStop rows) j i) ↔ Above rows j i := by
  have sorted := @sorted_sortedLaneIds _ rows (rows.get i).lane
  have stable := @stable_sortedLaneIds _ rows (rows.get i).lane
  rw [split, pairwise_append] at sorted stable
  rw [mem_filter, decide_eq_true_eq]
  constructor
  · rintro ⟨listed, encloses⟩
    have inLane : j ∈ sortedLaneIds rows (rows.get i).lane := by
      rw [split]
      exact mem_append_left _ listed
    refine ⟨mem_sortedLaneIds.mp inLane, encloses, fun inner => ?_⟩
    exact stable.2.2 j listed i mem_cons_self (before_of_encloses inner)
  · rintro ⟨lane, encloses, tie⟩
    have inLane := mem_sortedLaneIds.mpr lane
    rw [split] at inLane
    refine ⟨?_, encloses⟩
    rcases mem_append.mp inLane with listed | listed
    · exact listed
    · rcases mem_cons.mp listed with same | listed
      · subst same
        exact absurd (tie encloses) (lt_irrefl j)
      · have before := (pairwise_cons.mp sorted.2.1).1 j listed
        have order := (pairwise_cons.mp stable.2.1).1 j listed
        have other : Encloses (rowStart rows) (rowStop rows) i j := by
          refine ⟨before.1, fun ended => encloses.2.1 ?_, before.2 encloses.1⟩
          exact Std.le_trans (before.2 encloses.1) (Std.le_trans ended encloses.1)
        have above := order (before_of_encloses encloses)
        exact absurd (above.trans (tie other)) (lt_irrefl i)

/-- The last of the enclosing rows is the innermost. -/
theorem innermost_front (laminar : LaminarLanes rows)
    (split : sortedLaneIds rows (rows.get i).lane = front ++ i :: back)
    (last : (front.filter fun j =>
      Encloses (rowStart rows) (rowStop rows) j i).getLast? = some j) :
    ∀ k, Above rows k i → k = j ∨ Above rows k j := by
  have members := mem_filter_front split
  have inFront : front.Sublist (sortedLaneIds rows (rows.get i).lane) := by
    rw [split]
    exact sublist_append_left _ _
  have sorted := @sorted_sortedLaneIds _ rows (rows.get i).lane
  have after : ∀ k ∈ front, rowStart rows k ≤ rowStart rows i := by
    rw [split] at sorted
    exact fun k listed => ((pairwise_append.mp sorted).2.2 k listed i mem_cons_self).1
  have nested : front.Pairwise (Laminar (rowStart rows) (rowStop rows)) :=
    (laminar_sortedLaneIds laminar _).sublist inFront
  have stable := ((@stable_sortedLaneIds _ rows (rows.get i).lane).sublist inFront).sublist
    (filter_sublist (p := fun j => decide (Encloses (rowStart rows) (rowStop rows) j i)))
  have inner := (members j).mp (mem_of_getLast? last)
  intro k above
  have listed := (members k).mpr above
  rcases innermost (sorted.sublist inFront) nested after last k (mem_filter.mp listed).1
    above.2.1 with same | encloses
  · exact .inl same
  · by_cases same : k = j
    · exact .inl same
    · obtain ⟨rest, ends⟩ := getLast?_eq_some_iff.mp last
      rw [ends] at stable listed
      have early : k ∈ rest :=
        (mem_append.mp listed).resolve_right fun here => same (mem_singleton.mp here)
      refine .inr ⟨above.1.trans inner.1.symm, encloses, fun inner => ?_⟩
      exact (pairwise_append.mp stable).2.2 k early j mem_cons_self
        (before_of_encloses inner)

/-- The levels and the parents of the call tree are those of the nesting. -/
theorem buildCallTree_spec (timeScale : Float) (laminar : LaminarLanes rows)
    (order : LaneOrder (rows.map CallRow.toContainmentRow)) :
    (∀ (σ Handle : Type) (root : Handle)
        (sink : σ → Fin rows.length → Nat → Handle → σ × Handle) (state : σ) (key : UInt64),
      containmentWalk (rowStart rows) (rowStop rows) root sink state [] (sortedLaneIds rows key) =
        treeWalk (rowStart rows) (rowStop rows) root sink state [] (sortedLaneIds rows key)) ∧
    ∀ i : Fin rows.length,
      (buildCallTree timeScale rows (sortedLaneNumbers rows order)).level[i.val]? =
        some (.ofNat (Finset.univ.filter fun j => Above rows j i).card) ∧
      ((∃ j, Above rows j i ∧ (∀ k, Above rows k i → k = j ∨ Above rows k j) ∧
        (buildCallTree timeScale rows (sortedLaneNumbers rows order)).parentId[i.val]? =
          some (.ofNat j.val)) ∨
      (∀ j, ¬ Above rows j i) ∧
        (buildCallTree timeScale rows (sortedLaneNumbers rows order)).parentId[i.val]? =
          some (-1)) := by
  refine ⟨fun σ Handle root sink state key => walk_sortedLaneIds laminar root sink state key, ?_⟩
  intro i
  have sized : Sized rows (List.replicate rows.length 0, List.replicate rows.length (-1)) :=
    ⟨length_replicate, length_replicate⟩
  have listed : (rows.get i).lane ∈ order.keys :=
    (order.covers _).mpr ⟨_, mem_map_of_mem (get_mem rows i), rfl⟩
  obtain ⟨front, back, split⟩ := append_of_mem
    (mem_sortedLaneIds.mpr (rfl : (rows.get i).lane = (rows.get i).lane))
  have filled := (fillLanes_spec laminar sized order.distinct).2 i listed front back split
  have members := mem_filter_front split
  have distinct : front.Nodup := by
    have all := @nodup_sortedLaneIds _ rows (rows.get i).lane
    rw [split] at all
    exact all.of_append_left
  constructor
  · have count : (front.filter fun j => Encloses (rowStart rows) (rowStop rows) j i).length =
        (Finset.univ.filter fun j => Above rows j i).card := by
      rw [← toFinset_card_of_nodup (distinct.filter _)]
      congr 1
      ext j
      rw [mem_toFinset, members, Finset.mem_filter]
      exact (and_iff_right (Finset.mem_univ j)).symm
    rw [← count]
    exact filled.level
  · cases last : (front.filter fun j =>
        Encloses (rowStart rows) (rowStop rows) j i).getLast? with
    | none =>
      refine .inr ⟨fun j above => ?_, ?_⟩
      · have := (members j).mpr above
        rw [getLast?_eq_none_iff.mp last] at this
        exact not_mem_nil this
      · have parent := filled.parent
        rw [last] at parent
        exact parent
    | some j =>
      refine .inl ⟨j, ?_, fun k above => ?_, ?_⟩
      · exact (members j).mp (mem_of_getLast? last)
      · exact innermost_front laminar split last k above
      · have parent := filled.parent
        rw [last] at parent
        exact parent

end Lanes

/-- Rows of one lane without names. -/
def callRows (intervals : List (Int64 × Int64)) : List (CallRow ⟨[], List.nodup_nil⟩) :=
  intervals.map fun i =>
    { lane := 7, start := i.1, dur := i.2, nameId := none, groupId := none, pid := 1, tid := 1 }

def callLanes (first : Int64 × Int64) (rest : List (Int64 × Int64)) :
    LaneOrder ((callRows (first :: rest)).map CallRow.toContainmentRow) where
  keys := [7]
  distinct := List.nodup_singleton 7
  covers := by
    intro key
    rw [List.mem_singleton, callRows, List.map_map]
    constructor
    · rintro rfl
      exact ⟨_, List.mem_map_of_mem List.mem_cons_self, rfl⟩
    · rintro ⟨r, listed, rfl⟩
      obtain ⟨i, _, rfl⟩ := List.mem_map.mp listed
      rfl

theorem buildCallTree_nested :
    (buildCallTree 1 (callRows [(0, 10), (2, 3), (20, 5)])
      (sortedLaneNumbers _ (callLanes (0, 10) [(2, 3), (20, 5)]))).level[1]? = some 1 := by
  have laminar : LaminarLanes (callRows [(0, 10), (2, 3), (20, 5)]) := by
    unfold LaminarLanes
    decide +kernel
  have tree := (buildCallTree_spec 1 laminar (callLanes (0, 10) [(2, 3), (20, 5)])).2 ⟨1, by decide⟩
  rw [tree.1]
  decide +kernel

theorem sortedLaneIds_instants : sortedLaneIds (callRows [(5, 0), (5, 0)]) 7 =
    [⟨0, by decide⟩, ⟨1, by decide⟩] := by
  rw [sortedLaneIds, mergeSort_of_pairwise]
  · decide +kernel
  · decide +kernel

/-- Of two events without a duration at one time neither is the parent of the other, although the
interval of the second lies within that of the first. -/
theorem buildCallTree_instants :
    Inside (rowStart (callRows [(5, 0), (5, 0)])) (rowStop _) ⟨1, by decide⟩ ⟨0, by decide⟩ ∧
      (buildCallTree 1 (callRows [(5, 0), (5, 0)])
        (sortedLaneNumbers _ (callLanes (5, 0) [(5, 0)]))).parentId = [-1, -1] ∧
      CallTree.names = ["pid", "tid", "ts", "dur", "name", "level", "parent_id"] := by
  refine ⟨by decide +kernel, ?_, rfl⟩
  have lanes : sortedLaneNumbers (callRows [(5, 0), (5, 0)]) (callLanes (5, 0) [(5, 0)]) =
      [sortedLaneIds _ 7] := rfl
  rw [lanes, sortedLaneIds_instants]
  decide +kernel

end DFTracer.Flame
