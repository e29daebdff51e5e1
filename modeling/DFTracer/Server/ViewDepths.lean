/-
# Rows of a view

A view draws the events of a lane in rows. An event takes the lowest row that is free when it
starts. Estimated events and blocks of folded activity look for a row and take none. The rows are
those of the nesting if no event starts together with an event around it, or ends with one where
only its end is looked at.
-/

import DFTracer.Flame.ContainmentFold
import Mathlib.Algebra.Order.Ring.Rat
import Mathlib.Data.List.Sort

namespace DFTracer.Server

open List
open Flame (Inside Laminar Before)

structure LaneKey where
  pid : Int64
  tid : Int64
  deriving DecidableEq

structure EventScalars where
  ts : ℚ := 0
  dur : ℚ := 0
  hasTs : Bool := false
  hasDur : Bool := false
  pid : Int64 := 0
  tid : Int64 := 0

/-- A kept event: what `parse_event_scalars` finds, and whether the text holds `"est":true`. -/
structure BigEvent where
  scalars : Option EventScalars
  est : Bool := false

structure DensityKey where
  pid : Int64
  tid : Int64
  col : Int64

/-- The arguments of `assign_view_depths`. -/
structure View where
  big : List BigEvent
  dens : List DensityKey := []
  begin : ℚ := 0
  threshold : ℚ := 0

def parseLaneTsDur (event : BigEvent) : Option (LaneKey × ℚ × ℚ) :=
  match event.scalars with
  | none => none
  | some s => if s.hasTs && s.hasDur then some (⟨s.pid, s.tid⟩, s.ts, s.dur) else none

/-- What a row is written to: an event or a block. -/
inductive Mark where
  | big (idx : Nat)
  | block (idx : Nat)
  deriving DecidableEq

structure Item where
  lane : LaneKey
  ts : ℚ
  stop : ℚ
  mark : Mark
  est : Bool := false
  deriving DecidableEq

namespace Item

def isBlock (it : Item) : Bool :=
  match it.mark with
  | .big _ => false
  | .block _ => true

/-- The item takes no row. -/
def peeks (it : Item) : Bool := it.isBlock || it.est

/-- The time at which a row has to be free. -/
def reach (it : Item) : ℚ := if it.peeks then it.stop else it.ts

/-- The order of the sort. It leaves events that start together in any order. -/
def sortsBefore (a b : Item) : Bool :=
  if a.ts ≠ b.ts then a.ts < b.ts else !a.isBlock && b.isBlock

end Item

def lowestFree (rowEnd : List ℚ) (time : ℚ) : Nat := rowEnd.findIdx fun e => !(time < e)

def occupy (rowEnd : List ℚ) (it : Item) : List ℚ :=
  if it.peeks then rowEnd
  else
    let r := lowestFree rowEnd it.ts
    if r = rowEnd.length then rowEnd ++ [it.stop] else rowEnd.set r it.stop

/-- The rows of the items of a lane. -/
def pack : List ℚ → List Item → List (Item × Nat)
  | _, [] => []
  | rowEnd, it :: rest => (it, lowestFree rowEnd it.reach) :: pack (occupy rowEnd it) rest

namespace View

variable (v : View)

def items : List Item :=
  (v.big.zipIdx.filterMap fun (event, i) => (parseLaneTsDur event).map fun (lane, ts, dur) =>
    ⟨lane, ts, ts + if dur > 0 then dur else 0, .big i, event.est⟩) ++
  if v.threshold > 0 then
    v.dens.zipIdx.map fun (key, i) =>
      let lo := v.begin + key.col.toInt * v.threshold
      ⟨⟨key.pid, key.tid⟩, lo, lo + v.threshold, .block i, false⟩
  else []

def laneItems (lane : LaneKey) : List Item := v.items.filter fun it => it.lane = lane

/-- What the sort may make of the lanes. -/
structure Arrangement where
  order : LaneKey → List Item
  perm : ∀ lane, (order lane).Perm (v.laneItems lane)
  sorted : ∀ lane, (order lane).Pairwise fun a b => !b.sortsBefore a

variable {v}

/-- The row of an event or a block, as `assign_view_depths` leaves it. -/
def assignViewDepths (a : v.Arrangement) (mark : Mark) : Nat :=
  let written := (v.items.map Item.lane).dedup.flatMap fun lane => pack [] (a.order lane)
  ((written.find? fun w => w.1.mark = mark).map Prod.snd).getD 0

end View

/-! ## Rows of one lane -/

/-- The items that take a row. -/
def kept (lane : List Item) : List Item := lane.filter fun it => !it.peeks

/-- The ends of the rows after some items. -/
def rowEnds (lane : List Item) : List ℚ := lane.foldl occupy []

variable {rowEnd : List ℚ} {lane before after : List Item} {it x y z : Item} {r : Nat} {time e : ℚ}

theorem pack_append : pack rowEnd (before ++ after) =
    pack rowEnd before ++ pack (before.foldl occupy rowEnd) after := by
  induction before generalizing rowEnd with
  | nil => rfl
  | cons it rest ih => rw [cons_append, pack, ih, pack, foldl_cons, cons_append]

theorem map_fst_pack : (pack rowEnd lane).map Prod.fst = lane := by
  induction lane generalizing rowEnd with
  | nil => rfl
  | cons it rest ih => rw [pack, map_cons, ih]

theorem le_of_lowestFree (here : rowEnd[lowestFree rowEnd time]? = some e) : e ≤ time := by
  obtain ⟨inside, rfl⟩ := List.getElem?_eq_some_iff.mp here
  have free : (!decide (time < rowEnd[lowestFree rowEnd time])) = true :=
    findIdx_getElem (w := inside)
  simpa using free

theorem lt_of_lt_lowestFree (less : r < lowestFree rowEnd time) :
    ∃ e, rowEnd[r]? = some e ∧ time < e := by
  have inside := less.trans_le findIdx_le_length
  exact ⟨rowEnd[r], getElem?_eq_getElem inside, by simpa using not_of_lt_findIdx less⟩

/-- An event comes after the rows that are busy. -/
theorem occupy_eq (takes : it.peeks = false) : occupy rowEnd it =
    rowEnd.takeWhile (it.ts < ·) ++ it.stop :: (rowEnd.dropWhile (it.ts < ·)).tail := by
  simp only [occupy, takes, lowestFree]
  induction rowEnd with
  | nil => rfl
  | cons d rest ih =>
    by_cases busy : it.ts < d
    · simp only [findIdx_cons, busy, takeWhile_cons, dropWhile_cons] at ih ⊢
      simp [← ih]
      split_ifs <;> rfl
    · simp [findIdx_cons, busy]

/-- A row that is not free yet stays as it is. -/
theorem getElem?_occupy (it : Item) (here : rowEnd[r]? = some e) (busy : it.ts < e) :
    (occupy rowEnd it)[r]? = some e := by
  have inside := (List.getElem?_eq_some_iff.mp here).1
  unfold occupy
  split
  · exact here
  · dsimp only
    split
    · rw [getElem?_append_left inside, here]
    · rw [getElem?_set_ne, here]
      rintro rfl
      exact absurd busy (not_lt.mpr (le_of_lowestFree here))

theorem getElem?_foldl_occupy (lane : List Item) (here : rowEnd[r]? = some e)
    (busy : ∀ x ∈ lane, x.ts < e) :
    (lane.foldl occupy rowEnd)[r]? = some e := by
  induction lane generalizing rowEnd with
  | nil => exact here
  | cons it rest ih =>
    exact ih (getElem?_occupy it here (busy it mem_cons_self))
      fun x listed => busy x (mem_cons_of_mem _ listed)

theorem rowEnds_append : rowEnds (before ++ after) = after.foldl occupy (rowEnds before) :=
  foldl_append

theorem kept_append : kept (before ++ after) = kept before ++ kept after := filter_append ..

/-- The rows that are busy at a time, and the events that are. -/
theorem filter_rowEnds (late : ∀ x ∈ lane, x.ts ≤ time) :
    ((rowEnds lane).filter (time < ·)).Perm (((kept lane).map Item.stop).filter (time < ·)) := by
  induction lane using List.reverseRecOn with
  | nil => exact .nil
  | append_singleton before it ih =>
    have ih := ih fun x listed => late x (mem_append_left _ listed)
    have now : it.ts ≤ time := late it (mem_append_right _ mem_cons_self)
    rw [rowEnds_append, kept_append, foldl_cons, foldl_nil]
    cases takes : it.peeks with
    | true =>
      have none : kept [it] = [] := by simp [kept, takes]
      rw [occupy, if_pos takes, none, append_nil]
      exact ih
    | false =>
      have one : kept [it] = [it] := by simp [kept, takes]
      have whole := takeWhile_append_dropWhile (p := (it.ts < ·)) (l := rowEnds before)
      have freed : ((rowEnds before).dropWhile (it.ts < ·)).tail.filter (time < ·) =
          ((rowEnds before).dropWhile (it.ts < ·)).filter (time < ·) := by
        have free := head?_dropWhile_not (it.ts < ·) (rowEnds before)
        cases rest : (rowEnds before).dropWhile (it.ts < ·) with
        | nil => rfl
        | cons d rest' =>
          rw [rest] at free
          have free : d ≤ it.ts := by simpa using free
          rw [filter_cons_of_neg (by simpa using free.trans now), tail_cons]
      rw [occupy_eq takes, one, map_append, filter_append, filter_append, ← singleton_append,
        filter_append, freed]
      refine Perm.trans ?_ (ih.append_right _)
      conv_rhs => rw [← whole, filter_append, append_assoc]
      exact perm_append_comm.append_left _

theorem rowEnds_sorted (ordered : lane.Pairwise fun a b => a.ts ≤ b.ts)
    (forward : ∀ x ∈ lane, x.ts ≤ x.stop)
    (nested : (kept lane).Pairwise fun a b => a.stop ≤ b.ts ∨ b.stop ≤ a.stop) :
    (rowEnds lane).Pairwise (· ≥ ·) := by
  induction lane using List.reverseRecOn with
  | nil => exact .nil
  | append_singleton before it ih =>
    obtain ⟨ordered, _, late⟩ := pairwise_append.mp ordered
    rw [kept_append] at nested
    obtain ⟨nested, _, within⟩ := pairwise_append.mp nested
    have late : ∀ x ∈ before, x.ts ≤ it.ts := fun x listed => late x listed it mem_cons_self
    have sorted := ih ordered (fun x listed => forward x (mem_append_left _ listed)) nested
    rw [rowEnds_append, foldl_cons]
    cases takes : it.peeks with
    | true => rwa [occupy, if_pos takes]
    | false =>
      have itKept : it ∈ kept [it] := by simp [kept, takes]
      have whole := takeWhile_append_dropWhile (p := (it.ts < ·)) (l := rowEnds before)
      have free := head?_dropWhile_not (it.ts < ·) (rowEnds before)
      have busy : ∀ d ∈ (rowEnds before).takeWhile (it.ts < ·), it.stop ≤ d := fun d listed => by
        have running := mem_takeWhile_imp listed
        have here := (filter_rowEnds late).mem_iff.mp
          (mem_filter.mpr ⟨(takeWhile_sublist _).mem listed, running⟩)
        obtain ⟨x, inside, rfl⟩ := mem_map.mp (mem_of_mem_filter here)
        exact (within x inside it itKept).resolve_left (not_le.mpr (of_decide_eq_true running))
      rw [← whole] at sorted
      rw [occupy_eq takes]
      generalize (rowEnds before).takeWhile (it.ts < ·) = first at *
      generalize (rowEnds before).dropWhile (it.ts < ·) = rest at *
      obtain ⟨firstSorted, restSorted, cross⟩ := pairwise_append.mp sorted
      have ends : it.ts ≤ it.stop := forward it (mem_append_right _ mem_cons_self)
      refine pairwise_append.mpr ⟨firstSorted, pairwise_cons.mpr ⟨?_, restSorted.tail⟩, ?_⟩
      · cases rest with
        | nil => exact nofun
        | cons d rest =>
          have free : d ≤ it.ts := by simpa using free
          exact fun e listed => ((rel_of_pairwise_cons restSorted listed).trans free).trans ends
      · intro d listed e inside
        rcases mem_cons.mp inside with rfl | inside
        · exact busy d listed
        · exact cross d listed e (mem_of_mem_tail inside)

theorem lowestFree_eq (sorted : rowEnd.Pairwise (· ≥ ·)) :
    lowestFree rowEnd time = (rowEnd.filter (time < ·)).length := by
  induction rowEnd with
  | nil => rfl
  | cons d rest ih =>
    obtain ⟨first, sorted⟩ := pairwise_cons.mp sorted
    rw [lowestFree, findIdx_cons, ← lowestFree, ih sorted]
    by_cases busy : time < d
    · simp [busy]
    · have none : rest.filter (time < ·) = [] := filter_eq_nil_iff.mpr fun e listed => by
        simpa using (first e listed).trans (not_lt.mp busy)
      simp [busy, none]

/-! ## Rows and nesting -/

/-- An event that is properly around another one, or covers a block. -/
def Item.Surrounds (x i : Item) : Prop :=
  Inside Item.ts Item.stop i x ∧ (i.isBlock ∨ ¬Inside Item.ts Item.stop x i)

instance (x i : Item) : Decidable (x.Surrounds i) :=
  inferInstanceAs (Decidable (_ ∧ (_ ∨ ¬_)))

/-- No event is there twice unless it is a point, and none starts together with one around it. -/
structure Separate (lane : List Item) : Prop where
  distinct : (kept lane).Pairwise fun a b =>
    Inside Item.ts Item.stop a b → Inside Item.ts Item.stop b a → a.stop ≤ a.ts
  starts : ∀ i ∈ lane, ∀ x ∈ kept lane, x.Surrounds i → i.isBlock ∨ x.ts < i.ts

/-- No event around an item is over where the item looks for a row either. -/
structure Clear (lane : List Item) : Prop extends Separate lane where
  ends : ∀ i ∈ lane, ∀ x ∈ kept lane, x.Surrounds i → i.reach < x.stop

variable {i : Item}

theorem countP_lt {α : Type} {p q : α → Bool} {l : List α} {a : α} (imp : ∀ b ∈ l, p b → q b)
    (listed : a ∈ l) (holds : q a) (fails : ¬p a) : l.countP p < l.countP q := by
  obtain ⟨front, rest, rfl⟩ := append_of_mem listed
  have first := countP_mono_left fun b h => imp b (mem_append_left _ h)
  have last := countP_mono_left fun b h => imp b (mem_append_right _ (mem_cons_of_mem _ h))
  rw [countP_append, countP_append, countP_cons_of_neg fails, countP_cons_of_pos holds]
  omega

theorem peeks_of_kept (listed : x ∈ kept lane) : x.peeks = false := by
  simpa using of_mem_filter listed

theorem isBlock_of_kept (listed : x ∈ kept lane) : x.isBlock = false := by
  have takes := peeks_of_kept listed
  rw [Item.peeks, Bool.or_eq_false_iff] at takes
  exact takes.1

theorem not_surrounds_self (block : x.isBlock = false) : ¬x.Surrounds x := fun h =>
  h.2.elim (by simp [block]) fun other => other h.1

theorem reach_eq (takes : x.peeks = false) : x.reach = x.ts := by
  rw [Item.reach, if_neg (by simp [takes])]

theorem ts_le_reach (forward : x.ts ≤ x.stop) : x.ts ≤ x.reach := by
  rw [Item.reach]
  split
  · exact forward
  · exact le_refl _

theorem order_iff : !y.sortsBefore x ↔ x.ts < y.ts ∨ x.ts = y.ts ∧ (x.isBlock → y.isBlock) := by
  by_cases same : y.ts = x.ts
  · simp [Item.sortsBefore, same]
    cases x.isBlock <;> simp
  · simp [Item.sortsBefore, same, Ne.symm same, le_iff_lt_or_eq]

theorem ts_le_of_sorted (sorted : lane.Pairwise fun a b => !b.sortsBefore a) :
    lane.Pairwise fun a b => a.ts ≤ b.ts :=
  sorted.imp fun order => (order_iff.mp order).elim le_of_lt fun same => same.1.le

/-- The row of an item is the number of events around it if none of them is over where it looks
for a row. -/
theorem lowestFree_rowEnds_iff (sorted : lane.Pairwise fun a b => !b.sortsBefore a)
    (forward : ∀ x ∈ lane, x.ts ≤ x.stop)
    (laminar : (kept lane).Pairwise (Laminar Item.ts Item.stop)) (separate : Separate lane)
    (split : lane = before ++ i :: after) :
    lowestFree (rowEnds before) i.reach = (kept lane).countP (·.Surrounds i) ↔
      ∀ x ∈ kept lane, x.Surrounds i → i.reach < x.stop := by
  have ordered := ts_le_of_sorted sorted
  obtain ⟨distinct, starts⟩ := separate
  have inLane : i ∈ lane := split ▸ mem_append_right _ mem_cons_self
  have parts : kept lane = kept before ++ kept (i :: after) := split ▸ kept_append
  obtain ⟨_, rest, cross⟩ := pairwise_append.mp (split ▸ ordered)
  have early : ∀ x ∈ before, x.ts ≤ i.ts := fun x listed => cross x listed i mem_cons_self
  have later : ∀ x ∈ kept (i :: after), ¬x.Surrounds i := by
    intro x listed around
    have block := isBlock_of_kept listed
    rcases mem_cons.mp (mem_of_mem_filter listed) with rfl | inside
    · exact not_surrounds_self block around
    · have order := rel_of_pairwise_cons (pairwise_append.mp (split ▸ sorted)).2.1 inside
      rw [order_iff] at order
      have same := le_antisymm around.1.1 (rel_of_pairwise_cons rest inside)
      have isBlock := (starts i inLane x (parts ▸ mem_append_right _ listed) around).resolve_right
        same.not_lt
      refine order.elim same.not_gt fun together => ?_
      rw [together.2 isBlock] at block
      cases block
  have nested : (kept lane).Pairwise fun a b => a.stop ≤ b.ts ∨ b.stop ≤ a.stop := by
    refine (laminar.and (ordered.filter _)).imp_of_mem fun {a b} ha hb both => ?_
    refine Flame.Laminar.apart_or_nested ⟨both.2, fun same => not_lt.mp fun longer => ?_⟩ both.1
    have around : b.Surrounds a := ⟨⟨same, longer.le⟩, .inr fun inside => inside.2.not_gt longer⟩
    exact (starts a (mem_of_mem_filter ha) b hb around).elim (by simp [isBlock_of_kept ha])
      both.2.not_gt
  have running : ∀ x ∈ kept before, i.reach < x.stop → x.Surrounds i := by
    intro x listed busy
    have start := early x (mem_of_mem_filter listed)
    cases takes : i.peeks with
    | true =>
      rw [Item.reach, if_pos takes] at busy
      exact ⟨⟨start, busy.le⟩, .inr fun inside => inside.2.not_gt busy⟩
    | false =>
      rw [reach_eq takes] at busy
      have iKept : i ∈ kept (i :: after) := by simp [kept, takes]
      rw [parts] at nested distinct
      have long := ((pairwise_append.mp nested).2.2 x listed i iKept).resolve_left (not_le.mpr busy)
      refine ⟨⟨start, long⟩, .inr fun inside => ?_⟩
      have point := (pairwise_append.mp distinct).2.2 x listed i iKept inside ⟨start, long⟩
      exact (point.trans start).not_gt busy
  have row : lowestFree (rowEnds before) i.reach =
      (kept before).countP fun x => i.reach < x.stop := by
    have late : ∀ x ∈ before, x.ts ≤ i.reach := fun x listed =>
      (early x listed).trans (ts_le_reach (forward i inLane))
    rw [parts] at nested
    rw [lowestFree_eq (rowEnds_sorted (pairwise_append.mp (split ▸ ordered)).1
      (fun x listed => forward x (split ▸ mem_append_left _ listed)) (pairwise_append.mp nested).1),
      (filter_rowEnds late).length_eq, ← countP_eq_length_filter, countP_map]
    rfl
  have none : (kept (i :: after)).countP (·.Surrounds i) = 0 :=
    countP_eq_zero.mpr fun x listed => by simpa using later x listed
  rw [row, parts, countP_append, none]
  constructor
  · intro same x listed around
    have inside := (mem_append.mp listed).resolve_right fun h => later x h around
    by_contra ended
    refine Nat.ne_of_lt (countP_lt (fun y inside busy => ?_) inside (decide_eq_true around)
      (by simpa using ended)) same
    exact decide_eq_true (running y inside (of_decide_eq_true busy))
  · intro ends
    refine countP_congr fun x listed => ?_
    rw [decide_eq_true_iff, decide_eq_true_iff]
    exact ⟨running x listed, ends x (mem_append_left _ listed)⟩

/-- Of two events in one row the first is over when the second starts. -/
theorem stop_le_of_same_row {mid : List Item} (takes : x.peeks = false) (late : y.peeks = false)
    (ordered : ∀ z ∈ mid, z.ts ≤ y.ts)
    (same : lowestFree (rowEnds before) x.reach =
      lowestFree (rowEnds (before ++ x :: mid)) y.reach) : x.stop ≤ y.ts := by
  have placed : (occupy (rowEnds before) x)[lowestFree (rowEnds before) x.ts]? = some x.stop := by
    simp only [occupy, takes, Bool.false_eq_true, if_false]
    split
    case isTrue full => rw [full, getElem?_concat_length]
    case isFalse free =>
      exact getElem?_set_self (lt_of_le_of_ne findIdx_le_length free)
  rw [reach_eq takes, reach_eq late] at same
  by_contra busy
  have busy := not_le.mp busy
  have still := getElem?_foldl_occupy mid placed fun z listed =>
    (ordered z listed).trans_lt busy
  rw [← foldl_cons, ← rowEnds_append, same] at still
  exact busy.not_ge (le_of_lowestFree still)

namespace View

variable {v : View} {key : LaneKey} (a : v.Arrangement)

theorem items_distinct : (v.items.map Item.mark).Nodup := by
  have numbered {α : Type} (l : List α) : l.zipIdx.Pairwise fun x y => x.2 ≠ y.2 :=
    pairwise_map.mp (nodup_zipIdx_map_snd l)
  refine pairwise_map.mpr (pairwise_append.mpr ⟨?_, ?_, ?_⟩)
  · refine (numbered v.big).filterMap _ fun x y other it here it' there => ?_
    obtain ⟨_, _, rfl⟩ := Option.map_eq_some_iff.mp here
    obtain ⟨_, _, rfl⟩ := Option.map_eq_some_iff.mp there
    exact fun same => other (Mark.big.inj same)
  · split
    · exact pairwise_map.mpr ((numbered v.dens).imp fun other same => other (Mark.block.inj same))
    · exact .nil
  · intro x listed y listed'
    obtain ⟨_, _, here⟩ := mem_filterMap.mp listed
    obtain ⟨_, _, rfl⟩ := Option.map_eq_some_iff.mp here
    split at listed'
    · obtain ⟨_, _, rfl⟩ := mem_map.mp listed'
      exact nofun
    · cases listed'

theorem items_forward : ∀ x ∈ v.items, x.ts ≤ x.stop := by
  intro x listed
  rcases mem_append.mp listed with listed | listed
  · obtain ⟨_, _, here⟩ := mem_filterMap.mp listed
    obtain ⟨_, _, rfl⟩ := Option.map_eq_some_iff.mp here
    refine le_add_of_nonneg_right ?_
    split_ifs with positive
    · exact positive.le
    · exact le_refl _
  · split_ifs at listed with positive
    · obtain ⟨_, _, rfl⟩ := mem_map.mp listed
      exact le_add_of_nonneg_right positive.le
    · cases listed

theorem mem_order : x ∈ a.order key ↔ x ∈ v.items ∧ x.lane = key := by
  rw [(a.perm key).mem_iff, laneItems, mem_filter, decide_eq_true_iff]

/-- Every item is written to once. -/
theorem assignViewDepths_eq (split : a.order key = before ++ i :: after) :
    assignViewDepths a i.mark = lowestFree (rowEnds before) i.reach := by
  have inOrder : i ∈ a.order key := split ▸ mem_append_right _ mem_cons_self
  obtain ⟨listed, here⟩ := (mem_order a).mp inOrder
  have row : (i, lowestFree (rowEnds before) i.reach) ∈ pack [] (a.order key) := by
    rw [split, pack_append]
    exact mem_append_right _ mem_cons_self
  have written : ∀ w ∈ (v.items.map Item.lane).dedup.flatMap fun lane => pack [] (a.order lane),
      w.1.mark = i.mark → w = (i, lowestFree (rowEnds before) i.reach) := by
    rintro ⟨x, r⟩ inside same
    obtain ⟨lane, _, inside⟩ := mem_flatMap.mp inside
    have inLane : x ∈ (pack [] (a.order lane)).map Prod.fst := mem_map_of_mem inside
    rw [map_fst_pack] at inLane
    obtain ⟨listed', rfl⟩ := (mem_order a).mp inLane
    obtain rfl := inj_on_of_nodup_map items_distinct listed' listed same
    have distinct : ((pack [] (a.order key)).map Prod.fst).Nodup := by
      rw [map_fst_pack, (a.perm key).nodup_iff]
      exact (items_distinct.of_map _).filter _
    exact inj_on_of_nodup_map distinct (here ▸ inside) row rfl
  rw [assignViewDepths]
  cases found : find? _ _ with
  | none =>
    have absent := find?_eq_none.mp found _ (mem_flatMap.mpr
      ⟨key, mem_dedup.mpr (here ▸ mem_map_of_mem listed), row⟩)
    simp at absent
  | some w =>
    rw [written w (mem_of_find?_eq_some found) (by simpa using find?_some found)]
    rfl

/-- What a view wants of the rows: events of a lane that share one do not overlap in more than a
point, and of a lane whose events are nested every item has as many events around it as its row
says. -/
def Stacked : Prop :=
  ∀ key, ((kept (v.laneItems key)).Pairwise fun x y =>
      assignViewDepths a x.mark = assignViewDepths a y.mark → x.stop ≤ y.ts ∨ y.stop ≤ x.ts) ∧
    ((kept (v.laneItems key)).Pairwise (Laminar Item.ts Item.stop) →
      ∀ i ∈ v.laneItems key,
        assignViewDepths a i.mark = (kept (v.laneItems key)).countP (·.Surrounds i))

variable {a}

theorem split_pair (pair : [x, y] <+ lane) : ∃ before mid after,
    lane = before ++ x :: (mid ++ y :: after) ∧ lane = (before ++ x :: mid) ++ y :: after := by
  obtain ⟨front, rest, rfl, inFront, inRest⟩ := cons_sublist_iff.mp pair
  obtain ⟨before, first, rfl⟩ := append_of_mem inFront
  obtain ⟨second, after, rfl⟩ := append_of_mem (inRest.mem mem_cons_self)
  exact ⟨before, first ++ second, after, by simp, by simp⟩

theorem kept_perm (a : v.Arrangement) (key : LaneKey) :
    (kept (a.order key)).Perm (kept (v.laneItems key)) := (a.perm key).filter _

/-- Events that share a row do not overlap in more than a point. -/
theorem apart (a : v.Arrangement) (key : LaneKey) : (kept (v.laneItems key)).Pairwise fun x y =>
    assignViewDepths a x.mark = assignViewDepths a y.mark → x.stop ≤ y.ts ∨ y.stop ≤ x.ts := by
  refine (kept_perm a key).pairwise ?_ fun apart same => (apart same.symm).symm
  refine pairwise_iff_forall_sublist.mpr fun {x y} pair same => .inl ?_
  obtain ⟨before, mid, after, split, split'⟩ := split_pair (pair.trans filter_sublist)
  rw [assignViewDepths_eq a split, assignViewDepths_eq a split'] at same
  have ordered := (pairwise_append.mp (split' ▸ ts_le_of_sorted (a.sorted key))).2.2
  exact stop_le_of_same_row (peeks_of_kept (pair.mem mem_cons_self))
    (peeks_of_kept (pair.mem (mem_cons_of_mem _ mem_cons_self)))
    (fun z listed => ordered z (mem_append_right _ (mem_cons_of_mem _ listed)) y mem_cons_self) same

theorem assignViewDepths_iff (a : v.Arrangement) {key : LaneKey}
    (laminar : (kept (v.laneItems key)).Pairwise (Laminar Item.ts Item.stop))
    (separate : Separate (v.laneItems key)) (listed : i ∈ v.laneItems key) :
    assignViewDepths a i.mark = (kept (v.laneItems key)).countP (·.Surrounds i) ↔
      ∀ x ∈ kept (v.laneItems key), x.Surrounds i → i.reach < x.stop := by
  obtain ⟨before, after, split⟩ := append_of_mem ((a.perm key).mem_iff.mpr listed)
  have perm := kept_perm a key
  have same : Separate (a.order key) :=
    ⟨perm.symm.pairwise separate.distinct fun h inside inside' =>
      (inside.2.trans (h inside' inside)).trans inside.1,
    fun i inside x inKept =>
      separate.starts i ((a.perm key).mem_iff.mp inside) x (perm.mem_iff.mp inKept)⟩
  rw [assignViewDepths_eq a split, ← perm.countP_eq,
    lowestFree_rowEnds_iff (a.sorted key) ?_ ?_ same split]
  · simp only [perm.mem_iff]
  · exact fun x inside => items_forward x ((mem_order a).mp inside).1
  · exact perm.symm.pairwise laminar fun h => by
      rcases h with h | h | h | h
      · exact .inr (.inl h)
      · exact .inl h
      · exact .inr (.inr (.inr h))
      · exact .inr (.inr (.inl h))

theorem order_trans (x y z : Item) : !y.sortsBefore x → !z.sortsBefore y → !z.sortsBefore x := by
  rw [order_iff, order_iff, order_iff]
  rintro (first | ⟨first, block⟩) (second | ⟨second, block'⟩)
  · exact .inl (first.trans second)
  · exact .inl (second ▸ first)
  · exact .inl (first ▸ second)
  · exact .inr ⟨first.trans second, block' ∘ block⟩

theorem order_total (x y : Item) : (!y.sortsBefore x) || !x.sortsBefore y := by
  rw [Bool.or_eq_true, order_iff, order_iff]
  rcases lt_trichotomy x.ts y.ts with less | same | more
  · exact .inl (.inl less)
  · cases block : x.isBlock with
    | true => exact .inr (.inr ⟨same.symm, fun _ => rfl⟩)
    | false => exact .inl (.inr ⟨same, nofun⟩)
  · exact .inr (.inl more)

/-- A stable sort of the items in any order. -/
def arrange (first : LaneKey → List Item) (perm : ∀ key, (first key).Perm (v.laneItems key)) :
    v.Arrangement where
  order key := (first key).mergeSort fun a b => !b.sortsBefore a
  perm key := (mergeSort_perm _ _).trans (perm key)
  sorted _ := pairwise_mergeSort order_trans order_total _

/-- Items that the sort leaves in any order may be in this one. -/
theorem exists_first (listed : i ∈ v.laneItems key) (listed' : x ∈ v.laneItems key) (other : x ≠ i)
    (order : !x.sortsBefore i) : ∃ a : v.Arrangement, [i, x] <+ a.order key := by
  obtain ⟨front, rest, split⟩ := append_of_mem listed
  have among : x ∈ front ++ rest := by
    rw [split, perm_middle.mem_iff] at listed'
    exact (mem_cons.mp listed').resolve_left other
  obtain ⟨front', rest', split'⟩ := append_of_mem among
  have perm : (i :: x :: (front' ++ rest')).Perm (v.laneItems key) := by
    rw [split]
    refine Perm.trans (Perm.cons i ?_) perm_middle.symm
    exact split' ▸ perm_middle.symm
  refine ⟨arrange (Function.update v.laneItems key (i :: x :: (front' ++ rest'))) fun k => ?_, ?_⟩
  · by_cases here : k = key
    · subst here
      rwa [Function.update_self]
    · rw [Function.update_of_ne here]
  · refine sublist_mergeSort order_trans order_total (pairwise_pair.mpr order) ?_
    rw [Function.update_self]
    exact sublist_append_left [i, x] _

section Stacked

variable (stacked : ∀ a : v.Arrangement, Stacked a) (key : LaneKey)
  (laminar : (kept (v.laneItems key)).Pairwise (Laminar Item.ts Item.stop))

include stacked laminar

/-- Events with the same interval have the same number of events around them. -/
theorem distinct_of_stacked : (kept (v.laneItems key)).Pairwise fun a b =>
    Inside Item.ts Item.stop a b → Inside Item.ts Item.stop b a → a.stop ≤ a.ts := by
  have a : v.Arrangement := arrange v.laneItems fun _ => .refl _
  have rows := (stacked a key).2 laminar
  refine (stacked a key).1.imp_of_mem fun {x y} hx hy apart within around => ?_
  have start := le_antisymm around.1 within.1
  have stop := le_antisymm within.2 around.2
  have same := apart (by
    rw [rows x (mem_of_mem_filter hx), rows y (mem_of_mem_filter hy)]
    refine countP_congr fun z _ => ?_
    simp [Item.Surrounds, Inside, start, stop, isBlock_of_kept hx, isBlock_of_kept hy])
  rw [← start, ← stop, or_self] at same
  exact same

/-- If the inner one of two events that start together comes first, the outer one finds a row
below that is free. -/
theorem starts_of_stacked (i : Item) (listed : i ∈ v.laneItems key) (x : Item)
    (inside : x ∈ kept (v.laneItems key)) (around : x.Surrounds i) :
    i.isBlock ∨ x.ts < i.ts := by
  by_contra neither
  obtain ⟨plain, late⟩ := not_or.mp neither
  have together := le_antisymm around.1.1 (not_lt.mp late)
  have plain : i.isBlock = false := by simpa using plain
  have listed' := mem_of_mem_filter inside
  obtain ⟨a, pair⟩ := exists_first listed listed'
    (fun same => not_surrounds_self plain (same ▸ around))
    (order_iff.mpr (.inr ⟨together.symm, by simp [plain]⟩))
  obtain ⟨before, mid, after, here, here'⟩ := split_pair pair
  have ordered := (pairwise_append.mp (here' ▸ ts_le_of_sorted (a.sorted key))).2.2
  have more : assignViewDepths a x.mark < assignViewDepths a i.mark := by
    rw [(stacked a key).2 laminar i listed, (stacked a key).2 laminar x listed']
    refine countP_lt (fun y _ h => ?_) inside (decide_eq_true around)
      (by simpa using not_surrounds_self (isBlock_of_kept inside))
    have h := of_decide_eq_true h
    refine decide_eq_true ⟨⟨h.1.1.trans around.1.1, around.1.2.trans h.1.2⟩, .inr fun back => ?_⟩
    refine h.2.elim (by simp [isBlock_of_kept inside]) fun apart => apart ?_
    exact ⟨around.1.1.trans back.1, back.2.trans around.1.2⟩
  rw [assignViewDepths_eq a here] at more
  obtain ⟨e, busy, later⟩ := lt_of_lt_lowestFree more
  have later : x.ts < e := by
    refine lt_of_le_of_lt ?_ later
    exact together ▸ ts_le_reach (items_forward i (mem_of_mem_filter listed))
  have still := getElem?_foldl_occupy (i :: mid) busy fun z inMid =>
    (ordered z (mem_append_right _ inMid) x mem_cons_self).trans_lt later
  rw [← rowEnds_append, assignViewDepths_eq a here', reach_eq (peeks_of_kept inside)] at still
  exact later.not_ge (le_of_lowestFree still)

theorem clear_of_stacked : Clear (v.laneItems key) := by
  have a : v.Arrangement := arrange v.laneItems fun _ => .refl _
  have separate : Separate (v.laneItems key) :=
    ⟨distinct_of_stacked stacked key laminar, starts_of_stacked stacked key laminar⟩
  exact ⟨separate, fun i listed =>
    (assignViewDepths_iff a laminar separate listed).mp ((stacked a key).2 laminar i listed)⟩

end Stacked

/-- A child that starts with its parent and may be placed first. -/
def firstChild : View where
  big := [⟨some { dur := 1, hasTs := true, hasDur := true }, false⟩,
    ⟨some { dur := 2, hasTs := true, hasDur := true }, false⟩]

theorem child_misplaced : ¬∀ a : firstChild.Arrangement, Stacked a := by
  intro stacked
  have clear := clear_of_stacked stacked ⟨0, 0⟩ (by decide +kernel)
  have late := clear.starts ⟨⟨0, 0⟩, 0, 1, .big 0, false⟩ (by decide +kernel)
    ⟨⟨0, 0⟩, 0, 2, .big 1, false⟩ (by decide +kernel) (by decide +kernel)
  exact absurd late (by decide +kernel)

theorem stacked_iff (v : View) : (∀ a : v.Arrangement, Stacked a) ↔
    ∀ key, (kept (v.laneItems key)).Pairwise (Laminar Item.ts Item.stop) →
      Clear (v.laneItems key) := by
  refine ⟨clear_of_stacked, fun clear a key => ⟨apart a key, fun laminar i listed => ?_⟩⟩
  obtain ⟨separate, ends⟩ := clear key laminar
  exact (assignViewDepths_iff a laminar separate listed).mpr (ends i listed)

end View

end DFTracer.Server
