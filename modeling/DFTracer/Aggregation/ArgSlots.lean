/-
# Representatives at an extreme

The specs that ask for values at the least or at the greatest value of a column share a slot,
which keeps the extreme and the representations of the row that has it. A row takes over only with
a strictly better value, so of equal rows the first one stays. What a group reports depends on the
order exactly where rows that could win differ.
-/

import DFTracer.Aggregation.FieldStatTree
import DFTracer.Math.FloatExtremes
import DFTracer.Math.Selection

namespace DFTracer.Aggregation

open DFTracer.Math DFTracer.Math.Float64 List

inductive ArgDir where
  | min | max
deriving DecidableEq

/-- An `ArgMax` or `ArgMin` spec. -/
structure ArgSpec where
  valueCol : Nat
  byCol : Nat
  dir : ArgDir

/-- A slot, with the value columns of its specs. -/
structure ArgSlotSpec where
  byCol : Nat
  dir : ArgDir
  valueCols : List Nat

/-- Give a spec the slot of its column and direction, or a new one. -/
def addSpec (sp : ArgSpec) : List ArgSlotSpec → List ArgSlotSpec
  | [] => [⟨sp.byCol, sp.dir, [sp.valueCol]⟩]
  | slot :: rest =>
    if slot.byCol = sp.byCol ∧ slot.dir = sp.dir then
      { slot with valueCols := slot.valueCols ++ [sp.valueCol] } :: rest
    else slot :: addSpec sp rest

/-- The part of `init_layout` for these specs. -/
def argLayout (specs : List ArgSpec) : List ArgSlotSpec :=
  specs.foldl (fun slots sp => addSpec sp slots) []

/-- A row of a group, by its columns. A null cell holds nothing. -/
structure ArgRow (α : Type) where
  number : Nat → Option FieldNum
  cell : Nat → Option α

variable {α : Type}

/-- The representations of a row for the specs of a slot. A missing value has the empty one. -/
def ArgRow.reprs (cellRepr : α → String) (row : ArgRow α) (slot : ArgSlotSpec) : List String :=
  slot.valueCols.map fun col => (row.cell col).elim "" cellRepr

/-- The strict comparison of a direction. -/
def ArgDir.better : ArgDir → Float → Float → Bool
  | .max, new, old => new > old
  | .min, new, old => new < old

/-- A rank in a direction. -/
def ArgDir.signed : ArgDir → Int → Int
  | .max, rank => rank
  | .min, rank => -rank

theorem ArgDir.better_iff (dir : ArgDir) (new old : Float) : dir.better new old = true ↔
    new.isNaN = false ∧ old.isNaN = false ∧
      dir.signed (floatRank old) < dir.signed (floatRank new) := by
  cases dir with
  | max =>
    change decide (old < new) = true ↔ _
    rw [decide_eq_true_eq, float_lt_iff]
    exact and_left_comm
  | min =>
    change decide (new < old) = true ↔ _ ∧ _ ∧ -floatRank old < -floatRank new
    rw [decide_eq_true_eq, float_lt_iff, Int.neg_lt_neg_iff]

structure ArgSlot where
  has : Bool := false
  by_ : Float := 0
  reprs : List String

namespace ArgSlotSpec

/-- A slot that has seen no row. -/
def start (slot : ArgSlotSpec) : ArgSlot where
  reprs := slot.valueCols.map fun _ => ""

/-- The part of `agg_accumulate` for a slot. -/
def accumulate (cellRepr : α → String) (slot : ArgSlotSpec) (s : ArgSlot) (row : ArgRow α) :
    ArgSlot :=
  match row.number slot.byCol with
  | none => s
  | some v =>
    if !s.has || slot.dir.better v.asDouble s.by_ then
      { has := true, by_ := v.asDouble, reprs := row.reprs cellRepr slot }
    else s

/-- The part of `AggState::merge_group` for a slot. -/
def mergeGroup (slot : ArgSlotSpec) (s other : ArgSlot) : ArgSlot :=
  if !other.has then s
  else if !s.has || slot.dir.better other.by_ s.by_ then
    { has := true, by_ := other.by_, reprs := other.reprs }
  else s

/-- The slot of a group whose rows are spread over partial states. -/
def build (cellRepr : α → String) (slot : ArgSlotSpec) (t : Build (ArgRow α)) : ArgSlot :=
  t.run slot.start (slot.accumulate cellRepr) slot.mergeGroup

/-- What a slot puts out for its specs. -/
def report (slot : ArgSlotSpec) (s : ArgSlot) : List String :=
  if s.has then s.reprs else slot.valueCols.map fun _ => ""

end ArgSlotSpec

/-- The slots of a group. -/
def argStart (layout : List ArgSlotSpec) : List ArgSlot := layout.map ArgSlotSpec.start

def argAccumulate (cellRepr : α → String) (layout : List ArgSlotSpec) (st : List ArgSlot)
    (row : ArgRow α) : List ArgSlot :=
  layout.zipWith (fun slot s => slot.accumulate cellRepr s row) st

def argMerge (layout : List ArgSlotSpec) (st other : List ArgSlot) : List ArgSlot :=
  layout.zipWith (fun slot s => slot.mergeGroup s.1 s.2) (st.zip other)

def argBuild (cellRepr : α → String) (layout : List ArgSlotSpec) (t : Build (ArgRow α)) :
    List ArgSlot :=
  t.run (argStart layout) (argAccumulate cellRepr layout) (argMerge layout)

/-- What a group puts out, slot by slot. -/
def argReport (layout : List ArgSlotSpec) (st : List ArgSlot) : List (List String) :=
  layout.zipWith ArgSlotSpec.report st

/-- The slots of a group do not depend on each other. -/
theorem argBuild_eq (cellRepr : α → String) (layout : List ArgSlotSpec) (t : Build (ArgRow α)) :
    argBuild cellRepr layout t = layout.map fun slot => slot.build cellRepr t := by
  induction t with
  | empty => rfl
  | add t row ih =>
    change argAccumulate cellRepr layout (argBuild cellRepr layout t) row = _
    rw [ih, argAccumulate, zipWith_map_right, zipWith_self]
    rfl
  | merge t other ih ih' =>
    change argMerge layout (argBuild cellRepr layout t) (argBuild cellRepr layout other) = _
    rw [ih, ih', argMerge, zip_map', zipWith_map_right, zipWith_self]
    rfl

namespace ArgSlotSpec

variable (cellRepr : α → String) (slot : ArgSlotSpec) {w : Float × List String}

/-- The extreme and the representations that a row offers. -/
def cand (row : ArgRow α) : Option (Float × List String) :=
  (row.number slot.byCol).map fun v => (v.asDouble, row.reprs cellRepr slot)

def better (x y : Float × List String) : Bool := slot.dir.better x.1 y.1

/-- Numbers are ranked in the direction of the slot, and a NaN is not. -/
def rank (x : Float × List String) : Option Int :=
  if x.1.isNaN then none else some (slot.dir.signed (floatRank x.1))

theorem rank_eq_none {x : Float × List String} : slot.rank x = none ↔ x.1.isNaN = true := by
  rw [rank]
  by_cases nan : x.1.isNaN = true
  · rw [if_pos nan]
    exact iff_of_true rfl nan
  · rw [if_neg nan]
    exact iff_of_false (Option.some_ne_none _) nan

theorem rankedBy : RankedBy slot.rank slot.better := by
  intro x y
  rw [better, ArgDir.better_iff, rank, rank]
  constructor
  · rintro ⟨number, number', less⟩
    rw [number, number']
    exact ⟨_, _, rfl, rfl, less⟩
  · rintro ⟨a, b, first, second, less⟩
    by_cases nan : x.1.isNaN = true
    · rw [if_pos nan] at first
      cases first
    · by_cases nan' : y.1.isNaN = true
      · rw [if_pos nan'] at second
        cases second
      · rw [if_neg nan] at first
        rw [if_neg nan'] at second
        cases first
        cases second
        exact ⟨Bool.eq_false_of_not_eq_true nan, Bool.eq_false_of_not_eq_true nan', less⟩

/-- A slot that has selected. -/
def slotOf : Option (Float × List String) → ArgSlot
  | none => slot.start
  | some w => { has := true, by_ := w.1, reprs := w.2 }

theorem accumulate_slotOf (s : Option (Float × List String)) (row : ArgRow α) :
    slot.accumulate cellRepr (slot.slotOf s) row =
      slot.slotOf ((slot.cand cellRepr row).elim s (pick slot.better s)) := by
  rw [accumulate, cand]
  cases row.number slot.byCol with
  | none => rfl
  | some v =>
    cases s with
    | none => rfl
    | some w =>
      change (if (!true || slot.dir.better v.asDouble w.1) = true then _ else _) =
        slot.slotOf (if slot.dir.better v.asDouble w.1 = true then _ else _)
      cases slot.dir.better v.asDouble w.1 with
      | true | false => rfl

theorem mergeGroup_slotOf (s o : Option (Float × List String)) :
    slot.mergeGroup (slot.slotOf s) (slot.slotOf o) = slot.slotOf (joinPicks slot.better s o) := by
  cases o with
  | none => rfl
  | some v =>
    cases s with
    | none => rfl
    | some w =>
      change (if (!true || slot.dir.better v.1 w.1) = true then _ else _) =
        slot.slotOf (if slot.dir.better v.1 w.1 = true then _ else _)
      cases slot.dir.better v.1 w.1 with
      | true | false => rfl

/-- A slot selects among what its rows offer. -/
theorem build_eq (t : Build (ArgRow α)) :
    slot.build cellRepr t = slot.slotOf (select slot.better (t.filterMap (slot.cand cellRepr))) := by
  induction t with
  | empty => rfl
  | add t row ih =>
    change slot.accumulate cellRepr (slot.build cellRepr t) row = _
    rw [ih, accumulate_slotOf, Build.filterMap]
    cases slot.cand cellRepr row with
    | none | some x => rfl
  | merge t other ih ih' =>
    change slot.mergeGroup (slot.build cellRepr t) (slot.build cellRepr other) = _
    rw [ih, ih', mergeGroup_slotOf]
    rfl

/-! ## The rows that could win -/

/-- A row that some order of the rows leaves in the slot: any row with a number where one is NaN,
and one that no other beats where none is. -/
def CouldWin (rows : List (ArgRow α)) (row : ArgRow α) : Prop :=
  row ∈ rows ∧ ∃ v, row.number slot.byCol = some v ∧
    ((∃ q ∈ rows, ∃ u, q.number slot.byCol = some u ∧ u.asDouble.isNaN = true) ∨
      ∀ q ∈ rows, ∀ u, q.number slot.byCol = some u →
        slot.dir.better u.asDouble v.asDouble = false)

theorem cand_eq_some {row : ArgRow α} :
    slot.cand cellRepr row = some w ↔ ∃ v, row.number slot.byCol = some v ∧
      (v.asDouble, row.reprs cellRepr slot) = w := by
  rw [cand, Option.map_eq_some_iff]

theorem possible_iff {rows : List (ArgRow α)} :
    Possible slot.rank slot.better (rows.filterMap (slot.cand cellRepr)) w ↔
      ∃ row, slot.CouldWin rows row ∧ slot.cand cellRepr row = some w := by
  have unranked : (∃ n ∈ rows.filterMap (slot.cand cellRepr), slot.rank n = none) ↔
      ∃ q ∈ rows, ∃ u, q.number slot.byCol = some u ∧ u.asDouble.isNaN = true := by
    constructor
    · rintro ⟨n, listed, none_⟩
      obtain ⟨q, q_mem, offers⟩ := mem_filterMap.mp listed
      obtain ⟨u, number, rfl⟩ := (slot.cand_eq_some cellRepr).mp offers
      have nan := slot.rank_eq_none.mp none_
      exact ⟨q, q_mem, u, number, nan⟩
    · rintro ⟨q, q_mem, u, number, nan⟩
      have offers := (slot.cand_eq_some cellRepr).mpr ⟨u, number, rfl⟩
      exact ⟨_, mem_filterMap.mpr ⟨q, q_mem, offers⟩, slot.rank_eq_none.mpr nan⟩
  have top : ∀ v : Float, (∀ x ∈ rows.filterMap (slot.cand cellRepr),
      slot.dir.better x.1 v = false) ↔ ∀ q ∈ rows, ∀ u, q.number slot.byCol = some u →
        slot.dir.better u.asDouble v = false := by
    intro v
    constructor
    · intro all q q_mem u number
      have offers := (slot.cand_eq_some cellRepr).mpr ⟨u, number, rfl⟩
      exact all _ (mem_filterMap.mpr ⟨q, q_mem, offers⟩)
    · intro all x listed
      obtain ⟨q, q_mem, offers⟩ := mem_filterMap.mp listed
      obtain ⟨u, number, rfl⟩ := (slot.cand_eq_some cellRepr).mp offers
      exact all q q_mem u number
  constructor
  · rintro ⟨mem, case⟩
    obtain ⟨row, row_mem, offers⟩ := mem_filterMap.mp mem
    obtain ⟨v, number, rfl⟩ := (slot.cand_eq_some cellRepr).mp offers
    refine ⟨row, ⟨row_mem, v, number, ?_⟩, offers⟩
    exact case.imp unranked.mp (top v.asDouble).mp
  · rintro ⟨row, ⟨row_mem, v, number, case⟩, offers⟩
    refine ⟨mem_filterMap.mpr ⟨row, row_mem, offers⟩, ?_⟩
    obtain ⟨v', number', rfl⟩ := (slot.cand_eq_some cellRepr).mp offers
    cases number.symm.trans number'
    exact case.imp unranked.mpr (top v.asDouble).mpr

/-- A slot reports one row, or nothing where no row has a number. -/
def Reports (rows : List (ArgRow α)) (reported : List String) : Prop :=
  ((∀ row ∈ rows, row.number slot.byCol = none) ∧
    reported = slot.valueCols.map fun _ => "") ∨
  ∃ row ∈ rows, row.number slot.byCol ≠ none ∧ reported = row.reprs cellRepr slot

theorem reports_build (t : Build (ArgRow α)) :
    slot.Reports cellRepr t.values (slot.report (slot.build cellRepr t)) := by
  rw [build_eq]
  cases kept : select slot.better (t.filterMap (slot.cand cellRepr)) with
  | none =>
    refine .inl ⟨fun row listed => ?_, rfl⟩
    have nothing := (select_mem _).1 kept
    rw [Build.values_filterMap, filterMap_eq_nil_iff] at nothing
    exact Option.map_eq_none_iff.mp (nothing row listed)
  | some w =>
    have mem := (select_mem _).2 w kept
    rw [Build.values_filterMap] at mem
    obtain ⟨row, listed, offers⟩ := mem_filterMap.mp mem
    obtain ⟨v, number, rfl⟩ := (slot.cand_eq_some cellRepr).mp offers
    refine .inr ⟨row, listed, ?_, rfl⟩
    rw [number]
    exact Option.some_ne_none v

/-- The reports of a slot agree exactly when those of the rows that could win do. -/
theorem report_agree_iff (rows : List (ArgRow α)) :
    (∀ t t' : Build (ArgRow α), t.values.Perm rows → t'.values.Perm rows →
      slot.report (slot.build cellRepr t) = slot.report (slot.build cellRepr t')) ↔
    ∀ row row', slot.CouldWin rows row → slot.CouldWin rows row' →
      row.reprs cellRepr slot = row'.reprs cellRepr slot := by
  have agree := @select_agree_iff _ _ _ _ _ _ _ (slot.cand cellRepr) slot.rankedBy rows Prod.snd
  have reported : ∀ t t' : Build (ArgRow α), t.values.Perm rows → t'.values.Perm rows →
      (slot.report (slot.build cellRepr t) = slot.report (slot.build cellRepr t') ↔
        (select slot.better (t.filterMap (slot.cand cellRepr))).map Prod.snd =
          (select slot.better (t'.filterMap (slot.cand cellRepr))).map Prod.snd) := by
    intro t t' values values'
    have nothing : ∀ {s : Build (ArgRow α)}, s.values.Perm rows →
        select slot.better (s.filterMap (slot.cand cellRepr)) = none →
          rows.filterMap (slot.cand cellRepr) = [] := filterMap_eq_nil_of_select
    have mem : ∀ {s : Build (ArgRow α)} {w : Float × List String}, s.values.Perm rows →
        select slot.better (s.filterMap (slot.cand cellRepr)) = some w →
          w ∈ rows.filterMap (slot.cand cellRepr) :=
      fun values kept => (possible_of_select slot.rankedBy values kept).1
    rw [build_eq, build_eq]
    cases kept : select slot.better (t.filterMap (slot.cand cellRepr)) with
    | none =>
      cases kept' : select slot.better (t'.filterMap (slot.cand cellRepr)) with
      | none => exact iff_of_true rfl rfl
      | some w' =>
        have listed := mem values' kept'
        rw [nothing values kept] at listed
        cases listed
    | some w =>
      cases kept' : select slot.better (t'.filterMap (slot.cand cellRepr)) with
      | none =>
        have listed := mem values kept
        rw [nothing values' kept'] at listed
        cases listed
      | some w' => exact Option.some_inj.symm
  constructor
  · intro same row row' wins wins'
    obtain ⟨_, v, number, _⟩ := id wins
    obtain ⟨_, v', number', _⟩ := id wins'
    have offers := (slot.cand_eq_some cellRepr).mpr ⟨v, number, rfl⟩
    have offers' := (slot.cand_eq_some cellRepr).mpr ⟨v', number', rfl⟩
    exact agree.mp (fun t t' values values' => (reported t t' values values').mp
      (same t t' values values')) _ _ ((slot.possible_iff cellRepr).mpr ⟨row, wins, offers⟩)
      ((slot.possible_iff cellRepr).mpr ⟨row', wins', offers'⟩)
  · intro same t t' values values'
    refine (reported t t' values values').mpr (agree.mpr ?_ t t' values values')
    intro w w' possible possible'
    obtain ⟨row, wins, offers⟩ := (slot.possible_iff cellRepr).mp possible
    obtain ⟨row', wins', offers'⟩ := (slot.possible_iff cellRepr).mp possible'
    obtain ⟨v, _, rfl⟩ := (slot.cand_eq_some cellRepr).mp offers
    obtain ⟨v', _, rfl⟩ := (slot.cand_eq_some cellRepr).mp offers'
    exact same row row' wins wins'

end ArgSlotSpec

theorem argReport_build (cellRepr : α → String) (layout : List ArgSlotSpec)
    (t : Build (ArgRow α)) : argReport layout (argBuild cellRepr layout t) =
      layout.map fun slot => slot.report (slot.build cellRepr t) := by
  rw [argBuild_eq, argReport, zipWith_map_right, zipWith_self]

/-- Every group reports one row a slot, whatever the order, exactly when the rows that could win a
slot agree in what they report. -/
theorem argReport_agree_iff (cellRepr : α → String) (specs : List ArgSpec)
    (rows : List (ArgRow α)) :
    ((∀ t t' : Build (ArgRow α), t.values.Perm rows → t'.values.Perm rows →
      argReport (argLayout specs) (argBuild cellRepr (argLayout specs) t) =
        argReport (argLayout specs) (argBuild cellRepr (argLayout specs) t')) ∧
      ∀ t : Build (ArgRow α), t.values.Perm rows → ∃ reported : ArgSlotSpec → List String,
        argReport (argLayout specs) (argBuild cellRepr (argLayout specs) t) =
          (argLayout specs).map reported ∧
        ∀ slot ∈ argLayout specs, slot.Reports cellRepr t.values (reported slot)) ↔
    ∀ slot ∈ argLayout specs, ∀ row row', slot.CouldWin rows row → slot.CouldWin rows row' →
      row.reprs cellRepr slot = row'.reprs cellRepr slot := by
  constructor
  · rintro ⟨agree, -⟩ slot listed
    apply (slot.report_agree_iff cellRepr rows).mp
    intro t t' values values'
    have same := agree t t' values values'
    rw [argReport_build, argReport_build, map_inj_left] at same
    exact same slot listed
  · intro same
    constructor
    · intro t t' values values'
      rw [argReport_build, argReport_build, map_inj_left]
      intro slot listed
      exact (slot.report_agree_iff cellRepr rows).mpr (same slot listed) t t' values values'
    · intro t _
      refine ⟨_, argReport_build cellRepr _ t, fun slot _ => slot.reports_build cellRepr t⟩

/-- Two rows that tie. -/
def tiedRow (name : String) : ArgRow String where
  number := fun _ => some (.u64 1)
  cell := fun _ => some name

/-- Of two rows that tie the first one is reported. -/
theorem argReport_of_tie :
    ¬ ∀ t t' : Build (ArgRow String), t.values.Perm [tiedRow "a", tiedRow "b"] →
      t'.values.Perm [tiedRow "a", tiedRow "b"] →
      argReport (argLayout [⟨0, 1, .max⟩]) (argBuild id (argLayout [⟨0, 1, .max⟩]) t) =
        argReport (argLayout [⟨0, 1, .max⟩]) (argBuild id (argLayout [⟨0, 1, .max⟩]) t') := by
  intro agree
  have same := agree (.merge (.ofList [tiedRow "a"]) (.ofList [tiedRow "b"]))
    (.merge (.ofList [tiedRow "b"]) (.ofList [tiedRow "a"])) (.refl _) (.swap _ _ _)
  exact absurd same (by decide +kernel)

end DFTracer.Aggregation
