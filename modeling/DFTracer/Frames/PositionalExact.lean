/-
# Cursors give what frames give

However a frame is cut into morsels and however it is pulled, a mask and a row index give what
they give on the whole frame. A slice does where its end fits 64 bits or where no row is in the
window, and a tail and a sample do where they need not put morsels together, or can.
-/

import DFTracer.Frames.PositionalBuffers

namespace DFTracer.Frames

open Math Math.Puller List

variable {f : Frame} (cut : Cut f)

/-- The condition under which an operation does not depend on the morsels. -/
def PositionalOp.Fits : PositionalOp f.rows.length → Prop
  | .slice offset len => (offset : Int) + len < 2 ^ 63 ∨ (f.rows.length : Int) ≤ offset
  | .tail n => 0 < n → cut.parts ≠ [] → ∀ d ∈ f.types, concatSupported d.id = true
  | .filterMask _ _ => True
  | .withRowIndex => True
  | .sample n _ => 0 < n →
      (∃ before after, cut.parts = before ++ after ∧ before.flatten ≠ [] ∧ after ≠ []) →
        ∀ d ∈ f.types, concatSupported d.id = true

section Morsels

variable {cut}

theorem morsels_typed : ∀ m ∈ cut.morsels, m.types = f.types := by
  intro m hm
  obtain ⟨rows, -, rfl⟩ := mem_map.mp hm
  rfl

theorem bufRows_map (types : List DataType) (parts : List (List Cells)) :
    bufRows (parts.map fun rows => ⟨types, rows⟩) = parts.flatten := by
  unfold bufRows
  rw [flatMap_map, ← flatMap_id]
  rfl

theorem bufRows_morsels : bufRows cut.morsels = f.rows :=
  (bufRows_map f.types cut.parts).trans cut.whole

theorem columns_parts (none : f.types = []) : ∀ part ∈ cut.parts, part = [] := by
  have empty := f.columns none
  rw [← cut.whole] at empty
  exact flatten_eq_nil_iff.mp empty

theorem joins_morsels : Joins [] cut.morsels ↔
    ∃ before after, cut.parts = before ++ after ∧ before.flatten ≠ [] ∧ after ≠ [] := by
  constructor
  · rintro ⟨before, after, split, some, later⟩
    obtain ⟨first, last, parts, rfl, rfl⟩ := map_eq_append_iff.mp split
    rw [bufRows_map] at some
    refine ⟨first, last, parts, some, ?_⟩
    rintro rfl
    exact later rfl
  · rintro ⟨before, after, split, some, later⟩
    refine ⟨before.map fun rows => ⟨f.types, rows⟩, after.map fun rows => ⟨f.types, rows⟩,
      ?_, ?_, ?_⟩
    · unfold Cut.morsels
      rw [split, map_append]
    · rwa [nil_append, bufRows_map]
    · rwa [Ne, map_eq_nil_iff]

end Morsels

/-! ## Each operation -/

variable {cut} {nth : NthElement Nat}

/-- An operator that gives the rows of a frame streams them. -/
theorem Gives.streams {σ : Type} {cursor : Puller σ (Morsel Cells) (Morsel Cells) CursorError}
    {s : σ} {types : List DataType} {rows : List Cells} {most : Nat}
    (gives : Gives cursor s cut.morsels types rows most) (settles : cursor.Settles)
    (few : most ≤ cut.parts.length + 1) (pulls : List Pull) (ready : List Bool) :
    ∃ outs ended, cursor.drive pulls ready s cut.morsels = .ok (outs, ended) ∧
      (∀ m ∈ outs, m.rows ≠ [] → m.types = types) ∧ outs.flatMap (·.rows) <+: rows ∧
      (ended = true → outs.flatMap (·.rows) = rows) ∧
      (cut.parts.length + 1 < pulls.count .next → ended = true) := by
  obtain ⟨outs, ended, driven, typed, first, whole, enough⟩ := gives.drive settles pulls ready
  exact ⟨outs, ended, driven, typed, first, whole, fun more => enough (by omega)⟩

theorem slice_settles (offset len : Int) : (sliceCursor offset len).Settles := by
  rintro s s' o ⟨⟩

theorem filterMask_settles (mask : List Bool) : (filterMaskCursor mask).Settles := by
  rintro s s' o ⟨⟩

theorem withRowIndex_settles : withRowIndexCursor.Settles := by
  rintro s s' o ⟨⟩

theorem tail_settles (n : Int) : (tailCursor n).Settles := by
  intro s s' o h
  have done : s'.done = true := by
    change (TailCursor.finish n s).map _ = _ at h
    cases last : TailCursor.finish n s with
    | error e =>
      rw [last] at h
      cases h
    | ok o' =>
      rw [last] at h
      cases h
      rfl
  apply outputs_stopped
  change (s'.done || _) = true
  rw [done, Bool.true_or]

theorem sample_settles (n : Int) (seed : UInt64) : (sampleCursor nth n seed).Settles := by
  rintro s s' o ⟨⟩
  exact outputs_stopped rfl _

theorem tail_gathers (n : Int) :
    ∀ s m s' o, (tailCursor n).absorb s m = .ok (s', o) → o = none := by
  rintro s m s' o ⟨⟩
  rfl

theorem sample_gathers (n : Int) (seed : UInt64) :
    ∀ s m s' o, (sampleCursor nth n seed).absorb s m = .ok (s', o) → o = none := by
  intro s m s' o h
  change (SampleCursor.reduce nth n seed s m).map _ = _ at h
  cases reduced : SampleCursor.reduce nth n seed s m with
  | error e =>
    rw [reduced] at h
    cases h
  | ok s₁ =>
    rw [reduced] at h
    cases h
    rfl

theorem streams_slice (offset len : Count) :
    Streams nth f cut (.slice offset len) ↔ (PositionalOp.slice offset len).Fits cut := by
  obtain ⟨offset, ho, ho'⟩ := offset
  obtain ⟨len, hl, hl'⟩ := len
  have whole : sliceRows f.rows offset len =
      (cut.parts.flatten.drop (offset - 0).toNat).take (len - 0).toNat := by
    rw [sliceRows_eq _ ho hl, cut.whole, Int.sub_zero, Int.sub_zero]
  have wrapped (past : 2 ^ 63 ≤ offset + len) :
      Gives (sliceCursor offset len) {} cut.morsels f.types [] cut.parts.length :=
    .nil (slice_wrapped ho (by omega) past (by omega) rfl)
  constructor
  · intro streams
    by_contra unfit
    change ¬ (offset + len < 2 ^ 63 ∨ (f.rows.length : Int) ≤ offset) at unfit
    push Not at unfit
    obtain ⟨outs, ended, driven, -, -, all, enough⟩ :=
      streams (List.replicate (cut.parts.length + 2) .next) []
    obtain ⟨outs', ended', driven', -, first, -⟩ :=
      (wrapped unfit.1).drive (slice_settles offset len)
        (List.replicate (cut.parts.length + 2) .next) []
    cases driven.symm.trans driven'
    have none := all (enough (by rw [count_replicate_self]; omega))
    rw [prefix_nil.mp first] at none
    change [] = sliceRows f.rows offset len at none
    rw [sliceRows_eq _ ho hl] at none
    have empty := congrArg List.length none
    rw [length_nil, List.length_take, length_drop] at empty
    omega
  · intro fits
    change offset + len < 2 ^ 63 ∨ (f.rows.length : Int) ≤ offset at fits
    have gives : Gives (sliceCursor offset len) {} cut.morsels f.types
        (sliceRows f.rows offset len) cut.parts.length := by
      by_cases small : offset + len < 2 ^ 63
      · rw [whole]
        exact slice_gives ho hl small le_rfl (by dsimp only; omega)
      · have none : sliceRows f.rows offset len = [] := by
          rw [sliceRows_eq _ ho hl, drop_eq_nil_of_le (by omega), take_nil]
        rw [none]
        exact wrapped (by omega)
    exact gives.streams (slice_settles offset len) (Nat.le_succ _)

theorem streams_filterMask (mask : List Bool) (fits : mask.length = f.rows.length) :
    Streams nth f cut (.filterMask mask fits) := by
  have gives := @filterMask_gives f mask cut.parts 0 columns_parts (by
    rw [cut.whole]
    omega)
  rw [cut.whole] at gives
  exact gives.streams (filterMask_settles mask) (Nat.le_succ _)

theorem streams_withRowIndex : Streams nth f cut .withRowIndex := by
  have gives := @withRowIndex_gives f cut.parts 0
  rw [cut.whole] at gives
  exact gives.streams withRowIndex_settles (Nat.le_succ _)

theorem streams_tail (n : Int) :
    Streams nth f cut (.tail n) ↔ (PositionalOp.tail n).Fits cut := by
  constructor
  · intro streams positive some d hd
    by_contra unsupported
    rw [Bool.not_eq_true] at unsupported
    have morsels : cut.morsels ≠ [] := by
      unfold Cut.morsels
      rwa [Ne, map_eq_nil_iff]
    obtain ⟨e, fails⟩ := tail_fails positive morsels_typed morsels hd unsupported
    obtain ⟨outs, ended, driven, -⟩ := streams [.next] []
    cases driven.symm.trans (drive_error (tail_gathers n) fails [])
  · intro fits
    have gives : Gives (tailCursor n) {} cut.morsels f.types (tailRows f.rows n) 1 := by
      by_cases positive : 0 < n
      · have gives := tail_gives positive (@morsels_typed f cut) fun some => fits positive (by
          rintro none
          apply some
          unfold Cut.morsels
          rw [none, map_nil])
        rwa [bufRows_morsels] at gives
      · have none : tailRows f.rows n = [] := by
          unfold tailRows clamp
          rw [sliceRows_eq _ (by omega) (by omega)]
          rw [take_eq_nil_iff]
          left
          omega
        rw [none]
        refine .nil (outputs_stopped ?_ _)
        change (false || decide (n ≤ 0)) = true
        rw [Bool.false_or, decide_eq_true_eq]
        omega
    exact gives.streams (tail_settles n) (Nat.le_add_left 1 _)

theorem streams_sample (n : Int) (seed : UInt64) :
    Streams nth f cut (.sample n seed) ↔ (PositionalOp.sample n seed).Fits cut := by
  have counted : (bufRows cut.morsels).length < 2 ^ 63 := by
    rw [bufRows_morsels]
    exact f.counted
  constructor
  · intro streams positive joins d hd
    by_contra unsupported
    rw [Bool.not_eq_true] at unsupported
    obtain ⟨e, fails⟩ := @sample_fails nth _ _ _ positive _ _ _
      (sample_start n seed f.types) morsels_typed counted (joins_morsels.mpr joins) d hd unsupported
    obtain ⟨outs, ended, driven, -⟩ := streams [.next] []
    cases driven.symm.trans (drive_error (sample_gathers n seed) fails [])
  · intro fits
    have gives := @sample_gives nth n seed _ _ (@morsels_typed f cut) counted
      fun positive joins => fits positive (joins_morsels.mp joins)
    rw [bufRows_morsels] at gives
    exact gives.streams (sample_settles n seed) (Nat.le_add_left 1 _)

/-- Two rows of one column. -/
def twoRows : Frame where
  types := [DataType.scalar .Int8 (by decide)]
  rows := [[some [0]], [some [1]]]
  filled := by decide
  columns none := by cases none
  counted := by decide

end DFTracer.Frames
