/-
# Cursors over row positions

A slice, a tail, a mask, a row index and a sample pick rows by their places in the whole input.
A frame has all rows at hand. A cursor takes them morsel by morsel and keeps what it needs of
the rows that are behind it: how many there were, the last of them, or those with the least
keys.
-/

import DFTracer.Frames.FlatColumns
import DFTracer.Frames.UniqueSpill
import DFTracer.Math.Pulling
import DFTracer.Math.Reservoir

namespace DFTracer.Frames

open List

open Math (Puller Pull NthElement)

/-- The cells of a row. -/
abbrev Cells := List Cell

/-- The rows of a frame under its types. A frame without columns has no rows. -/
structure Frame where
  types : List DataType
  rows : List Cells
  filled : ∀ r ∈ rows, r.length = types.length
  columns : types = [] → rows = []
  counted : rows.length < 2 ^ 63

/-- A frame in morsels. -/
structure Cut (f : Frame) where
  parts : List (List Cells)
  whole : parts.flatten = f.rows

def Cut.morsels {f : Frame} (cut : Cut f) : List (Morsel Cells) := cut.parts.map fun rows =>
  ⟨f.types, rows⟩

inductive CursorError
  | outOfRange (what : String)
  | invalidArgument (what : String)
  deriving DecidableEq

/-- A number that is held between two bounds. -/
def clamp (v low high : Int) : Int := max low (min v high)

def sliceRows {ρ : Type} (rows : List ρ) (offset len : Int) : List ρ :=
  let start := clamp offset 0 rows.length
  (rows.drop start.toNat).take (clamp len 0 (rows.length - start)).toNat

def tailRows {ρ : Type} (rows : List ρ) (n : Int) : List ρ :=
  let kept := clamp n 0 rows.length
  sliceRows rows (rows.length - kept) kept

/-- The rows where a mask is set. -/
def filterRows {ρ : Type} (rows : List ρ) (mask : List Bool) : List ρ :=
  (rows.zip mask).filterMap fun (row, on) => if on then some row else none

/-- A 64-bit integer as a cell. -/
def int64Cell (v : Int) : Cell := some (putPod 8 v)

/-- Rows with their numbers in front. -/
def withRowIndex (pos : Nat) (rows : List Cells) : List Cells :=
  rows.zipIdx.map fun (row, i) => int64Cell (pos + i) :: row

/-- The key of a row in a sample. -/
def sampleKey (seed : UInt64) (i : Nat) : Nat := (splitmix64 (UInt64.ofNat i + seed)).toNat

/-- So many of the least keys, where not all are kept. -/
def leastKeys {α : Type} (nth : NthElement Nat) (key : α → Nat) (n : Nat) (xs : List α) : List α :=
  if n < xs.length then (nth.run key n xs).take n else xs

def sampleRows {ρ : Type} (nth : NthElement Nat) (rows : List ρ) (n : Int) (seed : UInt64) :
    List ρ :=
  let n := (clamp n 0 rows.length).toNat
  let order := leastKeys nth (sampleKey seed) n (List.range rows.length)
  take rows (order.mergeSort (· ≤ ·))

/-! ## Cursors -/

/-- A 64-bit sum, around the end of the range. -/
def wrap64 (v : Int) : Int := v.bmod (2 ^ 64)

def sliceMorsel (m : Morsel Cells) (offset len : Int) : Morsel Cells :=
  ⟨m.types, sliceRows m.rows offset len⟩

section FilterMask

variable (mask : List Bool)

/-- The next morsel takes the next part of the mask. -/
def FilterMaskCursor.apply (off : Nat) (m : Morsel Cells) :
    Except CursorError (Nat × Option (Morsel Cells)) :=
  let n := m.rows.length
  if mask.length < off + n then .error (.outOfRange "filter_mask: mask shorter than input")
  else
    let kept := filterRows m.rows ((mask.drop off).take n)
    .ok (off + n, if m.types.isEmpty || kept.isEmpty then none else some ⟨m.types, kept⟩)

def filterMaskCursor : Puller Nat (Morsel Cells) (Morsel Cells) CursorError where
  stopped _ := false
  absorb := FilterMaskCursor.apply mask
  finish off := .ok (off, none)
  tries := true

end FilterMask

structure SliceState where
  seen : Int := 0
  emitted : Int := 0

section Slice

variable (offset len : Int)

/-- The part of a morsel within the window. -/
def SliceCursor.apply (s : SliceState) (m : Morsel Cells) : SliceState × Option (Morsel Cells) :=
  let start := s.seen
  let seen := s.seen + m.rows.length
  let wStart := max offset start
  let wEnd := min (wrap64 (offset + len)) seen
  if wEnd ≤ wStart then ({ s with seen }, none)
  else
    ({ seen, emitted := s.emitted + (wEnd - wStart) },
      some (sliceMorsel m (wStart - start) (wEnd - wStart)))

def sliceCursor : Puller SliceState (Morsel Cells) (Morsel Cells) CursorError where
  stopped s := len ≤ s.emitted
  absorb s m := .ok (SliceCursor.apply offset len s m)
  finish s := .ok (s, none)
  tries := true

end Slice

structure TailState where
  done : Bool := false
  buf : List (Morsel Cells) := []
  total : Int := 0

section Tail

variable (n : Int)

/-- Drop morsels from the front as long as enough rows remain. -/
def TailCursor.popFront : List (Morsel Cells) → Int → List (Morsel Cells) × Int
  | [], total => ([], total)
  | m :: buf, total =>
    if n ≤ total - m.rows.length then popFront buf (total - m.rows.length) else (m :: buf, total)

def TailCursor.accumulate (s : TailState) (m : Morsel Cells) : TailState :=
  let (buf, total) := popFront n (s.buf ++ [m]) (s.total + m.rows.length)
  { s with buf, total }

/-- The types of morsels put together. -/
def concatMorsels (parts : List (Morsel Cells)) : Except CursorError (List DataType) :=
  (concatTypes (parts.map (·.types))).mapError fun e => .invalidArgument e.what

def TailCursor.finish (s : TailState) : Except CursorError (Option (Morsel Cells)) :=
  if s.buf.isEmpty then .ok none
  else
    (concatMorsels s.buf).map fun types =>
      let out : Morsel Cells := ⟨types, s.buf.flatMap (·.rows)⟩
      some (if n < s.total then sliceMorsel out (s.total - n) n else out)

def tailCursor : Puller TailState (Morsel Cells) (Morsel Cells) CursorError where
  stopped s := s.done || n ≤ 0
  absorb s m := .ok (TailCursor.accumulate n s m, none)
  finish s := (TailCursor.finish n s).map fun o => ({ s with done := true }, o)
  tries := true

end Tail

def withRowIndexCursor : Puller Nat (Morsel Cells) (Morsel Cells) CursorError where
  stopped _ := false
  absorb pos m := .ok (pos + m.rows.length,
    some ⟨DataType.scalar .Int64 (by decide) :: m.types, withRowIndex pos m.rows⟩)
  finish pos := .ok (pos, none)
  tries := true

/-- A row that is kept, with its key and its number. -/
structure Sampled where
  key : Nat
  idx : Nat
  row : Cells

structure SampleState where
  done : Bool := false
  types : List DataType := []
  best : List Sampled := []
  off : Nat := 0

section Sample

variable (nth : NthElement Nat) (n : Int) (seed : UInt64)

/-- Keep the rows of least keys of those that are held and those of a morsel. -/
def SampleCursor.reduce (s : SampleState) (m : Morsel Cells) : Except CursorError SampleState :=
  (if s.best.isEmpty then .ok m.types else concatMorsels [⟨s.types, s.best.map (·.row)⟩, m]).map
    fun types =>
      let combined := s.best ++ m.rows.zipIdx.map fun (row, i) =>
        ⟨sampleKey seed (s.off + i), s.off + i, row⟩
      let keep := min n.toNat combined.length
      { s with
        types
        best := leastKeys nth Sampled.key keep combined
        off := s.off + m.rows.length }

/-- The rows that are held, in the order of the input. -/
def SampleCursor.finish (s : SampleState) : Morsel Cells :=
  ⟨s.types, (s.best.mergeSort fun a b => a.idx ≤ b.idx).map (·.row)⟩

def sampleCursor : Puller SampleState (Morsel Cells) (Morsel Cells) CursorError where
  stopped s := s.done
  absorb s m := (SampleCursor.reduce nth n seed s m).map fun s => (s, none)
  finish s := .ok ({ s with done := true }, some (SampleCursor.finish s))
  tries := false

end Sample

/-- A count of 64 bits that is not negative. -/
abbrev Count := { n : Int // 0 ≤ n ∧ n < 2 ^ 63 }

/-- The operations over a frame of so many rows. -/
inductive PositionalOp (rows : Nat)
  | slice (offset len : Count)
  | tail (n : Int)
  | filterMask (mask : List Bool) (fits : mask.length = rows)
  | withRowIndex
  | sample (n : Int) (seed : UInt64)

namespace PositionalOp

variable (nth : NthElement Nat)

/-- The types of the result on a whole frame. -/
def types {rows : Nat} (types : List DataType) : PositionalOp rows → List DataType
  | .withRowIndex => DataType.scalar .Int64 (by decide) :: types
  | _ => types

/-- The rows of the result on a whole frame. -/
def onFrame (f : Frame) : PositionalOp f.rows.length → List Cells
  | .slice offset len => sliceRows f.rows offset len
  | .tail n => tailRows f.rows n
  | .filterMask mask _ => filterRows f.rows mask
  | .withRowIndex => Frames.withRowIndex 0 f.rows
  | .sample n seed => sampleRows nth f.rows n seed

/-- The morsels that some pulls give. -/
def onMorsels {rows : Nat} (op : PositionalOp rows) (pulls : List Pull) (ready : List Bool)
    (morsels : List (Morsel Cells)) : Except CursorError (List (Morsel Cells) × Bool) :=
  match op with
  | .slice offset len => (sliceCursor offset len).drive pulls ready {} morsels
  | .tail n => (tailCursor n).drive pulls ready {} morsels
  | .filterMask mask _ => (filterMaskCursor mask).drive pulls ready 0 morsels
  | .withRowIndex => withRowIndexCursor.drive pulls ready 0 morsels
  | .sample n seed => (sampleCursor nth n seed).drive pulls ready {} morsels

end PositionalOp

/-- Any pulls give the rows of the result on the whole frame from the first on, all of them
when they are told the end, and they are told the end in the end. -/
def Streams (nth : NthElement Nat) (f : Frame) (cut : Cut f) (op : PositionalOp f.rows.length) :
    Prop :=
  ∀ pulls ready, ∃ outs ended, op.onMorsels nth pulls ready cut.morsels = .ok (outs, ended) ∧
    (∀ m ∈ outs, m.rows ≠ [] → m.types = op.types f.types) ∧
    outs.flatMap (·.rows) <+: op.onFrame nth f ∧
    (ended = true → outs.flatMap (·.rows) = op.onFrame nth f) ∧
    (cut.parts.length + 1 < pulls.count .next → ended = true)

/-! ## Rows picked by position

What a slice, a mask and a row index give of a frame is what they give of its morsels, one
after the other: the window and the mask move on by the rows of a morsel, and the numbers go
on where the last morsel ended. -/

open Math Math.Puller

section Streams

variable {σ : Type} {cursor : Puller σ (Morsel Cells) (Morsel Cells) CursorError}

/-- The morsels of an operator, as the rows and the types they should have. -/
structure Gives (cursor : Puller σ (Morsel Cells) (Morsel Cells) CursorError) (s : σ)
    (ms : List (Morsel Cells)) (types : List DataType) (rows : List Cells) (most : Nat) :
    Prop where
  exact : ∃ all, cursor.outputs s ms = .ok all ∧ (∀ m ∈ all, m.rows ≠ [] → m.types = types) ∧
    all.flatMap (·.rows) = rows ∧ all.length ≤ most

/-- Pulls of an operator that gives some rows. -/
theorem Gives.drive {s : σ} {ms : List (Morsel Cells)} {types : List DataType} {rows : List Cells}
    {most : Nat} (gives : Gives cursor s ms types rows most) (settles : cursor.Settles)
    (pulls : List Pull) (ready : List Bool) :
    ∃ outs ended, cursor.drive pulls ready s ms = .ok (outs, ended) ∧
      (∀ m ∈ outs, m.rows ≠ [] → m.types = types) ∧ outs.flatMap (·.rows) <+: rows ∧
      (ended = true → outs.flatMap (·.rows) = rows) ∧
      (most < pulls.count .next → ended = true) := by
  obtain ⟨all, outputs, typed, flat, few⟩ := gives.exact
  obtain ⟨outs, ended, driven, first, whole, enough⟩ := drive_spec settles outputs pulls ready
  refine ⟨outs, ended, driven, fun m hm => typed m (first.subset hm), ?_, ?_, ?_⟩
  · obtain ⟨rest, rfl⟩ := first
    rw [← flat, flatMap_append]
    exact List.prefix_append _ _
  · intro done
    rw [whole done, flat]
  · exact fun more => enough (by omega)

/-- Nothing more is given. -/
theorem Gives.nil {s : σ} {ms : List (Morsel Cells)} {types : List DataType} {most : Nat}
    (h : cursor.outputs s ms = .ok []) : Gives cursor s ms types [] most where
  exact := ⟨[], h, fun _ hm => absurd hm not_mem_nil, rfl, Nat.zero_le most⟩

/-- One morsel is taken. -/
theorem Gives.cons {s s' : σ} {m : Morsel Cells} {ms : List (Morsel Cells)}
    {o : Option (Morsel Cells)} {types : List DataType} {here rows : List Cells} {most : Nat}
    (running : ¬ cursor.stopped s = true) (ho : cursor.absorb s m = .ok (s', o))
    (typed : ∀ m ∈ o, m.types = types) (given : o.toList.flatMap (·.rows) = here)
    (rest : Gives cursor s' ms types rows most) :
    Gives cursor s (m :: ms) types (here ++ rows) (most + 1) where
  exact := by
    obtain ⟨all, outputs, typed', flat, few⟩ := rest.exact
    refine ⟨o.toList ++ all, ?_, ?_, ?_, ?_⟩
    · rw [outputs_cons running ho, outputs]
      rfl
    · intro m hm hne
      rcases mem_append.mp hm with hm | hm
      · exact typed m (Option.mem_toList.mp hm)
      · exact typed' m hm hne
    · rw [flatMap_append, given, flat]
    · have one : o.toList.length ≤ 1 := by cases o <;> simp
      rw [length_append]
      omega

end Streams

variable {ρ : Type} {v offset len : Int} {s : SliceState}

theorem filterRows_append (rows rows' : List ρ) (mask : List Bool)
    (fits : rows.length ≤ mask.length) :
    filterRows (rows ++ rows') mask =
      filterRows rows (mask.take rows.length) ++ filterRows rows' (mask.drop rows.length) := by
  unfold filterRows
  conv => lhs; rw [← take_append_drop rows.length mask]
  rw [zip_append (by rw [List.length_take]; omega), filterMap_append]

theorem filterMask_gives {f : Frame} (mask : List Bool) {parts : List (List Cells)} {off : Nat}
    (columns : f.types = [] → ∀ part ∈ parts, part = [])
    (fits : off + parts.flatten.length ≤ mask.length) :
    Gives (filterMaskCursor mask) off (parts.map fun rows => ⟨f.types, rows⟩) f.types
      (filterRows parts.flatten (mask.drop off)) parts.length := by
  induction parts generalizing off with
  | nil => exact .nil rfl
  | cons rows parts ih =>
    rw [flatten_cons, length_append] at fits
    have rest := @ih (off + rows.length) (fun none part hp => columns none part
      (mem_cons_of_mem rows hp)) (by omega)
    rw [flatten_cons, filterRows_append _ _ _ (by rw [length_drop]; omega),
      drop_drop]
    have absorbed : (filterMaskCursor mask).absorb off ⟨f.types, rows⟩ =
        .ok (off + rows.length,
          if f.types.isEmpty || (filterRows rows ((mask.drop off).take rows.length)).isEmpty then
            none else some ⟨f.types, filterRows rows ((mask.drop off).take rows.length)⟩) :=
      if_neg (by dsimp only; omega)
    refine rest.cons Bool.false_ne_true absorbed ?_ ?_
    · intro m hm
      split at hm
      · cases hm
      · cases hm
        rfl
    · split
      · rename_i empty
        rcases Bool.or_eq_true_iff.mp empty with none | none
        · rw [columns (List.isEmpty_iff.mp none) rows mem_cons_self]
          rfl
        · rw [List.isEmpty_iff.mp none]
          rfl
      · exact append_nil _

theorem withRowIndex_append (pos : Nat) (rows rows' : List Cells) :
    withRowIndex pos (rows ++ rows') =
      withRowIndex pos rows ++ withRowIndex (pos + rows.length) rows' := by
  unfold withRowIndex
  rw [zipIdx_append, map_append]
  congr 1
  rw [zipIdx_eq_map_add, map_map]
  apply map_congr_left
  rintro ⟨row, i⟩ _
  change int64Cell _ :: row = int64Cell _ :: row
  congr 2
  omega

theorem withRowIndex_gives {f : Frame} {parts : List (List Cells)} {pos : Nat} :
    Gives withRowIndexCursor pos (parts.map fun rows => ⟨f.types, rows⟩)
      (DataType.scalar .Int64 (by decide) :: f.types) (withRowIndex pos parts.flatten)
      parts.length := by
  induction parts generalizing pos with
  | nil => exact .nil rfl
  | cons rows parts ih =>
    rw [flatten_cons, withRowIndex_append]
    refine ih.cons Bool.false_ne_true rfl ?_ (append_nil _)
    intro m hm
    cases hm
    rfl

/-! ### Windows -/

theorem wrap64_eq (h : 0 ≤ v) (h' : v < 2 ^ 63) : wrap64 v = v :=
  Int.bmod_eq_of_le_mul_two (by omega) (by omega)

/-- A sum past the range is negative. -/
theorem wrap64_neg (h : 2 ^ 63 ≤ v) (h' : v < 2 ^ 64) : wrap64 v < 0 := by
  unfold wrap64
  have same : v.bmod (2 ^ 64) = (v - 2 ^ 64).bmod (2 ^ 64) := by
    rw [Int.sub_bmod]
    simp
  rw [same, Int.bmod_eq_of_le_mul_two (by omega) (by omega)]
  omega

/-- The window on rows of which the first are behind it or at its beginning. -/
theorem window_append (rows rows' : List ρ) {d K k : Nat} (hd : d ≤ rows.length)
    (hk : k = min K (rows.length - d)) :
    ((rows ++ rows').drop d).take K = (rows.drop d).take k ++ rows'.take (K - k) := by
  rw [drop_append_of_le_length hd, take_append, length_drop]
  have first : (rows.drop d).take K = (rows.drop d).take k := by
    rw [take_eq_take_iff, length_drop]
    omega
  rw [first]
  rcases Nat.le_total K (rows.length - d) with short | long
  · rw [show K - (rows.length - d) = 0 by omega, show K - k = 0 by omega]
  · rw [show K - (rows.length - d) = K - k by omega]

theorem sliceRows_within (rows : List ρ) (ho : 0 ≤ offset)
    (hl : 0 ≤ len) (inside : offset + len ≤ rows.length) :
    sliceRows rows offset len = (rows.drop offset.toNat).take len.toNat := by
  unfold sliceRows clamp
  dsimp only
  rw [show max 0 (min offset rows.length) = offset by omega,
    show max 0 (min len (rows.length - offset)) = len by omega]

theorem slice_gives {f : Frame} (ho : 0 ≤ offset) (hl : 0 ≤ len)
    (fits : offset + len < 2 ^ 63) {parts : List (List Cells)}
    (seen : 0 ≤ s.seen) (emitted : s.emitted = max 0 (min (s.seen - offset) len)) :
    Gives (sliceCursor offset len) s (parts.map fun rows => ⟨f.types, rows⟩) f.types
      ((parts.flatten.drop (offset - s.seen).toNat).take (len - s.emitted).toNat) parts.length := by
  induction parts generalizing s with
  | nil =>
    rw [flatten_nil, drop_nil, take_nil]
    refine .nil ?_
    rw [map_nil, outputs]
    split <;> rfl
  | cons rows parts ih =>
    by_cases stopped : len ≤ s.emitted
    · rw [show (len - s.emitted).toNat = 0 by omega]
      exact .nil (outputs_stopped (decide_eq_true stopped) _)
    have running : ¬ (sliceCursor offset len).stopped s = true := by
      change ¬ decide (len ≤ s.emitted) = true
      rwa [decide_eq_true_eq]
    rw [flatten_cons]
    have last : wrap64 (offset + len) = offset + len := wrap64_eq (by omega) fits
    by_cases outside : min (offset + len) (s.seen + rows.length) ≤ max offset s.seen
    · -- the morsel ends before the window, or has no rows
      have absorbed : (sliceCursor offset len).absorb s ⟨f.types, rows⟩ =
          .ok ({ s with seen := s.seen + rows.length }, none) := by
        change Except.ok (SliceCursor.apply offset len s ⟨f.types, rows⟩) = _
        unfold SliceCursor.apply
        rw [last]
        rw [if_pos outside]
      have rest := @ih { s with seen := s.seen + rows.length } (by dsimp only; omega)
        (by dsimp only; omega)
      have skip : ((rows ++ parts.flatten).drop (offset - s.seen).toNat) =
          parts.flatten.drop (offset - (s.seen + rows.length)).toNat := by
        rcases Nat.eq_zero_or_pos rows.length with none | some
        · rw [eq_nil_of_length_eq_zero none, nil_append, length_nil, Int.natCast_zero, Int.add_zero]
        · rw [drop_append, drop_eq_nil_of_le (by omega), nil_append]
          congr 1
          omega
      rw [skip]
      exact rest.cons running absorbed (fun m hm => by cases hm) rfl
    · have absorbed : (sliceCursor offset len).absorb s ⟨f.types, rows⟩ =
          .ok (⟨s.seen + rows.length, s.emitted +
            (min (offset + len) (s.seen + rows.length) - max offset s.seen)⟩,
            some (sliceMorsel ⟨f.types, rows⟩ (max offset s.seen - s.seen)
              (min (offset + len) (s.seen + rows.length) - max offset s.seen))) := by
        change Except.ok (SliceCursor.apply offset len s ⟨f.types, rows⟩) = _
        unfold SliceCursor.apply
        rw [last]
        rw [if_neg outside]
      have rest := @ih ⟨s.seen + rows.length, s.emitted +
        (min (offset + len) (s.seen + rows.length) - max offset s.seen)⟩ (by dsimp only; omega)
        (by dsimp only; omega)
      rw [show (offset - (s.seen + rows.length)).toNat = 0 by omega] at rest
      have window := @window_append _ rows parts.flatten (offset - s.seen).toNat
        (len - s.emitted).toNat
        (min (offset + len) (s.seen + rows.length) - max offset s.seen).toNat
        (by omega) (by omega)
      rw [window, show (len - s.emitted).toNat -
        (min (offset + len) (s.seen + rows.length) - max offset s.seen).toNat =
          (len - (s.emitted + (min (offset + len) (s.seen + rows.length) -
            max offset s.seen))).toNat by omega]
      refine rest.cons running absorbed ?_ ?_
      · intro m hm
        cases hm
        rfl
      · change sliceRows rows _ _ ++ [] = _
        rw [append_nil, sliceRows_within rows (by omega) (by omega) (by omega)]
        congr 2
        omega

/-- A window that starts at the first row. -/
theorem sliceRows_eq (rows : List ρ) (ho : 0 ≤ offset) (hl : 0 ≤ len) :
    sliceRows rows offset len = (rows.drop offset.toNat).take len.toNat := by
  unfold sliceRows clamp
  dsimp only
  rcases le_total offset rows.length with inside | past
  · rw [show max 0 (min offset rows.length) = offset by omega, take_eq_take_iff,
      length_drop]
    omega
  · rw [show max 0 (min offset (rows.length : Int)) = rows.length by omega, Int.toNat_natCast,
      drop_length, drop_eq_nil_of_le (by omega), take_nil, take_nil]

/-- A window whose end wraps around gives nothing. -/
theorem slice_wrapped (ho : 0 ≤ offset) (hl : 0 < len)
    (past : 2 ^ 63 ≤ offset + len) (fits : offset + len < 2 ^ 64) {ms : List (Morsel Cells)} (emitted : s.emitted = 0) :
    (sliceCursor offset len).outputs s ms = .ok [] := by
  induction ms generalizing s with
  | nil =>
    rw [outputs]
    split <;> rfl
  | cons m ms ih =>
    have running : ¬ (sliceCursor offset len).stopped s = true := by
      change ¬ decide (len ≤ s.emitted) = true
      rw [decide_eq_true_eq]
      omega
    have last := wrap64_neg past fits
    have absorbed : (sliceCursor offset len).absorb s m =
        .ok ({ s with seen := s.seen + m.rows.length }, none) := by
      change Except.ok (SliceCursor.apply offset len s m) = _
      unfold SliceCursor.apply
      rw [if_pos (by omega)]
    rw [outputs_skip running absorbed]
    exact ih emitted

end DFTracer.Frames
