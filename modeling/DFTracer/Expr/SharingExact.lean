/-
# When sharing is invisible

Several expressions are evaluated together and each on its own, where nothing is shared. The
columns are the same unless two clips clash, or a bare column beside other expressions does not
come back from its ranges of rows.
-/

import DFTracer.Expr.SharedSlots
import DFTracer.Math.Fallible

namespace DFTracer.Expr

open List

open Frames (Bytes TypeId DataType typeCode typeOfCode byteWidth concatSupported concatColumns)
open Flame (put littleEndian)
open Math.Sharing
open Compiler
open Math (mapM_cons_some mapM_bind_eq mapM_transpose mapM_ok mapM_of_none toOption_bind
  toOption_mapM mapM_congr_mem mapM_of_mapM mapM_isSome)

section Alone

variable (K : Kernels) (m : Memory) (backend : Backend) (frame : Frame)

/-- A column from the columns of the ranges of rows. -/
def evalColumn (chunk : Nat → Nat → Option Column) : Except EvalError Column :=
  if frame.rows ≤ GRAIN then required (chunk 0 frame.rows)
  else do
    let parts ← (parts backend frame.rows chunk).mapM required
    putTogether parts

/-- The column of an expression that is compiled alone and shares nothing. -/
def evalAlone (root : ExprNode) : Except EvalError Column :=
  if root = .null then .error (.invalidArgument "expr: null expression")
  else if frame.columns = [] then
    .error (.invalidArgument "expr: needs at least one input column")
  else
    match bareColumn frame.columns root with
    | some column => .ok column
    | none => do
        let out ← lower (inputTypes frame) (valuesType m) root
        if out.isScalar then .error noColumn
        else
          evalColumn backend frame fun offset len =>
            out.slot.value (apply K m frame.columns offset len)

/-- Evaluating expressions together gives the column of each on its own, or fails as one of them
does. -/
def Invisible (roots : List ExprNode) : Prop :=
  (evalMany K m backend frame roots).toOption =
    roots.mapM fun root => (evalAlone K m backend frame root).toOption

/-- A column of a frame comes back from its ranges of rows. -/
def Reloads (c : Column) : Prop :=
  if frame.rows ≤ GRAIN then
    match byteWidth c.type.id c.type.fixedSize with
    | some width => width ≠ 0
    | none => 0 < frame.rows ∨ gathers c.type.id
  else backend = .pool ∧ concatSupported c.type.id

/-- The clips of expressions. -/
def clipsOf (roots : List ExprNode) : List (NodeData × ExprNode) := roots.flatMap ExprNode.clips

/-- There is an expression, and either all are bare columns, or the bare columns among them come
back and no two clips clash. -/
def Shareable (roots : List ExprNode) : Prop :=
  roots ≠ [] ∧ ((∀ root ∈ roots, (bareColumn frame.columns root).isSome) ∨
    ((∀ root ∈ roots, ∀ c ∈ bareColumn frame.columns root, Reloads backend frame c) ∧
      ∀ p ∈ clipsOf roots, ∀ q ∈ clipsOf roots, ¬ Clash (inputTypes frame) (valuesType m) p q))

end Alone

section Roots

variable {m : Memory} {frame : Frame} {clips : List (NodeData × ExprNode)} {s : Program}
variable {step : OpHead → Option Column → Option Column → Option Column → Option Column}

theorem compileRoots_sim (strict : Strict step)
    (free : ∀ p ∈ clips, ∀ q ∈ clips, ¬ Clash (inputTypes frame) (valuesType m) p q)
    (roots : List ExprNode) (known : ∀ p ∈ clipsOf roots, p ∈ clips)
    (good : Good (inputTypes frame) (valuesType m) clips s) :
    Sim (inputTypes frame) (valuesType m) clips step
      (fun s finals ts => List.Forall₂ (Holds s) finals ts)
      (fun ts => ∀ t ∈ ts, t.value step ≠ none) s
      (compileRoots m frame sharing roots) (compileRoots m frame unshared roots) True := by
  induction roots generalizing s with
  | nil => exact .pure good .nil fun _ => trivial
  | cons root roots ih =>
    have knownRoot : ∀ p ∈ root.clips, p ∈ clips := fun p mem =>
      known p (mem_append_left _ mem)
    have knownRoots : ∀ p ∈ clipsOf roots, p ∈ clips := fun p mem =>
      known p (mem_append_right _ mem)
    unfold compileRoots
    split
    · exact .throw _
    · refine ((compile_sim free strict good root knownRoot).bind (Q := True) ?_).mono
        fun _ => trivial
      intro v w s₁ _ good₁ _ related
      rw [related.isScalar]
      split
      · exact .throw _
      · refine ((ih knownRoots good₁).bind (Q := Valued step w ∧ True) ?_).mono And.right
        intro finals ts s₂ _ good₂ grows listed
        exact .pure good₂ (.cons (related.slot.grow grows) listed) fun has =>
          ⟨fun t mem => has t (mem_cons_of_mem _ mem),
            .inr (has _ mem_cons_self), trivial⟩

end Roots

section Chunk

variable {K : Kernels} {m : Memory} {frame : Frame}

/-- The term of an expression that compiles to a column. -/
def termOfRoot (m : Memory) (frame : Frame) (root : ExprNode) : Option (Term OpHead) :=
  if root = .null then none
  else (lower (inputTypes frame) (valuesType m) root).toOption.bind fun v =>
    if v.isScalar then none else some v.slot

theorem compileRoots_unshared (roots : List ExprNode) :
    (compileRoots m frame unshared roots ()).toOption.map Prod.fst =
      roots.mapM (termOfRoot m frame) := by
  induction roots with
  | nil => rfl
  | cons root roots ih =>
    rw [mapM_cons_some, ← ih]
    conv_lhs => unfold compileRoots
    unfold termOfRoot
    split_ifs with null
    · rfl
    · have step (x : Except EvalError (Val (Term OpHead) × Unit)) :
          (x >>= fun r => (if r.1.isScalar then throw noColumn else do
              let finals ← compileRoots m frame unshared roots
              pure (r.1.slot :: finals) : Compile Unit (List (Term OpHead))) r.2).toOption.map
            Prod.fst =
          ((x.map Prod.fst).toOption.bind fun v => if v.isScalar then none else some v.slot).bind
            fun t => ((compileRoots m frame unshared roots ()).toOption.map Prod.fst).map
              (t :: ·) := by
        rcases x with e | ⟨v, ⟨⟩⟩
        · rfl
        · change ((if v.isScalar then throw noColumn else do
              let finals ← compileRoots m frame unshared roots
              pure (v.slot :: finals) : Compile Unit (List (Term OpHead))) ()).toOption.map
            Prod.fst = (if v.isScalar then none else some v.slot).bind _
          split_ifs
          · rfl
          · change ((compileRoots m frame unshared roots () >>= fun r =>
              Except.ok (v.slot :: r.1, r.2)).toOption.map Prod.fst) = _
            cases compileRoots m frame unshared roots () <;> rfl
      exact step _

/-- A program on a range of rows gives the values of the terms. -/
theorem evalChunk_eq {s : Program} {finals : List Slot} {ts : List (Term OpHead)}
    {offset len : Nat} (holds : List.Forall₂ (Holds s) finals ts)
    (valued : (∀ t ∈ ts, t.value (apply K m frame.columns offset len) ≠ none) →
      ∀ t ∈ terms s.program, t.value (apply K m frame.columns offset len) ≠ none) :
    evalChunk K m frame.columns offset len s.program finals =
      ts.mapM fun t => t.value (apply K m frame.columns offset len) := by
  unfold evalChunk
  cases ran : run (apply K m frame.columns offset len) s.program with
  | some values =>
    have reads : List.Forall₂ (fun slot t => read values slot =
        t.value (apply K m frame.columns offset len)) finals ts :=
      holds.imp fun slot t h => (read_of_run ran slot).trans (congrArg _ h.term)
    change finals.mapM (read values) = _
    clear holds valued
    induction reads with
    | nil => rfl
    | cons first _ ih => rw [mapM_cons_some, mapM_cons_some, first, ih]
  | none =>
    have missing : ¬ ∀ t ∈ ts, t.value (apply K m frame.columns offset len) ≠ none := by
      intro all
      obtain ⟨values, some⟩ := run_of_values (valued all)
      rw [ran] at some
      cases some
    push Not at missing
    obtain ⟨t, mem, none⟩ := missing
    exact (mapM_of_none mem none).symm

end Chunk

section Ranges

variable {backend : Backend} {frame : Frame}

theorem toOption_required {α : Type} (x : Option α) : (required x).toOption = x := by
  cases x <;> rfl

/-- The range behind every place. -/
def placed (backend : Backend) (rows : Nat) : List (Option (Nat × Nat)) :=
  (List.range ((rows + GRAIN - 1) / GRAIN)).map fun place =>
    (backend.ranges rows).findRev? fun r => r.1 / GRAIN = place

theorem parts_eq {α : Type} (rows : Nat) (chunk : Nat → Nat → Option α) :
    ((parts backend rows chunk).mapM required).toOption =
      (placed backend rows).mapM fun r => r.bind fun r => chunk r.1 (r.2 - r.1) := by
  rw [toOption_mapM]
  unfold parts placed
  rw [mapM_map, mapM_map]
  simp only [toOption_required]
  rfl

/-- Columns that are put together from their ranges one by one. -/
theorem evalRanges_eq {τ : Type} {ts : List τ} (some : ts ≠ [])
    {chunk : Nat → Nat → Option (List Column)}
    (f : τ → Nat → Nat → Option Column)
    (values : ∀ offset len, chunk offset len = ts.mapM fun t => f t offset len) :
    (evalRanges backend frame ts.length chunk).toOption =
      ts.mapM fun t => (evalColumn backend frame (f t)).toOption := by
  unfold evalRanges evalColumn
  split
  · rw [values]
    simp only [toOption_required]
  · have rows : (fun r : Option (Nat × Nat) => r.bind fun r => chunk r.1 (r.2 - r.1)) =
        fun r => ts.mapM fun t => r.bind fun r => f t r.1 (r.2 - r.1) := by
      funext r
      cases r with
      | some r => exact values r.1 (r.2 - r.1)
      | none =>
        obtain ⟨t, rest, rfl⟩ := exists_cons_of_ne_nil some
        exact (mapM_of_none mem_cons_self rfl).symm
    have column : (fun t => ((parts backend frame.rows (f t)).mapM required >>=
        putTogether).toOption) = fun t =>
        ((placed backend frame.rows).mapM fun r : Option (Nat × Nat) =>
          r.bind fun r => f t r.1 (r.2 - r.1)).bind fun parts => (putTogether parts).toOption := by
      funext t
      rw [toOption_bind, parts_eq]
    rw [toOption_bind, parts_eq, rows, column, ← mapM_transpose]
    refine congrArg (Option.bind _) (funext fun parts => ?_)
    rw [toOption_mapM]

end Ranges

/-! ## Bare columns beside other expressions -/

section Reload

variable {backend : Backend} {frame : Frame} {c : Column}

theorem flatMap_ranges {α : Type} (l : List α) (k : Nat) :
    ((List.range k).flatMap fun i =>
      (l.drop (i * GRAIN)).take (min l.length ((i + 1) * GRAIN) - i * GRAIN)) =
      l.take (k * GRAIN) := by
  induction k with
  | zero => rfl
  | succ k ih =>
    have grown : (k + 1) * GRAIN = k * GRAIN + GRAIN := Nat.succ_mul k GRAIN
    rw [range_succ, flatMap_append, flatMap_singleton, grown, take_add]
    congr 1
    rw [take_eq_take_iff, length_drop]
    omega

theorem ranges_find (rows place : Nat) (lt : place < (rows + GRAIN - 1) / GRAIN) :
    ((Backend.pool.ranges rows).findRev? fun r => r.1 / GRAIN = place) =
      some (place * GRAIN, min rows ((place + 1) * GRAIN)) := by
  rw [findRev?_eq_find?_reverse]
  have pos : 0 < GRAIN := by decide
  have listed : (place * GRAIN, min rows ((place + 1) * GRAIN)) ∈
      (Backend.pool.ranges rows).reverse :=
    mem_reverse.mpr (mem_map.mpr ⟨place, mem_range.mpr lt, rfl⟩)
  cases found : (Backend.pool.ranges rows).reverse.find? fun r => r.1 / GRAIN = place with
  | none =>
    have := find?_eq_none.mp found _ listed
    simp only [Nat.mul_div_cancel _ pos, decide_true, not_true_eq_false] at this
  | some r =>
    obtain ⟨i, -, rfl⟩ := mem_map.mp (mem_reverse.mp (mem_of_find?_eq_some found))
    have same := find?_some found
    simp only [Nat.mul_div_cancel _ pos, decide_eq_true_eq] at same
    rw [same]

theorem Column.slice_all (c : Column) : c.slice 0 c.length = c := by
  unfold Column.slice Column.length
  rw [drop_zero, take_length]

theorem width_of_supported {t : TypeId} (supported : concatSupported t = true) (size : Int) :
    (∀ width ∈ byteWidth t size, width ≠ 0) ∧ (byteWidth t size = none → gathers t = true) := by
  revert supported
  cases t <;> intro supported <;>
    first
    | exact absurd supported (by decide)
    | exact ⟨by rintro width ⟨⟩; exact Nat.succ_ne_zero _, by rintro ⟨⟩⟩
    | exact ⟨by rintro width ⟨⟩, fun _ => rfl⟩

/-- A slice of a column whose parts can be put together. -/
theorem loadSlice_supported (supported : concatSupported c.type.id = true) (offset len : Nat)
    (within : offset + len ≤ c.length) :
    loadSlice c offset len = some (c.slice offset len) := by
  obtain ⟨wide, gathered⟩ := width_of_supported supported c.type.fixedSize
  unfold loadSlice
  cases found : byteWidth c.type.id c.type.fixedSize with
  | some w => exact if_neg (wide w found)
  | none =>
    rw [if_neg (by omega), if_pos (gathered found)]
    split_ifs with whole
    · obtain ⟨-, rfl, rfl⟩ := whole
      rw [Column.slice_all]
    · rfl

theorem putTogether_same {parts : List Column} {d : DataType} (some : parts ≠ [])
    (same : ∀ p ∈ parts, p.type = d) (supported : concatSupported d.id = true) :
    putTogether parts = .ok { type := d, cells := parts.flatMap Column.cells } := by
  obtain ⟨front, rest, rfl⟩ := exists_cons_of_ne_nil some
  obtain rfl := same front mem_cons_self
  have types : ∀ e ∈ rest.map Column.type, e = front.type := by
    intro e listed
    obtain ⟨p, mem, rfl⟩ := mem_map.mp listed
    exact same p (mem_cons_of_mem _ mem)
  simp only [putTogether, Frames.concatColumns_same types supported]

theorem evalColumn_reload (rows : c.length = frame.rows) (reloads : Reloads backend frame c) :
    evalColumn backend frame (loadSlice c) = .ok c := by
  unfold Reloads at reloads
  unfold evalColumn
  split_ifs at reloads ⊢ with few
  · have load : loadSlice c 0 frame.rows = some c := by
      unfold loadSlice
      cases width : byteWidth c.type.id c.type.fixedSize with
      | some w =>
        rw [width] at reloads
        dsimp only
        rw [if_neg reloads, ← rows, Column.slice_all]
      | none =>
        rw [if_neg (by omega)]
        split_ifs with whole gathered
        · rfl
        · rw [← rows, Column.slice_all]
        · exact absurd reloads (by simp_all)
    rw [load]
    rfl
  · obtain ⟨rfl, supported⟩ := reloads
    have pool : (parts .pool frame.rows (loadSlice c)).mapM required =
        .ok ((List.range ((frame.rows + GRAIN - 1) / GRAIN)).map fun i =>
          c.slice (i * GRAIN) (min c.cells.length ((i + 1) * GRAIN) - i * GRAIN)) := by
      unfold parts
      rw [mapM_map]
      refine mapM_ok fun place listed => ?_
      have lt := mem_range.mp listed
      have inside : place * GRAIN ≤ frame.rows := by
        unfold GRAIN at lt ⊢
        omega
      change required (((Backend.pool.ranges frame.rows).findRev? _).bind _) = _
      rw [ranges_find _ _ lt, Option.bind_some, loadSlice_supported supported _ _ (by omega)]
      rw [← rows]
      rfl
    have many : (List.range ((frame.rows + GRAIN - 1) / GRAIN)) ≠ [] := by
      unfold GRAIN at few ⊢
      rw [Ne, range_eq_nil]
      omega
    rw [pool]
    refine (putTogether_same (mt map_eq_nil_iff.mp many) ?_ supported).trans ?_
    · intro p listed
      obtain ⟨i, -, rfl⟩ := mem_map.mp listed
      rfl
    · have cells := flatMap_ranges c.cells ((frame.rows + GRAIN - 1) / GRAIN)
      rw [take_of_length_le (by change c.length ≤ _; unfold GRAIN; omega)] at cells
      rw [flatMap_map]
      exact congrArg (fun cells => Except.ok (Column.mk c.type cells)) cells

end Reload

/-! ## Together and alone -/

section Together

variable {K : Kernels} {m : Memory} {backend : Backend} {frame : Frame}

theorem entry_map {α β : Type} (f : α → β) (l : List α) (i : Int) :
    entry (l.map f) i = (entry l i).map f := by
  unfold entry
  split
  · exact getElem?_map
  · rfl

variable {root : ExprNode}

/-- A bare column is loaded. -/
theorem termOfRoot_bare {c : Column} (bare : bareColumn frame.columns root = some c) :
    ∃ t, termOfRoot m frame root = some t ∧
      ∀ offset len, t.value (apply K m frame.columns offset len) = loadSlice c offset len := by
  cases root with
  | null => cases bare
  | node data a b d =>
    change (if data.kind = .Col then entry frame.columns data.i else none) = some c at bare
    split_ifs at bare with kind
    have types : entry (inputTypes frame) data.i = some (some c.type) := by
      unfold inputTypes
      rw [entry_map, bare]
      rfl
    refine ⟨.op { opcode := .LOAD, param := data.i } .absent .absent .absent, ?_, ?_⟩
    · unfold termOfRoot
      rw [if_neg ExprNode.noConfusion]
      change ((compile unshared (inputTypes frame) (valuesType m) (.node data a b d)
        ()).map Prod.fst).toOption.bind _ = _
      unfold compile
      rw [kind]
      dsimp only
      unfold compileCol
      rw [types]
      rfl
    · intro offset len
      change ((((entry frame.columns data.i).bind fun column =>
        loadSlice column offset len).map some).join) = _
      rw [bare, Option.bind_some]
      cases loadSlice c offset len <;> rfl

theorem mem_columns_of_bare {c : Column}
    (bare : bareColumn frame.columns root = some c) : c ∈ frame.columns := by
  cases root with
  | null => cases bare
  | node data a b d =>
    change (if data.kind = .Col then entry frame.columns data.i else none) = some c at bare
    unfold entry at bare
    split_ifs at bare
    exact mem_of_getElem? bare

/-- The column of an expression on its own comes from its term. -/
theorem evalAlone_eq (columns : frame.columns ≠ [])
    (reload : ∀ c ∈ bareColumn frame.columns root, Reloads backend frame c) :
    (evalAlone K m backend frame root).toOption =
      (termOfRoot m frame root).bind fun t =>
        (evalColumn backend frame fun offset len =>
          t.value (apply K m frame.columns offset len)).toOption := by
  unfold evalAlone
  cases bare : bareColumn frame.columns root with
  | some c =>
    obtain ⟨t, term, value⟩ := @termOfRoot_bare K m frame root c bare
    have loads : (fun offset len => t.value (apply K m frame.columns offset len)) =
        loadSlice c := by
      funext offset len
      exact value offset len
    rw [term, Option.bind_some, loads,
      evalColumn_reload (frame.rectangular c (mem_columns_of_bare bare)) (reload c bare)]
    split_ifs with null
    · rw [null] at bare
      cases bare
    · rfl
  | none =>
    unfold termOfRoot
    split_ifs with null
    · rfl
    · rw [toOption_bind, Option.bind_assoc]
      refine congrArg (Option.bind _) (funext fun out => ?_)
      split_ifs <;> rfl

theorem evalAlone_bare (columns : frame.columns ≠ []) {c : Column}
    (bare : bareColumn frame.columns root = some c) :
    (evalAlone K m backend frame root).toOption = some c := by
  unfold evalAlone
  rw [bare]
  split_ifs with null
  · rw [null] at bare
    cases bare
  · rfl

/-- The program of several expressions gives the columns of their terms. -/
theorem evalRanges_program {roots : List ExprNode} (some : roots ≠ [])
    (free : ∀ p ∈ clipsOf roots, ∀ q ∈ clipsOf roots,
      ¬ Clash (inputTypes frame) (valuesType m) p q) :
    ((compileRoots m frame sharing roots).run {} >>= fun r =>
        evalRanges backend frame r.1.length fun offset len =>
          evalChunk K m frame.columns offset len r.2.program r.1).toOption =
      (roots.mapM (termOfRoot m frame)).bind fun ts => ts.mapM fun t =>
        (evalColumn backend frame fun offset len =>
          t.value (apply K m frame.columns offset len)).toOption := by
  have good : Good (inputTypes frame) (valuesType m) (clipsOf roots) {} := by
    refine ⟨Shared.sound_empty, ?_, ?_⟩
    all_goals
      intro op listed
      cases listed
  have sim (offset len : Nat) :=
    compileRoots_sim (apply_strict K m frame.columns offset len) free roots (fun _ mem => mem) good
  rw [← compileRoots_unshared]
  rcases sim 0 0 with ⟨e, left, right⟩ | ⟨finals, s, ts, left, right, -, -, -, -⟩
  · change ((compileRoots m frame sharing roots {} >>= _).toOption) = _
    rw [left, right]
    rfl
  · have terms : roots.mapM (termOfRoot m frame) = Option.some ts := by
      rw [← compileRoots_unshared, right]
      rfl
    have listed : ts ≠ [] := by
      rintro rfl
      exact some (eq_nil_of_length_eq_zero (Math.length_of_mapM terms).symm)
    have chunks (offset len : Nat) :
        List.Forall₂ (Holds s) finals ts ∧
          evalChunk K m frame.columns offset len s.program finals =
            ts.mapM fun t => t.value (apply K m frame.columns offset len) := by
      rcases sim offset len with ⟨e, left', -⟩ | ⟨finals', s', ts', left', right', -, -, holds, has⟩
      · rw [left] at left'
        cases left'
      · rw [left] at left'
        rw [right] at right'
        cases left'
        cases right'
        refine ⟨holds, evalChunk_eq holds fun all t mem => ?_⟩
        rcases (has all).2 t mem with old | new
        · cases old
        · exact new
    change ((compileRoots m frame sharing roots {} >>= _).toOption) = _
    rw [left, right]
    change (evalRanges backend frame finals.length _).toOption = _
    rw [(chunks 0 0).1.length_eq]
    exact evalRanges_eq listed _ fun offset len => (chunks offset len).2

/-- Where no clips clash, expressions that are evaluated together give what each gives alone. -/
theorem invisible_of_shareable (K : Kernels) (m : Memory) (backend : Backend) (frame : Frame)
    (roots : List ExprNode) (shareable : Shareable m backend frame roots) :
    Invisible K m backend frame roots := by
  obtain ⟨some, shareable⟩ := shareable
  unfold Invisible evalMany
  rw [if_neg some]
  by_cases columns : frame.columns = []
  · obtain ⟨root, rest, rfl⟩ := exists_cons_of_ne_nil some
    rw [if_pos columns]
    refine (mapM_of_none mem_cons_self ?_).symm
    unfold evalAlone
    split_ifs <;> rfl
  · rw [if_neg columns]
    cases bare : roots.mapM (bareColumn frame.columns) with
    | some outs =>
      exact (mapM_of_mapM bare fun root _ c bare => evalAlone_bare columns bare).symm
    | none =>
      rcases shareable with all | ⟨reload, free⟩
      · have := mapM_isSome all
        rw [bare] at this
        cases this
      · rw [mapM_congr_mem fun root mem => evalAlone_eq columns (reload root mem), mapM_bind_eq]
        exact evalRanges_program some free

end Together

/-- `ClipImpl` on doubles. -/
def clipDouble (a l h : Float) : Float := if a < l then l else if a > h then h else a

def readDouble (bytes : Bytes) : Float := .ofBits (UInt64.ofNat (littleEndian bytes))

def writeDouble (v : Float) : Bytes := put 8 v.toBits.toNat

/-- The clip of a column of doubles. -/
def clipDoubles (a : Column) (lo hi : Scalar) : Option Column :=
  if a.type.id = .Float64 then
    some (Column.mk a.type (a.cells.map fun cell => cell.map fun bytes =>
      writeDouble (clipDouble (readDouble bytes) lo.toDouble hi.toDouble)))
  else none

/-- Kernels of which only the clip of doubles takes its input. -/
def clipsOnly : Kernels := { refusing with clip := clipDoubles }

theorem double_known : TypeId.Float64 ≠ .Unknown := by decide

def noMemory : Memory where
  text _ _ := []
  column _ := { type := .scalar .Float64 double_known, cells := [] }

/-- The only column, clipped between zero and a bound. -/
def clipTo (hi : Scalar) : ExprNode := (ExprNode.col 0).clip (.number TAG_F64 0) hi

def doubles : Column where
  type := .scalar .Float64 double_known
  cells := [some (put 8 0x400C000000000000)]

def oneRow : Frame where
  columns := [doubles]
  rows := 1
  rectangular := by decide

/-- The bits of one are a bound as a double, and a much larger bound as an integer. -/
def boundInt : Scalar := .number TAG_I64 0x3FF0000000000000

def boundDouble : Scalar := .number TAG_F64 0x3FF0000000000000

theorem clip_not_invisible : ¬ ∀ (K : Kernels) (m : Memory) (backend : Backend) (frame : Frame)
    (roots : List ExprNode), roots ≠ [] → Invisible K m backend frame roots := by
  intro all
  have same := all clipsOnly noMemory .serial oneRow [clipTo boundInt, clipTo boundDouble]
    (by decide)
  revert same
  unfold Invisible
  decide +kernel

def clipAndColumn : List ExprNode := [clipTo boundDouble, .col 0]

theorem clip_beside_column : Shareable noMemory .serial oneRow clipAndColumn ∧
    Invisible clipsOnly noMemory .serial oneRow clipAndColumn := by
  have shareable : Shareable noMemory .serial oneRow clipAndColumn := by
    refine ⟨by decide, .inr ⟨?_, ?_⟩⟩
    · intro root mem c bare
      have one : c ∈ oneRow.columns := mem_columns_of_bare bare
      obtain rfl := mem_singleton.mp one
      exact Nat.succ_ne_zero 7
    · intro p hp q hq clash
      obtain rfl := mem_singleton.mp hp
      obtain rfl := mem_singleton.mp hq
      exact clash.tag rfl
  exact ⟨shareable,
    invisible_of_shareable clipsOnly noMemory .serial oneRow clipAndColumn shareable⟩

end DFTracer.Expr
