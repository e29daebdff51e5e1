/-
# Skipping the query on uniform chunks

When the statistics of every chunk to be read have the literal at both ends, for each equality of
a conjunction, the reader only checks that an event has the fields as top-level members. The
statistics speak of the texts that were recorded; the check speaks of names. A span of lines is
still refused as a whole when the prefilter misses a literal in it.
-/

import DFTracer.Indexing.EventRecorder
import DFTracer.Reader.CompiledFilter
import DFTracer.Math.Lists

namespace DFTracer.Reader

open Query Indexing List

/-- The `literal_to_string` of `extract_eq_leaves`. -/
def leafText : Literal → String
  | .string s => s
  | .bool b => if b then "true" else "false"
  | .int64 n => toString n.toInt
  | .uint64 n => toString n.toNat
  | .double d => d.toFixed6

/-- `extract_eq_leaves`, nothing for a query that is no conjunction of equalities. -/
def extractEqLeaves : QueryNode → Option (List (String × String))
  | .compare field .eq value => some [(field.path, leafText value)]
  | .and left right =>
    (extractEqLeaves left).bind fun l => (extractEqLeaves right).map (l ++ ·)
  | _ => none

/-- A file with its statistics. The fixed dimensions of a chunk are recorded from its
events; further dimensions may hold anything. -/
structure RecordedFile where
  chunks : List (List JsonLine)
  rows : Nat → String → Option ChunkDimensionStats
  recorded : ∀ (index : Nat) (dim : FixedDim),
    rows index dim.dimension = chunks[index]?.map fun lines => dim.record (lines.map JsonLine.value)

namespace RecordedFile

/-- `all_chunks_uniform_match`. -/
def allChunksUniformMatch (file : RecordedFile) (leaves : List (String × String))
    (kept : List Nat) : Bool :=
  !leaves.isEmpty && !kept.isEmpty &&
    leaves.all fun leaf => kept.all fun index =>
      match file.rows index leaf.1 with
      | some stats => stats.minValue == leaf.2 && stats.maxValue == leaf.2
      | none => false

/-- The lines of the chunks that are read. -/
def lines (file : RecordedFile) (kept : List Nat) : List JsonLine :=
  kept.flatMap fun index => file.chunks[index]?.getD []

end RecordedFile

/-- A span of whole lines that the stream hands out; the last newline may be missing. -/
structure LineSpan where
  ended : Bool
  lines : List JsonLine

/-- `yield_chunks_from_stream` refuses the span. -/
def refused (query : QueryNode) (span : LineSpan) : Bool :=
  !(buildPrefilter query).empty && !(buildPrefilter query).mayMatch (spanText span.ended span.lines)

/-- The presence check of `read_arrow` and `read_json` on one event. -/
def present (query : QueryNode) (event : JsonText) : Bool :=
  (collectFields query).all fun path => (lookupField path event).isSome

/-- What is read of a span when the query is not evaluated. -/
def presenceSpan (query : QueryNode) (span : LineSpan) : List JsonLine :=
  if refused query span then [] else span.lines.filter fun line => present query line.root

/-- What is read when the query is not evaluated. -/
def presenceRead (query : QueryNode) (spans : List LineSpan) : List JsonLine :=
  spans.flatMap (presenceSpan query)

section Exact

-- `search op pattern text`: whether the compiled matcher of a pattern finds the text
variable (search : MatchOp → String → String → Bool)

/-- The event meets one equality as the evaluator sees it. -/
def Meets (event : JsonText) (leaf : String × Literal) : Prop :=
  ∃ value, resolveField event.value leaf.1 = some value ∧ compareValue value leaf.2 = some .eq

/-- A value whose recorded text is this one has the type of the literal. -/
def TypedAs (text : String) : JsonValue → Literal → Prop
  | .string s, .string _ => s = text
  | .int n, .int64 _ => toString n.val = text
  | .int n, .uint64 _ => toString n.val = text
  | _, _ => False

/-- What a fixed dimension recorded of the event is the value that the evaluator
resolves, and it has the type of the literal. -/
def RecordedAs (event : JsonText) (leaf : String × Literal) : Prop :=
  ∃ (dim : FixedDim) (record : FoldEvent) (text : String) (value : JsonValue),
    dim.dimension = leaf.1 ∧ dataRecord event.value = some record ∧
      record.recorded dim = some text ∧ resolveField event.value leaf.1 = some value ∧
      TypedAs text value leaf.2

/-- Where a presence check can stand for the query: an event that has every field as a
top-level member holds there what was recorded for it, or meets the literal anyway; and
an event that meets every literal has every field as a top-level member. -/
structure PresenceDecides (query : QueryNode) (event : JsonText) : Prop where
  presentMeets : present query event = true →
    ∀ leaf ∈ comparisons query, RecordedAs event leaf ∨ Meets event leaf
  meetsPresent : (∀ leaf ∈ comparisons query, Meets event leaf) → present query event = true

/-- A span is read exactly when it is refused and has no accepted event, or when the
presence check decides each of its events. -/
def SpanDecides (query : QueryNode) (span : LineSpan) : Prop :=
  if refused query span then
    ∀ line ∈ span.lines, ¬ ∀ leaf ∈ comparisons query, Meets line.root leaf
  else ∀ line ∈ span.lines, PresenceDecides query line.root

/-- Lists filtered each by a test of its own give what one test gives over all exactly
when every list does. -/
theorem flatMap_filter_eq_iff {α β : Type} (list : β → List α) (p : β → α → Bool) (q : α → Bool)
    (parts : List β) :
    parts.flatMap (fun part => (list part).filter (p part)) = (parts.flatMap list).filter q ↔
      ∀ part ∈ parts, (list part).filter (p part) = (list part).filter q := by
  rw [filter_flatMap]
  constructor
  · intro same
    apply Math.eq_of_flatMap_eq same
    intro part listed
    rw [← countP_eq_length_filter, ← countP_eq_length_filter]
    apply countP_mono_left
    -- what a part keeps is in the filtered whole, so the common test accepts it
    intro a inside kept
    have member : a ∈ parts.flatMap fun part => (list part).filter (p part) :=
      mem_flatMap.mpr ⟨part, listed, mem_filter.mpr ⟨inside, kept⟩⟩
    rw [same] at member
    obtain ⟨_, _, found⟩ := mem_flatMap.mp member
    exact (mem_filter.mp found).2
  · intro each
    exact flatMap_congr fun part listed => each part listed

variable {query : QueryNode} {leaves : List (String × String)} {file : RecordedFile}
  {kept : List Nat} {line : JsonLine}

/-- A conjunction of equalities holds when the event meets every one. -/
theorem evaluate_eq_true_iff (extracted : extractEqLeaves query = some leaves) (event : JsonText) :
    evaluate search query event.value = true ↔ ∀ leaf ∈ comparisons query, Meets event leaf := by
  induction query generalizing leaves with
  | compare field op literal =>
    cases op with
    | eq =>
      rw [evaluate]
      simp only [comparisons, mem_singleton, forall_eq, Meets]
      cases resolveField event.value field.path with
      | none => simp
      | some value =>
        cases compared : compareValue value literal <;> simp [applyCompare, compared]
    | _ => exact absurd extracted (by simp [extractEqLeaves])
  | and left right ihLeft ihRight =>
    obtain ⟨l, leftLeaves, rest⟩ := Option.bind_eq_some_iff.mp extracted
    obtain ⟨r, rightLeaves, rfl⟩ := Option.map_eq_some_iff.mp rest
    rw [evaluate, Bool.and_eq_true, ihLeft leftLeaves, ihRight rightLeaves, comparisons,
      forall_mem_append]
  | _ => exact absurd extracted (by simp [extractEqLeaves])

/-- The leaves are the comparisons, their literals as text. -/
theorem extractEqLeaves_eq (extracted : extractEqLeaves query = some leaves) :
    leaves = (comparisons query).map fun leaf => (leaf.1, leafText leaf.2) := by
  induction query generalizing leaves with
  | compare field op literal =>
    cases op with
    | eq => exact (Option.some.inj extracted).symm
    | _ => exact absurd extracted (by simp [extractEqLeaves])
  | and left right ihLeft ihRight =>
    obtain ⟨l, leftLeaves, rest⟩ := Option.bind_eq_some_iff.mp extracted
    obtain ⟨r, rightLeaves, rfl⟩ := Option.map_eq_some_iff.mp rest
    rw [ihLeft leftLeaves, ihRight rightLeaves, comparisons, map_append]
  | _ => exact absurd extracted (by simp [extractEqLeaves])

/-- A recorded value that has the literal's text meets the literal. -/
theorem compareValue_of_typedAs {value : JsonValue} {literal : Literal}
    (typed : TypedAs (leafText literal) value literal) : compareValue value literal = some .eq := by
  cases literal with
  | string s =>
    cases value with
    | string t =>
      obtain rfl : t = s := typed
      simp [compareValue]
    | _ => exact typed.elim
  | int64 m =>
    cases value with
    | int n =>
      have same : n.val = m.toInt := Math.NumberText.toString_int_injective typed
      rw [compareValue_exact (n := n.val) (m := m.toInt) rfl rfl, same]
      exact congrArg some (compare_eq_iff_eq.mpr rfl)
    | _ => exact typed.elim
  | uint64 m =>
    cases value with
    | int n =>
      have same : n.val = m.toNat := Math.NumberText.toString_int_injective typed
      rw [compareValue_exact (n := n.val) (m := m.toNat) rfl rfl, same]
      exact congrArg some (compare_eq_iff_eq.mpr rfl)
    | _ => exact typed.elim
  | double d | bool b => cases value <;> exact typed.elim

/-- On uniform chunks a recorded value meets the literal. -/
theorem meets_of_recordedAs (extracted : extractEqLeaves query = some leaves)
    (uniform : file.allChunksUniformMatch leaves kept = true)
    (listed : line ∈ file.lines kept) {leaf : String × Literal} (asked : leaf ∈ comparisons query)
    (recordedAs : RecordedAs line.root leaf) : Meets line.root leaf := by
  obtain ⟨dim, record, text, value, named, data, recorded, resolved, typed⟩ := recordedAs
  obtain ⟨index, read, inside⟩ := mem_flatMap.mp listed
  rw [extractEqLeaves_eq extracted] at uniform
  have row : (match file.rows index leaf.1 with
      | some stats => stats.minValue == leafText leaf.2 && stats.maxValue == leafText leaf.2
      | none => false) = true := by
    have each := (Bool.and_eq_true _ _).mp uniform
    have ofLeaf := all_eq_true.mp each.2 (leaf.1, leafText leaf.2)
      (mem_map.mpr ⟨leaf, asked, rfl⟩)
    exact all_eq_true.mp ofLeaf index read
  rw [← named, file.recorded] at row
  cases chunk : file.chunks[index]? with
  | none =>
    rw [chunk] at inside
    exact absurd inside not_mem_nil
  | some lines =>
    rw [chunk] at inside row
    obtain ⟨low, high⟩ := (Bool.and_eq_true _ _).mp row
    have same := FixedDim.recorded_eq_of_uniform (of_decide_eq_true low) (of_decide_eq_true high)
      (mem_map_of_mem inside) data recorded
    exact ⟨value, resolved, compareValue_of_typedAs (same ▸ typed)⟩

/-- On uniform chunks the presence check decides an event as the evaluator does exactly
when the values it stands for are the recorded ones. -/
theorem present_eq_evaluate_iff (extracted : extractEqLeaves query = some leaves)
    (uniform : file.allChunksUniformMatch leaves kept = true) (listed : line ∈ file.lines kept) :
    present query line.root = evaluate search query line.value ↔ PresenceDecides query line.root := by
  rw [Bool.eq_iff_iff, JsonLine.value, evaluate_eq_true_iff search extracted]
  constructor
  · intro same
    exact ⟨fun present leaf asked => .inr (same.mp present leaf asked), same.mpr⟩
  · intro decides
    refine ⟨fun present leaf asked => ?_, decides.meetsPresent⟩
    rcases decides.presentMeets present leaf asked with recordedAs | meets
    · exact meets_of_recordedAs extracted uniform listed asked recordedAs
    · exact meets

end Exact

namespace Uniform

/-- A file whose statistics are the fixed dimensions of its chunks. -/
def fileOf (chunks : List (List JsonLine)) : RecordedFile where
  chunks := chunks
  rows := fun index name => (FixedDim.all.find? (·.dimension == name)).bind fun dim =>
    chunks[index]?.map fun lines => dim.record (lines.map JsonLine.value)
  recorded := by
    intro index dim
    cases dim <;> rfl

def written (text : String) : List Glyph := Blanks.plainGlyphs text.toList

/-- `{"ph":"X","name":"read","args":{"hhash":"a"}}`. -/
def line : JsonLine where
  before := []
  root := .object []
    (.cons [] (written "ph") [] [] (.string (written "X")) []
      (.cons [] (written "name") [] [] (.string (written "read")) []
        (.cons [] (written "args") [] []
          (.object [] (.cons [] (written "hhash") [] [] (.string (written "a")) [] .nil)) [] .nil)))
  after := []

/-- `name == "read"`. -/
def byName : QueryNode := .compare Blanks.name .eq (.string "read")

theorem hhash_ne_empty : "hhash" ≠ "" := by decide

/-- `hhash == "a"`. -/
def byHost : QueryNode := .compare ⟨"hhash", hhash_ne_empty⟩ .eq (.string "a")

end Uniform

end DFTracer.Reader
