/-
# Counting the events of a chunk

The indexer parses the members of a file one after another, each through its last newline; what
follows is carried into the next one, so a line counts in the chunk where it completes. A record
takes part when it is an object with a phase, and data events go into buckets of a fixed size.

The JSON parser is a parameter: where it finds documents in a buffer, and what they hold.
-/

import DFTracer.Indexing.EventRecorder
import DFTracer.Reader.RangePartition

namespace DFTracer.Indexing

open Gzip Query Reader List

/-- A document of `parse_many`: its source text and its root. -/
structure DomDocument where
  start : Nat
  size : Nat
  root : JsonValue

/-- A document of `iterate_many`, read on demand: where it begins and what
`find_field_unordered` gives, nothing on an error. -/
structure OnDemandDocument where
  start : Nat
  findFieldUnordered : String → Option JsonValue

/-- The JSON parser. Documents with an error are left out. -/
structure Simdjson where
  parse : Bytes → Option JsonValue
  parseMany : Bytes → List DomDocument
  iterateMany : Bytes → List OnDemandDocument
  /-- A document begins in the buffer. -/
  parseMany_inside : ∀ buffer, ∀ doc ∈ parseMany buffer, doc.start < buffer.length

/-- The scan of one line: whether a bracket is all it holds besides blanks. -/
def hasBracket : Bool → Bytes → Bool
  | found, [] => found
  | found, b :: rest =>
    if b = 0x20 || b = 0x09 || b = 0x0D then hasBracket found rest
    else if (b = 0x5B || b = 0x5D) && !found then hasBracket true rest
    else false

/-- One line, its newline kept. -/
def stripDelimiterLine (line : Bytes) : Bytes :=
  if hasBracket false (line.filter (· ≠ newline)) then
    line.map fun b => if b = newline then b else 0x20
  else line

/-- `strip_array_delimiters` -/
def stripArrayDelimiters (buffer : Bytes) : Bytes := (lines buffer).flatMap stripDelimiterLine

/-- Where `parse_buffer` goes on line by line: after the line of the last document that
was delivered. -/
def reparseFrom (buffer : Bytes) (covered : Nat) : Nat :=
  if covered > 0 then covered + (throughFirstNewline (buffer.drop covered)).length else 0

/-- The documents of the lines from `pos` on, each parsed by itself. -/
def parseLines (simd : Simdjson) (pos : Nat) : List Bytes → List (Nat × JsonValue)
  | [] => []
  | line :: rest =>
    let text := line.filter (· ≠ newline)
    ((if text.isEmpty then none else simd.parse text).map (pos, ·)).toList
      ++ parseLines simd (pos + line.length) rest

/-- `parse_buffer` on the complete lines of a buffer: what `parse_many` delivers, then
line by line whatever that did not reach. Each root comes with the place it begins. -/
def parseComplete (simd : Simdjson) (buffer : Bytes) : List (Nat × JsonValue) :=
  let docs := simd.parseMany buffer
  let covered := (docs.getLast?.map fun doc => doc.start + doc.size).getD 0
  let delivered := docs.map fun doc => (doc.start, doc.root)
  if covered < buffer.length then
    let pos := reparseFrom buffer covered
    delivered ++ parseLines simd pos (lines (buffer.drop pos))
  else delivered

/-- `parse_buffer`: the roots found and the size of the incomplete line at the end. -/
def parseBuffer (simd : Simdjson) (buffer : Bytes) : List (Nat × JsonValue) × Nat :=
  let parseLen := GzipLineByteStream.throughLastNewline buffer
  if parseLen = 0 then ([], buffer.length)
  else (parseComplete simd (buffer.take parseLen), buffer.length - parseLen)

/-- A data event of a chunk and the position in the file where it was found. -/
structure ObservedEvent where
  pos : Nat
  event : FoldEvent

/-- What the driver has read: how many bytes, and the line begun at their end. -/
structure IndexFoldDriver where
  consumed : Nat := 0
  partialLine : Bytes := []

namespace IndexFoldDriver

/-- `on_chunk`: the data events of one chunk. -/
def onChunk (simd : Simdjson) (driver : IndexFoldDriver) (data : Bytes) :
    List ObservedEvent × IndexFoldDriver :=
  let buffer := stripArrayDelimiters (driver.partialLine ++ data)
  let start := driver.consumed - driver.partialLine.length
  let (roots, truncated) := parseBuffer simd buffer
  let events := roots.filterMap fun (pos, root) =>
    (dataRecord root).map fun event => ⟨start + pos, event⟩
  (events, { consumed := driver.consumed + data.length
             partialLine := buffer.drop (buffer.length - truncated) })

/-- The data events of each chunk. -/
def drive (simd : Simdjson) : IndexFoldDriver → List Bytes → List (List ObservedEvent)
  | _, [] => []
  | driver, data :: rest =>
    let (events, driver) := driver.onChunk simd data
    events :: drive simd driver rest

end IndexFoldDriver

/-- `observe_data` on the sub-chunk buckets, each kept as the events it counted. -/
def observeSubChunk (subChunkEvents : Nat) (buckets : List (List ObservedEvent))
    (event : ObservedEvent) : List (List ObservedEvent) :=
  if subChunkEvents > 0 then
    match buckets.getLast? with
    | none => [[event]]
    | some last =>
      if last.length ≥ subChunkEvents then buckets ++ [[event]]
      else buckets.dropLast ++ [last ++ [event]]
  else buckets

/-- The buckets of a chunk. -/
def subChunkBuckets (subChunkEvents : Nat) (events : List ObservedEvent) :
    List (List ObservedEvent) :=
  events.foldl (observeSubChunk subChunkEvents) []

/-! ## Where the events of a chunk stand

The line carried from one chunk into the next is the line of the file that runs over the
cut, so the events of a chunk stand on lines that end in it: all before the last line
start of the chunk. The buckets hold the events in order, each full but the last. -/

open Gzip Query Reader GzipLineByteStream

/-- Which bytes are newlines. -/
def marks (bytes : Bytes) : List Bool := bytes.map fun b => decide (b = newline)

theorem length_marks (bytes : Bytes) : (marks bytes).length = bytes.length := length_map _

theorem marks_append (a b : Bytes) : marks (a ++ b) = marks a ++ marks b := map_append

theorem marks_drop (bytes : Bytes) (n : Nat) : marks (bytes.drop n) = (marks bytes).drop n :=
  map_drop

variable {a b : Bytes} {found : Nat × JsonValue} {size : Nat}

theorem length_eq_of_marks (h : marks a = marks b) : a.length = b.length := by
  rw [← length_marks a, h, length_marks]

theorem getElem?_eq_newline (h : marks a = marks b) (i : Nat) :
    a[i]? = some newline ↔ b[i]? = some newline := by
  have hmark : ∀ bytes : Bytes, bytes[i]? = some newline ↔ (marks bytes)[i]? = some true := by
    intro bytes
    rw [marks, getElem?_map]
    cases bytes[i]? with
    | none => exact ⟨nofun, nofun⟩
    | some b =>
      rw [Option.map_some, Option.some_inj, Option.some_inj, decide_eq_true_iff]
  rw [hmark a, hmark b, h]

/-- Looking for the last newline only needs the marks. -/
theorem backToLine_congr (h : marks a = marks b) (n : Nat) :
    backToLine a n = backToLine b n := by
  induction n with
  | zero => rfl
  | succ n ih =>
    have hget := getElem?_eq_newline h n
    rw [backToLine, backToLine, ih]
    by_cases hb : b[n]? = some newline
    · rw [if_pos hb, if_pos (hget.mpr hb)]
    · rw [if_neg hb, if_neg fun ha => hb (hget.mp ha)]

theorem marks_stripDelimiterLine (line : Bytes) : marks (stripDelimiterLine line) = marks line := by
  unfold stripDelimiterLine
  split
  · rw [marks, map_map]
    apply map_congr_left
    intro b _
    by_cases hb : b = newline
    · rw [Function.comp_apply, if_pos hb]
    · rw [Function.comp_apply, if_neg hb, decide_eq_false hb]
      rfl
  · rfl

/-- Blanking the bracket lines moves no newline. -/
theorem marks_stripArrayDelimiters (buffer : Bytes) :
    marks (stripArrayDelimiters buffer) = marks buffer := by
  have hlines : ∀ ls : List Bytes, marks (ls.flatMap stripDelimiterLine) = marks ls.flatten := by
    intro ls
    induction ls with
    | nil => rfl
    | cons line rest ih =>
      rw [flatMap_cons, flatten_cons, marks_append, marks_append, ih,
        marks_stripDelimiterLine]
  rw [stripArrayDelimiters, hlines, flatten_lines]

variable {simd : Simdjson}

theorem mem_parseLines {pos : Nat} {ls : List Bytes}
    (h : found ∈ parseLines simd pos ls) : found.1 < pos + ls.flatten.length := by
  induction ls generalizing pos with
  | nil => exact absurd h not_mem_nil
  | cons line rest ih =>
    rw [flatten_cons, length_append]
    rcases mem_append.mp h with h | h
    · obtain ⟨root, hroot, rfl⟩ := Option.map_eq_some_iff.mp (Option.mem_toList.mp h)
      -- only a line that holds something is parsed
      have hsome : line ≠ [] := by
        rintro rfl
        cases hroot
      have hpos := length_pos_iff.mpr hsome
      omega
    · have hrest := ih h
      omega

/-- A document of the complete lines begins in them. -/
theorem mem_parseComplete {buffer : Bytes}
    (h : found ∈ parseComplete simd buffer) : found.1 < buffer.length := by
  have hdelivered : ∀ found ∈ (simd.parseMany buffer).map fun doc => (doc.start, doc.root),
      found.1 < buffer.length := by
    intro found hfound
    obtain ⟨doc, hdoc, rfl⟩ := mem_map.mp hfound
    exact simd.parseMany_inside buffer doc hdoc
  unfold parseComplete at h
  dsimp only at h
  split at h
  · rcases mem_append.mp h with h | h
    · exact hdelivered found h
    · have hpos := mem_parseLines h
      rw [flatten_lines, length_drop] at hpos
      by_contra hpast
      rw [drop_of_length_le (by omega)] at h
      exact not_mem_nil h
  · exact hdelivered found h

theorem mem_parseBuffer {buffer : Bytes}
    (h : found ∈ (parseBuffer simd buffer).1) : found.1 < throughLastNewline buffer := by
  unfold parseBuffer at h
  dsimp only at h
  split at h
  · exact absurd h not_mem_nil
  · have hpos := mem_parseComplete h
    rw [List.length_take] at hpos
    omega

theorem parseBuffer_truncated (simd : Simdjson) (buffer : Bytes) :
    buffer.length - (parseBuffer simd buffer).2 = throughLastNewline buffer := by
  have hle : throughLastNewline buffer ≤ buffer.length := lineStart_le buffer buffer.length
  unfold parseBuffer
  dsimp only
  split
  · omega
  · exact Nat.sub_sub_self hle

/-- The driver has read `n` bytes and holds what they end with after the last newline. -/
structure Carries (t : Bytes) (n : Nat) (driver : IndexFoldDriver) : Prop where
  consumed : driver.consumed = n
  inside : n ≤ t.length
  begun : marks driver.partialLine = marks (slice t (lineStart t n) n)

namespace Carries

variable {t : Bytes} {n : Nat} {driver : IndexFoldDriver} {data : Bytes}

theorem start (t : Bytes) : Carries t 0 {} where
  consumed := rfl
  inside := Nat.zero_le _
  begun := by rw [Nat.le_zero.mp (lineStart_le t 0), slice_self]

/-- The carried line begins where the line of the position does. -/
theorem base (h : Carries t n driver) : driver.consumed - driver.partialLine.length = lineStart t n := by
  have hle := lineStart_le t n
  rw [length_eq_of_marks h.begun, length_slice h.inside, h.consumed]
  omega

/-- The buffer of a chunk is the file from the carried line on, but for blanked
brackets. -/
theorem buffer (h : Carries t n driver) (next : slice t n (n + data.length) = data) :
    marks (stripArrayDelimiters (driver.partialLine ++ data))
      = marks (slice t (lineStart t n) (n + data.length)) := by
  rw [marks_stripArrayDelimiters, marks_append, h.begun, ← marks_append]
  conv_lhs => rw [← next]
  rw [slice_append (lineStart_le t n) (Nat.le_add_right _ _)]

/-- Its complete lines end with the last line that ends in the chunk. -/
theorem parsed (h : Carries t n driver) (next : slice t n (n + data.length) = data)
    (inside : n + data.length ≤ t.length) :
    lineStart t n + throughLastNewline (stripArrayDelimiters (driver.partialLine ++ data))
      = lineStart t (n + data.length) := by
  have hle := lineStart_le t n
  have hmono := lineStart_mono (t := t) (Nat.le_add_right n data.length)
  have hbuffer := h.buffer next
  have hlength : (stripArrayDelimiters (driver.partialLine ++ data)).length
      = n + data.length - lineStart t n := by
    rw [length_eq_of_marks hbuffer, length_slice inside]
  have hslice := backToLine_slice (t := t) (q := lineStart t n) (p := n + data.length)
    (n + data.length - lineStart t n) (by omega)
  rw [show lineStart t n + (n + data.length - lineStart t n) = n + data.length by omega,
    Nat.max_eq_right hmono] at hslice
  rw [throughLastNewline, hlength, backToLine_congr hbuffer, hslice]

theorem onChunk (simd : Simdjson) (h : Carries t n driver)
    (next : slice t n (n + data.length) = data) (inside : n + data.length ≤ t.length) :
    Carries t (n + data.length) (driver.onChunk simd data).2 where
  consumed := congrArg (· + data.length) h.consumed
  inside := inside
  begun := by
    have hparsed := h.parsed next inside
    have hmono := lineStart_mono (t := t) (Nat.le_add_right n data.length)
    have hend := lineStart_le t (n + data.length)
    change marks ((stripArrayDelimiters (driver.partialLine ++ data)).drop
      ((stripArrayDelimiters (driver.partialLine ++ data)).length
        - (parseBuffer simd (stripArrayDelimiters (driver.partialLine ++ data))).2)) = _
    rw [parseBuffer_truncated, marks_drop, h.buffer next, ← marks_drop,
      show throughLastNewline (stripArrayDelimiters (driver.partialLine ++ data))
        = lineStart t (n + data.length) - lineStart t n by omega,
      drop_slice hmono hend inside]

/-- The events of a chunk stand before its last line start, and there are some only if
a line ends in it. -/
theorem mem_onChunk {simd : Simdjson} (h : Carries t n driver)
    (next : slice t n (n + data.length) = data) (inside : n + data.length ≤ t.length)
    {event : ObservedEvent} (mem : event ∈ (driver.onChunk simd data).1) :
    lineStart t event.pos < lineStart t (n + data.length) ∧ newline ∈ data := by
  obtain ⟨found, hfound, hevent⟩ := mem_filterMap.mp mem
  obtain ⟨record, -, rfl⟩ := Option.map_eq_some_iff.mp hevent
  have hparsed := h.parsed next inside
  have hpos := mem_parseBuffer hfound
  have hstart := lineStart_le t (driver.consumed - driver.partialLine.length + found.1)
  have hbase := h.base
  refine ⟨by dsimp only; omega, ?_⟩
  by_contra hnone
  have hsame := lineStart_eq_of_no_newline (t := t) (Nat.le_add_right n data.length)
    fun i hi hlt hnewline =>
      hnone (next ▸ newline_mem_slice.mpr ⟨i, hi, hlt, hnewline⟩)
  omega

end Carries

/-- The events of each chunk of a file, told from the bytes before it. -/
theorem mem_drive {t : Bytes} {chunks : List Bytes} {driver : IndexFoldDriver}
    {n : Nat} (h : Carries t n driver) (split : t.drop n = chunks.flatten) {k : Nat}
    {event : ObservedEvent} (mem : event ∈ (IndexFoldDriver.drive simd driver chunks).getD k []) :
    lineStart t event.pos < lineStart t (n + (chunks.take (k + 1)).flatten.length) ∧
      newline ∈ chunks.getD k [] := by
  induction chunks generalizing driver n k with
  | nil => exact absurd mem not_mem_nil
  | cons data rest ih =>
    have hsize := congrArg List.length split
    rw [length_drop, flatten_cons, length_append] at hsize
    have hinside := h.inside
    have hnext : slice t n (n + data.length) = data := by
      rw [slice, split, flatten_cons, Nat.add_sub_cancel_left, take_left]
    cases k with
    | zero =>
      have hfirst := h.mem_onChunk hnext (by omega) mem
      rw [take_succ_cons, take_zero, flatten_cons, flatten_nil,
        append_nil]
      exact hfirst
    | succ k =>
      have hrest : t.drop (n + data.length) = rest.flatten := by
        rw [← drop_drop, split, flatten_cons, drop_left]
      have hlater := ih (h.onChunk simd hnext (by omega)) hrest mem
      rw [take_succ_cons, flatten_cons, length_append, ← Nat.add_assoc]
      exact hlater

/-- Buckets of events in order, each full but the last. -/
structure Buckets {α : Type} (size : Nat) (buckets : List (List α)) (events : List α) : Prop where
  order : buckets.flatten = events
  nonempty : ∀ bucket ∈ buckets, bucket ≠ []
  full : ∀ bucket ∈ buckets.dropLast, bucket.length = size
  fits : ∀ bucket ∈ buckets, bucket.length ≤ size

/-- One event more. -/
theorem Buckets.observe {buckets : List (List ObservedEvent)}
    {events : List ObservedEvent} (h : Buckets size buckets events) (positive : 0 < size)
    (event : ObservedEvent) :
    Buckets size (observeSubChunk size buckets event) (events ++ [event]) := by
  unfold observeSubChunk
  rw [if_pos positive]
  rcases eq_nil_or_concat buckets with rfl | ⟨before, last, rfl⟩
  · refine ⟨by rw [← h.order]; rfl, ?_, fun bucket hbucket => absurd hbucket not_mem_nil, ?_⟩
    · intro bucket hbucket
      rw [mem_singleton.mp hbucket]
      exact cons_ne_nil _ _
    · intro bucket hbucket
      rw [mem_singleton.mp hbucket]
      exact positive
  · have horder : before.flatten ++ last = events := by
      rw [← h.order, concat_eq_append, flatten_append, flatten_singleton]
    have hlast : (before.concat last).getLast? = some last := by
      rw [concat_eq_append, getLast?_append]
      rfl
    have hbefore : (before.concat last).dropLast = before := by
      rw [concat_eq_append, dropLast_concat]
    rw [concat_eq_append] at *
    have hmem : last ∈ before ++ [last] := mem_append_right _ (mem_singleton.mpr rfl)
    have hfull := h.full
    have hfits := h.fits last hmem
    rw [hbefore] at hfull
    rw [hlast]
    dsimp only
    by_cases hfilled : last.length ≥ size
    · rw [if_pos hfilled]
      refine ⟨?_, ?_, ?_, ?_⟩
      · rw [flatten_append, flatten_singleton, h.order]
      · intro bucket hbucket
        rcases mem_append.mp hbucket with hbucket | hbucket
        · exact h.nonempty bucket hbucket
        · rw [mem_singleton.mp hbucket]
          exact cons_ne_nil _ _
      · intro bucket hbucket
        rw [dropLast_concat] at hbucket
        rcases mem_append.mp hbucket with hbucket | hbucket
        · exact hfull bucket hbucket
        · rw [mem_singleton.mp hbucket]
          omega
      · intro bucket hbucket
        rcases mem_append.mp hbucket with hbucket | hbucket
        · exact h.fits bucket hbucket
        · rw [mem_singleton.mp hbucket]
          exact positive
    · rw [if_neg hfilled, hbefore]
      refine ⟨?_, ?_, ?_, ?_⟩
      · rw [flatten_append, flatten_singleton, ← append_assoc, horder]
      · intro bucket hbucket
        rcases mem_append.mp hbucket with hbucket | hbucket
        · exact h.nonempty bucket (mem_append_left _ hbucket)
        · rw [mem_singleton.mp hbucket]
          exact append_ne_nil_of_right_ne_nil _ (cons_ne_nil _ _)
      · intro bucket hbucket
        rw [dropLast_concat] at hbucket
        exact hfull bucket hbucket
      · intro bucket hbucket
        rcases mem_append.mp hbucket with hbucket | hbucket
        · exact h.fits bucket (mem_append_left _ hbucket)
        · rw [mem_singleton.mp hbucket, length_append, length_singleton]
          omega

theorem Buckets.map {α β : Type} (g : α → β) {buckets : List (List α)} {events : List α}
    (h : Buckets size buckets events) : Buckets size (buckets.map (List.map g)) (events.map g) where
  order := by rw [← h.order, map_flatten]
  nonempty := by
    intro bucket hbucket
    obtain ⟨source, hsource, rfl⟩ := mem_map.mp hbucket
    exact fun hnil => h.nonempty source hsource (map_eq_nil_iff.mp hnil)
  full := by
    intro bucket hbucket
    rw [← map_dropLast] at hbucket
    obtain ⟨source, hsource, rfl⟩ := mem_map.mp hbucket
    rw [length_map]
    exact h.full source hsource
  fits := by
    intro bucket hbucket
    obtain ⟨source, hsource, rfl⟩ := mem_map.mp hbucket
    rw [length_map]
    exact h.fits source hsource

theorem subChunkBuckets_spec (positive : 0 < size) (events : List ObservedEvent) :
    Buckets size (subChunkBuckets size events) events := by
  have hfold : ∀ (seen : List ObservedEvent) (buckets : List (List ObservedEvent)),
      Buckets size buckets seen →
        Buckets size (events.foldl (observeSubChunk size) buckets) (seen ++ events) := by
    induction events with
    | nil =>
      intro seen buckets h
      rw [append_nil]
      exact h
    | cons event rest ih =>
      intro seen buckets h
      rw [append_cons]
      exact ih _ _ (h.observe positive event)
  exact hfold [] [] ⟨rfl, nofun, nofun, nofun⟩

/-- Without a size nothing is counted. -/
theorem subChunkBuckets_zero (events : List ObservedEvent) : subChunkBuckets 0 events = [] := by
  induction events with
  | nil => rfl
  | cons event rest ih => exact ih

end DFTracer.Indexing
