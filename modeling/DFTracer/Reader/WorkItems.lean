/-
# Work items

The kept chunks of a file are handed out as work items, each a byte range of consecutive chunks.
An item that begins at a later chunk drops the bytes up to its first newline, taking them for the
end of a line that the item before it reads on to. A chunk with a mask of skipped events is an
item of its own.
-/

import DFTracer.Reader.RangePartition

namespace DFTracer.Reader

open Gzip List

/-- A byte and a line window of the user's, zeros for none. -/
structure ClipRange where
  startByte : Nat := 0
  endByte : Nat := 0
  startLine : Nat := 0
  endLine : Nat := 0

namespace ClipRange

def hasLineClip (clip : ClipRange) : Bool := clip.startLine > 0 || clip.endLine > 0

def hasByteClip (clip : ClipRange) : Bool := clip.endByte > clip.startByte

end ClipRange

/-- Which events of a chunk are skipped: the event count of each bucket, and whether it
is kept. -/
structure SubMask where
  eventCounts : List Nat
  keep : List Bool

structure ArrowWorkItem where
  startByte : Nat := 0
  endByte : Nat := 0
  startAtCheckpoint : Bool := false
  endAtCheckpoint : Bool := false
  chunkPruneOnly : Bool := false
  startLine : Nat := 0
  endLine : Nat := 0
  subEventCounts : List Nat := []
  subKeep : List Bool := []

namespace IndexedFile

/-- The chunks of a file are its members. -/
def totalChunks (f : IndexedFile) : Nat := f.cachedMembers.length

def chunkStartByte (f : IndexedFile) (cidx : Nat) : Nat :=
  (f.cachedMembers[cidx]?).elim 0 GzipMemberRecord.ucOffset

def chunkEndByte (f : IndexedFile) (cidx : Nat) : Nat :=
  (f.cachedMembers[cidx]?).elim 0 fun span => span.ucOffset + span.ucSize

def chunkFirstLine (f : IndexedFile) (cidx : Nat) : Nat :=
  (f.cachedMembers[cidx]?).elim 0 GzipMemberRecord.firstLineNum

def chunkLastLine (f : IndexedFile) (cidx : Nat) : Nat :=
  (f.cachedMembers[cidx]?).elim 0 GzipMemberRecord.lastLineNum

end IndexedFile

/-- How many of the kept chunks go into one item: at most `perRange`, and only while each
follows the one before it. -/
def groupSize : Nat → List Nat → Nat
  | 0, _ => 0
  | _ + 1, [] => 0
  | _ + 1, [_] => 1
  | perRange + 1, c :: next :: rest =>
    if next = c + 1 then groupSize perRange (next :: rest) + 1 else 1

/-- The item of the chunks from `scidx` to `ecidx`, unless the user's window leaves
nothing of it. `more` says whether kept chunks are left after it. -/
def workItem (f : IndexedFile) (filePureMatch : Bool) (clip : ClipRange) (scidx ecidx : Nat)
    (more : Bool) : Option ArrowWorkItem :=
  if clip.hasLineClip then
    let itemStart := max (if clip.startLine > 0 then clip.startLine else 1) (f.chunkFirstLine scidx)
    let itemEnd := if clip.endLine > 0 then min clip.endLine (f.chunkLastLine ecidx)
      else f.chunkLastLine ecidx
    if itemStart > itemEnd then none
    else some { chunkPruneOnly := filePureMatch, startLine := itemStart, endLine := itemEnd }
  else
    let startByte := f.chunkStartByte scidx
    let endByte := f.chunkEndByte ecidx
    let clipsStart := clip.hasByteClip && startByte < clip.startByte
    let clipsEnd := clip.hasByteClip && endByte > clip.endByte
    let item : ArrowWorkItem :=
      { startByte := if clipsStart then clip.startByte else startByte
        endByte := if clipsEnd then clip.endByte else endByte
        startAtCheckpoint := !clipsStart && scidx ≥ 1
        endAtCheckpoint := !clipsEnd && more
        chunkPruneOnly := filePureMatch }
    if clip.hasByteClip && item.startByte ≥ item.endByte then none else some item

/-- The loop of `emit_work_items`: one group of kept chunks after another. -/
def emitGroups (f : IndexedFile) (filePureMatch : Bool) (clip : ClipRange) (perRange : Nat) :
    Nat → List Nat → List ArrowWorkItem
  | 0, _ => []
  | _ + 1, [] => []
  | fuel + 1, scidx :: rest =>
    let size := groupSize perRange (scidx :: rest)
    let ecidx := ((scidx :: rest).take size).getLastD scidx
    let left := (scidx :: rest).drop size
    (workItem f filePureMatch clip scidx ecidx (!left.isEmpty)).toList
      ++ emitGroups f filePureMatch clip perRange fuel left

/-- `emit_work_items`: as many items as workers, of equally many chunks. -/
def emitWorkItems (f : IndexedFile) (keepChunks : List Nat) (filePureMatch : Bool)
    (maxWorkers : Nat) (clip : ClipRange) : List ArrowWorkItem :=
  let targetRanges := max 1 maxWorkers
  let perRange := max 1 ((keepChunks.length + targetRanges - 1) / targetRanges)
  emitGroups f filePureMatch clip perRange keepChunks.length keepChunks

/-- The item of one chunk with a mask. -/
def maskedItem (f : IndexedFile) (filePureMatch : Bool) (cidx : Nat) (mask : SubMask) :
    ArrowWorkItem where
  startByte := f.chunkStartByte cidx
  endByte := f.chunkEndByte cidx
  startAtCheckpoint := cidx ≥ 1
  endAtCheckpoint := cidx + 1 < f.totalChunks
  chunkPruneOnly := filePureMatch
  subEventCounts := mask.eventCounts
  subKeep := mask.keep

/-- `enumerate_work_items` of one indexed file: the chunks with a mask one by one, the
others in groups. -/
def enumerateWorkItems (f : IndexedFile) (keepChunks : List Nat) (masks : Nat → Option SubMask)
    (filePureMatch : Bool) (maxWorkers : Nat) : List ArrowWorkItem :=
  keepChunks.filterMap (fun cidx => (masks cidx).map (maskedItem f filePureMatch cidx))
    ++ emitWorkItems f (keepChunks.filter fun cidx => (masks cidx).isNone) filePureMatch maxWorkers {}

/-- The lines of a span that the loop of `read_arrow` goes through: of the first span of
an item begun at a checkpoint, those after its first newline. -/
def spanLines (stripFirst : Bool) (chunk : Bytes) : List Bytes :=
  if stripFirst && newline ∈ chunk then lines (afterFirstNewline chunk) else lines chunk

/-- The loop of `read_arrow` over the spans of its stream. -/
def readSpans (strip : Bool) : Nat → GzipLineByteStream → Except ReaderError (List Bytes)
  | 0, _ => .ok []
  | fuel + 1, s =>
    if s.isFinished then .ok []
    else
      match s.read with
      | .error e => .error e
      | .ok (chunk, s) =>
        if chunk.isEmpty then .ok []
        else
          match readSpans false fuel s with
          | .error e => .error e
          | .ok rest => .ok (spanLines strip chunk ++ rest)

/-- The lines that `read_arrow` goes through for the byte range of an item, when no query
drops any. Every span but the last takes something off the content. -/
def readArrow (f : IndexedFile) (bufferSize : Nat) (item : ArrowWorkItem) :
    Except ReaderError (List Bytes) :=
  let maxBytes := f.getMaxBytes
  let endByte := if item.endByte = 0 || item.endByte > maxBytes then maxBytes else item.endByte
  if item.startByte ≥ maxBytes then .ok []
  else
    readSpans (item.startByte > 0 && item.startAtCheckpoint) (maxBytes + 2)
      (.ensureInitialized f bufferSize item.endAtCheckpoint item.startByte endByte)

/-- Read items one after the other. -/
def readItems (f : IndexedFile) (bufferSize : Nat) :
    List ArrowWorkItem → Except ReaderError (List Bytes)
  | [] => .ok []
  | item :: items =>
    match readArrow f bufferSize item with
    | .error e => .error e
    | .ok out =>
      match readItems f bufferSize items with
      | .error e => .error e
      | .ok rest => .ok (out ++ rest)

/-! ## What a work item reads

A range that is read on to the end of its last line ends where the first line after it
begins. It gets there when its last buffer holds a line end before the end of the range,
or the range ends with the file: a buffer without a line end gives an empty span, and
the item stops at that. -/

open Gzip GzipLineByteStream

/-- The first line start from a position on. -/
def lineFrom (t : Bytes) (x : Nat) : Nat :=
  if lineStart t x = x then x else x + (throughFirstNewline (t.drop x)).length

theorem le_lineFrom (t : Bytes) (x : Nat) : x ≤ lineFrom t x := by
  unfold lineFrom
  split
  · exact Nat.le_refl x
  · exact Nat.le_add_right _ _

theorem length_throughFirstNewline_le (bytes : Bytes) :
    (throughFirstNewline bytes).length ≤ bytes.length := by
  have hsplit := congrArg List.length (throughFirstNewline_append bytes)
  rw [length_append] at hsplit
  omega

variable {t : Bytes} {x : Nat} {s : GzipLineByteStream} {spans : List Bytes} {chunk : Bytes}
  {rest : List Bytes} {q : Nat}

theorem lineFrom_le (hx : x ≤ t.length) : lineFrom t x ≤ t.length := by
  have hle := length_throughFirstNewline_le (t.drop x)
  rw [length_drop] at hle
  unfold lineFrom
  split <;> omega

theorem lineFrom_length (t : Bytes) : lineFrom t t.length = t.length :=
  Nat.le_antisymm (lineFrom_le (Nat.le_refl _)) (le_lineFrom _ _)

/-- With a newline after it, a position is followed by the start of a line. -/
theorem lineStart_lineFrom {y : Nat} (h : newline ∈ slice t x y) :
    lineStart t (lineFrom t x) = lineFrom t x := by
  unfold lineFrom
  by_cases hx : lineStart t x = x
  · rw [if_pos hx, hx]
  · rw [if_neg hx]
    have hmem : newline ∈ t.drop x := mem_of_mem_take h
    have hlt : x < t.length := by
      by_contra hge
      rw [drop_of_length_le (Nat.not_lt.mp hge)] at hmem
      exact not_mem_nil hmem
    have hlast := throughFirstNewline_getLast? hmem
    have hsplit : t = (t.take x ++ throughFirstNewline (t.drop x)) ++ afterFirstNewline (t.drop x) := by
      rw [append_assoc, throughFirstNewline_append, take_append_drop]
    have hends := lineStart_of_ends hsplit (.inr (by rw [getLast?_append, hlast]; rfl))
    rw [length_append, List.length_take, Nat.min_eq_left (Nat.le_of_lt hlt)] at hends
    exact hends

/-- Where a buffer begins when the range from `q` to `y` is read: at `q`, and wherever the
line begins that a full buffer before `y` ended in. -/
inductive BufferStart (t : Bytes) (bufferSize y : Nat) : Nat → Nat → Prop
  | here (q : Nat) : BufferStart t bufferSize y q q
  | next {q p : Nat} (full : q + bufferSize < y) (line : q < lineStart t (q + bufferSize))
      (rest : BufferStart t bufferSize y (lineStart t (q + bufferSize)) p) :
      BufferStart t bufferSize y q p

/-- The last buffer of the range from `q` to `y` holds what is needed to reach the end of
its last line: the end of the file, or a line end before `y` and, unless a line ends at
`y`, the rest of the line that goes on, which is read only with the extension. -/
def Reaches (t : Bytes) (bufferSize : Nat) (extend : Bool) (q y : Nat) : Prop :=
  ∃ p, BufferStart t bufferSize y q p ∧ y ≤ p + bufferSize ∧
    (y = t.length ∨ p < lineStart t y ∧
      (lineStart t y = y ∨
        extend = true ∧ newline ∈ slice t y (lineStart t y + bufferSize)))

section

variable {t : Bytes} {bufferSize : Nat} {extend : Bool} {q y : Nat}

/-- In the last buffer. -/
theorem reaches_iff_of_le (last : y ≤ q + bufferSize) :
    Reaches t bufferSize extend q y ↔ y = t.length ∨ q < lineStart t y ∧
      (lineStart t y = y ∨
        extend = true ∧ newline ∈ slice t y (lineStart t y + bufferSize)) := by
  constructor
  · rintro ⟨p, hp, -, hends⟩
    cases hp with
    | here => exact hends
    | next full line rest => exact absurd full (Nat.not_lt.mpr last)
  · intro hends
    exact ⟨q, .here q, last, hends⟩

/-- In a buffer before it. -/
theorem reaches_iff_of_lt (full : q + bufferSize < y) :
    Reaches t bufferSize extend q y ↔ q < lineStart t (q + bufferSize) ∧
      Reaches t bufferSize extend (lineStart t (q + bufferSize)) y := by
  constructor
  · rintro ⟨p, hp, hlast, hends⟩
    cases hp with
    | here => exact absurd hlast (Nat.not_le.mpr full)
    | next _ line rest => exact ⟨line, p, rest, hlast, hends⟩
  · rintro ⟨line, p, rest, hlast, hends⟩
    exact ⟨p, .next full line rest, hlast, hends⟩

end

/-- The spans an item gets out of its stream, up to an empty one. -/
inductive Spans : GzipLineByteStream → List Bytes → Prop
  | finished {s : GzipLineByteStream} (done : s.isFinished = true) : Spans s []
  | last {s s' : GzipLineByteStream} (running : s.isFinished = false)
      (read : s.read = .ok ([], s')) : Spans s []
  | more {s s' : GzipLineByteStream} {chunk : Bytes} {rest : List Bytes}
      (running : s.isFinished = false) (read : s.read = .ok (chunk, s')) (some : chunk ≠ [])
      (next : Spans s' rest) : Spans s (chunk :: rest)

/-- The lines of an item's spans. -/
def spansLines (strip : Bool) : List Bytes → List Bytes
  | [] => []
  | chunk :: rest => spanLines strip chunk ++ rest.flatMap lines

theorem Spans.readSpans (h : Spans s spans)
    (strip : Bool) {fuel : Nat} (enough : spans.length < fuel) :
    Reader.readSpans strip fuel s = .ok (spansLines strip spans) := by
  induction h generalizing strip fuel with
  | finished done =>
    obtain ⟨fuel, rfl⟩ := Nat.exists_eq_succ_of_ne_zero (Nat.ne_zero_of_lt enough)
    rw [Reader.readSpans, if_pos done]
    rfl
  | last running read =>
    obtain ⟨fuel, rfl⟩ := Nat.exists_eq_succ_of_ne_zero (Nat.ne_zero_of_lt enough)
    rw [Reader.readSpans, running, read]
    rfl
  | @more s s' chunk rest running read some _ ih =>
    obtain ⟨fuel, rfl⟩ := Nat.exists_eq_succ_of_ne_zero (Nat.ne_zero_of_lt enough)
    have hchunk : chunk.isEmpty = false := isEmpty_eq_false_iff.mpr some
    have hrest := ih false (Nat.lt_of_succ_lt_succ enough)
    have hlines : spansLines false rest = rest.flatMap lines := by
      cases rest <;> rfl
    rw [Reader.readSpans, running, read]
    simp only [hchunk, hrest]
    rw [hlines]
    rfl

/-- Every span but the last ends a line. -/
def LineSpans (spans : List Bytes) : Prop :=
  ∀ span ∈ spans.dropLast, span.getLast? = some newline

theorem LineSpans.tail (h : LineSpans (chunk :: rest)) :
    LineSpans rest := by
  intro span hspan
  cases rest with
  | nil => exact absurd hspan not_mem_nil
  | cons next rest =>
    apply h
    exact mem_cons_of_mem _ hspan

theorem LineSpans.flatMap_lines (h : LineSpans spans) :
    spans.flatMap lines = lines spans.flatten := by
  induction spans with
  | nil => rfl
  | cons chunk rest ih =>
    rw [flatMap_cons, flatten_cons, ih h.tail]
    cases rest with
    | nil => rw [flatten_nil, append_nil]; exact append_nil _
    | cons next rest =>
      have hlast : chunk.getLast? = some newline :=
        h chunk (by
          exact mem_cons_self)
      exact (lines_append (.inr (.inr hlast))).symm

/-- What is left of bytes that end a line ends it too, or is empty. -/
theorem afterFirstNewline_ends {bytes : Bytes} (h : bytes.getLast? = some newline) :
    afterFirstNewline bytes = [] ∨ (afterFirstNewline bytes).getLast? = some newline := by
  by_cases hempty : afterFirstNewline bytes = []
  · exact .inl hempty
  · right
    rw [← throughFirstNewline_append bytes, getLast?_append_of_ne_nil _ hempty] at h
    exact h

/-- Only the first newline of all decides what is stripped. -/
theorem LineSpans.spansLines (h : LineSpans spans) (strip : Bool) :
    Reader.spansLines strip spans = spanLines strip spans.flatten := by
  cases spans with
  | nil => cases strip <;> rfl
  | cons chunk rest =>
    have hrest := h.tail.flatMap_lines
    cases rest with
    | nil =>
      rw [Reader.spansLines, flatMap_nil, append_nil, flatten_cons, flatten_nil, append_nil]
    | cons next rest =>
      have hlast : chunk.getLast? = some newline :=
        h chunk (by
          exact mem_cons_self)
      have hmem : newline ∈ chunk := mem_of_getLast? hlast
      have hflat : (chunk :: next :: rest).flatten = chunk ++ (next :: rest).flatten :=
        flatten_cons
      rw [Reader.spansLines, hrest, hflat]
      generalize (next :: rest).flatten = more
      unfold spanLines
      cases strip with
      | false =>
        exact (lines_append (.inr (.inr hlast))).symm
      | true =>
        simp only [hmem, mem_append_left more hmem]
        rw [afterFirstNewline_append_left hmem]
        exact (lines_append (atLineEnd_of_ends (afterFirstNewline_ends hlast))).symm

/-! ### The stream of an item -/

variable {f : IndexedFile}

/-- The extension plays no part before the end of the range. -/
theorem read_extend (more : s.currentPosition < s.targetEndBytes) (extend : Bool) :
    ({ s with extendToLineBoundary := extend } : GzipLineByteStream).read
      = s.read.map fun out => (out.1, { out.2 with extendToLineBoundary := extend }) := by
  have hmore : ¬ s.currentPosition ≥ s.targetEndBytes := Nat.not_le.mpr more
  unfold GzipLineByteStream.read readLineAlignedData
  dsimp only
  rw [if_neg hmore, if_neg hmore]
  by_cases hdone : s.isFinished = true
  · rw [if_pos hdone, if_pos hdone]
    rfl
  · rw [if_neg hdone, if_neg hdone]
    by_cases hlong : s.partialLineBuffer.length > s.bufferSize
    · rw [if_pos hlong, if_pos hlong]
      rfl
    · rw [if_neg hlong, if_neg hlong]
      generalize (if min (s.targetEndBytes - s.currentPosition)
        (s.bufferSize - s.partialLineBuffer.length) > 0 then _ else _) = served
      by_cases hnone : (decide (min (s.targetEndBytes - s.currentPosition)
          (s.bufferSize - s.partialLineBuffer.length) > 0) && served.1.isEmpty) = true
      · rw [if_pos hnone, if_pos hnone]
        rfl
      · rw [if_neg hnone, if_neg hnone]
        rfl

theorem slice_min_length (t : Bytes) (a b : Nat) : slice t a (min b t.length) = slice t a b := by
  by_cases h : b ≤ t.length
  · rw [Nat.min_eq_left h]
  · rw [Nat.min_eq_right (Nat.le_of_not_le h), slice, slice,
      take_of_length_le (by rw [length_drop]),
      take_of_length_le (by rw [length_drop]; omega)]

theorem throughFirstNewline_drop (t : Bytes) (x : Nat) :
    throughFirstNewline (t.drop x)
      = slice t x (x + (throughFirstNewline (t.drop x)).length) := by
  have htake := congrArg (List.take (throughFirstNewline (t.drop x)).length)
    (throughFirstNewline_append (t.drop x))
  rw [take_left] at htake
  rw [slice, Nat.add_sub_cancel_left]
  exact htake

/-- What is read past the end of a range that holds the begun line since `q`. -/
def pastEnd (f : IndexedFile) (extend : Bool) (bufferSize q y : Nat) : Bytes :=
  if extend = true ∧ q < y ∧ y < f.getMaxBytes ∧ newline ∈ slice f.content y (q + bufferSize) then
    slice f.content q (lineFrom f.content y)
  else []

theorem readPastEnd_spec (h : Reading f { s with extendToLineBoundary := false } q)
    (ended : s.currentPosition = s.targetEndBytes) :
    ∃ s', s.read = .ok (pastEnd f s.extendToLineBoundary s.bufferSize q s.targetEndBytes, s') ∧
      s'.isFinished = true := by
  have running : s.isFinished = false := h.running
  have hstart : q ≤ s.currentPosition := h.start
  have hfits : s.currentPosition - q ≤ s.bufferSize := h.fits
  have hbegun : s.partialLineBuffer = slice f.content q s.currentPosition := h.begun
  have hmax : s.maxFileBytes = f.getMaxBytes := h.maxBytes
  have hinFile : s.targetEndBytes ≤ f.getMaxBytes := h.inFile
  have hcursor : Cursor f s.inflater s.currentPosition := h.cursor
  have hline : lineStart f.content s.currentPosition ≤ q := lineStart_le_of_no_newline h.oneLine
  have hlen : f.content.length = f.getMaxBytes := rfl
  have hpartial : s.partialLineBuffer.length = s.currentPosition - q := by
    rw [hbegun, length_slice (by omega)]
  rw [GzipLineByteStream.read, running, if_neg Bool.false_ne_true, readLineAlignedData,
    if_pos (Nat.le_of_eq ended.symm), readPastEnd, ← ended]
  by_cases hext : s.extendToLineBoundary = true ∧ q < s.currentPosition
      ∧ s.currentPosition < f.getMaxBytes
  · obtain ⟨hextend, hbegins, hinside⟩ := hext
    have hcond : (s.extendToLineBoundary && !s.partialLineBuffer.isEmpty
        && s.currentPosition < s.maxFileBytes
        && s.partialLineBuffer.length ≤ s.bufferSize) = true := by
      have hsome : s.partialLineBuffer.isEmpty = false := by
        rw [isEmpty_eq_false_iff, ← length_pos_iff]
        omega
      simp only [hextend, hsome, hmax, hinside, hpartial, hfits, Bool.not_false, Bool.and_self,
        decide_true]
    have hread := hcursor.read
      (min (s.bufferSize - s.partialLineBuffer.length) (s.maxFileBytes - s.currentPosition))
    generalize hserved : s.inflater.read
      (min (s.bufferSize - s.partialLineBuffer.length) (s.maxFileBytes - s.currentPosition)) = served
      at hread
    have hgot : served.1 = slice f.content s.currentPosition (q + s.bufferSize) := by
      rw [hread.1, ← slice_min_length f.content s.currentPosition (q + s.bufferSize)]
      congr 1
      omega
    rw [if_pos hcond]
    simp only [hserved, hgot]
    by_cases hmem : newline ∈ slice f.content s.currentPosition (q + s.bufferSize)
    · have hsome : (slice f.content s.currentPosition (q + s.bufferSize)).isEmpty = false :=
        isEmpty_eq_false_iff.mpr (ne_nil_of_mem hmem)
      have hthrough : throughFirstNewline (slice f.content s.currentPosition (q + s.bufferSize))
          = throughFirstNewline (f.content.drop s.currentPosition) := by
        conv_rhs => rw [← take_append_drop (q + s.bufferSize - s.currentPosition)
          (f.content.drop s.currentPosition)]
        exact (throughFirstNewline_append_left hmem).symm
      have hto : lineFrom f.content s.currentPosition = s.currentPosition
          + (throughFirstNewline (f.content.drop s.currentPosition)).length := by
        rw [lineFrom, if_neg (by omega)]
      have htail : s.partialLineBuffer ++ throughFirstNewline
          (slice f.content s.currentPosition (q + s.bufferSize))
            = slice f.content q (lineFrom f.content s.currentPosition) := by
        rw [hthrough, throughFirstNewline_drop, ← hto, hbegun,
          slice_append hstart (le_lineFrom _ _)]
      simp only [hsome, hmem, htail, pastEnd, hextend, hbegins, hinside]
      exact ⟨_, rfl, rfl⟩
    · have hnone : pastEnd f s.extendToLineBoundary s.bufferSize q s.currentPosition = [] := by
        rw [pastEnd, if_neg fun hall => hmem hall.2.2.2]
      simp only [hnone]
      split
      · exact ⟨_, rfl, rfl⟩
      · exact ⟨_, rfl, rfl⟩
  · have hcond : ¬ (s.extendToLineBoundary && !s.partialLineBuffer.isEmpty
        && s.currentPosition < s.maxFileBytes
        && s.partialLineBuffer.length ≤ s.bufferSize) = true := by
      simp only [Bool.and_eq_true, Bool.not_eq_true', isEmpty_eq_false_iff, decide_eq_true_eq, hmax]
      rintro ⟨⟨⟨hextend, hsome⟩, hinside⟩, -⟩
      apply hext
      rw [← length_pos_iff] at hsome
      exact ⟨hextend, by omega, hinside⟩
    have hnone : pastEnd f s.extendToLineBoundary s.bufferSize q s.currentPosition = [] := by
      rw [pastEnd, if_neg fun hall => hext ⟨hall.1, hall.2.1, hall.2.2.1⟩]
    rw [if_neg hcond, hnone]
    exact ⟨_, rfl, rfl⟩

/-- Where an item stops that begins to read at `q`. -/
structure ItemStops (f : IndexedFile) (bufferSize : Nat) (extend : Bool) (q y e : Nat) : Prop where
  after : q ≤ e
  before : e ≤ lineFrom f.content y
  reaches : e = lineFrom f.content y ↔ Reaches f.content bufferSize extend q y
  line : e = q ∨ lineStart f.content e = e ∨ e = y ∧ y = f.getMaxBytes

/-- The bytes up to the start of a later line end a line. -/
theorem getLast?_slice_lineStart (line : q < lineStart t x)
    (hx : x ≤ t.length) : (slice t q (lineStart t x)).getLast? = some newline := by
  have hle := lineStart_le t x
  have hlen : (slice t q (lineStart t x)).length = lineStart t x - q :=
    length_slice (Nat.le_trans hle hx)
  have hnewline := (lineStart_after_newline t x).resolve_left (by omega)
  rw [getLast?_eq_getElem?, hlen, getElem?_slice, if_pos (by omega),
    show q + (lineStart t x - q - 1) = lineStart t x - 1 by omega]
  exact hnewline

theorem lineSpans_cons (ends : chunk.getLast? = some newline)
    (h : LineSpans rest) : LineSpans (chunk :: rest) := by
  intro span hspan
  cases rest with
  | nil => exact absurd hspan not_mem_nil
  | cons next rest =>
    rw [dropLast_cons_of_ne_nil (cons_ne_nil _ _), mem_cons] at hspan
    rcases hspan with rfl | hspan
    · exact ends
    · exact h span hspan

theorem lineSpans_singleton (chunk : Bytes) : LineSpans [chunk] :=
  fun _ hspan => absurd hspan not_mem_nil

/-- What a stream that reads on from `q` delivers until it stops. -/
def Delivered (f : IndexedFile) (s : GzipLineByteStream) (q : Nat) : Prop :=
  ∃ spans e, Spans s spans ∧ spans.flatten = slice f.content q e ∧ LineSpans spans ∧
    ItemStops f s.bufferSize s.extendToLineBoundary q s.targetEndBytes e

/-- What one read before the end of the range leaves. -/
structure ReadOn (f : IndexedFile) (s s' : GzipLineByteStream) (q : Nat) : Prop where
  reading : Reading f { s' with extendToLineBoundary := false }
    (cutAt f q (min s.targetEndBytes (q + s.bufferSize)))
  target : s'.targetEndBytes = s.targetEndBytes
  size : s'.bufferSize = s.bufferSize
  extend : s'.extendToLineBoundary = s.extendToLineBoundary
  position : s'.currentPosition = min s.targetEndBytes (q + s.bufferSize)

section

variable {s s' : GzipLineByteStream} {q : Nat}

/-- Before the end of the range a read does not look at the extension. -/
theorem read_of_reading (h : Reading f { s with extendToLineBoundary := false } q)
    (more : s.currentPosition < s.targetEndBytes) :
    ∃ s', s.read = .ok (slice f.content q
      (cutAt f q (min s.targetEndBytes (q + s.bufferSize))), s') ∧ ReadOn f s s' q := by
  obtain ⟨s₀, hread₀, hs₀, htarget, hsize, hpos⟩ := h.read more
  have hread := read_extend (s := { s with extendToLineBoundary := false }) more
    s.extendToLineBoundary
  rw [hread₀] at hread
  have hsame : ({ s₀ with extendToLineBoundary := false } : GzipLineByteStream) = s₀ := by
    have hno := hs₀.noExtension
    cases s₀
    cases hno
    rfl
  refine ⟨{ s₀ with extendToLineBoundary := s.extendToLineBoundary }, hread, ?_, htarget, hsize,
    rfl, hpos⟩
  rw [hsame]
  exact hs₀

/-- A buffer that no line ends in stops the stream where it is. -/
theorem delivered_none {s : GzipLineByteStream} (running : s.isFinished = false)
    (read : s.read = .ok ([], s')) (before : q < s.targetEndBytes)
    (stops : ¬ Reaches f.content s.bufferSize s.extendToLineBoundary q s.targetEndBytes) :
    Delivered f s q := by
  have hfrom := le_lineFrom f.content s.targetEndBytes
  refine ⟨[], q, .last running read, (slice_self _ _).symm,
    fun span hspan => absurd hspan not_mem_nil, Nat.le_refl q, by omega, ?_, .inl rfl⟩
  exact iff_of_false (by omega) stops

/-- A last buffer at the end of the file is delivered whole. -/
theorem delivered_file_end (running : s.isFinished = false) (step : ReadOn f s s' q)
    (before : q < s.targetEndBytes) (inFile : s.targetEndBytes ≤ f.getMaxBytes)
    (last : s.targetEndBytes ≤ q + s.bufferSize) (atEnd : s.targetEndBytes = f.getMaxBytes)
    (read : s.read = .ok (slice f.content q
      (cutAt f q (min s.targetEndBytes (q + s.bufferSize))), s')) : Delivered f s q := by
  have hs' := step.reading
  have hpos := step.position
  have hcut : cutAt f q s.targetEndBytes = s.targetEndBytes := if_pos atEnd
  have hfrom : lineFrom f.content s.targetEndBytes = s.targetEndBytes := by
    rw [atEnd]
    exact lineFrom_length f.content
  rw [Nat.min_eq_left last, hcut] at read hs'
  rw [Nat.min_eq_left last] at hpos
  obtain ⟨s'', hend, -⟩ := readPastEnd_spec hs' (hpos.trans step.target.symm)
  have hnone : pastEnd f s'.extendToLineBoundary s'.bufferSize s.targetEndBytes
      s'.targetEndBytes = [] := by
    rw [pastEnd, step.target, if_neg fun hall => Nat.lt_irrefl _ hall.2.1]
  rw [hnone] at hend
  have hsome : slice f.content q s.targetEndBytes ≠ [] := by
    rw [← length_pos_iff, length_slice inFile]
    omega
  refine ⟨[slice f.content q s.targetEndBytes], s.targetEndBytes,
    .more running read hsome (.last hs'.running hend), ?_, lineSpans_singleton _, ?_⟩
  · rw [flatten_cons, flatten_nil, append_nil]
  · refine ⟨by omega, Nat.le_of_eq hfrom.symm, ?_, .inr (.inr ⟨rfl, atEnd⟩)⟩
    rw [reaches_iff_of_le last, hfrom, eq_self_iff_true, true_iff]
    exact .inl atEnd

/-- A last buffer inside the file is delivered up to its last line, and the line that
goes on after it to its end where the extension reaches that far. -/
theorem delivered_line_end (running : s.isFinished = false) (step : ReadOn f s s' q)
    (inFile : s.targetEndBytes ≤ f.getMaxBytes)
    (last : s.targetEndBytes ≤ q + s.bufferSize) (inside : s.targetEndBytes ≠ f.getMaxBytes)
    (line : q < lineStart f.content s.targetEndBytes)
    (read : s.read = .ok (slice f.content q
      (cutAt f q (min s.targetEndBytes (q + s.bufferSize))), s')) : Delivered f s q := by
  have hlen : f.content.length = f.getMaxBytes := rfl
  have hs' := step.reading
  have hpos := step.position
  have hle := lineStart_le f.content s.targetEndBytes
  have hfrom := le_lineFrom f.content s.targetEndBytes
  have hcut : cutAt f q s.targetEndBytes = lineStart f.content s.targetEndBytes := by
    rw [cutAt, if_neg inside, Nat.max_eq_right (by omega)]
  rw [Nat.min_eq_left last, hcut] at read hs'
  rw [Nat.min_eq_left last] at hpos
  obtain ⟨s'', hend, hdone⟩ := readPastEnd_spec hs' (hpos.trans step.target.symm)
  rw [step.target, step.size] at hend
  have hsome : slice f.content q (lineStart f.content s.targetEndBytes) ≠ [] := by
    rw [← length_pos_iff, length_slice (by omega)]
    omega
  have hends : (slice f.content q (lineStart f.content s.targetEndBytes)).getLast?
      = some newline := getLast?_slice_lineStart line inFile
  by_cases htail : s.extendToLineBoundary = true
      ∧ lineStart f.content s.targetEndBytes < s.targetEndBytes
      ∧ s.targetEndBytes < f.getMaxBytes
      ∧ newline ∈ slice f.content s.targetEndBytes
          (lineStart f.content s.targetEndBytes + s.bufferSize)
  · -- the line that goes on is read to its end
    have hpast : pastEnd f s'.extendToLineBoundary s.bufferSize
        (lineStart f.content s.targetEndBytes) s.targetEndBytes
        = slice f.content (lineStart f.content s.targetEndBytes)
            (lineFrom f.content s.targetEndBytes) := by
      rw [step.extend]
      exact if_pos htail
    have htailSome : slice f.content (lineStart f.content s.targetEndBytes)
        (lineFrom f.content s.targetEndBytes) ≠ [] := by
      rw [← length_pos_iff, length_slice (lineFrom_le inFile)]
      omega
    rw [hpast] at hend
    refine ⟨[slice f.content q (lineStart f.content s.targetEndBytes),
        slice f.content (lineStart f.content s.targetEndBytes)
          (lineFrom f.content s.targetEndBytes)],
      lineFrom f.content s.targetEndBytes,
      .more running read hsome (.more hs'.running hend htailSome (.finished hdone)), ?_,
      lineSpans_cons hends (lineSpans_singleton _), by omega, Nat.le_refl _, ?_,
      .inr (.inl (lineStart_lineFrom htail.2.2.2))⟩
    · rw [flatten_cons, flatten_cons, flatten_nil, append_nil,
        slice_append (by omega) (by omega)]
    · rw [reaches_iff_of_le last, eq_self_iff_true, true_iff]
      exact .inr ⟨line, .inr ⟨htail.1, htail.2.2.2⟩⟩
  · have hpast : pastEnd f s'.extendToLineBoundary s.bufferSize
        (lineStart f.content s.targetEndBytes) s.targetEndBytes = [] := by
      rw [step.extend]
      exact if_neg htail
    rw [hpast] at hend
    refine ⟨[slice f.content q (lineStart f.content s.targetEndBytes)],
      lineStart f.content s.targetEndBytes,
      .more running read hsome (.last hs'.running hend), ?_, lineSpans_singleton _,
      by omega, by omega, ?_, .inr (.inl (lineStart_lineStart _ _))⟩
    · rw [flatten_cons, flatten_nil, append_nil]
    · rw [reaches_iff_of_le last]
      constructor
      · intro heq
        exact .inr ⟨line, .inl (by omega)⟩
      · rintro (hend | ⟨-, hat | ⟨hextend, hmem⟩⟩)
        · exact absurd hend inside
        · rw [lineFrom, if_pos hat]
          exact hat
        · by_contra hne
          apply htail
          refine ⟨hextend, ?_, by omega, hmem⟩
          by_contra hnot
          apply hne
          have hat : lineStart f.content s.targetEndBytes = s.targetEndBytes := by omega
          rw [lineFrom, if_pos hat]
          exact hat

/-- A full buffer that a line ends in is delivered up to its last line, before what the
stream delivers from there on. -/
theorem delivered_more (running : s.isFinished = false) (step : ReadOn f s s' q)
    (inFile : s.targetEndBytes ≤ f.getMaxBytes) (more : q + s.bufferSize < s.targetEndBytes)
    (line : q < lineStart f.content (q + s.bufferSize))
    (read : s.read = .ok (slice f.content q (lineStart f.content (q + s.bufferSize)), s'))
    (rest : Delivered f s' (lineStart f.content (q + s.bufferSize))) : Delivered f s q := by
  have hlen : f.content.length = f.getMaxBytes := rfl
  have hle := lineStart_le f.content (q + s.bufferSize)
  obtain ⟨spans, e, hspans, hflat, hcuts, hstops⟩ := rest
  rw [step.size, step.target, step.extend] at hstops
  have hafter := hstops.after
  have hsome : slice f.content q (lineStart f.content (q + s.bufferSize)) ≠ [] := by
    rw [← length_pos_iff, length_slice (by omega)]
    omega
  refine ⟨_, e, .more running read hsome hspans, ?_,
    lineSpans_cons (getLast?_slice_lineStart line (by omega)) hcuts, by omega,
    hstops.before, ?_, ?_⟩
  · rw [flatten_cons, hflat, slice_append (by omega) hafter]
  · rw [reaches_iff_of_lt (by omega), hstops.reaches]
    exact ⟨fun hreaches => ⟨line, hreaches⟩, fun hboth => hboth.2⟩
  · rcases hstops.line with heq | hline
    · right
      left
      rw [heq]
      exact lineStart_lineStart _ _
    · exact .inr hline

end

/-- The spans of an item are the content from where it begins to where it stops. -/
theorem spans_spec (h : Reading f { s with extendToLineBoundary := false } q)
    (more : s.currentPosition < s.targetEndBytes) :
    ∃ spans e, Spans s spans ∧ spans.flatten = slice f.content q e ∧ LineSpans spans ∧
      ItemStops f s.bufferSize s.extendToLineBoundary q s.targetEndBytes e := by
  generalize hleft : s.targetEndBytes - q = left
  induction left using Nat.strongRecOn generalizing s q with
  | ind left ih =>
    have running : s.isFinished = false := h.running
    have hstart : q ≤ s.currentPosition := h.start
    have hinFile : s.targetEndBytes ≤ f.getMaxBytes := h.inFile
    obtain ⟨s', hread, hstep⟩ := read_of_reading h more
    by_cases last : s.targetEndBytes ≤ q + s.bufferSize
    · by_cases heof : s.targetEndBytes = f.getMaxBytes
      · exact delivered_file_end running hstep (by omega) hinFile last heof hread
      by_cases hline : lineStart f.content s.targetEndBytes ≤ q
      · rw [Nat.min_eq_left last, cutAt, if_neg heof, Nat.max_eq_left hline, slice_self] at hread
        refine delivered_none running hread (by omega) ?_
        rw [reaches_iff_of_le last]
        rintro (hend | ⟨hlt, -⟩)
        · exact heof hend
        · omega
      · exact delivered_line_end running hstep hinFile last heof (by omega) hread
    · have hfull : min s.targetEndBytes (q + s.bufferSize) = q + s.bufferSize :=
        Nat.min_eq_right (by omega)
      have hpos := hstep.position
      have hs' := hstep.reading
      rw [hfull, cutAt, if_neg (by omega)] at hread hs'
      by_cases hline : lineStart f.content (q + s.bufferSize) ≤ q
      · rw [Nat.max_eq_left hline, slice_self] at hread
        refine delivered_none running hread (by omega) ?_
        rw [reaches_iff_of_lt (by omega)]
        rintro ⟨hlt, -⟩
        omega
      · rw [Nat.max_eq_right (by omega)] at hread hs'
        refine delivered_more running hstep hinFile (by omega) (by omega) hread ?_
        exact ih (s'.targetEndBytes - lineStart f.content (q + s.bufferSize))
          (by rw [hstep.target]; omega) hs' (by rw [hstep.target]; omega) rfl

end DFTracer.Reader
