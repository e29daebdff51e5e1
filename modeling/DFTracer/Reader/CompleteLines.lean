/-
# One line at a time

The line stream cuts the spans of a line-aligned stream into lines, keeping an
unfinished one until its newline arrives. With a line range it drops the lines
outside it; without one every line is handed out.
-/

import DFTracer.Reader.ByteRanges

namespace DFTracer.Reader

open Gzip List

structure LineStream where
  underlyingStream : GzipLineByteStream
  /-- What is left of the current span. -/
  currentSpan : Bytes := []
  lineAccumulator : Bytes := []
  currentLine : Bytes := []
  isFinished : Bool := false
  hasPendingLine : Bool := false
  currentLineNumber : Nat := 1
  startLine : Nat := 0
  endLine : Nat := 0

namespace LineStream

def done (s : LineStream) : Bool := s.isFinished && !s.hasPendingLine

def isBeyondRange (s : LineStream) : Bool := s.endLine > 0 && s.currentLineNumber > s.endLine

def shouldOutputCurrentLine (s : LineStream) : Bool :=
  if s.startLine = 0 && s.endLine = 0 then true
  else
    let afterStart := s.startLine = 0 || s.currentLineNumber ≥ s.startLine
    let beforeEnd := s.endLine = 0 || s.currentLineNumber ≤ s.endLine
    afterStart && beforeEnd

inductive ParseResult where
  | hasLine
  | needMoreData
  | finished
deriving DecidableEq

/-- Take a line that ends in the current span; `true` when it is handed out. -/
def processCompleteLine (s : LineStream) : Bool × LineStream :=
  let shouldOutput := s.shouldOutputCurrentLine
  let s := { s with
    currentLine := s.lineAccumulator ++ throughFirstNewline s.currentSpan
    lineAccumulator := []
    currentSpan := afterFirstNewline s.currentSpan }
  if s.isBeyondRange then (false, { s with isFinished := true })
  else if shouldOutput then
    (true, { s with currentLineNumber := s.currentLineNumber + 1, hasPendingLine := true })
  else (false, { s with currentLineNumber := s.currentLineNumber + 1, currentLine := [] })

/-- The loop of `try_parse_next_line` over the newlines of the current span. -/
def parseLoop : Nat → LineStream → ParseResult × LineStream
  | 0, s => (.needMoreData, s)
  | fuel + 1, s =>
    if s.currentSpan.isEmpty then (.needMoreData, s)
    else if newline ∈ s.currentSpan then
      let (output, s) := s.processCompleteLine
      if output then (.hasLine, s) else parseLoop fuel s
    else (.needMoreData,
      { s with lineAccumulator := s.lineAccumulator ++ s.currentSpan, currentSpan := [] })

def tryParseNextLine (s : LineStream) : ParseResult × LineStream :=
  if s.isBeyondRange then (.finished, { s with isFinished := true })
  else s.parseLoop (s.currentSpan.length + 1)

/-- The unfinished line at the end of the stream, if it is to be handed out. -/
def handleEofLine (s : LineStream) : Bool × LineStream :=
  if s.lineAccumulator.isEmpty then (false, s)
  else
    let s := { s with currentLine := s.lineAccumulator, lineAccumulator := [] }
    if s.shouldOutputCurrentLine && !s.isBeyondRange then
      (true, { s with hasPendingLine := true, currentLineNumber := s.currentLineNumber + 1 })
    else (false, s)

/-- The loop of `read_async`, one span after another. -/
def readLoop : Nat → LineStream → Except ReaderError (Bytes × LineStream)
  | 0, s => .ok ([], s)
  | fuel + 1, s =>
    match s.tryParseNextLine with
    | (.hasLine, s) => .ok (s.currentLine, s)
    | (.finished, s) => .ok ([], s)
    | (.needMoreData, s) =>
      if s.underlyingStream.isFinished then
        let (output, s) := s.handleEofLine
        if output then .ok (s.currentLine, s) else .ok ([], { s with isFinished := true })
      else
        match s.underlyingStream.read with
        | .error e => .error e
        | .ok (span, underlyingStream) =>
          let s := { s with underlyingStream, currentSpan := span }
          if span.isEmpty then .ok ([], { s with isFinished := true })
          else readLoop fuel s

/-- `read_async`: the next line, empty when there is none. Every round but the last
takes something off the content. -/
def read (s : LineStream) : Except ReaderError (Bytes × LineStream) :=
  if s.isFinished then .ok ([], s) else s.readLoop (s.underlyingStream.maxFileBytes + 1)

/-- The loop of the stream's readers. -/
def drain : Nat → LineStream → Except ReaderError (List Bytes)
  | 0, _ => .ok []
  | fuel + 1, s =>
    if s.done then .ok []
    else
      match s.read with
      | .error e => .error e
      | .ok (line, s) =>
        if line.isEmpty then .ok []
        else
          match drain fuel s with
          | .error e => .error e
          | .ok rest => .ok (line :: rest)

end LineStream

/-- Read a range line by line. -/
def readLineBytes (f : IndexedFile) (bufferSize startBytes endBytes : Nat) :
    Except ReaderError (List Bytes) :=
  LineStream.drain (f.getMaxBytes + 1)
    { underlyingStream := .ensureInitialized f bufferSize false startBytes endBytes }

/-! ## The lines of a stream

The line stream hands out the lines that end in a newline, across however many spans
they reach. A last line without a newline is dropped: the stream below gives its last
bytes before it says that it is done, so the rule for the end of the stream is never
reached with bytes to hand out. -/

/-! ### Complete lines -/

/-- The lines that end in a newline, given the bytes of the line already begun. -/
def completeFrom (begun : Bytes) : Bytes → List Bytes
  | [] => []
  | b :: rest =>
    if b = newline then (begun ++ [b]) :: completeFrom [] rest else completeFrom (begun ++ [b]) rest

def completeLines (bytes : Bytes) : List Bytes := completeFrom [] bytes

variable {bytes : Bytes}

theorem completeFrom_of_mem (begun : Bytes) (h : newline ∈ bytes) :
    completeFrom begun bytes
      = (begun ++ throughFirstNewline bytes) :: completeFrom [] (afterFirstNewline bytes) := by
  induction bytes generalizing begun with
  | nil => exact absurd h not_mem_nil
  | cons b rest ih =>
    rw [completeFrom, throughFirstNewline, afterFirstNewline]
    by_cases hb : b = newline
    · rw [if_pos hb, if_pos hb, if_pos hb]
    · rw [if_neg hb, if_neg hb, if_neg hb,
        ih (begun ++ [b]) ((mem_cons.mp h).resolve_left (Ne.symm hb)), append_assoc,
        singleton_append]

theorem completeFrom_of_not_mem (begun : Bytes) (h : newline ∉ bytes) :
    completeFrom begun bytes = [] := by
  induction bytes generalizing begun with
  | nil => rfl
  | cons b rest ih =>
    rw [mem_cons, not_or] at h
    rw [completeFrom, if_neg (Ne.symm h.1), ih _ h.2]

variable {a b : Bytes}

theorem throughFirstNewline_append_left (h : newline ∈ a) :
    throughFirstNewline (a ++ b) = throughFirstNewline a := by
  induction a with
  | nil => exact absurd h not_mem_nil
  | cons x a ih =>
    rw [cons_append, throughFirstNewline, throughFirstNewline]
    by_cases hx : x = newline
    · rw [if_pos hx, if_pos hx]
    · rw [if_neg hx, if_neg hx, ih ((mem_cons.mp h).resolve_left (Ne.symm hx))]

theorem afterFirstNewline_append_left (h : newline ∈ a) :
    afterFirstNewline (a ++ b) = afterFirstNewline a ++ b := by
  induction a with
  | nil => exact absurd h not_mem_nil
  | cons x a ih =>
    rw [cons_append, afterFirstNewline, afterFirstNewline]
    by_cases hx : x = newline
    · rw [if_pos hx, if_pos hx]
    · rw [if_neg hx, if_neg hx, ih ((mem_cons.mp h).resolve_left (Ne.symm hx))]

theorem throughFirstNewline_append_right (h : newline ∉ a) :
    throughFirstNewline (a ++ b) = a ++ throughFirstNewline b := by
  induction a with
  | nil => rfl
  | cons x a ih =>
    rw [mem_cons, not_or] at h
    rw [cons_append, throughFirstNewline, if_neg (Ne.symm h.1), ih h.2, cons_append]

theorem afterFirstNewline_append_right (h : newline ∉ a) :
    afterFirstNewline (a ++ b) = afterFirstNewline b := by
  induction a with
  | nil => rfl
  | cons x a ih =>
    rw [mem_cons, not_or] at h
    rw [cons_append, afterFirstNewline, if_neg (Ne.symm h.1), ih h.2]

theorem completeFrom_append_of_not_mem (begun : Bytes) (b : Bytes)
    (h : newline ∉ a) : completeFrom begun (a ++ b) = completeFrom (begun ++ a) b := by
  induction a generalizing begun with
  | nil => rw [nil_append, append_nil]
  | cons x a ih =>
    rw [mem_cons, not_or] at h
    rw [cons_append, completeFrom, if_neg (Ne.symm h.1), ih _ h.2, append_assoc,
      singleton_append]

/-- Bytes that end in a newline are complete lines. -/
theorem linesFrom_eq_completeFrom (begun : Bytes)
    (h : bytes.getLast? = some newline) : linesFrom begun bytes = completeFrom begun bytes := by
  induction bytes generalizing begun with
  | nil => cases h
  | cons b rest ih =>
    rw [linesFrom, completeFrom]
    cases rest with
    | nil =>
      obtain rfl : b = newline := Option.some.inj h
      rfl
    | cons c rest =>
      rw [ih _ h, ih _ h]

theorem lines_eq_completeLines (h : bytes = [] ∨ bytes.getLast? = some newline) :
    lines bytes = completeLines bytes := by
  rcases h with rfl | h
  · rfl
  · exact linesFrom_eq_completeFrom [] h

theorem flatten_linesFrom (begun bytes : Bytes) : (linesFrom begun bytes).flatten = begun ++ bytes := by
  induction bytes generalizing begun with
  | nil =>
    rw [linesFrom]
    cases begun <;> simp
  | cons b rest ih =>
    rw [linesFrom]
    split
    · rw [flatten_cons, ih, nil_append, append_assoc, singleton_append]
    · rw [ih, append_assoc, singleton_append]

theorem flatten_lines (bytes : Bytes) : (lines bytes).flatten = bytes := flatten_linesFrom [] bytes

/-- The complete lines are the bytes up to the last newline. -/
theorem flatten_completeLines (bytes : Bytes) :
    (completeLines bytes).flatten = bytes.take (GzipLineByteStream.throughLastNewline bytes) := by
  have hlast := lineStart_after_newline bytes bytes.length
  have hle := lineStart_le bytes bytes.length
  have hnone : newline ∉ bytes.drop (lineStart bytes bytes.length) := by
    intro hmem
    obtain ⟨i, hi⟩ := mem_iff_getElem?.mp hmem
    rw [getElem?_drop] at hi
    obtain ⟨hlt, -⟩ := List.getElem?_eq_some_iff.mp hi
    exact not_newline_of_lineStart_le (Nat.le_add_right _ i) hlt hi
  change _ = bytes.take (lineStart bytes bytes.length)
  generalize lineStart bytes bytes.length = n at hlast hle hnone
  have hends : bytes.take n = [] ∨ (bytes.take n).getLast? = some newline := by
    rcases hlast with rfl | hlast
    · exact .inl (take_zero ..)
    · by_cases hz : n = 0
      · exact .inl (by rw [hz, take_zero])
      · refine .inr ?_
        rw [getLast?_eq_getElem?, List.length_take, Nat.min_eq_left hle, getElem?_take,
          if_pos (by omega)]
        exact hlast
  have hsplit : completeLines bytes = completeLines (bytes.take n) ++ completeLines (bytes.drop n) := by
    have hjoin : ∀ (begun a b : Bytes), (a = [] ∧ begun = [] ∨ a.getLast? = some newline) →
        completeFrom begun (a ++ b) = completeFrom begun a ++ completeFrom [] b := by
      intro begun a b ha
      induction a generalizing begun with
      | nil =>
        obtain ⟨-, rfl⟩ := ha.resolve_right (by simp)
        rfl
      | cons x a ih =>
        have hlast := ha.resolve_left fun h => cons_ne_nil _ _ h.1
        rw [cons_append, completeFrom, completeFrom]
        cases a with
        | nil =>
          obtain rfl : x = newline := Option.some.inj hlast
          rfl
        | cons y a =>
          split
          · rw [ih [] (.inr hlast), cons_append]
          · exact ih _ (.inr hlast)
    have h := hjoin [] (bytes.take n) (bytes.drop n) (hends.imp_left fun h => ⟨h, rfl⟩)
    rwa [take_append_drop] at h
  rw [hsplit, completeLines, completeLines, completeFrom_of_not_mem _ hnone, append_nil,
    ← completeLines, ← lines_eq_completeLines hends, flatten_lines]

/-- A buffer's worth and what is left after it. -/
theorem take_append_drop_length {α : Type} (l : List α) (n : Nat) :
    l.take n ++ l.drop (l.take n).length = l := by
  rw [List.length_take]
  by_cases h : n ≤ l.length
  · rw [Nat.min_eq_left h, take_append_drop]
  · rw [Nat.min_eq_right (Nat.le_of_not_le h), drop_length, append_nil,
      take_of_length_le (Nat.le_of_not_le h)]

/-! ### The line stream -/

namespace LineStream

/-- A line stream over a byte range that goes on. -/
structure Unranged (s : LineStream) : Prop where
  startLine : s.startLine = 0
  endLine : s.endLine = 0
  running : s.isFinished = false

namespace Unranged

variable {s : LineStream} (h : Unranged s)

include h

theorem isBeyondRange : s.isBeyondRange = false := by
  rw [LineStream.isBeyondRange, h.endLine]
  rfl

theorem shouldOutputCurrentLine : s.shouldOutputCurrentLine = true := by
  rw [LineStream.shouldOutputCurrentLine, h.startLine, h.endLine]
  rfl

/-- A line that ends in the current span is handed out. -/
theorem tryParse_of_mem (hmem : newline ∈ s.currentSpan) :
    s.tryParseNextLine = (.hasLine, { s with
      currentLine := s.lineAccumulator ++ throughFirstNewline s.currentSpan
      lineAccumulator := [], currentSpan := afterFirstNewline s.currentSpan
      currentLineNumber := s.currentLineNumber + 1, hasPendingLine := true }) := by
  have hspan : s.currentSpan.isEmpty = false :=
    isEmpty_eq_false_iff.mpr (ne_nil_of_mem hmem)
  have hbeyond : LineStream.isBeyondRange { s with
      currentLine := s.lineAccumulator ++ throughFirstNewline s.currentSpan
      lineAccumulator := [], currentSpan := afterFirstNewline s.currentSpan } = false :=
    h.isBeyondRange
  rw [tryParseNextLine, h.isBeyondRange, parseLoop, hspan, if_pos hmem, processCompleteLine,
    h.shouldOutputCurrentLine]
  simp only [hbeyond, Bool.false_eq_true, if_false, if_true]

/-- Otherwise the span is kept as the beginning of a line. -/
theorem tryParse_of_not_mem (hmem : newline ∉ s.currentSpan) :
    s.tryParseNextLine = (.needMoreData, { s with
      lineAccumulator := s.lineAccumulator ++ s.currentSpan, currentSpan := [] }) := by
  rw [tryParseNextLine, h.isBeyondRange, if_neg (by decide), parseLoop]
  by_cases hspan : s.currentSpan = []
  · rw [if_pos (List.isEmpty_iff.mpr hspan), hspan, append_nil]
    congr 1
    cases s
    cases hspan
    rfl
  · rw [if_neg (by rwa [List.isEmpty_iff]), if_neg hmem]

end Unranged

/-- What one call hands out while lines are left. -/
structure HandsOut (s s' : LineStream) (bytes line : Bytes) : Prop where
  unranged : Unranged s'
  line : line = s.lineAccumulator ++ throughFirstNewline bytes
  begun : s'.lineAccumulator = []
  sameFile : s'.underlyingStream.maxFileBytes = s.underlyingStream.maxFileBytes
  left : ∃ rest, Delivers s'.underlyingStream rest ∧
    s'.currentSpan ++ rest = afterFirstNewline bytes

variable {s : LineStream} {rest : Bytes}

/-- A newline in the span: the call returns at once. -/
theorem readLoop_of_mem (hs : Unranged s)
    (hrest : Delivers s.underlyingStream rest) (hmem : newline ∈ s.currentSpan) {fuel : Nat}
    (hfuel : 0 < fuel) :
    ∃ line s', s.readLoop fuel = .ok (line, s') ∧ HandsOut s s' (s.currentSpan ++ rest) line := by
  obtain ⟨fuel, rfl⟩ := Nat.exists_eq_succ_of_ne_zero (Nat.ne_of_gt hfuel)
  rw [readLoop, hs.tryParse_of_mem hmem]
  refine ⟨_, _, rfl, ⟨hs.startLine, hs.endLine, hs.running⟩, ?_, rfl, rfl, rest, hrest, ?_⟩
  · rw [throughFirstNewline_append_left hmem]
  · rw [afterFirstNewline_append_left hmem]

/-- Through spans without a newline the call reads on. -/
theorem readLoop_spec {u : GzipLineByteStream} (hu : Delivers u rest) (hs : Unranged s) (hunder : s.underlyingStream = u) {fuel : Nat}
    (enough : rest.length < fuel) :
    (newline ∈ s.currentSpan ++ rest → ∃ line s', s.readLoop fuel = .ok (line, s') ∧
      HandsOut s s' (s.currentSpan ++ rest) line) ∧
    (newline ∉ s.currentSpan ++ rest → ∃ s', s.readLoop fuel = .ok ([], s')) := by
  induction hu generalizing s fuel with
  | @last u u' running read =>
    subst hunder
    rw [append_nil]
    constructor
    · intro hmem
      have h := readLoop_of_mem hs (.last running read) hmem enough
      rwa [append_nil] at h
    · intro hmem
      obtain ⟨fuel, rfl⟩ := Nat.exists_eq_succ_of_ne_zero (Nat.ne_of_gt enough)
      rw [readLoop, hs.tryParse_of_not_mem hmem]
      simp only [running, read]
      exact ⟨_, rfl⟩
  | @more u u' chunk rest running read some sameFile next ih =>
    subst hunder
    by_cases hmem : newline ∈ s.currentSpan
    · constructor
      · intro _
        exact readLoop_of_mem hs (.more running read some sameFile next) hmem
          (Nat.lt_of_le_of_lt (Nat.zero_le _) enough)
      · intro hnot
        exact absurd (mem_append_left _ hmem) hnot
    · obtain ⟨fuel, rfl⟩ := Nat.exists_eq_succ_of_ne_zero (Nat.ne_zero_of_lt enough)
      have hsome := length_pos_iff.mpr some
      have hchunk : chunk.isEmpty = false := isEmpty_eq_false_iff.mpr some
      rw [length_append] at enough
      -- the call goes on with the next span
      let s' : LineStream := { s with
        underlyingStream := u', currentSpan := chunk
        lineAccumulator := s.lineAccumulator ++ s.currentSpan }
      have hnext : s.readLoop (fuel + 1) = s'.readLoop fuel := by
        rw [readLoop, hs.tryParse_of_not_mem hmem]
        simp only [running, read, hchunk]
        rfl
      have hloop := @ih s' ⟨hs.startLine, hs.endLine, hs.running⟩ rfl fuel (by omega)
      rw [hnext]
      constructor
      · intro hin
        have hin' : newline ∈ chunk ++ rest := (mem_append.mp hin).resolve_left hmem
        obtain ⟨line, s'', hread, hout⟩ := hloop.1 hin'
        refine ⟨line, s'', hread, hout.unranged, ?_, hout.begun, hout.sameFile.trans sameFile, ?_⟩
        · rw [hout.line, throughFirstNewline_append_right hmem, ← append_assoc]
        · obtain ⟨left, hdelivers, hleft⟩ := hout.left
          exact ⟨left, hdelivers, hleft.trans (afterFirstNewline_append_right hmem).symm⟩
      · intro hnot
        exact hloop.2 fun hin => hnot (mem_append_right _ hin)

/-- A line stream hands out the complete lines of what the stream below delivers. -/
theorem drain_spec (hs : Unranged s) (hrest : Delivers s.underlyingStream rest)
    (small : (s.currentSpan ++ rest).length ≤ s.underlyingStream.maxFileBytes) {fuel : Nat}
    (enough : (s.currentSpan ++ rest).length < fuel) :
    s.drain fuel = .ok (completeFrom s.lineAccumulator (s.currentSpan ++ rest)) := by
  induction fuel generalizing s rest with
  | zero => exact absurd enough (Nat.not_lt_zero _)
  | succ fuel ih =>
    have hlength : rest.length ≤ (s.currentSpan ++ rest).length := by
      rw [length_append]
      exact Nat.le_add_left _ _
    have hfuel : rest.length < s.underlyingStream.maxFileBytes + 1 := by omega
    have hloop := readLoop_spec hrest hs rfl hfuel
    rw [drain, done, hs.running, Bool.false_and, if_neg (by decide), read, hs.running,
      if_neg (by decide)]
    by_cases hmem : newline ∈ s.currentSpan ++ rest
    · obtain ⟨line, s', hread, hout⟩ := hloop.1 hmem
      obtain ⟨left, hdelivers, hleft⟩ := hout.left
      have hsplit := congrArg List.length (throughFirstNewline_append (s.currentSpan ++ rest))
      have hsome : 0 < (throughFirstNewline (s.currentSpan ++ rest)).length :=
        length_pos_iff.mpr fun hnil => by
          have hlast := throughFirstNewline_getLast? hmem
          rw [hnil] at hlast
          cases hlast
      rw [length_append] at hsplit
      have hline : line.isEmpty = false := by
        rw [isEmpty_eq_false_iff, hout.line, ← length_pos_iff, length_append]
        omega
      have hnext := ih hout.unranged hdelivers (by rw [hleft, hout.sameFile]; omega)
        (by rw [hleft]; omega)
      rw [hleft, hout.begun] at hnext
      simp only [hread, hline, Bool.false_eq_true, if_false, hnext]
      rw [completeFrom_of_mem _ hmem, hout.line]
    · obtain ⟨s', hread⟩ := hloop.2 hmem
      simp only [hread, isEmpty_nil, if_true]
      rw [completeFrom_of_not_mem _ hmem]

end LineStream

end DFTracer.Reader
