/-
# Numbered lines and the splitters of spans

A window of line numbers picks the lines between its ends; an end that is zero is
open. The last line counts as a line whether or not a newline ends it, which is where
the lines of some bytes and the lines that a newline ends differ.
-/

import DFTracer.Reader.LineRanges

namespace DFTracer.Reader

open Gzip List

/-- Whether a line is asked for. -/
def InWindow (startLine endLine n : Nat) : Prop :=
  (startLine = 0 ∨ startLine ≤ n) ∧ (endLine = 0 ∨ n ≤ endLine)

instance (startLine endLine n : Nat) : Decidable (InWindow startLine endLine n) :=
  inferInstanceAs (Decidable ((startLine = 0 ∨ startLine ≤ n) ∧ (endLine = 0 ∨ n ≤ endLine)))

/-- The lines of a window, where the first line has this number. -/
def windowed (startLine endLine : Nat) : Nat → List Bytes → List Bytes
  | _, [] => []
  | n, line :: rest =>
    if InWindow startLine endLine n then line :: windowed startLine endLine (n + 1) rest
    else windowed startLine endLine (n + 1) rest

variable {startLine endLine : Nat}

@[simp] theorem windowed_nil (n : Nat) : windowed startLine endLine n [] = [] := rfl

theorem windowed_of_past {n : Nat} (some : 0 < endLine) (past : endLine < n) (ls : List Bytes) :
    windowed startLine endLine n ls = [] := by
  induction ls generalizing n with
  | nil => rfl
  | cons line rest ih =>
    have hout : ¬ InWindow startLine endLine n := by
      rintro ⟨-, hend⟩
      omega
    rw [windowed, if_neg hout, ih (Nat.lt_succ_of_lt past)]

/-- A window that ends before it starts. -/
theorem windowed_of_crossed (some : 0 < endLine) (crossed : endLine < startLine) (n : Nat)
    (ls : List Bytes) : windowed startLine endLine n ls = [] := by
  induction ls generalizing n with
  | nil => rfl
  | cons line rest ih =>
    have hout : ¬ InWindow startLine endLine n := by
      rintro ⟨hstart, hend⟩
      omega
    rw [windowed, if_neg hout, ih]

theorem windowed_append (n : Nat) (ls ms : List Bytes) :
    windowed startLine endLine n (ls ++ ms)
      = windowed startLine endLine n ls ++ windowed startLine endLine (n + ls.length) ms := by
  induction ls generalizing n with
  | nil => rfl
  | cons line rest ih =>
    have hnumber : n + 1 + rest.length = n + (line :: rest).length := by
      rw [length_cons]
      omega
    rw [cons_append, windowed, windowed, ih, hnumber]
    split
    · rfl
    · rfl

theorem windowed_subset (n : Nat) (ls : List Bytes) : windowed startLine endLine n ls ⊆ ls := by
  induction ls generalizing n with
  | nil => exact List.Subset.refl _
  | cons line rest ih =>
    rw [windowed]
    split
    · exact cons_subset_cons line (ih _)
    · exact subset_cons_of_subset line (ih _)

/-- What follows the last newline, given the bytes of the line already begun. -/
def unfinished (begun : Bytes) : Bytes → Bytes
  | [] => begun
  | b :: rest => if b = newline then unfinished [] rest else unfinished (begun ++ [b]) rest

theorem linesFrom_eq_append (begun bytes : Bytes) :
    linesFrom begun bytes = completeFrom begun bytes ++ linesFrom (unfinished begun bytes) [] := by
  induction bytes generalizing begun with
  | nil => rfl
  | cons b rest ih =>
    rw [completeFrom, unfinished]
    split
    · rename_i hb
      rw [cons_append, ← ih, linesFrom, if_pos hb]
    · rename_i hb
      rw [← ih, linesFrom, if_neg hb]

theorem unfinished_eq_nil (begun bytes : Bytes) :
    unfinished begun bytes = [] ↔ bytes = [] ∧ begun = [] ∨ bytes.getLast? = some newline := by
  induction bytes generalizing begun with
  | nil => simp [unfinished]
  | cons b rest ih =>
    rw [unfinished]
    cases rest with
    | nil =>
      by_cases hb : b = newline
      · simp [unfinished]
      · simp [unfinished]
    | cons c rest =>
      split
      · rw [ih]
        simp
      · rw [ih]
        simp

theorem unfinished_eq_nil_iff (bytes : Bytes) : unfinished [] bytes = [] ↔ EndsLine bytes := by
  rw [unfinished_eq_nil, and_iff_left rfl, EndsLine]

/-- The window misses nothing among the lines that a newline ends just when there is no
other line or it does not ask for it. -/
theorem windowed_complete_iff (n : Nat) (bytes : Bytes) :
    windowed startLine endLine n (completeLines bytes) = windowed startLine endLine n (lines bytes) ↔
      EndsLine bytes ∨ ¬ InWindow startLine endLine (n + countNewlines bytes) := by
  have hlines : lines bytes = completeLines bytes ++ linesFrom (unfinished [] bytes) [] :=
    linesFrom_eq_append [] bytes
  have hlength : (completeLines bytes).length = countNewlines bytes := length_completeFrom [] bytes
  rw [hlines, windowed_append, hlength, ← unfinished_eq_nil_iff]
  by_cases hnone : unfinished [] bytes = []
  · simp [hnone, linesFrom]
  · have hline : linesFrom (unfinished [] bytes) [] = [unfinished [] bytes] := by
      rw [linesFrom, if_neg (by rwa [List.isEmpty_iff])]
    rw [hline, windowed]
    by_cases hin : InWindow startLine endLine (n + countNewlines bytes)
    · simp [hnone]
    · simp [hin]

/-- No line is empty. -/
theorem ne_nil_of_mem_linesFrom {begun bytes line : Bytes} (h : line ∈ linesFrom begun bytes) :
    line ≠ [] := by
  induction bytes generalizing begun with
  | nil =>
    rw [linesFrom] at h
    split at h
    · exact absurd h not_mem_nil
    · rename_i hbegun
      rw [mem_singleton.mp h]
      rwa [List.isEmpty_iff] at hbegun
  | cons b rest ih =>
    rw [linesFrom] at h
    split at h
    · rcases mem_cons.mp h with rfl | h
      · exact append_ne_nil_of_right_ne_nil _ (cons_ne_nil _ _)
      · exact ih h
    · exact ih h

end DFTracer.Reader

/-! ## Splitting spans into lines

The line stream and the multi-line stream over any stream below them that hands out
spans. The first hands out one line at a time, the second as many as it is asked for at
once; both can also fill a buffer of the caller's. A stream below says that it is done
either with its last span or with the empty read after it. -/

namespace DFTracer.Reader.Splitting

open Gzip List

/-- The spans that are left. An eager stream is done once it has given the last one, the
others once a read found none. -/
structure SpanStream where
  spans : List Bytes
  nonempty : ∀ span ∈ spans, span ≠ []
  eager : Bool
  ended : Bool := false

namespace SpanStream

/-- The bytes the stream has yet to give. -/
def content (u : SpanStream) : Bytes := u.spans.flatten

def done (u : SpanStream) : Bool := if u.eager then u.spans.isEmpty else u.ended

theorem nonempty_tail (u : SpanStream) : ∀ span ∈ u.spans.tail, span ≠ [] :=
  fun span h => u.nonempty span (mem_of_mem_tail h)

/-- `read_async`: the next span, empty when there is none. -/
def read (u : SpanStream) : Bytes × SpanStream :=
  (u.spans.headD [], { u with
    spans := u.spans.tail
    nonempty := u.nonempty_tail
    ended := u.ended || u.spans.isEmpty })

end SpanStream

/-! ### The line stream -/

structure LineStream where
  underlyingStream : SpanStream
  /-- What is left of the current span. -/
  currentSpan : Bytes := []
  lineAccumulator : Bytes := []
  currentLine : Bytes := []
  isFinished : Bool := false
  hasPendingLine : Bool := false
  currentLineNumber : Nat := 1
  startLine : Nat := 0
  endLine : Nat := 0
  /-- How much of the pending line was copied out. -/
  outputPosition : Nat := 0

namespace LineStream

def done (s : LineStream) : Bool := s.isFinished && !s.hasPendingLine

def isBeyondRange (s : LineStream) : Bool := s.endLine > 0 && s.currentLineNumber > s.endLine

def shouldOutputCurrentLine (s : LineStream) : Bool :=
  if s.startLine = 0 && s.endLine = 0 then true
  else
    let afterStart := s.startLine = 0 || s.currentLineNumber ≥ s.startLine
    let beforeEnd := s.endLine = 0 || s.currentLineNumber ≤ s.endLine
    afterStart && beforeEnd

inductive ParseResult where
  | hasLine
  | needMoreData
  | finished
deriving DecidableEq

/-- Take a line that ends in the current span; `true` when it is handed out. -/
def processCompleteLine (s : LineStream) : Bool × LineStream :=
  let s := { s with
    currentLine := s.lineAccumulator ++ throughFirstNewline s.currentSpan
    lineAccumulator := []
    currentSpan := afterFirstNewline s.currentSpan }
  let shouldOutput := s.shouldOutputCurrentLine
  if s.isBeyondRange then (false, { s with isFinished := true })
  else
    let s := { s with currentLineNumber := s.currentLineNumber + 1 }
    if shouldOutput then (true, { s with hasPendingLine := true, outputPosition := 0 })
    else (false, { s with currentLine := [] })

/-- The loop of `try_parse_next_line` over the newlines of the current span. -/
def parseLoop : Nat → LineStream → ParseResult × LineStream
  | 0, s => (.needMoreData, s)
  | fuel + 1, s =>
    if s.currentSpan.isEmpty then (.needMoreData, s)
    else if newline ∈ s.currentSpan then
      let (output, s) := s.processCompleteLine
      if output then (.hasLine, s) else parseLoop fuel s
    else (.needMoreData,
      { s with lineAccumulator := s.lineAccumulator ++ s.currentSpan, currentSpan := [] })

def tryParseNextLine (s : LineStream) : ParseResult × LineStream :=
  if s.isBeyondRange then (.finished, { s with isFinished := true })
  else s.parseLoop (s.currentSpan.length + 1)

/-- The unfinished line at the end of the stream, if it is to be handed out. -/
def handleEofLine (s : LineStream) : Bool × LineStream :=
  if s.lineAccumulator.isEmpty then (false, s)
  else
    let s := { s with currentLine := s.lineAccumulator, lineAccumulator := [] }
    if s.shouldOutputCurrentLine && !s.isBeyondRange then
      (true, { s with
        hasPendingLine := true
        outputPosition := 0
        currentLineNumber := s.currentLineNumber + 1 })
    else (false, s)

/-- Where both loops of `read_async` stand once the current span is used up: at the end
of the stream below or at its next span. -/
def nextSpan (s : LineStream) : ParseResult × LineStream :=
  if s.underlyingStream.done then
    let (output, s) := s.handleEofLine
    if output then (.hasLine, s) else (.finished, { s with isFinished := true })
  else
    let (span, underlyingStream) := s.underlyingStream.read
    let s := { s with underlyingStream, currentSpan := span }
    if span.isEmpty then (.finished, { s with isFinished := true }) else (.needMoreData, s)

/-- The loop of `read_async`, one span after another. -/
def readLoop : Nat → LineStream → Bytes × LineStream
  | 0, s => ([], s)
  | fuel + 1, s =>
    match s.tryParseNextLine with
    | (.hasLine, s) => (s.currentLine, s)
    | (.finished, s) => ([], s)
    | (.needMoreData, s) =>
      match s.nextSpan with
      | (.hasLine, s) => (s.currentLine, s)
      | (.finished, s) => ([], s)
      | (.needMoreData, s) => readLoop fuel s

/-- `read_async`: the next line, empty when there is none. Every round but the last
takes a span. -/
def read (s : LineStream) : Bytes × LineStream :=
  if s.isFinished then ([], s) else s.readLoop (s.underlyingStream.spans.length + 1)

/-- Copy out what is left of the pending line, as far as it fits. -/
def outputPendingLine (s : LineStream) (bufferSize : Nat) : Bytes × LineStream :=
  let spent := { s with hasPendingLine := false, currentLine := [], outputPosition := 0 }
  if s.outputPosition ≥ s.currentLine.length then ([], spent)
  else
    let copied := (s.currentLine.drop s.outputPosition).take bufferSize
    if s.outputPosition + copied.length ≥ s.currentLine.length then (copied, spent)
    else (copied, { s with outputPosition := s.outputPosition + copied.length })

structure DirectOutputResult where
  bytesWritten : Bytes
  needMoreData : Bool
  finished : Bool

/-- The loop of `try_direct_output`: lines that end in the current span go straight to
the buffer if they fit. -/
def directLoop (bufferSize : Nat) : Nat → LineStream → DirectOutputResult × LineStream
  | 0, s => (⟨[], false, false⟩, s)
  | fuel + 1, s =>
    if s.isBeyondRange then (⟨[], false, true⟩, { s with isFinished := true })
    else if s.currentSpan.isEmpty then (⟨[], true, false⟩, s)
    else if newline ∉ s.currentSpan then (⟨[], false, false⟩, s)
    else
      let line := throughFirstNewline s.currentSpan
      if line.length > bufferSize then (⟨[], false, false⟩, s)
      else
        let shouldOutput := s.shouldOutputCurrentLine
        if s.isBeyondRange then (⟨[], false, true⟩, { s with isFinished := true })
        else
          let s := { s with
            currentLineNumber := s.currentLineNumber + 1
            currentSpan := afterFirstNewline s.currentSpan }
          if shouldOutput then (⟨line, false, false⟩, s) else directLoop bufferSize fuel s

def tryDirectOutput (s : LineStream) (bufferSize : Nat) : DirectOutputResult × LineStream :=
  if !s.lineAccumulator.isEmpty then (⟨[], false, false⟩, s)
  else directLoop bufferSize (s.currentSpan.length + 1) s

/-- The loop of `read_async` into a buffer. -/
def fillLoop (bufferSize : Nat) : Nat → LineStream → Bytes × LineStream
  | 0, s => ([], s)
  | fuel + 1, s =>
    match s.tryDirectOutput bufferSize with
    | (direct, s) =>
      if !direct.bytesWritten.isEmpty then (direct.bytesWritten, s)
      else if direct.finished then ([], s)
      else
        match if direct.needMoreData then (.needMoreData, s) else s.tryParseNextLine with
        | (.hasLine, s) => s.outputPendingLine bufferSize
        | (.finished, s) => ([], s)
        | (.needMoreData, s) =>
          match s.nextSpan with
          | (.hasLine, s) => s.outputPendingLine bufferSize
          | (.finished, s) => ([], s)
          | (.needMoreData, s) => fillLoop bufferSize fuel s

/-- `read_async` into a buffer of this size: what was written. -/
def fill (s : LineStream) (bufferSize : Nat) : Bytes × LineStream :=
  if s.hasPendingLine then s.outputPendingLine bufferSize
  else if s.isFinished then ([], s)
  else s.fillLoop bufferSize (s.underlyingStream.spans.length + 1)

/-- The lines a caller reads until the stream is done or gives nothing. -/
def drain : Nat → LineStream → List Bytes
  | 0, _ => []
  | fuel + 1, s =>
    if s.done then []
    else
      match s.read with
      | (line, s) => if line.isEmpty then [] else line :: drain fuel s

/-- The bytes a caller reads buffer by buffer. -/
def drainInto (bufferSize : Nat) : Nat → LineStream → Bytes
  | 0, _ => []
  | fuel + 1, s =>
    if s.done then []
    else
      match s.fill bufferSize with
      | (bytes, s) => if bytes.isEmpty then [] else bytes ++ drainInto bufferSize fuel s

end LineStream

/-! ### The multi-line stream -/

structure MultiLineStream where
  underlyingStream : SpanStream
  /-- What is left of the current span. -/
  currentSpan : Bytes := []
  lineAccumulator : Bytes := []
  outputBuffer : Bytes := []
  isFinished : Bool := false
  /-- The number of the line that comes next. -/
  currentLine : Nat := 1
  startLine : Nat := 0
  endLine : Nat := 0
  linesOutput : Nat := 0
  outputBufPos : Nat := 0

namespace MultiLineStream

/-- `SIZE_MAX` -/
def sizeMax : Nat := 2 ^ 64 - 1

/-- A window that ends before it starts wraps around. -/
def calculateMaxLines (s : MultiLineStream) : Nat :=
  if s.endLine > 0 && s.startLine > 0 then (s.endLine + 2 ^ 64 - s.startLine + 1) % 2 ^ 64
  else sizeMax

def reachedEndOfRange (s : MultiLineStream) : Bool := s.endLine > 0 && s.currentLine > s.endLine

def reachedMaxLines (s : MultiLineStream) (maxLines : Nat) : Bool := s.linesOutput ≥ maxLines

def isLineInOutputRange (s : MultiLineStream) : Bool :=
  s.currentLine ≥ s.startLine && (s.endLine = 0 || s.currentLine ≤ s.endLine)

def done (s : MultiLineStream) : Bool :=
  if s.outputBufPos < s.outputBuffer.length then false
  else s.isFinished || (s.underlyingStream.done && s.lineAccumulator.isEmpty)

/-- `false` when there is nothing more to go through. -/
def refillIfNeeded (s : MultiLineStream) : Bool × MultiLineStream :=
  if !s.currentSpan.isEmpty then (true, s)
  else if s.underlyingStream.done then (false, s)
  else
    let (span, underlyingStream) := s.underlyingStream.read
    (!span.isEmpty, { s with underlyingStream, currentSpan := span })

/-- Go past the line that ends in the current span, and put it out if it is asked for. -/
def takeLine (s : MultiLineStream) (output : Bool) : MultiLineStream :=
  { s with
    outputBuffer :=
      if output then s.outputBuffer ++ (s.lineAccumulator ++ throughFirstNewline s.currentSpan)
      else s.outputBuffer
    lineAccumulator := []
    linesOutput := if output then s.linesOutput + 1 else s.linesOutput
    currentLine := s.currentLine + 1
    currentSpan := afterFirstNewline s.currentSpan }

/-- The loop of `process_lines` over the newlines of the current span; `false` when a
line past the range was met. -/
def processLoop (maxLines : Nat) : Nat → MultiLineStream → Bool × MultiLineStream
  | 0, s => (true, s)
  | fuel + 1, s =>
    if s.currentSpan.isEmpty then (true, s)
    else if newline ∉ s.currentSpan then
      (true, { s with lineAccumulator := s.lineAccumulator ++ s.currentSpan, currentSpan := [] })
    else
      let inRange := s.isLineInOutputRange
      let canOutput := s.linesOutput < maxLines
      if !(inRange && canOutput) && s.reachedEndOfRange then (false, { s with isFinished := true })
      else
        let s := s.takeLine (inRange && canOutput)
        if s.reachedMaxLines maxLines then (true, s) else processLoop maxLines fuel s

def processLines (s : MultiLineStream) (maxLines : Nat) : Bool × MultiLineStream :=
  processLoop maxLines (s.currentSpan.length + 1) s

/-- A last line without a newline, once the stream below is done. -/
def handleFinalLine (s : MultiLineStream) (maxLines : Nat) : MultiLineStream :=
  if !s.underlyingStream.done || s.lineAccumulator.isEmpty || !s.isLineInOutputRange
      || s.reachedMaxLines maxLines then s
  else { s with
    outputBuffer := s.outputBuffer ++ s.lineAccumulator
    lineAccumulator := [], linesOutput := s.linesOutput + 1 }

def updateFinishState (s : MultiLineStream) : MultiLineStream :=
  if s.underlyingStream.done || s.reachedEndOfRange then { s with isFinished := true } else s

/-- The loop of `read_async`, one span after another. -/
def readLoop (maxLines : Nat) : Nat → MultiLineStream → MultiLineStream
  | 0, s => s
  | fuel + 1, s =>
    if s.reachedEndOfRange || s.reachedMaxLines maxLines then s
    else
      match s.refillIfNeeded with
      | (false, s) => s
      | (true, s) =>
        match s.processLines maxLines with
        | (false, s) => s
        | (true, s) => readLoop maxLines fuel s

/-- `read_async`: the lines in the output buffer. Every round but the first and the last
takes a span. -/
def read (s : MultiLineStream) : Bytes × MultiLineStream :=
  if s.isFinished then ([], s)
  else
    let maxLines := s.calculateMaxLines
    let s := readLoop maxLines (s.underlyingStream.spans.length + 2) { s with outputBuffer := [] }
    let s := (s.handleFinalLine maxLines).updateFinishState
    (s.outputBuffer, s)

/-- `read_async` into a buffer of this size: what was written. -/
def fill (s : MultiLineStream) (bufferSize : Nat) : Bytes × MultiLineStream :=
  if s.outputBufPos < s.outputBuffer.length then
    let copied := (s.outputBuffer.drop s.outputBufPos).take bufferSize
    (copied, { s with outputBufPos := s.outputBufPos + copied.length })
  else if s.isFinished then ([], s)
  else
    let (span, s) := s.read
    if span.isEmpty then ([], s)
    else
      let copied := span.take bufferSize
      (copied, { s with outputBufPos := copied.length })

/-- The spans a caller reads until the stream is done or gives nothing. -/
def drain : Nat → MultiLineStream → List Bytes
  | 0, _ => []
  | fuel + 1, s =>
    if s.done then []
    else
      match s.read with
      | (span, s) => if span.isEmpty then [] else span :: drain fuel s

/-- The bytes a caller reads buffer by buffer. -/
def drainInto (bufferSize : Nat) : Nat → MultiLineStream → Bytes
  | 0, _ => []
  | fuel + 1, s =>
    if s.done then []
    else
      match s.fill bufferSize with
      | (bytes, s) => if bytes.isEmpty then [] else bytes ++ drainInto bufferSize fuel s

end MultiLineStream

end DFTracer.Reader.Splitting
