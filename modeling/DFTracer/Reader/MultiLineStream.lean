/-
# Reading by line numbers

A range of line numbers becomes a window of bytes by the line numbers of the member
table: from the member that holds the first line to the end of the last member that
holds any. The multi-line stream counts the lines of that window from the number its
first line has, drops those before the range and stops after its last.
-/

import DFTracer.Reader.LineByteStream

namespace DFTracer.Reader

open Gzip

/-- A stream of the lines from `startLine` to `endLine`; zeros stand for no range. -/
structure MultiLineStream where
  underlyingStream : GzipLineByteStream
  /-- What is left of the current span. -/
  currentSpan : Bytes := []
  lineAccumulator : Bytes := []
  outputBuffer : Bytes := []
  outputBufPos : Nat := 0
  isFinished : Bool := false
  /-- The number of the line that comes next. -/
  currentLine : Nat := 1
  startLine : Nat := 0
  endLine : Nat := 0
  linesOutput : Nat := 0

namespace MultiLineStream

/-- `SIZE_MAX` -/
def sizeMax : Nat := 2 ^ 64 - 1

def calculateMaxLines (s : MultiLineStream) : Nat :=
  if s.endLine > 0 && s.startLine > 0 then s.endLine - s.startLine + 1 else sizeMax

def reachedEndOfRange (s : MultiLineStream) : Bool := s.endLine > 0 && s.currentLine > s.endLine

def reachedMaxLines (s : MultiLineStream) (maxLines : Nat) : Bool := s.linesOutput ≥ maxLines

def isLineInOutputRange (s : MultiLineStream) : Bool :=
  s.currentLine ≥ s.startLine && (s.endLine = 0 || s.currentLine ≤ s.endLine)

def done (s : MultiLineStream) : Bool :=
  if s.outputBufPos < s.outputBuffer.length then false
  else s.isFinished || (s.underlyingStream.isFinished && s.lineAccumulator.isEmpty)

/-- `refill_if_needed`: `false` when there is nothing more to go through. -/
def refillIfNeeded (s : MultiLineStream) : Except ReaderError (Bool × MultiLineStream) :=
  if !s.currentSpan.isEmpty then .ok (true, s)
  else if s.underlyingStream.isFinished then .ok (false, s)
  else
    match s.underlyingStream.read with
    | .error e => .error e
    | .ok (span, underlyingStream) =>
      .ok (!span.isEmpty, { s with underlyingStream, currentSpan := span })

/-- Go past the line that ends in the current span, and put it out if it is asked for. -/
def takeLine (s : MultiLineStream) (output : Bool) : MultiLineStream :=
  { s with
    outputBuffer :=
      if output then s.outputBuffer ++ (s.lineAccumulator ++ throughFirstNewline s.currentSpan)
      else s.outputBuffer
    lineAccumulator := []
    linesOutput := if output then s.linesOutput + 1 else s.linesOutput
    currentLine := s.currentLine + 1
    currentSpan := afterFirstNewline s.currentSpan }

/-- The loop of `process_lines` over the newlines of the current span; `false` when a
line past the range was met. -/
def processLoop (maxLines : Nat) : Nat → MultiLineStream → Bool × MultiLineStream
  | 0, s => (true, s)
  | fuel + 1, s =>
    if s.currentSpan.isEmpty then (true, s)
    else if newline ∉ s.currentSpan then
      (true, { s with lineAccumulator := s.lineAccumulator ++ s.currentSpan, currentSpan := [] })
    else
      let inRange := s.isLineInOutputRange
      let canOutput := s.linesOutput < maxLines
      if !(inRange && canOutput) && s.reachedEndOfRange then (false, { s with isFinished := true })
      else
        let s := s.takeLine (inRange && canOutput)
        if s.reachedMaxLines maxLines then (true, s) else processLoop maxLines fuel s

def processLines (s : MultiLineStream) (maxLines : Nat) : Bool × MultiLineStream :=
  processLoop maxLines (s.currentSpan.length + 1) s

/-- A last line without a newline, once the stream below is done. -/
def handleFinalLine (s : MultiLineStream) (maxLines : Nat) : MultiLineStream :=
  if !s.underlyingStream.isFinished || s.lineAccumulator.isEmpty || !s.isLineInOutputRange
      || s.reachedMaxLines maxLines then s
  else { s with
    outputBuffer := s.outputBuffer ++ s.lineAccumulator
    lineAccumulator := [], linesOutput := s.linesOutput + 1 }

def updateFinishState (s : MultiLineStream) : MultiLineStream :=
  if s.underlyingStream.isFinished || s.reachedEndOfRange then { s with isFinished := true } else s

/-- The loop of `read_async`, one span after another. Every round but the last takes
something off the content. -/
def readLoop (maxLines : Nat) : Nat → MultiLineStream → Except ReaderError MultiLineStream
  | 0, s => .ok s
  | fuel + 1, s =>
    if s.reachedEndOfRange || s.reachedMaxLines maxLines then .ok s
    else
      match s.refillIfNeeded with
      | .error e => .error e
      | .ok (false, s) => .ok s
      | .ok (true, s) =>
        match s.processLines maxLines with
        | (false, s) => .ok s
        | (true, s) => readLoop maxLines fuel s

/-- `read_async` without a buffer: the lines are in the output buffer. -/
def readSpan (s : MultiLineStream) : Except ReaderError (Bytes × MultiLineStream) :=
  if s.isFinished then .ok ([], s)
  else
    let maxLines := s.calculateMaxLines
    match readLoop maxLines (s.underlyingStream.maxFileBytes + 2) { s with outputBuffer := [] } with
    | .error e => .error e
    | .ok s =>
      let s := (s.handleFinalLine maxLines).updateFinishState
      .ok (s.outputBuffer, s)

/-- `read_async` into a buffer: at most its size at a time. -/
def read (s : MultiLineStream) (bufferSize : Nat) : Except ReaderError (Bytes × MultiLineStream) :=
  if s.outputBufPos < s.outputBuffer.length then
    let copied := (s.outputBuffer.drop s.outputBufPos).take bufferSize
    .ok (copied, { s with outputBufPos := s.outputBufPos + copied.length })
  else if s.isFinished then .ok ([], s)
  else
    match s.readSpan with
    | .error e => .error e
    | .ok (span, s) =>
      if span.isEmpty then .ok ([], s)
      else
        let copied := span.take bufferSize
        .ok (copied, { s with outputBufPos := copied.length })

/-- The loop of the stream's reader. -/
def drain (bufferSize : Nat) : Nat → MultiLineStream → Except ReaderError Bytes
  | 0, _ => .ok []
  | fuel + 1, s =>
    if s.done then .ok []
    else
      match s.read bufferSize with
      | .error e => .error e
      | .ok (bytes, s) =>
        if bytes.isEmpty then .ok []
        else
          match drain bufferSize fuel s with
          | .error e => .error e
          | .ok rest => .ok (bytes ++ rest)

end MultiLineStream

/-- The bytes a range of lines is looked for in, and the number of their first line. -/
structure LineWindow where
  startBytes : Nat
  endBytes : Nat
  actualStartLine : Nat
deriving DecidableEq, Repr

namespace IndexedFile

/-- The line count of the index, where the last member's lines end. -/
def getNumLines (f : IndexedFile) : Nat := countNewlines f.content

/-- The window of a line range: up to the end of the last member with a line of it, from
the member that holds its first line. -/
def lineWindow (f : IndexedFile) (startLine endLine : Nat) : LineWindow :=
  match f.cachedMembers.reverse.find? fun member =>
      member.firstLineNum ≤ endLine && member.lastLineNum ≥ startLine with
  | none => ⟨0, f.getMaxBytes, 1⟩
  | some last =>
    let endBytes := last.ucOffset + last.ucSize
    match f.cachedMembers.find? fun member =>
        member.firstLineNum ≤ startLine && startLine ≤ member.lastLineNum with
    | some member => ⟨member.ucOffset, endBytes, member.firstLineNum⟩
    | none => ⟨0, endBytes, 1⟩

/-- `DEFAULT_BUFFER_SIZE` of a stream's configuration. -/
def streamBufferSize : Nat := 4 * 1024 * 1024

/-- `read_lines_async` of a reader with this default buffer size. -/
def readLines (f : IndexedFile) (defaultBufferSize startLine endLine : Nat) :
    Except ReaderError Bytes :=
  if startLine = 0 || endLine = 0 then .error ⟨"Line numbers must be 1-based (start from 1)"⟩
  else if startLine > endLine then .error ⟨"Start line must be <= end line"⟩
  else if startLine > f.getNumLines || endLine > f.getNumLines then
    .error ⟨s!"Line numbers exceed total lines in file ({f.getNumLines})"⟩
  else
    let window := f.lineWindow startLine endLine
    let stream : MultiLineStream :=
      { underlyingStream :=
          .ensureInitialized f streamBufferSize false window.startBytes window.endBytes
        currentLine := window.actualStartLine, startLine, endLine }
    stream.drain defaultBufferSize (f.getMaxBytes + 2)

end IndexedFile

end DFTracer.Reader
