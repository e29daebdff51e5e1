/-
# Line-aligned byte streams

A reader asks for a byte range of the uncompressed content. The stream seeks to the
member that holds the first byte, looks back for the start of its line, and then
hands out one buffer after another, each cut after its last newline; what follows
the cut is carried into the next buffer. Reading stops at the end of the range.
-/

import DFTracer.Gzip.IndexCover

namespace DFTracer.Reader

open Gzip

/-- A gzip file whose members all hold something, with a complete index of them. -/
structure IndexedFile where
  members : List Member
  nonempty : ∀ m ∈ members, m.content ≠ []

namespace IndexedFile

/-- The uncompressed content. -/
def content (f : IndexedFile) : Bytes := f.members.flatMap Member.content

/-- `get_max_bytes` -/
def getMaxBytes (f : IndexedFile) : Nat := f.content.length

/-- The member table of the index. -/
def cachedMembers (f : IndexedFile) : List GzipMemberRecord :=
  (List.range f.members.length).map (recordOf f.members 0)

/-- The first member that ends after an offset. -/
def findMember (f : IndexedFile) (targetOffset : Nat) : Option GzipMemberRecord :=
  f.cachedMembers.find? fun candidate => targetOffset < candidate.ucOffset + candidate.ucSize

end IndexedFile

/-- The decoder: what is left of the decoded member and the contents of the members
after it, none once it is exhausted. -/
structure ReaderInflater where
  window : Bytes
  later : List Bytes

namespace ReaderInflater

/-- Start at a member. -/
def seekToMember (f : IndexedFile) (memberIdx : Nat) : ReaderInflater :=
  ⟨[], (f.members.drop memberIdx).map Member.content⟩

/-- The loop of `read` and `skip_bytes`: serve `len` bytes from the window and decode the
next member whenever it runs out. A member without bytes counts as the end. -/
def serve (window : Bytes) (len : Nat) : List Bytes → Bytes × ReaderInflater
  | [] => (window.take len, ⟨window.drop len, []⟩)
  | m :: later =>
    if len ≤ window.length then (window.take len, ⟨window.drop len, m :: later⟩)
    else if m.isEmpty then (window, ⟨[], []⟩)
    else
      let (rest, s) := serve m (len - window.length) later
      (window ++ rest, s)

def read (s : ReaderInflater) (len : Nat) : Bytes × ReaderInflater := serve s.window len s.later

/-- `skip_bytes` -/
def skipBytes (s : ReaderInflater) (bytesToSkip : Nat) : ReaderInflater := (s.read bytesToSkip).2

end ReaderInflater

/-! ## The stream -/

def searchBufferSize : Nat := 2048

def lineSearchLookback : Nat := 512

def defaultBufferSize : Nat := 64 * 1024

/-- What a read can throw. -/
structure ReaderError where
  message : String
deriving DecidableEq

structure GzipLineByteStream where
  inflater : ReaderInflater
  /-- How far the content was read. -/
  currentPosition : Nat
  targetEndBytes : Nat
  maxFileBytes : Nat
  isFinished : Bool
  partialLineBuffer : Bytes
  extendToLineBoundary : Bool
  bufferSize : Nat

namespace GzipLineByteStream

/-- The loop of `find_line_start`: from `i` down to the position after a newline. -/
def backToLine (searchBuffer : Bytes) : Nat → Nat
  | 0 => 0
  | i + 1 => if searchBuffer[i]? = some newline then i + 1 else backToLine searchBuffer i

/-- Where reading begins, and the decoder moved there from the anchor it was sought to. -/
def findLineStart (seekAnchorOffset : Nat) (seek : ReaderInflater) (targetStart : Nat) :
    Nat × ReaderInflater :=
  if targetStart ≤ seekAnchorOffset then (targetStart, seek)
  else
    let searchStart :=
      if targetStart ≥ lineSearchLookback then targetStart - lineSearchLookback
      else seekAnchorOffset
    let currentPos := if searchStart > seekAnchorOffset then searchStart else seekAnchorOffset
    let searchBuffer :=
      ((seek.skipBytes (currentPos - seekAnchorOffset)).read (searchBufferSize - 1)).1
    let relativeTarget := targetStart - currentPos
    let actualStart :=
      if relativeTarget < searchBuffer.length then
        currentPos + backToLine searchBuffer relativeTarget
      else targetStart
    -- the decoder is restarted at the anchor
    (actualStart, if actualStart > seekAnchorOffset then
      seek.skipBytes (actualStart - seekAnchorOffset) else seek)

/-- A stream over `[startBytes, endBytes)`, positioned by its first read. -/
def ensureInitialized (f : IndexedFile) (bufferSize : Nat) (extendToLineBoundary : Bool)
    (startBytes endBytes : Nat) : GzipLineByteStream :=
  let s : GzipLineByteStream :=
    { inflater := ReaderInflater.seekToMember f 0, currentPosition := startBytes,
      targetEndBytes := endBytes, maxFileBytes := f.getMaxBytes, isFinished := false,
      partialLineBuffer := [], extendToLineBoundary,
      bufferSize := if bufferSize > 0 then bufferSize else defaultBufferSize }
  if f.getMaxBytes > 0 && startBytes ≥ f.getMaxBytes then { s with isFinished := true }
  else
    let (anchor, seek) :=
      match f.findMember startBytes with
      | some member => (member.ucOffset, ReaderInflater.seekToMember f member.memberIdx)
      | none => (0, s.inflater)
    let (actualStart, inflater) := findLineStart anchor seek startBytes
    { s with currentPosition := actualStart, inflater }

/-- The size of the bytes up to and including the last newline. -/
def throughLastNewline (buffer : Bytes) : Nat := backToLine buffer buffer.length

/-- How much of the buffer is complete lines: all of it at the end of the file. -/
def adjustToBoundary (s : GzipLineByteStream) (buffer : Bytes) : Nat :=
  let newlinePos := throughLastNewline buffer
  let atFileEnd := s.currentPosition ≥ s.maxFileBytes
  if newlinePos > 0 then
    if buffer.length - newlinePos > 0 && atFileEnd then buffer.length else newlinePos
  else if s.isFinished || atFileEnd then buffer.length
  else 0

/-- Cut the buffer inside the range, then after its last complete line. The second
part says whether the stream is finished. -/
def applyRangeAndBoundaryLimits (s : GzipLineByteStream) (buffer : Bytes) : Nat × Bool :=
  if s.currentPosition > s.targetEndBytes then
    let newDataSize := buffer.length - s.partialLineBuffer.length
    let newDataStart := s.currentPosition - newDataSize
    if newDataStart ≥ s.targetEndBytes then (0, true)
    else
      let limitedSize := s.partialLineBuffer.length + (s.targetEndBytes - newDataStart)
      let adjustedSize := s.adjustToBoundary (buffer.take limitedSize)
      let atFileEnd := s.targetEndBytes ≥ s.maxFileBytes
      if adjustedSize = 0 && limitedSize > 0 && (s.isFinished || atFileEnd) then
        (limitedSize, s.isFinished)
      else (adjustedSize, s.isFinished)
  else (s.adjustToBoundary buffer, s.isFinished)

/-- At the end of the range: with the extension set, read on to the end of the line
that was begun. -/
def readPastEnd (s : GzipLineByteStream) : Bytes × GzipLineByteStream :=
  let finished := { s with isFinished := true }
  if s.extendToLineBoundary && !s.partialLineBuffer.isEmpty
      && s.currentPosition < s.maxFileBytes && s.partialLineBuffer.length ≤ s.bufferSize then
    let avail := s.bufferSize - s.partialLineBuffer.length
    let (got, inflater) := s.inflater.read (min avail (s.maxFileBytes - s.currentPosition))
    if got.isEmpty then ([], { finished with inflater })
    else
      let after := { finished with
        inflater, currentPosition := s.currentPosition + got.length, partialLineBuffer := [] }
      if newline ∈ got then (s.partialLineBuffer ++ throughFirstNewline got, after)
      else ([], after)
  else ([], finished)

/-- `read_line_aligned_data`: the next complete lines of the range. -/
def readLineAlignedData (s : GzipLineByteStream) :
    Except ReaderError (Bytes × GzipLineByteStream) :=
  if s.currentPosition ≥ s.targetEndBytes then .ok s.readPastEnd
  else if s.partialLineBuffer.length > s.bufferSize then
    .error ⟨"Partial line buffer exceeds available buffer space"⟩
  else
    let availableBufferSpace := s.bufferSize - s.partialLineBuffer.length
    let bytesToRead := min (s.targetEndBytes - s.currentPosition) availableBufferSpace
    let (bytesRead, inflater) :=
      if bytesToRead > 0 then s.inflater.read bytesToRead else ([], s.inflater)
    if bytesToRead > 0 && bytesRead.isEmpty then
      .ok ([], { s with inflater, isFinished := true })
    else
      let buffer := s.partialLineBuffer ++ bytesRead
      let s := { s with inflater, currentPosition := s.currentPosition + bytesRead.length }
      let (adjustedSize, isFinished) := s.applyRangeAndBoundaryLimits buffer
      .ok (buffer.take adjustedSize,
        { s with isFinished, partialLineBuffer := buffer.drop adjustedSize })

/-- `read_async`: the next span, empty when there is none to give. -/
def read (s : GzipLineByteStream) : Except ReaderError (Bytes × GzipLineByteStream) :=
  if s.isFinished then .ok ([], s) else s.readLineAlignedData

/-- The loop of the stream's readers: take spans until the stream is done or gives an
empty one. -/
def drain : Nat → GzipLineByteStream → Except ReaderError Bytes
  | 0, _ => .ok []
  | fuel + 1, s =>
    if s.isFinished then .ok []
    else
      match s.read with
      | .error e => .error e
      | .ok (chunk, s) =>
        if chunk.isEmpty then .ok []
        else
          match drain fuel s with
          | .error e => .error e
          | .ok rest => .ok (chunk ++ rest)

end GzipLineByteStream

/-- Read a range in multi-line mode. Every span but the last takes something off the
content, so there are no more spans than bytes. -/
def readMultiLines (f : IndexedFile) (bufferSize startBytes endBytes : Nat) :
    Except ReaderError Bytes :=
  (GzipLineByteStream.ensureInitialized f bufferSize false startBytes endBytes).drain (f.getMaxBytes + 1)

end DFTracer.Reader
