/-
# Skipping excluded buckets

A work item with a mask covers one chunk. While its documents are read, those that are
no metadata are counted, the count gives the bucket, and a document of an excluded bucket
is skipped. The sizes of the buckets are those the indexer recorded for the chunk.
-/

import DFTracer.Indexing.IndexFoldDriver
import DFTracer.Reader.WorkItems

namespace DFTracer.Reader

open Gzip Indexing

/-- The blanks of `strip_ndjson_bookends`. -/
def isBlank (b : UInt8) : Bool := b = 0x20 || b = 0x09 || b = newline || b = 0x0D

/-- The front of `strip_ndjson_bookends`: what is left after blanks and one bracket. -/
def stripFront (bytes : Bytes) : Bytes :=
  match bytes.dropWhile isBlank with
  | [] => []
  | b :: rest => if b = 0x5B then rest.dropWhile isBlank else b :: rest

/-- Its back. -/
def stripBack (bytes : Bytes) : Bytes :=
  let bytes := bytes.rdropWhile isBlank
  if bytes.getLast? = some 0x5D then bytes.dropLast.rdropWhile isBlank else bytes

/-- `strip_ndjson_bookends` -/
def stripNdjsonBookends (bytes : Bytes) : Bytes := stripBack (stripFront bytes)

/-- A document in the file: the position it begins at. -/
structure ReadDocument where
  pos : Nat
  doc : OnDemandDocument

/-- The documents of a span that begins at a position of the file. -/
def spanDocuments (simd : Simdjson) (pos : Nat) (chunk : Bytes) : List ReadDocument :=
  let trimmed := stripNdjsonBookends chunk
  if trimmed.isEmpty then []
  else (simd.iterateMany trimmed).map fun doc =>
    ⟨pos + (chunk.length - (stripFront chunk).length) + doc.start, doc⟩

/-- The documents of consecutive spans; the first one loses its bytes up to the first
newline when `strip` is set. -/
def spansDocuments (simd : Simdjson) (strip : Bool) (pos : Nat) : List Bytes → List ReadDocument
  | [] => []
  | chunk :: rest =>
    let skip := if strip && newline ∈ chunk then (throughFirstNewline chunk).length else 0
    spanDocuments simd (pos + skip) (chunk.drop skip)
      ++ spansDocuments simd false (pos + chunk.length) rest

/-- The spans of a stream, up to an empty one. -/
def streamSpans : Nat → GzipLineByteStream → Except ReaderError (List Bytes)
  | 0, _ => .ok []
  | fuel + 1, s =>
    if s.isFinished then .ok []
    else
      match s.read with
      | .error e => .error e
      | .ok (chunk, s) =>
        if chunk.isEmpty then .ok []
        else
          match streamSpans fuel s with
          | .error e => .error e
          | .ok rest => .ok (chunk :: rest)

/-- The documents that the loop of `read_arrow` goes through, without a line prefilter. -/
def itemDocuments (simd : Simdjson) (f : IndexedFile) (bufferSize : Nat) (item : ArrowWorkItem) :
    Except ReaderError (List ReadDocument) :=
  let maxBytes := f.getMaxBytes
  let endByte := if item.endByte = 0 || item.endByte > maxBytes then maxBytes else item.endByte
  if item.startByte ≥ maxBytes then .ok []
  else
    (streamSpans (maxBytes + 2)
      (.ensureInitialized f bufferSize item.endAtCheckpoint item.startByte endByte)).map
        (spansDocuments simd (item.startByte > 0 && item.startAtCheckpoint) item.startByte)

/-- Metadata is not counted. -/
def ReadDocument.isMeta (d : ReadDocument) : Bool :=
  (d.doc.findFieldUnordered "ph").map readPhase = some .metadata

/-- Where the count stands. -/
structure SubSkip where
  bucket : Nat
  ordinal : Nat
  bucketEnd : Nat

namespace SubSkip

def start (eventCounts : List Nat) : SubSkip := ⟨0, 0, eventCounts.headD 0⟩

/-- The loop to the bucket of the next event; there are no more steps than buckets. -/
def advance (eventCounts : List Nat) : Nat → SubSkip → SubSkip
  | 0, s => s
  | fuel + 1, s =>
    if s.ordinal ≥ s.bucketEnd && s.bucket + 1 < eventCounts.length then
      advance eventCounts fuel
        ⟨s.bucket + 1, s.ordinal, s.bucketEnd + eventCounts.getD (s.bucket + 1) 0⟩
    else s

/-- An event of the bucket is read on. -/
def keeps (keep : List Bool) (s : SubSkip) : Bool := s.bucket ≥ keep.length || keep.getD s.bucket true

/-- One event was counted. -/
def count (s : SubSkip) : SubSkip := { s with ordinal := s.ordinal + 1 }

end SubSkip

/-- The documents that the loop skips. -/
def skipDocuments (mask : SubMask) : SubSkip → List ReadDocument → List ReadDocument
  | _, [] => []
  | s, d :: rest =>
    if d.isMeta then skipDocuments mask s rest
    else
      let s := s.advance mask.eventCounts mask.eventCounts.length
      if s.keeps mask.keep then skipDocuments mask s.count rest
      else d :: skipDocuments mask s.count rest

/-- The documents of an item that are skipped. An item without counts skips none. -/
def skippedDocuments (simd : Simdjson) (f : IndexedFile) (bufferSize : Nat) (item : ArrowWorkItem) :
    Except ReaderError (List ReadDocument) :=
  if item.subEventCounts.isEmpty then .ok []
  else (itemDocuments simd f bufferSize item).map
    (skipDocuments ⟨item.subEventCounts, item.subKeep⟩ (.start item.subEventCounts))

/-- The data events of a chunk, in the order the indexer met them. -/
def IndexedFile.chunkEvents (simd : Simdjson) (f : IndexedFile) (cidx : Nat) : List ObservedEvent :=
  (IndexFoldDriver.drive simd {} (f.members.map Member.content)).getD cidx []

/-- The buckets recorded for a chunk. -/
def IndexedFile.subChunks (simd : Simdjson) (f : IndexedFile) (subChunkEvents cidx : Nat) :
    List (List ObservedEvent) :=
  subChunkBuckets subChunkEvents (f.chunkEvents simd cidx)

/-- The sizes of the buckets, handed on as 32-bit numbers. -/
def recordedSizes {α : Type} (buckets : List (List α)) : List Nat :=
  buckets.map fun bucket => bucket.length % 2 ^ 32

/-- A mask of the chunk. -/
def IndexedFile.subMask (simd : Simdjson) (f : IndexedFile) (subChunkEvents cidx : Nat)
    (keep : List Bool) : SubMask where
  eventCounts := recordedSizes (f.subChunks simd subChunkEvents cidx)
  keep := keep

end DFTracer.Reader
