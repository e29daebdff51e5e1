/-
# When the skipped events are the excluded ones

The reader skips by counting its own documents, so it skips the events of the excluded buckets
when its documents are the events the indexer counted in the chunk. They differ at both ends: the
line that completes first in a chunk is counted there, but the reader drops it, and the line that
runs over the end is read there, but counted in a later chunk.
-/

import DFTracer.Reader.SubChunkSkip
import DFTracer.Reader.WorkItemCover

namespace DFTracer.Reader

open Gzip Query Indexing GzipLineByteStream List

/-! ## Skipping in a list of buckets -/

/-- The elements of the buckets from `b` on that a mask excludes. -/
def excludedFrom {α : Type} (keep : List Bool) (b : Nat) (buckets : List (List α)) : List α :=
  ((buckets.zipIdx b).filter fun bucket => keep[bucket.2]? = some false).flatMap Prod.fst

/-- The elements of the excluded buckets. -/
def excluded {α : Type} (keep : List Bool) (buckets : List (List α)) : List α :=
  excludedFrom keep 0 buckets

variable {α β : Type} {simd : Simdjson} {d : ReadDocument}

theorem excludedFrom_cons (keep : List Bool) (b : Nat) (bucket : List α) (rest : List (List α)) :
    excludedFrom keep b (bucket :: rest)
      = (if keep[b]? = some false then bucket else []) ++ excludedFrom keep (b + 1) rest := by
  rw [excludedFrom, zipIdx_cons, filter_cons]
  by_cases h : keep[b]? = some false
  · rw [if_pos (decide_eq_true h), if_pos h]
    rfl
  · rw [if_neg (by rw [decide_eq_false h]; decide), if_neg h]
    rfl

theorem map_excludedFrom (g : α → β) (keep : List Bool) (b : Nat) (buckets : List (List α)) :
    (excludedFrom keep b buckets).map g = excludedFrom keep b (buckets.map (List.map g)) := by
  induction buckets generalizing b with
  | nil => rfl
  | cons bucket rest ih =>
    rw [map_cons, excludedFrom_cons, excludedFrom_cons, map_append, ih]
    split <;> rfl

/-- The loop of the reader on anything that is counted. -/
def skipEach {α : Type} (mask : SubMask) : SubSkip → List α → List α
  | _, [] => []
  | s, x :: rest =>
    let s := s.advance mask.eventCounts mask.eventCounts.length
    if s.keeps mask.keep then skipEach mask s.count rest else x :: skipEach mask s.count rest

theorem map_skipEach (g : α → β) (mask : SubMask) (s : SubSkip) (l : List α) :
    (skipEach mask s l).map g = skipEach mask s (l.map g) := by
  induction l generalizing s with
  | nil => rfl
  | cons x rest ih =>
    rw [map_cons, skipEach, skipEach]
    split
    · exact ih _
    · rw [map_cons, ih]

/-- Metadata does not count. -/
theorem skipDocuments_eq (mask : SubMask) (s : SubSkip) (docs : List ReadDocument) :
    skipDocuments mask s docs = skipEach mask s (docs.filter fun d => !d.isMeta) := by
  induction docs generalizing s with
  | nil => rfl
  | cons d rest ih =>
    cases hmeta : d.isMeta with
    | true =>
      rw [skipDocuments, hmeta, filter_cons_of_neg (by rw [hmeta]; decide)]
      exact ih s
    | false =>
      rw [skipDocuments, hmeta, if_neg Bool.false_ne_true,
        filter_cons_of_pos (by rw [hmeta]; decide), skipEach]
      dsimp only
      rw [ih]

namespace SubSkip

variable {s : SubSkip} {eventCounts : List Nat} {keep : List Bool} {fuel : Nat}

theorem bucket_count (s : SubSkip) : s.count.bucket = s.bucket := rfl

theorem keeps_eq (keep : List Bool) (s : SubSkip) :
    s.keeps keep = !decide (keep[s.bucket]? = some false) := by
  unfold keeps
  by_cases h : s.bucket < keep.length
  · rw [getD_eq_getElem?_getD, getElem?_eq_getElem h, decide_eq_false (Nat.not_le.mpr h)]
    cases keep[s.bucket] with
    | true | false => rfl
  · rw [getElem?_eq_none (Nat.not_lt.mp h), decide_eq_true (Nat.not_lt.mp h)]
    rfl

/-- The count stays in a bucket that is not full, and in the last one. -/
theorem advance_stays (h : s.ordinal < s.bucketEnd ∨ eventCounts.length ≤ s.bucket + 1) :
    s.advance eventCounts fuel = s := by
  cases fuel with
  | zero => rfl
  | succ fuel =>
    rw [advance, if_neg]
    rw [Bool.and_eq_true, decide_eq_true_iff, decide_eq_true_iff]
    omega

theorem le_bucket_advance (eventCounts : List Nat) (fuel : Nat) (s : SubSkip) :
    s.bucket ≤ (s.advance eventCounts fuel).bucket := by
  induction fuel generalizing s with
  | zero => exact Nat.le_refl _
  | succ fuel ih =>
    rw [advance]
    split
    · have hnext := ih ⟨s.bucket + 1, s.ordinal, s.bucketEnd + eventCounts.getD (s.bucket + 1) 0⟩
      exact Nat.le_of_succ_le hnext
    · exact Nat.le_refl _

theorem advance_bucket_lt (fuel : Nat) (h : s.bucket < eventCounts.length) :
    (s.advance eventCounts fuel).bucket < eventCounts.length := by
  induction fuel generalizing s with
  | zero => exact h
  | succ fuel ih =>
    rw [advance]
    split
    · rename_i hnext
      rw [Bool.and_eq_true, decide_eq_true_iff, decide_eq_true_iff] at hnext
      exact ih hnext.2
    · exact h

end SubSkip

section

variable {α : Type} {mask : SubMask} {s : SubSkip} {s : SubSkip}

/-- Inside a bucket all elements share its fate. -/
theorem skipEach_append (mask : SubMask) (s : SubSkip) (l more : List α)
    (stays : s.ordinal + l.length ≤ s.bucketEnd ∨ mask.eventCounts.length ≤ s.bucket + 1) :
    skipEach mask s (l ++ more) = (if mask.keep[s.bucket]? = some false then l else [])
      ++ skipEach mask { s with ordinal := s.ordinal + l.length } more := by
  induction l generalizing s with
  | nil =>
    rw [ite_self]
    rfl
  | cons x rest ih =>
    rw [length_cons] at stays ⊢
    have hadvance : s.advance mask.eventCounts mask.eventCounts.length = s :=
      SubSkip.advance_stays (by omega)
    have hrest := ih s.count (by dsimp only [SubSkip.count]; omega)
    have hcount : ({ s.count with ordinal := s.count.ordinal + rest.length } : SubSkip)
        = { s with ordinal := s.ordinal + (rest.length + 1) } := by
      dsimp only [SubSkip.count]
      rw [Nat.add_right_comm, Nat.add_assoc]
    rw [hcount] at hrest
    rw [cons_append, skipEach, hadvance, SubSkip.keeps_eq, hrest]
    by_cases hkeep : mask.keep[s.bucket]? = some false
    · rw [decide_eq_true hkeep, SubSkip.bucket_count, if_pos hkeep, if_pos hkeep]
      rfl
    · rw [decide_eq_false hkeep, if_pos (by decide), SubSkip.bucket_count, if_neg hkeep,
        if_neg hkeep]

/-- A full bucket gives way to the next one. -/
theorem skipEach_next {l : List α} (size : Nat) (full : s.ordinal = s.bucketEnd)
    (next : mask.eventCounts[s.bucket + 1]? = some size) (positive : 0 < size) :
    skipEach mask s l = skipEach mask ⟨s.bucket + 1, s.ordinal, s.bucketEnd + size⟩ l := by
  obtain ⟨hlt, hsize⟩ := List.getElem?_eq_some_iff.mp next
  have hstays : ∀ fuel, SubSkip.advance mask.eventCounts fuel
      ⟨s.bucket + 1, s.ordinal, s.bucketEnd + size⟩
        = ⟨s.bucket + 1, s.ordinal, s.bucketEnd + size⟩ := fun fuel =>
    SubSkip.advance_stays (.inl (by dsimp only; omega))
  have hadvance : s.advance mask.eventCounts mask.eventCounts.length
      = ⟨s.bucket + 1, s.ordinal, s.bucketEnd + size⟩ := by
    obtain ⟨fuel, hfuel⟩ := Nat.exists_eq_succ_of_ne_zero (Nat.ne_zero_of_lt hlt)
    rw [hfuel, SubSkip.advance, if_pos, getD_eq_getElem?_getD, next, Option.getD_some, hstays]
    rw [Bool.and_eq_true, decide_eq_true_iff, decide_eq_true_iff]
    omega
  cases l with
  | nil => rfl
  | cons x rest =>
    rw [skipEach, skipEach, hadvance, hstays]

/-- From the start of a bucket on. -/
theorem skipEach_flatten (done : List (List α)) (bucket : List α) (rest : List (List α))
    (counts : mask.eventCounts = (done ++ bucket :: rest).map List.length)
    (nonempty : ∀ b ∈ rest, b ≠ []) :
    skipEach mask ⟨done.length, done.flatten.length, done.flatten.length + bucket.length⟩
        (bucket :: rest).flatten
      = excludedFrom mask.keep done.length (bucket :: rest) := by
  induction rest generalizing done bucket with
  | nil =>
    rw [flatten_cons, skipEach_append _ _ _ _ (.inl (Nat.le_refl _)), excludedFrom_cons]
    rfl
  | cons next rest ih =>
    have hnext := length_pos_iff.mpr (nonempty next mem_cons_self)
    have hcount : mask.eventCounts[done.length + 1]? = some next.length := by
      rw [counts, getElem?_map, getElem?_append_right (Nat.le_succ _),
        show done.length.succ - done.length = 1 by omega]
      rfl
    have hdone : ((done ++ [bucket]).length, (done ++ [bucket]).flatten.length)
        = (done.length + 1, done.flatten.length + bucket.length) := by
      rw [length_append, length_singleton, flatten_append, flatten_singleton,
        length_append]
    obtain ⟨hlength, hflatten⟩ := Prod.mk.inj hdone
    have hrest := ih (done ++ [bucket]) next
      (by rw [counts, append_assoc, singleton_append])
      fun b hb => nonempty b (mem_cons_of_mem _ hb)
    rw [hlength, hflatten] at hrest
    rw [flatten_cons, skipEach_append _ _ _ _ (.inl (Nat.le_refl _)), excludedFrom_cons,
      skipEach_next next.length rfl hcount hnext, hrest]

/-- With counts of the buckets themselves, the excluded buckets are skipped. -/
theorem skipEach_buckets (mask : SubMask) {buckets : List (List α)} (counts : mask.eventCounts = buckets.map List.length)
    (nonempty : ∀ bucket ∈ buckets, bucket ≠ []) :
    skipEach mask (.start mask.eventCounts) buckets.flatten = excluded mask.keep buckets := by
  cases buckets with
  | nil => rfl
  | cons bucket rest =>
    have hskip := skipEach_flatten [] bucket rest counts fun b hb => nonempty b (mem_cons_of_mem _ hb)
    have hstart : SubSkip.start mask.eventCounts
        = ⟨([] : List (List α)).length, ([] : List (List α)).flatten.length,
            ([] : List (List α)).flatten.length + bucket.length⟩ := by
      rw [counts]
      exact congrArg _ (Nat.zero_add _).symm
    rw [hstart]
    exact hskip

/-- One bucket is never left, however its size was recorded. -/
theorem skipEach_single (bucket : List α) (count : Nat) (keep : List Bool) :
    skipEach ⟨[count], keep⟩ (.start [count]) bucket = excluded keep [bucket] := by
  have hskip := skipEach_append ⟨[count], keep⟩ (.start [count]) bucket []
    (.inr (Nat.le_refl _))
  rw [append_nil] at hskip
  rw [hskip, excluded, excludedFrom_cons]
  rfl

/-- When every bucket is excluded, everything is skipped. -/
theorem skipEach_all (eventCounts : List Nat) (h : s.bucket < eventCounts.length) (l : List α) :
    skipEach ⟨eventCounts, List.replicate eventCounts.length false⟩ s l = l := by
  induction l generalizing s with
  | nil => rfl
  | cons x rest ih =>
    have hlt := SubSkip.advance_bucket_lt eventCounts.length h
    have hrest := ih (s := (s.advance eventCounts eventCounts.length).count) hlt
    rw [skipEach, SubSkip.keeps_eq, getElem?_replicate, if_pos hlt, if_neg (by decide), hrest]

/-- When only the first bucket is excluded, no more is skipped than its count. -/
theorem length_skipEach_first {eventCounts : List Nat} (h : 1 < eventCounts.length) (l : List α) :
    (skipEach ⟨eventCounts, [false]⟩ s l).length ≤ if s.bucket = 0 then s.bucketEnd - s.ordinal else 0 := by
  induction l generalizing s with
  | nil => exact Nat.zero_le _
  | cons x rest ih =>
    rw [skipEach]
    by_cases hstays : s.bucket = 0 ∧ s.ordinal < s.bucketEnd
    · have hadvance : s.advance eventCounts eventCounts.length = s :=
        SubSkip.advance_stays (.inl hstays.2)
      have hrest := ih (s := s.count)
      rw [SubSkip.bucket_count, if_pos hstays.1] at hrest
      have hcount : s.count.bucketEnd - s.count.ordinal = s.bucketEnd - (s.ordinal + 1) := rfl
      have hskips : s.keeps [false] = false := by
        rw [SubSkip.keeps_eq, hstays.1]
        rfl
      rw [hadvance, hskips, if_neg Bool.false_ne_true, if_pos hstays.1, length_cons]
      omega
    · have hbucket : (s.advance eventCounts eventCounts.length).bucket ≠ 0 := by
        by_cases hzero : s.bucket = 0
        · obtain ⟨fuel, hfuel⟩ := Nat.exists_eq_succ_of_ne_zero (Nat.ne_zero_of_lt h)
          rw [hfuel, SubSkip.advance, if_pos]
          · have hle := SubSkip.le_bucket_advance eventCounts fuel
              ⟨s.bucket + 1, s.ordinal, s.bucketEnd + eventCounts.getD (s.bucket + 1) 0⟩
            dsimp only at hle
            omega
          · rw [Bool.and_eq_true, decide_eq_true_iff, decide_eq_true_iff]
            omega
        · have hle := SubSkip.le_bucket_advance eventCounts eventCounts.length s
          omega
      have hkept : (s.advance eventCounts eventCounts.length).keeps [false] = true := by
        rw [SubSkip.keeps_eq, getElem?_eq_none (Nat.pos_of_ne_zero hbucket)]
        rfl
      have hrest := ih (s := (s.advance eventCounts eventCounts.length).count)
      rw [SubSkip.bucket_count, if_neg hbucket] at hrest
      rw [hkept]
      exact Nat.le_trans hrest (Nat.zero_le _)

end

/-- For every mask the skipped elements are the excluded ones exactly when the elements
counted are those of the buckets, and the recorded sizes are the real ones where a bucket
is left. -/
theorem skipEach_iff {size : Nat} {buckets : List (List α)} {events : List α}
    (documents : List α) (h : Buckets size buckets events) (hnil : buckets ≠ []) :
    (∀ keep, skipEach ⟨recordedSizes buckets, keep⟩ (.start (recordedSizes buckets)) documents
        = excluded keep buckets) ↔
      (events.length ≤ size ∨ size < 2 ^ 32) ∧ documents = events := by
  have hlength : (recordedSizes buckets).length = buckets.length := length_map _
  have hsome := length_pos_iff.mpr hnil
  -- excluding every bucket shows what is counted
  have hall : excluded (List.replicate buckets.length false) buckets = events := by
    have hskip := skipEach_all (buckets.map List.length) (s := .start (buckets.map List.length))
      (by rw [length_map]; exact hsome) buckets.flatten
    rw [skipEach_buckets _ rfl h.nonempty, length_map, h.order] at hskip
    exact hskip
  constructor
  · intro hskip
    have hsame : documents = events := by
      rw [← hall, ← hskip, ← hlength]
      exact (skipEach_all _ (by rw [hlength]; exact hsome) documents).symm
    refine ⟨?_, hsame⟩
    by_contra hlarge
    obtain ⟨hmany, hwide⟩ := not_or.mp hlarge
    match buckets, h with
    | [], _ => exact absurd rfl hnil
    | [bucket], h =>
      have hfits := h.fits bucket mem_cons_self
      rw [← h.order, flatten_singleton] at hmany
      exact hmany hfits
    | bucket :: next :: rest, h =>
      -- the first bucket is left before its end
      have hfull : bucket.length = size := h.full bucket mem_cons_self
      have htwo : 1 < (recordedSizes (bucket :: next :: rest)).length :=
        Nat.succ_lt_succ (Nat.succ_pos _)
      have hfirst : (skipEach ⟨recordedSizes (bucket :: next :: rest), [false]⟩
          (.start (recordedSizes (bucket :: next :: rest))) documents).length
            ≤ bucket.length % 2 ^ 32 :=
        length_skipEach_first htwo documents
      rw [hskip, excluded, excludedFrom_cons,
        if_pos (show ([false] : List Bool)[0]? = some false from rfl), length_append] at hfirst
      omega
  · rintro ⟨hsizes, rfl⟩ keep
    by_cases hsmall : size < 2 ^ 32
    · have hreal : recordedSizes buckets = buckets.map List.length := by
        apply map_congr_left
        intro bucket hbucket
        have hfits := h.fits bucket hbucket
        exact Nat.mod_eq_of_lt (by omega)
      rw [hreal, ← h.order]
      exact skipEach_buckets ⟨buckets.map List.length, keep⟩ rfl h.nonempty
    · have hfew := hsizes.resolve_right hsmall
      match buckets, h with
      | [], _ => exact absurd rfl hnil
      | [bucket], h =>
        have horder := h.order
        rw [flatten_singleton] at horder
        rw [← horder]
        exact skipEach_single bucket _ keep
      | bucket :: next :: rest, h =>
        have hfull : bucket.length = size := h.full bucket mem_cons_self
        have hnext := length_pos_iff.mpr
          (h.nonempty next (mem_cons_of_mem _ mem_cons_self))
        rw [← h.order, flatten_cons, flatten_cons, length_append,
          length_append] at hfew
        omega

/-! ## The documents of a chunk -/

variable {spans : List Bytes}

theorem Spans.streamSpans {s : GzipLineByteStream} (h : Spans s spans)
    {fuel : Nat} (enough : spans.length < fuel) : Reader.streamSpans fuel s = .ok spans := by
  induction h generalizing fuel with
  | finished done =>
    obtain ⟨fuel, rfl⟩ := Nat.exists_eq_succ_of_ne_zero (Nat.ne_zero_of_lt enough)
    rw [Reader.streamSpans, if_pos done]
  | last running read =>
    obtain ⟨fuel, rfl⟩ := Nat.exists_eq_succ_of_ne_zero (Nat.ne_zero_of_lt enough)
    rw [Reader.streamSpans, running, read]
    rfl
  | more running read some _ ih =>
    obtain ⟨fuel, rfl⟩ := Nat.exists_eq_succ_of_ne_zero (Nat.ne_zero_of_lt enough)
    have hrest := ih (Nat.lt_of_succ_lt_succ enough)
    rw [Reader.streamSpans, running, read]
    simp only [isEmpty_eq_false_iff.mpr some, Bool.false_eq_true, if_false, hrest]

variable {pos : Nat}

theorem mem_spanDocuments {chunk : Bytes} (h : d ∈ spanDocuments simd pos chunk) : pos ≤ d.pos := by
  unfold spanDocuments at h
  dsimp only at h
  split at h
  · exact absurd h not_mem_nil
  · obtain ⟨doc, -, rfl⟩ := mem_map.mp h
    exact Nat.le_trans (Nat.le_add_right _ _) (Nat.le_add_right _ _)

theorem mem_spansDocuments (h : d ∈ spansDocuments simd false pos spans) : pos ≤ d.pos := by
  induction spans generalizing pos with
  | nil => exact absurd h not_mem_nil
  | cons chunk rest ih =>
    rcases mem_append.mp h with h | h
    · exact mem_spanDocuments h
    · exact Nat.le_trans (Nat.le_add_right _ _) (ih h)

/-- What is left of spans that hold a newline comes after it. -/
theorem mem_spansDocuments_strip (cuts : LineSpans spans) (mem : newline ∈ spans.flatten)
    (h : d ∈ spansDocuments simd true pos spans) :
    pos + (throughFirstNewline spans.flatten).length ≤ d.pos := by
  cases spans with
  | nil => exact absurd h not_mem_nil
  | cons chunk rest =>
    have hchunk : newline ∈ chunk := by
      cases rest with
      | nil =>
        rw [flatten_cons, flatten_nil, append_nil] at mem
        exact mem
      | cons next rest =>
        apply mem_of_getLast?
        apply cuts
        exact mem_cons_self
    have hfirst := length_throughFirstNewline_le chunk
    rw [flatten_cons, throughFirstNewline_append_left hchunk]
    rcases mem_append.mp h with h | h
    · have hpos := mem_spanDocuments h
      rw [Bool.true_and, if_pos (decide_eq_true hchunk)] at hpos
      exact hpos
    · have hpos := mem_spansDocuments h
      omega

variable {simd : Simdjson} {f : IndexedFile} {bufferSize : Nat} {cidx : Nat}

namespace IndexedFile

/-- The line of a position. -/
def lineOf (f : IndexedFile) (pos : Nat) : Nat := lineStart f.content pos

/-- The lines of the events that the indexer counts in a chunk. -/
def eventLines (simd : Simdjson) (f : IndexedFile) (cidx : Nat) : List Nat :=
  (f.chunkEvents simd cidx).map fun event => f.lineOf event.pos

/-- The documents that the reader counts in the item of a chunk. -/
def countedDocuments (simd : Simdjson) (f : IndexedFile) (bufferSize cidx : Nat) :
    List ReadDocument :=
  ((itemDocuments simd f bufferSize (maskedItem f false cidx ⟨[], []⟩)).toOption.getD []).filter
    fun d => !d.isMeta

/-- Their lines. -/
def documentLines (simd : Simdjson) (f : IndexedFile) (bufferSize cidx : Nat) : List Nat :=
  (f.countedDocuments simd bufferSize cidx).map fun d => f.lineOf d.pos

/-- Where the line ends that ends first in a chunk; the reader begins the first chunk of
a file with the file. -/
def firstLineEnd (f : IndexedFile) (cidx : Nat) : Nat :=
  if cidx = 0 then 0
  else f.chunkStartByte cidx
    + (throughFirstNewline (f.content.drop (f.chunkStartByte cidx))).length

/-- Where the last line begins that reaches the end of a chunk. -/
def lastLineStart (f : IndexedFile) (cidx : Nat) : Nat := lineStart f.content (f.chunkEndByte cidx)

end IndexedFile

/-- For every mask of a chunk the documents skipped are on the lines of the excluded
events. -/
def SkipsExcluded (simd : Simdjson) (f : IndexedFile) (bufferSize subChunkEvents cidx : Nat) : Prop :=
  ∀ (filePureMatch : Bool) (keep : List Bool), ∃ skipped,
    skippedDocuments simd f bufferSize
        (maskedItem f filePureMatch cidx (f.subMask simd subChunkEvents cidx keep)) = .ok skipped ∧
      skipped.map (fun d => f.lineOf d.pos)
        = (excluded keep (f.subChunks simd subChunkEvents cidx)).map fun event => f.lineOf event.pos

/-- The reader and the indexer count on the same lines: the line that ends first in the
chunk holds no event, the bytes after its last newline hold no document, and the lines in
between hold as many of both. -/
structure CountsAlike (simd : Simdjson) (f : IndexedFile) (bufferSize cidx : Nat) : Prop where
  first : ∀ line ∈ f.eventLines simd cidx, f.firstLineEnd cidx ≤ line
  last : ∀ line ∈ f.documentLines simd bufferSize cidx, line < f.lastLineStart cidx
  between : (f.documentLines simd bufferSize cidx).filter (· < f.lastLineStart cidx)
    = (f.eventLines simd cidx).filter (f.firstLineEnd cidx ≤ ·)

theorem spansDocuments_of_nil {strip : Bool}
    (h : spans.flatten = []) : spansDocuments simd strip pos spans = [] := by
  induction spans generalizing strip pos with
  | nil => rfl
  | cons chunk rest ih =>
    obtain ⟨rfl, hrest⟩ := append_eq_nil_iff.mp h
    rw [spansDocuments, ih hrest, drop_nil]
    rfl

theorem spanning_maskedItem (h : cidx < f.members.length) (filePureMatch : Bool) (mask : SubMask) :
    Spanning f (maskedItem f filePureMatch cidx mask) cidx cidx where
  ordered := Nat.le_refl _
  last := h
  startByte := (chunk_bytes h).1
  endByte := (chunk_bytes h).2
  checkpoint := rfl

/-- A position is followed by the start of a line after its next newline. -/
theorem lineStart_throughFirstNewline {t : Bytes} {x : Nat} (h : newline ∈ t.drop x) :
    lineStart t (x + (throughFirstNewline (t.drop x)).length)
      = x + (throughFirstNewline (t.drop x)).length := by
  have hx : x ≤ t.length := by
    by_contra hgt
    rw [drop_of_length_le (by omega)] at h
    exact not_mem_nil h
  have hsplit : t = (t.take x ++ throughFirstNewline (t.drop x)) ++ afterFirstNewline (t.drop x) := by
    rw [append_assoc, throughFirstNewline_append, take_append_drop]
  have hstart := lineStart_of_ends hsplit
    (.inr (by rw [getLast?_append, throughFirstNewline_getLast? h]; rfl))
  rw [length_append, List.length_take, Nat.min_eq_left hx] at hstart
  exact hstart

/-- In a chunk that ends a line the reader counts from the end of its first one on. -/
theorem itemDocuments_spec (simd : Simdjson) (bufferSize : Nat) (h : cidx < f.members.length)
    (filePureMatch : Bool) (mask : SubMask) :
    ∃ docs, itemDocuments simd f bufferSize (maskedItem f filePureMatch cidx mask) = .ok docs ∧
      f.countedDocuments simd bufferSize cidx = docs.filter (fun d => !d.isMeta) ∧
      (newline ∈ slice f.content (f.chunkStartByte cidx) (f.chunkEndByte cidx) →
        ∀ d ∈ docs, f.firstLineEnd cidx ≤ f.lineOf d.pos) := by
  have hspan := spanning_maskedItem h filePureMatch mask
  obtain ⟨-, hlt, hend⟩ := hspan.bounds
  have hlen : f.content.length = f.getMaxBytes := rfl
  obtain ⟨spans, e, hspans, hflat, hcuts, hstops, henough⟩ := hspan.spans bufferSize
  have hdocs : itemDocuments simd f bufferSize (maskedItem f filePureMatch cidx mask)
      = .ok (spansDocuments simd (decide (cidx ≥ 1)) (f.chunkStartByte cidx) spans) := by
    rw [itemDocuments, hspan.clamped, if_neg (by omega), hspan.strips, hspans.streamSpans henough]
    rfl
  refine ⟨_, hdocs, ?_, ?_⟩
  · have hsame : itemDocuments simd f bufferSize (maskedItem f false cidx ⟨[], []⟩)
        = itemDocuments simd f bufferSize (maskedItem f filePureMatch cidx mask) := rfl
    rw [IndexedFile.countedDocuments, hsame, hdocs]
    rfl
  intro hends d hd
  unfold IndexedFile.firstLineEnd
  by_cases hzero : cidx = 0
  · rw [if_pos hzero]
    exact Nat.zero_le _
  · rw [if_neg hzero]
    rw [decide_eq_true (Nat.one_le_iff_ne_zero.mpr hzero)] at hd
    have hmem : newline ∈ spans.flatten := by
      have hafter := hstops.after
      rw [hflat]
      rcases hstops.line with heq | hline | ⟨rfl, -⟩
      · -- nothing was read
        rw [heq, slice_self] at hflat
        rw [spansDocuments_of_nil hflat] at hd
        exact absurd hd not_mem_nil
      · by_cases heq : e = f.chunkStartByte cidx
        · have hnil : spans.flatten = [] := by
            rw [hflat, heq]
            exact slice_self _ _
          rw [spansDocuments_of_nil hnil] at hd
          exact absurd hd not_mem_nil
        · have hstart : f.chunkStartByte cidx ≤ e := hafter
          have hnewline := (lineStart_after_newline f.content e).resolve_left (by omega)
          rw [hline] at hnewline
          exact newline_mem_slice.mpr ⟨e - 1, by change f.chunkStartByte cidx ≤ e - 1; omega,
            by omega, hnewline⟩
      · exact hends
    have hrest : throughFirstNewline spans.flatten
        = throughFirstNewline (f.content.drop (f.chunkStartByte cidx)) := by
      rw [hflat] at hmem ⊢
      exact (throughFirstNewline_append_left hmem).symm.trans
        (congrArg throughFirstNewline (take_append_drop _ _))
    have hpos := mem_spansDocuments_strip hcuts hmem hd
    rw [hrest] at hpos
    rw [hflat] at hmem
    have hdrop : newline ∈ f.content.drop (f.chunkStartByte cidx) := mem_of_mem_take hmem
    rw [← lineStart_throughFirstNewline hdrop]
    exact lineStart_mono hpos

/-- The events of a chunk stand before its last line start, and there are some only if
a line ends in it. -/
theorem chunkEvents_spec (simd : Simdjson) (h : cidx < f.members.length) {event : ObservedEvent}
    (mem : event ∈ f.chunkEvents simd cidx) :
    f.lineOf event.pos < f.lastLineStart cidx ∧
      newline ∈ slice f.content (f.chunkStartByte cidx) (f.chunkEndByte cidx) := by
  have hcontent : f.content.drop 0 = (f.members.map Member.content).flatten :=
    flatMap_def
  obtain ⟨hline, hmem⟩ := mem_drive (Carries.start f.content) hcontent mem
  have hbefore : ((f.members.map Member.content).take (cidx + 1)).flatten
      = contentBefore f.members (cidx + 1) := by
    rw [← map_take]
    rfl
  have hmember : (f.members.map Member.content).getD cidx [] = f.members[cidx].content := by
    rw [getD_eq_getElem?_getD, getElem?_map, getElem?_eq_getElem h]
    rfl
  have hslice : slice f.content (f.chunkStartByte cidx) (f.chunkEndByte cidx)
      = f.members[cidx].content := by
    have hsplit := f.content_eq_contentBefore (cidx + 1)
    have hnext : contentBefore f.members (cidx + 1)
        = contentBefore f.members cidx ++ f.members[cidx].content := by
      rw [contentBefore, contentBefore, take_succ_eq_append_getElem h, flatMap_append,
        flatMap_singleton]
    rw [(chunk_bytes h).1, (chunk_bytes h).2, slice, hsplit, hnext, append_assoc,
      drop_left, length_append, Nat.add_sub_cancel_left, take_left]
  rw [hbefore, Nat.zero_add, ← (chunk_bytes h).2] at hline
  rw [hmember] at hmem
  exact ⟨hline, hslice ▸ hmem⟩

/-- The same lines in all three parts of the chunk. -/
theorem countsAlike_iff (h : cidx < f.members.length) (events : f.chunkEvents simd cidx ≠ []) :
    f.documentLines simd bufferSize cidx = f.eventLines simd cidx ↔
      CountsAlike simd f bufferSize cidx := by
  obtain ⟨event, hevent⟩ := exists_mem_of_ne_nil _ events
  obtain ⟨docs, -, hcounted, hdocs⟩ := itemDocuments_spec simd bufferSize h false ⟨[], []⟩
  have hends := (chunkEvents_spec simd h hevent).2
  have hdocument : ∀ line ∈ f.documentLines simd bufferSize cidx, f.firstLineEnd cidx ≤ line := by
    intro line hline
    obtain ⟨d, hd, rfl⟩ := mem_map.mp hline
    rw [hcounted] at hd
    exact hdocs hends d (mem_of_mem_filter hd)
  have hindexed : ∀ line ∈ f.eventLines simd cidx, line < f.lastLineStart cidx := by
    intro line hline
    obtain ⟨event, hevent, rfl⟩ := mem_map.mp hline
    exact (chunkEvents_spec simd h hevent).1
  constructor
  · intro hsame
    have hfirst : ∀ line ∈ f.eventLines simd cidx, f.firstLineEnd cidx ≤ line := hsame ▸ hdocument
    refine ⟨hfirst, hsame ▸ hindexed, ?_⟩
    rw [hsame, filter_eq_self.mpr fun line hline => decide_eq_true (hindexed line hline),
      filter_eq_self.mpr fun line hline => decide_eq_true (hfirst line hline)]
  · intro halike
    have hbetween := halike.between
    rw [filter_eq_self.mpr fun line hline => decide_eq_true (halike.last line hline),
      filter_eq_self.mpr fun line hline => decide_eq_true (halike.first line hline)] at hbetween
    exact hbetween

theorem recordedSizes_map (g : α → β) (buckets : List (List α)) :
    recordedSizes (buckets.map (List.map g)) = recordedSizes buckets := by
  rw [recordedSizes, map_map]
  apply map_congr_left
  intro bucket _
  rw [Function.comp_apply, length_map]

/-- Whatever the mask, the reader skips the events of the excluded buckets exactly when the
chunk has no buckets, or both sides count alike and the size of a bucket that is left fits
the number it is recorded as. -/
theorem skipsExcluded_iff (simd : Simdjson) (f : IndexedFile) (bufferSize subChunkEvents : Nat)
    (cidx : Fin f.totalChunks) :
    SkipsExcluded simd f bufferSize subChunkEvents cidx ↔
      f.subChunks simd subChunkEvents cidx = [] ∨
        ((f.chunkEvents simd cidx).length ≤ subChunkEvents ∨ subChunkEvents < 2 ^ 32) ∧
          CountsAlike simd f bufferSize cidx := by
  have hcidx : (cidx : Nat) < f.members.length := f.totalChunks_eq ▸ cidx.isLt
  by_cases hnil : f.subChunks simd subChunkEvents cidx = []
  · refine iff_of_true ?_ (.inl hnil)
    intro filePureMatch keep
    refine ⟨[], ?_, ?_⟩
    · rw [skippedDocuments, if_pos]
      change (recordedSizes (f.subChunks simd subChunkEvents cidx)).isEmpty = true
      rw [hnil]
      rfl
    · rw [hnil]
      rfl
  rw [or_iff_right hnil]
  have hpositive : 0 < subChunkEvents := by
    by_contra hzero
    apply hnil
    rw [IndexedFile.subChunks, Nat.le_zero.mp (Nat.not_lt.mp hzero), subChunkBuckets_zero]
  have hbuckets : Buckets subChunkEvents (f.subChunks simd subChunkEvents cidx)
      (f.chunkEvents simd cidx) := subChunkBuckets_spec hpositive _
  have hevents : f.chunkEvents simd cidx ≠ [] := by
    intro hempty
    obtain ⟨bucket, hbucket⟩ := exists_mem_of_ne_nil _ hnil
    have horder := hbuckets.order
    rw [hempty] at horder
    exact hbuckets.nonempty bucket hbucket (flatten_eq_nil_iff.mp horder bucket hbucket)
  have hlines := hbuckets.map fun event => f.lineOf event.pos
  rw [← countsAlike_iff hcidx hevents]
  have hexact := skipEach_iff (f.documentLines simd bufferSize cidx) hlines
    fun h => hnil (map_eq_nil_iff.mp h)
  rw [recordedSizes_map, length_map] at hexact
  refine Iff.trans ?_ hexact
  have hskips : ∀ (filePureMatch : Bool) (keep : List Bool), ∃ skipped,
      skippedDocuments simd f bufferSize
          (maskedItem f filePureMatch cidx (f.subMask simd subChunkEvents cidx keep)) = .ok skipped ∧
        skipped.map (fun d => f.lineOf d.pos)
          = skipEach ⟨recordedSizes (f.subChunks simd subChunkEvents cidx), keep⟩
              (.start (recordedSizes (f.subChunks simd subChunkEvents cidx)))
              (f.documentLines simd bufferSize cidx) := by
    intro filePureMatch keep
    obtain ⟨docs, hdocs, hcounted, -⟩ := itemDocuments_spec simd bufferSize hcidx filePureMatch
      (f.subMask simd subChunkEvents cidx keep)
    have hsizes : (recordedSizes (f.subChunks simd subChunkEvents cidx)).isEmpty = false := by
      rw [isEmpty_eq_false_iff]
      exact fun h => hnil (map_eq_nil_iff.mp h)
    refine ⟨skipDocuments (f.subMask simd subChunkEvents cidx keep)
      (.start (recordedSizes (f.subChunks simd subChunkEvents cidx))) docs, ?_, ?_⟩
    · rw [skippedDocuments, if_neg, hdocs]
      · rfl
      · change ¬ (recordedSizes (f.subChunks simd subChunkEvents cidx)).isEmpty = true
        rw [hsizes]
        exact Bool.false_ne_true
    · rw [skipDocuments_eq, map_skipEach, ← hcounted]
      rfl
  constructor
  · intro h keep
    obtain ⟨skipped, hskipped, hlist⟩ := hskips false keep
    obtain ⟨skipped', hskipped', hexcluded⟩ := h false keep
    rw [hskipped] at hskipped'
    cases hskipped'
    rw [← hlist, hexcluded, excluded, excluded, map_excludedFrom]
  · intro h filePureMatch keep
    obtain ⟨skipped, hskipped, hlist⟩ := hskips filePureMatch keep
    refine ⟨skipped, hskipped, ?_⟩
    rw [hlist, h keep, excluded, excluded, map_excludedFrom]

/-- `{"ph":1}` -/
def completeEvent : Bytes := [123, 34, 112, 104, 34, 58, 49, 125]

/-- Its root. -/
def completeRoot : JsonValue := .object [("ph", .int ⟨1, by decide⟩)]

/-- A parser of lines that hold this event, for the files below. -/
def eventLineParser : Simdjson where
  parse text := if text = completeEvent then some completeRoot else none
  parseMany buffer := (positioned 0 (lines buffer)).filterMap fun line =>
    if line.2 = completeEvent ++ [newline] then some ⟨line.1, completeEvent.length, completeRoot⟩
    else none
  iterateMany buffer := (positioned 0 (lines buffer)).filterMap fun line =>
    if line.2 = completeEvent ∨ line.2 = completeEvent ++ [newline] then
      some ⟨line.1, (completeRoot.member ·)⟩
    else none
  parseMany_inside := by
    intro buffer doc hdoc
    obtain ⟨line, hline, heq⟩ := List.mem_filterMap.mp hdoc
    cases (Option.ite_none_right_eq_some.mp heq).2
    have hinside := (positioned_lines hline).2.1
    rw [Nat.zero_add] at hinside
    exact hinside

/-- Three events in two members, the second event in both. -/
def splitEventFile : IndexedFile :=
  fileOf [completeEvent ++ [newline] ++ completeEvent.take 4,
    completeEvent.drop 4 ++ [newline] ++ completeEvent ++ [newline]] (by decide)

/-- In buckets of one event the indexer counts the second event in the first bucket of the
second chunk and the third one in the second bucket. With only the first bucket excluded
the reader skips the third event, which is kept. -/
theorem skip_loses_kept_event :
    (skippedDocuments eventLineParser splitEventFile 64 (maskedItem splitEventFile false 1
        (splitEventFile.subMask eventLineParser 1 1 [false, true]))).map
          (List.map fun d => splitEventFile.lineOf d.pos) = .ok [18] ∧
      (splitEventFile.subChunks eventLineParser 1 1).map
          (List.map fun event => splitEventFile.lineOf event.pos) = [[9], [18]] ∧
      ¬ SkipsExcluded eventLineParser splitEventFile 64 1 1 := by
  have hskipped : (skippedDocuments eventLineParser splitEventFile 64 (maskedItem splitEventFile false 1
      (splitEventFile.subMask eventLineParser 1 1 [false, true]))).map
        (List.map fun d => splitEventFile.lineOf d.pos) = .ok [18] := by decide +kernel
  have hbuckets : (splitEventFile.subChunks eventLineParser 1 1).map
      (List.map fun event => splitEventFile.lineOf event.pos) = [[9], [18]] := by decide +kernel
  refine ⟨hskipped, hbuckets, fun hexact => ?_⟩
  obtain ⟨skipped, hskip, hlines⟩ := hexact false [false, true]
  rw [hskip] at hskipped
  have hread : skipped.map (fun d => splitEventFile.lineOf d.pos) = [18] := Except.ok.inj hskipped
  rw [hread] at hlines
  exact absurd hlines (by decide)

end DFTracer.Reader
