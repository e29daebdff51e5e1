/-
# Work items and the lines of the kept chunks

An item delivers the lines that start in its chunks when it reads to the end of its last
line and, if it does not begin the file, begins inside a line. An item that begins where
a line does loses that line to the rule for the end of a line begun before.
-/

import DFTracer.Reader.ChunkLines
import DFTracer.Reader.LineRanges

namespace DFTracer.Reader

open Gzip GzipLineByteStream List

variable {f : IndexedFile} {bufferSize : Nat} {item : ArrowWorkItem} {j k : Nat} {t : Bytes}
  {e perRange : Nat} {α : Type} {out : ArrowWorkItem → List Bytes} {items : List ArrowWorkItem}

/-- The chunks a reader may keep of a file, in order. -/
structure KeptChunks (f : IndexedFile) where
  chunks : List Nat
  sorted : chunks.Pairwise (· < ·)
  within : ∀ cidx ∈ chunks, cidx < f.totalChunks

/-- The lines that start in a chunk. -/
def IndexedFile.chunkLines (f : IndexedFile) (cidx : Nat) : List Bytes :=
  linesStartingIn f.content (f.chunkStartByte cidx) (f.chunkEndByte cidx)

theorem IndexedFile.totalChunks_eq (f : IndexedFile) : f.totalChunks = f.members.length := by
  rw [totalChunks, cachedMembers, length_map, length_range]

theorem chunk_bytes {cidx : Nat} (h : cidx < f.members.length) :
    f.chunkStartByte cidx = (contentBefore f.members cidx).length ∧
      f.chunkEndByte cidx = (contentBefore f.members (cidx + 1)).length := by
  have hspan : f.cachedMembers[cidx]? = some (recordOf f.members 0 cidx) := by
    rw [IndexedFile.cachedMembers, getElem?_map, getElem?_range h]
    rfl
  rw [IndexedFile.chunkStartByte, IndexedFile.chunkEndByte, hspan]
  exact ⟨rfl, f.recordOf_end cidx⟩

/-- An item over the chunks from `j` to `k`. -/
structure Spanning (f : IndexedFile) (item : ArrowWorkItem) (j k : Nat) : Prop where
  ordered : j ≤ k
  last : k < f.members.length
  startByte : item.startByte = (contentBefore f.members j).length
  endByte : item.endByte = (contentBefore f.members (k + 1)).length
  checkpoint : item.startAtCheckpoint = decide (j ≥ 1)

namespace Spanning

theorem bounds (h : Spanning f item j k) :
    f.rangeStart item.startByte = item.startByte ∧ item.startByte < item.endByte ∧
      item.endByte ≤ f.content.length := by
  have hstart := IndexedFile.rangeStart_contentBefore (Nat.lt_of_le_of_lt h.ordered h.last)
  have hgrow := f.length_contentBefore_mono (j := j + 1) (k := k + 1) (Nat.succ_le_succ h.ordered)
  have hnext := IndexedFile.length_contentBefore_lt (Nat.lt_of_le_of_lt h.ordered h.last)
  have hend := f.length_contentBefore_le (k + 1)
  rw [h.startByte, h.endByte]
  exact ⟨hstart.2, by omega, hend⟩

/-- Only the first chunk begins the file. -/
theorem start_pos (h : Spanning f item j k) :
    item.startAtCheckpoint = true ↔ 0 < item.startByte := by
  rw [h.checkpoint, h.startByte, decide_eq_true_iff]
  cases j with
  | zero => exact ⟨fun h => absurd h (by decide), fun h => absurd h (Nat.lt_irrefl 0)⟩
  | succ j =>
    have hlt := Nat.lt_of_le_of_lt h.ordered h.last
    have hfirst := IndexedFile.length_contentBefore_lt (f := f) (k := j) (by omega)
    exact ⟨fun _ => by omega, fun _ => Nat.succ_le_succ (Nat.zero_le j)⟩

end Spanning

theorem Spans.length_le {s : GzipLineByteStream} {spans : List Bytes} (h : Spans s spans) :
    spans.length ≤ spans.flatten.length := by
  induction h with
  | finished _ | last _ _ => exact Nat.le_refl 0
  | more _ _ some _ ih =>
    have hpos := length_pos_iff.mpr some
    rw [length_cons, flatten_cons, length_append]
    omega

namespace Spanning

/-- The spans of an item are the content from its start to where it stops. -/
theorem spans (h : Spanning f item j k) (bufferSize : Nat) :
    ∃ spans e, Spans (ensureInitialized f bufferSize item.endAtCheckpoint item.startByte item.endByte)
        spans ∧ spans.flatten = slice f.content item.startByte e ∧ LineSpans spans ∧
      ItemStops f (bufferOf bufferSize) item.endAtCheckpoint item.startByte item.endByte e ∧
      spans.length < f.getMaxBytes + 2 := by
  obtain ⟨hstart, hlt, hend⟩ := h.bounds
  have hlen : f.content.length = f.getMaxBytes := rfl
  have hinside : item.startByte < f.getMaxBytes := by omega
  have hreading := reading_ensureInitialized bufferSize hinside (Nat.le_of_lt hlt) hend
  obtain ⟨inflater, -, hinit⟩ := ensureInitialized_inside f bufferSize hinside item.endByte
  rw [hinit, hstart] at hreading
  rw [hstart] at hinit
  let stream : GzipLineByteStream :=
    { inflater, currentPosition := item.startByte, targetEndBytes := item.endByte,
      maxFileBytes := f.getMaxBytes, isFinished := false, partialLineBuffer := [],
      extendToLineBoundary := item.endAtCheckpoint, bufferSize := bufferOf bufferSize }
  have hstream : ensureInitialized f bufferSize item.endAtCheckpoint item.startByte item.endByte
      = stream := hinit item.endAtCheckpoint
  obtain ⟨spans, e, hspans, hflat, hcuts, hstops⟩ := spans_spec (s := stream) hreading hlt
  have hcount := hspans.length_le
  have hsmall : (slice f.content item.startByte e).length ≤ f.getMaxBytes := by
    rw [slice, List.length_take, length_drop]
    omega
  rw [hflat] at hcount
  exact ⟨spans, e, hstream ▸ hspans, hflat, hcuts, hstops, by omega⟩

/-- The end of an item lies in the file. -/
theorem clamped (h : Spanning f item j k) :
    (if item.endByte = 0 || item.endByte > f.getMaxBytes then f.getMaxBytes else item.endByte)
      = item.endByte := by
  obtain ⟨-, hlt, hend⟩ := h.bounds
  have hlen : f.content.length = f.getMaxBytes := rfl
  rw [if_neg (by simp only [Bool.or_eq_true, decide_eq_true_eq]; omega)]

theorem strips (h : Spanning f item j k) :
    (decide (item.startByte > 0) && item.startAtCheckpoint) = item.startAtCheckpoint := by
  cases hcheck : item.startAtCheckpoint with
  | false => rw [Bool.and_false]
  | true => rw [decide_eq_true (h.start_pos.mp hcheck), Bool.true_and]

end Spanning

/-- An item gives the lines of the content from its start to where it stops, without the
first one if it begins at a checkpoint. -/
theorem readArrow_spec (h : Spanning f item j k) (bufferSize : Nat) :
    ∃ e, ItemStops f (bufferOf bufferSize) item.endAtCheckpoint item.startByte item.endByte e ∧
      readArrow f bufferSize item
        = .ok (spanLines item.startAtCheckpoint (slice f.content item.startByte e)) := by
  obtain ⟨-, hlt, hend⟩ := h.bounds
  have hlen : f.content.length = f.getMaxBytes := rfl
  obtain ⟨spans, e, hspans, hflat, hcuts, hstops, henough⟩ := h.spans bufferSize
  have hread := hspans.readSpans item.startAtCheckpoint henough
  refine ⟨e, hstops, ?_⟩
  rw [readArrow, h.clamped, if_neg (by omega), h.strips, hread, hcuts.spansLines, hflat]

/-! ## Which items deliver their lines -/

/-- The last bytes of the file in one buffer, without a newline. -/
def ArrowWorkItem.Bare (f : IndexedFile) (bufferSize : Nat) (item : ArrowWorkItem) : Prop :=
  item.endByte = f.content.length ∧ newline ∉ slice f.content item.startByte f.content.length ∧
    f.content.length ≤ item.startByte + bufferOf bufferSize

/-- When an item delivers the lines that start in its range. One that drops the bytes up
to its first newline must begin inside a line. If no line starts in its range, it only
must not take the end of a line for one; otherwise it must reach the end of its last
line. -/
def ArrowWorkItem.Covers (f : IndexedFile) (bufferSize : Nat) (item : ArrowWorkItem) : Prop :=
  if item.startAtCheckpoint then
    if lineStart f.content item.startByte = item.startByte then item.Bare f bufferSize
    else if lineFrom f.content item.startByte = lineFrom f.content item.endByte then
      ¬ item.Bare f bufferSize
    else Reaches f.content (bufferOf bufferSize) item.endAtCheckpoint item.startByte item.endByte
  else Reaches f.content (bufferOf bufferSize) item.endAtCheckpoint item.startByte item.endByte

/-- The lines of a part of a range of whole lines. -/
theorem lines_slice_iff {u v p : Nat} (hu : u ≤ p) (he : e ≤ v) (hv : v ≤ t.length) (huv : u ≤ v) :
    (lines (slice t p e) = lines (slice t u v) ↔ u = v ∨ p = u ∧ e = v) ∧
      (lines (slice t p e)).flatten.length ≤ (lines (slice t u v)).flatten.length ∧
      ((lines (slice t p e)).flatten.length = (lines (slice t u v)).flatten.length →
        lines (slice t p e) = lines (slice t u v)) := by
  have hpart : (slice t p e).length = e - p := length_slice (Nat.le_trans he hv)
  have hwhole : (slice t u v).length = v - u := length_slice hv
  have hsame : u = v ∨ p = u ∧ e = v → lines (slice t p e) = lines (slice t u v) := by
    rintro (heq | ⟨rfl, rfl⟩)
    · have hnil : slice t p e = [] := by
        rw [← length_eq_zero_iff]
        omega
      rw [hnil, heq, slice_self]
    · rfl
  rw [flatten_lines, flatten_lines]
  refine ⟨⟨fun heq => ?_, hsame⟩, by omega, fun heq => hsame (by omega)⟩
  have hlength := congrArg (fun ls => ls.flatten.length) heq
  rw [flatten_lines, flatten_lines] at hlength
  omega

/-- Bytes with a newline, without their first line. -/
theorem afterFirstNewline_slice {a : Nat} (h : newline ∈ slice t a e) (ha : a ≤ e)
    (he : e ≤ t.length) :
    afterFirstNewline (slice t a e) = slice t (a + (throughFirstNewline (t.drop a)).length) e ∧
      a + (throughFirstNewline (t.drop a)).length ≤ e := by
  have hfirst : throughFirstNewline (slice t a e) = throughFirstNewline (t.drop a) := by
    conv_rhs => rw [← take_append_drop (e - a) (t.drop a)]
    exact (throughFirstNewline_append_left h).symm
  have hsplit := throughFirstNewline_append (slice t a e)
  have hlength := congrArg List.length hsplit
  rw [length_append, length_slice he, hfirst] at hlength
  have hle : a + (throughFirstNewline (t.drop a)).length ≤ e := by omega
  refine ⟨?_, hle⟩
  have hdrop := congrArg (List.drop (throughFirstNewline (t.drop a)).length) hsplit
  rw [hfirst, drop_left] at hdrop
  rw [hdrop, ← drop_slice (Nat.le_add_right _ _) hle he, Nat.add_sub_cancel_left]

/-- The bytes of an item either are at most those of its lines, and then the same only if
the lines are, or hold something that is no line of the file. -/
structure Fair (f : IndexedFile) (out expected : List Bytes) : Prop where
  fair : out.flatten.length ≤ expected.flatten.length ∧
      (out.flatten.length = expected.flatten.length → out = expected) ∨
    ∃ l ∈ out, l ∉ lines f.content

section

variable {e : Nat}

theorem plain_covers (hlt : item.startByte < item.endByte) (hend : item.endByte ≤ f.content.length)
    (hzero : item.startByte = 0)
    (stops : ItemStops f (bufferOf bufferSize) item.endAtCheckpoint item.startByte item.endByte e) :
    (spanLines false (slice f.content item.startByte e)
        = linesStartingIn f.content item.startByte item.endByte ↔
      Reaches f.content (bufferOf bufferSize) item.endAtCheckpoint item.startByte item.endByte) ∧
    Fair f (spanLines false (slice f.content item.startByte e))
      (linesStartingIn f.content item.startByte item.endByte) := by
  have hfrom : lineFrom f.content item.startByte = item.startByte := by
    rw [hzero]
    rfl
  have hto := le_lineFrom f.content item.endByte
  have hlines := lines_slice_iff (t := f.content) (u := item.startByte) (p := item.startByte)
    (Nat.le_refl _) stops.before (lineFrom_le hend) (by omega)
  rw [linesStartingIn_eq (Nat.le_of_lt hlt) hend, hfrom]
  refine ⟨?_, ⟨.inl hlines.2⟩⟩
  rw [← stops.reaches]
  refine hlines.1.trans ⟨fun h => ?_, fun h => .inr ⟨rfl, h⟩⟩
  rcases h with heq | ⟨-, h⟩
  · omega
  · exact h

/-- Without a newline, a range that is reached to its end is one buffer. -/
theorem le_of_reaches {t : Bytes} {size a y : Nat} {extend : Bool} (reached : Reaches t size extend a y)
    (none : newline ∉ slice t a y) : y ≤ a + size := by
  obtain ⟨p, hp, hlast, -⟩ := reached
  cases hp with
  | here => exact hlast
  | next full line rest =>
    have hle := lineStart_le t (a + size)
    have hnewline := (lineStart_after_newline t (a + size)).resolve_left (by omega)
    exact absurd (newline_mem_slice.mpr ⟨_, by omega, by omega, hnewline⟩) none

/-- The rest of a line is not a line. -/
theorem rest_not_mem_lines {t : Bytes} {a : Nat} (ha : a < t.length) (inside : lineStart t a ≠ a)
    (none : newline ∉ slice t a t.length) : slice t a t.length ∉ lines t := by
  intro hmem
  obtain ⟨before, hsplit, -, hends⟩ := line_without_newline hmem none
  have hlength := congrArg List.length hsplit
  rw [length_append, length_slice (Nat.le_refl _)] at hlength
  have hstart := lineStart_of_ends hsplit hends
  rw [show before.length = a by omega] at hstart
  exact inside hstart

/-- An item that stops at once delivers nothing. -/
theorem covers_of_nothing (hlt : item.startByte < item.endByte) (check : item.startAtCheckpoint = true)
    (stops : ItemStops f (bufferOf bufferSize) item.endAtCheckpoint item.startByte item.endByte
      item.startByte) :
    item.Covers f bufferSize
      ↔ lineFrom f.content item.startByte = lineFrom f.content item.endByte := by
  have hto := le_lineFrom f.content item.endByte
  have hnever : ¬ Reaches f.content (bufferOf bufferSize) item.endAtCheckpoint item.startByte
      item.endByte := fun h => by
    have heq := stops.reaches.mpr h
    omega
  have hbare : ¬ item.Bare f bufferSize := by
    rintro ⟨hfile, -, hbuffer⟩
    exact hnever ((reaches_iff_of_le (by omega)).mpr (.inl hfile))
  rw [ArrowWorkItem.Covers, if_pos check]
  by_cases hline : lineStart f.content item.startByte = item.startByte
  · rw [if_pos hline, lineFrom, if_pos hline]
    exact ⟨fun h => absurd h hbare, fun h => by omega⟩
  · rw [if_neg hline]
    by_cases hsame : lineFrom f.content item.startByte = lineFrom f.content item.endByte
    · rw [if_pos hsame]
      exact ⟨fun _ => hsame, fun _ => hbare⟩
    · rw [if_neg hsame]
      exact ⟨fun h => absurd h hnever, fun h => absurd h hsame⟩

theorem stripped_covers (hlt : item.startByte < item.endByte)
    (hend : item.endByte ≤ f.content.length) (check : item.startAtCheckpoint = true)
    (stops : ItemStops f (bufferOf bufferSize) item.endAtCheckpoint item.startByte item.endByte e) :
    (spanLines true (slice f.content item.startByte e)
        = linesStartingIn f.content item.startByte item.endByte ↔ item.Covers f bufferSize) ∧
    Fair f (spanLines true (slice f.content item.startByte e))
      (linesStartingIn f.content item.startByte item.endByte) := by
  have hsize := lineFrom_le hend
  have hmono := lineFrom_mono (Nat.le_of_lt hlt) hend
  have hafter := stops.after
  have hbefore := stops.before
  rw [linesStartingIn_eq (Nat.le_of_lt hlt) hend]
  by_cases hmem : newline ∈ slice f.content item.startByte e
  · -- the item drops its bytes up to the first newline
    obtain ⟨hrest, hle⟩ := afterFirstNewline_slice hmem hafter (Nat.le_trans hbefore hsize)
    have hbare : ¬ item.Bare f bufferSize := by
      rintro ⟨-, hnone, -⟩
      obtain ⟨i, hlow, hhigh, hnewline⟩ := newline_mem_slice.mp hmem
      exact hnone (newline_mem_slice.mpr ⟨i, hlow, by omega, hnewline⟩)
    have hout : spanLines true (slice f.content item.startByte e) = lines (slice f.content
        (item.startByte + (throughFirstNewline (f.content.drop item.startByte)).length) e) := by
      rw [spanLines, if_pos (by simpa using hmem), hrest]
    have hsome : 0 < (throughFirstNewline (f.content.drop item.startByte)).length := by
      rw [length_pos_iff]
      apply throughFirstNewline_ne_nil
      rw [← length_pos_iff, length_drop]
      omega
    rw [hout, ArrowWorkItem.Covers, if_pos check]
    by_cases hline : lineStart f.content item.startByte = item.startByte
    · have hfrom : lineFrom f.content item.startByte = item.startByte := by
        rw [lineFrom, if_pos hline]
      have hlines := lines_slice_iff (t := f.content) (u := item.startByte)
        (p := item.startByte + (throughFirstNewline (f.content.drop item.startByte)).length)
        (Nat.le_add_right _ _) hbefore hsize (by omega)
      rw [if_pos hline, hfrom]
      refine ⟨hlines.1.trans ⟨fun h => by omega, fun h => absurd h hbare⟩, ⟨.inl hlines.2⟩⟩
    · have hfrom : lineFrom f.content item.startByte
          = item.startByte + (throughFirstNewline (f.content.drop item.startByte)).length := by
        rw [lineFrom, if_neg hline]
      have hlines := lines_slice_iff (t := f.content) (Nat.le_refl _) hbefore hsize hmono
      rw [if_neg hline, ← hfrom]
      refine ⟨hlines.1.trans ?_, ⟨.inl hlines.2⟩⟩
      by_cases hsame : lineFrom f.content item.startByte = lineFrom f.content item.endByte
      · rw [if_pos hsame]
        exact ⟨fun _ => hbare, fun _ => .inl hsame⟩
      · rw [if_neg hsame, ← stops.reaches]
        exact ⟨fun h => (h.resolve_left hsame).2, fun h => .inr ⟨rfl, h⟩⟩
  · have hout : spanLines true (slice f.content item.startByte e)
        = lines (slice f.content item.startByte e) := by
      rw [spanLines, if_neg (by simpa using hmem)]
    rw [hout]
    by_cases hstart : e = item.startByte
    · -- nothing was read
      subst hstart
      have hlines := lines_slice_iff (t := f.content) (e := lineFrom f.content item.startByte)
        (Nat.le_refl _) hmono hsize hmono
      rw [slice_self] at hlines
      rw [slice_self, covers_of_nothing hlt check stops]
      refine ⟨hlines.1.trans ?_, ⟨.inl hlines.2⟩⟩
      exact ⟨fun h => h.elim id And.right, Or.inl⟩
    rcases stops.line with heq | hline | ⟨rfl, hfile⟩
    · exact absurd heq hstart
    · have hnewline := (lineStart_after_newline f.content e).resolve_left (by omega)
      rw [hline] at hnewline
      exact absurd (newline_mem_slice.mpr ⟨e - 1, by omega, by omega, hnewline⟩) hmem
    · -- the rest of the file is one piece
      have hfile' : item.endByte = f.content.length := hfile
      have hlast : lineFrom f.content item.endByte = item.endByte := by
        rw [hfile']
        exact lineFrom_length f.content
      have hbare : item.Bare f bufferSize := by
        refine ⟨hfile', hfile' ▸ hmem, ?_⟩
        have hreach := le_of_reaches (stops.reaches.mp hlast.symm) hmem
        omega
      rw [hlast, ArrowWorkItem.Covers, if_pos check]
      by_cases hline : lineStart f.content item.startByte = item.startByte
      · rw [if_pos hline, lineFrom, if_pos hline]
        exact ⟨⟨fun _ => hbare, fun _ => rfl⟩, ⟨.inl ⟨Nat.le_refl _, fun _ => rfl⟩⟩⟩
      · have hfrom : lineFrom f.content item.startByte = item.endByte := by
          have hnone : newline ∉ f.content.drop item.startByte := by
            rw [hfile', slice, take_of_length_le (by rw [length_drop])] at hmem
            exact hmem
          rw [lineFrom, if_neg hline, throughFirstNewline_of_not_mem hnone, length_drop]
          omega
        have hone : lines (slice f.content item.startByte item.endByte)
            = [slice f.content item.startByte item.endByte] := by
          apply linesFrom_of_not_mem [] hmem
          rw [nil_append, ← length_pos_iff, length_slice hend]
          omega
        rw [if_neg hline, hfrom, hlast, if_pos rfl, hone, slice_self]
        refine ⟨⟨fun h => absurd h (cons_ne_nil _ _), fun h => absurd hbare h⟩, ⟨.inr ?_⟩⟩
        refine ⟨_, mem_singleton_self _, ?_⟩
        rw [hfile'] at hmem ⊢
        exact rest_not_mem_lines (by omega) hline hmem

end

/-- The lines that start in the range of an item. -/
def ArrowWorkItem.lines (f : IndexedFile) (item : ArrowWorkItem) : List Bytes :=
  linesStartingIn f.content item.startByte item.endByte

/-- What an item delivers. -/
theorem readArrow_covers (h : Spanning f item j k) (bufferSize : Nat) :
    ∃ out, readArrow f bufferSize item = .ok out ∧
      (out = item.lines f ↔ item.Covers f bufferSize) ∧ Fair f out (item.lines f) := by
  obtain ⟨-, hlt, hend⟩ := h.bounds
  obtain ⟨e, hstops, hread⟩ := readArrow_spec h bufferSize
  refine ⟨_, hread, ?_⟩
  cases hcheck : item.startAtCheckpoint with
  | true => exact stripped_covers hlt hend hcheck hstops
  | false =>
    have hzero : item.startByte = 0 := by
      have hpos := h.start_pos
      rw [hcheck] at hpos
      by_contra hne
      exact absurd (hpos.mpr (by omega)) Bool.false_ne_true
    rw [ArrowWorkItem.Covers, hcheck]
    exact plain_covers hlt hend hzero hstops

/-- A group is a run of consecutive chunks. -/
theorem take_groupSize (perRange c : Nat) (rest : List Nat) :
    (c :: rest).take (groupSize perRange (c :: rest))
      = List.range' c (groupSize perRange (c :: rest)) := by
  induction perRange generalizing c rest with
  | zero => rfl
  | succ perRange ih =>
    cases rest with
    | nil => rfl
    | cons next rest =>
      rw [groupSize]
      by_cases hnext : next = c + 1
      · rw [if_pos hnext, take_succ_cons, ih next rest, range'_succ, hnext]
      · rw [if_neg hnext]
        rfl

theorem groupSize_pos (positive : 0 < perRange) (c : Nat) (rest : List Nat) :
    0 < groupSize perRange (c :: rest) := by
  obtain ⟨perRange, rfl⟩ := Nat.exists_eq_succ_of_ne_zero (Nat.ne_of_gt positive)
  cases rest with
  | nil => exact Nat.one_pos
  | cons next rest =>
    rw [groupSize]
    split
    · exact Nat.succ_pos _
    · exact Nat.one_pos

/-- Consecutive chunks hold the lines between the ends of their run. -/
theorem flatMap_chunkLines {j n : Nat} (within : j + n ≤ f.members.length) :
    (List.range' j n).flatMap f.chunkLines = linesStartingIn f.content
      (contentBefore f.members j).length (contentBefore f.members (j + n)).length := by
  induction n generalizing j with
  | zero => exact (linesStartingIn_self _ (f.length_contentBefore_le j)).symm
  | succ n ih =>
    have hlt : j < f.members.length := by omega
    obtain ⟨hstart, hend⟩ := chunk_bytes hlt
    have hrest := ih (j := j + 1) (by omega)
    rw [show j + 1 + n = j + (n + 1) by omega] at hrest
    rw [range'_succ, flatMap_cons, hrest, IndexedFile.chunkLines, hstart, hend]
    exact linesStartingIn_append (f.length_contentBefore_mono (Nat.le_succ j))
      (f.length_contentBefore_mono (by omega)) (f.length_contentBefore_le _)

/-- The item of a run of chunks, without a window of the user's. -/
theorem workItem_spanning (filePureMatch more : Bool) (ordered : j ≤ k) (last : k < f.members.length) :
    ∃ item, workItem f filePureMatch {} j k more = some item ∧ Spanning f item j k := by
  refine ⟨_, rfl, ordered, last, ?_, ?_, ?_⟩
  · exact (chunk_bytes (Nat.lt_of_le_of_lt ordered last)).1
  · exact (chunk_bytes last).2
  · exact Bool.true_and _

/-- The groups of kept chunks hold the lines of the kept chunks. -/
theorem emitGroups_spec (filePureMatch : Bool) (positive : 0 < perRange)
    {kept : List Nat} (within : ∀ cidx ∈ kept, cidx < f.members.length) {fuel : Nat}
    (enough : kept.length ≤ fuel) :
    (∀ item ∈ emitGroups f filePureMatch {} perRange fuel kept, ∃ j k, Spanning f item j k) ∧
      (emitGroups f filePureMatch {} perRange fuel kept).flatMap (ArrowWorkItem.lines f)
        = kept.flatMap f.chunkLines := by
  induction fuel generalizing kept with
  | zero =>
    obtain rfl : kept = [] := length_eq_zero_iff.mp (Nat.le_zero.mp enough)
    exact ⟨fun item hitem => absurd hitem not_mem_nil, rfl⟩
  | succ fuel ih =>
    cases kept with
    | nil => exact ⟨fun item hitem => absurd hitem not_mem_nil, rfl⟩
    | cons c rest =>
      have htake := take_groupSize perRange c rest
      have hpos := groupSize_pos positive c rest
      generalize hsize : groupSize perRange (c :: rest) = size at htake hpos
      obtain ⟨n, rfl⟩ := Nat.exists_eq_succ_of_ne_zero (Nat.ne_of_gt hpos)
      have hlast : ((c :: rest).take (n + 1)).getLastD c = c + n := by
        rw [htake, getLastD_eq_getLast?, getLast?_range']
        rfl
      have hmem : c + n ∈ c :: rest := by
        apply mem_of_mem_take (i := n + 1)
        rw [htake, mem_range'_1]
        omega
      obtain ⟨item, hitem, hspan⟩ := workItem_spanning (f := f) filePureMatch
        (!((c :: rest).drop (n + 1)).isEmpty) (Nat.le_add_right c n) (within _ hmem)
      have hleft : ((c :: rest).drop (n + 1)).length ≤ fuel := by
        rw [length_drop]
        omega
      obtain ⟨hitems, hlines⟩ := ih
        (fun cidx hcidx => within cidx (mem_of_mem_drop hcidx)) hleft
      have hemit : emitGroups f filePureMatch {} perRange (fuel + 1) (c :: rest)
          = item :: emitGroups f filePureMatch {} perRange fuel ((c :: rest).drop (n + 1)) := by
        rw [emitGroups]
        simp only [hsize, hlast, hitem]
        rfl
      rw [hemit]
      constructor
      · intro other hother
        rcases mem_cons.mp hother with rfl | hother
        · exact ⟨_, _, hspan⟩
        · exact hitems other hother
      · have hgroup : item.lines f = ((c :: rest).take (n + 1)).flatMap f.chunkLines := by
          rw [htake, flatMap_chunkLines (Nat.succ_le_of_lt (within _ hmem)),
            ArrowWorkItem.lines, hspan.startByte, hspan.endByte]
          rfl
        rw [flatMap_cons, hlines, hgroup, ← flatMap_append, take_append_drop]

/-! ## All items -/

theorem flatten_flatMap_cons (g : α → List Bytes) (a : α) (rest : List α) :
    ((a :: rest).flatMap g).flatten.length
      = (g a).flatten.length + (rest.flatMap g).flatten.length := by
  rw [flatMap_cons, flatten_append, length_append]

/-- Lists that are no longer one by one and together as long are equal one by one. -/
theorem eq_of_flatten_length {out expected : α → List Bytes} {items : List α}
    (fair : ∀ a ∈ items, (out a).flatten.length ≤ (expected a).flatten.length ∧
      ((out a).flatten.length = (expected a).flatten.length → out a = expected a))
    (same : (items.flatMap out).flatten.length = (items.flatMap expected).flatten.length) :
    ∀ a ∈ items, out a = expected a := by
  have hle : ∀ rest : List α, (∀ a ∈ rest, a ∈ items) →
      (rest.flatMap out).flatten.length ≤ (rest.flatMap expected).flatten.length := by
    intro rest hrest
    induction rest with
    | nil => exact Nat.le_refl _
    | cons a rest ih =>
      rw [flatten_flatMap_cons, flatten_flatMap_cons]
      exact Nat.add_le_add (fair a (hrest a mem_cons_self)).1
        (ih fun b hb => hrest b (mem_cons_of_mem a hb))
  induction items with
  | nil => exact fun a ha => absurd ha not_mem_nil
  | cons a rest ih =>
    rw [flatten_flatMap_cons, flatten_flatMap_cons] at same
    have hfirst := fair a mem_cons_self
    have hrest := hle rest fun b hb => mem_cons_of_mem a hb
    intro b hb
    rcases mem_cons.mp hb with rfl | hb
    · exact hfirst.2 (by omega)
    · apply ih (fun c hc => fair c (mem_cons_of_mem a hc)) (by omega) _ b hb
      intro some hsome
      exact hle some fun c hc => mem_cons_of_mem a (hsome c hc)

/-- Where every item is fair, all lines are delivered once exactly when each item
delivers its own. -/
theorem perm_flatMap_iff {expected : ArrowWorkItem → List Bytes}
    (fair : ∀ item ∈ items, Fair f (out item) (expected item))
    (inFile : ∀ item ∈ items, ∀ l ∈ expected item, l ∈ lines f.content) :
    (items.flatMap out).Perm (items.flatMap expected) ↔ ∀ item ∈ items, out item = expected item := by
  constructor
  · intro perm
    apply eq_of_flatten_length _ perm.flatten.length_eq
    intro item hitem
    rcases (fair item hitem).fair with hfair | ⟨l, hout, hnot⟩
    · exact hfair
    · have hmem := perm.mem_iff.mp (mem_flatMap.mpr ⟨item, hitem, hout⟩)
      obtain ⟨other, hother, hexpected⟩ := mem_flatMap.mp hmem
      exact absurd (inFile other hother l hexpected) hnot
  · intro same
    rw [flatMap_congr same]

theorem readItems_eq (reads : ∀ item ∈ items, readArrow f bufferSize item = .ok (out item)) :
    readItems f bufferSize items = .ok (items.flatMap out) := by
  induction items with
  | nil => rfl
  | cons item items ih =>
    rw [readItems, reads item mem_cons_self,
      ih fun other hother => reads other (mem_cons_of_mem item hother)]
    rfl

/-- The items of a file hold the lines of its kept chunks. -/
theorem enumerateWorkItems_spec (kept : KeptChunks f) (masks : Nat → Option SubMask)
    (filePureMatch : Bool) (maxWorkers : Nat) :
    (∀ item ∈ enumerateWorkItems f kept.chunks masks filePureMatch maxWorkers,
      ∃ j k, Spanning f item j k) ∧
    ((enumerateWorkItems f kept.chunks masks filePureMatch maxWorkers).flatMap
      (ArrowWorkItem.lines f)).Perm (kept.chunks.flatMap f.chunkLines) := by
  have hwithin : ∀ cidx ∈ kept.chunks, cidx < f.members.length := by
    intro cidx hcidx
    rw [← f.totalChunks_eq]
    exact kept.within cidx hcidx
  have hmasked : ∀ {cidx : Nat} (mask : SubMask), cidx < f.members.length →
      Spanning f (maskedItem f filePureMatch cidx mask) cidx cidx := fun mask hlt =>
    ⟨Nat.le_refl _, hlt, (chunk_bytes hlt).1, (chunk_bytes hlt).2, rfl⟩
  obtain ⟨hitems, hgroups⟩ := emitGroups_spec (f := f) filePureMatch
    (Nat.le_max_left 1 (((kept.chunks.filter fun cidx => (masks cidx).isNone).length
      + max 1 maxWorkers - 1) / max 1 maxWorkers))
    (fun cidx hcidx => hwithin cidx (mem_of_mem_filter hcidx)) (Nat.le_refl _)
  constructor
  · intro item hitem
    rcases mem_append.mp hitem with hitem | hitem
    · obtain ⟨cidx, hcidx, hmask⟩ := mem_filterMap.mp hitem
      obtain ⟨mask, -, rfl⟩ := Option.map_eq_some_iff.mp hmask
      exact ⟨_, _, hmasked mask (hwithin cidx hcidx)⟩
    · exact hitems item hitem
  · rw [enumerateWorkItems, flatMap_append, emitWorkItems, hgroups]
    have hsingle : (kept.chunks.filterMap fun cidx =>
        (masks cidx).map (maskedItem f filePureMatch cidx)).flatMap (ArrowWorkItem.lines f)
        = (kept.chunks.filter fun cidx => !(masks cidx).isNone).flatMap f.chunkLines := by
      generalize kept.chunks = chunks
      induction chunks with
      | nil => rfl
      | cons cidx rest ih =>
        rw [filterMap_cons, filter_cons]
        cases hmask : masks cidx with
        | none => exact ih
        | some mask =>
          simp only [Option.map_some, flatMap_cons, ih]
          rfl
    rw [hsingle, ← flatMap_append]
    apply List.Perm.flatMap_right
    exact perm_append_comm.trans (filter_append_perm _ _)

/-- `"a\n"` and `"b\nc\n"` in a member each. -/
def alignedFile : IndexedFile := fileOf [[97, 10], [98, 10, 99, 10]] (by decide)

def bothChunks : KeptChunks alignedFile := ⟨[0, 1], by decide, by decide⟩

end DFTracer.Reader
