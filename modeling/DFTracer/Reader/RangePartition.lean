/-
# Byte ranges and the lines of a file

Consecutive ranges are read one after the other. A range leaves the line across its end to the
range after it, which looks back for the start of that line. The look-back reaches 512 bytes and
not across the start of a member, a line longer than the buffer stops its range, and line by line
the last line needs its newline. Where none of this happens the ranges deliver each line once.
-/

import DFTracer.Reader.CompleteLines

namespace DFTracer.Reader

open Gzip List

/-- Positions in order at which `[0, size)` is cut. -/
structure Split (size : Nat) where
  cuts : List Nat
  sorted : cuts.Pairwise (· ≤ ·)
  within : ∀ c ∈ cuts, c ≤ size

/-- The consecutive ranges from a position to the end. -/
def rangesFrom (size : Nat) : Nat → List Nat → List (Nat × Nat)
  | a, [] => [(a, size)]
  | a, c :: cuts => (a, c) :: rangesFrom size c cuts

def Split.ranges {size : Nat} (split : Split size) : List (Nat × Nat) := rangesFrom size 0 split.cuts

/-- Read ranges one after the other. -/
def readAll {α : Type} (read : Nat → Nat → Except ReaderError (List α)) :
    List (Nat × Nat) → Except ReaderError (List α)
  | [] => .ok []
  | range :: ranges =>
    match read range.1 range.2 with
    | .error e => .error e
    | .ok out =>
      match readAll read ranges with
      | .error e => .error e
      | .ok rest => .ok (out ++ rest)

/-- The buffer of a stream made with this size. -/
def bufferOf (bufferSize : Nat) : Nat := if bufferSize > 0 then bufferSize else defaultBufferSize

/-- Every line with its newline fits the buffer. -/
def LinesFit (f : IndexedFile) (bufferSize : Nat) : Prop :=
  ∀ l ∈ lines f.content, l.length ≤ bufferOf bufferSize

/-- The line of every cut starts in the cut's member and within the look-back. -/
def CutsInView (f : IndexedFile) (cuts : List Nat) : Prop :=
  ∀ c ∈ cuts, c < f.getMaxBytes →
    f.anchor c ≤ lineStart f.content c ∧ c - lineStart f.content c ≤ lineSearchLookback

/-- The last line has its newline. -/
def EndsLine (content : Bytes) : Prop := content = [] ∨ content.getLast? = some newline

variable {f : IndexedFile}

theorem rangeStart_eq_iff {c : Nat} : f.rangeStart c = lineStart f.content c ↔
    f.anchor c ≤ lineStart f.content c ∧ c - lineStart f.content c ≤ lineSearchLookback := by
  unfold IndexedFile.rangeStart
  omega

/-! ## Long lines -/

variable {bytes : Bytes} {p : Nat} {t : Bytes} {bufferSize a b : Nat} {stop : Nat → Nat → Nat}

theorem linesFrom_of_not_mem (begun : Bytes) (hmem : newline ∉ bytes)
    (hne : begun ++ bytes ≠ []) : linesFrom begun bytes = [begun ++ bytes] := by
  induction bytes generalizing begun with
  | nil =>
    rw [append_nil] at hne ⊢
    rw [linesFrom, if_neg (by simpa using hne)]
  | cons b rest ih =>
    rw [mem_cons, not_or] at hmem
    rw [linesFrom, if_neg (Ne.symm hmem.1), ih _ hmem.2 (by simp), append_assoc,
      singleton_append]

theorem linesFrom_throughFirstNewline {begun : Bytes} (hmem : newline ∈ bytes) :
    linesFrom begun (throughFirstNewline bytes) = [begun ++ throughFirstNewline bytes] := by
  induction bytes generalizing begun with
  | nil => exact absurd hmem not_mem_nil
  | cons b rest ih =>
    rw [throughFirstNewline]
    by_cases hb : b = newline
    · rw [if_pos hb, linesFrom, if_pos hb]
      rfl
    · rw [if_neg hb, linesFrom, if_neg hb,
        ih ((mem_cons.mp hmem).resolve_left (Ne.symm hb)), append_assoc,
        singleton_append]

theorem throughFirstNewline_ne_nil (h : bytes ≠ []) : throughFirstNewline bytes ≠ [] := by
  cases bytes with
  | nil => exact absurd rfl h
  | cons b rest =>
    rw [throughFirstNewline]
    split <;> exact cons_ne_nil _ _

/-- The first line and those after it. -/
theorem lines_of_ne_nil (h : bytes ≠ []) :
    lines bytes = throughFirstNewline bytes :: lines (afterFirstNewline bytes) := by
  have hsplit := throughFirstNewline_append bytes
  by_cases hmem : newline ∈ bytes
  · have hlines := lines_append (a := throughFirstNewline bytes) (b := afterFirstNewline bytes)
      (.inr (.inr (throughFirstNewline_getLast? hmem)))
    have hone : lines (throughFirstNewline bytes) = [throughFirstNewline bytes] :=
      linesFrom_throughFirstNewline hmem
    rw [hsplit, hone] at hlines
    exact hlines
  · rw [throughFirstNewline_of_not_mem hmem] at hsplit ⊢
    rw [append_right_eq_self.mp hsplit, lines, linesFrom_of_not_mem [] hmem h]
    rfl

theorem newline_not_mem_dropLast (bytes : Bytes) :
    newline ∉ (throughFirstNewline bytes).dropLast := by
  induction bytes with
  | nil => exact not_mem_nil
  | cons b rest ih =>
    rw [throughFirstNewline]
    by_cases hb : b = newline
    · rw [if_pos hb]
      exact not_mem_nil
    · rw [if_neg hb]
      cases htail : throughFirstNewline rest with
      | nil => exact not_mem_nil
      | cons x xs =>
        rw [htail] at ih
        rw [dropLast_cons_of_ne_nil (cons_ne_nil x xs), mem_cons, not_or]
        exact ⟨Ne.symm hb, ih⟩

/-- A line stands somewhere in the bytes, after a newline or at the beginning, and has
no newline before its last byte. -/
theorem mem_lines {l : Bytes} (h : l ∈ lines bytes) :
    ∃ before after, bytes = before ++ (l ++ after) ∧
      (before = [] ∨ before.getLast? = some newline) ∧ newline ∉ l.dropLast := by
  generalize hn : bytes.length = n
  induction n using Nat.strongRecOn generalizing bytes with
  | ind n ih =>
    by_cases hne : bytes = []
    · rw [hne] at h
      exact absurd h not_mem_nil
    rw [lines_of_ne_nil hne] at h
    have hsplit := throughFirstNewline_append bytes
    rcases mem_cons.mp h with rfl | h
    · exact ⟨[], afterFirstNewline bytes, hsplit.symm, .inl rfl, newline_not_mem_dropLast bytes⟩
    · have hsome : newline ∈ bytes := by
        by_contra hmem
        rw [throughFirstNewline_of_not_mem hmem] at hsplit
        rw [append_right_eq_self.mp hsplit] at h
        exact absurd h not_mem_nil
      have hlast := throughFirstNewline_getLast? hsome
      have hlt : (afterFirstNewline bytes).length < n := by
        have hlen := congrArg List.length hsplit
        rw [length_append] at hlen
        have hpos := length_pos_iff.mpr (throughFirstNewline_ne_nil hne)
        omega
      obtain ⟨before, after, heq, hbefore, hline⟩ := ih _ hlt h rfl
      refine ⟨throughFirstNewline bytes ++ before, after, ?_, .inr ?_, hline⟩
      · rw [append_assoc, ← heq, hsplit]
      · rcases hbefore with rfl | hbefore
        · rw [append_nil]
          exact hlast
        · rw [getLast?_append, hbefore]
          rfl

/-- The bytes before the start of a line end a line. -/
theorem ends_take_lineStart {c : Bytes} (h : lineStart c p = p) (hp : p ≤ c.length) :
    c.take p = [] ∨ (c.take p).getLast? = some newline := by
  have hlast := lineStart_after_newline c p
  rw [h] at hlast
  rcases hlast with hz | hn
  · exact .inl (by rw [hz, take_zero])
  · by_cases hz : p = 0
    · exact .inl (by rw [hz, take_zero])
    · refine .inr ?_
      rw [getLast?_eq_getElem?, List.length_take, Nat.min_eq_left hp, getElem?_take,
        if_pos (by omega)]
      exact hn

theorem atLineEnd_of_ends {a b : Bytes} (h : a = [] ∨ a.getLast? = some newline) : AtLineEnd a b :=
  h.imp_right .inr

/-- A line that goes on where the buffer ends is longer than the buffer. -/
theorem long_line (before : p + bufferSize < t.length)
    (none : newline ∉ slice t p (p + bufferSize)) :
    bufferSize < (throughFirstNewline (t.drop p)).length := by
  rw [slice, Nat.add_sub_cancel_left] at none
  have hsplit := throughFirstNewline_append_right (b := (t.drop p).drop bufferSize) none
  rw [take_append_drop] at hsplit
  have hpos : 0 < (throughFirstNewline ((t.drop p).drop bufferSize)).length := by
    rw [length_pos_iff]
    apply throughFirstNewline_ne_nil
    rw [← length_pos_iff, length_drop, length_drop]
    omega
  have hlength := congrArg List.length hsplit
  rw [length_append, List.length_take, length_drop] at hlength
  omega

/-- A position after the end of a line is where a line starts. -/
theorem lineStart_of_ends {before after : Bytes} (split : t = before ++ after)
    (ends : before = [] ∨ before.getLast? = some newline) :
    lineStart t before.length = before.length := by
  apply Nat.le_antisymm (lineStart_le _ _)
  apply le_lineStart (Nat.le_refl _)
  rcases ends with rfl | ends
  · exact .inl rfl
  · refine .inr ?_
    have hpos : 0 < before.length := length_pos_iff.mpr fun hnil => by
      rw [hnil] at ends
      cases ends
    rw [split, getElem?_append_left (by omega), ← getLast?_eq_getElem?]
    exact ends

/-- A line longer than the buffer is one whose first bytes fill the buffer and hold no
newline. -/
theorem linesFit_iff : LinesFit f bufferSize ↔
    ∀ p, lineStart f.content p = p → p + bufferOf bufferSize < f.getMaxBytes →
      newline ∈ slice f.content p (p + bufferOf bufferSize) := by
  have hlen : f.content.length = f.getMaxBytes := rfl
  generalize hB : bufferOf bufferSize = B
  unfold LinesFit
  rw [hB]
  constructor
  · intro h p hp hlt
    by_contra hmem
    have hlines := lines_append (atLineEnd_of_ends (b := f.content.drop p)
      (ends_take_lineStart hp (by omega)))
    rw [take_append_drop] at hlines
    have hne : f.content.drop p ≠ [] := by
      rw [← length_pos_iff, length_drop]
      omega
    have hin : throughFirstNewline (f.content.drop p) ∈ lines f.content := by
      rw [hlines, lines_of_ne_nil hne]
      exact mem_append_right _ mem_cons_self
    have hshort := h _ hin
    exact absurd (long_line (by omega) hmem) (Nat.not_lt.mpr hshort)
  · intro h l hl
    by_contra hlong
    obtain ⟨before, after, heq, hbefore, hline⟩ := mem_lines hl
    have hlength := congrArg List.length heq
    rw [length_append, length_append] at hlength
    have hstart := lineStart_of_ends heq hbefore
    have hmem := h before.length hstart (by omega)
    apply hline
    rw [slice, heq, drop_left, take_append_of_le_length (by omega)] at hmem
    rw [dropLast_eq_take]
    exact (take_subset_take_left l (by omega)) hmem

/-- The end and the buffer of a stream inside the file. -/
theorem ensureInitialized_sizes (f : IndexedFile) (bufferSize : Nat) (ha : a < f.getMaxBytes) :
    (GzipLineByteStream.ensureInitialized f bufferSize false a b).targetEndBytes = b ∧
      (GzipLineByteStream.ensureInitialized f bufferSize false a b).bufferSize
        = bufferOf bufferSize := by
  obtain ⟨inflater, -, hinit⟩ := ensureInitialized_inside f bufferSize ha b
  rw [hinit]
  exact ⟨rfl, rfl⟩

/-- What a range inside the file delivers in both modes. -/
theorem range_reads (f : IndexedFile) (bufferSize : Nat) (ha : a < f.getMaxBytes)
    (hab : a ≤ b) (hb : b ≤ f.getMaxBytes) :
    ∃ e, Stops f (bufferOf bufferSize) b (f.rangeStart a) e ∧
      readMultiLines f bufferSize a b = .ok (slice f.content (f.rangeStart a) e) ∧
      readLineBytes f bufferSize a b = .ok (completeLines (slice f.content (f.rangeStart a) e)) := by
  have hreading := reading_ensureInitialized bufferSize ha hab hb
  have hsame := ensureInitialized_sizes f bufferSize ha (b := b)
  obtain ⟨e, hdelivers, hstops⟩ := hreading.delivers
  rw [hsame.1, hsame.2] at hstops
  have hlength : (slice f.content (f.rangeStart a) e).length ≤ f.getMaxBytes := by
    have hlen : f.content.length = f.getMaxBytes := rfl
    rw [slice, List.length_take, length_drop]
    omega
  refine ⟨e, hstops, hdelivers.drain (Nat.lt_succ_of_le hlength), ?_⟩
  apply LineStream.drain_spec ⟨rfl, rfl, rfl⟩ hdelivers
  · rw [hreading.maxBytes]
    exact hlength
  · exact Nat.lt_succ_of_le hlength

theorem members_eq_nil {f : IndexedFile} (h : f.getMaxBytes = 0) : f.members = [] := by
  cases hm : f.members with
  | nil => rfl
  | cons m ms =>
    have hcontent : f.content = m.content ++ ms.flatMap Member.content := by
      rw [IndexedFile.content, hm, flatMap_cons]
    have hpos := length_pos_iff.mpr (f.nonempty m (by rw [hm]; exact mem_cons_self))
    rw [IndexedFile.getMaxBytes, hcontent, length_append] at h
    omega

/-- The range at the end of the file delivers nothing. -/
theorem range_at_end (f : IndexedFile) (bufferSize : Nat) :
    readMultiLines f bufferSize f.getMaxBytes f.getMaxBytes = .ok [] ∧
      readLineBytes f bufferSize f.getMaxBytes f.getMaxBytes = .ok [] := by
  by_cases hsize : 0 < f.getMaxBytes
  · have hinit : (GzipLineByteStream.ensureInitialized f bufferSize false f.getMaxBytes
        f.getMaxBytes).isFinished = true := by
      unfold GzipLineByteStream.ensureInitialized
      rw [if_pos (by simp [hsize])]
    constructor
    · rw [readMultiLines, GzipLineByteStream.drain, hinit, if_pos rfl]
    · have hparse := LineStream.Unranged.tryParse_of_not_mem
        (s := { underlyingStream := .ensureInitialized f bufferSize false f.getMaxBytes f.getMaxBytes })
        ⟨rfl, rfl, rfl⟩ not_mem_nil
      rw [readLineBytes, LineStream.drain, LineStream.read, LineStream.readLoop, hparse]
      simp only [hinit]
      rfl
  · have hzero : f.getMaxBytes = 0 := Nat.le_zero.mp (Nat.not_lt.mp hsize)
    have hmembers := members_eq_nil hzero
    obtain ⟨members, nonempty⟩ := f
    obtain rfl : members = [] := hmembers
    exact ⟨rfl, rfl⟩

/-! ## Consecutive ranges -/

/-- Where the range after a cut begins to read. -/
def IndexedFile.resume (f : IndexedFile) (a : Nat) : Nat :=
  if a < f.getMaxBytes then f.rangeStart a else f.getMaxBytes

/-- What a range delivers that stops at this position. -/
def piece (f : IndexedFile) (stop : Nat → Nat → Nat) (a b : Nat) : Bytes :=
  if a < f.getMaxBytes then slice f.content (f.rangeStart a) (stop a b) else []

def pieces (f : IndexedFile) (stop : Nat → Nat → Nat) (ranges : List (Nat × Nat)) : Bytes :=
  ranges.flatMap fun r => piece f stop r.1 r.2

theorem pieces_nil (f : IndexedFile) (stop : Nat → Nat → Nat) (a : Nat) :
    pieces f stop (rangesFrom f.getMaxBytes a []) = piece f stop a f.getMaxBytes :=
  flatMap_singleton _ _

theorem pieces_cons (f : IndexedFile) (stop : Nat → Nat → Nat) (a c : Nat) (cuts : List Nat) :
    pieces f stop (rangesFrom f.getMaxBytes a (c :: cuts))
      = piece f stop a c ++ pieces f stop (rangesFrom f.getMaxBytes c cuts) := flatMap_cons

/-- Stops that leave the last line to the next range, or a line that does not fit. -/
structure Bounded (f : IndexedFile) (bufferSize : Nat) (stop : Nat → Nat → Nat) : Prop where
  after : ∀ a b, a < f.getMaxBytes → a ≤ b → b ≤ f.getMaxBytes → f.rangeStart a ≤ stop a b
  before : ∀ a b, a < f.getMaxBytes → a ≤ b → b ≤ f.getMaxBytes →
    stop a b ≤ cutAt f (f.rangeStart a) b
  long : ∀ a b, a < f.getMaxBytes → a ≤ b → b ≤ f.getMaxBytes → ∀ p, f.rangeStart a ≤ p →
    newline ∉ slice f.content p (p + bufferSize) → p + bufferSize < b → stop a b ≤ p

section

variable {bufferSize : Nat} {stop : Nat → Nat → Nat}

variable {a c : Nat}

theorem cutAt_rangeStart_le (hac : a ≤ c)
    (hc : c ≤ f.getMaxBytes) : cutAt f (f.rangeStart a) c ≤ f.resume c := by
  unfold cutAt IndexedFile.resume
  by_cases hend : c = f.getMaxBytes
  · rw [if_pos hend, if_neg (by omega)]
    exact hc
  · rw [if_neg hend, if_pos (by omega)]
    exact Nat.max_le.mpr ⟨f.rangeStart_mono hac (by omega), f.lineStart_le_rangeStart c⟩

theorem resume_le (f : IndexedFile) (a : Nat) : f.resume a ≤ f.getMaxBytes := by
  unfold IndexedFile.resume
  split
  · rename_i ha
    exact Nat.le_trans (f.rangeStart_le ha) (Nat.le_of_lt ha)
  · exact Nat.le_refl _

theorem cutAt_le_size {q b : Nat} (hq : q ≤ b) (hb : b ≤ f.getMaxBytes) :
    cutAt f q b ≤ f.getMaxBytes := Nat.le_trans (cutAt_le hq) hb

/-- Where one range stops another may begin. -/
theorem stop_le_resume (h : Bounded f bufferSize stop) (ha : a < f.getMaxBytes)
    (hac : a ≤ c) (hc : c ≤ f.getMaxBytes) : stop a c ≤ f.resume c :=
  Nat.le_trans (h.before a c ha hac hc) (cutAt_rangeStart_le hac hc)

/-- One range and those after it. -/
theorem length_piece (h : Bounded f bufferSize stop) (hac : a ≤ c)
    (hc : c ≤ f.getMaxBytes) :
    (piece f stop a c).length + f.resume a ≤ f.resume c ∧
      ((piece f stop a c).length + f.resume a = f.resume c → a < f.getMaxBytes →
        stop a c = f.resume c) := by
  by_cases ha : a < f.getMaxBytes
  · have hle := stop_le_resume h ha hac hc
    have hafter := h.after a c ha hac hc
    have hsize := resume_le f c
    have hlen : (slice f.content (f.rangeStart a) (stop a c)).length = stop a c - f.rangeStart a :=
      length_slice (Nat.le_trans hle hsize)
    have hres : f.resume a = f.rangeStart a := if_pos ha
    rw [piece, if_pos ha]
    exact ⟨by omega, fun heq _ => by omega⟩
  · obtain rfl : c = a := by omega
    rw [piece, if_neg ha]
    exact ⟨by rw [length_nil, Nat.zero_add], fun _ hlt => absurd hlt ha⟩

variable {cuts : List Nat}

section

variable (h : Bounded f bufferSize stop)

include h

/-- Ranges deliver no more than what is left of the content. -/
theorem length_pieces
    (sorted : (a :: cuts).Pairwise (· ≤ ·)) (within : ∀ c ∈ a :: cuts, c ≤ f.getMaxBytes) :
    (pieces f stop (rangesFrom f.getMaxBytes a cuts)).length + f.resume a ≤ f.getMaxBytes := by
  induction cuts generalizing a with
  | nil =>
    have hpiece := (length_piece h (within a mem_cons_self) (Nat.le_refl _)).1
    have hend := resume_le f f.getMaxBytes
    rw [pieces_nil]
    omega
  | cons c cuts ih =>
    have hsorted := pairwise_cons.mp sorted
    have hac := hsorted.1 c mem_cons_self
    have hpiece := (length_piece h hac (within c (mem_cons_of_mem _ mem_cons_self))).1
    have hrest := ih hsorted.2 fun d hd => within d (mem_cons_of_mem _ hd)
    rw [pieces_cons, length_append]
    omega

/-- When they deliver all of it, every range stops where the next one begins. -/
theorem stops_meet
    (sorted : (a :: c :: cuts).Pairwise (· ≤ ·)) (within : ∀ d ∈ a :: c :: cuts, d ≤ f.getMaxBytes)
    (full : (pieces f stop (rangesFrom f.getMaxBytes a (c :: cuts))).length + f.resume a
      = f.getMaxBytes) :
    (a < f.getMaxBytes → stop a c = f.resume c) ∧
      (pieces f stop (rangesFrom f.getMaxBytes c cuts)).length + f.resume c = f.getMaxBytes := by
  have hsorted := pairwise_cons.mp sorted
  have hpiece := length_piece h (hsorted.1 c mem_cons_self)
    (within c (mem_cons_of_mem _ mem_cons_self))
  have hrest := length_pieces h hsorted.2 fun d hd => within d (mem_cons_of_mem _ hd)
  rw [pieces_cons, length_append] at full
  exact ⟨hpiece.2 (by omega), by omega⟩

/-- Then the line of every cut is in view. -/
theorem cutsInView_of_full
    (sorted : (a :: cuts).Pairwise (· ≤ ·)) (within : ∀ c ∈ a :: cuts, c ≤ f.getMaxBytes)
    (inView : a < f.getMaxBytes → f.rangeStart a = lineStart f.content a)
    (full : (pieces f stop (rangesFrom f.getMaxBytes a cuts)).length + f.resume a = f.getMaxBytes) :
    CutsInView f cuts := by
  induction cuts generalizing a with
  | nil => exact fun c hc => absurd hc not_mem_nil
  | cons c cuts ih =>
    have hsorted := pairwise_cons.mp sorted
    have hac := hsorted.1 c mem_cons_self
    have hc := within c (mem_cons_of_mem _ mem_cons_self)
    obtain ⟨hmeet, hrest⟩ := stops_meet h sorted within full
    have hview : c < f.getMaxBytes → f.rangeStart c = lineStart f.content c := by
      intro hlt
      have ha : a < f.getMaxBytes := Nat.lt_of_le_of_lt hac hlt
      have hbefore := h.before a c ha hac hc
      have hres : f.resume c = f.rangeStart c := if_pos hlt
      have hmono := lineStart_mono (t := f.content) hac
      have hle := f.lineStart_le_rangeStart c
      rw [cutAt, if_neg (by omega)] at hbefore
      omega
    intro d hd hlt
    rcases mem_cons.mp hd with rfl | hd
    · exact rangeStart_eq_iff.mp (hview hlt)
    · exact ih hsorted.2 (fun e he => within e (mem_cons_of_mem _ he)) hview hrest d hd hlt

/-- And no line is too long for the buffer. -/
theorem no_long_line {p : Nat}
    (hline : newline ∉ slice f.content p (p + bufferSize)) (hlong : p + bufferSize < f.getMaxBytes)
    (sorted : (a :: cuts).Pairwise (· ≤ ·))
    (within : ∀ c ∈ a :: cuts, c ≤ f.getMaxBytes) (ha : a < f.getMaxBytes)
    (inView : f.rangeStart a = lineStart f.content a) (hp : lineStart f.content a ≤ p)
    (cutsInView : CutsInView f cuts)
    (full : (pieces f stop (rangesFrom f.getMaxBytes a cuts)).length + f.resume a = f.getMaxBytes) :
    False := by
  induction cuts generalizing a with
  | nil =>
    have hpiece := length_piece h (within a mem_cons_self) (Nat.le_refl _)
    have hres : f.resume f.getMaxBytes = f.getMaxBytes := if_neg (Nat.lt_irrefl _)
    rw [pieces_nil] at full
    have hle := h.long a f.getMaxBytes ha (Nat.le_of_lt ha) (Nat.le_refl _) p (inView ▸ hp) hline hlong
    omega
  | cons c cuts ih =>
    have hsorted := pairwise_cons.mp sorted
    have hac := hsorted.1 c mem_cons_self
    have hc := within c (mem_cons_of_mem _ mem_cons_self)
    obtain ⟨hmeet, hrest⟩ := stops_meet h sorted within full
    have hstop := hmeet ha
    have hview := cutsInView c mem_cons_self
    by_cases hreach : p + bufferSize < c
    · have hle := h.long a c ha hac hc p (inView ▸ hp) hline hreach
      by_cases hlt : c < f.getMaxBytes
      · have hres : f.resume c = f.rangeStart c := if_pos hlt
        have hstart := rangeStart_eq_iff.mpr (hview hlt)
        exact ih hsorted.2 (fun e he => within e (mem_cons_of_mem _ he)) hlt hstart
          (by omega) (fun e he => cutsInView e (mem_cons_of_mem _ he)) hrest
      · have hres : f.resume c = f.getMaxBytes := if_neg hlt
        omega
    · have hlt : c < f.getMaxBytes := by omega
      have hle : lineStart f.content c ≤ p := by
        by_cases hcp : c ≤ p
        · exact Nat.le_trans (lineStart_le _ _) hcp
        · apply lineStart_le_of_no_newline
          intro i hi hic hnl
          exact hline (newline_mem_slice.mpr ⟨i, hi, by omega, hnl⟩)
      exact ih hsorted.2 (fun e he => within e (mem_cons_of_mem _ he)) hlt
        (rangeStart_eq_iff.mpr (hview hlt)) hle
        (fun e he => cutsInView e (mem_cons_of_mem _ he)) hrest

end

end

/-! ## When nothing is lost -/

theorem Stops.eq_cutAt {e : Nat} (h : Stops f (bufferOf bufferSize) b (f.rangeStart a) e)
    (hb : b ≤ f.getMaxBytes) (inView : f.rangeStart a = lineStart f.content a)
    (fit : LinesFit f bufferSize) : e = cutAt f (f.rangeStart a) b := by
  rcases h.whole with hwhole | ⟨hline, hlt, hstart⟩
  · exact hwhole
  · have hown : lineStart f.content e = e := by
      rcases hstart with rfl | hstart
      · rw [inView]
        exact lineStart_lineStart _ _
      · exact hstart
    exact absurd (linesFit_iff.mp fit e hown (by omega)) hline

section

variable {stop : Nat → Nat → Nat}

/-- Stops as they are when every line fits. -/
def Regular (f : IndexedFile) (stop : Nat → Nat → Nat) : Prop :=
  ∀ a b, a < f.getMaxBytes → a ≤ b → b ≤ f.getMaxBytes →
    f.rangeStart a = lineStart f.content a → stop a b = cutAt f (f.rangeStart a) b

variable {a : Nat} {c : Nat} {cuts : List Nat}

/-- A range between cuts in view delivers the content between their lines. -/
theorem piece_eq (h : Regular f stop) (hac : a ≤ c) (hc : c ≤ f.getMaxBytes)
    (viewA : a < f.getMaxBytes → f.rangeStart a = lineStart f.content a)
    (viewC : c < f.getMaxBytes → f.rangeStart c = lineStart f.content c) :
    piece f stop a c = slice f.content (f.resume a) (f.resume c) := by
  by_cases ha : a < f.getMaxBytes
  · have hresA : f.resume a = f.rangeStart a := if_pos ha
    have hmono := lineStart_mono (t := f.content) hac
    rw [piece, if_pos ha, h a c ha hac hc (viewA ha), hresA]
    congr 1
    unfold cutAt IndexedFile.resume
    by_cases hend : c = f.getMaxBytes
    · rw [if_pos hend, if_neg (by omega), hend]
    · have hlt : c < f.getMaxBytes := by omega
      rw [if_neg hend, if_pos hlt, viewA ha, viewC hlt]
      exact Nat.max_eq_right hmono
  · obtain rfl : c = a := by omega
    rw [piece, if_neg ha, slice_self]

theorem resume_mono (hac : a ≤ c) : f.resume a ≤ f.resume c := by
  unfold IndexedFile.resume
  by_cases hc : c < f.getMaxBytes
  · rw [if_pos hc, if_pos (by omega)]
    exact f.rangeStart_mono hac hc
  · rw [if_neg hc]
    exact resume_le f a

theorem resume_end (f : IndexedFile) : f.resume f.getMaxBytes = f.getMaxBytes :=
  if_neg (Nat.lt_irrefl _)

/-- The content before a cut in view, and all of it at the end, ends a line. -/
theorem ends_slice_resume (f : IndexedFile)
    (viewC : c < f.getMaxBytes → f.rangeStart c = lineStart f.content c)
    (ends : ¬ c < f.getMaxBytes → EndsLine f.content) :
    slice f.content (f.resume a) (f.resume c) = [] ∨
      (slice f.content (f.resume a) (f.resume c)).getLast? = some newline := by
  have htake : f.content.take (f.resume c) = [] ∨
      (f.content.take (f.resume c)).getLast? = some newline := by
    by_cases hc : c < f.getMaxBytes
    · have hres : f.resume c = lineStart f.content c := (if_pos hc).trans (viewC hc)
      rw [hres]
      exact ends_take_lineStart (lineStart_lineStart _ _)
        (Nat.le_trans (lineStart_le _ _) (Nat.le_of_lt hc))
    · have hres : f.resume c = f.content.length := if_neg hc
      rw [hres, take_length]
      exact ends hc
  have hslice : slice f.content (f.resume a) (f.resume c)
      = (f.content.take (f.resume c)).drop (f.resume a) := by
    rw [slice, drop_take]
  rw [hslice]
  generalize f.content.take (f.resume c) = bytes at htake ⊢
  rcases htake with rfl | hlast
  · exact .inl drop_nil
  · by_cases hlt : f.resume a < bytes.length
    · refine .inr ?_
      rw [getLast?_drop, if_neg (by omega)]
      exact hlast
    · exact .inl (drop_of_length_le (by omega))

/-- Ranges cut in view deliver the content from their line on. -/
theorem pieces_eq (h : Regular f stop)
    (sorted : (a :: cuts).Pairwise (· ≤ ·)) (within : ∀ c ∈ a :: cuts, c ≤ f.getMaxBytes)
    (viewA : a < f.getMaxBytes → f.rangeStart a = lineStart f.content a)
    (inView : CutsInView f cuts) :
    pieces f stop (rangesFrom f.getMaxBytes a cuts)
      = slice f.content (f.resume a) f.getMaxBytes := by
  induction cuts generalizing a with
  | nil =>
    rw [pieces_nil, piece_eq h (within a mem_cons_self) (Nat.le_refl _) viewA
      fun hlt => absurd hlt (Nat.lt_irrefl _), resume_end]
  | cons c cuts ih =>
    have hsorted := pairwise_cons.mp sorted
    have hac := hsorted.1 c mem_cons_self
    have hc := within c (mem_cons_of_mem _ mem_cons_self)
    have viewC := fun hlt => rangeStart_eq_iff.mpr (inView c mem_cons_self hlt)
    rw [pieces_cons, piece_eq h hac hc viewA viewC,
      ih hsorted.2 (fun d hd => within d (mem_cons_of_mem _ hd)) viewC
        fun d hd => inView d (mem_cons_of_mem _ hd)]
    exact slice_append (resume_mono hac) (resume_le f c)

/-- Line by line they deliver its lines. -/
theorem lines_pieces_eq (h : Regular f stop) (ends : EndsLine f.content)
    (sorted : (a :: cuts).Pairwise (· ≤ ·)) (within : ∀ c ∈ a :: cuts, c ≤ f.getMaxBytes)
    (viewA : a < f.getMaxBytes → f.rangeStart a = lineStart f.content a)
    (inView : CutsInView f cuts) :
    ((rangesFrom f.getMaxBytes a cuts).flatMap fun r => completeLines (piece f stop r.1 r.2))
      = lines (slice f.content (f.resume a) f.getMaxBytes) := by
  induction cuts generalizing a with
  | nil =>
    rw [rangesFrom, flatMap_singleton, piece_eq h (within a mem_cons_self)
      (Nat.le_refl _) viewA fun hlt => absurd hlt (Nat.lt_irrefl _), ← lines_eq_completeLines
      (ends_slice_resume f (fun hlt => absurd hlt (Nat.lt_irrefl _)) fun _ => ends), resume_end]
  | cons c cuts ih =>
    have hsorted := pairwise_cons.mp sorted
    have hac := hsorted.1 c mem_cons_self
    have hc := within c (mem_cons_of_mem _ mem_cons_self)
    have viewC := fun hlt => rangeStart_eq_iff.mpr (inView c mem_cons_self hlt)
    have hends := ends_slice_resume f (a := a) viewC fun _ => ends
    rw [rangesFrom, flatMap_cons, piece_eq h hac hc viewA viewC,
      ih hsorted.2 (fun d hd => within d (mem_cons_of_mem _ hd)) viewC
        (fun d hd => inView d (mem_cons_of_mem _ hd)),
      ← lines_eq_completeLines hends, ← lines_append (atLineEnd_of_ends hends),
      slice_append (resume_mono hac) (resume_le f c)]

end

/-! ## The partition -/

theorem mem_rangesFrom {size : Nat} {cuts : List Nat} (sorted : (a :: cuts).Pairwise (· ≤ ·))
    (within : ∀ c ∈ a :: cuts, c ≤ size) {r : Nat × Nat} (hr : r ∈ rangesFrom size a cuts) :
    r.1 ≤ r.2 ∧ r.2 ≤ size := by
  induction cuts generalizing a with
  | nil =>
    rw [mem_singleton.mp hr]
    exact ⟨within a mem_cons_self, Nat.le_refl _⟩
  | cons c cuts ih =>
    have hsorted := pairwise_cons.mp sorted
    rcases mem_cons.mp hr with rfl | hr
    · exact ⟨hsorted.1 c mem_cons_self, within c (mem_cons_of_mem _ mem_cons_self)⟩
    · exact ih hsorted.2 (fun d hd => within d (mem_cons_of_mem _ hd)) hr

theorem readAll_eq {α : Type} {read : Nat → Nat → Except ReaderError (List α)}
    {out : Nat × Nat → List α} (ranges : List (Nat × Nat))
    (h : ∀ r ∈ ranges, read r.1 r.2 = .ok (out r)) :
    readAll read ranges = .ok (ranges.flatMap out) := by
  induction ranges with
  | nil => rfl
  | cons r ranges ih =>
    rw [readAll, h r mem_cons_self, ih fun q hq => h q (mem_cons_of_mem _ hq)]
    rfl

/-- What all ranges of a split deliver, in both modes. -/
theorem readAll_spec (f : IndexedFile) (bufferSize : Nat) (split : Split f.getMaxBytes) :
    ∃ stop, (∀ a b, a < f.getMaxBytes → a ≤ b → b ≤ f.getMaxBytes →
        Stops f (bufferOf bufferSize) b (f.rangeStart a) (stop a b)) ∧
      readAll (readMultiLines f bufferSize) split.ranges = .ok (pieces f stop split.ranges) ∧
      readAll (readLineBytes f bufferSize) split.ranges
        = .ok (split.ranges.flatMap fun r => completeLines (piece f stop r.1 r.2)) := by
  have hrange : ∀ a b, ∃ e, a < f.getMaxBytes → a ≤ b → b ≤ f.getMaxBytes →
      Stops f (bufferOf bufferSize) b (f.rangeStart a) e ∧
        readMultiLines f bufferSize a b = .ok (slice f.content (f.rangeStart a) e) ∧
        readLineBytes f bufferSize a b
          = .ok (completeLines (slice f.content (f.rangeStart a) e)) := by
    intro a b
    by_cases hin : a < f.getMaxBytes ∧ a ≤ b ∧ b ≤ f.getMaxBytes
    · obtain ⟨e, he⟩ := range_reads f bufferSize hin.1 hin.2.1 hin.2.2
      exact ⟨e, fun _ _ _ => he⟩
    · exact ⟨0, fun h1 h2 h3 => absurd ⟨h1, h2, h3⟩ hin⟩
  choose stop hstop using hrange
  have hreads : ∀ r ∈ split.ranges, readMultiLines f bufferSize r.1 r.2 = .ok (piece f stop r.1 r.2) ∧
      readLineBytes f bufferSize r.1 r.2 = .ok (completeLines (piece f stop r.1 r.2)) := by
    intro r hr
    have hsorted : (0 :: split.cuts).Pairwise (· ≤ ·) :=
      pairwise_cons.mpr ⟨fun c _ => Nat.zero_le c, split.sorted⟩
    obtain ⟨hle, hsize⟩ := mem_rangesFrom hsorted (fun c hc => by
      rcases mem_cons.mp hc with rfl | hc
      · exact Nat.zero_le _
      · exact split.within c hc) hr
    by_cases ha : r.1 < f.getMaxBytes
    · rw [piece, if_pos ha]
      exact (hstop r.1 r.2 ha hle hsize).2
    · have h1 : r.1 = f.getMaxBytes := by omega
      have h2 : r.2 = f.getMaxBytes := by omega
      rw [piece, if_neg ha, h1, h2]
      exact range_at_end f bufferSize
  refine ⟨stop, fun a b h1 h2 h3 => (hstop a b h1 h2 h3).1, ?_, ?_⟩
  · exact readAll_eq _ fun r hr => (hreads r hr).1
  · exact readAll_eq _ fun r hr => (hreads r hr).2

/-- Every complete line ends in a newline. -/
theorem completeFrom_ends (begun bytes : Bytes) :
    ∀ l ∈ completeFrom begun bytes, l.getLast? = some newline := by
  induction bytes generalizing begun with
  | nil => exact fun l hl => absurd hl not_mem_nil
  | cons b rest ih =>
    rw [completeFrom]
    intro l hl
    by_cases hb : b = newline
    · rw [if_pos hb] at hl
      rcases mem_cons.mp hl with rfl | hl
      · rw [getLast?_concat, hb]
      · exact ih _ l hl
    · rw [if_neg hb] at hl
      exact ih _ l hl

theorem endsLine_flatten {ls : List Bytes} (h : ∀ l ∈ ls, l.getLast? = some newline) :
    EndsLine ls.flatten := by
  induction ls with
  | nil => exact .inl rfl
  | cons l ls ih =>
    rw [flatten_cons]
    refine .inr ?_
    rw [getLast?_append, h l mem_cons_self]
    rcases ih fun k hk => h k (mem_cons_of_mem _ hk) with hnil | hlast
    · rw [hnil]
      rfl
    · rw [hlast]
      rfl

/-- Stops at the last complete line. -/
theorem bounded_complete (h : ∀ a b, a < f.getMaxBytes → a ≤ b → b ≤ f.getMaxBytes →
      Stops f bufferSize b (f.rangeStart a) (stop a b)) :
    Bounded f bufferSize stop ∧
      Bounded f bufferSize fun a b => max (f.rangeStart a) (lineStart f.content (stop a b)) := by
  have hle : ∀ a b, a < f.getMaxBytes → a ≤ b → b ≤ f.getMaxBytes →
      max (f.rangeStart a) (lineStart f.content (stop a b)) ≤ stop a b :=
    fun a b h1 h2 h3 => Nat.max_le.mpr ⟨(h a b h1 h2 h3).after, lineStart_le _ _⟩
  constructor
  · exact ⟨fun a b h1 h2 h3 => (h a b h1 h2 h3).after, fun a b h1 h2 h3 => (h a b h1 h2 h3).before,
      fun a b h1 h2 h3 => (h a b h1 h2 h3).long⟩
  · exact ⟨fun a b _ _ _ => Nat.le_max_left _ _,
      fun a b h1 h2 h3 => Nat.le_trans (hle a b h1 h2 h3) (h a b h1 h2 h3).before,
      fun a b h1 h2 h3 p hp hline hlt =>
        Nat.le_trans (hle a b h1 h2 h3) ((h a b h1 h2 h3).long p hp hline hlt)⟩

/-- The bytes of a range's complete lines. -/
theorem flatten_complete_piece (h : ∀ a b, a < f.getMaxBytes → a ≤ b → b ≤ f.getMaxBytes →
      Stops f bufferSize b (f.rangeStart a) (stop a b)) (hab : a ≤ b) (hb : b ≤ f.getMaxBytes) :
    (completeLines (piece f stop a b)).flatten
      = piece f (fun a b => max (f.rangeStart a) (lineStart f.content (stop a b))) a b := by
  unfold piece
  by_cases ha : a < f.getMaxBytes
  · have hstop := h a b ha hab hb
    have hafter := hstop.after
    have hsize : stop a b ≤ f.content.length :=
      Nat.le_trans hstop.before (cutAt_le_size (Nat.le_trans (f.rangeStart_le ha) hab) hb)
    have hlen : (slice f.content (f.rangeStart a) (stop a b)).length = stop a b - f.rangeStart a :=
      length_slice hsize
    have hback := backToLine_slice (t := f.content) (q := f.rangeStart a) (p := stop a b)
      (stop a b - f.rangeStart a) (by omega)
    rw [Nat.add_sub_cancel' hafter] at hback
    have hline := lineStart_le f.content (stop a b)
    rw [if_pos ha, if_pos ha, flatten_completeLines, GzipLineByteStream.throughLastNewline, hlen,
      ← take_slice (t := f.content) (d := stop a b) (Nat.le_max_left _ _)
        (Nat.max_le.mpr ⟨hafter, hline⟩), ← hback, Nat.add_sub_cancel_left]
  · rw [if_neg ha, if_neg ha]
    rfl

/-- Ranges that deliver all the content are cut in view, and its lines fit. -/
theorem of_full (h : Bounded f (bufferOf bufferSize) stop) {split : Split f.getMaxBytes}
    (full : pieces f stop split.ranges = f.content) :
    LinesFit f bufferSize ∧ CutsInView f split.cuts := by
  by_cases hsize : 0 < f.getMaxBytes
  · have hsorted : (0 :: split.cuts).Pairwise (· ≤ ·) :=
      pairwise_cons.mpr ⟨fun c _ => Nat.zero_le c, split.sorted⟩
    have hwithin : ∀ c ∈ 0 :: split.cuts, c ≤ f.getMaxBytes := by
      intro c hc
      rcases mem_cons.mp hc with rfl | hc
      · exact Nat.zero_le _
      · exact split.within c hc
    have hstart := f.rangeStart_zero hsize
    have hres : f.resume 0 = 0 := (if_pos hsize).trans hstart
    have hlength : (pieces f stop (rangesFrom f.getMaxBytes 0 split.cuts)).length + f.resume 0
        = f.getMaxBytes := by
      rw [hres]
      exact congrArg List.length full
    have hcuts := cutsInView_of_full h hsorted hwithin (fun _ => hstart) hlength
    refine ⟨linesFit_iff.mpr fun p _ hlong => ?_, hcuts⟩
    by_contra hline
    exact no_long_line h hline hlong hsorted hwithin hsize hstart (Nat.zero_le p) hcuts hlength
  · have hnil : f.content = [] := length_eq_zero_iff.mp (Nat.le_zero.mp (Nat.not_lt.mp hsize))
    refine ⟨fun l hl => ?_, fun c _ hlt => absurd (Nat.lt_of_le_of_lt (Nat.zero_le c) hlt) hsize⟩
    rw [hnil] at hl
    exact absurd hl not_mem_nil

/-- A file whose members hold these contents. -/
def fileOf (contents : List Bytes) (h : ∀ c ∈ contents, c ≠ []) : IndexedFile where
  members := contents.map fun c => ⟨[], c⟩
  nonempty := by
    intro m hm
    obtain ⟨c, hc, rfl⟩ := List.mem_map.mp hm
    exact h c hc

theorem content_fileOf (c : Bytes) (h : ∀ d ∈ [c], d ≠ []) : (fileOf [c] h).content = c :=
  flatMap_singleton _ _

/-- `"ab\ncdefgh\nx\n"` -/
def longLineFile : IndexedFile :=
  fileOf [[97, 98, 10, 99, 100, 101, 102, 103, 104, 10, 120, 10]] (by decide)

/-- `"a\nb"` -/
def noFinalNewlineFile : IndexedFile := fileOf [[97, 10, 98]] (by decide)

/-- `"ab"` and `"c\nd\n"` in a member each. -/
def cutLineFile : IndexedFile := fileOf [[97, 98], [99, 10, 100, 10]] (by decide)

/-- A line of six hundred bytes. -/
def wideLineFile : IndexedFile := fileOf [List.replicate 600 97 ++ [10]] fun c hc => by
  rw [List.mem_singleton.mp hc]
  exact List.append_ne_nil_of_right_ne_nil _ (List.cons_ne_nil _ _)

/-- A cut that does not see the start of its line. -/
theorem length_lt_of_far (f : IndexedFile) (bufferSize : Nat)
    (hb : b < f.getMaxBytes) (far : lineStart f.content b < f.rangeStart b) :
    ∃ out, readAll (readMultiLines f bufferSize) [(0, b), (b, f.getMaxBytes)] = .ok out ∧
      out.length < f.getMaxBytes := by
  have hpos : 0 < f.getMaxBytes := Nat.lt_of_le_of_lt (Nat.zero_le b) hb
  obtain ⟨e, hstops, hfirst, -⟩ := range_reads f bufferSize hpos (Nat.zero_le b) (Nat.le_of_lt hb)
  obtain ⟨e', -, hsecond, -⟩ := range_reads f bufferSize hb (Nat.le_of_lt hb) (Nat.le_refl _)
  have hbefore := hstops.before
  have hlate := f.rangeStart_le hb
  rw [cutAt, if_neg (Nat.ne_of_lt hb)] at hbefore
  have hlen : f.content.length = f.getMaxBytes := rfl
  refine ⟨slice f.content (f.rangeStart 0) e ++ slice f.content (f.rangeStart b) e', ?_, ?_⟩
  · rw [readAll, hfirst, readAll, hsecond, readAll]
    simp only [append_nil]
  · rw [length_append, slice, slice, List.length_take, List.length_take, length_drop, length_drop]
    omega

theorem wideLine_far :
    lineStart wideLineFile.content 590 < wideLineFile.rangeStart 590 := by
  have hcontent : wideLineFile.content = List.replicate 600 97 ++ [10] := content_fileOf _ _
  have hline : lineStart wideLineFile.content 590 ≤ 0 := by
    apply lineStart_le_of_no_newline
    intro i _ hi
    rw [hcontent, getElem?_append_left (by rw [length_replicate]; omega),
      getElem?_replicate, if_pos (by omega)]
    decide
  have hlook : lineSearchLookback = 512 := rfl
  unfold IndexedFile.rangeStart
  omega

theorem wideLine_size : wideLineFile.getMaxBytes = 601 := by
  have hcontent : wideLineFile.content = List.replicate 600 97 ++ [10] := content_fileOf _ _
  rw [IndexedFile.getMaxBytes, hcontent, length_append, length_replicate]
  rfl

end DFTracer.Reader
