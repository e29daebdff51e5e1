/-
# What a range of lines delivers

The stream keeps one thing fixed while it counts: what it has put out and the lines of
its range among the bytes to come are together the lines asked for. The window of a
range begins where a member does, so its first line has the member's number, and it
reaches the end of the range unless a line does not fit the buffer before that.
-/

import DFTracer.Reader.MultiLineStream
import DFTracer.Reader.RangePartition

namespace DFTracer.Reader

open Gzip List

namespace MultiLineStream

/-- A stream inside its range, which counts what it puts out by its line number. -/
structure Ranged (s : MultiLineStream) : Prop where
  positive : 0 < s.startLine
  ordered : s.startLine ≤ s.endLine
  running : s.isFinished = false
  inside : s.currentLine ≤ s.endLine + 1
  counted : s.linesOutput = s.currentLine - s.startLine

/-- The lines of the range among the complete lines that come. -/
def picked (s : MultiLineStream) (bytes : Bytes) : List Bytes :=
  ((completeFrom s.lineAccumulator bytes).drop (s.startLine - s.currentLine)).take
    (s.endLine + 1 - max s.currentLine s.startLine)

/-- What was put out and what is still to be. -/
def given (s : MultiLineStream) (bytes : Bytes) : Bytes :=
  s.outputBuffer ++ (s.picked bytes).flatten

/-- The stream after the line that ends in its span. -/
def nextLine (s : MultiLineStream) : MultiLineStream := s.takeLine (s.startLine ≤ s.currentLine)

theorem countNewlines_of_mem {bytes : Bytes} (h : newline ∈ bytes) :
    countNewlines bytes = countNewlines (afterFirstNewline bytes) + 1 := by
  induction bytes with
  | nil => exact absurd h not_mem_nil
  | cons b rest ih =>
    rw [afterFirstNewline]
    by_cases hb : b = newline
    · rw [hb]
      simp [countNewlines]
    · have hrest := ih ((mem_cons.mp h).resolve_left (Ne.symm hb))
      rw [if_neg hb, ← hrest]
      simp [hb, countNewlines]

namespace Ranged

variable {s : MultiLineStream} (h : Ranged s)

include h

theorem maxLines : s.calculateMaxLines = s.endLine + 1 - s.startLine := by
  have hpos := h.positive
  have hle := h.ordered
  have hend : 0 < s.endLine := by omega
  rw [calculateMaxLines]
  simp only [hend, hpos, decide_true, Bool.and_self, if_true]
  omega

theorem reachedEndOfRange : s.reachedEndOfRange = decide (s.currentLine = s.endLine + 1) := by
  have hpos := h.positive
  have hle := h.ordered
  have hin := h.inside
  have hend : 0 < s.endLine := by omega
  rw [MultiLineStream.reachedEndOfRange]
  simp only [hend]
  exact decide_eq_decide.mpr (by omega)

theorem reachedMaxLines :
    s.reachedMaxLines s.calculateMaxLines = decide (s.currentLine = s.endLine + 1) := by
  have hle := h.ordered
  have hin := h.inside
  rw [MultiLineStream.reachedMaxLines, h.maxLines, h.counted]
  exact decide_eq_decide.mpr (by omega)

section

variable (more : s.currentLine ≤ s.endLine)

include more

theorem nextLine : Ranged s.nextLine where
  __ := h
  inside := Nat.succ_le_succ more
  counted := by
    change (if decide (s.startLine ≤ s.currentLine) then s.linesOutput + 1 else s.linesOutput)
      = s.currentLine + 1 - s.startLine
    rw [h.counted]
    by_cases hin : s.startLine ≤ s.currentLine
    · rw [if_pos (decide_eq_true hin), Nat.sub_add_comm hin]
    · rw [if_neg (by simpa using hin)]
      omega

/-- Taking a line leaves what is given as it was. -/
theorem given_nextLine (hmem : newline ∈ s.currentSpan)
    (rest : Bytes) :
    s.nextLine.given (s.nextLine.currentSpan ++ rest) = s.given (s.currentSpan ++ rest) := by
  have hle := h.ordered
  have hlines := completeFrom_of_mem s.lineAccumulator (mem_append_left rest hmem)
  rw [throughFirstNewline_append_left hmem, afterFirstNewline_append_left hmem] at hlines
  rw [given, given, picked, picked, hlines]
  simp only [MultiLineStream.nextLine, takeLine]
  by_cases hin : s.startLine ≤ s.currentLine
  · rw [if_pos (decide_eq_true hin), Nat.sub_eq_zero_of_le hin, Nat.sub_eq_zero_of_le (Nat.le_succ_of_le hin),
      drop_zero, drop_zero, Nat.max_eq_left hin, Nat.max_eq_left (Nat.le_succ_of_le hin),
      show s.endLine + 1 - s.currentLine = s.endLine + 1 - (s.currentLine + 1) + 1 by omega,
      take_succ_cons, flatten_cons, append_assoc]
  · rw [if_neg (by simpa using hin), show s.startLine - s.currentLine = s.startLine - (s.currentLine + 1) + 1 by omega,
      drop_succ_cons, Nat.max_eq_right (by omega), Nat.max_eq_right (by omega)]

/-- One round of the loop over the current span. -/
theorem processLoop_of_mem (hmem : newline ∈ s.currentSpan)
    (fuel : Nat) :
    processLoop s.calculateMaxLines (fuel + 1) s =
      if s.currentLine = s.endLine then (true, s.nextLine)
      else processLoop s.calculateMaxLines fuel s.nextLine := by
  have hle := h.ordered
  have hspan : s.currentSpan.isEmpty = false :=
    isEmpty_eq_false_iff.mpr (ne_nil_of_mem hmem)
  have hreached := (h.nextLine more).reachedMaxLines
  have hend : s.reachedEndOfRange = false := by
    rw [h.reachedEndOfRange]
    exact decide_eq_false (by omega)
  have hroom : s.linesOutput < s.calculateMaxLines := by
    rw [h.maxLines, h.counted]
    omega
  have hrange : s.isLineInOutputRange = decide (s.startLine ≤ s.currentLine) := by
    rw [isLineInOutputRange]
    simp only [more, decide_true, Bool.or_true, Bool.and_true]
  rw [processLoop, hspan, if_neg (not_not.mpr hmem)]
  simp only [hend, Bool.and_false, hroom, hrange, decide_true, Bool.and_true]
  change (if s.nextLine.reachedMaxLines s.nextLine.calculateMaxLines then (true, s.nextLine)
    else processLoop s.calculateMaxLines fuel s.nextLine) = _
  rw [hreached]
  have hlast : s.nextLine.currentLine = s.nextLine.endLine + 1 ↔ s.currentLine = s.endLine :=
    Nat.succ_inj
  simp only [hlast, decide_eq_true_eq]

/-- The whole loop: it stops after the last line of the range or goes through the span. -/
theorem processLoop_spec (rest : Bytes)
    (enough : s.endLine + 1 ≤ s.currentLine + countNewlines (s.currentSpan ++ rest)) {fuel : Nat}
    (hfuel : s.currentSpan.length < fuel) :
    ∃ s', processLoop s.calculateMaxLines fuel s = (true, s') ∧ Ranged s' ∧
      s'.startLine = s.startLine ∧ s'.endLine = s.endLine ∧
      s'.underlyingStream = s.underlyingStream ∧ s'.outputBufPos = s.outputBufPos ∧
      s'.given (s'.currentSpan ++ rest) = s.given (s.currentSpan ++ rest) ∧
      (s'.currentLine = s.endLine + 1 ∨ s'.currentSpan = [] ∧
        s.endLine + 1 ≤ s'.currentLine + countNewlines rest) := by
  induction fuel generalizing s with
  | zero => exact absurd hfuel (Nat.not_lt_zero _)
  | succ fuel ih =>
    by_cases hmem : newline ∈ s.currentSpan
    · have hnext := h.nextLine more
      have hgiven := h.given_nextLine more hmem rest
      have hcount := countNewlines_of_mem (mem_append_left rest hmem)
      rw [afterFirstNewline_append_left hmem] at hcount
      rw [h.processLoop_of_mem more hmem]
      by_cases hlast : s.currentLine = s.endLine
      · rw [if_pos hlast]
        exact ⟨_, rfl, hnext, rfl, rfl, rfl, rfl, hgiven, .inl (congrArg (· + 1) hlast)⟩
      · have hshort : s.nextLine.currentSpan.length < fuel := by
          have hsplit := congrArg List.length (throughFirstNewline_append s.currentSpan)
          have hpos := length_pos_iff.mpr
            (throughFirstNewline_ne_nil (ne_nil_of_mem hmem))
          rw [length_append] at hsplit
          change (afterFirstNewline s.currentSpan).length < fuel
          omega
        have henough : s.nextLine.endLine + 1
            ≤ s.nextLine.currentLine + countNewlines (s.nextLine.currentSpan ++ rest) := by
          change s.endLine + 1
            ≤ s.currentLine + 1 + countNewlines (afterFirstNewline s.currentSpan ++ rest)
          omega
        rw [if_neg hlast]
        obtain ⟨s', hloop, hs', hstart, hend, hunder, hpos, hsame, hstop⟩ :=
          ih hnext (by change s.currentLine + 1 ≤ s.endLine; omega) henough hshort
        exact ⟨s', hloop, hs', hstart, hend, hunder, hpos, hsame.trans hgiven, hstop⟩
    · rw [countNewlines, count_append, count_eq_zero.mpr hmem, Nat.zero_add] at enough
      let s' := { s with lineAccumulator := s.lineAccumulator ++ s.currentSpan, currentSpan := [] }
      have hloop : processLoop s.calculateMaxLines (fuel + 1) s = (true, s') := by
        rw [processLoop, if_pos hmem]
        by_cases hspan : s.currentSpan = []
        · cases s
          cases hspan
          simp [s']
        · rw [if_neg (by rwa [List.isEmpty_iff])]
      have hgiven : s'.given (s'.currentSpan ++ rest) = s.given (s.currentSpan ++ rest) := by
        have hlines := completeFrom_append_of_not_mem s.lineAccumulator rest hmem
        rw [given, given, picked, picked, hlines]
        rfl
      exact ⟨s', hloop, ⟨h.positive, h.ordered, h.running, h.inside, h.counted⟩, rfl, rfl, rfl, rfl,
        hgiven, .inr ⟨rfl, enough⟩⟩

end

/-- Behind its range a stream gives what it has put out. -/
theorem given_of_reached (reached : s.currentLine = s.endLine + 1) (bytes : Bytes) :
    s.given bytes = s.outputBuffer := by
  have hle := h.ordered
  rw [given, picked, Nat.max_eq_left (by omega), reached, Nat.sub_self, take_zero,
    flatten_nil, append_nil]

theorem readLoop_of_reached (reached : s.currentLine = s.endLine + 1) (maxLines fuel : Nat) :
    readLoop maxLines fuel s = .ok s := by
  cases fuel with
  | zero => rfl
  | succ fuel =>
    rw [readLoop, h.reachedEndOfRange, decide_eq_true reached]
    rfl

end Ranged

variable {rest : Bytes} {s : MultiLineStream} {fuel bufferSize : Nat}

/-- Span after span the stream puts out the lines of its range. -/
theorem readLoop_spec {u : GzipLineByteStream} (hu : Delivers u rest) (hs : Ranged s) (hunder : s.underlyingStream = u)
    (hspan : s.currentSpan = []) (enough : s.endLine + 1 ≤ s.currentLine + countNewlines rest) (hfuel : rest.length < fuel) :
    ∃ s', readLoop s.calculateMaxLines fuel s = .ok s' ∧ Ranged s' ∧
      s'.currentLine = s'.endLine + 1 ∧ s'.outputBufPos = s.outputBufPos ∧
      s'.outputBuffer = s.given rest := by
  by_cases reached : s.currentLine = s.endLine + 1
  · exact ⟨s, hs.readLoop_of_reached reached _ _, hs, reached, rfl, (hs.given_of_reached reached _).symm⟩
  have hinside := hs.inside
  have more : s.currentLine ≤ s.endLine := by omega
  induction hu generalizing s fuel with
  | last running read =>
    change s.endLine + 1 ≤ s.currentLine + 0 at enough
    omega
  | @more u u' chunk rest running read some sameFile next ih =>
    subst hunder
    obtain ⟨fuel, rfl⟩ := Nat.exists_eq_succ_of_ne_zero (Nat.ne_zero_of_lt hfuel)
    have hsome := length_pos_iff.mpr some
    rw [length_append] at hfuel
    -- the stream with the next span
    let filled : MultiLineStream := { s with underlyingStream := u', currentSpan := chunk }
    have hfilled : Ranged filled := ⟨hs.positive, hs.ordered, hs.running, hs.inside, hs.counted⟩
    have hrefill : s.refillIfNeeded = .ok (true, filled) := by
      rw [refillIfNeeded, hspan]
      simp only [isEmpty_nil, Bool.not_true, Bool.false_eq_true, if_false, running, read,
        isEmpty_eq_false_iff.mpr some, Bool.not_false, filled]
    obtain ⟨s', hloop, hs', hstart, hend, hunder, hpos, hsame, hstop⟩ :=
      hfilled.processLoop_spec more rest enough (Nat.lt_succ_self _)
    have hround : readLoop s.calculateMaxLines (fuel + 1) s
        = readLoop s.calculateMaxLines fuel s' := by
      have hprocess : filled.processLines s.calculateMaxLines = (true, s') := hloop
      rw [readLoop, hs.reachedEndOfRange, hs.reachedMaxLines, decide_eq_false reached]
      simp only [Bool.or_self, Bool.false_eq_true, if_false, hrefill, hprocess]
    have hmax : s.calculateMaxLines = s'.calculateMaxLines := by
      rw [hs.maxLines, hs'.maxLines, hstart, hend]
    rw [hround, hmax]
    have hgiven : filled.given (filled.currentSpan ++ rest) = s.given (chunk ++ rest) := rfl
    rw [← hgiven, ← hsame]
    have hend' : s'.endLine = s.endLine := hend
    by_cases done : s'.currentLine = s.endLine + 1
    · have done' : s'.currentLine = s'.endLine + 1 := by rw [done, hend']
      exact ⟨s', hs'.readLoop_of_reached done' _ _, hs', done', hpos,
        (hs'.given_of_reached done' _).symm⟩
    · obtain ⟨hempty, henough⟩ := hstop.resolve_left done
      rw [hempty]
      have henough' : s.endLine + 1 ≤ s'.currentLine + countNewlines rest := henough
      have hinside' := hs'.inside
      rw [hend'] at hinside'
      rw [← hend'] at henough' done hinside'
      have hfuel' : rest.length < fuel := by omega
      obtain ⟨s'', hread, hs'', hreached, hpos', hout⟩ :=
        ih hs' hunder hempty henough' hfuel' done hinside' (by omega)
      exact ⟨s'', hread, hs'', hreached, hpos'.trans hpos, hout⟩

/-- One read without a buffer takes the whole range. -/
theorem readSpan_spec (hs : Ranged s)
    (hrest : Delivers s.underlyingStream rest) (hspan : s.currentSpan = [])
    (enough : s.endLine + 1 ≤ s.currentLine + countNewlines rest)
    (small : rest.length ≤ s.underlyingStream.maxFileBytes) :
    ∃ s', s.readSpan = .ok ((s.picked rest).flatten, s') ∧ s'.isFinished = true ∧
      s'.outputBuffer = (s.picked rest).flatten ∧ s'.outputBufPos = s.outputBufPos := by
  let cleared : MultiLineStream := { s with outputBuffer := [] }
  have hcleared : Ranged cleared := ⟨hs.positive, hs.ordered, hs.running, hs.inside, hs.counted⟩
  have hfuel : rest.length < s.underlyingStream.maxFileBytes + 2 := by omega
  obtain ⟨s', hread, hs', hreached, hpos, hout⟩ :=
    readLoop_spec (s := cleared) hrest hcleared rfl hspan enough hfuel
  have hfinal : s'.handleFinalLine s.calculateMaxLines = s' := by
    rw [handleFinalLine, if_pos]
    have hrange : s'.isLineInOutputRange = false := by
      have hpositive := hs'.positive
      have hordered := hs'.ordered
      rw [isLineInOutputRange]
      simp only [Bool.and_eq_false_iff, Bool.or_eq_false_iff, decide_eq_false_iff_not]
      omega
    rw [hrange, Bool.not_false, Bool.or_true, Bool.true_or]
  have hfinish : s'.updateFinishState = { s' with isFinished := true } := by
    rw [updateFinishState, hs'.reachedEndOfRange, decide_eq_true hreached, Bool.or_true, if_pos rfl]
  have hgiven : cleared.given rest = (s.picked rest).flatten := rfl
  rw [hgiven] at hout
  refine ⟨{ s' with isFinished := true }, ?_, rfl, hout, hpos⟩
  have hloop : readLoop s.calculateMaxLines (s.underlyingStream.maxFileBytes + 2)
      { s with outputBuffer := [] } = .ok s' := hread
  rw [readSpan, if_neg (by rw [hs.running]; exact Bool.false_ne_true)]
  simp only [hloop, hfinal, hfinish, hout]

/-- A finished stream is copied out a buffer at a time. -/
theorem drain_copies (positive : 0 < bufferSize) (finished : s.isFinished = true)
    (enough : s.outputBuffer.length - s.outputBufPos < fuel) :
    s.drain bufferSize fuel = .ok (s.outputBuffer.drop s.outputBufPos) := by
  induction fuel generalizing s with
  | zero => exact absurd enough (Nat.not_lt_zero _)
  | succ fuel ih =>
    by_cases left : s.outputBufPos < s.outputBuffer.length
    · generalize hcopied : (s.outputBuffer.drop s.outputBufPos).take bufferSize = copied
      have hlength : copied.length = min bufferSize (s.outputBuffer.length - s.outputBufPos) := by
        rw [← hcopied, List.length_take, length_drop]
      have hsome : copied.isEmpty = false := by
        rw [isEmpty_eq_false_iff, ← length_pos_iff]
        omega
      have hrest := ih (s := { s with outputBufPos := s.outputBufPos + copied.length }) finished
        (by dsimp only; omega)
      rw [drain, done, if_pos left, read, if_pos left]
      simp only [hcopied, hsome, Bool.false_eq_true, if_false, hrest]
      rw [← drop_drop, ← hcopied, take_append_drop_length]
    · have hdone : s.done = true := by
        rw [done, if_neg left, finished, Bool.true_or]
      rw [drain, hdone, if_pos rfl, drop_of_length_le (Nat.not_lt.mp left)]

/-- A stream that has put nothing out yet delivers the lines of its range. -/
theorem drain_spec (positive : 0 < bufferSize)
    (hs : Ranged s) (hrest : Delivers s.underlyingStream rest)
    (hspan : s.currentSpan = []) (hbegun : s.lineAccumulator = []) (hout : s.outputBuffer = [])
    (enough : s.endLine + 1 ≤ s.currentLine + countNewlines rest)
    (running : s.underlyingStream.isFinished = false)
    (small : rest.length ≤ s.underlyingStream.maxFileBytes) (hfuel : rest.length + 1 < fuel) :
    s.drain bufferSize fuel = .ok (s.picked rest).flatten := by
  obtain ⟨s', hread, hfinished, hbuffer, -⟩ := readSpan_spec hs hrest hspan enough small
  generalize hgiven : (s.picked rest).flatten = out at hread hbuffer
  have hlength : out.length ≤ rest.length := by
    have hsub : ((s.picked rest).flatten).Sublist (completeLines rest).flatten := by
      rw [picked, hbegun]
      exact ((take_sublist _ _).trans (drop_sublist _ _)).flatten
    rw [hgiven, flatten_completeLines] at hsub
    exact Nat.le_trans hsub.length_le (length_take_le' _ _)
  obtain ⟨fuel, rfl⟩ := Nat.exists_eq_succ_of_ne_zero (Nat.ne_zero_of_lt hfuel)
  have hempty : ¬ s.outputBufPos < s.outputBuffer.length := by
    rw [hout]
    exact Nat.not_lt_zero _
  have hdone : s.done = false := by
    rw [done, if_neg hempty, hs.running, running]
    rfl
  rw [drain, hdone, if_neg Bool.false_ne_true, read, if_neg hempty, hs.running,
    if_neg Bool.false_ne_true]
  simp only [hread]
  by_cases hnone : out = []
  · rw [hnone]
    rfl
  · rw [if_neg (by rwa [List.isEmpty_iff])]
    have hcopied : (out.take bufferSize).isEmpty = false := by
      rw [isEmpty_eq_false_iff, ← length_pos_iff, List.length_take]
      have hpos := length_pos_iff.mpr hnone
      omega
    have hcopies := drain_copies positive
      (s := { s' with outputBufPos := (out.take bufferSize).length }) hfinished
      (by rw [hbuffer]; omega : _ < fuel)
    simp only [hcopied, Bool.false_eq_true, if_false, hcopies]
    rw [hbuffer, take_append_drop_length]

end MultiLineStream

theorem length_completeFrom (begun bytes : Bytes) :
    (completeFrom begun bytes).length = countNewlines bytes := by
  induction bytes generalizing begun with
  | nil => rfl
  | cons b rest ih =>
    rw [completeFrom]
    by_cases hb : b = newline
    · rw [if_pos hb, length_cons, ih, hb]
      simp [countNewlines]
    · rw [if_neg hb, ih]
      simp [hb, countNewlines]

/-- How many lines there are before the end of a line. -/
theorem length_lines_of_ends {bytes : Bytes} (h : bytes = [] ∨ bytes.getLast? = some newline) :
    (lines bytes).length = countNewlines bytes := by
  rw [lines_eq_completeLines h, completeLines, length_completeFrom]

/-- As many lines as there are newlines do not depend on what comes after. -/
theorem take_linesFrom (begun a b : Bytes) {n : Nat} (h : n ≤ countNewlines a) :
    (linesFrom begun (a ++ b)).take n = (completeFrom begun a).take n := by
  induction a generalizing begun n with
  | nil =>
    obtain rfl : n = 0 := Nat.le_zero.mp h
    rw [take_zero, take_zero]
  | cons x a ih =>
    rw [cons_append, linesFrom, completeFrom]
    by_cases hx : x = newline
    · rw [if_pos hx, if_pos hx]
      cases n with
      | zero => rfl
      | succ n =>
        rw [take_succ_cons]
        congr 1
        apply ih
        rw [hx] at h
        simpa [countNewlines] using h
    · rw [if_neg hx, if_neg hx]
      apply ih
      simpa [hx, countNewlines] using h

theorem countNewlines_le_length (bytes : Bytes) : countNewlines bytes ≤ (lines bytes).length := by
  have htake := congrArg List.length (take_linesFrom [] bytes [] (Nat.le_refl _))
  rw [append_nil, List.length_take, List.length_take, length_completeFrom] at htake
  rw [lines]
  omega

/-- The lines numbered from `first` to `last`. -/
def linesBetween (bytes : Bytes) (first last : Nat) : List Bytes :=
  ((lines bytes).take last).drop (first - 1)

/-- Bytes that begin where line `first` does hold the lines from there on. -/
theorem linesBetween_eq {before window after : Bytes}
    (ends : before = [] ∨ before.getLast? = some newline) {first last : Nat}
    (hfirst : countNewlines before + 1 ≤ first) (hlast : first ≤ last + 1)
    (enough : last ≤ countNewlines before + countNewlines window) :
    linesBetween (before ++ (window ++ after)) first last
      = ((completeLines window).drop (first - (countNewlines before + 1))).take (last + 1 - first) := by
  have hbefore := length_lines_of_ends ends
  have hwindow := take_linesFrom [] window after
    (n := last - countNewlines before) (by omega)
  rw [linesBetween, lines_append (atLineEnd_of_ends ends), take_append, drop_append,
    take_of_length_le (by omega), drop_of_length_le (by omega), hbefore]
  change ((linesFrom [] (window ++ after)).take (last - countNewlines before)).drop _ = _
  rw [hwindow, drop_take]
  congr 1
  · omega
  · congr 1
    omega

/-- Lines are cut out of their bytes again. -/
theorem lines_flatten {ls : List Bytes}
    (h : ∀ l ∈ ls, l.getLast? = some newline ∧ newline ∉ l.dropLast) : lines ls.flatten = ls := by
  induction ls with
  | nil => rfl
  | cons l ls ih =>
    obtain ⟨hlast, hline⟩ := h l mem_cons_self
    have hone : throughFirstNewline l = l := by
      conv_lhs => rw [← dropLast_append_getLast? newline hlast]
      rw [throughFirstNewline_append_right hline]
      exact dropLast_append_getLast? newline hlast
    have hmem : newline ∈ l := mem_of_getLast? hlast
    have hlines : lines l = [l] := by
      conv_lhs => rw [← hone]
      rw [lines, linesFrom_throughFirstNewline hmem, nil_append, hone]
    rw [flatten_cons, lines_append (.inr (.inr hlast)), hlines,
      ih fun k hk => h k (mem_cons_of_mem l hk), singleton_append]

theorem completeLines_are_lines (bytes : Bytes) :
    ∀ l ∈ completeLines bytes, l.getLast? = some newline ∧ newline ∉ l.dropLast := by
  intro l hl
  refine ⟨completeFrom_ends [] bytes l hl, ?_⟩
  have hsame : (lines bytes).take (countNewlines bytes) = completeLines bytes := by
    have htake := take_linesFrom [] bytes [] (Nat.le_refl _)
    rw [append_nil] at htake
    have hlength : (completeFrom [] bytes).length = countNewlines bytes := length_completeFrom [] bytes
    rw [lines, htake, completeLines, take_of_length_le (Nat.le_of_eq hlength)]
  rw [← hsame] at hl
  obtain ⟨before, after, -, -, hline⟩ := mem_lines (mem_of_mem_take hl)
  exact hline

/-! ## The window of a range -/

variable {f : IndexedFile}

namespace IndexedFile

/-- Every member but the last ends a line. -/
def LineAligned (f : IndexedFile) : Prop :=
  ∀ m ∈ f.members.dropLast, m.content.getLast? = some newline

variable {k : Nat} {member : GzipMemberRecord}

theorem countNewlines_contentBefore_mono {j : Nat} (h : j ≤ k) :
    countNewlines (contentBefore f.members j) ≤ countNewlines (contentBefore f.members k) := by
  obtain ⟨n, rfl⟩ := Nat.exists_eq_add_of_le h
  rw [contentBefore, contentBefore, take_add, flatMap_append, countNewlines, countNewlines,
    count_append]
  exact Nat.le_add_right _ _

theorem take_contentBefore (f : IndexedFile) (k : Nat) :
    f.content.take (contentBefore f.members k).length = contentBefore f.members k := by
  rw [f.content_eq_contentBefore k, take_left]

theorem LineAligned.ends (aligned : f.LineAligned) (hk : k < f.members.length) :
    contentBefore f.members k = [] ∨ (contentBefore f.members k).getLast? = some newline := by
  cases k with
  | zero => exact .inl rfl
  | succ k =>
    have hlt : k < f.members.length := Nat.lt_of_succ_lt hk
    have hmem : f.members[k] ∈ f.members.dropLast := by
      rw [dropLast_eq_take]
      exact mem_take_iff_getElem.mpr ⟨k, by omega, rfl⟩
    right
    rw [contentBefore, take_succ_eq_append_getElem hlt, flatMap_append,
      flatMap_singleton, getLast?_append, aligned _ hmem]
    rfl

/-- A line of the file stands in one of its members. -/
theorem exists_member (f : IndexedFile) {line : Nat} (positive : 0 < line)
    (within : line ≤ f.getNumLines) :
    ∃ k, k < f.members.length ∧ countNewlines (contentBefore f.members k) + 1 ≤ line ∧
      line ≤ countNewlines (contentBefore f.members (k + 1)) := by
  have hall : line ≤ countNewlines (contentBefore f.members f.members.length) := by
    rw [contentBefore, take_length]
    exact within
  generalize hn : f.members.length = n at hall
  have hle : n ≤ f.members.length := Nat.le_of_eq hn.symm
  clear hn
  induction n with
  | zero => exact absurd hall (Nat.not_le.mpr positive)
  | succ n ih =>
    by_cases before : line ≤ countNewlines (contentBefore f.members n)
    · obtain ⟨k, hk, hrest⟩ := ih before (Nat.le_of_succ_le hle)
      exact ⟨k, by omega, hrest⟩
    · exact ⟨n, by omega, by omega, hall⟩

/-- A window of whole members around a range of lines. -/
structure Covering (f : IndexedFile) (startLine endLine : Nat) (window : LineWindow) (j k : Nat) :
    Prop where
  first : j < f.members.length
  last : k < f.members.length
  startBytes : window.startBytes = (contentBefore f.members j).length
  endBytes : window.endBytes = (contentBefore f.members (k + 1)).length
  actualStartLine : window.actualStartLine = countNewlines (contentBefore f.members j) + 1
  before : window.actualStartLine ≤ startLine
  after : endLine ≤ countNewlines (contentBefore f.members (k + 1))
  ordered : j ≤ k

theorem mem_cachedMembers :
    member ∈ f.cachedMembers ↔ ∃ k, k < f.members.length ∧ recordOf f.members 0 k = member := by
  rw [cachedMembers, mem_map]
  simp only [mem_range]

theorem firstLineNum_recordOf (k : Nat) : (recordOf f.members 0 k).firstLineNum
    = countNewlines (contentBefore f.members k) + 1 := by
  rw [recordOf, Nat.zero_add]

theorem lastLineNum_recordOf (k : Nat) : (recordOf f.members 0 k).lastLineNum
    = countNewlines (contentBefore f.members (k + 1)) := Nat.zero_add _

/-- Members in order end on lines in order. -/
theorem cachedMembers_sorted (f : IndexedFile) :
    f.cachedMembers.Pairwise fun a b => a.lastLineNum ≤ b.lastLineNum := by
  rw [cachedMembers, pairwise_map]
  apply pairwise_lt_range.imp
  intro j k hjk
  rw [lastLineNum_recordOf, lastLineNum_recordOf]
  exact countNewlines_contentBefore_mono (Nat.succ_le_succ (Nat.le_of_lt hjk))

/-- The last member with a line of the range has its last line. -/
theorem le_lastLineNum {p : GzipMemberRecord → Bool} {last : GzipMemberRecord}
    (found : f.cachedMembers.reverse.find? p = some last) (among : member ∈ f.cachedMembers)
    (holds : p member = true) : member.lastLineNum ≤ last.lastLineNum := by
  obtain ⟨-, skipped, rest, hsplit, hskipped⟩ := find?_eq_some_iff_append.mp found
  have hall : f.cachedMembers = rest.reverse ++ last :: skipped.reverse := by
    have hreverse := congrArg List.reverse hsplit
    rw [reverse_reverse, reverse_append, reverse_cons, append_assoc] at hreverse
    exact hreverse
  have hsorted := f.cachedMembers_sorted
  rw [hall, pairwise_append] at hsorted
  rw [hall, mem_append, mem_cons] at among
  rcases among with early | rfl | late
  · exact hsorted.2.2 member early last mem_cons_self
  · exact Nat.le_refl _
  · exact absurd holds (by simpa using hskipped member (mem_reverse.mp late))

/-- A range inside the file is looked for in the members that hold it. -/
theorem lineWindow_covering {startLine endLine : Nat} (positive : 0 < startLine)
    (ordered : startLine ≤ endLine) (within : endLine ≤ f.getNumLines) :
    ∃ j k, Covering f startLine endLine (f.lineWindow startLine endLine) j k := by
  obtain ⟨a, ha, hafirst, halast⟩ := f.exists_member positive (Nat.le_trans ordered within)
  obtain ⟨b, hb, hbfirst, hblast⟩ := f.exists_member (Nat.lt_of_lt_of_le positive ordered) within
  have hstart : ∃ first, (f.cachedMembers.find? fun member =>
      member.firstLineNum ≤ startLine && startLine ≤ member.lastLineNum) = some first := by
    rw [← Option.isSome_iff_exists, find?_isSome]
    refine ⟨_, mem_cachedMembers.mpr ⟨a, ha, rfl⟩, ?_⟩
    rw [firstLineNum_recordOf, lastLineNum_recordOf]
    simp [hafirst, halast]
  have hoverlap : (recordOf f.members 0 b).firstLineNum ≤ endLine
      && (recordOf f.members 0 b).lastLineNum ≥ startLine := by
    rw [firstLineNum_recordOf, lastLineNum_recordOf]
    simp [hbfirst, Nat.le_trans ordered hblast]
  have hend : ∃ last, (f.cachedMembers.reverse.find? fun member =>
      member.firstLineNum ≤ endLine && member.lastLineNum ≥ startLine) = some last := by
    rw [← Option.isSome_iff_exists, find?_isSome]
    exact ⟨_, mem_reverse.mpr (mem_cachedMembers.mpr ⟨b, hb, rfl⟩), hoverlap⟩
  obtain ⟨first, hfirst⟩ := hstart
  obtain ⟨last, hlast⟩ := hend
  have hreach := le_lastLineNum hlast (mem_cachedMembers.mpr ⟨b, hb, rfl⟩) hoverlap
  obtain ⟨j, hj, rfl⟩ := mem_cachedMembers.mp (mem_of_find?_eq_some hfirst)
  obtain ⟨k, hk, rfl⟩ := mem_cachedMembers.mp
    (mem_reverse.mp (mem_of_find?_eq_some hlast))
  have hholds := find?_some hfirst
  have hwindow : f.lineWindow startLine endLine = ⟨(contentBefore f.members j).length,
      (contentBefore f.members (k + 1)).length, countNewlines (contentBefore f.members j) + 1⟩ := by
    rw [lineWindow, hlast, hfirst]
    dsimp only
    rw [recordOf_end, firstLineNum_recordOf]
    rfl
  simp only [firstLineNum_recordOf, lastLineNum_recordOf, Bool.and_eq_true, decide_eq_true_eq]
    at hholds hreach
  refine ⟨j, k, hj, hk, ?_, ?_, ?_, ?_, Nat.le_trans hblast hreach, ?_⟩
  · rw [hwindow]
  · rw [hwindow]
  · rw [hwindow]
  · rw [hwindow]
    exact hholds.1
  · by_contra hlt
    have hmono := countNewlines_contentBefore_mono (f := f) (j := k + 1) (k := j) (by omega)
    omega

theorem length_contentBefore_lt (hk : k < f.members.length) :
    (contentBefore f.members k).length < (contentBefore f.members (k + 1)).length := by
  have hpos := length_pos_iff.mpr (f.nonempty _ (getElem_mem hk))
  rw [contentBefore, contentBefore, take_succ_eq_append_getElem hk, flatMap_append,
    flatMap_singleton, length_append]
  omega

theorem length_contentBefore_le (f : IndexedFile) (k : Nat) :
    (contentBefore f.members k).length ≤ f.getMaxBytes := by
  have hlength := congrArg List.length (f.content_eq_contentBefore k)
  rw [length_append] at hlength
  change _ ≤ f.content.length
  omega

/-- A member is read from its first byte. -/
theorem rangeStart_contentBefore (hk : k < f.members.length) :
    (contentBefore f.members k).length < f.getMaxBytes ∧
      f.rangeStart (contentBefore f.members k).length = (contentBefore f.members k).length := by
  have hgrow := length_contentBefore_lt hk
  have hsize := f.length_contentBefore_le (k + 1)
  have hlt : (contentBefore f.members k).length < f.getMaxBytes := by omega
  obtain ⟨i, hi, hlow, hhigh⟩ := f.findMember_spec hlt
  have hanchor : f.anchor (contentBefore f.members k).length = (contentBefore f.members k).length := by
    have hik : k ≤ i := by
      by_contra h
      have hmono := f.length_contentBefore_mono (j := i + 1) (k := k) (by omega)
      omega
    rw [anchor, hi]
    exact Nat.le_antisymm hlow (f.length_contentBefore_mono hik)
  have hline := lineStart_le f.content (contentBefore f.members k).length
  refine ⟨hlt, ?_⟩
  rw [rangeStart]
  omega

end IndexedFile

/-- The bytes before the end of a line hold as many lines as come before the next one. -/
theorem mem_take_lines {t : Bytes} {p last : Nat} (hp : p < t.length)
    (ends : t.take p = [] ∨ (t.take p).getLast? = some newline)
    (before : countNewlines (t.take p) < last) :
    throughFirstNewline (t.drop p) ∈ (lines t).take last := by
  have hne : t.drop p ≠ [] := by
    rw [← length_pos_iff, length_drop]
    omega
  have hlines := lines_append (atLineEnd_of_ends (b := t.drop p) ends)
  rw [take_append_drop, lines_of_ne_nil hne] at hlines
  obtain ⟨n, hn⟩ := Nat.exists_eq_add_of_lt before
  rw [hlines, take_append, length_lines_of_ends ends, hn]
  apply mem_append_right
  rw [show countNewlines (t.take p) + n + 1 - countNewlines (t.take p) = n + 1 by omega]
  exact mem_cons_self

section

variable {startLine endLine j k : Nat} {window : LineWindow}

/-- The window is read from its first byte, and lies in the file. -/
theorem IndexedFile.Covering.bounds (covering : f.Covering startLine endLine window j k) :
    window.startBytes < f.getMaxBytes ∧ f.rangeStart window.startBytes = window.startBytes ∧
      window.startBytes ≤ window.endBytes ∧ window.endBytes ≤ f.getMaxBytes := by
  have hstart := IndexedFile.rangeStart_contentBefore covering.first
  rw [← covering.startBytes] at hstart
  refine ⟨hstart.1, hstart.2, ?_, ?_⟩
  · rw [covering.startBytes, covering.endBytes]
    exact f.length_contentBefore_mono (Nat.le_succ_of_le covering.ordered)
  · rw [covering.endBytes]
    exact f.length_contentBefore_le (k + 1)

/-- The window delivers the lines up to the last one asked for, where these fit. -/
theorem window_delivers (aligned : f.LineAligned)
    (covering : f.Covering startLine endLine window j k) {bufferSize : Nat}
    (fit : ∀ l ∈ (lines f.content).take endLine, l.length ≤ bufferOf bufferSize) :
    ∃ e, Delivers (.ensureInitialized f bufferSize false window.startBytes window.endBytes)
        (slice f.content window.startBytes e) ∧
      window.startBytes ≤ e ∧ e ≤ f.content.length ∧ endLine ≤ countNewlines (f.content.take e) := by
  obtain ⟨hinside, hstart, hordered, hsize⟩ := covering.bounds
  have hreading := reading_ensureInitialized bufferSize hinside hordered hsize
  have hsame := ensureInitialized_sizes f bufferSize hinside (b := window.endBytes)
  rw [hstart] at hreading
  obtain ⟨e, hdelivers, hstops⟩ := hreading.delivers
  rw [hsame.1, hsame.2] at hstops
  have hend : e ≤ f.content.length :=
    Nat.le_trans hstops.before (cutAt_le_size hordered hsize)
  refine ⟨e, hdelivers, hstops.after, hend, ?_⟩
  have hlines : endLine ≤ countNewlines (f.content.take window.endBytes) := by
    rw [covering.endBytes, f.take_contentBefore]
    exact covering.after
  rcases hstops.whole with hwhole | ⟨hnone, hlt, hline⟩
  · have hcut : cutAt f window.startBytes window.endBytes = window.endBytes := by
      unfold cutAt
      by_cases hlast : window.endBytes = f.getMaxBytes
      · rw [if_pos hlast]
      · rw [if_neg hlast]
        have hk : k + 1 < f.members.length := by
          by_contra h
          apply hlast
          rw [covering.endBytes, contentBefore, take_of_length_le (Nat.not_lt.mp h)]
          rfl
        have hstands : lineStart f.content window.endBytes = window.endBytes := by
          rw [covering.endBytes]
          exact lineStart_of_ends (f.content_eq_contentBefore (k + 1)) (aligned.ends hk)
        omega
    rw [hwhole, hcut]
    exact hlines
  · by_contra hshort
    have hends : f.content.take e = [] ∨ (f.content.take e).getLast? = some newline := by
      rcases hline with hfirst | hline
      · rw [hfirst, covering.startBytes, f.take_contentBefore]
        exact aligned.ends covering.first
      · exact ends_take_lineStart hline hend
    have hmem : throughFirstNewline (f.content.drop e) ∈ (lines f.content).take endLine :=
      mem_take_lines (Nat.lt_of_lt_of_le (Nat.lt_of_le_of_lt (Nat.le_add_right e _) hlt) hsize) hends (by omega)
    have hlong := long_line (Nat.lt_of_lt_of_le hlt hsize) hnone
    exact absurd (fit _ hmem) (Nat.not_le.mpr hlong)

end

/-- `"ab\ncd\n"` and `"ef\n"` in a member each. -/
def threeLinesFile : IndexedFile := fileOf [[97, 98, 10, 99, 100, 10], [101, 102, 10]] (by decide)

theorem threeLines_aligned : threeLinesFile.LineAligned := by
  unfold IndexedFile.LineAligned
  decide +kernel

end DFTracer.Reader
