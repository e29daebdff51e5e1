/-
# What the line stream hands out

At any time the line stream still owes the lines of its window among the bytes it has
begun, kept and not yet read. A call hands out the first of them, or as much of their
bytes as fits the buffer. What is a line depends on the stream below: an eager one ends
while the line stream still looks for its last line, the others after it gave up.
-/

import DFTracer.Reader.SpanSplitters

namespace DFTracer.Reader.Splitting

open Gzip List

/-- The lines of some bytes; the unfinished one only counts over an eager stream. -/
def linesOver (eager : Bool) (begun bytes : Bytes) : List Bytes :=
  if eager then linesFrom begun bytes else completeFrom begun bytes

section linesOver

variable {eager : Bool} {begun bytes : Bytes}

theorem linesFrom_of_mem (h : newline ∈ bytes) :
    linesFrom begun bytes
      = (begun ++ throughFirstNewline bytes) :: linesFrom [] (afterFirstNewline bytes) := by
  have hunfinished : ∀ begun, unfinished begun bytes = unfinished [] (afterFirstNewline bytes) := by
    intro begun
    induction bytes generalizing begun with
    | nil => exact absurd h not_mem_nil
    | cons b rest ih =>
      rw [unfinished, afterFirstNewline]
      by_cases hb : b = newline
      · rw [if_pos hb, if_pos hb]
      · rw [if_neg hb, if_neg hb, ih ((mem_cons.mp h).resolve_left (Ne.symm hb))]
  rw [linesFrom_eq_append, completeFrom_of_mem _ h, hunfinished, cons_append,
    ← linesFrom_eq_append]

theorem linesFrom_append_of_not_mem (h : newline ∉ bytes) (rest : Bytes) :
    linesFrom begun (bytes ++ rest) = linesFrom (begun ++ bytes) rest := by
  induction bytes generalizing begun with
  | nil => rw [nil_append, append_nil]
  | cons b bytes ih =>
    rw [mem_cons, not_or] at h
    rw [cons_append, linesFrom, if_neg (Ne.symm h.1), ih h.2, append_assoc,
      singleton_append]

theorem linesOver_of_mem (h : newline ∈ bytes) :
    linesOver eager begun bytes
      = (begun ++ throughFirstNewline bytes) :: linesOver eager [] (afterFirstNewline bytes) := by
  unfold linesOver
  split
  · exact linesFrom_of_mem h
  · exact completeFrom_of_mem _ h

theorem linesOver_append_of_not_mem (h : newline ∉ bytes) (rest : Bytes) :
    linesOver eager begun (bytes ++ rest) = linesOver eager (begun ++ bytes) rest := by
  unfold linesOver
  split
  · exact linesFrom_append_of_not_mem h rest
  · exact completeFrom_append_of_not_mem _ _ h

/-- The first line of bytes that go on after a span which holds its end. -/
theorem linesOver_append_of_mem (h : newline ∈ bytes) (rest : Bytes) :
    linesOver eager begun (bytes ++ rest) = (begun ++ throughFirstNewline bytes) ::
      linesOver eager [] (afterFirstNewline bytes ++ rest) := by
  rw [linesOver_of_mem (mem_append_left rest h), throughFirstNewline_append_left h,
    afterFirstNewline_append_left h]

theorem length_afterFirstNewline_lt {bytes : Bytes} (h : newline ∈ bytes) :
    (afterFirstNewline bytes).length < bytes.length := by
  have hsplit := congrArg List.length (throughFirstNewline_append bytes)
  have hsome := length_pos_iff.mpr (throughFirstNewline_ne_nil (ne_nil_of_mem h))
  rw [length_append] at hsplit
  omega

theorem ne_nil_of_mem_linesOver {line : Bytes} (h : line ∈ linesOver eager begun bytes) :
    line ≠ [] := by
  unfold linesOver at h
  split at h
  · exact ne_nil_of_mem_linesFrom h
  · have hmem : line ∈ linesFrom begun bytes := by
      rw [linesFrom_eq_append]
      exact mem_append_left _ h
    exact ne_nil_of_mem_linesFrom hmem

theorem linesOver_nil_nil : linesOver eager [] [] = [] := by
  unfold linesOver
  split
  · rfl
  · rfl

end linesOver

namespace SpanStream

variable {u : SpanStream}

theorem read_of_nil (h : u.spans = []) : u.read = ([], { u with ended := true }) := by
  cases u
  cases h
  simp [read]

/-- What a read takes off a stream that has a span left. -/
theorem read_of_ne_nil (h : u.spans ≠ []) :
    ∃ span u', u.read = (span, u') ∧ span ≠ [] ∧ u.content = span ++ u'.content ∧
      u'.spans.length + 1 = u.spans.length ∧ u'.ended = u.ended ∧ u'.eager = u.eager := by
  obtain ⟨span, rest, hspans⟩ := exists_cons_of_ne_nil h
  have hspan := u.nonempty span (by rw [hspans]; exact mem_cons_self)
  exact ⟨_, _, rfl, by simp [content, hspans, hspan]⟩

/-- A stream on which no read has failed is done when it is eager and has nothing left. -/
theorem done_of_not_ended (h : u.ended = false) : u.done = (u.eager && u.spans.isEmpty) := by
  rw [done, h]
  cases u.eager
  · rfl
  · rfl

end SpanStream

namespace LineStream

variable {s : LineStream} {s s' : LineStream} {fuel : Nat}

/-- The bytes between the line begun and the end. -/
def ahead (s : LineStream) : Bytes := s.currentSpan ++ s.underlyingStream.content

/-- The lines still to be handed out. -/
def due (s : LineStream) : List Bytes :=
  windowed s.startLine s.endLine s.currentLineNumber
    (linesOver s.underlyingStream.eager s.lineAccumulator s.ahead)

theorem shouldOutputCurrentLine_eq (s : LineStream) :
    s.shouldOutputCurrentLine = decide (InWindow s.startLine s.endLine s.currentLineNumber) := by
  rw [Bool.eq_iff_iff, decide_eq_true_iff, shouldOutputCurrentLine, InWindow]
  by_cases hboth : s.startLine = 0 ∧ s.endLine = 0
  · simp [hboth.1]
  · have hopen : (decide (s.startLine = 0) && decide (s.endLine = 0)) = false := by
      simpa using hboth
    simp [hopen]

theorem isBeyondRange_iff (s : LineStream) :
    s.isBeyondRange = true ↔ 0 < s.endLine ∧ s.endLine < s.currentLineNumber := by
  simp [isBeyondRange]

theorem not_beyond_of_inWindow (h : InWindow s.startLine s.endLine s.currentLineNumber) :
    s.isBeyondRange = false := by
  rw [Bool.eq_false_iff, ne_eq, isBeyondRange_iff]
  obtain ⟨-, hend⟩ := h
  omega

theorem due_of_isBeyondRange (h : s.isBeyondRange = true) : s.due = [] :=
  windowed_of_past ((isBeyondRange_iff s).mp h).1 ((isBeyondRange_iff s).mp h).2 _

theorem due_ne_nil {line : Bytes} {rest : List Bytes} (h : s.due = line :: rest) : line ≠ [] := by
  have hmem : line ∈ s.due := h ▸ mem_cons_self
  exact ne_nil_of_mem_linesOver (windowed_subset _ _ hmem)

/-- The stream after the line that ends in the current span. -/
def pastLine (s : LineStream) : LineStream := { s with
  lineAccumulator := []
  currentSpan := afterFirstNewline s.currentSpan
  currentLineNumber := s.currentLineNumber + 1 }

theorem due_of_mem (h : newline ∈ s.currentSpan) :
    s.due = (if InWindow s.startLine s.endLine s.currentLineNumber
      then [s.lineAccumulator ++ throughFirstNewline s.currentSpan] else []) ++ s.pastLine.due := by
  rw [due, ahead, linesOver_append_of_mem h, windowed]
  split
  · rfl
  · rfl

theorem due_of_not_mem (h : newline ∉ s.currentSpan) :
    LineStream.due { s with
      lineAccumulator := s.lineAccumulator ++ s.currentSpan, currentSpan := [] } = s.due := by
  rw [due, due, ahead, ahead, linesOver_append_of_not_mem h, nil_append]

/-! ## The scan -/

/-- A stream in the middle of a call: nothing is owed once it says it is finished. -/
structure Scanning (s : LineStream) : Prop where
  opened : s.underlyingStream.ended = false
  finished : s.isFinished = true → s.due = []

/-- What a part of a call leaves. -/
def Outcome (s : LineStream) : ParseResult → LineStream → Prop
  | .hasLine, s' => s.due = s'.currentLine :: s'.due ∧ Scanning s' ∧
      s'.hasPendingLine = true ∧ s'.outputPosition = 0
  | .needMoreData, s' => s.due = s'.due ∧ Scanning s' ∧ s'.hasPendingLine = s.hasPendingLine
  | .finished, s' => s.due = [] ∧ s'.due = [] ∧ s'.isFinished = true ∧
      s'.hasPendingLine = s.hasPendingLine

theorem Outcome.after {s'' : LineStream} {r : ParseResult} (h : Outcome s .needMoreData s')
    (h' : Outcome s' r s'') : Outcome s r s'' := by
  obtain ⟨hdue, -, hpending⟩ := h
  cases r with
  | hasLine => exact ⟨hdue.trans h'.1, h'.2⟩
  | needMoreData => exact ⟨hdue.trans h'.1, h'.2.1, h'.2.2.trans hpending⟩
  | finished => exact ⟨hdue.trans h'.1, h'.2.1, h'.2.2.1, h'.2.2.2.trans hpending⟩

theorem outcome_of_isBeyondRange (h : s.isBeyondRange = true) :
    Outcome s .finished { s with isFinished := true } :=
  ⟨due_of_isBeyondRange h, due_of_isBeyondRange (s := { s with isFinished := true }) h, rfl, rfl⟩

section

variable (hs : Scanning s)

include hs

/-- A line that ends in the current span is handed out or passed by. -/
theorem processCompleteLine_spec (h : newline ∈ s.currentSpan) :
    Outcome s (if s.processCompleteLine.1 then .hasLine else .needMoreData)
      s.processCompleteLine.2 ∧
    s.processCompleteLine.2.underlyingStream = s.underlyingStream ∧
    s.processCompleteLine.2.currentSpan = afterFirstNewline s.currentSpan := by
  have hdue := due_of_mem h
  have hshould := shouldOutputCurrentLine_eq { s with
    currentLine := s.lineAccumulator ++ throughFirstNewline s.currentSpan
    lineAccumulator := [], currentSpan := afterFirstNewline s.currentSpan }
  have hpast : s.isFinished = true → s.pastLine.due = [] := fun hfinished => by
    rw [hs.finished hfinished] at hdue
    exact (append_eq_nil_iff.mp hdue.symm).2
  rw [processCompleteLine]
  rw [hshould]
  by_cases hin : InWindow s.startLine s.endLine s.currentLineNumber
  · have hbeyond : LineStream.isBeyondRange { s with
        currentLine := s.lineAccumulator ++ throughFirstNewline s.currentSpan
        lineAccumulator := [], currentSpan := afterFirstNewline s.currentSpan } = false :=
      not_beyond_of_inWindow (s := s) hin
    rw [if_pos hin] at hdue
    rw [hbeyond, decide_eq_true hin]
    exact ⟨⟨hdue, ⟨hs.opened, hpast⟩, rfl, rfl⟩, rfl, rfl⟩
  · rw [if_neg hin] at hdue
    rw [decide_eq_false hin]
    split
    · rename_i hbeyond
      -- past the window the scan goes on, with nothing to find
      have hnone : LineStream.due { s with
          currentLine := s.lineAccumulator ++ throughFirstNewline s.currentSpan
          lineAccumulator := [], currentSpan := afterFirstNewline s.currentSpan
          isFinished := true } = [] := due_of_isBeyondRange hbeyond
      have hsame : s.due = [] := due_of_isBeyondRange (s := s) hbeyond
      exact ⟨⟨hsame.trans hnone.symm, ⟨hs.opened, fun _ => hnone⟩, rfl⟩, rfl, rfl⟩
    · exact ⟨⟨hdue, ⟨hs.opened, hpast⟩, rfl⟩, rfl, rfl⟩

/-- The scan of the current span stops at a line to hand out or uses the span up. -/
theorem parseLoop_spec {fuel : Nat} (enough : s.currentSpan.length < fuel) :
    ∃ r s', s.parseLoop fuel = (r, s') ∧ Outcome s r s' ∧ r ≠ .finished ∧
      (r = .needMoreData → s'.currentSpan = [] ∧ s'.underlyingStream = s.underlyingStream) := by
  induction fuel generalizing s with
  | zero => exact absurd enough (Nat.not_lt_zero _)
  | succ fuel ih =>
    rw [parseLoop]
    by_cases hspan : s.currentSpan = []
    · rw [if_pos (List.isEmpty_iff.mpr hspan)]
      exact ⟨_, _, rfl, ⟨rfl, hs, rfl⟩, by decide, fun _ => ⟨hspan, rfl⟩⟩
    rw [if_neg (by rwa [List.isEmpty_iff])]
    by_cases hmem : newline ∈ s.currentSpan
    · rw [if_pos hmem]
      obtain ⟨hout, hunder, hleft⟩ := processCompleteLine_spec hs hmem
      generalize hprocess : s.processCompleteLine = p at hout hunder hleft
      obtain ⟨output, s'⟩ := p
      cases output with
      | true => exact ⟨_, _, rfl, hout, by decide, by intro h; cases h⟩
      | false =>
        have hlt := length_afterFirstNewline_lt hmem
        rw [← hleft] at hlt
        obtain ⟨r, s'', hloop, hnext, hr, hused⟩ := ih hout.2.1 (by omega)
        refine ⟨r, s'', hloop, hout.after hnext, hr, fun h => ?_⟩
        exact ⟨(hused h).1, (hused h).2.trans hunder⟩
    · rw [if_neg hmem]
      have hsame := due_of_not_mem hmem
      refine ⟨_, _, rfl, ⟨hsame.symm, ⟨hs.opened, fun h => ?_⟩, rfl⟩, by decide,
        fun _ => ⟨rfl, rfl⟩⟩
      exact hsame.trans (hs.finished h)

theorem tryParseNextLine_spec :
    ∃ r s', s.tryParseNextLine = (r, s') ∧ Outcome s r s' ∧
      (r = .needMoreData → s'.currentSpan = [] ∧ s'.underlyingStream = s.underlyingStream) := by
  rw [tryParseNextLine]
  by_cases hbeyond : s.isBeyondRange = true
  · rw [if_pos hbeyond]
    exact ⟨_, _, rfl, outcome_of_isBeyondRange hbeyond, by intro h; cases h⟩
  · rw [if_neg hbeyond]
    obtain ⟨r, s', hloop, hout, -, hused⟩ := parseLoop_spec hs (Nat.lt_succ_self _)
    exact ⟨r, s', hloop, hout, hused⟩

/-- Past the last span of an eager stream, what was begun is the last line. -/
theorem handleEofLine_spec (eager : s.underlyingStream.eager = true)
    (used : s.ahead = []) :
    (s.handleEofLine.1 = true → Outcome s .hasLine s.handleEofLine.2) ∧
    (s.handleEofLine.1 = false → s.due = [] ∧ s.handleEofLine.2.due = [] ∧
      s.handleEofLine.2.hasPendingLine = s.hasPendingLine) := by
  have hdue : s.due = windowed s.startLine s.endLine s.currentLineNumber
      (linesFrom s.lineAccumulator []) := by
    rw [due, used, eager]
    rfl
  rw [handleEofLine]
  by_cases hbegun : s.lineAccumulator = []
  · have hnone : s.due = [] := by
      rw [hdue, hbegun]
      rfl
    rw [if_pos (List.isEmpty_iff.mpr hbegun)]
    exact ⟨(by intro h; cases h), fun _ => ⟨hnone, hnone, rfl⟩⟩
  have hline : linesFrom s.lineAccumulator [] = [s.lineAccumulator] := by
    rw [linesFrom, if_neg (by rwa [List.isEmpty_iff])]
  rw [hline, windowed] at hdue
  rw [if_neg (by rwa [List.isEmpty_iff])]
  have hafter : ∀ n, windowed s.startLine s.endLine n
      (linesOver s.underlyingStream.eager [] s.ahead) = [] := by
    intro n
    rw [used, linesOver_nil_nil, windowed_nil]
  have hshould := shouldOutputCurrentLine_eq
    { s with currentLine := s.lineAccumulator, lineAccumulator := [] }
  dsimp only at hshould ⊢
  rw [hshould]
  by_cases hin : InWindow s.startLine s.endLine s.currentLineNumber
  · have hbeyond : LineStream.isBeyondRange
        { s with currentLine := s.lineAccumulator, lineAccumulator := [] } = false :=
      not_beyond_of_inWindow (s := s) hin
    rw [if_pos hin] at hdue
    rw [hbeyond, decide_eq_true hin]
    refine ⟨fun _ => ⟨?_, ⟨hs.opened, fun _ => hafter _⟩, rfl, rfl⟩, by intro h; cases h⟩
    rw [hdue]
    exact congrArg (s.lineAccumulator :: ·) (hafter _).symm
  · rw [if_neg hin] at hdue
    rw [decide_eq_false hin]
    exact ⟨(by intro h; cases h), fun _ => ⟨hdue, hafter _, rfl⟩⟩

/-- Past the current span there is another span, a last line or nothing more. -/
theorem nextSpan_spec (used : s.currentSpan = []) :
    ∃ r s', s.nextSpan = (r, s') ∧ Outcome s r s' ∧ (r = .needMoreData →
      s'.underlyingStream.spans.length + 1 = s.underlyingStream.spans.length) := by
  have hahead : s.ahead = s.underlyingStream.content := by rw [ahead, used, nil_append]
  rw [nextSpan, SpanStream.done_of_not_ended hs.opened]
  by_cases hdone : (s.underlyingStream.eager && s.underlyingStream.spans.isEmpty) = true
  · rw [if_pos hdone]
    rw [Bool.and_eq_true, List.isEmpty_iff] at hdone
    have hnone : s.ahead = [] := by
      rw [hahead, SpanStream.content, hdone.2, flatten_nil]
    obtain ⟨hout, hover⟩ := handleEofLine_spec hs hdone.1 hnone
    generalize hresult : s.handleEofLine = p at hout hover
    obtain ⟨output, s'⟩ := p
    cases output with
    | true => exact ⟨_, _, rfl, hout rfl, by intro h; cases h⟩
    | false =>
      obtain ⟨hbefore, hafter, hpending⟩ := hover rfl
      exact ⟨_, _, rfl, ⟨hbefore, hafter, rfl, hpending⟩, by intro h; cases h⟩
  rw [if_neg hdone]
  by_cases hspans : s.underlyingStream.spans = []
  · -- the empty read: the line begun is given up
    have hlazy : s.underlyingStream.eager = false := by
      rw [Bool.and_eq_true, List.isEmpty_iff] at hdone
      exact Bool.eq_false_iff.mpr fun h => hdone ⟨h, hspans⟩
    have hnone : s.due = [] := by
      rw [due, hahead, SpanStream.content, hspans, hlazy]
      rfl
    have hnow : LineStream.due { s with
        underlyingStream := { s.underlyingStream with ended := true }
        currentSpan := [], isFinished := true } = [] := by
      rw [← hnone, due, due, hahead]
      rfl
    rw [SpanStream.read_of_nil hspans]
    exact ⟨_, _, rfl, ⟨hnone, hnow, rfl, rfl⟩, by intro h; cases h⟩
  · obtain ⟨span, u', hread, hspan, hcontent, hlength, hended, heager⟩ :=
      SpanStream.read_of_ne_nil hspans
    have hsame : LineStream.due { s with underlyingStream := u', currentSpan := span } = s.due := by
      rw [due, due, hahead, hcontent, heager]
      rfl
    rw [hread]
    dsimp only
    rw [if_neg (by rwa [List.isEmpty_iff])]
    refine ⟨_, _, rfl, ⟨hsame.symm, ⟨hended.trans hs.opened, fun h => ?_⟩, rfl⟩, fun _ => hlength⟩
    exact hsame.trans (hs.finished h)

end

/-- A stream between two calls. -/
structure Standing (s : LineStream) : Prop where
  opened : s.isFinished = false → s.underlyingStream.ended = false
  finished : s.isFinished = true → s.due = []

theorem Scanning.standing (hs : Scanning s) : Standing s := ⟨fun _ => hs.opened, hs.finished⟩

theorem Outcome.standing (h : Outcome s .finished s') : Standing s' := by
  obtain ⟨-, hafter, hfinished, -⟩ := h
  exact ⟨fun hrunning => absurd (hfinished.symm.trans hrunning) (by decide), fun _ => hafter⟩

/-- A call hands out the first line owed, and nothing when none is. -/
theorem readLoop_spec (hs : Scanning s) (enough : s.underlyingStream.spans.length < fuel) :
    ∃ line s', s.readLoop fuel = (line, s') ∧ Standing s' ∧
      (s.due = [] ∧ line = [] ∨ s.due = line :: s'.due) := by
  induction fuel generalizing s with
  | zero => exact absurd enough (Nat.not_lt_zero _)
  | succ fuel ih =>
    obtain ⟨r, s₁, hparse, hout, hused⟩ := tryParseNextLine_spec hs
    rw [readLoop, hparse]
    cases r with
    | hasLine => exact ⟨_, _, rfl, hout.2.1.standing, .inr hout.1⟩
    | finished => exact ⟨_, _, rfl, hout.standing, .inl ⟨hout.1, rfl⟩⟩
    | needMoreData =>
      obtain ⟨hempty, hunder⟩ := hused rfl
      obtain ⟨r, s₂, hnext, hout', hlength⟩ := nextSpan_spec hout.2.1 hempty
      have hall := hout.after hout'
      dsimp only
      rw [hnext]
      cases r with
      | hasLine => exact ⟨_, _, rfl, hall.2.1.standing, .inr hall.1⟩
      | finished => exact ⟨_, _, rfl, hall.standing, .inl ⟨hall.1, rfl⟩⟩
      | needMoreData =>
        have hleft := hlength rfl
        rw [hunder] at hleft
        obtain ⟨line, s₃, hloop, hstanding, hline⟩ := ih hall.2.1 (by omega)
        exact ⟨line, s₃, hloop, hstanding, by rwa [hall.1]⟩

theorem read_spec (hs : Standing s) :
    ∃ line s', s.read = (line, s') ∧ Standing s' ∧
      (s.due = [] ∧ line = [] ∨ s.due = line :: s'.due) := by
  rw [read]
  cases hfinished : s.isFinished with
  | true => exact ⟨_, _, rfl, hs, .inl ⟨hs.finished hfinished, rfl⟩⟩
  | false =>
    have hscan : Scanning s := ⟨hs.opened hfinished, hs.finished⟩
    exact readLoop_spec hscan (Nat.lt_succ_self _)

/-- Line by line a caller gets all the lines owed. -/
theorem drain_spec (hs : Standing s) (enough : s.due.length < fuel) :
    s.drain fuel = s.due := by
  induction fuel generalizing s with
  | zero => exact absurd enough (Nat.not_lt_zero _)
  | succ fuel ih =>
    rw [drain]
    cases hdone : s.done with
    | true =>
      rw [done, Bool.and_eq_true] at hdone
      rw [if_pos rfl, hs.finished hdone.1]
    | false =>
      obtain ⟨line, s', hread, hstanding, hline⟩ := read_spec hs
      rw [if_neg Bool.false_ne_true, hread]
      rcases hline with ⟨hnone, rfl⟩ | hline
      · rw [hnone]
        rfl
      · have hsome : line.isEmpty = false :=
          isEmpty_eq_false_iff.mpr (due_ne_nil hline)
        rw [hline, length_cons] at enough
        dsimp only
        rw [hsome, if_neg Bool.false_ne_true, ih hstanding (by omega), hline]

end LineStream

end DFTracer.Reader.Splitting
