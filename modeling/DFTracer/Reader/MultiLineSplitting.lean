/-
# What the multi-line stream hands out

One call of the multi-line stream goes through all the spans it needs and puts out every
line still owed; a last line without a newline goes with them once the stream below is
done, at whichever read it says so. The count of lines put out never stops the call
before the window ends, as long as the numbers of the lines stay below `SIZE_MAX`.
-/

import DFTracer.Reader.LineSplitting

namespace DFTracer.Reader.Splitting

open Gzip List

namespace MultiLineStream

variable {s s' : MultiLineStream}

/-- The bytes between the line begun and the end. -/
def ahead (s : MultiLineStream) : Bytes := s.currentSpan ++ s.underlyingStream.content

/-- The lines still to be put out. -/
def due (s : MultiLineStream) : List Bytes :=
  windowed s.startLine s.endLine s.currentLine (linesFrom s.lineAccumulator s.ahead)

/-- Whether the next line is asked for. -/
def Wanted (s : MultiLineStream) : Prop := InWindow s.startLine s.endLine s.currentLine

instance (s : MultiLineStream) : Decidable s.Wanted :=
  inferInstanceAs (Decidable (InWindow s.startLine s.endLine s.currentLine))

theorem isLineInOutputRange_eq (s : MultiLineStream) :
    s.isLineInOutputRange = decide s.Wanted := by
  rw [Bool.eq_iff_iff, decide_eq_true_iff, isLineInOutputRange, Wanted, InWindow]
  simp only [Bool.and_eq_true, decide_eq_true_eq, Bool.or_eq_true]
  omega

theorem reachedEndOfRange_iff (s : MultiLineStream) :
    s.reachedEndOfRange = true ↔ 0 < s.endLine ∧ s.endLine < s.currentLine := by
  simp [reachedEndOfRange]

theorem due_of_reachedEnd (h : s.reachedEndOfRange = true) : s.due = [] :=
  windowed_of_past ((reachedEndOfRange_iff s).mp h).1 ((reachedEndOfRange_iff s).mp h).2 _

/-- The lines put out so far are behind the next one, and those ahead can be counted. -/
structure Counting (s : MultiLineStream) : Prop where
  bounded : s.endLine < 2 ^ 64
  counted : s.linesOutput + s.startLine ≤ max s.currentLine s.startLine
  room : s.linesOutput + (s.lineAccumulator ++ s.ahead).length < sizeMax

namespace Counting

theorem canOutput (h : Counting s) (wanted : s.Wanted) : s.linesOutput < s.calculateMaxLines := by
  have hbounded := h.bounded
  have hcounted := h.counted
  have hroom := h.room
  obtain ⟨hstart, hend⟩ := wanted
  rw [calculateMaxLines]
  split
  · rename_i hboth
    rw [Bool.and_eq_true, decide_eq_true_iff, decide_eq_true_iff] at hboth
    omega
  · omega

/-- Only the end of the window stops the count. -/
theorem due_of_reachedMax (h : Counting s)
    (reached : s.reachedMaxLines s.calculateMaxLines = true) : s.due = [] := by
  have hbounded := h.bounded
  have hcounted := h.counted
  have hroom := h.room
  rw [reachedMaxLines, decide_eq_true_iff, calculateMaxLines] at reached
  split at reached
  · rename_i hboth
    rw [Bool.and_eq_true, decide_eq_true_iff, decide_eq_true_iff] at hboth
    by_cases hcrossed : s.endLine < s.startLine
    · exact windowed_of_crossed hboth.1 hcrossed _ _
    · have hsize : (s.endLine + 2 ^ 64 - s.startLine + 1) % 2 ^ 64
          = s.endLine - s.startLine + 1 := by omega
      rw [hsize] at reached
      exact windowed_of_past hboth.1 (by omega) _
  · omega

end Counting

/-- One state of a call after another: what was put out and what is owed stay together. -/
structure Moved (s s' : MultiLineStream) : Prop where
  given : s.outputBuffer ++ s.due.flatten = s'.outputBuffer ++ s'.due.flatten
  counting : Counting s'
  startLine : s'.startLine = s.startLine
  endLine : s'.endLine = s.endLine
  position : s'.outputBufPos = s.outputBufPos

theorem Moved.refl (h : Counting s) : Moved s s := ⟨rfl, h, rfl, rfl, rfl⟩

theorem Moved.trans {s'' : MultiLineStream} (h : Moved s s') (h' : Moved s' s'') : Moved s s'' :=
  ⟨h.given.trans h'.given, h'.counting, h'.startLine.trans h.startLine,
    h'.endLine.trans h.endLine, h'.position.trans h.position⟩

theorem Moved.maxLines (h : Moved s s') : s'.calculateMaxLines = s.calculateMaxLines := by
  rw [calculateMaxLines, calculateMaxLines, h.startLine, h.endLine]

theorem due_of_mem (h : newline ∈ s.currentSpan) :
    s.due = (if s.Wanted then [s.lineAccumulator ++ throughFirstNewline s.currentSpan] else [])
      ++ (s.takeLine (decide s.Wanted)).due := by
  have hlines : linesFrom s.lineAccumulator s.ahead
      = (s.lineAccumulator ++ throughFirstNewline s.currentSpan) ::
        linesFrom [] (afterFirstNewline s.currentSpan ++ s.underlyingStream.content) := by
    rw [ahead, linesFrom_of_mem (mem_append_left _ h), throughFirstNewline_append_left h,
      afterFirstNewline_append_left h]
  rw [due, hlines, windowed]
  by_cases hwanted : s.Wanted
  · have hin : InWindow s.startLine s.endLine s.currentLine := hwanted
    rw [if_pos hwanted, if_pos hin]
    rfl
  · have hin : ¬ InWindow s.startLine s.endLine s.currentLine := hwanted
    rw [if_neg hwanted, if_neg hin]
    rfl

theorem takeLine_moved (hs : Counting s) (h : newline ∈ s.currentSpan) :
    Moved s (s.takeLine (decide s.Wanted)) := by
  have hdue := due_of_mem h
  have hbounded := hs.bounded
  have hcounted := hs.counted
  have hroom := hs.room
  have hless := length_afterFirstNewline_lt h
  have hahead : (s.takeLine (decide s.Wanted)).ahead
      = afterFirstNewline s.currentSpan ++ s.underlyingStream.content := rfl
  rw [ahead] at hroom
  simp only [length_append] at hroom
  by_cases hwanted : s.Wanted
  · rw [if_pos hwanted] at hdue
    have hput : s.takeLine (decide s.Wanted) = s.takeLine true := by rw [decide_eq_true hwanted]
    refine ⟨?_, ⟨hbounded, ?_, ?_⟩, rfl, rfl, rfl⟩
    · rw [hdue, hput, flatten_append, flatten_singleton, takeLine, if_pos rfl, ← append_assoc]
    · rw [hput]
      obtain ⟨hstart, -⟩ := hwanted
      change s.linesOutput + 1 + s.startLine ≤ max (s.currentLine + 1) s.startLine
      omega
    · rw [hahead, hput, length_append, length_append]
      change s.linesOutput + 1 + (0 + _) < sizeMax
      omega
  · rw [if_neg hwanted] at hdue
    have hput : s.takeLine (decide s.Wanted) = s.takeLine false := by rw [decide_eq_false hwanted]
    refine ⟨?_, ⟨hbounded, ?_, ?_⟩, rfl, rfl, rfl⟩
    · rw [hdue, hput]
      rfl
    · rw [hput]
      change s.linesOutput + s.startLine ≤ max (s.currentLine + 1) s.startLine
      omega
    · rw [hahead, hput, length_append, length_append]
      change s.linesOutput + (0 + _) < sizeMax
      omega

/-- Without a newline the span joins the line begun. -/
theorem keep_moved (hs : Counting s) (h : newline ∉ s.currentSpan) :
    Moved s { s with lineAccumulator := s.lineAccumulator ++ s.currentSpan, currentSpan := [] } := by
  have hroom := hs.room
  refine ⟨?_, ⟨hs.bounded, hs.counted, ?_⟩, rfl, rfl, rfl⟩
  · rw [due, due, ahead, ahead, linesFrom_append_of_not_mem h, nil_append]
  · rw [ahead, ← append_assoc] at hroom
    exact hroom

/-! ## One call -/

variable {fuel : Nat} {bufferSize : Nat}

/-- What a pass over the current span leaves. -/
theorem processLoop_spec (hs : Counting s) (enough : s.currentSpan.length < fuel) :
    ∃ more s', processLoop s.calculateMaxLines fuel s = (more, s') ∧ Moved s s' ∧
      s'.underlyingStream = s.underlyingStream ∧ (more = false → s'.due = []) ∧
      (more = true → s'.isFinished = s.isFinished ∧
        (s'.currentSpan = [] ∨ s'.reachedMaxLines s.calculateMaxLines = true)) := by
  induction fuel generalizing s with
  | zero => exact absurd enough (Nat.not_lt_zero _)
  | succ fuel ih =>
    rw [processLoop]
    by_cases hspan : s.currentSpan = []
    · rw [if_pos (List.isEmpty_iff.mpr hspan)]
      exact ⟨_, _, rfl, .refl hs, rfl, (by intro h; cases h), fun _ => ⟨rfl, .inl hspan⟩⟩
    rw [if_neg (by rwa [List.isEmpty_iff])]
    by_cases hmem : newline ∈ s.currentSpan
    swap
    · rw [if_pos hmem]
      exact ⟨_, _, rfl, keep_moved hs hmem, rfl, (by intro h; cases h),
        fun _ => ⟨rfl, .inl rfl⟩⟩
    rw [if_neg (not_not_intro hmem)]
    have hput : (s.isLineInOutputRange && decide (s.linesOutput < s.calculateMaxLines))
        = decide s.Wanted := by
      rw [isLineInOutputRange_eq]
      by_cases hwanted : s.Wanted
      · rw [decide_eq_true hwanted, decide_eq_true (hs.canOutput hwanted)]
        rfl
      · rw [decide_eq_false hwanted, Bool.false_and]
    dsimp only
    rw [hput]
    split
    · rename_i hpast
      rw [Bool.and_eq_true] at hpast
      have hnone := due_of_reachedEnd hpast.2
      exact ⟨_, _, rfl, ⟨rfl, ⟨hs.bounded, hs.counted, hs.room⟩, rfl, rfl, rfl⟩, rfl,
        fun _ => hnone, (by intro h; cases h)⟩
    · have hmoved := takeLine_moved hs hmem
      split
      · rename_i hreached
        exact ⟨_, _, rfl, hmoved, rfl, (by intro h; cases h), fun _ => ⟨rfl, .inr hreached⟩⟩
      · have hless := length_afterFirstNewline_lt hmem
        obtain ⟨more, s'', hloop, hmoved', hunder, hover, hleft⟩ := ih hmoved.counting
          (by change (afterFirstNewline s.currentSpan).length < fuel; omega)
        exact ⟨more, s'', hloop, hmoved.trans hmoved', hunder, hover, hleft⟩

/-- Where the loop over the spans stops: nothing is owed, or nothing is left below. -/
def Stopped (s : MultiLineStream) : Prop :=
  (s.due = [] ∧ s.underlyingStream.ended = false) ∨
  (s.ahead = [] ∧ s.underlyingStream.done = true)

/-- How many rounds a call may need: one for each span, and one for what is kept of the
current one. -/
def rounds (s : MultiLineStream) : Nat :=
  s.underlyingStream.spans.length + if s.currentSpan.isEmpty then 0 else 1

/-- A pass over another span, or the end of the stream below. -/
theorem refillIfNeeded_spec (hs : Counting s) (opened : s.underlyingStream.ended = false) :
    ∃ more s', s.refillIfNeeded = (more, s') ∧ Moved s s' ∧ s'.isFinished = s.isFinished ∧
      (more = false → s'.ahead = [] ∧ s'.underlyingStream.done = true) ∧
      (more = true → s'.underlyingStream.ended = false ∧
        s'.underlyingStream.spans.length + 1 = s.rounds) := by
  rw [refillIfNeeded]
  by_cases hspan : s.currentSpan = []
  swap
  · rw [isEmpty_eq_false_iff.mpr hspan]
    exact ⟨_, _, rfl, .refl hs, rfl, (by intro h; cases h),
      fun _ => ⟨opened, by rw [rounds, isEmpty_eq_false_iff.mpr hspan]; rfl⟩⟩
  have hahead : s.ahead = s.underlyingStream.content := by rw [ahead, hspan, nil_append]
  have hrounds : s.rounds = s.underlyingStream.spans.length := by
    rw [rounds, hspan]
    rfl
  rw [hrounds, hspan]
  cases hdone : s.underlyingStream.done with
  | true =>
    have hnone : s.ahead = [] := by
      rw [SpanStream.done_of_not_ended opened, Bool.and_eq_true, List.isEmpty_iff] at hdone
      rw [hahead, SpanStream.content, hdone.2, flatten_nil]
    exact ⟨_, _, rfl, .refl hs, rfl, fun _ => ⟨hnone, hdone⟩, (by intro h; cases h)⟩
  | false =>
    by_cases hspans : s.underlyingStream.spans = []
    · -- the empty read
      have hnone : s.ahead = [] := by
        rw [hahead, SpanStream.content, hspans, flatten_nil]
      have hlazy : s.underlyingStream.eager = false := by
        rw [SpanStream.done_of_not_ended opened, hspans, isEmpty_nil, Bool.and_true] at hdone
        exact hdone
      rw [SpanStream.read_of_nil hspans]
      refine ⟨_, _, rfl, ⟨?_, ⟨hs.bounded, hs.counted, ?_⟩, rfl, rfl, rfl⟩, rfl,
        fun _ => ⟨?_, ?_⟩, (by intro h; cases h)⟩
      · rw [due, hahead]
        rfl
      · have hroom := hs.room
        rw [hahead] at hroom
        exact hroom
      · rw [hahead] at hnone
        exact hnone
      · rw [hlazy]
        rfl
    · obtain ⟨span, u', hread, hsome, hcontent, hlength, hended, -⟩ :=
        SpanStream.read_of_ne_nil hspans
      have hsame : MultiLineStream.ahead { s with underlyingStream := u', currentSpan := span }
          = s.ahead := by
        rw [hahead, hcontent]
        rfl
      have hroom := hs.room
      rw [← hsame] at hroom
      rw [hread]
      refine ⟨_, _, rfl, ⟨?_, ⟨hs.bounded, hs.counted, hroom⟩, rfl, rfl, rfl⟩, rfl, fun h => ?_,
        fun _ => ⟨hended.trans opened, hlength⟩⟩
      · rw [due, due, hsame]
      · rw [Bool.not_eq_false', List.isEmpty_iff] at h
        exact absurd h hsome

theorem readLoop_of_reached {maxLines : Nat}
    (h : (s.reachedEndOfRange || s.reachedMaxLines maxLines) = true) (fuel : Nat) :
    readLoop maxLines fuel s = s := by
  cases fuel with
  | zero => rfl
  | succ fuel => rw [readLoop, if_pos h]

/-- A call goes on until nothing is owed or nothing is left below. -/
theorem readLoop_spec (hs : Counting s) (opened : s.underlyingStream.ended = false)
    (running : s.isFinished = false) (enough : s.rounds < fuel) :
    ∃ s', readLoop s.calculateMaxLines fuel s = s' ∧ Moved s s' ∧ Stopped s' ∧
      (s'.isFinished = true → s'.due = []) := by
  induction fuel generalizing s with
  | zero => exact absurd enough (Nat.not_lt_zero _)
  | succ fuel ih =>
    by_cases hstop : (s.reachedEndOfRange || s.reachedMaxLines s.calculateMaxLines) = true
    · have hnone : s.due = [] := by
        have hstop' := hstop
        rw [Bool.or_eq_true] at hstop'
        exact hstop'.elim due_of_reachedEnd hs.due_of_reachedMax
      rw [readLoop_of_reached hstop]
      exact ⟨s, rfl, .refl hs, .inl ⟨hnone, opened⟩, fun _ => hnone⟩
    obtain ⟨more, s₁, hrefill, hmoved, hsame, hover, hgo⟩ := refillIfNeeded_spec hs opened
    rw [readLoop, if_neg hstop, hrefill]
    cases more with
    | false =>
      refine ⟨s₁, rfl, hmoved, .inr (hover rfl), fun h => ?_⟩
      exact absurd (h.symm.trans (hsame.trans running)) (by decide)
    | true =>
      obtain ⟨hopened, hlength⟩ := hgo rfl
      obtain ⟨more, s₂, hprocess, hmoved', hunder, hpast, hleft⟩ :=
        processLoop_spec hmoved.counting (Nat.lt_succ_self _)
      have hboth := hmoved.trans hmoved'
      have hopened₂ : s₂.underlyingStream.ended = false := by rw [hunder, hopened]
      rw [hmoved.maxLines] at hprocess hleft
      dsimp only
      rw [processLines, hprocess]
      cases more with
      | false =>
        have hnone := hpast rfl
        exact ⟨s₂, rfl, hboth, .inl ⟨hnone, hopened₂⟩, fun _ => hnone⟩
      | true =>
        obtain ⟨hfinished, hused⟩ := hleft rfl
        have hrunning := hfinished.trans (hsame.trans running)
        rcases hused with hused | hreached
        · rw [← hboth.maxLines]
          have hfewer : s₂.rounds < fuel := by
            rw [rounds, hused, hunder, isEmpty_nil, if_pos rfl]
            omega
          obtain ⟨s₃, hloop, hmoved₃, hstopped⟩ :=
            ih hmoved'.counting hopened₂ hrunning hfewer
          exact ⟨s₃, hloop, hboth.trans hmoved₃, hstopped⟩
        · have hnone : s₂.due = [] := by
            apply hmoved'.counting.due_of_reachedMax
            rw [hboth.maxLines]
            exact hreached
          have hstopped : (s₂.reachedEndOfRange
              || s₂.reachedMaxLines s.calculateMaxLines) = true := by
            rw [hreached, Bool.or_true]
          exact ⟨s₂, readLoop_of_reached hstopped fuel, hboth, .inl ⟨hnone, hopened₂⟩,
            fun _ => hnone⟩

theorem due_ne_nil_of_begun (begun : s.lineAccumulator ≠ []) (wanted : s.Wanted) : s.due ≠ [] := by
  have hlines : linesFrom s.lineAccumulator s.ahead ≠ [] := by
    intro h
    have hbytes := flatten_linesFrom s.lineAccumulator s.ahead
    rw [h] at hbytes
    exact begun (append_eq_nil_iff.mp hbytes.symm).1
  obtain ⟨line, rest, hline⟩ := exists_cons_of_ne_nil hlines
  have hin : InWindow s.startLine s.endLine s.currentLine := wanted
  rw [due, hline, windowed, if_pos hin]
  exact cons_ne_nil _ _

/-- After the last line nothing is owed. -/
theorem handleFinalLine_spec (hs : Counting s) (stopped : Stopped s) :
    ∃ s', s.handleFinalLine s.calculateMaxLines = s' ∧
      s'.outputBuffer = s.outputBuffer ++ s.due.flatten ∧ s'.due = [] ∧
      s'.underlyingStream = s.underlyingStream ∧ s'.isFinished = s.isFinished ∧
      s'.outputBufPos = s.outputBufPos ∧ (s.underlyingStream.done = false → s' = s) := by
  rw [handleFinalLine]
  split
  · rename_i hkeep
    have hnone : s.due = [] := by
      rcases stopped with ⟨hnone, -⟩ | ⟨hahead, hdone⟩
      · exact hnone
      rw [hdone, Bool.not_true, Bool.false_or, Bool.or_eq_true, Bool.or_eq_true] at hkeep
      rcases hkeep with (hbegun | hout) | hreached
      · rw [List.isEmpty_iff] at hbegun
        rw [due, hahead, hbegun]
        rfl
      · rw [isLineInOutputRange_eq, Bool.not_eq_true', decide_eq_false_iff_not] at hout
        have hnotin : ¬ InWindow s.startLine s.endLine s.currentLine := hout
        rw [due, hahead, linesFrom]
        split
        · rfl
        · rw [windowed, if_neg hnotin, windowed_nil]
      · exact hs.due_of_reachedMax hreached
    refine ⟨s, rfl, ?_, hnone, rfl, rfl, rfl, fun _ => rfl⟩
    rw [hnone, flatten_nil, append_nil]
  · rename_i hflush
    simp only [Bool.or_eq_true, Bool.not_eq_true', not_or, Bool.not_eq_false, List.isEmpty_iff]
      at hflush
    obtain ⟨⟨⟨hdone, hbegun⟩, hin⟩, -⟩ := hflush
    rw [isLineInOutputRange_eq, decide_eq_true_iff] at hin
    have hahead : s.ahead = [] := by
      rcases stopped with ⟨hnone, -⟩ | ⟨hahead, -⟩
      · exact absurd hnone (due_ne_nil_of_begun hbegun hin)
      · exact hahead
    have hwanted : InWindow s.startLine s.endLine s.currentLine := hin
    have hline : s.due = [s.lineAccumulator] := by
      rw [due, hahead, linesFrom, if_neg (by rwa [List.isEmpty_iff]), windowed, if_pos hwanted,
        windowed_nil]
    refine ⟨_, rfl, ?_, ?_, rfl, rfl, rfl, fun h => absurd (hdone.symm.trans h) (by decide)⟩
    · rw [hline, flatten_singleton]
    · change windowed s.startLine s.endLine s.currentLine (linesFrom [] s.ahead) = []
      rw [hahead]
      rfl

/-! ## Calls in a row -/

/-- A stream between two calls. -/
structure Standing (s : MultiLineStream) : Prop where
  running : s.isFinished = false → Counting s ∧ s.underlyingStream.ended = false
  finished : s.isFinished = true → s.due = []

/-- One call puts out everything that is owed. -/
theorem read_spec (hs : Standing s) :
    ∃ s', s.read = (s.due.flatten, s') ∧ Standing s' ∧ s'.due = [] ∧
      s'.outputBufPos = s.outputBufPos ∧
      (s.isFinished = false → s'.outputBuffer = s.due.flatten) := by
  rw [read]
  by_cases hrunning : s.isFinished = true
  · have hnone := hs.finished hrunning
    rw [if_pos hrunning, hnone]
    exact ⟨s, rfl, hs, hnone, rfl, fun h => absurd (hrunning.symm.trans h) (by decide)⟩
  · have hfinished : s.isFinished = false := Bool.eq_false_iff.mpr hrunning
    rw [if_neg hrunning]
    obtain ⟨hcounting, hopened⟩ := hs.running hfinished
    have hcleared : Counting { s with outputBuffer := [] } :=
      ⟨hcounting.bounded, hcounting.counted, hcounting.room⟩
    have henough : MultiLineStream.rounds { s with outputBuffer := [] }
        < s.underlyingStream.spans.length + 2 := by
      change s.underlyingStream.spans.length + (if s.currentSpan.isEmpty then 0 else 1) < _
      split
      · omega
      · omega
    obtain ⟨s₁, hloop, hmoved, hstopped, hover⟩ := readLoop_spec hcleared hopened hfinished henough
    have hloop' : readLoop s.calculateMaxLines (s.underlyingStream.spans.length + 2)
        { s with outputBuffer := [] } = s₁ := hloop
    have hmax : s₁.calculateMaxLines = s.calculateMaxLines := hmoved.maxLines
    obtain ⟨s₂, hfinal, hbuffer, hnone, hunder, hsame, hposition, hkept⟩ :=
      handleFinalLine_spec hmoved.counting hstopped
    rw [hmax] at hfinal
    have hgiven : s.due.flatten = s₂.outputBuffer := by
      have h := hmoved.given
      rw [hbuffer, ← h]
      rfl
    have hpos : s₂.outputBufPos = s.outputBufPos := hposition.trans hmoved.position
    dsimp only
    rw [hloop', hfinal, updateFinishState, hgiven]
    by_cases hend : (s₂.underlyingStream.done || s₂.reachedEndOfRange) = true
    · rw [if_pos hend]
      exact ⟨_, rfl, ⟨(by intro h; cases h), fun _ => hnone⟩, hnone, hpos, fun _ => rfl⟩
    · rw [if_neg hend]
      rw [Bool.or_eq_true, not_or, Bool.not_eq_true, hunder] at hend
      have hunchanged := hkept hend.1
      refine ⟨_, rfl, ⟨fun _ => ?_, fun _ => hnone⟩, hnone, hpos, fun _ => rfl⟩
      rw [hunchanged]
      refine ⟨hmoved.counting, ?_⟩
      exact hstopped.elim And.right fun h => absurd (h.2.symm.trans hend.1) (by decide)

/-- A stream that has put out everything has nothing more to give. -/
theorem flatten_drain_of_due_nil (hs : Standing s) (none : s.due = []) :
    (s.drain fuel).flatten = [] := by
  cases fuel with
  | zero => rfl
  | succ fuel =>
    obtain ⟨s', hread, -⟩ := read_spec hs
    rw [drain, hread, none]
    split
    · rfl
    · rfl

/-- A stream before its first call. -/
structure Fresh (s : MultiLineStream) : Prop where
  counting : Counting s
  opened : s.underlyingStream.ended = false
  running : s.isFinished = false
  span : s.currentSpan = []
  begun : s.lineAccumulator = []
  buffer : s.outputBuffer = []

namespace Fresh

theorem standing (hs : Fresh s) : Standing s :=
  ⟨fun _ => ⟨hs.counting, hs.opened⟩, fun h => absurd (hs.running.symm.trans h) (by decide)⟩

theorem due_of_done (hs : Fresh s) (done : s.done = true) : s.due = [] := by
  rw [MultiLineStream.done, hs.buffer, length_nil, if_neg (Nat.not_lt_zero _), hs.running,
    Bool.false_or, SpanStream.done_of_not_ended hs.opened, Bool.and_eq_true, Bool.and_eq_true,
    List.isEmpty_iff] at done
  rw [due, ahead, hs.span, hs.begun, SpanStream.content, done.1.2]
  rfl

end Fresh

/-- Span by span a caller gets the bytes of all the lines owed. -/
theorem flatten_drain {fuel : Nat} (hs : Fresh s) :
    (s.drain (fuel + 1)).flatten = s.due.flatten := by
  rw [drain]
  cases hdone : s.done with
  | true =>
    rw [if_pos rfl, hs.due_of_done hdone]
  | false =>
    obtain ⟨s', hread, hstanding, hnone, -⟩ := read_spec hs.standing
    rw [if_neg Bool.false_ne_true, hread]
    dsimp only
    by_cases hbytes : s.due.flatten = []
    · rw [if_pos (List.isEmpty_iff.mpr hbytes), hbytes, flatten_nil]
    · rw [if_neg (by rwa [List.isEmpty_iff]), flatten_cons,
        flatten_drain_of_due_nil hstanding hnone, append_nil]

/-- What was put out is copied a buffer at a time. -/
theorem drainInto_of_due_nil (positive : 0 < bufferSize) (hs : Standing s) (none : s.due = [])
    (enough : s.outputBuffer.length - s.outputBufPos < fuel) :
    s.drainInto bufferSize fuel = s.outputBuffer.drop s.outputBufPos := by
  induction fuel generalizing s with
  | zero => exact absurd enough (Nat.not_lt_zero _)
  | succ fuel ih =>
    rw [drainInto, done, fill]
    by_cases hleft : s.outputBufPos < s.outputBuffer.length
    · rw [if_pos hleft, if_pos hleft, if_neg Bool.false_ne_true]
      have hlength : ((s.outputBuffer.drop s.outputBufPos).take bufferSize).length
          = min bufferSize (s.outputBuffer.length - s.outputBufPos) := by
        rw [List.length_take, length_drop]
      have hsome : (s.outputBuffer.drop s.outputBufPos).take bufferSize ≠ [] := by
        rw [← length_pos_iff]
        omega
      have hstanding : Standing { s with outputBufPos := s.outputBufPos
          + ((s.outputBuffer.drop s.outputBufPos).take bufferSize).length } :=
        ⟨fun h => ⟨⟨(hs.running h).1.bounded, (hs.running h).1.counted, (hs.running h).1.room⟩,
          (hs.running h).2⟩, hs.finished⟩
      have hrest := ih hstanding none (by dsimp only; omega)
      dsimp only at hrest ⊢
      rw [if_neg (by rwa [List.isEmpty_iff]), hrest, ← drop_drop,
        take_append_drop_length]
    · rw [if_neg hleft, drop_of_length_le (Nat.not_lt.mp hleft)]
      obtain ⟨s', hread, -⟩ := read_spec hs
      rw [hread, none]
      by_cases hfinished : s.isFinished = true
      · rw [hfinished, Bool.true_or, if_pos rfl]
      · split
        · rfl
        · rfl

/-- Buffer by buffer a caller gets the bytes of all the lines owed. -/
theorem drainInto_spec (positive : 0 < bufferSize)
    (hs : Fresh s) (enough : s.due.flatten.length + 1 < fuel) :
    s.drainInto bufferSize fuel = s.due.flatten := by
  obtain ⟨fuel, rfl⟩ := Nat.exists_eq_succ_of_ne_zero (Nat.ne_zero_of_lt enough)
  rw [drainInto]
  cases hdone : s.done with
  | true => rw [if_pos rfl, hs.due_of_done hdone, flatten_nil]
  | false =>
    obtain ⟨s', hread, hstanding, hnone, hposition, hbuffer⟩ := read_spec hs.standing
    have hput := hbuffer hs.running
    rw [if_neg Bool.false_ne_true, fill, hs.buffer, length_nil, if_neg (Nat.not_lt_zero _),
      hs.running, if_neg Bool.false_ne_true, hread]
    dsimp only
    by_cases hbytes : s.due.flatten = []
    · rw [hbytes]
      rfl
    · have hlength : (s.due.flatten.take bufferSize).length
          = min bufferSize s.due.flatten.length := List.length_take
      have hpos := length_pos_iff.mpr hbytes
      have hsome : s.due.flatten.take bufferSize ≠ [] := by
        rw [← length_pos_iff]
        omega
      have hgives : ¬ s.due.flatten.isEmpty = true := by rwa [List.isEmpty_iff]
      rw [if_neg hgives]
      have hnext : Standing
          { s' with outputBufPos := (s.due.flatten.take bufferSize).length } :=
        ⟨fun h => ⟨⟨(hstanding.running h).1.bounded, (hstanding.running h).1.counted,
          (hstanding.running h).1.room⟩, (hstanding.running h).2⟩, hstanding.finished⟩
      rw [if_neg (by rwa [List.isEmpty_iff]), drainInto_of_due_nil positive hnext hnone
        (by rw [hput]; omega)]
      rw [hput, take_append_drop_length]

/-- Nothing goes into a buffer without room. -/
theorem drainInto_zero (s : MultiLineStream) (fuel : Nat) : s.drainInto 0 fuel = [] := by
  have hfill : (s.fill 0).1 = [] := by
    rw [fill]
    split
    · rfl
    · split
      · rfl
      · dsimp only
        split
        · rfl
        · rfl
  cases fuel with
  | zero => rfl
  | succ fuel =>
    rw [drainInto]
    dsimp only
    rw [hfill]
    split
    · rfl
    · rfl

end MultiLineStream

end DFTracer.Reader.Splitting
