/-
# Filling a buffer from the line stream

A call that fills a buffer writes a line of the current span straight into it when the
line fits, and otherwise sets the line aside and writes it piece by piece. Either way
the bytes that come out are those of the lines owed, in order.
-/

import DFTracer.Reader.MultiLineSplitting

namespace DFTracer.Reader.Splitting

open Gzip List

namespace LineStream

variable {s : LineStream}


/-- The bytes still to be handed out: the rest of a pending line before the lines owed. -/
def owed (s : LineStream) : Bytes :=
  (if s.hasPendingLine then s.currentLine.drop s.outputPosition else []) ++ s.due.flatten

theorem owed_of_not_pending (h : s.hasPendingLine = false) : s.owed = s.due.flatten := by
  rw [owed, h]
  rfl

/-- A stream between two calls into a buffer. -/
structure Filling (s : LineStream) : Prop extends Standing s where
  pending : s.hasPendingLine = true → s.outputPosition < s.currentLine.length

/-- A call wrote these bytes, and none only if none were owed. -/
def Written (s : LineStream) (bytes : Bytes) (s' : LineStream) : Prop :=
  Filling s' ∧ s.owed = bytes ++ s'.owed ∧ (bytes = [] → s.owed = [])

variable {bufferSize : Nat}

theorem outputPendingLine_spec (positive : 0 < bufferSize) (hs : Filling s)
    (pending : s.hasPendingLine = true) :
    ∃ bytes s', s.outputPendingLine bufferSize = (bytes, s') ∧ Written s bytes s' := by
  have hleft := hs.pending pending
  have howed : s.owed = s.currentLine.drop s.outputPosition ++ s.due.flatten := by
    rw [owed, if_pos pending]
  have hcopied : ((s.currentLine.drop s.outputPosition).take bufferSize).length
      = min bufferSize (s.currentLine.length - s.outputPosition) := by
    rw [List.length_take, length_drop]
  have hsome : (s.currentLine.drop s.outputPosition).take bufferSize ≠ [] := by
    rw [← length_pos_iff]
    omega
  rw [outputPendingLine]
  dsimp only
  rw [if_neg (Nat.not_le.mpr hleft)]
  split
  · rename_i hwhole
    -- the line ends here
    have hall : (s.currentLine.drop s.outputPosition).take bufferSize
        = s.currentLine.drop s.outputPosition := by
      apply take_of_length_le
      rw [length_drop]
      omega
    refine ⟨_, _, rfl, ⟨⟨hs.opened, hs.finished⟩, by intro h; cases h⟩, ?_, fun h => absurd h hsome⟩
    rw [howed, hall]
    rfl
  · rename_i hpart
    refine ⟨_, _, rfl, ⟨⟨hs.opened, hs.finished⟩, fun _ => Nat.not_le.mp hpart⟩, ?_,
      fun h => absurd h hsome⟩
    have hrest : LineStream.owed { s with outputPosition := s.outputPosition
        + ((s.currentLine.drop s.outputPosition).take bufferSize).length }
        = s.currentLine.drop (s.outputPosition
          + ((s.currentLine.drop s.outputPosition).take bufferSize).length) ++ s.due.flatten := by
      rw [owed, if_pos pending]
      rfl
    rw [hrest, howed, ← drop_drop, ← append_assoc,
      take_append_drop_length]

variable {s' : LineStream} {needMoreData : Bool} {fuel : Nat}

/-- A line that was set aside goes out in the same call. -/
theorem Outcome.written {s : LineStream} (positive : 0 < bufferSize)
    (h : Outcome s .hasLine s') (none : s.hasPendingLine = false) :
    ∃ bytes s'', s'.outputPendingLine bufferSize = (bytes, s'') ∧ Written s bytes s'' := by
  obtain ⟨hdue, hscan, hpending, hposition⟩ := h
  have hline := length_pos_iff.mpr (due_ne_nil hdue)
  have hfilling : Filling s' := ⟨hscan.standing, fun _ => by omega⟩
  obtain ⟨bytes, s'', houtput, hfilling', howed, hnone⟩ :=
    outputPendingLine_spec positive hfilling hpending
  have hsame : s.owed = s'.owed := by
    rw [owed_of_not_pending none, hdue, owed, if_pos hpending, hposition, drop_zero,
      flatten_cons]
  exact ⟨bytes, s'', houtput, hfilling', hsame.trans howed, fun h => hsame.trans (hnone h)⟩

theorem Outcome.finished_written {s : LineStream} (h : Outcome s .finished s')
    (none : s.hasPendingLine = false) : Written s [] s' := by
  have hpending : s'.hasPendingLine = false := h.2.2.2.trans none
  have howed : s.owed = [] := by rw [owed_of_not_pending none, h.1, flatten_nil]
  have howed' : s'.owed = [] := by rw [owed_of_not_pending hpending, h.2.1, flatten_nil]
  refine ⟨⟨h.standing, fun hsome => ?_⟩, by rw [howed, howed', append_nil], fun _ => howed⟩
  exact absurd (hpending.symm.trans hsome) (by decide)

/-- What the direct path leaves: a line written, the end of the window, or no change. -/
def DirectOutcome (s : LineStream) (direct : DirectOutputResult) (s' : LineStream) : Prop :=
  (direct.bytesWritten ≠ [] ∧ s.due = direct.bytesWritten :: s'.due ∧ Scanning s' ∧
    s'.hasPendingLine = s.hasPendingLine) ∨
  (direct.bytesWritten = [] ∧ direct.finished = true ∧ Outcome s .finished s') ∨
  (direct.bytesWritten = [] ∧ direct.finished = false ∧ Outcome s .needMoreData s' ∧
    s'.underlyingStream = s.underlyingStream ∧
    (direct.needMoreData = true → s'.currentSpan = []))

theorem DirectOutcome.unchanged (hs : Scanning s) (h : needMoreData = true → s.currentSpan = []) :
    DirectOutcome s ⟨[], needMoreData, false⟩ s :=
  .inr (.inr ⟨rfl, rfl, ⟨rfl, hs, rfl⟩, rfl, h⟩)

theorem directLoop_spec (hs : Scanning s) (empty : s.lineAccumulator = []) :
    ∃ direct s', directLoop bufferSize fuel s = (direct, s') ∧ DirectOutcome s direct s' := by
  induction fuel generalizing s with
  | zero => exact ⟨_, _, rfl, .unchanged hs (by intro h; cases h)⟩
  | succ fuel ih =>
    rw [directLoop]
    by_cases hbeyond : s.isBeyondRange = true
    · rw [if_pos hbeyond]
      exact ⟨_, _, rfl, .inr (.inl ⟨rfl, rfl, outcome_of_isBeyondRange hbeyond⟩)⟩
    rw [if_neg hbeyond]
    by_cases hspan : s.currentSpan = []
    · rw [if_pos (List.isEmpty_iff.mpr hspan)]
      exact ⟨_, _, rfl, .unchanged hs fun _ => hspan⟩
    rw [if_neg (by rwa [List.isEmpty_iff])]
    by_cases hmem : newline ∈ s.currentSpan
    swap
    · rw [if_pos hmem]
      exact ⟨_, _, rfl, .unchanged hs (by intro h; cases h)⟩
    rw [if_neg (by simpa using hmem)]
    dsimp only
    split
    · exact ⟨_, _, rfl, .unchanged hs (by intro h; cases h)⟩
    · rw [shouldOutputCurrentLine_eq]
      have hdue := due_of_mem hmem
      rw [empty] at hdue
      have hpast : LineStream.due { s with
          currentLineNumber := s.currentLineNumber + 1
          currentSpan := afterFirstNewline s.currentSpan } = s.pastLine.due := by
        rw [due, due, pastLine, empty]
      have hscan : Scanning { s with
          currentLineNumber := s.currentLineNumber + 1
          currentSpan := afterFirstNewline s.currentSpan } := by
        refine ⟨hs.opened, fun h => ?_⟩
        rw [hs.finished h] at hdue
        exact hpast.trans (append_eq_nil_iff.mp hdue.symm).2
      by_cases hin : InWindow s.startLine s.endLine s.currentLineNumber
      · rw [if_pos hin] at hdue
        rw [if_pos (decide_eq_true hin)]
        refine ⟨_, _, rfl, .inl ⟨throughFirstNewline_ne_nil hspan, ?_, hscan, rfl⟩⟩
        rw [hdue, hpast]
        rfl
      · rw [if_neg hin] at hdue
        rw [if_neg (by simpa using hin)]
        obtain ⟨direct, s', hloop, hout⟩ := ih hscan empty
        refine ⟨direct, s', hloop, ?_⟩
        -- the line passed by was not owed
        have hstep : Outcome s .needMoreData { s with
            currentLineNumber := s.currentLineNumber + 1
            currentSpan := afterFirstNewline s.currentSpan } :=
          ⟨hdue.trans hpast.symm, hscan, rfl⟩
        rcases hout with ⟨hsome, hline, hrest⟩ | ⟨hnone, hend, hover⟩ | ⟨hnone, hend, hmore, hused⟩
        · exact .inl ⟨hsome, hstep.1.trans hline, hrest⟩
        · exact .inr (.inl ⟨hnone, hend, hstep.after hover⟩)
        · exact .inr (.inr ⟨hnone, hend, hstep.after hmore, hused⟩)

theorem tryDirectOutput_spec (hs : Scanning s) :
    ∃ direct s', s.tryDirectOutput bufferSize = (direct, s') ∧ DirectOutcome s direct s' := by
  rw [tryDirectOutput]
  by_cases hbegun : s.lineAccumulator = []
  · rw [hbegun]
    exact directLoop_spec hs hbegun
  · rw [isEmpty_eq_false_iff.mpr hbegun]
    exact ⟨_, _, rfl, .unchanged hs (by intro h; cases h)⟩

/-- The parse is left out when there is nothing to parse. -/
theorem parse_unless_spec (hs : Scanning s) (used : needMoreData = true → s.currentSpan = []) :
    ∃ r s', (if needMoreData then (.needMoreData, s) else s.tryParseNextLine) = (r, s') ∧
      Outcome s r s' ∧
      (r = .needMoreData → s'.currentSpan = [] ∧ s'.underlyingStream = s.underlyingStream) := by
  cases needMoreData with
  | true => exact ⟨_, _, rfl, ⟨rfl, hs, rfl⟩, fun _ => ⟨used rfl, rfl⟩⟩
  | false => exact tryParseNextLine_spec hs

theorem fillLoop_spec (positive : 0 < bufferSize) (hs : Scanning s)
    (none : s.hasPendingLine = false) (enough : s.underlyingStream.spans.length < fuel) :
    ∃ bytes s', s.fillLoop bufferSize fuel = (bytes, s') ∧ Written s bytes s' := by
  induction fuel generalizing s with
  | zero => exact absurd enough (Nat.not_lt_zero _)
  | succ fuel ih =>
    obtain ⟨direct, s₁, hdirect, hout⟩ := @tryDirectOutput_spec s bufferSize hs
    rw [fillLoop, hdirect]
    dsimp only
    rcases hout with ⟨hsome, hline, hscan, hpending⟩ | ⟨hnone, hend, hover⟩ |
      ⟨hnone, hend, hmore, hunder, hused⟩
    · rw [none] at hpending
      rw [isEmpty_eq_false_iff.mpr hsome]
      refine ⟨_, _, rfl, ⟨hscan.standing, fun h => absurd (hpending.symm.trans h) (by decide)⟩, ?_,
        fun h => absurd h hsome⟩
      rw [owed_of_not_pending none, owed_of_not_pending hpending, hline, flatten_cons]
    · rw [hnone, if_pos hend]
      exact ⟨_, _, rfl, hover.finished_written none⟩
    rw [hnone, hend]
    obtain ⟨r, s₂, hparse, hstep, hspent⟩ := parse_unless_spec hmore.2.1 hused
    have hall := hmore.after hstep
    rw [hparse]
    cases r with
    | hasLine => exact hall.written positive none
    | finished => exact ⟨_, _, rfl, hall.finished_written none⟩
    | needMoreData =>
      obtain ⟨hempty, hunder'⟩ := hspent rfl
      obtain ⟨r, s₃, hnext, hlast, hlength⟩ := nextSpan_spec hall.2.1 hempty
      have hround := hall.after hlast
      dsimp only
      rw [hnext]
      cases r with
      | hasLine => exact hround.written positive none
      | finished => exact ⟨_, _, rfl, hround.finished_written none⟩
      | needMoreData =>
        have hleft := hlength rfl
        rw [hunder', hunder] at hleft
        have hpending := hround.2.2.trans none
        obtain ⟨bytes, s₄, hloop, hfilling, howed, hzero⟩ :=
          ih hround.2.1 hpending (by omega)
        have hsame : s.owed = s₃.owed := by
          rw [owed_of_not_pending none, owed_of_not_pending hpending, hround.1]
        exact ⟨bytes, s₄, hloop, hfilling, hsame.trans howed, fun h => hsame.trans (hzero h)⟩

theorem fill_spec (positive : 0 < bufferSize) (hs : Filling s) :
    ∃ bytes s', s.fill bufferSize = (bytes, s') ∧ Written s bytes s' := by
  rw [fill]
  cases hpending : s.hasPendingLine with
  | true => exact outputPendingLine_spec positive hs hpending
  | false =>
    cases hfinished : s.isFinished with
    | true =>
      have howed : s.owed = [] := by
        rw [owed_of_not_pending hpending, hs.finished hfinished, flatten_nil]
      exact ⟨_, _, rfl, hs, rfl, fun _ => howed⟩
    | false =>
      exact fillLoop_spec positive ⟨hs.opened hfinished, hs.finished⟩ hpending
        (Nat.lt_succ_self _)

/-- Buffer by buffer a caller gets all the bytes owed. -/
theorem drainInto_spec (positive : 0 < bufferSize) (hs : Filling s)
    (enough : s.owed.length < fuel) : s.drainInto bufferSize fuel = s.owed := by
  induction fuel generalizing s with
  | zero => exact absurd enough (Nat.not_lt_zero _)
  | succ fuel ih =>
    rw [drainInto]
    cases hdone : s.done with
    | true =>
      rw [done, Bool.and_eq_true, Bool.not_eq_true'] at hdone
      rw [if_pos rfl, owed_of_not_pending hdone.2, hs.finished hdone.1, flatten_nil]
    | false =>
      obtain ⟨bytes, s', hfill, hfilling, howed, hnone⟩ := fill_spec positive hs
      rw [if_neg Bool.false_ne_true, hfill]
      dsimp only
      by_cases hbytes : bytes = []
      · rw [if_pos (List.isEmpty_iff.mpr hbytes), hnone hbytes]
      · have hsome := length_pos_iff.mpr hbytes
        rw [howed, length_append] at enough
        rw [if_neg (by rwa [List.isEmpty_iff]), ih hfilling (by omega), howed]

theorem outputPendingLine_zero (s : LineStream) : (s.outputPendingLine 0).1 = [] := by
  rw [outputPendingLine]
  dsimp only
  split
  · rfl
  · split
    · rfl
    · rfl

theorem directLoop_zero (fuel : Nat) (s : LineStream) :
    (directLoop 0 fuel s).1.bytesWritten = [] := by
  induction fuel generalizing s with
  | zero => rfl
  | succ fuel ih =>
    rw [directLoop]
    by_cases hspan : s.currentSpan = []
    · rw [hspan]
      split
      · rfl
      · rfl
    · have hlong := length_pos_iff.mpr (throughFirstNewline_ne_nil hspan)
      dsimp only
      split
      · rfl
      · rw [if_neg (by rwa [List.isEmpty_iff])]
        split
        · rfl
        · rfl

theorem fillLoop_zero (fuel : Nat) (s : LineStream) : (s.fillLoop 0 fuel).1 = [] := by
  induction fuel generalizing s with
  | zero => rfl
  | succ fuel ih =>
    have hdirect : (s.tryDirectOutput 0).1.bytesWritten = [] := by
      rw [tryDirectOutput]
      split
      · rfl
      · exact directLoop_zero _ _
    rw [fillLoop]
    dsimp only
    rw [hdirect, isEmpty_nil, Bool.not_true, if_neg Bool.false_ne_true]
    split
    · rfl
    · split
      · exact outputPendingLine_zero _
      · rfl
      · split
        · exact outputPendingLine_zero _
        · rfl
        · exact ih _

/-- Nothing goes into a buffer without room. -/
theorem drainInto_zero (fuel : Nat) (s : LineStream) : s.drainInto 0 fuel = [] := by
  have hfill : (s.fill 0).1 = [] := by
    rw [fill]
    split
    · exact outputPendingLine_zero s
    · split
      · rfl
      · exact fillLoop_zero _ s
  cases fuel with
  | zero => rfl
  | succ fuel =>
    rw [drainInto]
    dsimp only
    rw [hfill]
    split
    · rfl
    · rfl

end LineStream

/-! ## The two splitters agree

However the bytes are cut into spans, the multi-line stream gives the lines of the window
and the line stream gives them too, except that over a stream which is not done with its
last span it drops a last line without a newline. The line stream has a rule for such a
line, but gives up at the empty read before the rule is reached. -/

/-- A way to cut bytes into spans. -/
structure Cut (bytes : Bytes) where
  spans : List Bytes
  nonempty : ∀ span ∈ spans, span ≠ []
  whole : spans.flatten = bytes

/-- The lines of a window, its first line having this number. -/
structure Window where
  startLine : UInt64 := 0
  endLine : UInt64 := 0
  initialLine : UInt64 := 1

variable {bytes : Bytes}

def Cut.stream (cut : Cut bytes) (eager : Bool) : SpanStream :=
  { spans := cut.spans, nonempty := cut.nonempty, eager }

/-- The lines of the bytes that a window asks for. -/
def Window.linesOf (w : Window) (bytes : Bytes) : List Bytes :=
  windowed w.startLine.toNat w.endLine.toNat w.initialLine.toNat (lines bytes)

/-- Whether the window asks for a line after the last newline. -/
def Window.AsksLast (w : Window) (bytes : Bytes) : Prop :=
  InWindow w.startLine.toNat w.endLine.toNat (w.initialLine.toNat + countNewlines bytes)

def lineStream (cut : Cut bytes) (eager : Bool) (w : Window) : LineStream :=
  { underlyingStream := cut.stream eager
    currentLineNumber := w.initialLine.toNat
    startLine := w.startLine.toNat
    endLine := w.endLine.toNat }

def multiLineStream (cut : Cut bytes) (eager : Bool) (w : Window) : MultiLineStream :=
  { underlyingStream := cut.stream eager
    currentLine := w.initialLine.toNat
    startLine := w.startLine.toNat
    endLine := w.endLine.toNat }

/-- Both splitters give the lines of the window, each once and in order, read as spans
or into buffers of this size. A reader needs no more calls than there are bytes, and two. -/
structure Exact (cut : Cut bytes) (eager : Bool) (w : Window) (bufferSize : Nat) : Prop where
  lines : (lineStream cut eager w).drain (bytes.length + 2) = w.linesOf bytes
  lineBuffers : (lineStream cut eager w).drainInto bufferSize (bytes.length + 2)
    = (w.linesOf bytes).flatten
  spans : ((multiLineStream cut eager w).drain (bytes.length + 2)).flatten
    = (w.linesOf bytes).flatten
  spanBuffers : (multiLineStream cut eager w).drainInto bufferSize (bytes.length + 2)
    = (w.linesOf bytes).flatten

theorem length_flatten_windowed_le {startLine endLine n : Nat} (ls : List Bytes) :
    (windowed startLine endLine n ls).flatten.length ≤ ls.flatten.length := by
  induction ls generalizing n with
  | nil => exact Nat.le_refl _
  | cons line rest ih =>
    rw [windowed, flatten_cons, length_append]
    split
    · rw [flatten_cons, length_append]
      exact Nat.add_le_add_left ih _
    · exact Nat.le_trans ih (Nat.le_add_left _ _)

theorem length_le_length_flatten {ls : List Bytes} (h : ∀ line ∈ ls, line ≠ []) :
    ls.length ≤ ls.flatten.length := by
  induction ls with
  | nil => exact Nat.le_refl _
  | cons line rest ih =>
    have hline := length_pos_iff.mpr (h line mem_cons_self)
    have hrest := ih fun l hl => h l (mem_cons_of_mem line hl)
    rw [length_cons, flatten_cons, length_append]
    omega

theorem length_flatten_linesOver_le (eager : Bool) (bytes : Bytes) :
    (linesOver eager [] bytes).flatten.length ≤ bytes.length := by
  have hall : (linesFrom [] bytes).flatten = bytes := flatten_linesFrom [] bytes
  unfold linesOver
  split
  · rw [hall]
  · rw [linesFrom_eq_append, flatten_append] at hall
    rw [← congrArg List.length hall, length_append]
    exact Nat.le_add_right _ _

section

variable (cut : Cut bytes) (eager : Bool) (w : Window)

theorem lineStream_due : (lineStream cut eager w).due = windowed w.startLine.toNat
    w.endLine.toNat w.initialLine.toNat (linesOver eager [] bytes) := by
  have hbytes : (lineStream cut eager w).ahead = bytes := cut.whole
  rw [LineStream.due, hbytes]
  rfl

theorem lineStream_filling : LineStream.Filling (lineStream cut eager w) :=
  ⟨⟨fun _ => rfl, by intro h; cases h⟩, by intro h; cases h⟩

theorem lineStream_due_length :
    (lineStream cut eager w).due.flatten.length ≤ bytes.length := by
  rw [lineStream_due]
  exact Nat.le_trans (length_flatten_windowed_le _) (length_flatten_linesOver_le eager bytes)

theorem drain_lineStream :
    (lineStream cut eager w).drain (bytes.length + 2) = (lineStream cut eager w).due := by
  apply LineStream.drain_spec (lineStream_filling cut eager w).toStanding
  have hlines : (lineStream cut eager w).due.length ≤ (lineStream cut eager w).due.flatten.length :=
    length_le_length_flatten fun line hline => by
      exact ne_nil_of_mem_linesOver (windowed_subset _ _ hline)
  have hbytes := lineStream_due_length cut eager w
  omega

theorem drainInto_lineStream {bufferSize : Nat} (positive : 0 < bufferSize) :
    (lineStream cut eager w).drainInto bufferSize (bytes.length + 2)
      = (lineStream cut eager w).due.flatten := by
  have howed : (lineStream cut eager w).owed = (lineStream cut eager w).due.flatten :=
    LineStream.owed_of_not_pending rfl
  have hbytes := lineStream_due_length cut eager w
  rw [LineStream.drainInto_spec positive (lineStream_filling cut eager w) (by rw [howed]; omega),
    howed]

/-- The line stream owes the lines of the window over an eager stream, and otherwise
where no newline is missing that matters. -/
theorem lineStream_due_iff : (lineStream cut eager w).due = w.linesOf bytes ↔
    eager = true ∨ EndsLine bytes ∨ ¬ w.AsksLast bytes := by
  rw [lineStream_due, Window.linesOf]
  cases eager with
  | true =>
    exact iff_of_true rfl (.inl rfl)
  | false =>
    have hcomplete : linesOver false [] bytes = completeLines bytes := rfl
    rw [hcomplete, windowed_complete_iff]
    exact ⟨.inr, fun h => h.resolve_left (by decide)⟩

theorem multiLineStream_due : (multiLineStream cut eager w).due = w.linesOf bytes := by
  have hbytes : (multiLineStream cut eager w).ahead = bytes := cut.whole
  rw [MultiLineStream.due, hbytes]
  rfl

theorem multiLineStream_fresh
    (countable : w.initialLine.toNat + bytes.length < MultiLineStream.sizeMax) :
    MultiLineStream.Fresh (multiLineStream cut eager w) := by
  have hbytes : (multiLineStream cut eager w).ahead = bytes := cut.whole
  refine ⟨⟨w.endLine.toNat_lt, ?_, ?_⟩, rfl, rfl, rfl, rfl, rfl⟩
  · exact Nat.le_trans (Nat.le_of_eq (Nat.zero_add _)) (Nat.le_max_right _ _)
  · rw [hbytes]
    change 0 + bytes.length < _
    omega

end

/-- Both splitters give exactly the lines of the window, for every cut into spans, when
and only when the stream below is done with its last span or no last line without a
newline is asked for, and the buffer has room for what is asked for. The numbers of all
lines have to stay below `SIZE_MAX`. -/
theorem exact_iff (cut : Cut bytes) (eager : Bool) (w : Window) (bufferSize : Nat)
    (countable : w.initialLine.toNat + bytes.length < MultiLineStream.sizeMax) :
    Exact cut eager w bufferSize ↔
      (eager = true ∨ EndsLine bytes ∨ ¬ w.AsksLast bytes) ∧
      (0 < bufferSize ∨ w.linesOf bytes = []) := by
  have hfresh := multiLineStream_fresh cut eager w countable
  have hdue := multiLineStream_due cut eager w
  constructor
  · intro exact_
    have hlines := exact_.lines
    rw [drain_lineStream, lineStream_due_iff] at hlines
    refine ⟨hlines, ?_⟩
    by_contra hneither
    rw [not_or, Nat.not_lt, Nat.le_zero] at hneither
    have hbuffers := exact_.spanBuffers
    rw [hneither.1, MultiLineStream.drainInto_zero] at hbuffers
    apply hneither.2
    rw [← length_eq_zero_iff, ← Nat.le_zero]
    have hall : ∀ line ∈ w.linesOf bytes, line ≠ [] := fun line hline =>
      ne_nil_of_mem_linesFrom (windowed_subset _ _ hline)
    have hlength := length_le_length_flatten hall
    rwa [← hbuffers] at hlength
  · rintro ⟨hlast, hroom⟩
    have howed := (lineStream_due_iff cut eager w).mpr hlast
    have hspans : ((multiLineStream cut eager w).drain (bytes.length + 2)).flatten
        = (w.linesOf bytes).flatten := by
      rw [MultiLineStream.flatten_drain hfresh, hdue]
    have hlines : (lineStream cut eager w).drain (bytes.length + 2) = w.linesOf bytes := by
      rw [drain_lineStream, howed]
    have hbytes : (w.linesOf bytes).flatten.length ≤ bytes.length := by
      rw [← howed]
      exact lineStream_due_length cut eager w
    by_cases hzero : bufferSize = 0
    · have hnone := hroom.resolve_left (by omega)
      refine ⟨hlines, ?_, hspans, ?_⟩
      · rw [hzero, LineStream.drainInto_zero, hnone, flatten_nil]
      · rw [hzero, MultiLineStream.drainInto_zero, hnone, flatten_nil]
    · have positive := Nat.pos_of_ne_zero hzero
      refine ⟨hlines, ?_, hspans, ?_⟩
      · rw [drainInto_lineStream cut eager w positive, howed]
      · rw [MultiLineStream.drainInto_spec positive hfresh (by rw [hdue]; omega), hdue]

/-- `"a\nb"` in two spans. -/
def twoLines : Cut [97, 10, 98] := ⟨[[97], [10, 98]], by decide, rfl⟩

/-- Up to the line that has its newline the splitters agree. -/
theorem exact_twoLines : Exact twoLines false { endLine := 1 } 2 :=
  (exact_iff twoLines false { endLine := 1 } 2 (by decide)).mpr
    ⟨.inr (.inr (by unfold Window.AsksLast; decide)), .inl (by decide)⟩

/-- Over a stream that is done with the empty read only, the line stream drops `"b"` and
the multi-line stream does not. -/
theorem twoLines_dropped : ¬ Exact twoLines false {} 2 ∧
    (lineStream twoLines false {}).drain 5 = [[97, 10]] ∧
    (multiLineStream twoLines false {}).drain 5 = [[97, 10, 98]] := by
  refine ⟨fun exact_ => ?_, by decide +kernel, by decide +kernel⟩
  have hlines := exact_.lines
  revert hlines
  decide +kernel

end DFTracer.Reader.Splitting
