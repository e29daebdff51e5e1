/-
# What a byte range delivers

A stream that reads on from position `q` of the content holds the bytes since `q` as its partial
line. One read takes the buffer's worth of bytes from `q` on and delivers them up to the last
newline. So a range delivers everything up to the last line start before its end, unless a line
does not fit the buffer: there its readers stop.
-/

import DFTracer.Reader.LineStarts

namespace DFTracer.Reader

open Gzip GzipLineByteStream

variable {f : IndexedFile} {x n : Nat}

theorem findLineStart_spec {anchor : Nat} {seek : ReaderInflater} (h : Cursor f seek anchor)
    (hanchor : anchor ≤ x) (hx : x < f.getMaxBytes) :
    (findLineStart anchor seek x).1
        = max (max anchor (x - lineSearchLookback)) (lineStart f.content x) ∧
      Cursor f (findLineStart anchor seek x).2 (findLineStart anchor seek x).1 := by
  have hline := lineStart_le f.content x
  unfold findLineStart
  by_cases hat : x ≤ anchor
  · obtain rfl : anchor = x := Nat.le_antisymm hanchor hat
    rw [if_pos hat]
    exact ⟨by omega, h⟩
  · rw [if_neg hat]
    have hcurrent : (if (if x ≥ lineSearchLookback then x - lineSearchLookback else anchor) > anchor
        then (if x ≥ lineSearchLookback then x - lineSearchLookback else anchor) else anchor)
        = max anchor (x - lineSearchLookback) := by
      split <;> split <;> omega
    simp only [hcurrent]
    generalize hcp : max anchor (x - lineSearchLookback) = cp
    have hlook : lineSearchLookback = 512 := rfl
    have hcpx : cp ≤ x := by omega
    have hread := ((h.skipBytes (cp - anchor)).read (searchBufferSize - 1)).1
    rw [Nat.add_sub_cancel' (by omega : anchor ≤ cp)] at hread
    have hlen : x - cp < (slice f.content cp (cp + (searchBufferSize - 1))).length := by
      have hsize : f.content.length = f.getMaxBytes := rfl
      have hbuffer : searchBufferSize = 2048 := rfl
      rw [slice, List.length_take, List.length_drop]
      omega
    have hback := backToLine_slice (t := f.content) (q := cp) (p := cp + (searchBufferSize - 1))
      (x - cp) (by
        have hbuffer : searchBufferSize = 2048 := rfl
        omega)
    rw [Nat.add_sub_cancel' hcpx] at hback
    simp only [hread, if_pos hlen, hback]
    refine ⟨trivial, ?_⟩
    by_cases hgt : max cp (lineStart f.content x) > anchor
    · rw [if_pos hgt]
      have hskip := h.skipBytes (max cp (lineStart f.content x) - anchor)
      rwa [Nat.add_sub_cancel' (Nat.le_of_lt hgt)] at hskip
    · rw [if_neg hgt, show max cp (lineStart f.content x) = anchor by omega]
      exact h

/-- A stream that has delivered everything before `q`. -/
structure Reading (f : IndexedFile) (s : GzipLineByteStream) (q : Nat) : Prop where
  cursor : Cursor f s.inflater s.currentPosition
  maxBytes : s.maxFileBytes = f.getMaxBytes
  within : s.currentPosition ≤ s.targetEndBytes
  inFile : s.targetEndBytes ≤ f.getMaxBytes
  running : s.isFinished = false
  noExtension : s.extendToLineBoundary = false
  start : q ≤ s.currentPosition
  begun : s.partialLineBuffer = slice f.content q s.currentPosition
  oneLine : ∀ i, q ≤ i → i < s.currentPosition → f.content[i]? ≠ some newline
  fits : s.currentPosition - q ≤ s.bufferSize
  buffer : 0 < s.bufferSize
  atEnd : s.currentPosition = f.getMaxBytes → q = s.currentPosition

/-- A stream inside the file is set up at the start of the line of its first byte, as far
as that can be seen. -/
theorem ensureInitialized_inside (f : IndexedFile) (bufferSize : Nat)
    (hx : x < f.getMaxBytes) (y : Nat) :
    ∃ inflater, Cursor f inflater (f.rangeStart x) ∧
      ∀ extend, ensureInitialized f bufferSize extend x y =
        { inflater, currentPosition := f.rangeStart x, targetEndBytes := y,
          maxFileBytes := f.getMaxBytes, isFinished := false, partialLineBuffer := [],
          extendToLineBoundary := extend,
          bufferSize := if bufferSize > 0 then bufferSize else defaultBufferSize } := by
  obtain ⟨k, hk, hle, -⟩ := f.findMember_spec hx
  have hanchor : f.anchor x = (contentBefore f.members k).length := by
    rw [IndexedFile.anchor, hk]
    rfl
  have hstart := findLineStart_spec (Cursor.seekToMember f k) hle hx
  rw [← hanchor] at hstart
  have hpos : (findLineStart (f.anchor x) (ReaderInflater.seekToMember f k) x).1
      = f.rangeStart x := hstart.1
  rw [hpos] at hstart
  refine ⟨_, hstart.2, fun extend => ?_⟩
  unfold ensureInitialized
  rw [if_neg (by simp [Nat.not_le.mpr hx]), hk, ← hpos, hanchor]
  rfl

/-- Such a stream has delivered everything before the range. -/
theorem reading_ensureInitialized (bufferSize : Nat) {y : Nat} (hx : x < f.getMaxBytes)
    (hxy : x ≤ y) (hy : y ≤ f.getMaxBytes) :
    Reading f (ensureInitialized f bufferSize false x y) (f.rangeStart x) := by
  obtain ⟨inflater, hcursor, hinit⟩ := ensureInitialized_inside f bufferSize hx y
  have hbefore := f.rangeStart_le hx
  rw [hinit]
  refine ⟨hcursor, rfl, Nat.le_trans hbefore hxy, hy, rfl, rfl, Nat.le_refl _, ?_, ?_, ?_, ?_, ?_⟩
  · exact (slice_self _ _).symm
  · intro i hi hlt
    exact absurd hlt (Nat.not_lt.mpr hi)
  · rw [Nat.sub_self]
    exact Nat.zero_le _
  · split
    · assumption
    · exact Nat.two_pow_pos 16
  · intro _
    rfl

/-- Up to where a buffer that ends at `n` is delivered. -/
def cutAt (f : IndexedFile) (q n : Nat) : Nat :=
  if n = f.getMaxBytes then n else max q (lineStart f.content n)

variable {q : Nat}

theorem le_cutAt (h : q ≤ n) : q ≤ cutAt f q n := by
  unfold cutAt
  split
  · exact h
  · exact Nat.le_max_left _ _

theorem cutAt_le (h : q ≤ n) : cutAt f q n ≤ n := by
  unfold cutAt
  split
  · exact Nat.le_refl n
  · exact Nat.max_le.mpr ⟨h, lineStart_le _ _⟩

variable {s : GzipLineByteStream}

theorem adjustToBoundary_spec (hpos : s.currentPosition = n)
    (hmax : s.maxFileBytes = f.getMaxBytes) (running : s.isFinished = false) (hq : q ≤ n)
    (hn : n ≤ f.getMaxBytes) :
    s.adjustToBoundary (slice f.content q n) = cutAt f q n - q := by
  have hlen : (slice f.content q n).length = n - q := length_slice hn
  have hback := backToLine_slice (t := f.content) (q := q) (p := n) (n - q) (by omega)
  rw [Nat.add_sub_cancel' hq] at hback
  have hline := lineStart_le f.content n
  unfold adjustToBoundary throughLastNewline cutAt
  rw [hlen, hpos, hmax, running]
  generalize backToLine (slice f.content q n) (n - q) = k at hback ⊢
  by_cases hend : n = f.getMaxBytes
  · rw [if_pos hend]
    simp only [hend, Nat.le_refl, decide_true, Bool.and_true]
    split
    · split
      · rfl
      · rename_i hzero
        simp only [decide_eq_true_eq] at hzero
        omega
    · rfl
  · have hlt : ¬ f.getMaxBytes ≤ n := by omega
    simp only [hlt, decide_false, Bool.and_false, Bool.or_false, Bool.false_eq_true, if_false]
    split <;> omega

/-- One read delivers what the buffer holds up to the cut. -/
theorem Reading.read (h : Reading f s q) (more : s.currentPosition < s.targetEndBytes) :
    ∃ s', s.read = .ok (slice f.content q (cutAt f q (min s.targetEndBytes (q + s.bufferSize))), s') ∧
      Reading f s' (cutAt f q (min s.targetEndBytes (q + s.bufferSize))) ∧
      s'.targetEndBytes = s.targetEndBytes ∧ s'.bufferSize = s.bufferSize ∧
      s'.currentPosition = min s.targetEndBytes (q + s.bufferSize) := by
  have hstart := h.start
  have hfits := h.fits
  have hinFile := h.inFile
  have hpartial : s.partialLineBuffer.length = s.currentPosition - q := by
    rw [h.begun, length_slice (Nat.le_of_lt (Nat.lt_of_lt_of_le more hinFile))]
  generalize hn : min s.targetEndBytes (q + s.bufferSize) = n
  generalize hcount : min (s.targetEndBytes - s.currentPosition)
    (s.bufferSize - s.partialLineBuffer.length) = count
  have hend : s.currentPosition + count = n := by omega
  have hnSize : n ≤ f.getMaxBytes := by omega
  have hqn : q ≤ n := by omega
  -- the decoder serves as much as was asked for
  have hread := h.cursor.read count
  rw [hend] at hread
  generalize hserved : (if count > 0 then s.inflater.read count else ([], s.inflater)) = served
  have hserve : served.1 = slice f.content s.currentPosition n ∧ Cursor f served.2 n := by
    rw [← hserved]
    by_cases hpos : count > 0
    · rw [if_pos hpos]
      exact hread
    · obtain rfl : s.currentPosition = n := by omega
      rw [if_neg hpos]
      exact ⟨(slice_self _ _).symm, h.cursor⟩
  have hlen : served.1.length = count := by
    rw [hserve.1, length_slice hnSize]
    omega
  have hbuffer : s.partialLineBuffer ++ served.1 = slice f.content q n := by
    rw [h.begun, hserve.1]
    exact slice_append hstart (by omega)
  have hcut := le_cutAt (f := f) hqn
  have hcut' := cutAt_le (f := f) hqn
  have hadjust := adjustToBoundary_spec (f := f)
    (s := { s with inflater := served.2, currentPosition := n, isFinished := false }) (n := n)
    rfl h.maxBytes rfl hqn hnSize
  refine ⟨{ s with
    inflater := served.2, currentPosition := n, isFinished := false
    partialLineBuffer := slice f.content (cutAt f q n) n }, ?_, ?_, rfl, rfl, rfl⟩
  · have hnotEmpty : (decide (count > 0) && served.1.isEmpty) = false := by
      rw [Bool.and_eq_false_iff, decide_eq_false_iff_not, List.isEmpty_eq_false_iff,
        ← List.length_pos_iff]
      omega
    unfold GzipLineByteStream.read readLineAlignedData
    rw [h.running, if_neg (by decide), if_neg (by omega), if_neg (by omega)]
    simp only [hcount, hserved, hnotEmpty, hlen, hend, hbuffer, Bool.false_eq_true, if_false]
    unfold applyRangeAndBoundaryLimits
    rw [if_neg (by dsimp only; omega)]
    simp only [hadjust]
    rw [take_slice hcut hcut', drop_slice hcut hcut' hnSize]
  · refine ⟨hserve.2, h.maxBytes, ?_, hinFile, rfl, h.noExtension, hcut', rfl, ?_, ?_, h.buffer, ?_⟩
    · dsimp only
      omega
    · intro i hi hlt
      unfold cutAt at hi
      split at hi
      · exact absurd hlt (Nat.not_lt.mpr hi)
      · exact not_newline_of_lineStart_le (Nat.le_trans (Nat.le_max_right _ _) hi) hlt
    · dsimp only
      omega
    · intro hsize
      exact if_pos hsize

/-! ## A whole range -/

/-- Where a range may stop that begins to read at `q`. -/
structure Stops (f : IndexedFile) (bufferSize y q e : Nat) : Prop where
  after : q ≤ e
  before : e ≤ cutAt f q y
  whole : e = cutAt f q y ∨
    (newline ∉ slice f.content e (e + bufferSize) ∧ e + bufferSize < y ∧
      (e = q ∨ lineStart f.content e = e))
  long : ∀ p, q ≤ p → newline ∉ slice f.content p (p + bufferSize) → p + bufferSize < y → e ≤ p

/-- What the readers of a stream get out of it: span after span up to an empty one. -/
inductive Delivers : GzipLineByteStream → Bytes → Prop
  | last {s s' : GzipLineByteStream} (running : s.isFinished = false)
      (read : s.read = .ok ([], s')) : Delivers s []
  | more {s s' : GzipLineByteStream} {chunk rest : Bytes} (running : s.isFinished = false)
      (read : s.read = .ok (chunk, s')) (some : chunk ≠ [])
      (sameFile : s'.maxFileBytes = s.maxFileBytes) (next : Delivers s' rest) :
      Delivers s (chunk ++ rest)

/-- More reads than bytes are enough. -/
theorem Delivers.drain {out : Bytes} (h : Delivers s out) {fuel : Nat}
    (enough : out.length < fuel) : s.drain fuel = .ok out := by
  induction h generalizing fuel with
  | last running read =>
    obtain ⟨fuel, rfl⟩ := Nat.exists_eq_succ_of_ne_zero (Nat.ne_of_gt enough)
    rw [GzipLineByteStream.drain, running, read]
    rfl
  | @more s s' chunk rest running read some _ _ ih =>
    obtain ⟨fuel, rfl⟩ := Nat.exists_eq_succ_of_ne_zero (Nat.ne_zero_of_lt enough)
    have hsome := List.length_pos_iff.mpr some
    rw [List.length_append] at enough
    have hrest := ih (by omega : rest.length < fuel)
    have hchunk : chunk.isEmpty = false := List.isEmpty_eq_false_iff.mpr some
    rw [GzipLineByteStream.drain, running, read]
    simp only [hchunk, Bool.false_eq_true, if_false, hrest]

/-- A range delivers the content from where it begins to where it stops. -/
theorem Reading.delivers (h : Reading f s q) :
    ∃ e, Delivers s (slice f.content q e) ∧ Stops f s.bufferSize s.targetEndBytes q e := by
  generalize hleft : s.targetEndBytes - q = left
  induction left using Nat.strongRecOn generalizing s q with
  | ind left ih =>
    have hstart := h.start
    have hwithin := h.within
    have hinFile := h.inFile
    by_cases more : s.currentPosition < s.targetEndBytes
    · obtain ⟨s', hread, hs', htarget, hsize, hpos⟩ := h.read more
      generalize hn : min s.targetEndBytes (q + s.bufferSize) = n at hread hs' hpos
      have hqn : q ≤ n := by omega
      have hcut := le_cutAt (f := f) hqn
      have hcut' := cutAt_le (f := f) hqn
      have hlen : (slice f.content q (cutAt f q n)).length = cutAt f q n - q :=
        length_slice (Nat.le_trans hcut' (by omega : n ≤ f.getMaxBytes))
      by_cases hempty : cutAt f q n = q
      · -- no line ends in the buffer
        rw [hempty, slice_self] at hread
        refine ⟨q, ?_, ⟨Nat.le_refl q, le_cutAt (by omega), ?_, fun p hp _ _ => hp⟩⟩
        · rw [slice_self]
          exact .last h.running hread
        · have hnot : n ≠ f.getMaxBytes := by
            intro hsame
            rw [cutAt, if_pos hsame] at hempty
            omega
          by_cases hreached : n = s.targetEndBytes
          · rw [← hreached]
            exact .inl hempty.symm
          · refine .inr ⟨?_, by omega, .inl rfl⟩
            rw [newline_mem_slice]
            rintro ⟨i, hqi, hin, hi⟩
            rw [cutAt, if_neg hnot] at hempty
            refine not_newline_of_lineStart_le (t := f.content) (x := n) ?_ (by omega) hi
            omega
      · obtain ⟨e, hrest, hstops⟩ := ih (s'.targetEndBytes - cutAt f q n)
          (by omega) hs' rfl
        rw [hsize, htarget] at hstops
        have hchunk : slice f.content q (cutAt f q n) ≠ [] := by
          rw [← List.length_pos_iff]
          omega
        have hafter := hstops.after
        have hsame : cutAt f (cutAt f q n) s.targetEndBytes = cutAt f q s.targetEndBytes := by
          unfold cutAt at hempty ⊢
          by_cases hend : n = f.getMaxBytes
          · rw [if_pos (by omega), if_pos (by omega)]
          · have hmono := lineStart_mono (t := f.content) (x := n) (y := s.targetEndBytes) (by omega)
            split
            · rfl
            · omega
        refine ⟨e, ?_, ⟨by omega, hsame ▸ hstops.before, ?_, ?_⟩⟩
        · rw [← slice_append hcut hafter]
          exact .more h.running hread hchunk (hs'.maxBytes.trans h.maxBytes.symm) hrest
        · rcases hstops.whole with hwhole | ⟨hline, hlt, hfrom⟩
          · exact .inl (hwhole.trans hsame)
          · refine .inr ⟨hline, hlt, .inr ?_⟩
            rcases hfrom with heq | hfrom
            · rw [heq] at hlt ⊢
              unfold cutAt at hempty hlt ⊢
              by_cases hend : n = f.getMaxBytes
              · rw [if_pos hend] at hlt
                omega
              · rw [if_neg hend] at hempty ⊢
                rw [show max q (lineStart f.content n) = lineStart f.content n by omega]
                exact lineStart_lineStart _ _
            · exact hfrom
        · intro p hp hline hlt
          apply hstops.long p _ hline hlt
          have hnot : n ≠ f.getMaxBytes := by omega
          unfold cutAt at hempty ⊢
          rw [if_neg hnot] at hempty ⊢
          by_contra hgt
          rcases lineStart_after_newline f.content n with hz | hnl
          · omega
          · apply hline
            rw [newline_mem_slice]
            have hle := lineStart_le f.content n
            exact ⟨_, by omega, by omega, hnl⟩
    · -- the end of the range
      have hdone : s.read = .ok ([], { s with isFinished := true }) := by
        unfold GzipLineByteStream.read readLineAlignedData readPastEnd
        rw [h.running, if_neg (by decide), if_pos (by omega), h.noExtension]
        rfl
      refine ⟨q, ?_, ⟨Nat.le_refl q, le_cutAt (by omega), .inl ?_, fun p hp _ _ => hp⟩⟩
      · rw [slice_self]
        exact .last h.running hdone
      · have hat : s.currentPosition = s.targetEndBytes := by omega
        unfold cutAt
        split
        · rename_i hend
          rw [h.atEnd (hat.trans hend), hat]
        · have hline := lineStart_le_of_no_newline h.oneLine
          rw [hat] at hline
          omega

end DFTracer.Reader
