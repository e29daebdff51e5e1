/-
# Where lines start

Positions of the content are compared by the line they stand in. A slice of the
content is what a range delivers; slices that meet are joined.
-/

import DFTracer.Reader.LineByteStream

namespace DFTracer.Reader

open Gzip GzipLineByteStream List

/-- The bytes of a half-open range of positions. -/
def slice (t : Bytes) (a b : Nat) : Bytes := (t.drop a).take (b - a)

section

variable {t : Bytes} {a b d : Nat}

theorem length_slice (hb : b ≤ t.length) : (slice t a b).length = b - a := by
  rw [slice, List.length_take, length_drop]
  omega

theorem slice_self (t : Bytes) (a : Nat) : slice t a a = [] := by
  rw [slice, Nat.sub_self, take_zero]

theorem slice_append (hab : a ≤ b) (hbd : b ≤ d) : slice t a b ++ slice t b d = slice t a d := by
  have hb : t.drop b = (t.drop a).drop (b - a) := by
    rw [drop_drop, Nat.add_sub_cancel' hab]
  have hd : d - a = (b - a) + (d - b) := by omega
  rw [slice, slice, slice, hb, hd, take_add]

theorem slice_full (t : Bytes) : slice t 0 t.length = t := by
  rw [slice, drop_zero, Nat.sub_zero, take_length]

/-- The first bytes of a slice. -/
theorem take_slice (hab : a ≤ b) (hbd : b ≤ d) : (slice t a d).take (b - a) = slice t a b := by
  rw [slice, slice, take_take, Nat.min_eq_left (by omega)]

theorem drop_slice (hab : a ≤ b) (hbd : b ≤ d) (hd : d ≤ t.length) :
    (slice t a d).drop (b - a) = slice t b d := by
  rw [← slice_append hab hbd, drop_left' (length_slice (Nat.le_trans hbd hd))]

theorem getElem?_slice (i : Nat) :
    (slice t a b)[i]? = if a + i < b then t[a + i]? else none := by
  rw [slice, getElem?_take]
  by_cases h : a + i < b
  · rw [if_pos h, if_pos (by omega), getElem?_drop]
  · rw [if_neg h, if_neg (by omega)]

/-- A newline stands somewhere between two positions. -/
theorem newline_mem_slice : newline ∈ slice t a b ↔ ∃ i, a ≤ i ∧ i < b ∧ t[i]? = some newline := by
  rw [mem_iff_getElem?]
  constructor
  · rintro ⟨i, hi⟩
    rw [getElem?_slice] at hi
    by_cases hlt : a + i < b
    · rw [if_pos hlt] at hi
      exact ⟨a + i, Nat.le_add_right a i, hlt, hi⟩
    · rw [if_neg hlt] at hi
      cases hi
  · rintro ⟨i, hai, hib, hi⟩
    refine ⟨i - a, ?_⟩
    rw [getElem?_slice, Nat.add_sub_cancel' hai, if_pos hib]
    exact hi

end

/-- Where the line of a position starts. -/
def lineStart (t : Bytes) (x : Nat) : Nat := backToLine t x

section

variable {t : Bytes} {x y p q : Nat}

theorem lineStart_le (t : Bytes) (x : Nat) : lineStart t x ≤ x := by
  unfold lineStart
  induction x with
  | zero => exact Nat.le_refl 0
  | succ x ih =>
    rw [backToLine]
    split
    · exact Nat.le_refl _
    · exact Nat.le_succ_of_le ih

/-- A line starts at the beginning or after a newline. -/
theorem lineStart_after_newline (t : Bytes) (x : Nat) :
    lineStart t x = 0 ∨ t[lineStart t x - 1]? = some newline := by
  unfold lineStart
  induction x with
  | zero => exact .inl rfl
  | succ x ih =>
    rw [backToLine]
    split
    · rename_i h
      exact .inr h
    · exact ih

/-- From the start of its line to a position there is no newline. -/
theorem not_newline_of_lineStart_le (h : lineStart t x ≤ y) (hy : y < x) :
    t[y]? ≠ some newline := by
  unfold lineStart at h
  induction x with
  | zero => exact absurd hy (Nat.not_lt_zero y)
  | succ x ih =>
    rw [backToLine] at h
    split at h
    · exact absurd hy (by omega)
    · rename_i hx
      by_cases hyx : y = x
      · rw [hyx]
        exact hx
      · exact ih h (by omega)

/-- A position after which no newline comes before `x` is no earlier than the line. -/
theorem le_lineStart (hpx : p ≤ x) (hp : p = 0 ∨ t[p - 1]? = some newline) : p ≤ lineStart t x := by
  rcases hp with rfl | hp
  · exact Nat.zero_le _
  · by_contra hlt
    exact not_newline_of_lineStart_le (t := t) (x := x) (y := p - 1) (by omega) (by omega) hp

theorem lineStart_le_of_no_newline (h : ∀ y, p ≤ y → y < x → t[y]? ≠ some newline) :
    lineStart t x ≤ p := by
  rcases lineStart_after_newline t x with hz | hn
  · rw [hz]
    exact Nat.zero_le p
  · by_contra hlt
    have hle := lineStart_le t x
    exact h _ (by omega) (by omega) hn

theorem lineStart_mono (hxy : x ≤ y) : lineStart t x ≤ lineStart t y :=
  le_lineStart (Nat.le_trans (lineStart_le t x) hxy) (lineStart_after_newline t x)

theorem lineStart_lineStart (t : Bytes) (x : Nat) : lineStart t (lineStart t x) = lineStart t x :=
  Nat.le_antisymm (lineStart_le _ _) (le_lineStart (Nat.le_refl _) (lineStart_after_newline t x))

/-- Two positions with no newline between them are in one line. -/
theorem lineStart_eq_of_no_newline (hxy : x ≤ y) (h : ∀ i, x ≤ i → i < y → t[i]? ≠ some newline) :
    lineStart t y = lineStart t x := by
  apply Nat.le_antisymm _ (lineStart_mono hxy)
  apply lineStart_le_of_no_newline
  intro i hi hiy
  by_cases hix : i < x
  · exact not_newline_of_lineStart_le hi hix
  · exact h i (by omega) hiy

/-- Looking back inside a slice finds the start of the line, or the slice's own. -/
theorem backToLine_slice (i : Nat) (hi : q + i ≤ p) :
    q + backToLine (slice t q p) i = max q (lineStart t (q + i)) := by
  unfold lineStart
  induction i with
  | zero =>
    have h := lineStart_le t q
    unfold lineStart at h
    rw [backToLine, Nat.add_zero, Nat.max_eq_left h]
  | succ i ih =>
    have hget : (slice t q p)[i]? = t[q + i]? := by
      rw [getElem?_slice, if_pos (by omega)]
    rw [backToLine, hget, ← Nat.add_assoc, backToLine]
    split
    · omega
    · exact ih (by omega)

end

namespace ReaderInflater

/-- Everything the decoder would still serve. -/
def rest (s : ReaderInflater) : Bytes := s.window ++ s.later.flatten

theorem serve_eq (window : Bytes) (len : Nat) (later : List Bytes) (hlater : ∀ m ∈ later, m ≠ []) :
    (serve window len later).1 = (window ++ later.flatten).take len ∧
      (serve window len later).2.rest = (window ++ later.flatten).drop len ∧
      ∀ m ∈ (serve window len later).2.later, m ≠ [] := by
  induction later generalizing window len with
  | nil =>
    rw [serve, flatten_nil, append_nil, rest, flatten_nil, append_nil]
    exact ⟨rfl, rfl, hlater⟩
  | cons m later ih =>
    have hm : m ≠ [] := hlater m mem_cons_self
    rw [serve]
    by_cases hlen : len ≤ window.length
    · rw [if_pos hlen, take_append_of_le_length hlen, drop_append_of_le_length hlen]
      exact ⟨rfl, rfl, hlater⟩
    · have hrest := ih m (len - window.length) fun k hk => hlater k (mem_cons_of_mem _ hk)
      rw [if_neg hlen, if_neg (by simpa using hm), take_append, drop_append,
        take_of_length_le (by omega), drop_of_length_le (by omega)]
      exact ⟨congrArg (window ++ ·) hrest.1, hrest.2⟩

end ReaderInflater

/-- The content begins with what stands before a member. -/
theorem IndexedFile.content_eq_contentBefore (f : IndexedFile) (k : Nat) :
    f.content = contentBefore f.members k ++ (f.members.drop k).flatMap Member.content := by
  rw [contentBefore, ← flatMap_append, take_append_drop]
  rfl

/-- The decoder stands at a position of the content. -/
structure Cursor (f : IndexedFile) (s : ReaderInflater) (pos : Nat) : Prop where
  rest : s.rest = f.content.drop pos
  nonempty : ∀ m ∈ s.later, m ≠ []

namespace Cursor

variable {f : IndexedFile} {s : ReaderInflater} {pos : Nat}

/-- Reading serves the next bytes of the content. -/
theorem read (h : Cursor f s pos) (len : Nat) :
    (s.read len).1 = slice f.content pos (pos + len) ∧ Cursor f (s.read len).2 (pos + len) := by
  obtain ⟨hout, hrest, hne⟩ := ReaderInflater.serve_eq s.window len s.later h.nonempty
  have hall : s.window ++ s.later.flatten = f.content.drop pos := h.rest
  rw [hall] at hout hrest
  refine ⟨?_, ⟨?_, hne⟩⟩
  · rw [ReaderInflater.read, hout, slice, Nat.add_sub_cancel_left]
  · rw [ReaderInflater.read, hrest, drop_drop]

theorem skipBytes (h : Cursor f s pos) (n : Nat) : Cursor f (s.skipBytes n) (pos + n) :=
  (h.read n).2

theorem seekToMember (f : IndexedFile) (k : Nat) :
    Cursor f (ReaderInflater.seekToMember f k) (contentBefore f.members k).length where
  rest := by
    rw [f.content_eq_contentBefore k, drop_left]
    rfl
  nonempty := by
    intro m hm
    obtain ⟨member, hmember, rfl⟩ := mem_map.mp hm
    exact f.nonempty member (mem_of_mem_drop hmember)

end Cursor

namespace IndexedFile

variable (f : IndexedFile) {x y : Nat}

/-- Where the member that holds a position starts. -/
def anchor (x : Nat) : Nat := (f.findMember x).elim 0 GzipMemberRecord.ucOffset

theorem recordOf_end (k : Nat) : (recordOf f.members 0 k).ucOffset + (recordOf f.members 0 k).ucSize
    = (contentBefore f.members (k + 1)).length := by
  have hle : (contentBefore f.members k).length ≤ (contentBefore f.members (k + 1)).length := by
    rw [contentBefore, contentBefore, take_add, flatMap_append, length_append]
    exact Nat.le_add_right _ _
  exact Nat.add_sub_cancel' hle

/-- The member found for a position of the content holds it. -/
theorem findMember_spec (hx : x < f.getMaxBytes) :
    ∃ k, f.findMember x = some (recordOf f.members 0 k) ∧
      (contentBefore f.members k).length ≤ x ∧ x < (contentBefore f.members (k + 1)).length := by
  have hlast : ∃ n, n < f.members.length ∧ x < (contentBefore f.members (n + 1)).length := by
    have hlen : 0 < f.members.length := by
      by_contra h
      have hnil : f.members = [] := length_eq_zero_iff.mp (by omega)
      rw [getMaxBytes, content, hnil] at hx
      exact absurd hx (Nat.not_lt_zero x)
    refine ⟨f.members.length - 1, by omega, ?_⟩
    rw [Nat.sub_add_cancel hlen, contentBefore, take_length]
    exact hx
  classical
  have hn := Nat.find_spec hlast
  have hmin := fun m hm => Nat.find_min hlast (m := m) hm
  generalize Nat.find hlast = n at hn hmin
  refine ⟨n, ?_, ?_, hn.2⟩
  · rw [findMember, cachedMembers, find?_map, Option.map_eq_some_iff]
    refine ⟨n, ?_, rfl⟩
    rw [find?_range_eq_some]
    refine ⟨?_, mem_range.mpr hn.1, ?_⟩
    · simp only [Function.comp_apply, recordOf_end, decide_eq_true_eq]
      exact hn.2
    · intro j hj
      simp only [Function.comp_apply, recordOf_end, Bool.not_eq_true', decide_eq_false_iff_not]
      exact fun h => hmin j hj ⟨Nat.lt_trans hj hn.1, h⟩
  · cases n with
    | zero => exact Nat.zero_le x
    | succ n => exact Nat.not_lt.mp fun h => hmin n (Nat.lt_succ_self n) ⟨by omega, h⟩

theorem anchor_le (hx : x < f.getMaxBytes) : f.anchor x ≤ x := by
  obtain ⟨k, hk, hle, -⟩ := f.findMember_spec hx
  rw [anchor, hk]
  exact hle

theorem length_contentBefore_mono {j k : Nat} (h : j ≤ k) :
    (contentBefore f.members j).length ≤ (contentBefore f.members k).length := by
  obtain ⟨n, rfl⟩ := Nat.exists_eq_add_of_le h
  rw [contentBefore, contentBefore, take_add, flatMap_append, length_append]
  exact Nat.le_add_right _ _

theorem anchor_mono (hxy : x ≤ y) (hy : y < f.getMaxBytes) : f.anchor x ≤ f.anchor y := by
  obtain ⟨j, hj, hlow, -⟩ := f.findMember_spec (Nat.lt_of_le_of_lt hxy hy)
  obtain ⟨k, hk, -, hhigh⟩ := f.findMember_spec hy
  rw [anchor, anchor, hj, hk]
  have hjk : j ≤ k := by
    by_contra h
    have := f.length_contentBefore_mono (j := k + 1) (k := j) (by omega)
    omega
  exact f.length_contentBefore_mono hjk

/-- Where a range that starts at `x` begins to read: at the start of its line, as far as
the look-back and the member go. -/
def rangeStart (x : Nat) : Nat :=
  max (max (f.anchor x) (x - lineSearchLookback)) (lineStart f.content x)

theorem lineStart_le_rangeStart (x : Nat) : lineStart f.content x ≤ f.rangeStart x :=
  Nat.le_max_right _ _

theorem rangeStart_le (hx : x < f.getMaxBytes) : f.rangeStart x ≤ x := by
  have ha := f.anchor_le hx
  have hl := lineStart_le f.content x
  rw [rangeStart]
  omega

theorem rangeStart_mono (hxy : x ≤ y) (hy : y < f.getMaxBytes) :
    f.rangeStart x ≤ f.rangeStart y := by
  have ha := f.anchor_mono hxy hy
  have hl := lineStart_mono (t := f.content) hxy
  rw [rangeStart, rangeStart]
  omega

theorem rangeStart_zero (h : 0 < f.getMaxBytes) : f.rangeStart 0 = 0 :=
  Nat.le_zero.mp (f.rangeStart_le h)

end IndexedFile

end DFTracer.Reader
