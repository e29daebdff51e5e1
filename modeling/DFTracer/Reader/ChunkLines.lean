/-
# The lines of a chunk

A line belongs to the chunk it starts in. The lines that start between two positions
are those between the first line starts from there on, so consecutive chunks hold
consecutive lines.
-/

import DFTracer.Reader.WorkItems

namespace DFTracer.Reader

open Gzip List

/-- Lines with the positions they start at. -/
def positioned (pos : Nat) : List Bytes → List (Nat × Bytes)
  | [] => []
  | line :: rest => (pos, line) :: positioned (pos + line.length) rest

/-- The lines that start in `[a, b)`. -/
def linesStartingIn (t : Bytes) (a b : Nat) : List Bytes :=
  ((positioned 0 (lines t)).filter fun line => a ≤ line.1 && line.1 < b).map Prod.snd

theorem positioned_append (pos : Nat) (front back : List Bytes) :
    positioned pos (front ++ back)
      = positioned pos front ++ positioned (pos + front.flatten.length) back := by
  induction front generalizing pos with
  | nil => rfl
  | cons line rest ih =>
    rw [cons_append, positioned, ih, flatten_cons, length_append, Nat.add_assoc]
    rfl

theorem map_snd_positioned (pos : Nat) (ls : List Bytes) : (positioned pos ls).map Prod.snd = ls := by
  induction ls generalizing pos with
  | nil => rfl
  | cons line rest ih => rw [positioned, map_cons, ih]

variable {bytes : Bytes} {p x : Nat} {l : Bytes}

/-- A line stands in its bytes, at the beginning or after a newline. -/
theorem positioned_lines {pos : Nat} {line : Nat × Bytes}
    (h : line ∈ positioned pos (lines bytes)) :
    pos ≤ line.1 ∧ line.1 < pos + bytes.length ∧
      (line.1 = pos ∨ bytes[line.1 - pos - 1]? = some newline) := by
  generalize hn : bytes.length = n
  induction n using Nat.strongRecOn generalizing bytes pos with
  | ind n ih =>
    by_cases hne : bytes = []
    · rw [hne] at h
      exact absurd h not_mem_nil
    have hpos := length_pos_iff.mpr (throughFirstNewline_ne_nil hne)
    have hsplit := throughFirstNewline_append bytes
    have hlen := congrArg List.length hsplit
    rw [length_append] at hlen
    rw [lines_of_ne_nil hne] at h
    rcases mem_cons.mp h with rfl | h
    · exact ⟨Nat.le_refl _, by omega, .inl rfl⟩
    · obtain ⟨hlow, hhigh, hline⟩ := ih _ (by omega) h rfl
      refine ⟨by omega, by omega, .inr ?_⟩
      by_cases heq : line.1 = pos + (throughFirstNewline bytes).length
      · have hmem : newline ∈ bytes := by
          by_contra hmem
          rw [throughFirstNewline_of_not_mem hmem] at hlen
          omega
        have hlast := throughFirstNewline_getLast? hmem
        rw [getLast?_eq_getElem?] at hlast
        rw [heq, Nat.add_sub_cancel_left, ← hsplit, getElem?_append_left (by rw [hsplit]; omega),
          hsplit]
        exact hlast
      · have hrest := hline.resolve_left heq
        have hindex : line.1 - pos - 1 = (throughFirstNewline bytes).length
            + (line.1 - (pos + (throughFirstNewline bytes).length) - 1) := by omega
        conv_lhs => rw [← hsplit]
        rw [hindex, getElem?_append_right (Nat.le_add_right _ _), Nat.add_sub_cancel_left]
        exact hrest

variable {t : Bytes} {a : Nat}

/-- No line starts between a position and the first line start from there on. -/
theorem lt_of_lt_lineFrom (line : lineStart t p = p) (before : p < lineFrom t a) : p < a := by
  by_contra hle
  unfold lineFrom at before
  by_cases ha : lineStart t a = a
  · rw [if_pos ha] at before
    exact hle before
  · rw [if_neg ha] at before
    have hne : p ≠ a := fun heq => ha (heq ▸ line)
    have hnewline := (lineStart_after_newline t p).resolve_left (by omega)
    rw [line] at hnewline
    -- the newline before it would end the line earlier
    apply newline_not_mem_dropLast (t.drop a)
    rw [dropLast_eq_take, mem_take_iff_getElem]
    have hget : (throughFirstNewline (t.drop a))[p - 1 - a]? = some newline := by
      have hsplit := throughFirstNewline_append (t.drop a)
      have hsame : (t.drop a)[p - 1 - a]? = some newline := by
        rw [getElem?_drop, Nat.add_sub_cancel' (by omega)]
        exact hnewline
      rw [← hsplit, getElem?_append_left (by omega)] at hsame
      exact hsame
    obtain ⟨hlt, heq⟩ := List.getElem?_eq_some_iff.mp hget
    exact ⟨p - 1 - a, by omega, heq⟩

/-- A line ends before the first line start from a position on. -/
theorem atLineEnd_lineFrom (hx : x ≤ t.length) :
    AtLineEnd (t.take (lineFrom t x)) (t.drop (lineFrom t x)) := by
  by_cases hmem : newline ∈ t.drop x
  · have hslice : newline ∈ slice t x t.length := by
      rw [slice, take_of_length_le (by rw [length_drop])]
      exact hmem
    exact atLineEnd_of_ends (ends_take_lineStart (lineStart_lineFrom hslice) (lineFrom_le hx))
  · by_cases hline : lineStart t x = x
    · rw [lineFrom, if_pos hline]
      exact atLineEnd_of_ends (ends_take_lineStart hline hx)
    · right
      left
      rw [lineFrom, if_neg hline, throughFirstNewline_of_not_mem hmem, length_drop,
        Nat.add_sub_cancel' hx, drop_length]

variable {b : Nat}

theorem lineFrom_mono (hab : a ≤ b) (hb : b ≤ t.length) : lineFrom t a ≤ lineFrom t b := by
  by_contra hlt
  have hb' := le_lineFrom t b
  rcases atLineEnd_lineFrom hb with hnil | hend | hlast
  · rw [take_eq_nil_iff] at hnil
    rcases hnil with hzero | hnil
    · have hline : lineStart t a = a := by
        have hle := lineStart_le t a
        omega
      rw [lineFrom, if_pos hline] at hlt
      omega
    · have ha := lineFrom_le (Nat.le_trans hab hb)
      rw [hnil, length_nil] at ha hb
      rw [hnil] at hlt
      omega
  · have hlength := congrArg List.length hend
    rw [length_drop, length_nil] at hlength
    have ha := lineFrom_le (Nat.le_trans hab hb)
    omega
  · have hstart := lineStart_of_ends (take_append_drop (lineFrom t b) t).symm (.inr hlast)
    rw [List.length_take, Nat.min_eq_left (lineFrom_le hb)] at hstart
    have hbefore := lt_of_lt_lineFrom hstart (Nat.lt_of_not_le hlt)
    omega

theorem slice_append_drop (hab : a ≤ b) : slice t a b ++ t.drop b = t.drop a := by
  rw [slice]
  conv_rhs => rw [← take_append_drop (b - a) (t.drop a)]
  rw [drop_drop, Nat.add_sub_cancel' hab]

theorem atLineEnd_slice_lineFrom (hab : a ≤ b) (hb : b ≤ t.length) :
    AtLineEnd (slice t (lineFrom t a) (lineFrom t b)) (t.drop (lineFrom t b)) := by
  have hmono := lineFrom_mono hab hb
  rcases atLineEnd_lineFrom hb with hnil | hend | hlast
  · left
    have hlength := congrArg List.length hnil
    have hto := lineFrom_le hb
    rw [List.length_take, length_nil] at hlength
    rw [show lineFrom t a = lineFrom t b by omega, slice_self]
  · exact .inr (.inl hend)
  · by_cases hsame : lineFrom t a = lineFrom t b
    · left
      rw [hsame, slice_self]
    · right
      right
      have hwhole : t.take (lineFrom t b)
          = t.take (lineFrom t a) ++ slice t (lineFrom t a) (lineFrom t b) := by
        rw [slice, ← take_add, Nat.add_sub_cancel' hmono]
      have hne : slice t (lineFrom t a) (lineFrom t b) ≠ [] := by
        rw [← length_pos_iff, length_slice (lineFrom_le hb)]
        omega
      rw [hwhole, getLast?_append_of_ne_nil _ hne] at hlast
      exact hlast

theorem lineStart_of_newline (h : p = 0 ∨ t[p - 1]? = some newline) : lineStart t p = p :=
  Nat.le_antisymm (lineStart_le t p) (le_lineStart (Nat.le_refl p) h)

/-- Inside the bytes the first line start from a position on is one. -/
theorem lineStart_lineFrom_of_lt (hx : x ≤ t.length)
    (inside : lineFrom t x < t.length) : lineStart t (lineFrom t x) = lineFrom t x := by
  rcases atLineEnd_lineFrom hx with hnil | hend | hlast
  · have hlength := congrArg List.length hnil
    rw [List.length_take, length_nil] at hlength
    exact lineStart_of_newline (.inl (by omega))
  · have hlength := congrArg List.length hend
    rw [length_drop, length_nil] at hlength
    omega
  · have hstart := lineStart_of_ends (take_append_drop (lineFrom t x) t).symm (.inr hlast)
    rw [List.length_take, Nat.min_eq_left (lineFrom_le hx)] at hstart
    exact hstart

/-- The lines that start in a range are the lines from one line start to another. -/
theorem linesStartingIn_eq (hab : a ≤ b) (hb : b ≤ t.length) :
    linesStartingIn t a b = lines (slice t (lineFrom t a) (lineFrom t b)) := by
  have hmono := lineFrom_mono hab hb
  have hto := lineFrom_le hb
  have hleft : (t.take (lineFrom t a)).length = lineFrom t a := by
    rw [List.length_take]
    omega
  have hmid : (slice t (lineFrom t a) (lineFrom t b)).length = lineFrom t b - lineFrom t a :=
    length_slice hto
  have hsplit : lines t = lines (t.take (lineFrom t a))
      ++ (lines (slice t (lineFrom t a) (lineFrom t b)) ++ lines (t.drop (lineFrom t b))) := by
    have hfirst := lines_append (atLineEnd_lineFrom (Nat.le_trans hab hb))
    rw [take_append_drop] at hfirst
    rw [hfirst, ← lines_append (atLineEnd_slice_lineFrom hab hb), slice_append_drop hmono]
  rw [linesStartingIn, hsplit, positioned_append, positioned_append, filter_append,
    filter_append, flatten_lines, flatten_lines, hleft, hmid, Nat.zero_add,
    Nat.add_sub_cancel' hmono]
  have hbefore : (positioned 0 (lines (t.take (lineFrom t a)))).filter
      (fun line => a ≤ line.1 && line.1 < b) = [] := by
    rw [filter_eq_nil_iff]
    intro line hline
    obtain ⟨-, hhigh, hstart⟩ := positioned_lines hline
    rw [hleft, Nat.zero_add] at hhigh
    have hline : lineStart t line.1 = line.1 := by
      apply lineStart_of_newline
      rw [getElem?_take] at hstart
      apply hstart.imp_right
      intro hnewline
      split at hnewline
      · exact hnewline
      · cases hnewline
    have hlt := lt_of_lt_lineFrom hline hhigh
    simp only [Bool.and_eq_true, decide_eq_true_eq]
    omega
  have hafter : (positioned (lineFrom t b) (lines (t.drop (lineFrom t b)))).filter
      (fun line => a ≤ line.1 && line.1 < b) = [] := by
    rw [filter_eq_nil_iff]
    intro line hline
    obtain ⟨hlow, -, -⟩ := positioned_lines hline
    have hle := le_lineFrom t b
    simp only [Bool.and_eq_true, decide_eq_true_eq]
    omega
  have hinside : (positioned (lineFrom t a) (lines (slice t (lineFrom t a) (lineFrom t b)))).filter
      (fun line => a ≤ line.1 && line.1 < b)
        = positioned (lineFrom t a) (lines (slice t (lineFrom t a) (lineFrom t b))) := by
    rw [filter_eq_self]
    intro line hline
    obtain ⟨hlow, hhigh, hstart⟩ := positioned_lines hline
    have hle := le_lineFrom t a
    rw [hmid, Nat.add_sub_cancel' hmono] at hhigh
    have hline : lineStart t line.1 = line.1 := by
      by_cases heq : line.1 = lineFrom t a
      · rw [heq]
        exact lineStart_lineFrom_of_lt (Nat.le_trans hab hb) (by omega)
      · have hnewline := hstart.resolve_left heq
        rw [getElem?_slice, show lineFrom t a + (line.1 - lineFrom t a - 1) = line.1 - 1 by omega,
          if_pos (by omega)] at hnewline
        exact lineStart_of_newline (.inr hnewline)
    have hlt := lt_of_lt_lineFrom hline hhigh
    simp only [Bool.and_eq_true, decide_eq_true_eq]
    omega
  rw [hbefore, hafter, hinside, nil_append, append_nil, map_snd_positioned]

/-- Ranges that meet hold the lines of both. -/
theorem linesStartingIn_append {d : Nat} (hab : a ≤ b) (hbd : b ≤ d) (hd : d ≤ t.length) :
    linesStartingIn t a b ++ linesStartingIn t b d = linesStartingIn t a d := by
  have hb := Nat.le_trans hbd hd
  have hcut : AtLineEnd (slice t (lineFrom t a) (lineFrom t b))
      (slice t (lineFrom t b) (lineFrom t d)) := by
    rcases atLineEnd_slice_lineFrom hab hb with hnil | hend | hlast
    · exact .inl hnil
    · right
      left
      rw [slice, hend, take_nil]
    · exact .inr (.inr hlast)
  rw [linesStartingIn_eq hab hb, linesStartingIn_eq hbd hd,
    linesStartingIn_eq (Nat.le_trans hab hbd) hd, ← lines_append hcut,
    slice_append (lineFrom_mono hab hb) (lineFrom_mono hbd hd)]

theorem linesStartingIn_self (t : Bytes) (ha : a ≤ t.length) : linesStartingIn t a a = [] := by
  rw [linesStartingIn_eq (Nat.le_refl a) ha, slice_self]
  rfl

/-- Lines that start in a range are lines. -/
theorem mem_linesStartingIn (h : l ∈ linesStartingIn t a b) : l ∈ lines t := by
  obtain ⟨line, hline, rfl⟩ := mem_map.mp h
  rw [← map_snd_positioned 0 (lines t)]
  exact mem_map_of_mem (mem_of_mem_filter hline)

/-- A line without a newline is the last one. -/
theorem line_without_newline (h : l ∈ lines bytes) (none : newline ∉ l) :
    ∃ before, bytes = before ++ l ∧ l ≠ [] ∧ (before = [] ∨ before.getLast? = some newline) := by
  generalize hn : bytes.length = n
  induction n using Nat.strongRecOn generalizing bytes with
  | ind n ih =>
    by_cases hne : bytes = []
    · rw [hne] at h
      exact absurd h not_mem_nil
    have hsplit := throughFirstNewline_append bytes
    have hpos := length_pos_iff.mpr (throughFirstNewline_ne_nil hne)
    rw [lines_of_ne_nil hne] at h
    rcases mem_cons.mp h with rfl | h
    · have hmem : newline ∉ bytes := fun hmem =>
        none (mem_of_getLast? (throughFirstNewline_getLast? hmem))
      refine ⟨[], ?_, throughFirstNewline_ne_nil hne, .inl rfl⟩
      rw [throughFirstNewline_of_not_mem hmem, nil_append]
    · have hmem : newline ∈ bytes := by
        by_contra hmem
        rw [throughFirstNewline_of_not_mem hmem] at hsplit
        rw [append_right_eq_self.mp hsplit] at h
        exact not_mem_nil h
      have hlen := congrArg List.length hsplit
      rw [length_append] at hlen
      obtain ⟨before, hafter, hsome, hends⟩ := ih _ (by omega) h rfl
      refine ⟨throughFirstNewline bytes ++ before, ?_, hsome, .inr ?_⟩
      · rw [append_assoc, ← hafter, hsplit]
      · rw [getLast?_append, throughFirstNewline_getLast? hmem]
        rcases hends with rfl | hends
        · rfl
        · rw [hends]
          rfl

end DFTracer.Reader
