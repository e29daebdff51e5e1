/-
# Requests that arrive in parts

The scan for an empty line finds the one at the end of a request and no other. So a request is
incomplete as long as one of its bytes is missing, and is read the same whatever follows it.
-/

import DFTracer.Server.HttpGrammar

namespace DFTracer.Server

open List

/-- There is an empty line at the end, and none before. -/
structure Closed (c : Bytes) : Prop where
  before : ∀ p, p <+: c → p ≠ c → hasEmptyLine p = false
  ends : ∀ rest, hasEmptyLine (c ++ rest) = true

variable {w c p rest : Bytes} {b : UInt8} {buf : Bytes}

theorem hasEmptyLine_cons (other : b ≠ LF) : hasEmptyLine (b :: c) = hasEmptyLine c := by
  cases c with
  | nil => rfl
  | cons d c =>
    rw [hasEmptyLine, decide_eq_false other]
    rfl

theorem hasEmptyLine_append (w_chars : LF ∉ w) : hasEmptyLine (w ++ c) = hasEmptyLine c := by
  induction w with
  | nil => rfl
  | cons d w ih =>
    obtain ⟨other, w_chars⟩ := not_or.mp (mt mem_cons.mpr w_chars)
    rw [cons_append, hasEmptyLine_cons (Ne.symm other), ih w_chars]

theorem hasEmptyLine_line (lf : b ≠ LF) (cr : b ≠ CR) :
    hasEmptyLine (LF :: b :: c) = hasEmptyLine (b :: c) := by
  rw [hasEmptyLine, decide_eq_false lf, decide_eq_false cr]
  rfl

/-- A prefix ends within some bytes, or goes on behind them. -/
theorem prefix_append (h : p <+: w ++ c) : p <+: w ∨ ∃ q, p = w ++ q ∧ q <+: c := by
  rcases prefix_or_prefix_of_prefix h (List.prefix_append w c) with inside | ⟨q, rfl⟩
  · exact .inl inside
  · exact .inr ⟨q, rfl, (prefix_append_right_inj w).mp h⟩

/-- A closed text is closed behind bytes without a line break. -/
theorem Closed.append (h : Closed c) (w_chars : LF ∉ w) : Closed (w ++ c) where
  before := fun p part strict => by
    rcases prefix_append part with inside | ⟨q, rfl, behind⟩
    · have chars : LF ∉ p := fun mem => w_chars (inside.subset mem)
      have skipped := hasEmptyLine_append (c := []) chars
      rwa [append_nil] at skipped
    · rw [hasEmptyLine_append w_chars]
      exact h.before q behind fun same => strict (by rw [same])
  ends := fun rest => by
    rw [append_assoc, hasEmptyLine_append w_chars]
    exact h.ends rest

/-- A line break in front of a line that is not empty. -/
theorem Closed.line (h : Closed (b :: c)) (lf : b ≠ LF) (cr : b ≠ CR) :
    Closed (LF :: b :: c) where
  before := fun p part strict => by
    cases p with
    | nil => rfl
    | cons d p =>
      obtain ⟨rfl, behind⟩ := cons_prefix_cons.mp part
      cases p with
      | nil => rfl
      | cons e p =>
        have inside := h.before (e :: p) behind fun same => strict (by rw [same])
        obtain ⟨rfl, -⟩ := cons_prefix_cons.mp behind
        rwa [hasEmptyLine_line lf cr]
  ends := fun rest => (hasEmptyLine_line lf cr).trans (h.ends rest)

/-- An empty line. -/
theorem closed_last (last : Eol) : Closed (LF :: last.bytes) where
  before := fun p part strict => by
    have cut := prefix_iff_eq_take.mp part
    have short : p.length < (LF :: last.bytes).length :=
      Nat.lt_of_le_of_ne part.length_le fun same => strict (part.eq_of_length same)
    generalize p.length = k at cut short
    subst cut
    cases last with
    | crlf =>
      match k, short with
      | 0, _ => rfl
      | 1, _ => rfl
      | 2, _ => rfl
    | lf =>
      match k, short with
      | 0, _ => rfl
      | 1, _ => rfl
  ends := fun rest => by cases last <;> rfl

/-! ## Texts -/

/-- A line break ends with a line feed. -/
theorem Eol.bytes_eq_append (eol : Eol) : ∃ w : Bytes, LF ∉ w ∧ eol.bytes = w ++ [LF] := by
  cases eol with
  | crlf => exact ⟨[CR], by decide, rfl⟩
  | lf => exact ⟨[], nofun, rfl⟩

/-- A line in front of one that is not empty. -/
theorem Closed.behind_eol (h : Closed c) (eol : Eol)
    (starts : ∀ b ∈ c.head?, (b = CR || b = LF : Bool) = false) (some_c : c ≠ []) :
    Closed (eol.bytes ++ c) := by
  obtain ⟨w, w_chars, eol_eq⟩ := eol.bytes_eq_append
  obtain ⟨b, c, rfl⟩ := exists_cons_of_ne_nil some_c
  have goes := starts b rfl
  rw [Bool.or_eq_false_iff, decide_eq_false_iff_not, decide_eq_false_iff_not] at goes
  rw [eol_eq, append_assoc]
  exact (h.line goes.2 goes.1).append w_chars

theorem closed_eol_last (eol last : Eol) : Closed (eol.bytes ++ last.bytes) := by
  obtain ⟨w, w_chars, eol_eq⟩ := eol.bytes_eq_append
  rw [eol_eq, append_assoc]
  exact (closed_last last).append w_chars

theorem isTokenChar_ne_lf {b : UInt8} (char : isTokenChar b = true) : b ≠ LF := by
  rintro rfl
  exact absurd char (by decide)

theorem HeaderLine.closed (line : HeaderLine) (h : Closed (line.eol.bytes ++ c)) :
    Closed (line.bytes ++ c) := by
  have chars : LF ∉ line.name ++ COLON :: (line.blanks ++ line.value) := by
    rw [mem_append, mem_cons, mem_append]
    rintro (mem | colon | mem | mem)
    · exact isTokenChar_ne_lf (line.name_chars LF mem).2 rfl
    · exact absurd colon (by decide)
    · exact absurd (line.blank_chars LF mem) (by decide)
    · exact absurd (line.value_chars LF mem) (by decide)
  have text : line.bytes ++ c = (line.name ++ COLON :: (line.blanks ++ line.value)) ++
      (line.eol.bytes ++ c) := by
    simp only [HeaderLine.bytes, append_assoc, cons_append]
  rw [text]
  exact h.append chars

/-- Headers behind a line break, with the empty line. -/
theorem closed_headers (eol : Eol) (lines : List HeaderLine) (last : Eol) :
    Closed (eol.bytes ++ headersBytes lines last) := by
  induction lines generalizing eol with
  | nil => exact closed_eol_last eol last
  | cons line lines ih =>
    have text : headersBytes (line :: lines) last = line.bytes ++ headersBytes lines last := by
      unfold headersBytes
      rw [flatMap_cons, append_assoc]
    obtain ⟨b, w, line_eq, goes⟩ := line.bytes_eq_cons
    rw [text]
    refine (line.closed (ih line.eol)).behind_eol eol ?_ ?_
    · rw [line_eq]
      rintro d ⟨⟩
      exact goes
    · rw [line_eq]
      nofun

namespace RequestText

variable (t : RequestText)

theorem closed : Closed t.bytes := by
  obtain ⟨b, method, method_eq⟩ := exists_cons_of_ne_nil t.line.some_method
  have chars : LF ∉ t.line.method ++ SP :: (List.replicate t.line.spaces SP ++ (t.line.path ++
      SP :: (List.replicate t.line.morespaces SP ++ (versionBytes ++ [t.line.digit])))) := by
    simp only [mem_append, mem_cons, not_mem_nil, or_false]
    rintro (mem | space | mem | mem | space | mem | mem | digit)
    · exact isTokenChar_ne_lf (t.line.method_chars LF mem) rfl
    · exact absurd space (by decide)
    · exact absurd (eq_of_mem_replicate mem) (by decide)
    · exact absurd (t.line.path_chars LF mem) (by decide)
    · exact absurd space (by decide)
    · exact absurd (eq_of_mem_replicate mem) (by decide)
    · exact absurd mem (by decide)
    · exact absurd (digit ▸ t.line.digit_char) (by decide)
  have text : t.line.bytes ++ headersBytes t.headers t.last =
      (t.line.method ++ SP :: (List.replicate t.line.spaces SP ++ (t.line.path ++
        SP :: (List.replicate t.line.morespaces SP ++ (versionBytes ++ [t.line.digit]))))) ++
      (t.line.eol.bytes ++ headersBytes t.headers t.last) := by
    simp only [RequestLine.bytes, append_assoc, cons_append, nil_append]
  have line : Closed (t.line.bytes ++ headersBytes t.headers t.last) := by
    rw [text]
    exact (closed_headers t.line.eol t.headers t.last).append chars
  unfold bytes
  cases t.leading with
  | none => exact line
  | some eol =>
    refine line.behind_eol eol ?_ ?_
    · unfold RequestLine.bytes
      rw [method_eq]
      rintro d ⟨⟩
      exact isTokenChar_goes (t.line.method_chars b (method_eq ▸ mem_cons_self))
    · unfold RequestLine.bytes
      rw [method_eq]
      exact cons_ne_nil _ _

theorem four_le_length : 4 ≤ t.bytes.length := by
  have version : versionBytes.length = 7 := rfl
  simp only [bytes, RequestLine.bytes, length_append, length_cons]
  omega

theorem incomplete_of_prefix {t : RequestText} (part : p <+: t.bytes) (strict : p ≠ t.bytes) :
    parseRequest p = (-2, none) := by
  unfold parseRequest hasCompleteRequest
  rw [t.closed.before p part strict, Bool.and_false]
  rfl

theorem parseRequest_append (rest : Bytes) :
    parseRequest (t.bytes ++ rest) = (toInt t.bytes.length, some t.request) := by
  have long : 4 ≤ (t.bytes ++ rest).length := by
    rw [length_append]
    exact Nat.le_add_right_of_le t.four_le_length
  unfold parseRequest hasCompleteRequest
  rw [t.closed.ends, decide_eq_true long, parseLines_append]
  change (toInt ((t.bytes ++ rest).length - rest.length), _) = _
  rw [length_append, Nat.add_sub_cancel_right]

end RequestText

/-- A request that is read is a text of the grammar. -/
theorem exists_text {out : ParsedRequest} {n : Int} (h : parseRequest buf = (n, some out)) :
    ∃ (t : RequestText) (rest : Bytes), buf = t.bytes ++ rest ∧ out = t.request ∧
      n = toInt t.bytes.length := by
  unfold parseRequest at h
  split at h
  · next complete =>
      split at h
      · next request rest lines =>
          obtain ⟨rfl, request_eq⟩ := Prod.mk.inj h
          obtain rfl := Option.some.inj request_eq
          obtain ⟨t, request_eq, whole | ⟨whole, -⟩⟩ := parseLines_eq_some lines
          · refine ⟨t, rest, whole, request_eq, ?_⟩
            rw [whole, length_append, Nat.add_sub_cancel_right]
          · -- the scan would not have found the empty line that is missing
            have missing := t.closed.before buf (whole ▸ List.prefix_append buf [LF]) fun same => by
              rw [← whole] at same
              exact cons_ne_nil LF [] (self_eq_append_right.mp same)
            rw [hasCompleteRequest, missing, Bool.and_false] at complete
            cases complete
      · cases h
  · cases h

theorem toInt_of_lt {n : Nat} (lt : n < 2 ^ 31) : toInt n = n :=
  Int.bmod_eq_of_le (by omega) (by omega)

theorem toInt_le (n : Nat) : toInt n ≤ n := by
  have le : (n : Int) % (2 ^ 32 : Nat) ≤ n := Int.ofNat_le.mpr (Nat.mod_le n (2 ^ 32))
  unfold toInt
  rw [Int.bmod_def]
  split
  · exact le
  · omega

/-- What is not negative is the length of a text that was read. -/
theorem exists_text_of_nonneg (nonneg : 0 ≤ (parseRequest buf).1) :
    ∃ (t : RequestText) (rest : Bytes), buf = t.bytes ++ rest ∧
      parseRequest buf = (toInt t.bytes.length, some t.request) := by
  cases out : (parseRequest buf).2 with
  | none =>
    unfold parseRequest at nonneg out
    split at nonneg
    · next complete =>
        rw [if_pos complete] at out
        split at nonneg
        · next lines =>
            rw [lines] at out
            cases out
        · exact absurd nonneg (by decide)
    · exact absurd nonneg (by decide)
  | some request =>
    have result : parseRequest buf = ((parseRequest buf).1, some request) := by rw [← out]
    obtain ⟨t, rest, whole, rfl, length⟩ := exists_text result
    exact ⟨t, rest, whole, by rw [result, length]⟩

/-- A request is incomplete as long as some of it is missing, and is the same whatever comes
behind. What is read is a text of the grammar, in buffers that an `int` can count. -/
theorem parseRequest_incremental :
    (∀ r, (parseRequest r).1 = r.length →
      (∀ p, p <+: r → p ≠ r → (parseRequest p).1 = -2) ∧
        ∀ s, parseRequest (r ++ s) = parseRequest r) ∧
      ∀ buf, buf.length < 2 ^ 31 → 0 < (parseRequest buf).1 →
        ∃ t : RequestText, buf.take (parseRequest buf).1.toNat = t.bytes ∧
          (parseRequest buf).2 = some t.request := by
  constructor
  · intro r whole
    obtain ⟨t, rest, text, result⟩ := exists_text_of_nonneg (whole ▸ Int.natCast_nonneg _)
    obtain rfl : rest = [] := by
      have le := toInt_le t.bytes.length
      rw [result, text, length_append] at whole
      exact eq_nil_of_length_eq_zero (by omega)
    rw [append_nil] at text
    subst text
    refine ⟨fun p part strict => ?_, fun s => ?_⟩
    · rw [RequestText.incomplete_of_prefix part strict]
    · have alone := t.parseRequest_append []
      rw [append_nil] at alone
      rw [t.parseRequest_append, alone]
  · intro buf short positive
    obtain ⟨t, rest, text, result⟩ := exists_text_of_nonneg (Int.le_of_lt positive)
    have fits : t.bytes.length < 2 ^ 31 := by
      rw [text, length_append] at short
      omega
    rw [result, toInt_of_lt fits, text]
    exact ⟨t, take_left, rfl⟩

/-- `G /a HTTP/1.1`, a header with blanks around its value, and an empty line. -/
def sampleRequest : Bytes :=
  [0x47, 0x20, 0x2F, 0x61, 0x20, 0x48, 0x54, 0x54, 0x50, 0x2F, 0x31, 0x2E, 0x31, 0x0D, 0x0A,
    0x41, 0x3A, 0x20, 0x62, 0x20, 0x0D, 0x0A, 0x0A]

theorem parseRequest_sample :
    parseRequest sampleRequest = (23, some ⟨[0x47], [0x2F, 0x61], 1, [⟨[0x41], [0x62]⟩]⟩) ∧
      (parseRequest sampleRequest.dropLast).1 = -2 ∧
      (∀ s, parseRequest (sampleRequest ++ s) = parseRequest sampleRequest) ∧
      ∃ t : RequestText, sampleRequest.take (parseRequest sampleRequest).1.toNat = t.bytes := by
  have incremental := parseRequest_incremental.1 sampleRequest rfl
  obtain ⟨t, text, -⟩ := parseRequest_incremental.2 sampleRequest (by decide) (by decide)
  exact ⟨rfl, incremental.1 _ (List.dropLast_prefix _) (by decide), incremental.2, t, text⟩

end DFTracer.Server
