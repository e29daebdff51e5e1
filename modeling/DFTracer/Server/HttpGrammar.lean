/-
# The grammar of requests

A request as its parts: an optional line break, the request line, headers and an empty line. What
the parser reads is exactly such a text, and it reads all of it, whatever comes behind.
-/

import DFTracer.Server.HttpParser

namespace DFTracer.Server

open List Option

inductive Eol
  | crlf
  | lf
  deriving DecidableEq, Repr

def Eol.bytes : Eol → Bytes
  | .crlf => [CR, LF]
  | .lf => [LF]

/-- A line of a header. The value starts behind the blanks. -/
structure HeaderLine where
  name : Bytes
  blanks : Bytes
  value : Bytes
  eol : Eol
  some_name : name ≠ []
  name_chars : ∀ c ∈ name, c ≠ COLON ∧ isTokenChar c = true
  blank_chars : ∀ c ∈ blanks, isBlank c = true
  value_chars : ∀ c ∈ value, c = HT ∨ isPrintable c = true
  value_starts : ∀ c ∈ value.head?, isBlank c = false

def HeaderLine.bytes (line : HeaderLine) : Bytes :=
  line.name ++ COLON :: (line.blanks ++ (line.value ++ line.eol.bytes))

def HeaderLine.header (line : HeaderLine) : Header where
  name := line.name
  value := line.value.rdropWhile isBlank

/-- Headers and the empty line behind them. -/
def headersBytes (lines : List HeaderLine) (last : Eol) : Bytes :=
  lines.flatMap HeaderLine.bytes ++ last.bytes

/-- A request line. -/
structure RequestLine where
  method : Bytes
  spaces : Nat
  path : Bytes
  morespaces : Nat
  digit : UInt8
  eol : Eol
  some_method : method ≠ []
  method_chars : ∀ c ∈ method, isTokenChar c = true
  some_path : path ≠ []
  path_chars : ∀ c ∈ path, (c < 0x21 || c = 0x7F) = false
  digit_char : (digit < 0x30 || 0x39 < digit) = false

/-- `HTTP/1.` -/
def versionBytes : Bytes := [0x48, 0x54, 0x54, 0x50, 0x2F, 0x31, 0x2E]

def RequestLine.bytes (line : RequestLine) : Bytes :=
  line.method ++ SP :: (List.replicate line.spaces SP ++ (line.path ++ SP ::
    (List.replicate line.morespaces SP ++ (versionBytes ++ line.digit :: line.eol.bytes))))

structure RequestText where
  leading : Option Eol
  line : RequestLine
  headers : List HeaderLine
  last : Eol
  room : headers.length ≤ MAX_HEADERS

namespace RequestText

def bytes (t : RequestText) : Bytes :=
  (t.leading.elim [] Eol.bytes) ++ (t.line.bytes ++ headersBytes t.headers t.last)

def request (t : RequestText) : ParsedRequest where
  method := t.line.method
  path := t.line.path
  minorVersion := t.line.digit.toNat - 0x30
  headers := t.headers.map HeaderLine.header

end RequestText

/-! ## Reading parts of a text -/

section Reading

variable {stops allowed : UInt8 → Bool} {w c rest : Bytes} {read : Bytes × Bytes}

theorem readUntil_append {s : UInt8} (w_chars : ∀ c ∈ w, stops c = false ∧ allowed c = true)
    (stop : stops s = true) : readUntil stops allowed (w ++ s :: rest) = some (w, s :: rest) := by
  induction w with
  | nil => exact if_pos stop
  | cons c w ih =>
    obtain ⟨goes, ok⟩ := w_chars c mem_cons_self
    have behind := ih fun d mem => w_chars d (mem_cons_of_mem c mem)
    rw [cons_append, readUntil, goes, ok, behind]
    rfl

theorem readUntil_eq_some (h : readUntil stops allowed c = some read) :
    c = read.1 ++ read.2 ∧ (∀ d ∈ read.1, stops d = false ∧ allowed d = true) ∧
      ∃ s rest, read.2 = s :: rest ∧ stops s = true := by
  induction c generalizing read with
  | nil => cases h
  | cons d c ih =>
    rw [readUntil] at h
    split at h
    · next stop =>
        cases h
        exact ⟨rfl, nofun, d, c, rfl, stop⟩
    · next goes =>
        split at h
        · next ok =>
            obtain ⟨behind, found, rfl⟩ := map_eq_some_iff.mp h
            obtain ⟨whole, chars, stopped⟩ := ih found
            refine ⟨congrArg (d :: ·) whole, ?_, stopped⟩
            rintro e (_ | ⟨_, mem⟩)
            · exact ⟨eq_false_of_ne_true goes, ok⟩
            · exact chars e mem
        · cases h

theorem consumeEol_bytes (eol : Eol) (rest : Bytes) :
    consumeEol (eol.bytes ++ rest) = some rest := by
  cases eol <;> rfl

theorem consumeEol_eq_some (h : consumeEol c = some rest) : ∃ eol : Eol, c = eol.bytes ++ rest := by
  cases c with
  | nil => cases h
  | cons d c =>
    unfold consumeEol at h
    dsimp only at h
    split at h
    · next cr =>
        cases c with
        | nil => cases h
        | cons e c =>
          dsimp only at h
          split at h
          · next lf =>
              cases h
              exact ⟨.crlf, by rw [cr, lf]; rfl⟩
          · cases h
    · split at h
      · next lf =>
          cases h
          exact ⟨.lf, by rw [lf]; rfl⟩
      · cases h

/-- Both line breaks start with a byte that is allowed in no value. -/
theorem Eol.bytes_eq_cons (eol : Eol) : ∃ c w, eol.bytes = c :: w ∧ (c = CR ∨ c = LF) := by
  cases eol with
  | crlf => exact ⟨CR, [LF], rfl, .inl rfl⟩
  | lf => exact ⟨LF, [], rfl, .inr rfl⟩

/-- Blanks in front of something else. -/
theorem dropWhile_blanks {blank : UInt8 → Bool} (w_chars : ∀ c ∈ w, blank c = true)
    (starts : ∀ c ∈ rest.head?, blank c = false) : (w ++ rest).dropWhile blank = rest := by
  rw [dropWhile_append_of_pos w_chars]
  cases rest with
  | nil => rfl
  | cons c rest => exact dropWhile_cons_of_neg (by rw [starts c rfl]; nofun)

theorem readToken_append (delim : UInt8) (rest : Bytes) (some_w : w ≠ [])
    (w_chars : ∀ c ∈ w, c ≠ delim ∧ isTokenChar c = true) :
    readToken delim (w ++ delim :: rest) = some (w, delim :: rest) := by
  unfold readToken
  rw [readUntil_append (fun c mem => ⟨decide_eq_false (w_chars c mem).1, (w_chars c mem).2⟩)
    (decide_eq_true rfl)]
  exact filter_some_pos (decide_eq_true some_w)

theorem readToken_eq_some {delim : UInt8} (h : readToken delim c = some read) :
    read.1 ≠ [] ∧ (∀ d ∈ read.1, d ≠ delim ∧ isTokenChar d = true) ∧
      ∃ rest, read.2 = delim :: rest ∧ c = read.1 ++ delim :: rest := by
  obtain ⟨h, some_read⟩ := filter_eq_some_iff.mp h
  obtain ⟨whole, chars, s, rest, stopped, stop⟩ := readUntil_eq_some h
  obtain rfl : s = delim := of_decide_eq_true stop
  exact ⟨of_decide_eq_true some_read,
    fun d mem => ⟨of_decide_eq_false (chars d mem).1, (chars d mem).2⟩, rest, stopped,
    stopped ▸ whole⟩

theorem readRequestTarget_append (some_w : w ≠ [])
    (w_chars : ∀ c ∈ w, (c < 0x21 || c = 0x7F) = false) :
    readRequestTarget (w ++ SP :: rest) = some (w, SP :: rest) := by
  have goes (c : UInt8) (mem : c ∈ w) : c ≠ SP := by
    rintro rfl
    exact absurd (w_chars SP mem) (by decide)
  unfold readRequestTarget
  rw [readUntil_append (fun c mem => ⟨decide_eq_false (goes c mem), by rw [w_chars c mem]; rfl⟩)
    (decide_eq_true rfl)]
  exact filter_some_pos (decide_eq_true some_w)

theorem readRequestTarget_eq_some (h : readRequestTarget c = some read) :
    read.1 ≠ [] ∧ (∀ d ∈ read.1, (d < 0x21 || d = 0x7F) = false) ∧
      ∃ rest, read.2 = SP :: rest ∧ c = read.1 ++ SP :: rest := by
  obtain ⟨h, some_read⟩ := filter_eq_some_iff.mp h
  obtain ⟨whole, chars, s, rest, stopped, stop⟩ := readUntil_eq_some h
  obtain rfl : s = SP := of_decide_eq_true stop
  refine ⟨of_decide_eq_true some_read, fun d mem => ?_, rest, stopped, stopped ▸ whole⟩
  exact (Bool.not_eq_true' _).mp (chars d mem).2

theorem readHeaderValue_append {eol : Eol} (w_chars : ∀ c ∈ w, c = HT ∨ isPrintable c = true) :
    readHeaderValue (w ++ (eol.bytes ++ rest)) = some (w.rdropWhile isBlank, rest) := by
  have chars (c : UInt8) (mem : c ∈ w) : (c = CR || c = LF : Bool) = false ∧
      (c = HT || isPrintable c : Bool) = true := by
    rcases w_chars c mem with rfl | printable
    · decide
    · have apart : c ≠ CR ∧ c ≠ LF := by
        constructor
        · rintro rfl
          exact absurd printable (by decide)
        · rintro rfl
          exact absurd printable (by decide)
      rw [decide_eq_false apart.1, decide_eq_false apart.2, printable, Bool.or_true]
      exact ⟨rfl, rfl⟩
  obtain ⟨c, tail, eol_eq, stop⟩ := eol.bytes_eq_cons
  have stops : (c = CR || c = LF : Bool) = true := by
    rcases stop with rfl | rfl
    · rfl
    · rfl
  have read : readUntil (fun ch => ch = CR || ch = LF) (fun ch => ch = HT || isPrintable ch)
      (w ++ (eol.bytes ++ rest)) = some (w, eol.bytes ++ rest) := by
    rw [eol_eq]
    exact readUntil_append chars stops
  unfold readHeaderValue
  rw [read, Option.bind_some, consumeEol_bytes]
  rfl

theorem readHeaderValue_eq_some (h : readHeaderValue c = some read) :
    ∃ (w : Bytes) (eol : Eol), (∀ c ∈ w, c = HT ∨ isPrintable c = true) ∧
      c = w ++ (eol.bytes ++ read.2) ∧ read.1 = w.rdropWhile isBlank := by
  obtain ⟨value, found, behind⟩ := bind_eq_some_iff.mp h
  obtain ⟨rest, ends, rfl⟩ := map_eq_some_iff.mp behind
  obtain ⟨whole, chars, -⟩ := readUntil_eq_some found
  obtain ⟨eol, eol_eq⟩ := consumeEol_eq_some ends
  refine ⟨value.1, eol, fun d mem => ?_, eol_eq ▸ whole, rfl⟩
  have allowed := (chars d mem).2
  rwa [Bool.or_eq_true, decide_eq_true_iff] at allowed

/-! ## Reading lines -/

theorem readHeader_append (line : HeaderLine) (rest : Bytes) :
    readHeader (line.bytes ++ rest) = some (line.header, rest) := by
  have starts : ∀ c ∈ (line.value ++ (line.eol.bytes ++ rest)).head?, isBlank c = false := by
    cases value : line.value with
    | nil =>
      obtain ⟨c, tail, eol_eq, stop⟩ := line.eol.bytes_eq_cons
      rw [eol_eq]
      rintro d ⟨⟩
      rcases stop with rfl | rfl
      · rfl
      · rfl
    | cons c tail =>
      have first := line.value_starts
      rw [value] at first
      exact first
  unfold readHeader HeaderLine.bytes
  rw [append_assoc, cons_append, append_assoc, append_assoc,
    readToken_append COLON _ line.some_name line.name_chars]
  change ((readHeaderValue ((line.blanks ++ (line.value ++ (line.eol.bytes ++ rest))).dropWhile
    isBlank)).map _) = _
  rw [dropWhile_blanks line.blank_chars starts, readHeaderValue_append line.value_chars]
  rfl

theorem readHeader_eq_some {header : Header × Bytes} (h : readHeader c = some header) :
    ∃ line : HeaderLine, c = line.bytes ++ header.2 ∧ header.1 = line.header := by
  obtain ⟨name, found, behind⟩ := bind_eq_some_iff.mp h
  obtain ⟨value, read, rfl⟩ := map_eq_some_iff.mp behind
  obtain ⟨some_name, name_chars, rest, stopped, whole⟩ := readToken_eq_some found
  obtain ⟨w, eol, value_chars, text, trimmed⟩ := readHeaderValue_eq_some read
  rw [stopped] at text
  change rest.dropWhile isBlank = _ at text
  have starts : ∀ d ∈ w.head?, isBlank d = false := by
    rintro d first
    cases w with
    | nil => cases first
    | cons e w =>
      cases first
      have dropped := head?_dropWhile_not isBlank rest
      rw [text] at dropped
      exact eq_false_of_ne_true (by simpa using dropped)
  refine ⟨⟨name.1, rest.takeWhile isBlank, w, eol, some_name, name_chars,
    fun d mem => mem_takeWhile_imp mem, value_chars, starts⟩, ?_, ?_⟩
  · rw [whole]
    change _ = (name.1 ++ COLON :: (rest.takeWhile isBlank ++ (w ++ eol.bytes))) ++ value.2
    rw [append_assoc, cons_append, append_assoc, append_assoc, ← text,
      takeWhile_append_dropWhile]
  · change Header.mk name.1 value.1 = Header.mk name.1 (w.rdropWhile isBlank)
    rw [trimmed]

theorem HeaderLine.bytes_eq_cons (line : HeaderLine) :
    ∃ c w, line.bytes = c :: w ∧ (c = CR || c = LF : Bool) = false := by
  cases name : line.name with
  | nil => exact absurd name line.some_name
  | cons c w =>
    have char := line.name_chars c (name ▸ mem_cons_self)
    refine ⟨c, w ++ COLON :: (line.blanks ++ (line.value ++ line.eol.bytes)), ?_, ?_⟩
    · unfold HeaderLine.bytes
      rw [name]
      rfl
    · have apart : c ≠ CR ∧ c ≠ LF := by
        constructor
        · rintro rfl
          exact absurd char.2 (by decide)
        · rintro rfl
          exact absurd char.2 (by decide)
      rw [decide_eq_false apart.1, decide_eq_false apart.2]
      rfl

variable {b : UInt8} {room : Nat}

theorem readHeaders_stop (stop : (b = CR || b = LF : Bool) = true) :
    readHeaders room (b :: rest) = (consumeEol (b :: rest)).map fun rest => ([], rest) := by
  unfold readHeaders
  exact if_pos stop

theorem readHeaders_go (go : (b = CR || b = LF : Bool) = false) :
    readHeaders (room + 1) (b :: rest) =
      (readHeader (b :: rest)).bind fun header =>
        (readHeaders room header.2).map fun headers =>
          (header.1 :: headers.1, headers.2) := by
  conv_lhs => unfold readHeaders
  exact if_neg (by rw [go]; nofun)

theorem readHeaders_full (go : (b = CR || b = LF : Bool) = false) :
    readHeaders 0 (b :: rest) = none := by
  exact if_neg (by rw [go]; nofun)

theorem readHeaders_append {lines : List HeaderLine} {last : Eol}
    (fits : lines.length ≤ room) (rest : Bytes) :
    readHeaders room (headersBytes lines last ++ rest) =
      some (lines.map HeaderLine.header, rest) := by
  induction lines generalizing room with
  | nil =>
    obtain ⟨c, w, eol_eq, stop⟩ := last.bytes_eq_cons
    have stops : (c = CR || c = LF : Bool) = true := by
      rcases stop with rfl | rfl
      · rfl
      · rfl
    have ends := consumeEol_bytes last rest
    change readHeaders room (last.bytes ++ rest) = _
    rw [eol_eq, cons_append] at ends ⊢
    rw [readHeaders_stop stops, ends]
    rfl
  | cons line lines ih =>
    cases room with
    | zero => exact absurd fits (Nat.not_succ_le_zero _)
    | succ room =>
      obtain ⟨c, w, line_eq, goes⟩ := line.bytes_eq_cons
      have text : headersBytes (line :: lines) last ++ rest =
          line.bytes ++ (headersBytes lines last ++ rest) := by
        unfold headersBytes
        rw [flatMap_cons, append_assoc, append_assoc, append_assoc]
      have first := readHeader_append line (headersBytes lines last ++ rest)
      rw [text]
      rw [line_eq, cons_append] at first ⊢
      rw [readHeaders_go goes, first, Option.bind_some, ih (Nat.le_of_succ_le_succ fits)]
      rfl

/-- Headers end with an empty line, or where the buffer ends. -/
theorem readHeaders_eq_some {headers : List Header × Bytes}
    (h : readHeaders room c = some headers) :
    ∃ lines : List HeaderLine, lines.length ≤ room ∧ headers.1 = lines.map HeaderLine.header ∧
      ((∃ last, c = headersBytes lines last ++ headers.2) ∨
        c ++ [LF] = headersBytes lines .lf ∧ headers.2 = []) := by
  induction room generalizing c headers with
  | zero =>
    cases c with
    | nil =>
      cases h
      exact ⟨[], Nat.le_refl 0, rfl, .inr ⟨rfl, rfl⟩⟩
    | cons b c =>
      cases goes : (b = CR || b = LF : Bool) with
      | true =>
        rw [readHeaders_stop goes] at h
        obtain ⟨rest, ends, rfl⟩ := map_eq_some_iff.mp h
        obtain ⟨eol, text⟩ := consumeEol_eq_some ends
        exact ⟨[], Nat.le_refl 0, rfl, .inl ⟨eol, text⟩⟩
      | false =>
        rw [readHeaders_full goes] at h
        cases h
  | succ room ih =>
    cases c with
    | nil =>
      cases h
      exact ⟨[], Nat.zero_le _, rfl, .inr ⟨rfl, rfl⟩⟩
    | cons b c =>
      cases goes : (b = CR || b = LF : Bool) with
      | true =>
        rw [readHeaders_stop goes] at h
        obtain ⟨rest, ends, rfl⟩ := map_eq_some_iff.mp h
        obtain ⟨eol, text⟩ := consumeEol_eq_some ends
        exact ⟨[], Nat.zero_le _, rfl, .inl ⟨eol, text⟩⟩
      | false =>
        rw [readHeaders_go goes] at h
        obtain ⟨header, read, h⟩ := bind_eq_some_iff.mp h
        obtain ⟨behind, others, rfl⟩ := map_eq_some_iff.mp h
        obtain ⟨line, text, header_eq⟩ := readHeader_eq_some read
        obtain ⟨lines, fits, headers_eq, ends⟩ := ih others
        refine ⟨line :: lines, Nat.succ_le_succ fits, ?_, ?_⟩
        · rw [map_cons, header_eq, headers_eq]
        · have more (last : Eol) : headersBytes (line :: lines) last =
              line.bytes ++ headersBytes lines last := by
            unfold headersBytes
            rw [flatMap_cons, append_assoc]
          rcases ends with ⟨last, rest⟩ | ⟨whole, none⟩
          · exact .inl ⟨last, by rw [text, rest, more, append_assoc]⟩
          · exact .inr ⟨by rw [text, append_assoc, whole, more], none⟩

/-! ## Reading requests -/

theorem readVersion_append {digit : UInt8} (char : (digit < 0x30 || 0x39 < digit) = false) :
    readVersion (versionBytes ++ digit :: rest) = some (digit.toNat - 0x30, rest) := by
  change (if [0x48, 0x54, 0x54, 0x50, 0x2F, 0x31, 0x2E] = ([0x48, 0x54, 0x54, 0x50, 0x2F, 0x31,
    0x2E] : Bytes) then if digit < 0x30 || 0x39 < digit then none else
      some (digit.toNat - 0x30, rest) else none) = _
  rw [if_pos rfl, if_neg (by rw [char]; nofun)]

theorem readVersion_eq_some {version : Nat × Bytes} (h : readVersion c = some version) :
    ∃ digit : UInt8, (digit < 0x30 || 0x39 < digit) = false ∧ version.1 = digit.toNat - 0x30 ∧
      c = versionBytes ++ digit :: version.2 := by
  unfold readVersion at h
  split at h
  · next digit rest =>
      split at h
      · next letters =>
          split at h
          · cases h
          · next char =>
              cases h
              refine ⟨digit, eq_false_of_ne_true char, rfl, ?_⟩
              exact congrArg (· ++ digit :: rest) letters
      · cases h
  · cases h

theorem skipSpaces_append {n : Nat} (starts : ∀ d ∈ c.head?, d ≠ SP) :
    skipSpaces (List.replicate n SP ++ c) = c :=
  dropWhile_blanks (fun _ mem => decide_eq_true (eq_of_mem_replicate mem))
    fun d first => decide_eq_false (starts d first)

/-- What is left behind spaces. -/
theorem exists_spaces (c : Bytes) : ∃ n, c = List.replicate n SP ++ skipSpaces c := by
  have spaces : c.takeWhile (· = SP) = List.replicate (c.takeWhile (· = SP)).length SP :=
    eq_replicate_of_mem fun d mem => of_decide_eq_true
      (mem_takeWhile_imp (p := fun d => decide (d = SP)) mem)
  refine ⟨(c.takeWhile (· = SP)).length, ?_⟩
  rw [← spaces]
  exact takeWhile_append_dropWhile.symm

theorem skipLeading_append (leading : Option Eol) (rest : Bytes)
    (go : (b = CR || b = LF : Bool) = false) :
    skipLeading (leading.elim [] Eol.bytes ++ b :: rest) = some (b :: rest) := by
  cases leading with
  | none => exact if_neg (by rw [go]; nofun)
  | some eol =>
    cases eol with
    | crlf | lf => rfl

theorem skipLeading_eq_some (h : skipLeading c = some rest) :
    ∃ leading : Option Eol, c = leading.elim [] Eol.bytes ++ rest := by
  cases c with
  | nil =>
    cases h
    exact ⟨none, rfl⟩
  | cons b c =>
    unfold skipLeading at h
    dsimp only at h
    split at h
    · obtain ⟨eol, text⟩ := consumeEol_eq_some h
      exact ⟨some eol, text⟩
    · cases h
      exact ⟨none, rfl⟩

theorem isTokenChar_goes (char : isTokenChar b = true) : (b = CR || b = LF : Bool) = false := by
  have apart : b ≠ CR ∧ b ≠ LF := by
    constructor
    · rintro rfl
      exact absurd char (by decide)
    · rintro rfl
      exact absurd char (by decide)
  rw [decide_eq_false apart.1, decide_eq_false apart.2]
  rfl

theorem isTokenChar_ne_space (char : isTokenChar b = true) : b ≠ SP := by
  rintro rfl
  exact absurd char (by decide)

/-- A text is read as its request, whatever comes behind. -/
theorem parseLines_append (t : RequestText) (rest : Bytes) :
    parseLines (t.bytes ++ rest) = some (t.request, rest) := by
  obtain ⟨b, method, method_eq⟩ := exists_cons_of_ne_nil t.line.some_method
  have char : isTokenChar b = true :=
    t.line.method_chars b (method_eq ▸ mem_cons_self)
  have path_starts (d : UInt8) (first : d ∈ (t.line.path ++ SP ::
      (List.replicate t.line.morespaces SP ++ (versionBytes ++ t.line.digit ::
        (t.line.eol.bytes ++ (headersBytes t.headers t.last ++ rest))))).head?) : d ≠ SP := by
    obtain ⟨e, path, path_eq⟩ := exists_cons_of_ne_nil t.line.some_path
    rw [path_eq] at first
    cases first
    rintro rfl
    exact absurd (t.line.path_chars SP (path_eq ▸ mem_cons_self)) (by decide)
  have version_starts (d : UInt8) (first : d ∈ (versionBytes ++ t.line.digit ::
      (t.line.eol.bytes ++ (headersBytes t.headers t.last ++ rest))).head?) : d ≠ SP := by
    cases first
    decide
  have leading := skipLeading_append t.leading (method ++ SP ::
    (List.replicate t.line.spaces SP ++ (t.line.path ++ SP ::
      (List.replicate t.line.morespaces SP ++ (versionBytes ++ t.line.digit ::
        (t.line.eol.bytes ++ (headersBytes t.headers t.last ++ rest))))))) (isTokenChar_goes char)
  rw [← cons_append, ← method_eq] at leading
  have read := readToken_append SP (List.replicate t.line.spaces SP ++
    (t.line.path ++ SP :: (List.replicate t.line.morespaces SP ++ (versionBytes ++ t.line.digit ::
      (t.line.eol.bytes ++ (headersBytes t.headers t.last ++ rest))))))
    t.line.some_method fun c mem =>
      ⟨isTokenChar_ne_space (t.line.method_chars c mem), t.line.method_chars c mem⟩
  have text : t.bytes ++ rest = t.leading.elim [] Eol.bytes ++ (t.line.method ++ SP ::
      (List.replicate t.line.spaces SP ++ (t.line.path ++ SP ::
        (List.replicate t.line.morespaces SP ++ (versionBytes ++ t.line.digit ::
          (t.line.eol.bytes ++ (headersBytes t.headers t.last ++ rest))))))) := by
    simp only [RequestText.bytes, RequestLine.bytes, append_assoc, cons_append]
  unfold parseLines
  rw [text, leading, Option.bind_some, read]
  change (readRequestTarget (skipSpaces (List.replicate t.line.spaces SP ++ _))).bind _ = _
  rw [skipSpaces_append path_starts, readRequestTarget_append t.line.some_path t.line.path_chars]
  change (readVersion (skipSpaces (List.replicate t.line.morespaces SP ++ _))).bind _ = _
  rw [skipSpaces_append version_starts, readVersion_append t.line.digit_char, Option.bind_some,
    consumeEol_bytes, Option.bind_some, readHeaders_append t.room]
  rfl

/-- What is read is a text, or lacks its empty line. -/
theorem parseLines_eq_some {out : ParsedRequest} (h : parseLines c = some (out, rest)) :
    ∃ t : RequestText, out = t.request ∧
      (c = t.bytes ++ rest ∨ c ++ [LF] = t.bytes ∧ rest = []) := by
  obtain ⟨c₁, leads, h⟩ := bind_eq_some_iff.mp h
  obtain ⟨method, reads, h⟩ := bind_eq_some_iff.mp h
  obtain ⟨path, targets, h⟩ := bind_eq_some_iff.mp h
  obtain ⟨version, versions, h⟩ := bind_eq_some_iff.mp h
  obtain ⟨c₂, ends, h⟩ := bind_eq_some_iff.mp h
  obtain ⟨headers, heads, out_eq⟩ := map_eq_some_iff.mp h
  obtain ⟨rfl, rfl⟩ := Prod.mk.inj out_eq
  obtain ⟨leading, leading_eq⟩ := skipLeading_eq_some leads
  obtain ⟨some_method, method_chars, behind₁, stop₁, method_eq⟩ := readToken_eq_some reads
  obtain ⟨some_path, path_chars, behind₂, stop₂, path_eq⟩ := readRequestTarget_eq_some targets
  obtain ⟨digit, digit_char, minor, version_eq⟩ := readVersion_eq_some versions
  obtain ⟨eol, eol_eq⟩ := consumeEol_eq_some ends
  obtain ⟨lines, room, lines_eq, text⟩ := readHeaders_eq_some heads
  obtain ⟨spaces, spaces_eq⟩ := exists_spaces behind₁
  obtain ⟨morespaces, morespaces_eq⟩ := exists_spaces behind₂
  rw [stop₁] at path_eq
  rw [stop₂] at version_eq
  change skipSpaces behind₁ = _ at path_eq
  change skipSpaces behind₂ = _ at version_eq
  let line : RequestLine := ⟨method.1, spaces, path.1, morespaces, digit, eol, some_method,
    fun d mem => (method_chars d mem).2, some_path, path_chars, digit_char⟩
  have whole : c = leading.elim [] Eol.bytes ++ (line.bytes ++ c₂) := by
    rw [leading_eq, method_eq, spaces_eq, path_eq, morespaces_eq, version_eq, eol_eq]
    simp only [RequestLine.bytes, line, append_assoc, cons_append]
  have request (last : Eol) :
      ParsedRequest.mk method.1 path.1 version.1 headers.1 =
        RequestText.request ⟨leading, line, lines, last, room⟩ := by
    rw [lines_eq, minor]
    rfl
  rcases text with ⟨last, text⟩ | ⟨text, none⟩
  · refine ⟨⟨leading, line, lines, last, room⟩, request last, .inl ?_⟩
    rw [whole, text]
    simp only [RequestText.bytes, append_assoc]
  · refine ⟨⟨leading, line, lines, .lf, room⟩, request .lf, .inr ⟨?_, none⟩⟩
    rw [whole]
    simp only [RequestText.bytes, append_assoc, text]

end Reading

end DFTracer.Server
