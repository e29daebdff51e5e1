/-
# Reading numbers from text

The standard library readers of the code: `from_chars` for sixty-four bit
integers, and `stoull`, `stoll`, `stod`, which skip blanks, accept a sign, read
the longest prefix that is a number and ignore what follows. The last three
throw when there is no number or when it is out of range; a throw is `none`
here. An unsigned reader accepts a minus sign and negates modulo `2 ^ 64`.
-/

import DFTracer.Math.FloatText
import Mathlib.Tactic.IntervalCases

open Float.Model (Format UnpackedFloat)

namespace DFTracer.Math.NumberText

open DFTracer.Math.Float64 List Option

/-- `isspace` in the C locale. -/
def isSpace (c : Char) : Bool :=
  c == ' ' || ('\t' ≤ c && c ≤ '\r')

/-- The longest run of decimal digits at the start. -/
def digitRun (text : List Char) : List Char := text.takeWhile Char.isDigit

/-- A number text without its blanks, split into its sign and the rest. -/
def signed (text : List Char) : Bool × List Char :=
  match text.dropWhile isSpace with
  | '-' :: rest => (true, rest)
  | '+' :: rest => (false, rest)
  | rest => (false, rest)

/-- The value of a digit run, nothing when it is empty. -/
def runValue (text : List Char) : Option Nat :=
  match digitRun text with
  | [] => none
  | digits => some (Nat.ofDigitChars 10 digits 0)

/-- `std::from_chars` into an unsigned integer, nothing on an error. -/
def fromCharsUint (text : String) : Option Nat :=
  (runValue text.toList).filter (· < 2 ^ 64)

/-- `std::from_chars` into a signed integer. No plus sign is accepted. -/
def fromCharsInt (text : String) : Option Int :=
  match text.toList with
  | '-' :: rest => ((runValue rest).filter (· ≤ 2 ^ 63)).map fun n : Nat => -(n : Int)
  | digits => ((runValue digits).filter (· < 2 ^ 63)).map fun n : Nat => (n : Int)

/-- `std::stoull`. -/
def stoull (text : String) : Option Nat :=
  let (negative, rest) := signed text.toList
  ((runValue rest).filter (· < 2 ^ 64)).map fun n =>
    if negative then (2 ^ 64 - n) % 2 ^ 64 else n

/-- `std::stoll`. -/
def stoll (text : String) : Option Int :=
  let (negative, rest) := signed text.toList
  ((runValue rest).filter fun n => if negative then n ≤ 2 ^ 63 else n < 2 ^ 63).map fun n : Nat =>
    if negative then -(n : Int) else n

/-- The result of `std::stod`. -/
inductive Parsed where
  | nan
  | number (x : Double)

/-- `operator<` on two results: false as soon as one is NaN. -/
def Parsed.lt : Parsed → Parsed → Bool
  | .number x, .number y => x < y
  | _, _ => false

/-- `x`, negated when the sign asks for it. -/
def withSign (negative : Bool) (x : Float) : Float := if negative then -x else x

/-- A number, unless it is NaN. -/
def Parsed.ofFloat (x : Float) : Parsed :=
  if h : x.isNaN = false then .number ⟨x, h⟩ else .nan

/-- The smallest normal magnitude is `2 ^ -1022`. -/
def isTiny (magnitude : Nat × Nat) : Bool := magnitude.1 * 2 ^ 1022 < magnitude.2

/-- `num / den` was converted to `x`. Out of range is an overflow, or a result
below the normal range that is not exact. -/
def inRange (num den : Nat) (x : Float) : Bool :=
  if h : x.isNaN = false then
    let magnitude := (Double.mk x h).magnitude
    !x.isInf && (!isTiny magnitude ||
      (magnitude.1 != 0 && num * magnitude.2 == magnitude.1 * den))
  else false

/-- A zero keeps its sign. -/
def zero (negative : Bool) : Parsed :=
  if negative then .number ⟨-0.0, by decide⟩ else .number ⟨0.0, by decide⟩

def infinity (negative : Bool) : Parsed :=
  if negative then .number ⟨-1.0 / 0.0, by decide⟩ else .number ⟨1.0 / 0.0, by decide⟩

/-- The decimal `digits * 10 ^ exponent`, correctly rounded. -/
def decimal (negative : Bool) (digits : Nat) (exponent : Int) : Option Parsed :=
  if digits = 0 then some (zero negative)
  else if small : digits < 2 ^ 64 ∧ exponent = 0 then
    some (.number (.ofInt (if negative then -(digits : Int) else digits) (by split <;> omega)))
  else
    let x := withSign negative (.ofScientific digits (exponent < 0) exponent.natAbs)
    if inRange (digits * 10 ^ exponent.toNat) (10 ^ (-exponent).toNat) x then some (.ofFloat x)
    else none

/-- The hexadecimal `digits * 2 ^ exponent`, correctly rounded. -/
def hexadecimal (negative : Bool) (digits : Nat) (exponent : Int) : Option Parsed :=
  let x := withSign negative
    (.ofModel (.pack (UnpackedFloat.round Format.binary64 .positive digits exponent)))
  if digits = 0 then some (zero negative)
  else if inRange (digits * 2 ^ exponent.toNat) (2 ^ (-exponent).toNat) x then some (.ofFloat x)
  else none

/-- A signed exponent after its letter, zero when no digit follows. -/
def exponentValue (text : List Char) : Int :=
  let (negative, rest) := match text with
    | '-' :: rest => (true, rest)
    | '+' :: rest => (false, rest)
    | rest => (false, rest)
  match runValue rest with
  | some n => if negative then -(n : Int) else n
  | none => 0

def isHexDigit (c : Char) : Bool :=
  c.isDigit || ('a' ≤ c.toLower && c.toLower ≤ 'f')

def hexValue (digits : List Char) : Nat :=
  digits.foldl (fun n c =>
    n * 16 + if c.isDigit then c.toNat - '0'.toNat else c.toLower.toNat - 'a'.toNat + 10) 0

/-- Digits, and digits after a point. -/
def mantissaRuns (isDigit : Char → Bool) (text : List Char) :
    List Char × List Char × List Char :=
  let whole := text.takeWhile isDigit
  match text.drop whole.length with
  | '.' :: rest =>
    let fraction := rest.takeWhile isDigit
    (whole, fraction, rest.drop fraction.length)
  | rest => (whole, [], rest)

/-- Whether the text starts with a word, in any case. -/
def startsWith (word : String) (text : List Char) : Bool :=
  word.toList.isPrefixOf (text.map Char.toLower)

/-- The hexadecimal form after `0x`, nothing when no digit follows. -/
def hexText (negative : Bool) (text : List Char) : Option (Option Parsed) :=
  let (whole, fraction, rest) := mantissaRuns isHexDigit text
  if whole.isEmpty && fraction.isEmpty then none
  else
    let exponent := match rest with
      | c :: rest => if c.toLower = 'p' then exponentValue rest else 0
      | [] => 0
    some (hexadecimal negative (hexValue (whole ++ fraction)) (exponent - 4 * fraction.length))

/-- `std::stod`. -/
def stod (text : String) : Option Parsed :=
  let (negative, rest) := signed text.toList
  if startsWith "inf" rest then some (infinity negative)
  else if startsWith "nan" rest then some .nan
  else
    match if startsWith "0x" rest then hexText negative (rest.drop 2) else none with
    | some parsed => parsed
    | none =>
      let (whole, fraction, rest) := mantissaRuns Char.isDigit rest
      if whole.isEmpty && fraction.isEmpty then none
      else
        let exponent := match rest with
          | c :: rest => if c.toLower = 'e' then exponentValue rest else 0
          | [] => 0
        decimal negative (Nat.ofDigitChars 10 (whole ++ fraction) 0)
          (exponent - fraction.length)

/-! ## Reading back what was printed -/

/-- The text of an integer, character by character. -/
theorem toList_toString (n : Int) :
    (toString n).toList = (if n < 0 then ['-'] else []) ++ Nat.toDigits 10 n.natAbs := by
  cases n with
  | ofNat m => exact Nat.toList_repr
  | negSucc m =>
    have printed : toString (Int.negSucc m) = "-" ++ (m + 1).repr := rfl
    rw [printed, String.toList_append, Nat.toList_repr, if_pos (Int.negSucc_lt_zero m)]
    rfl

theorem digitRun_toDigits (n : Nat) (rest : List Char)
    (stops : rest.head?.all (!·.isDigit) = true) :
    digitRun (Nat.toDigits 10 n ++ rest) = Nat.toDigits 10 n := by
  have digits : ∀ c ∈ Nat.toDigits 10 n, c.isDigit = true := fun c listed =>
    Nat.isDigit_of_mem_toDigits (by decide) (by decide) listed
  unfold digitRun
  rw [takeWhile_append_of_pos digits]
  cases rest with
  | nil => rw [takeWhile_nil, append_nil]
  | cons c rest =>
    rw [takeWhile_cons_of_neg (by simpa using stops), append_nil]

theorem runValue_toDigits (n : Nat) : runValue (Nat.toDigits 10 n) = some n := by
  have nonempty : Nat.toDigits 10 n ≠ [] := Nat.toDigits_ne_nil
  have run := digitRun_toDigits n [] rfl
  rw [append_nil] at run
  unfold runValue
  rw [run]
  split
  · rename_i empty
    exact absurd empty nonempty
  · rw [Nat.ofDigitChars_ten_toDigits]

/-- A property of the characters of a text, checked one by one. -/
theorem checked {text : String} {p : Char → Prop} [DecidablePred p]
    (all : text.toList.all (fun c => p c) = true) : ∀ c ∈ text.toList, p c :=
  fun c listed => of_decide_eq_true (all_eq_true.mp all c listed)

variable {c : Char}

/-- The ten digits. -/
theorem mem_digits (digit : c.isDigit = true) : c ∈ "0123456789".toList := by
  obtain ⟨low, high⟩ := Char.isDigit_iff_toNat.mp digit
  have char : c = Char.ofNat c.toNat := (Char.ofNat_toNat c).symm
  have low : 48 ≤ c.toNat := low
  have high : c.toNat ≤ 57 := high
  generalize c.toNat = code at char low high
  subst char
  interval_cases code <;> decide

/-- A printed number starts with a digit. -/
theorem toDigits_head (n : Nat) :
    ∃ c rest, Nat.toDigits 10 n = c :: rest ∧ c ∈ "0123456789".toList := by
  cases digits : Nat.toDigits 10 n with
  | nil => exact absurd digits Nat.toDigits_ne_nil
  | cons c rest =>
    refine ⟨c, rest, rfl, mem_digits ?_⟩
    exact Nat.isDigit_of_mem_toDigits (b := 10) (n := n) (by decide) (by decide) (by simp [digits])

/-- A sign, then a digit or the word for infinity: what is printed is split as
it was put together. -/
theorem signed_printed (negative : Bool) (rest : List Char)
    (listed : c ∈ "0123456789i".toList) :
    signed ((if negative then ['-'] else []) ++ c :: rest) = (negative, c :: rest) := by
  have heads : ∀ c ∈ "0123456789i".toList, isSpace c = false ∧ c ≠ '-' ∧ c ≠ '+' := checked (by decide)
  obtain ⟨blank, minus, plus⟩ := heads c listed
  cases negative with
  | true => rfl
  | false =>
    unfold signed
    rw [if_neg (by decide), nil_append, dropWhile_cons_of_neg (by simp [blank])]
    split
    · rename_i same
      exact absurd (List.cons.inj same).1 minus
    · rename_i same
      exact absurd (List.cons.inj same).1 plus
    · rfl

theorem signed_toString (n : Int) :
    signed (toString n).toList = (decide (n < 0), Nat.toDigits 10 n.natAbs) := by
  obtain ⟨c, rest, digits, listed⟩ := toDigits_head n.natAbs
  have widen : ∀ c ∈ "0123456789".toList, c ∈ "0123456789i".toList := checked (by decide)
  have split := signed_printed (decide (n < 0)) rest (widen c listed)
  rw [toList_toString, digits]
  simpa only [decide_eq_true_eq] using split

/-- Different integers are printed differently. -/
theorem toString_int_injective {n m : Int} (same : toString n = toString m) : n = m := by
  have read := signed_toString n
  rw [same, signed_toString m] at read
  obtain ⟨sign, digits⟩ := Prod.mk.inj read
  have magnitude := congrArg (fun run => Nat.ofDigitChars 10 run 0) digits
  simp only [Nat.ofDigitChars_ten_toDigits] at magnitude
  have signs : m < 0 ↔ n < 0 := decide_eq_decide.mp sign
  omega

theorem fromCharsUint_toString {n : Nat} (fits : n < 2 ^ 64) :
    fromCharsUint (toString n) = some n := by
  have printed : (toString n).toList = Nat.toDigits 10 n := Nat.toList_repr
  unfold fromCharsUint
  rw [printed, runValue_toDigits, filter_some, if_pos (by simpa using fits)]

theorem stoull_toString {n : Nat} (fits : n < 2 ^ 64) : stoull (toString n) = some n := by
  have read := signed_toString (n : Int)
  unfold stoull
  rw [show toString n = toString (n : Int) from rfl, read]
  simp only [runValue_toDigits]
  rw [filter_some, if_pos (by simpa using fits)]
  simp

theorem fromCharsInt_toString {n : Int} (low : -(2 ^ 63) ≤ n) (high : n < 2 ^ 63) :
    fromCharsInt (toString n) = some n := by
  unfold fromCharsInt
  rw [toList_toString]
  by_cases negative : n < 0
  · rw [if_pos negative]
    simp only [cons_append, nil_append, runValue_toDigits]
    rw [filter_some, if_pos (by simp; omega), map_some]
    congr 1
    omega
  · rw [if_neg negative, nil_append]
    obtain ⟨c, rest, digits, listed⟩ := toDigits_head n.natAbs
    have minus : ∀ c ∈ "0123456789".toList, c ≠ '-' := checked (by decide)
    rw [digits]
    split
    · rename_i same
      exact absurd (List.cons.inj same).1 (minus c listed)
    · rw [← digits, runValue_toDigits, filter_some, if_pos (by simp; omega),
        map_some]
      congr 1
      omega

theorem stoll_toString {n : Int} (low : -(2 ^ 63) ≤ n) (high : n < 2 ^ 63) :
    stoll (toString n) = some n := by
  unfold stoll
  rw [signed_toString]
  simp only [runValue_toDigits]
  by_cases negative : n < 0
  · simp only [negative, decide_true, if_true]
    rw [filter_some, if_pos (by simp; omega), map_some]
    congr 1
    omega
  · simp only [negative, decide_false]
    rw [filter_some, if_pos (by simp; omega), map_some]
    congr 1
    simp
    omega

theorem startsWith_toDigits (n : Nat) :
    startsWith "inf" (Nat.toDigits 10 n) = false ∧ startsWith "nan" (Nat.toDigits 10 n) = false ∧
      startsWith "0x" (Nat.toDigits 10 n) = false := by
  obtain ⟨c, rest, digits, listed⟩ := toDigits_head n
  have heads : ∀ c ∈ "0123456789".toList, c.toLower ≠ 'i' ∧ c.toLower ≠ 'n' := checked (by decide)
  have seconds : ∀ c ∈ "0123456789".toList, c.toLower ≠ 'x' := checked (by decide)
  obtain ⟨i, m⟩ := heads c listed
  refine ⟨?_, ?_, ?_⟩
  · simp [startsWith, digits, List.isPrefixOf, i.symm]
  · simp [startsWith, digits, List.isPrefixOf, m.symm]
  · cases rest with
    | nil => simp [startsWith, digits, List.isPrefixOf]
    | cons d rest =>
      have second : d ∈ "0123456789".toList := by
        apply mem_digits
        exact Nat.isDigit_of_mem_toDigits (b := 10) (n := n) (by decide) (by decide)
          (by simp [digits])
      simp [startsWith, digits, List.isPrefixOf, (seconds d second).symm]

/-- `stod` of a printed integer: the nearest double. -/
theorem stod_toString {n : Int} (low : -(2 ^ 63) ≤ n) (high : n < 2 ^ 64) :
    ∃ x, stod (toString n) = some (.number x) ∧ x.rank = intRank n := by
  have run := digitRun_toDigits n.natAbs [] rfl
  rw [append_nil] at run
  have runs : mantissaRuns Char.isDigit (Nat.toDigits 10 n.natAbs) =
      (Nat.toDigits 10 n.natAbs, [], []) := by
    unfold mantissaRuns
    unfold digitRun at run
    simp only [run, drop_length]
  obtain ⟨inf, nan, hex⟩ := startsWith_toDigits n.natAbs
  have nonempty : (Nat.toDigits 10 n.natAbs).isEmpty = false :=
    isEmpty_eq_false_iff.mpr Nat.toDigits_ne_nil
  unfold stod
  rw [signed_toString]
  simp only [inf, nan, hex, runs, nonempty, append_nil, Nat.ofDigitChars_ten_toDigits,
    Bool.false_eq_true, if_false, Bool.false_and, length_nil]
  unfold decimal
  by_cases none : n = 0
  · subst none
    exact ⟨⟨0.0, by decide⟩, rfl, by decide⟩
  rw [if_neg (by omega), dif_pos (by omega)]
  refine ⟨_, rfl, ?_⟩
  rw [Double.rank_ofInt]
  congr 1
  by_cases negative : n < 0
  · rw [if_pos (decide_eq_true negative)]
    omega
  · rw [if_neg (by simpa using negative)]
    omega

theorem decimal_ne_nan (negative : Bool) (digits : Nat) (exponent : Int) :
    decimal negative digits exponent ≠ some .nan := by
  unfold decimal
  split
  · cases negative <;> exact fun same => nomatch same
  · split
    · exact fun same => nomatch same
    · dsimp only
      split
      · rename_i inside
        unfold inRange at inside
        unfold Parsed.ofFloat
        split at inside
        · rename_i number
          rw [dif_pos number]
          exact fun same => nomatch same
        · exact absurd inside (by decide)
      · exact fun same => nomatch same

theorem hexadecimal_ne_nan (negative : Bool) (digits : Nat) (exponent : Int) :
    hexadecimal negative digits exponent ≠ some .nan := by
  unfold hexadecimal
  dsimp only
  split
  · cases negative <;> exact fun same => nomatch same
  · split
    · rename_i inside
      unfold inRange at inside
      unfold Parsed.ofFloat
      split at inside
      · rename_i number
        rw [dif_pos number]
        exact fun same => nomatch same
      · exact absurd inside (by decide)
    · exact fun same => nomatch same

/-- Only the word itself is read as NaN. -/
theorem stod_ne_nan {text : String} (word : startsWith "nan" (signed text.toList).2 = false) :
    stod text ≠ some .nan := by
  unfold stod
  dsimp only
  split
  · cases (signed text.toList).1 <;> exact fun same => nomatch same
  · rw [if_neg (by simp [word])]
    split
    · rename_i parsed found
      intro same
      subst same
      split at found
      · unfold hexText at found
        dsimp only at found
        split at found
        · exact nomatch found
        · exact hexadecimal_ne_nan _ _ _ (Option.some.inj found)
      · exact nomatch found
    · split
      · exact fun same => nomatch same
      · exact decimal_ne_nan _ _ _

/-- A printed double is never read back as NaN. -/
theorem stod_toFixed6_ne_nan (x : Double) : stod x.toFixed6 ≠ some .nan := by
  have sign : x.signText.toList =
      if decide (x.val.toModel.toBits.toNat / 2 ^ 63 = 1) then ['-'] else [] := by
    unfold Double.signText
    split <;> simp_all
  have heads : ∀ c ∈ "0123456789i".toList, c.toLower ≠ 'n' := checked (by decide)
  obtain ⟨c, rest, listed, printed⟩ : ∃ c rest, c ∈ "0123456789i".toList ∧
      x.toFixed6.toList = x.signText.toList ++ c :: rest := by
    unfold Double.toFixed6
    split
    · exact ⟨'i', ['n', 'f'], by decide, String.toList_append⟩
    · obtain ⟨c, rest, digits, listed⟩ :=
        toDigits_head (roundHalfEven (x.magnitude.1 * 10 ^ 6) x.magnitude.2 / 10 ^ 6)
      have widen : ∀ c ∈ "0123456789".toList, c ∈ "0123456789i".toList := checked (by decide)
      have whole : (toString (roundHalfEven (x.magnitude.1 * 10 ^ 6) x.magnitude.2 / 10 ^ 6)).toList =
          c :: rest := Nat.toList_repr.trans digits
      refine ⟨c, rest ++ ".".toList ++ (Double.padded 6
        (roundHalfEven (x.magnitude.1 * 10 ^ 6) x.magnitude.2 % 10 ^ 6)).toList, widen c listed, ?_⟩
      simp only [String.toList_append, whole, append_assoc, cons_append]
  apply stod_ne_nan
  rw [printed, sign, signed_printed _ rest listed]
  simp [startsWith, List.isPrefixOf, (heads c listed).symm]

/-! ## Numerals -/

/-- Decimal digits, at least one. -/
structure Digits where
  text : List Char
  nonempty : text ≠ []
  digits : ∀ c ∈ text, c.isDigit = true

def Digits.value (run : Digits) : Nat := Nat.ofDigitChars 10 run.text 0

/-- A sign, where there is one. -/
def signText : Option Bool → List Char
  | none => []
  | some true => ['-']
  | some false => ['+']

/-- The exponent of a numeral. -/
structure PowerOfTen where
  upper : Bool
  negative : Option Bool
  run : Digits

def PowerOfTen.text (e : PowerOfTen) : List Char :=
  (if e.upper then 'E' else 'e') :: (signText e.negative ++ e.run.text)

def PowerOfTen.value (e : PowerOfTen) : Int :=
  if e.negative = some true then -(e.run.value : Int) else e.run.value

/-- An integer in decimal. -/
structure IntNumeral where
  negative : Bool
  run : Digits

def IntNumeral.text (n : IntNumeral) : List Char :=
  (if n.negative then ['-'] else []) ++ n.run.text

def IntNumeral.value (n : IntNumeral) : Int :=
  if n.negative then -(n.run.value : Int) else n.run.value

/-- A number in decimal, with a fraction after a point and an exponent, where there are any. -/
structure DecimalNumeral where
  negative : Bool
  whole : Digits
  fraction : Option (List Char)
  exponent : Option PowerOfTen
  digits : ∀ run ∈ fraction, ∀ c ∈ run, c.isDigit = true

namespace DecimalNumeral

def pointText : Option (List Char) → List Char
  | none => []
  | some run => '.' :: run

def exponentText : Option PowerOfTen → List Char
  | none => []
  | some e => e.text

def text (n : DecimalNumeral) : List Char :=
  (if n.negative then ['-'] else []) ++
    (n.whole.text ++ (pointText n.fraction ++ exponentText n.exponent))

/-- The digits after the point. -/
def places (n : DecimalNumeral) : List Char := n.fraction.getD []

/-- The number, correctly rounded. -/
def value (n : DecimalNumeral) : Option Parsed :=
  decimal n.negative (Nat.ofDigitChars 10 (n.whole.text ++ n.places) 0)
    ((n.exponent.map PowerOfTen.value).getD 0 - n.places.length)

end DecimalNumeral

theorem takeWhile_digits {run rest : List Char} (digits : ∀ c ∈ run, c.isDigit = true)
    (stops : rest.head?.all (!·.isDigit) = true) :
    (run ++ rest).takeWhile Char.isDigit = run := by
  rw [takeWhile_append_of_pos digits]
  cases rest with
  | nil => rw [takeWhile_nil, append_nil]
  | cons c rest => rw [takeWhile_cons_of_neg (by simpa using stops), append_nil]

theorem Digits.head (run : Digits) :
    ∃ c rest, run.text = c :: rest ∧ c ∈ "0123456789".toList := by
  obtain ⟨text, nonempty, digits⟩ := run
  cases text with
  | nil => exact absurd rfl nonempty
  | cons c rest => exact ⟨c, rest, rfl, mem_digits (digits c mem_cons_self)⟩

theorem runValue_digits (run : Digits) : runValue run.text = some run.value := by
  have whole : digitRun run.text = run.text := by
    have taken := @takeWhile_digits run.text [] run.digits rfl
    rw [append_nil] at taken
    exact taken
  unfold runValue
  rw [whole]
  split
  · rename_i empty
    exact absurd empty run.nonempty
  · rfl

theorem digit_no_sign (listed : c ∈ "0123456789".toList) : c ≠ '-' ∧ c ≠ '+' := by
  have signs : ∀ c ∈ "0123456789".toList, c ≠ '-' ∧ c ≠ '+' := checked (by decide)
  exact signs c listed

/-- What matches on a sign takes a digit as no sign. -/
theorem match_digit {α : Sort*} (listed : c ∈ "0123456789".toList)
    (rest : List Char) (minus plus other : List Char → α) :
    (match c :: rest with
      | '-' :: rest => minus rest
      | '+' :: rest => plus rest
      | rest => other rest) = other (c :: rest) := by
  obtain ⟨notMinus, notPlus⟩ := digit_no_sign listed
  split
  · rename_i same
    exact absurd (List.cons.inj same).1 notMinus
  · rename_i same
    exact absurd (List.cons.inj same).1 notPlus
  · rfl

theorem exponentValue_text (e : PowerOfTen) :
    exponentValue (signText e.negative ++ e.run.text) = e.value := by
  obtain ⟨upper, negative, run⟩ := e
  have value := runValue_digits run
  unfold exponentValue PowerOfTen.value
  cases negative with
  | none =>
    obtain ⟨c, rest, text, listed⟩ := run.head
    rw [text] at value
    simp only [signText, nil_append, text]
    rw [match_digit listed rest]
    simp [value]
  | some negative => cases negative <;> simp [signText, value]

theorem fromCharsInt_range {text : String} {v : Int} (h : fromCharsInt text = some v) :
    -(2 ^ 63) ≤ v ∧ v < 2 ^ 63 := by
  unfold fromCharsInt at h
  split at h
  · obtain ⟨m, hm, rfl⟩ := map_eq_some_iff.mp h
    have small := of_decide_eq_true (filter_eq_some_iff.mp hm).2
    omega
  · obtain ⟨m, hm, rfl⟩ := map_eq_some_iff.mp h
    have small := of_decide_eq_true (filter_eq_some_iff.mp hm).2
    omega

/-- `from_chars` reads a whole integer. -/
theorem fromCharsInt_text (n : IntNumeral) {v : Int}
    (h : fromCharsInt (String.ofList n.text) = some v) : v = n.value := by
  obtain ⟨negative, run⟩ := n
  have value := runValue_digits run
  unfold fromCharsInt at h
  rw [String.toList_ofList] at h
  unfold IntNumeral.value
  cases negative with
  | true =>
    obtain ⟨m, hm, rfl⟩ := map_eq_some_iff.mp h
    have read : runValue run.text = some m := (filter_eq_some_iff.mp hm).1
    rw [if_pos rfl, Option.some.inj (value.symm.trans read)]
  | false =>
    obtain ⟨c, rest, text, listed⟩ := run.head
    simp only [IntNumeral.text, Bool.false_eq_true, if_false, nil_append, text] at h
    split at h
    · rename_i same
      exact absurd (List.cons.inj same).1 (digit_no_sign listed).1
    · rw [← text, value] at h
      obtain ⟨m, hm, rfl⟩ := map_eq_some_iff.mp h
      rw [if_neg Bool.false_ne_true, Option.some.inj (filter_eq_some_iff.mp hm).1]

namespace DecimalNumeral

section

variable (n : DecimalNumeral)

include n

/-- What follows the digits of a numeral is a point, an exponent or nothing. -/
theorem after_whole :
    ∀ c rest, pointText n.fraction ++ exponentText n.exponent = c :: rest →
      c.isDigit = false ∧ c.toLower ≠ 'x' := by
  intro c rest same
  cases fraction : n.fraction with
  | some run =>
    rw [fraction] at same
    cases same
    exact ⟨by decide, by decide⟩
  | none =>
    cases exponent : n.exponent with
    | none =>
      rw [fraction, exponent] at same
      cases same
    | some e =>
      rw [fraction, exponent] at same
      have letters : ∀ upper, (if upper = true then 'E' else 'e').isDigit = false ∧
          (if upper = true then 'E' else 'e').toLower ≠ 'x' := by decide
      cases same
      exact letters e.upper

theorem head_exponentText :
    (exponentText n.exponent).head?.all (!·.isDigit) = true := by
  cases n.exponent with
  | none => rfl
  | some e =>
    obtain ⟨upper, negative, run⟩ := e
    cases upper <;> rfl

/-- The digits of a numeral end in front of what follows them. -/
theorem head_rest :
    (pointText n.fraction ++ exponentText n.exponent).head?.all (!·.isDigit) = true := by
  cases rest : pointText n.fraction ++ exponentText n.exponent with
  | nil => rfl
  | cons c rest' => simp [(n.after_whole c rest' rest).1]

theorem mantissaRuns_text :
    mantissaRuns Char.isDigit (n.whole.text ++ (pointText n.fraction ++ exponentText n.exponent)) =
      (n.whole.text, n.places, exponentText n.exponent) := by
  have whole : (n.whole.text ++ (pointText n.fraction ++ exponentText n.exponent)).takeWhile
      Char.isDigit = n.whole.text := takeWhile_digits n.whole.digits n.head_rest
  unfold mantissaRuns
  simp only [whole, drop_left]
  cases fraction : n.fraction with
  | some run =>
    have digits := n.digits run fraction
    simp only [pointText, cons_append, takeWhile_digits digits n.head_exponentText,
      drop_left, places, fraction, getD_some]
  | none =>
    simp only [places, fraction]
    split
    · rename_i rest same
      cases exponent : n.exponent with
      | none =>
        rw [exponent] at same
        cases same
      | some e =>
        rw [exponent] at same
        obtain ⟨upper, negative, run⟩ := e
        cases upper <;> cases same
    · rfl

/-- No word starts with a digit, and no numeral is hexadecimal. -/
theorem startsWith_text (tail : List Char)
    (htail : tail = pointText n.fraction ++ exponentText n.exponent) :
    startsWith "inf" (n.whole.text ++ tail) = false ∧
      startsWith "nan" (n.whole.text ++ tail) = false ∧
      startsWith "0x" (n.whole.text ++ tail) = false := by
  obtain ⟨c, rest, text, listed⟩ := n.whole.head
  have heads : ∀ c ∈ "0123456789".toList, c.toLower ≠ 'i' ∧ c.toLower ≠ 'n' := checked (by decide)
  have seconds : ∀ c ∈ "0123456789".toList, c.toLower ≠ 'x' := checked (by decide)
  obtain ⟨i, m⟩ := heads c listed
  refine ⟨?_, ?_, ?_⟩
  · simp [startsWith, text, List.isPrefixOf, i.symm]
  · simp [startsWith, text, List.isPrefixOf, m.symm]
  · cases rest with
    | cons d rest =>
      have second : d ∈ "0123456789".toList := mem_digits (n.whole.digits d (by simp [text]))
      simp [startsWith, text, List.isPrefixOf, (seconds d second).symm]
    | nil =>
      cases shape : tail with
      | nil => simp [startsWith, text, List.isPrefixOf]
      | cons d tail' =>
        have notX := (n.after_whole d tail' (htail ▸ shape)).2
        simp [startsWith, text, List.isPrefixOf, notX.symm]

theorem exponent_text :
    (match exponentText n.exponent with
      | c :: rest => if c.toLower = 'e' then exponentValue rest else 0
      | [] => 0) = (n.exponent.map PowerOfTen.value).getD 0 := by
  cases n.exponent with
  | none => rfl
  | some e =>
    have value := exponentValue_text e
    obtain ⟨upper, negative, run⟩ := e
    cases upper <;> exact value

/-- `stod` reads a whole numeral. -/
theorem stod_text : stod (String.ofList n.text) = n.value := by
  obtain ⟨inf, nan, hex⟩ := n.startsWith_text _ rfl
  have sign : signed n.text = (n.negative,
      n.whole.text ++ (pointText n.fraction ++ exponentText n.exponent)) := by
    obtain ⟨c, rest, text, listed⟩ := n.whole.head
    have widen : ∀ c ∈ "0123456789".toList, c ∈ "0123456789i".toList := checked (by decide)
    unfold DecimalNumeral.text
    rw [text]
    exact signed_printed n.negative _ (widen c listed)
  have nonempty : n.whole.text.isEmpty = false :=
    isEmpty_eq_false_iff.mpr n.whole.nonempty
  unfold stod
  rw [String.toList_ofList, sign]
  simp only [inf, nan, hex, n.mantissaRuns_text, nonempty, n.exponent_text]
  rfl

end

end DecimalNumeral

end DFTracer.Math.NumberText
