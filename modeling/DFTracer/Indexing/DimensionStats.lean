/-
# Chunk dimension statistics

For each dimension of a chunk the index keeps the smallest and the largest value as texts, the
type they are ordered by, and for the fixed dimensions a dictionary of the distinct texts. An
empty text stands for "no value yet". The recorder orders texts with `from_chars`, a reader of the
statistics with `stoull` and its kin. `TextLe` is the order of the reader, in which every recorded
text lies between the two ends.
-/

import DFTracer.Math.NumberText
import DFTracer.Query.Ast
import Mathlib.Data.List.AList

namespace DFTracer.Indexing

open DFTracer.Math.Float64 DFTracer.Math.NumberText List

/-- `value_type`; `unset` is the empty string. -/
inductive ValueType where
  | unset
  | string
  | uint
  | int
  | double
  | mixed
deriving DecidableEq

/-- `is_numeric_type`. -/
def ValueType.isNumeric : ValueType → Bool
  | .uint | .int | .double => true
  | _ => false

/-- `join_value_types`: the type of a dimension holding values of both types. -/
def joinValueTypes (a b : ValueType) : ValueType :=
  if a = .unset ∨ a = b then b
  else if b = .unset then a
  else if a = .mixed ∨ b = .mixed then .mixed
  else if (a = .int ∨ a = .double) ∧ (b = .int ∨ b = .double) then .double
  else .mixed

/-- The value of a finite integral double that `int64_t` holds. -/
def int64Value (x : Double) : Option Int :=
  let (num, den) := x.magnitude
  let value : Int := if x.signText = "-" then -(num / den : Nat) else (num / den : Nat)
  if !x.val.isInf ∧ num % den = 0 ∧ -(2 ^ 63) ≤ value ∧ value < 2 ^ 63 then some value else none

/-- `canonical_number_text`: an integral value as a plain integer, any other with
six decimals. -/
def canonicalNumberText (x : Double) : String :=
  match int64Value x with
  | some value => toString value
  | none => x.toFixed6

/-- A scalar of the `args` of an event, as the index sees it. -/
inductive ArgValue where
  | int64 (value : Int64)
  | double (value : Double)
  | string (value : String)

namespace ArgValue

/-- The text a value is indexed by. -/
def text : ArgValue → String
  | .int64 n => toString n.toInt
  | .double x => canonicalNumberText x
  | .string s => s

def type : ArgValue → ValueType
  | .int64 _ => .int
  | .double _ => .double
  | .string _ => .string

end ArgValue

/-- `dimension_value_less`. A floating-point comparison throws when one of the
texts is no number. -/
def dimensionValueLess (a b : String) : ValueType → Option Bool
  | .uint => some ((fromCharsUint a).getD 0 < (fromCharsUint b).getD 0)
  | .int => some ((fromCharsInt a).getD 0 < (fromCharsInt b).getD 0)
  | .double => do
      let x ← stod a
      let y ← stod b
      some (x.lt y)
  | _ => some (a < b)

/-- `ChunkDimensionStats`. -/
structure ChunkDimensionStats where
  distinctCount : Nat
  minValue : String
  maxValue : String
  valueType : ValueType
  /-- The dictionary, once a value was observed. -/
  valueCounts : Option (AList fun _ : String => Nat)

namespace ChunkDimensionStats

/-- A dimension without values. -/
def empty (valueType : ValueType) : ChunkDimensionStats where
  distinctCount := 0
  minValue := ""
  maxValue := ""
  valueType := valueType
  valueCounts := none

/-- `observe`. The repeat of the last key is only counted, and so is any key the
dictionary has. -/
def observe (stats : ChunkDimensionStats) (value : String) : ChunkDimensionStats :=
  let counts := stats.valueCounts.getD ∅
  match counts.lookup value with
  | some count => { stats with valueCounts := some (counts.insert value (count + 1)) }
  | none =>
    let counts := counts.insert value 1
    let stats := { stats with valueCounts := some counts, distinctCount := counts.keys.length }
    match if stats.valueType = .uint then fromCharsUint value else none with
    | some val =>
      if stats.minValue = "" then { stats with minValue := value, maxValue := value }
      else
        { stats with
          minValue := if val < (fromCharsUint stats.minValue).getD 0 then value
            else stats.minValue
          maxValue := if (fromCharsUint stats.maxValue).getD 0 < val then value
            else stats.maxValue }
    | none =>
      { stats with
        minValue := if stats.minValue = "" ∨ value < stats.minValue then value
          else stats.minValue
        maxValue := if stats.maxValue = "" ∨ stats.maxValue < value then value
          else stats.maxValue }

/-- `observe_range_only`. -/
def observeRangeOnly (stats : ChunkDimensionStats) (value : Nat) : ChunkDimensionStats :=
  if stats.minValue = "" then
    { stats with
      distinctCount := stats.distinctCount + 1
      minValue := toString value
      maxValue := toString value }
  else
    { stats with
      distinctCount := stats.distinctCount + 1
      minValue := if value < (fromCharsUint stats.minValue).getD 0 then toString value
        else stats.minValue
      maxValue := if (fromCharsUint stats.maxValue).getD 0 < value then toString value
        else stats.maxValue }

/-- `observe_stats`. -/
def observeStats (stats : ChunkDimensionStats) (value : ArgValue) :
    Option ChunkDimensionStats :=
  if stats.valueType = .mixed then some stats
  else
    let joined := joinValueTypes stats.valueType value.type
    if joined = .mixed then
      some { stats with valueType := .mixed, minValue := "", maxValue := "" }
    else do
      let lower ← (if stats.minValue = "" then some true
        else dimensionValueLess value.text stats.minValue joined)
      let higher ← (if stats.maxValue = "" then some true
        else dimensionValueLess stats.maxValue value.text joined)
      some { stats with
        valueType := joined
        minValue := if lower then value.text else stats.minValue
        maxValue := if higher then value.text else stats.maxValue }

end ChunkDimensionStats

/-! ## The order of a value type -/

/-- The number a text of a numeric dimension reads as, for comparison only: a
double stands for itself through its rank. -/
def readKey (text : String) : ValueType → Option Int
  | .uint => (stoull text).map Int.ofNat
  | .int => stoll text
  | .double =>
    match stod text with
    | some (.number x) => some x.rank
    | _ => none
  | _ => none

/-- `a` is not above `b` as the readers of a value type read them. Texts of a
numeric dimension that do not read as numbers are not constrained. -/
def TextLe (a b : String) (type : ValueType) : Prop :=
  if type.isNumeric then ∀ x y, readKey a type = some x → readKey b type = some y → x ≤ y
  else a ≤ b

/-- The texts a value type is recorded with. -/
def Printed (a : String) : ValueType → Prop
  | .uint => ∃ n : Nat, n < 2 ^ 64 ∧ a = toString n
  | .int => ∃ n : Int, -(2 ^ 63) ≤ n ∧ n < 2 ^ 63 ∧ a = toString n
  | .double => stod a ≠ some .nan
  | _ => True

theorem readKey_uint {n : Nat} (fits : n < 2 ^ 64) : readKey (toString n) .uint = some (n : Int) := by
  simp only [readKey, stoull_toString fits]
  rfl

variable {n : Int} {type : ValueType} {c : String}

theorem readKey_int (low : -(2 ^ 63) ≤ n) (high : n < 2 ^ 63) :
    readKey (toString n) .int = some n :=
  stoll_toString low high

theorem readKey_double (low : -(2 ^ 63) ≤ n) (high : n < 2 ^ 63) :
    readKey (toString n) .double = some (intRank n) := by
  obtain ⟨x, read, rank⟩ := stod_toString low (by omega)
  simp only [readKey, read, rank]

theorem TextLe.refl (a : String) (type : ValueType) : TextLe a a type := by
  unfold TextLe
  split
  · intro x y hx hy
    exact Int.le_of_eq (Option.some.inj (hx.symm.trans hy))
  · exact String.le_refl a

variable {a b : String}

/-- The recorder and the readers of a numeric dimension agree on recorded texts. -/
theorem dimensionValueLess_spec {less : Bool}
    (numeric : type.isNumeric = true) (printedA : Printed a type) (printedB : Printed b type)
    (compared : dimensionValueLess a b type = some less) :
    ∃ x y, readKey a type = some x ∧ readKey b type = some y ∧ decide (x < y) = less := by
  cases type with
  | uint =>
    obtain ⟨n, hn, rfl⟩ := printedA
    obtain ⟨m, hm, rfl⟩ := printedB
    refine ⟨n, m, readKey_uint hn, readKey_uint hm, ?_⟩
    have same := Option.some.inj compared
    rw [fromCharsUint_toString hn, fromCharsUint_toString hm] at same
    rw [← same]
    simp
  | int =>
    obtain ⟨n, hn, hn', rfl⟩ := printedA
    obtain ⟨m, hm, hm', rfl⟩ := printedB
    refine ⟨n, m, readKey_int hn hn', readKey_int hm hm', ?_⟩
    have same := Option.some.inj compared
    rw [fromCharsInt_toString hn hn', fromCharsInt_toString hm hm'] at same
    exact same
  | double =>
    obtain ⟨x, readA, rest⟩ := Option.bind_eq_some_iff.mp compared
    obtain ⟨y, readB, same⟩ := Option.bind_eq_some_iff.mp rest
    cases x with
    | nan => exact absurd readA printedA
    | number x =>
      cases y with
      | nan => exact absurd readB printedB
      | number y =>
        refine ⟨x.rank, y.rank, by simp only [readKey, readA], by simp only [readKey, readB], ?_⟩
        rw [← Option.some.inj same]
        exact decide_eq_decide.mpr (Double.lt_iff x y).symm
  | string | unset | mixed => exact absurd numeric (by decide)

theorem dimensionValueLess_text
    (textual : ¬type.isNumeric = true) : dimensionValueLess a b type = some (decide (a < b)) := by
  cases type with
  | uint | int | double => exact absurd rfl textual
  | string | unset | mixed => rfl

/-- A text not below another in the recorder's order is not below it. -/
theorem TextLe.of_not_less (printedA : Printed a type)
    (printedB : Printed b type) (compared : dimensionValueLess a b type = some false) :
    TextLe b a type := by
  unfold TextLe
  split
  · rename_i numeric
    obtain ⟨x, y, readA, readB, less⟩ :=
      dimensionValueLess_spec numeric printedA printedB compared
    have notBelow := of_decide_eq_false less
    intro v w hv hw
    cases Option.some.inj (hv.symm.trans readB)
    cases Option.some.inj (hw.symm.trans readA)
    omega
  · rename_i textual
    rw [dimensionValueLess_text textual] at compared
    exact String.not_lt.mp (of_decide_eq_false (Option.some.inj compared))

/-- What is below the smallest is below everything recorded. -/
theorem TextLe.of_less_left (printedA : Printed a type)
    (printedB : Printed b type) (compared : dimensionValueLess a b type = some true)
    (above : TextLe b c type) : TextLe a c type := by
  unfold TextLe at above ⊢
  split
  · rename_i numeric
    rw [if_pos numeric] at above
    obtain ⟨x, y, readA, readB, less⟩ :=
      dimensionValueLess_spec numeric printedA printedB compared
    have below := of_decide_eq_true less
    intro v w hv hw
    have := above y w readB hw
    cases Option.some.inj (hv.symm.trans readA)
    omega
  · rename_i textual
    rw [if_neg textual] at above
    rw [dimensionValueLess_text textual] at compared
    have below := of_decide_eq_true (Option.some.inj compared)
    exact String.le_trans (String.not_lt.mp (String.lt_asymm below)) above

/-- What is above the largest is above everything recorded. -/
theorem TextLe.of_less_right (printedA : Printed a type)
    (printedB : Printed b type) (compared : dimensionValueLess b a type = some true)
    (below : TextLe c b type) : TextLe c a type := by
  unfold TextLe at below ⊢
  split
  · rename_i numeric
    rw [if_pos numeric] at below
    obtain ⟨x, y, readB, readA, less⟩ :=
      dimensionValueLess_spec numeric printedB printedA compared
    have above := of_decide_eq_true less
    intro v w hv hw
    have := below v x hv readB
    cases Option.some.inj (hw.symm.trans readA)
    omega
  · rename_i textual
    rw [if_neg textual] at below
    rw [dimensionValueLess_text textual] at compared
    have above := of_decide_eq_true (Option.some.inj compared)
    exact String.le_trans below (String.not_lt.mp (String.lt_asymm above))

/-! ## The two ends -/

/-- The two ends of a dimension bound every text seen, and are texts seen. -/
structure Ends (type : ValueType) (low high : String) (seen : List String) : Prop where
  low_le : ∀ t ∈ seen, low ≠ "" ∧ TextLe low t type
  le_high : ∀ t ∈ seen, high ≠ "" ∧ TextLe t high type
  low_seen : low ≠ "" → low ∈ seen
  high_seen : high ≠ "" → high ∈ seen

namespace Ends

variable {type : ValueType} {low high : String} {seen : List String} {text : String}

theorem empty (type : ValueType) : Ends type "" "" [] where
  low_le := fun _ listed => absurd listed not_mem_nil
  le_high := fun _ listed => absurd listed not_mem_nil
  low_seen := fun absent => absurd rfl absent
  high_seen := fun absent => absurd rfl absent

/-- One more text: an end moves to it when it was not set, or when the recorder
finds the text beyond it. -/
theorem extend (ends : Ends type low high seen) (lower higher : Bool)
    (printed : ∀ t ∈ text :: seen, Printed t type) (nonempty : text ≠ "")
    (hlow : low ≠ "" → dimensionValueLess text low type = some lower)
    (unsetLow : low = "" → lower = true)
    (hhigh : high ≠ "" → dimensionValueLess high text type = some higher)
    (unsetHigh : high = "" → higher = true) :
    Ends type (if lower then text else low) (if higher then text else high) (text :: seen) := by
  have printedText := printed text mem_cons_self
  refine ⟨fun t listed => ?_, fun t listed => ?_, fun _ => ?_, fun _ => ?_⟩
  · cases lower with
    | true =>
      refine ⟨nonempty, ?_⟩
      rcases mem_cons.mp listed with rfl | earlier
      · exact TextLe.refl _ _
      · obtain ⟨present, below⟩ := ends.low_le t earlier
        have printedLow := printed low (mem_cons_of_mem _ (ends.low_seen present))
        exact .of_less_left printedText printedLow (hlow present) below
    | false =>
      have present : low ≠ "" := fun absent => absurd (unsetLow absent) (by decide)
      refine ⟨present, ?_⟩
      rcases mem_cons.mp listed with rfl | earlier
      · have printedLow := printed low (mem_cons_of_mem _ (ends.low_seen present))
        exact .of_not_less printedText printedLow (hlow present)
      · exact (ends.low_le t earlier).2
  · cases higher with
    | true =>
      refine ⟨nonempty, ?_⟩
      rcases mem_cons.mp listed with rfl | earlier
      · exact TextLe.refl _ _
      · obtain ⟨present, above⟩ := ends.le_high t earlier
        have printedHigh := printed high (mem_cons_of_mem _ (ends.high_seen present))
        exact .of_less_right printedText printedHigh (hhigh present) above
    | false =>
      have present : high ≠ "" := fun absent => absurd (unsetHigh absent) (by decide)
      refine ⟨present, ?_⟩
      rcases mem_cons.mp listed with rfl | earlier
      · have printedHigh := printed high (mem_cons_of_mem _ (ends.high_seen present))
        exact .of_not_less printedHigh printedText (hhigh present)
      · exact (ends.le_high t earlier).2
  · cases lower with
    | true => exact mem_cons_self
    | false =>
      exact mem_cons_of_mem _
        (ends.low_seen fun absent => absurd (unsetLow absent) (by decide))
  · cases higher with
    | true => exact mem_cons_self
    | false =>
      exact mem_cons_of_mem _
        (ends.high_seen fun absent => absurd (unsetHigh absent) (by decide))

/-- A text seen before moves no end. -/
theorem repeated (ends : Ends type low high seen) (again : text ∈ seen) :
    Ends type low high (text :: seen) where
  low_le := fun t listed => ends.low_le t ((mem_cons.mp listed).elim (· ▸ again) id)
  le_high := fun t listed => ends.le_high t ((mem_cons.mp listed).elim (· ▸ again) id)
  low_seen := fun present => mem_cons_of_mem _ (ends.low_seen present)
  high_seen := fun present => mem_cons_of_mem _ (ends.high_seen present)

/-- The ends of integers are the ends of the same integers read as doubles. -/
theorem widen (ends : Ends .int low high seen) (printed : ∀ t ∈ seen, Printed t .int) :
    Ends .double low high seen := by
  have ordered : ∀ {a b}, a ∈ seen → b ∈ seen → TextLe a b .int → TextLe a b .double := by
    intro a b seenA seenB le v w hv hw
    obtain ⟨n, hn, hn', rfl⟩ := printed a seenA
    obtain ⟨m, hm, hm', rfl⟩ := printed b seenB
    cases Option.some.inj (hv.symm.trans (readKey_double hn hn'))
    cases Option.some.inj (hw.symm.trans (readKey_double hm hm'))
    exact intRank_mono (le n m (readKey_int hn hn') (readKey_int hm hm'))
  refine ⟨fun t listed => ?_, fun t listed => ?_, ends.low_seen, ends.high_seen⟩
  · obtain ⟨present, le⟩ := ends.low_le t listed
    exact ⟨present, ordered (ends.low_seen present) listed le⟩
  · obtain ⟨present, le⟩ := ends.le_high t listed
    exact ⟨present, ordered listed (ends.high_seen present) le⟩

end Ends

namespace ChunkDimensionStats

/-- What a dimension with a dictionary knows of the texts observed. -/
structure Dictionary (stats : ChunkDimensionStats) (seen : List String) : Prop where
  ends : Ends stats.valueType stats.minValue stats.maxValue seen
  counts : ∀ t, t ∈ stats.valueCounts.getD ∅ ↔ t ∈ seen

theorem dictionary_empty (type : ValueType) : (empty type).Dictionary [] where
  ends := .empty type
  counts := fun t => by simp [empty]

/-- The value type of a fixed dimension, whose texts it records. -/
def FixedText (type : ValueType) (text : String) : Prop :=
  text ≠ "" ∧ (type = .string ∨ type = .uint ∧ Printed text .uint)

@[simp] theorem valueType_observe (stats : ChunkDimensionStats) (value : String) :
    (stats.observe value).valueType = stats.valueType := by
  unfold observe
  dsimp only
  split
  · rfl
  · split
    · split <;> rfl
    · rfl

variable {stats : ChunkDimensionStats} {seen : List String} {n : Int} {value : ArgValue}
  {values : List ArgValue}

/-- `observe` keeps the ends and the dictionary of a fixed dimension. -/
theorem Dictionary.observe (recorded : stats.Dictionary seen) {value : String}
    (fixed : ∀ t ∈ value :: seen, FixedText stats.valueType t) :
    (stats.observe value).Dictionary (value :: seen) := by
  obtain ⟨nonempty, kind⟩ := fixed value mem_cons_self
  have printed : ∀ t ∈ value :: seen, Printed t stats.valueType := by
    intro t listed
    rcases (fixed t listed).2 with isString | ⟨isUint, printed⟩
    · rw [isString]
      trivial
    · rw [isUint]
      exact printed
  have member : ∀ t (counts : AList fun _ : String => Nat) n,
      (∀ t, t ∈ counts ↔ t ∈ seen) → (t ∈ counts.insert value n ↔ t ∈ value :: seen) := by
    intro t counts n same
    rw [AList.mem_insert, mem_cons, same t]
  unfold ChunkDimensionStats.observe
  dsimp only
  split
  · rename_i count found
    have again : value ∈ seen := by
      rw [← recorded.counts value, ← AList.lookup_isSome, found]
      rfl
    exact ⟨recorded.ends.repeated again, fun t => member t _ _ recorded.counts⟩
  · rcases kind with isString | ⟨isUint, n, fits, rfl⟩
    · rw [if_neg (by rw [isString]; decide)]
      refine ⟨?_, fun t => member t _ _ recorded.counts⟩
      have ends := recorded.ends.extend
        (decide (stats.minValue = "" ∨ value < stats.minValue))
        (decide (stats.maxValue = "" ∨ stats.maxValue < value)) printed nonempty
        (fun present => by simp [isString, dimensionValueLess, present])
        (fun absent => by simp [absent])
        (fun present => by simp [isString, dimensionValueLess, present])
        (fun absent => by simp [absent])
      simpa only [decide_eq_true_eq] using ends
    · rw [if_pos isUint, fromCharsUint_toString fits]
      dsimp only
      split
      · rename_i absent
        refine ⟨?_, fun t => member t _ _ recorded.counts⟩
        have unset : stats.maxValue = "" := by
          by_contra present
          have earlier := recorded.ends.high_seen present
          exact (recorded.ends.low_le _ earlier).1 absent
        exact recorded.ends.extend true true printed nonempty
          (fun present => absurd absent present) (fun _ => rfl)
          (fun present => absurd unset present) (fun _ => rfl)
      · rename_i present
        refine ⟨?_, fun t => member t _ _ recorded.counts⟩
        have ends := recorded.ends.extend
          (decide (n < (fromCharsUint stats.minValue).getD 0))
          (decide ((fromCharsUint stats.maxValue).getD 0 < n)) printed nonempty
          (fun _ => by
            rw [isUint, dimensionValueLess, fromCharsUint_toString fits, Option.getD_some])
          (fun absent => absurd absent present)
          (fun _ => by
            rw [isUint, dimensionValueLess, fromCharsUint_toString fits, Option.getD_some])
          (fun absent => by
            have earlier := recorded.ends.low_seen present
            exact absurd absent (recorded.ends.le_high _ earlier).1)
        simpa only [decide_eq_true_eq] using ends

theorem ends_observeRangeOnly (ends : Ends .uint stats.minValue stats.maxValue seen)
    (printed : ∀ t ∈ seen, Printed t .uint) {value : Nat} (fits : value < 2 ^ 64) :
    Ends .uint (stats.observeRangeOnly value).minValue (stats.observeRangeOnly value).maxValue
      (toString value :: seen) := by
  have allPrinted : ∀ t ∈ toString value :: seen, Printed t .uint := by
    intro t listed
    rcases mem_cons.mp listed with rfl | earlier
    · exact ⟨value, fits, rfl⟩
    · exact printed t earlier
  have nonempty : toString value ≠ "" := by
    intro empty
    have digits : Nat.toDigits 10 value = [] :=
      Nat.toList_repr.symm.trans (congrArg String.toList empty)
    exact Nat.toDigits_ne_nil digits
  unfold observeRangeOnly
  split
  · rename_i absent
    have unset : stats.maxValue = "" := by
      by_contra present
      exact (ends.low_le _ (ends.high_seen present)).1 absent
    exact ends.extend true true allPrinted nonempty
      (fun present => absurd absent present) (fun _ => rfl)
      (fun present => absurd unset present) (fun _ => rfl)
  · rename_i present
    have result := ends.extend
      (decide (value < (fromCharsUint stats.minValue).getD 0))
      (decide ((fromCharsUint stats.maxValue).getD 0 < value)) allPrinted nonempty
      (fun _ => by rw [dimensionValueLess, fromCharsUint_toString fits, Option.getD_some])
      (fun absent => absurd absent present)
      (fun _ => by rw [dimensionValueLess, fromCharsUint_toString fits, Option.getD_some])
      (fun absent => absurd absent (ends.le_high _ (ends.low_seen present)).1)
    simpa only [decide_eq_true_eq] using result

/-! ## Dimensions of typed values -/

/-- The value type of a dimension describes all its values. -/
def Typed (values : List ArgValue) : ValueType → Prop
  | .unset => values = []
  | .string => ∀ v ∈ values, v.type = .string
  | .int => ∀ v ∈ values, v.type = .int
  | .double => ∀ v ∈ values, v.type ≠ .string
  | .mixed => True
  | .uint => False

theorem printed_int64 (n : Int64) : Printed (toString n.toInt) .int :=
  ⟨n.toInt, n.le_toInt, n.toInt_lt, rfl⟩

theorem stod_int_ne_nan (low : -(2 ^ 63) ≤ n) (high : n < 2 ^ 63) :
    stod (toString n) ≠ some .nan := by
  obtain ⟨x, read, _⟩ := stod_toString low (by omega)
  rw [read]
  exact fun same => nomatch same

theorem int64Value_bounds {x : Double} (integral : int64Value x = some n) :
    -(2 ^ 63) ≤ n ∧ n < 2 ^ 63 := by
  obtain ⟨⟨_, _, low, high⟩, same⟩ := Option.ite_none_right_eq_some.mp integral
  rw [← Option.some.inj same]
  exact ⟨low, high⟩

/-- A number text is never read back as NaN. -/
theorem stod_text_ne_nan (number : value.type ≠ .string) :
    stod value.text ≠ some .nan := by
  cases value with
  | int64 n => exact stod_int_ne_nan n.le_toInt n.toInt_lt
  | double x =>
    change stod (canonicalNumberText x) ≠ _
    unfold canonicalNumberText
    cases integral : int64Value x with
    | some n => exact stod_int_ne_nan (int64Value_bounds integral).1 (int64Value_bounds integral).2
    | none => exact stod_toFixed6_ne_nan x
  | string _ => exact absurd rfl number

/-- The values of a typed dimension have the texts of its type. -/
theorem Typed.printed {type : ValueType} (typed : Typed values type) :
    ∀ t ∈ values.map ArgValue.text, Printed t type := by
  intro t listed
  obtain ⟨value, seen, rfl⟩ := mem_map.mp listed
  cases type with
  | unset | string | mixed => trivial
  | uint => exact typed.elim
  | int =>
    have isInt := typed value seen
    cases value with
    | int64 n => exact printed_int64 n
    | double _ | string _ => exact nomatch isInt
  | double => exact stod_text_ne_nan (typed value seen)

/-- What a dimension without a dictionary knows of the values observed. An empty
string among them makes the ends unreliable, since it reads as "not set". -/
structure Bounded (stats : ChunkDimensionStats) (values : List ArgValue) : Prop where
  typed : Typed values stats.valueType
  ends : stats.valueType ≠ .mixed → (∀ v ∈ values, v.text ≠ "") →
    Ends stats.valueType stats.minValue stats.maxValue (values.map ArgValue.text)
  cleared : stats.valueType = .mixed → stats.minValue = "" ∧ stats.maxValue = ""
  counts : stats.valueCounts = none

theorem bounded_empty : (empty .unset).Bounded [] where
  typed := rfl
  ends := fun _ _ => .empty .unset
  cleared := fun mixed => nomatch mixed
  counts := rfl

/-- What the joined type says: the earlier values and the new one fit it, and the
ends of the earlier values are ends in it. -/
theorem joined_spec (bounded : stats.Bounded values) (value : ArgValue)
    (unmixed : joinValueTypes stats.valueType value.type ≠ .mixed) :
    Typed (value :: values) (joinValueTypes stats.valueType value.type) ∧
      ((∀ v ∈ values, v.text ≠ "") → Ends (joinValueTypes stats.valueType value.type)
        stats.minValue stats.maxValue (values.map ArgValue.text)) := by
  obtain ⟨typed, ends, _, _⟩ := bounded
  have cons : ∀ {p : ArgValue → Prop}, p value → (∀ v ∈ values, p v) → ∀ v ∈ value :: values, p v :=
    fun head tail => forall_mem_cons.mpr ⟨head, tail⟩
  cases old : stats.valueType with
  | uint =>
    rw [old] at typed
    exact typed.elim
  | mixed =>
    rw [old] at unmixed
    cases value <;> exact absurd rfl unmixed
  | unset =>
    rw [old] at typed ends
    obtain rfl : values = [] := typed
    refine ⟨?_, fun nonempty => ?_⟩
    · cases value with
      | int64 _ => exact cons rfl (fun _ listed => absurd listed not_mem_nil)
      | double _ => exact cons (fun same => nomatch same) (fun _ listed => absurd listed not_mem_nil)
      | string _ => exact cons rfl (fun _ listed => absurd listed not_mem_nil)
    · have bare := ends (fun same => nomatch same) nonempty
      have low : stats.minValue = "" := by
        by_contra present
        exact absurd (bare.low_seen present) not_mem_nil
      have high : stats.maxValue = "" := by
        by_contra present
        exact absurd (bare.high_seen present) not_mem_nil
      rw [low, high]
      exact .empty _
  | string =>
    rw [old] at typed ends unmixed
    cases value with
    | string _ => exact ⟨cons rfl typed, ends (fun same => nomatch same)⟩
    | int64 _ | double _ => exact absurd rfl unmixed
  | int =>
    rw [old] at typed ends unmixed
    cases value with
    | string _ => exact absurd rfl unmixed
    | int64 _ => exact ⟨cons rfl typed, ends (fun same => nomatch same)⟩
    | double _ =>
      have numbers : ∀ v ∈ values, v.type ≠ .string := fun v listed same =>
        nomatch (typed v listed).symm.trans same
      refine ⟨cons (fun same => nomatch same) numbers, fun nonempty => ?_⟩
      exact (ends (fun same => nomatch same) nonempty).widen (Typed.printed typed)
  | double =>
    rw [old] at typed ends unmixed
    cases value with
    | string _ => exact absurd rfl unmixed
    | int64 _ | double _ =>
      exact ⟨cons (fun same => nomatch same) typed, ends (fun same => nomatch same)⟩

/-- `observe_stats` keeps the ends, as long as it does not throw. -/
theorem Bounded.observeStats {stats' : ChunkDimensionStats} (bounded : stats.Bounded values)
    (observed : stats.observeStats value = some stats') : stats'.Bounded (value :: values) := by
  unfold ChunkDimensionStats.observeStats at observed
  split at observed
  · rename_i mixed
    obtain rfl := Option.some.inj observed
    refine ⟨?_, fun unmixed => absurd mixed unmixed, bounded.cleared, bounded.counts⟩
    rw [mixed]
    trivial
  · dsimp only at observed
    split at observed
    · obtain rfl := Option.some.inj observed
      exact ⟨trivial, fun unmixed => absurd rfl unmixed, fun _ => ⟨rfl, rfl⟩, bounded.counts⟩
    · rename_i unmixed
      obtain ⟨lower, hlow, observed⟩ := Option.bind_eq_some_iff.mp observed
      obtain ⟨higher, hhigh, observed⟩ := Option.bind_eq_some_iff.mp observed
      obtain rfl := Option.some.inj observed
      obtain ⟨typed, ends⟩ := joined_spec bounded value unmixed
      refine ⟨typed, fun _ nonempty => ?_, fun mixed => absurd mixed unmixed, bounded.counts⟩
      obtain ⟨here, earlier⟩ := forall_mem_cons.mp nonempty
      refine (ends earlier).extend lower higher typed.printed here ?_ ?_ ?_ ?_
      · intro present
        rw [if_neg present] at hlow
        exact hlow
      · intro absent
        rw [if_pos absent] at hlow
        exact (Option.some.inj hlow).symm
      · intro present
        rw [if_neg present] at hhigh
        exact hhigh
      · intro absent
        rw [if_pos absent] at hhigh
        exact (Option.some.inj hhigh).symm

end ChunkDimensionStats

end DFTracer.Indexing
