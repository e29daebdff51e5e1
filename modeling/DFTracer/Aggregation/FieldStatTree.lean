/-
# Running statistics of one field

A field's statistic keeps the number of values, their sum, extremes and power sums as
doubles. While all values are integers of one signedness it also keeps sum and
extremes as integers, as 64-bit patterns read in that signedness; a float value, or
two signednesses, end that.
-/

import DFTracer.Math.FloatSum
import Mathlib.Data.Int.ModEq
import Mathlib.Data.UInt

namespace DFTracer.Aggregation

open List

abbrev Bytes := List UInt8

/-- The domain a field's values live in. -/
inductive FieldStatDomain
  | I64
  | U64
  | F64
  deriving DecidableEq, Repr

/-- One field's running statistic. `esum`, `emin` and `emax` are the bit patterns of
the exact values, valid when the domain is not `F64`. -/
structure FieldStat where
  n : UInt64 := 0
  sum : Float := 0
  min : Float := 0
  max : Float := 0
  domain : FieldStatDomain := .F64
  esum : UInt64 := 0
  emin : UInt64 := 0
  emax : UInt64 := 0
  sumsq : Float := 0
  m3 : Float := 0
  m4 : Float := 0

namespace FieldStat

/-- Add a value to the double statistics. -/
def addDouble (s : FieldStat) (x : Float) : FieldStat :=
  { s with
    min := if s.n = 0 then x else if x < s.min then x else s.min
    max := if s.n = 0 then x else if s.max < x then x else s.max
    sum := s.sum + x
    sumsq := s.sumsq + x * x
    m3 := s.m3 + x * x * x
    m4 := s.m4 + (x * x) * (x * x)
    n := s.n + 1 }

/-- A float value makes the field non-integral. -/
def addF64 (s : FieldStat) (x : Float) : FieldStat :=
  { s.addDouble x with domain := .F64 }

/-- Add an unsigned integer, exactly while all values are unsigned integers. -/
def addU64 (s : FieldStat) (x : UInt64) : FieldStat :=
  if s.n = 0 then { s.addDouble x.toFloat with domain := .U64, esum := x, emin := x, emax := x }
  else if s.domain = .U64 then
    { s.addDouble x.toFloat with
      esum := s.esum + x
      emin := if x < s.emin then x else s.emin
      emax := if s.emax < x then x else s.emax }
  else { s.addDouble x.toFloat with domain := .F64 }

/-- Add a signed integer, exactly while all values are signed integers. -/
def addI64 (s : FieldStat) (x : Int64) : FieldStat :=
  if s.n = 0 then
    { s.addDouble x.toFloat with
      domain := .I64, esum := x.toUInt64, emin := x.toUInt64, emax := x.toUInt64 }
  else if s.domain = .I64 then
    { s.addDouble x.toFloat with
      esum := s.esum + x.toUInt64
      emin := if x < s.emin.toInt64 then x.toUInt64 else s.emin
      emax := if s.emax.toInt64 < x then x.toUInt64 else s.emax }
  else { s.addDouble x.toFloat with domain := .F64 }

/-- The exact values of two statistics of one integer domain. -/
def mergeExact (s o : FieldStat) : FieldStat :=
  if s.domain ≠ o.domain ∨ s.domain = .F64 then { s with domain := .F64 }
  else if s.domain = .I64 then
    { s with
      esum := s.esum + o.esum
      emin := if o.emin.toInt64 < s.emin.toInt64 then o.emin else s.emin
      emax := if s.emax.toInt64 < o.emax.toInt64 then o.emax else s.emax }
  else
    { s with
      esum := s.esum + o.esum
      emin := if o.emin < s.emin then o.emin else s.emin
      emax := if s.emax < o.emax then o.emax else s.emax }

/-- Merge another statistic of the field. -/
def merge (s o : FieldStat) : FieldStat :=
  if o.n = 0 then s
  else if s.n = 0 then o
  else
    mergeExact
      { s with
        min := if o.min < s.min then o.min else s.min
        max := if s.max < o.max then o.max else s.max
        sum := s.sum + o.sum
        sumsq := s.sumsq + o.sumsq
        m3 := s.m3 + o.m3
        m4 := s.m4 + o.m4
        n := s.n + o.n }
      o

end FieldStat

/-! ## Statistics that are added to and merged

A statistic is built by adding values, with or without the higher moments, and by merging
statistics. Whatever the order and the grouping, it counts its values, it says of which integer
type all of them are, and while there is one it has their sum, up to wrapping, and their extremes. -/

/-- A value with the domain it comes from. -/
inductive FieldNum where
  | i64 (v : Int64)
  | u64 (v : UInt64)
  | f64 (v : Float)

namespace FieldNum

def domain : FieldNum → FieldStatDomain
  | i64 _ => .I64
  | u64 _ => .U64
  | f64 _ => .F64

def asDouble : FieldNum → Float
  | i64 v => v.toFloat
  | u64 v => v.toFloat
  | f64 v => v

/-- The bit pattern of an integer. -/
def bits : FieldNum → UInt64
  | i64 v => v.toUInt64
  | u64 v => v
  | f64 _ => 0

end FieldNum

namespace FieldStat

/-- Add a value to the double statistics but the higher moments. -/
def addLight (s : FieldStat) (x : Float) : FieldStat :=
  { s with
    min := if s.n = 0 then x else if x < s.min then x else s.min
    max := if s.n = 0 then x else if s.max < x then x else s.max
    sum := s.sum + x
    n := s.n + 1 }

/-- The double statistics of a value, with the moments on demand. -/
def addMoments (moments : Bool) (s : FieldStat) (x : Float) : FieldStat :=
  if moments then s.addDouble x else s.addLight x

def addWithF64 (moments : Bool) (s : FieldStat) (x : Float) : FieldStat :=
  { s.addMoments moments x with domain := .F64 }

def addWithI64 (moments : Bool) (s : FieldStat) (x : Int64) : FieldStat :=
  let first := s.n = 0
  let t := s.addMoments moments x.toFloat
  if first then
    { t with domain := .I64, esum := x.toUInt64, emin := x.toUInt64, emax := x.toUInt64 }
  else if s.domain = .I64 then
    { t with
      esum := s.esum + x.toUInt64
      emin := if x < s.emin.toInt64 then x.toUInt64 else s.emin
      emax := if s.emax.toInt64 < x then x.toUInt64 else s.emax }
  else { t with domain := .F64 }

def addWithU64 (moments : Bool) (s : FieldStat) (x : UInt64) : FieldStat :=
  let first := s.n = 0
  let t := s.addMoments moments x.toFloat
  if first then { t with domain := .U64, esum := x, emin := x, emax := x }
  else if s.domain = .U64 then
    { t with
      esum := s.esum + x
      emin := if x < s.emin then x else s.emin
      emax := if s.emax < x then x else s.emax }
  else { t with domain := .F64 }

/-- Add a value of any domain. -/
def add (s : FieldStat) : FieldNum → FieldStat
  | .i64 v => s.addI64 v
  | .u64 v => s.addU64 v
  | .f64 v => s.addF64 v

/-- The overload of a value, with the moments on demand. -/
def addWith (moments : Bool) (s : FieldStat) : FieldNum → FieldStat
  | .i64 v => s.addWithI64 moments v
  | .u64 v => s.addWithU64 moments v
  | .f64 v => s.addWithF64 moments v

end FieldStat

/-- How a statistic comes about. -/
inductive StatTree where
  | empty
  | add (t : StatTree) (v : FieldNum)
  | addWith (moments : Bool) (t : StatTree) (v : FieldNum)
  | merge (t other : StatTree)

namespace StatTree

/-- The statistic. -/
def build : StatTree → FieldStat
  | empty => {}
  | add t v => t.build.add v
  | addWith moments t v => t.build.addWith moments v
  | merge t other => t.build.merge other.build

/-- The values that were added anywhere. -/
def values : StatTree → List FieldNum
  | empty => []
  | add t v => t.values ++ [v]
  | addWith _ t v => t.values ++ [v]
  | merge t other => t.values ++ other.values

end StatTree

namespace FieldStatDomain

/-- The order of bit patterns that are read in a domain. -/
def below (domain : FieldStatDomain) (a b : UInt64) : Prop :=
  if domain = .I64 then a.toInt64 < b.toInt64 else a < b

instance (domain : FieldStatDomain) (a b : UInt64) : Decidable (domain.below a b) :=
  inferInstanceAs (Decidable (if domain = .I64 then a.toInt64 < b.toInt64 else a < b))

variable {domain : FieldStatDomain} {a b c : UInt64}

theorem below_irrefl : ¬ domain.below a a := by
  rw [below]
  split
  · exact Int64.lt_irrefl
  · exact UInt64.lt_irrefl a

theorem not_below_trans (first : ¬ domain.below b a) (second : ¬ domain.below c b) :
    ¬ domain.below c a := by
  rw [below] at *
  split at first
  · rename_i signed
    rw [if_pos signed] at *
    exact Int64.not_lt.mpr (Int64.le_trans (Int64.not_lt.mp first) (Int64.not_lt.mp second))
  · rename_i unsigned
    rw [if_neg unsigned] at *
    exact UInt64.not_lt.mpr (UInt64.le_trans (UInt64.not_lt.mp first) (UInt64.not_lt.mp second))

theorem not_below_of_below (less : domain.below a b) : ¬ domain.below b a := by
  rw [below] at *
  split at less
  · rename_i signed
    rw [if_pos signed]
    exact Int64.not_lt.mpr (Int64.le_of_lt less)
  · rename_i unsigned
    rw [if_neg unsigned]
    exact UInt64.not_lt.mpr (UInt64.le_of_lt less)

end FieldStatDomain

/-- The pattern is one of values, and none of them is below it. -/
structure Least (domain : FieldStatDomain) (values : List FieldNum) (m : UInt64) : Prop where
  reached : ∃ v ∈ values, v.bits = m
  beyond : ∀ v ∈ values, ¬ domain.below v.bits m

/-- The pattern is one of values, and is below none of them. -/
structure Greatest (domain : FieldStatDomain) (values : List FieldNum) (m : UInt64) : Prop where
  reached : ∃ v ∈ values, v.bits = m
  beyond : ∀ v ∈ values, ¬ domain.below m v.bits

section Extremes

variable {domain : FieldStatDomain} {values rest : List FieldNum} {m k : UInt64}

theorem Least.singleton (v : FieldNum) : Least domain [v] v.bits where
  reached := ⟨v, mem_singleton_self v, rfl⟩
  beyond := by
    intro w listed
    rw [mem_singleton.mp listed]
    exact FieldStatDomain.below_irrefl

theorem Greatest.singleton (v : FieldNum) : Greatest domain [v] v.bits where
  reached := ⟨v, mem_singleton_self v, rfl⟩
  beyond := by
    intro w listed
    rw [mem_singleton.mp listed]
    exact FieldStatDomain.below_irrefl

theorem Least.append (least : Least domain values m) (least' : Least domain rest k) :
    Least domain (values ++ rest) (if domain.below k m then k else m) := by
  split
  · rename_i less
    refine ⟨least'.reached.imp fun v found => ⟨mem_append_right _ found.1, found.2⟩, ?_⟩
    intro v listed
    rcases mem_append.mp listed with old | new
    · exact FieldStatDomain.not_below_trans (FieldStatDomain.not_below_of_below less)
        (least.beyond v old)
    · exact least'.beyond v new
  · rename_i notLess
    refine ⟨least.reached.imp fun v found => ⟨mem_append_left _ found.1, found.2⟩, ?_⟩
    intro v listed
    rcases mem_append.mp listed with old | new
    · exact least.beyond v old
    · exact FieldStatDomain.not_below_trans notLess (least'.beyond v new)

theorem Greatest.append (greatest : Greatest domain values m)
    (greatest' : Greatest domain rest k) :
    Greatest domain (values ++ rest) (if domain.below m k then k else m) := by
  split
  · rename_i less
    refine ⟨greatest'.reached.imp fun v found => ⟨mem_append_right _ found.1, found.2⟩, ?_⟩
    intro v listed
    rcases mem_append.mp listed with old | new
    · exact FieldStatDomain.not_below_trans (greatest.beyond v old)
        (FieldStatDomain.not_below_of_below less)
    · exact greatest'.beyond v new
  · rename_i notLess
    refine ⟨greatest.reached.imp fun v found => ⟨mem_append_left _ found.1, found.2⟩, ?_⟩
    intro v listed
    rcases mem_append.mp listed with old | new
    · exact greatest.beyond v old
    · exact FieldStatDomain.not_below_trans (greatest'.beyond v new) notLess

end Extremes

/-- A statistic counts values. It has the integer type that all of them have, and while there is
one it has their sum and their extremes. -/
structure Keeps (s : FieldStat) (values : List FieldNum) : Prop where
  count : s.n.toNat = values.length
  domain : values ≠ [] → ∀ d, d ≠ .F64 → (s.domain = d ↔ ∀ v ∈ values, v.domain = d)
  exact : values ≠ [] → ∀ d, d ≠ .F64 → (∀ v ∈ values, v.domain = d) →
    s.esum = (values.map FieldNum.bits).sum ∧ Least d values s.emin ∧ Greatest d values s.emax

/-! ### One step -/

/-- A statistic of one value. -/
structure Single (s : FieldStat) (v : FieldNum) : Prop where
  n : s.n = 1
  domain : s.domain = v.domain
  exact : v.domain ≠ .F64 → s.esum = v.bits ∧ s.emin = v.bits ∧ s.emax = v.bits

/-- A statistic of two that are not empty. -/
structure Joined (s o t : FieldStat) : Prop where
  n : t.n = s.n + o.n
  mixed : s.domain ≠ o.domain ∨ s.domain = .F64 → t.domain = .F64
  pure : s.domain = o.domain → s.domain ≠ .F64 →
    t.domain = s.domain ∧ t.esum = s.esum + o.esum ∧
      t.emin = (if s.domain.below o.emin s.emin then o.emin else s.emin) ∧
      t.emax = (if s.domain.below s.emax o.emax then o.emax else s.emax)

section Steps

variable {s o t : FieldStat} {v : FieldNum} {values rest : List FieldNum}

theorem Single.keeps (single : Single s v) : Keeps s [v] where
  count := by rw [single.n]; rfl
  domain := by
    intro _ d _
    rw [single.domain]
    exact ⟨fun same w listed => mem_singleton.mp listed ▸ same,
      fun all => all v (mem_singleton_self v)⟩
  exact := by
    intro _ d integral all
    have same := all v (mem_singleton_self v)
    obtain ⟨esum, emin, emax⟩ := single.exact (same ▸ integral)
    rw [esum, emin, emax]
    exact ⟨(sum_singleton).symm, Least.singleton v, Greatest.singleton v⟩

/-- What is kept of nothing is a count of zero. -/
theorem Keeps.eq_nil_iff (keeps : Keeps s values) : s.n = 0 ↔ values = [] := by
  rw [← length_eq_zero_iff, ← keeps.count]
  exact ⟨fun zero => by rw [zero]; rfl, fun zero => UInt64.toNat_inj.mp zero⟩

/-- Two statistics of values make one of all of them. -/
theorem Keeps.join (keeps : Keeps s values) (keeps' : Keeps o rest) (some : values ≠ [])
    (some' : rest ≠ []) (joined : Joined s o t) (few : values.length + rest.length < 2 ^ 64) :
    Keeps t (values ++ rest) where
  count := by
    have sum := UInt64.toNat_add s.n o.n
    rw [joined.n, sum, keeps.count, keeps'.count, Nat.mod_eq_of_lt few, length_append]
  domain := by
    intro _ d integral
    rw [forall_mem_append, ← keeps.domain some d integral, ← keeps'.domain some' d integral]
    constructor
    · intro same
      by_cases mixed : s.domain ≠ o.domain ∨ s.domain = .F64
      · exact absurd (same.symm.trans (joined.mixed mixed)) integral
      · push Not at mixed
        have kept := (joined.pure mixed.1 mixed.2).1
        exact ⟨kept.symm.trans same, mixed.1.symm.trans (kept.symm.trans same)⟩
    · intro ⟨left, right⟩
      rw [(joined.pure (left.trans right.symm) (left ▸ integral)).1, left]
  exact := by
    intro _ d integral all
    obtain ⟨left, right⟩ := forall_mem_append.mp all
    obtain ⟨esum, emin, emax⟩ := keeps.exact some d integral left
    obtain ⟨esum', emin', emax'⟩ := keeps'.exact some' d integral right
    have domain := (keeps.domain some d integral).mpr left
    have domain' := (keeps'.domain some' d integral).mpr right
    obtain ⟨_, sum, min, max⟩ := joined.pure (domain.trans domain'.symm) (domain ▸ integral)
    rw [domain] at min max
    rw [sum, min, max, esum, esum', map_append, sum_append]
    exact ⟨rfl, emin.append emin', emax.append emax'⟩

/-- A value is added as the first one, or as a statistic of its own would be merged. -/
structure Takes (s : FieldStat) (v : FieldNum) (t : FieldStat) : Prop where
  first : s.n = 0 → Single t v
  later : s.n ≠ 0 → ∀ o, Single o v → Joined s o t

theorem Keeps.take (keeps : Keeps s values) (takes : Takes s v t)
    (few : values.length + 1 < 2 ^ 64) : Keeps t (values ++ [v]) := by
  by_cases zero : s.n = 0
  · rw [keeps.eq_nil_iff.mp zero]
    exact (takes.first zero).keeps
  · have single : Single (FieldStat.add {} v) v := by
      cases v with
      | i64 v | u64 v => exact ⟨rfl, rfl, fun _ => ⟨rfl, rfl, rfl⟩⟩
      | f64 v => exact ⟨rfl, rfl, fun integral => absurd rfl integral⟩
    exact keeps.join single.keeps (fun none => zero (keeps.eq_nil_iff.mpr none))
      (cons_ne_nil v []) (takes.later zero _ single) few

end Steps

namespace FieldStat

variable (s o : FieldStat)

section

variable (moments : Bool)

include moments

theorem addMoments_n (x : Float) : (s.addMoments moments x).n = s.n + 1 := by
  cases moments <;> rfl

theorem addWithF64_takes (x : Float) :
    Takes s (.f64 x) (s.addWithF64 moments x) where
  first := fun zero =>
    ⟨by rw [addWithF64, addMoments_n, zero]; rfl, rfl, fun integral => absurd rfl integral⟩
  later := fun _ o single =>
    ⟨by rw [addWithF64, addMoments_n, single.n], fun _ => rfl,
      fun same float => absurd (same.trans single.domain) float⟩

theorem addWithI64_takes (x : Int64) :
    Takes s (.i64 x) (s.addWithI64 moments x) where
  first := by
    intro zero
    rw [addWithI64, if_pos zero]
    exact ⟨by rw [addMoments_n, zero]; rfl, rfl, fun _ => ⟨rfl, rfl, rfl⟩⟩
  later := by
    intro some o single
    obtain ⟨esum, emin, emax⟩ := single.exact (by simp [FieldNum.domain])
    have domain : o.domain = .I64 := single.domain
    rw [addWithI64, if_neg some]
    by_cases signed : s.domain = .I64
    · rw [if_pos signed]
      constructor
      · rw [addMoments_n, single.n]
      · intro mixed
        rw [signed, domain] at mixed
        exact absurd mixed (by decide)
      · intro _ _
        rw [esum, emin, emax, signed]
        refine ⟨?_, rfl, rfl, rfl⟩
        cases moments <;> exact signed
    · rw [if_neg signed]
      exact ⟨by rw [addMoments_n, single.n], fun _ => rfl,
        fun same _ => absurd (same.trans domain) signed⟩

theorem addWithU64_takes (x : UInt64) :
    Takes s (.u64 x) (s.addWithU64 moments x) where
  first := by
    intro zero
    rw [addWithU64, if_pos zero]
    exact ⟨by rw [addMoments_n, zero]; rfl, rfl, fun _ => ⟨rfl, rfl, rfl⟩⟩
  later := by
    intro some o single
    obtain ⟨esum, emin, emax⟩ := single.exact (by simp [FieldNum.domain])
    have domain : o.domain = .U64 := single.domain
    rw [addWithU64, if_neg some]
    by_cases unsigned : s.domain = .U64
    · rw [if_pos unsigned]
      constructor
      · rw [addMoments_n, single.n]
      · intro mixed
        rw [unsigned, domain] at mixed
        exact absurd mixed (by decide)
      · intro _ _
        rw [esum, emin, emax, unsigned]
        refine ⟨?_, rfl, rfl, rfl⟩
        cases moments <;> exact unsigned
    · rw [if_neg unsigned]
      exact ⟨by rw [addMoments_n, single.n], fun _ => rfl,
        fun same _ => absurd (same.trans domain) unsigned⟩

theorem addWith_takes (v : FieldNum) : Takes s v (s.addWith moments v) := by
  cases v with
  | i64 v => exact addWithI64_takes s moments v
  | u64 v => exact addWithU64_takes s moments v
  | f64 v => exact addWithF64_takes s moments v

end

/-- Statistics that are not empty are joined by a merge. -/
theorem merge_joined (some : s.n ≠ 0) (some' : o.n ≠ 0) : Joined s o (s.merge o) := by
  rw [merge, if_neg some', if_neg some, mergeExact]
  by_cases mixed : s.domain ≠ o.domain ∨ s.domain = .F64
  · rw [if_pos mixed]
    exact ⟨rfl, fun _ => rfl,
      fun same integral => absurd mixed (not_or.mpr ⟨not_not.mpr same, integral⟩)⟩
  · rw [if_neg mixed]
    by_cases signed : s.domain = .I64
    · rw [if_pos signed]
      refine ⟨rfl, fun mixed' => absurd mixed' mixed, fun _ _ => ⟨rfl, rfl, ?_, ?_⟩⟩
      · rw [signed]
        rfl
      · rw [signed]
        rfl
    · rw [if_neg signed]
      refine ⟨rfl, fun mixed' => absurd mixed' mixed, fun _ _ => ⟨rfl, rfl, ?_, ?_⟩⟩
      · simp only [FieldStatDomain.below, if_neg signed]
      · simp only [FieldStatDomain.below, if_neg signed]

end FieldStat

/-- A statistic keeps the values of its tree. -/
theorem StatTree.keeps (t : StatTree) (few : t.values.length < 2 ^ 64) : Keeps t.build t.values := by
  induction t with
  | empty =>
    exact ⟨rfl, fun some => absurd rfl some, fun some => absurd rfl some⟩
  | add t v ih =>
    rw [StatTree.values, length_append] at few
    exact (ih (Nat.lt_of_succ_lt few)).take (FieldStat.addWith_takes _ true v) few
  | addWith moments t v ih =>
    rw [StatTree.values, length_append] at few
    exact (ih (Nat.lt_of_succ_lt few)).take (FieldStat.addWith_takes _ moments v) few
  | merge t other ih ih' =>
    rw [StatTree.values, length_append] at few
    have keeps := ih (by omega)
    have keeps' := ih' (by omega)
    rw [StatTree.build, StatTree.values]
    by_cases zero' : other.build.n = 0
    · rw [FieldStat.merge, if_pos zero', keeps'.eq_nil_iff.mp zero', append_nil]
      exact keeps
    · by_cases zero : t.build.n = 0
      · rw [FieldStat.merge, if_neg zero', if_pos zero, keeps.eq_nil_iff.mp zero]
        exact keeps'
      · exact keeps.join keeps' (fun none => zero (keeps.eq_nil_iff.mpr none))
          (fun none => zero' (keeps'.eq_nil_iff.mpr none))
          (FieldStat.merge_joined _ _ zero zero') few

/-! ### Trees of few values -/

/-- The sum of signed patterns is the sum of the integers, up to wrapping. -/
theorem sum_bits_i64 (l : List Int64) :
    (((l.map FieldNum.i64).map FieldNum.bits).sum.toInt64.toInt) ≡ (l.map Int64.toInt).sum
      [ZMOD 2 ^ 64] := by
  induction l with
  | nil => rfl
  | cons x l ih =>
    rw [map_cons, map_cons, sum_cons, UInt64.toInt64_add, Int64.toInt_add]
    exact (Int.bmod_emod ..).trans (Int.ModEq.add_left _ ih)

/-- The sum of unsigned patterns wraps. -/
theorem sum_bits_u64 (l : List UInt64) :
    ((l.map FieldNum.u64).map FieldNum.bits).sum.toNat = (l.map UInt64.toNat).sum % 2 ^ 64 := by
  induction l with
  | nil => rfl
  | cons x l ih =>
    rw [map_cons, map_cons, sum_cons, UInt64.toNat_add, ih, Nat.add_mod_mod]
    rfl

theorem not_below_signed {a b : UInt64} (h : ¬ FieldStatDomain.I64.below a b) :
    b.toInt64 ≤ a.toInt64 := by
  exact Int64.not_lt.mp h

theorem not_below_unsigned {a b : UInt64} (h : ¬ FieldStatDomain.U64.below a b) : b ≤ a := by
  exact UInt64.not_lt.mp h

section Lists

variable {m : UInt64} {l : List UInt64}

theorem mem_i64 {l : List Int64} (reached : ∃ v ∈ l.map FieldNum.i64, v.bits = m) :
    m.toInt64 ∈ l := by
  obtain ⟨v, found, same⟩ := reached
  obtain ⟨x, within, rfl⟩ := mem_map.mp found
  rw [← same]
  exact within

theorem mem_u64 (reached : ∃ v ∈ l.map FieldNum.u64, v.bits = m) : m ∈ l := by
  obtain ⟨v, found, same⟩ := reached
  obtain ⟨x, within, rfl⟩ := mem_map.mp found
  rw [← same]
  exact within

theorem Least.signed {l : List Int64} (least : Least .I64 (l.map .i64) m) :
    m.toInt64 ∈ l ∧ ∀ x ∈ l, m.toInt64 ≤ x := by
  refine ⟨mem_i64 least.reached, fun x within => ?_⟩
  have le := not_below_signed (least.beyond _ (mem_map_of_mem within))
  rwa [FieldNum.bits, Int64.toInt64_toUInt64] at le

theorem Greatest.signed {l : List Int64} (greatest : Greatest .I64 (l.map .i64) m) :
    m.toInt64 ∈ l ∧ ∀ x ∈ l, x ≤ m.toInt64 := by
  refine ⟨mem_i64 greatest.reached, fun x within => ?_⟩
  have le := not_below_signed (greatest.beyond _ (mem_map_of_mem within))
  rwa [FieldNum.bits, Int64.toInt64_toUInt64] at le

theorem Least.unsigned (least : Least .U64 (l.map .u64) m) :
    m ∈ l ∧ ∀ x ∈ l, m ≤ x := by
  refine ⟨mem_u64 least.reached, fun x within => ?_⟩
  have le := not_below_unsigned (least.beyond _ (mem_map_of_mem within))
  rwa [FieldNum.bits] at le

theorem Greatest.unsigned (greatest : Greatest .U64 (l.map .u64) m) :
    m ∈ l ∧ ∀ x ∈ l, x ≤ m := by
  refine ⟨mem_u64 greatest.reached, fun x within => ?_⟩
  have le := not_below_unsigned (greatest.beyond _ (mem_map_of_mem within))
  rwa [FieldNum.bits] at le

end Lists

/-- The statistic of a tree of fewer than `2 ^ 64` values counts them. With at least one value it
has an integer type if and only if all values have that type. The sum is then that of the
integers up to wrapping, and the extremes are theirs. -/
theorem statTree_exact (t : StatTree) (few : t.values.length < 2 ^ 64) :
    t.build.n.toNat = t.values.length ∧
    (t.values ≠ [] →
      (t.build.domain = .I64 ↔ ∀ v ∈ t.values, v.domain = .I64) ∧
      (t.build.domain = .U64 ↔ ∀ v ∈ t.values, v.domain = .U64) ∧
      (t.build.domain = .F64 ↔
        ¬ (∀ v ∈ t.values, v.domain = .I64) ∧ ¬ ∀ v ∈ t.values, v.domain = .U64)) ∧
    (∀ l : List Int64, l ≠ [] → t.values = l.map .i64 →
      t.build.esum.toInt64.toInt ≡ (l.map Int64.toInt).sum [ZMOD 2 ^ 64] ∧
      (t.build.emin.toInt64 ∈ l ∧ ∀ x ∈ l, t.build.emin.toInt64 ≤ x) ∧
      (t.build.emax.toInt64 ∈ l ∧ ∀ x ∈ l, x ≤ t.build.emax.toInt64)) ∧
    ∀ l : List UInt64, l ≠ [] → t.values = l.map .u64 →
      t.build.esum.toNat = (l.map UInt64.toNat).sum % 2 ^ 64 ∧
      (t.build.emin ∈ l ∧ ∀ x ∈ l, t.build.emin ≤ x) ∧
      (t.build.emax ∈ l ∧ ∀ x ∈ l, x ≤ t.build.emax) := by
  have keeps := t.keeps few
  refine ⟨keeps.count, ?domain, ?signed, ?unsigned⟩
  case domain =>
    intro some
    have signed := keeps.domain some .I64 (by decide)
    have unsigned := keeps.domain some .U64 (by decide)
    refine ⟨signed, unsigned, ?_⟩
    rw [← signed, ← unsigned]
    cases t.build.domain <;> decide
  case signed =>
    intro l some listed
    have all : ∀ v ∈ t.values, v.domain = .I64 := by
      rw [listed]
      exact forall_mem_map.mpr fun _ _ => rfl
    have some' : t.values ≠ [] := by
      rw [listed]
      exact fun none => some (map_eq_nil_iff.mp none)
    obtain ⟨esum, least, greatest⟩ := keeps.exact some' .I64 (by decide) all
    rw [listed] at esum least greatest
    rw [esum]
    exact ⟨sum_bits_i64 l, least.signed, greatest.signed⟩
  case unsigned =>
    intro l some listed
    have all : ∀ v ∈ t.values, v.domain = .U64 := by
      rw [listed]
      exact forall_mem_map.mpr fun _ _ => rfl
    have some' : t.values ≠ [] := by
      rw [listed]
      exact fun none => some (map_eq_nil_iff.mp none)
    obtain ⟨esum, least, greatest⟩ := keeps.exact some' .U64 (by decide) all
    rw [listed] at esum least greatest
    rw [esum]
    exact ⟨sum_bits_u64 l, least.unsigned, greatest.unsigned⟩

/-- Two signed values, one without moments, merged with a third. -/
def threeSigned : StatTree :=
  .merge (.addWith false (.add .empty (.i64 5)) (.i64 (-3))) (.add .empty (.i64 (-7)))

theorem statTree_exact_threeSigned :
    threeSigned.build.n.toNat = 3 ∧ threeSigned.build.domain = .I64 ∧
      threeSigned.build.esum.toInt64.toInt ≡ (([5, -3, -7] : List Int64).map Int64.toInt).sum
        [ZMOD 2 ^ 64] := by
  have exact := statTree_exact threeSigned (by decide)
  refine ⟨exact.1, ?_, (exact.2.2.1 [5, -3, -7] (by decide) rfl).1⟩
  rw [(exact.2.1 (cons_ne_nil _ _)).1]
  intro v listed
  obtain ⟨x, _, rfl⟩ := mem_map.mp (show v ∈ [5, -3, -7].map FieldNum.i64 from listed)
  rfl

/-- A value, merged with itself so many times. -/
def doubled : Nat → StatTree
  | 0 => .add .empty (.u64 1)
  | k + 1 => .merge (doubled k) (doubled k)

theorem doubled_values (k : Nat) : (doubled k).values.length = 2 ^ k := by
  induction k with
  | zero => rfl
  | succ k ih => rw [doubled, StatTree.values, length_append, ih, pow_succ, Nat.mul_two]

/-- A count wraps, and no value at all is of every type. -/
theorem statTree_wraps_and_empty :
    (¬ ∀ t : StatTree, t.build.n.toNat = t.values.length) ∧
    ¬ ∀ t : StatTree, t.build.domain = .I64 ↔ ∀ v ∈ t.values, v.domain = .I64 := by
  constructor
  · intro counts
    have full := counts (doubled 64)
    rw [doubled_values] at full
    exact absurd (UInt64.toNat_lt (doubled 64).build.n) (full ▸ Nat.lt_irrefl _)
  · intro pure
    have none := (pure .empty).mpr fun v listed => absurd listed not_mem_nil
    cases none

end DFTracer.Aggregation
