/-
# Predicate subsumption

Whether every event a query admits is admitted by the predicate of a stored
view. Both sides are flattened into numeric intervals, value sets and opaque
residuals, one bucket each per field, and the buckets are compared. A top-level
`or` of the query must fit branch by branch; one of the view needs one branch
that fits.
-/

import DFTracer.Query.Evaluator
import Mathlib.Data.List.AList

namespace DFTracer.Query

open DFTracer.Math.Float64

/-- `literal_key`: the key of a literal in a value set. Numbers are keyed by the
fixed-point text of their double. -/
def literalKey : Literal → String
  | .string s => "s:" ++ s
  | .bool b => if b then "b:1" else "b:0"
  | .int64 n => "n:" ++ (int64Double n).toFixed6
  | .uint64 n => "n:" ++ (uint64Double n).toFixed6
  | .double d => "n:" ++ d.toFixed6

/-- One side of a numeric range, exclusive when `strict`. -/
structure Bound where
  val : Double
  strict : Bool
deriving DecidableEq

/-- A numeric range. A missing bound is infinite. -/
structure Interval where
  lo : Option Bound
  hi : Option Bound
deriving DecidableEq

namespace Interval

/-- The range without bounds. -/
def unbounded : Interval := ⟨none, none⟩

end Interval

/-- `tighten_lo`: keep the tighter of two lower bounds. -/
def tightenLo (cur : Option Bound) (cand : Bound) : Option Bound :=
  match cur with
  | none => some cand
  | some c =>
    if c.val < cand.val ∨ (cand.val == c.val ∧ cand.strict ∧ !c.strict) then some cand
    else some c

/-- `tighten_hi`: keep the tighter of two upper bounds. -/
def tightenHi (cur : Option Bound) (cand : Bound) : Option Bound :=
  match cur with
  | none => some cand
  | some c =>
    if cand.val < c.val ∨ (cand.val == c.val ∧ cand.strict ∧ !c.strict) then some cand
    else some c

/-- `lo_within`: the query's lower bound is at least as tight as the view's. -/
def loWithin (q mv : Option Bound) : Bool :=
  match mv with
  | none => true
  | some m =>
    match q with
    | none => false
    | some q => if q.val != m.val then decide (m.val < q.val) else q.strict || !m.strict

/-- `hi_within`: the query's upper bound is at least as tight as the view's. -/
def hiWithin (q mv : Option Bound) : Bool :=
  match mv with
  | none => true
  | some m =>
    match q with
    | none => false
    | some q => if q.val != m.val then decide (q.val < m.val) else !m.strict || q.strict

/-- `point_in`. -/
def pointIn (v : Double) (iv : Interval) : Bool :=
  (match iv.lo with
    | none => true
    | some lo => !(decide (v < lo.val) || (v == lo.val && lo.strict))) &&
  (match iv.hi with
    | none => true
    | some hi => !(decide (hi.val < v) || (v == hi.val && hi.strict)))

/-- `as_point`: the value of a range that admits exactly one. -/
def asPoint (iv : Interval) : Option Double :=
  match iv.lo, iv.hi with
  | some lo, some hi =>
    if !lo.strict && !hi.strict && lo.val == hi.val then some lo.val else none
  | _, _ => none

/-- A value set: the double, if any, of the first literal listed under a key. -/
abbrev ValueSet := AList fun _ : String => Option Double

/-- A conjunction split per field into ranges, value sets and residual texts. -/
structure Buckets where
  intervals : AList fun _ : String => Interval
  sets : AList fun _ : String => ValueSet
  residual : List String

namespace Buckets

/-- No constraint at all. -/
def empty : Buckets := ⟨∅, ∅, []⟩

/-- Change the range of a field, unbounded if it had none. -/
def updateInterval (b : Buckets) (field : String) (f : Interval → Interval) : Buckets :=
  { b with intervals :=
      b.intervals.insert field (f ((b.intervals.lookup field).getD .unbounded)) }

/-- Change the value set of a field, empty if it had none. -/
def updateSet (b : Buckets) (field : String) (f : ValueSet → ValueSet) : Buckets :=
  { b with sets := b.sets.insert field (f ((b.sets.lookup field).getD ∅)) }

end Buckets

/-- `std::map::emplace`: an existing key keeps its value. -/
def ValueSet.emplace (vals : ValueSet) (key : String) (num : Option Double) : ValueSet :=
  if key ∈ vals then vals else vals.insert key num

/-- Emplace a literal under its key. -/
def ValueSet.emplaceLiteral (vals : ValueSet) (v : Literal) : ValueSet :=
  vals.emplace (literalKey v) v.asNumber

/-- `add_set_value`. -/
def addSetValue (b : Buckets) (field : String) (v : Literal) : Buckets :=
  b.updateSet field fun vals => vals.emplaceLiteral v

/-- `or_to_set`: the field and the values of a disjunction made only of equality
and `in` tests on one field. The empty field name stands for none seen yet. -/
def orToSet (node : QueryNode) (field : String) (vals : ValueSet) : Option (String × ValueSet) :=
  match node with
  | .or left right =>
    match orToSet left field vals with
    | some (field, vals) => orToSet right field vals
    | none => none
  | .compare f op value =>
    if op ≠ .eq then none
    else if field = "" ∨ field = f.path then some (f.path, vals.emplaceLiteral value)
    else none
  | .isIn f values =>
    if field = "" ∨ field = f.path then
      some (f.path, values.foldl ValueSet.emplaceLiteral vals)
    else none
  | _ => none

/-- `flatten`: add the constraints of a conjunction to the buckets. -/
def flatten (node : QueryNode) (b : Buckets) : Buckets :=
  match node with
  | .and left right => flatten right (flatten left b)
  | .compare field op value =>
    match op, value.asNumber with
    | .eq, some num =>
      b.updateInterval field.path fun iv =>
        ⟨tightenLo iv.lo ⟨num, false⟩, tightenHi iv.hi ⟨num, false⟩⟩
    | .eq, none => addSetValue b field.path value
    | .gt, some num =>
      b.updateInterval field.path fun iv => { iv with lo := tightenLo iv.lo ⟨num, true⟩ }
    | .ge, some num =>
      b.updateInterval field.path fun iv => { iv with lo := tightenLo iv.lo ⟨num, false⟩ }
    | .lt, some num =>
      b.updateInterval field.path fun iv => { iv with hi := tightenHi iv.hi ⟨num, true⟩ }
    | .le, some num =>
      b.updateInterval field.path fun iv => { iv with hi := tightenHi iv.hi ⟨num, false⟩ }
    | _, _ => { b with residual := node.toText :: b.residual }
  | .isIn field values => values.foldl (addSetValue · field.path ·) b
  | .or _ _ =>
    match orToSet node "" ∅ with
    | some (field, vals) =>
      vals.entries.foldl
        (fun b entry => b.updateSet field fun vals => vals.emplace entry.1 entry.2) b
    | none => { b with residual := node.toText :: b.residual }
  | _ => { b with residual := node.toText :: b.residual }

/-- `set_within_interval`: every listed value is a number inside the range. -/
def setWithinInterval (vals : ValueSet) (iv : Interval) : Bool :=
  vals.entries.all fun entry =>
    match entry.2 with
    | some num => pointIn num iv
    | none => false

/-- The query bounds a field at least as tightly as a range of the view, by a
range of its own or by a value set inside the range. -/
def intervalAccepts (Q : Buckets) (field : String) (iv : Interval) : Bool :=
  (match Q.intervals.lookup field with
    | some qi => loWithin qi.lo iv.lo && hiWithin qi.hi iv.hi
    | none => false) ||
  (match Q.sets.lookup field with
    | some qs => setWithinInterval qs iv
    | none => false)

/-- The query lands within a value set of the view, by a subset of its keys or
by a single numeric point equal to a member. -/
def setAccepts (Q : Buckets) (field : String) (vals : ValueSet) : Bool :=
  (match Q.sets.lookup field with
    | some qs => qs.entries.all fun entry => decide (entry.1 ∈ vals)
    | none => false) ||
  (match Q.intervals.lookup field with
    | some qi =>
      match asPoint qi with
      | some p =>
        vals.entries.any fun entry =>
          match entry.2 with
          | some num => num == p
          | none => false
      | none => false
    | none => false)

/-- `conj_subsumes`: containment of two conjunctions, bucket by bucket. -/
def conjSubsumes (mv query : QueryNode) : Bool :=
  let M := flatten mv .empty
  let Q := flatten query .empty
  (M.intervals.entries.all fun entry => intervalAccepts Q entry.1 entry.2) &&
  (M.sets.entries.all fun entry => setAccepts Q entry.1 entry.2) &&
  (M.residual.all fun text => Q.residual.contains text)

/-- The recursion of `query_subsumes` over the top-level `or` of the view, for a
query that is no `or` itself. -/
def mvSubsumes (mv query : QueryNode) : Bool :=
  conjSubsumes mv query ||
  match mv with
  | .or left right => mvSubsumes left query || mvSubsumes right query
  | _ => false

/-- `query_subsumes`. -/
def querySubsumes (mv query : QueryNode) : Bool :=
  match query with
  | .or left right => querySubsumes mv left && querySubsumes mv right
  | _ => mvSubsumes mv query

end DFTracer.Query
