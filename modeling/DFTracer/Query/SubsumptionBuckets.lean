/-
# What flattening a conjunction records

Every conjunct leaves its trace in the buckets, since flattening only tightens, and every trace in
the buckets comes from a conjunct. Nothing here says that the buckets mean the conjunction; value
sets of one field are merged by union, which widens it.
-/

import DFTracer.Query.Subsumption

namespace DFTracer.Query

open DFTracer.Math.Float64 List

/-- The atoms a conjunction is made of. -/
def conjuncts : QueryNode → List QueryNode
  | .and left right => conjuncts left ++ conjuncts right
  | node => [node]

/-- The literals of a disjunction of equality tests. -/
def equalityLiterals : QueryNode → List Literal
  | .or left right => equalityLiterals left ++ equalityLiterals right
  | .compare _ _ value => [value]
  | .isIn _ values => values
  | _ => []

/-- The field and the literals of an atom that becomes a value set. -/
def setAtom? : QueryNode → Option (String × List Literal)
  | .compare field op value =>
    if op = .eq ∧ value.asNumber = none then some (field.path, [value]) else none
  | .isIn field values => some (field.path, values)
  | .or left right =>
    (orToSet (.or left right) "" ∅).map fun found =>
      (found.1, equalityLiterals (.or left right))
  | _ => none

/-- The field, literal and bound of an atom that bounds a field from below. -/
def lowerBound? : QueryNode → Option (String × Literal × Bound)
  | .compare field op value =>
    match op, value.asNumber with
    | .eq, some num => some (field.path, value, ⟨num, false⟩)
    | .gt, some num => some (field.path, value, ⟨num, true⟩)
    | .ge, some num => some (field.path, value, ⟨num, false⟩)
    | _, _ => none
  | _ => none

/-- The field, literal and bound of an atom that bounds a field from above. -/
def upperBound? : QueryNode → Option (String × Literal × Bound)
  | .compare field op value =>
    match op, value.asNumber with
    | .eq, some num => some (field.path, value, ⟨num, false⟩)
    | .lt, some num => some (field.path, value, ⟨num, true⟩)
    | .le, some num => some (field.path, value, ⟨num, false⟩)
    | _, _ => none
  | _ => none

/-- An atom that stays an opaque residual text. -/
def isOpaque : QueryNode → Bool
  | .and _ _ => false
  | node => (setAtom? node).isNone && (lowerBound? node).isNone && (upperBound? node).isNone

/-! ## The order of bounds -/

/-- `c` admits no more from below than `d`. -/
def TighterLo (c d : Bound) : Prop :=
  d.val.rank < c.val.rank ∨ (d.val.rank = c.val.rank ∧ (d.strict = true → c.strict = true))

/-- `c` admits no more from above than `d`. -/
def TighterHi (c d : Bound) : Prop :=
  c.val.rank < d.val.rank ∨ (c.val.rank = d.val.rank ∧ (d.strict = true → c.strict = true))

theorem TighterLo.refl (c : Bound) : TighterLo c c := .inr ⟨rfl, id⟩

theorem TighterHi.refl (c : Bound) : TighterHi c c := .inr ⟨rfl, id⟩

variable {c d e : Bound} {q : Option Bound} {m : Bound} {key : String} {num n : Option Double}
  {entries : List Entry} {field : String} {values : List Literal} {cand : Bound}

theorem TighterLo.trans (h₁ : TighterLo c d) (h₂ : TighterLo d e) :
    TighterLo c e := by
  rcases h₁ with lt₁ | ⟨eq₁, strict₁⟩ <;> rcases h₂ with lt₂ | ⟨eq₂, strict₂⟩
  · exact .inl (by omega)
  · exact .inl (by omega)
  · exact .inl (by omega)
  · exact .inr ⟨by omega, fun h => strict₁ (strict₂ h)⟩

theorem TighterHi.trans (h₁ : TighterHi c d) (h₂ : TighterHi d e) :
    TighterHi c e := by
  rcases h₁ with lt₁ | ⟨eq₁, strict₁⟩ <;> rcases h₂ with lt₂ | ⟨eq₂, strict₂⟩
  · exact .inl (by omega)
  · exact .inl (by omega)
  · exact .inl (by omega)
  · exact .inr ⟨by omega, fun h => strict₁ (strict₂ h)⟩

/-- Tightening keeps a bound that is as tight as both the old and the new one,
and that bound is one of the two. -/
theorem tightenLo_spec (cur : Option Bound) (cand : Bound) :
    ∃ c, tightenLo cur cand = some c ∧ TighterLo c cand ∧ (∀ d, cur = some d → TighterLo c d) ∧
      (c = cand ∨ cur = some c) := by
  cases cur with
  | none => exact ⟨cand, rfl, .refl _, fun d h => by simp at h, .inl rfl⟩
  | some d =>
    simp only [tightenLo, Double.lt_iff, Double.beq_iff]
    split <;> rename_i h
    · refine ⟨cand, rfl, .refl _, fun d' hd => ?_, .inl rfl⟩
      obtain rfl : d = d' := Option.some.inj hd
      rcases h with lt | ⟨eq, strict, _⟩
      · exact .inl lt
      · exact .inr ⟨eq.symm, fun _ => strict⟩
    · refine ⟨d, rfl, ?_, fun d' hd => ?_, .inr rfl⟩
      · rw [not_or] at h
        rcases Int.lt_or_eq_of_le (Int.not_lt.mp h.1) with lt | eq
        · exact .inl lt
        · refine .inr ⟨eq, fun strict => ?_⟩
          by_contra lax
          exact h.2 ⟨eq, strict, by simpa using lax⟩
      · obtain rfl : d = d' := Option.some.inj hd
        exact .refl _

/-- Tightening keeps a bound that is as tight as both the old and the new one,
and that bound is one of the two. -/
theorem tightenHi_spec (cur : Option Bound) (cand : Bound) :
    ∃ c, tightenHi cur cand = some c ∧ TighterHi c cand ∧ (∀ d, cur = some d → TighterHi c d) ∧
      (c = cand ∨ cur = some c) := by
  cases cur with
  | none => exact ⟨cand, rfl, .refl _, fun d h => by simp at h, .inl rfl⟩
  | some d =>
    simp only [tightenHi, Double.lt_iff, Double.beq_iff]
    split <;> rename_i h
    · refine ⟨cand, rfl, .refl _, fun d' hd => ?_, .inl rfl⟩
      obtain rfl : d = d' := Option.some.inj hd
      rcases h with lt | ⟨eq, strict, _⟩
      · exact .inl lt
      · exact .inr ⟨eq, fun _ => strict⟩
    · refine ⟨d, rfl, ?_, fun d' hd => ?_, .inr rfl⟩
      · rw [not_or] at h
        rcases Int.lt_or_eq_of_le (Int.not_lt.mp h.1) with lt | eq
        · exact .inl lt
        · refine .inr ⟨eq, fun strict => ?_⟩
          by_contra lax
          exact h.2 ⟨eq.symm, strict, by simpa using lax⟩
      · obtain rfl : d = d' := Option.some.inj hd
        exact .refl _

/-- The check on lower bounds is their order. -/
theorem loWithin_spec (h : loWithin q (some m) = true) :
    ∃ c, q = some c ∧ TighterLo c m := by
  cases q with
  | none => simp [loWithin] at h
  | some c =>
    refine ⟨c, rfl, ?_⟩
    simp only [loWithin] at h
    split at h <;> rename_i differ
    · rw [decide_eq_true_eq, Double.lt_iff] at h
      exact .inl h
    · have same : (c.val == m.val) = true := by simpa [bne] using differ
      rw [Double.beq_iff] at same
      refine .inr ⟨same.symm, fun strict => ?_⟩
      simpa [strict] using h

/-- The check on upper bounds is their order. -/
theorem hiWithin_spec (h : hiWithin q (some m) = true) :
    ∃ c, q = some c ∧ TighterHi c m := by
  cases q with
  | none => simp [hiWithin] at h
  | some c =>
    refine ⟨c, rfl, ?_⟩
    simp only [hiWithin] at h
    split at h <;> rename_i differ
    · rw [decide_eq_true_eq, Double.lt_iff] at h
      exact .inl h
    · have same : (c.val == m.val) = true := by simpa [bne] using differ
      rw [Double.beq_iff] at same
      refine .inr ⟨same, fun strict => ?_⟩
      simpa [strict] using h

variable {iv : Interval}

/-- A point of a range, read as an inclusive bound, is as tight as the range. -/
theorem pointIn_spec {v : Double} (h : pointIn v iv = true) :
    (∀ c, iv.lo = some c → TighterLo ⟨v, false⟩ c) ∧
      (∀ c, iv.hi = some c → TighterHi ⟨v, false⟩ c) := by
  unfold pointIn at h
  rw [Bool.and_eq_true] at h
  constructor
  · intro c hc
    have h := h.1
    rw [hc] at h
    simp only [Bool.not_eq_true', Bool.or_eq_false_iff, decide_eq_false_iff_not, Double.lt_iff] at h
    rcases Int.lt_or_eq_of_le (Int.not_lt.mp h.1) with lt | eq
    · exact .inl lt
    · refine .inr ⟨eq, fun strict => ?_⟩
      have same := (Double.beq_iff v c.val).mpr eq.symm
      simp [same, strict] at h
  · intro c hc
    have h := h.2
    rw [hc] at h
    simp only [Bool.not_eq_true', Bool.or_eq_false_iff, decide_eq_false_iff_not, Double.lt_iff] at h
    rcases Int.lt_or_eq_of_le (Int.not_lt.mp h.1) with lt | eq
    · exact .inl lt
    · refine .inr ⟨eq, fun strict => ?_⟩
      have same := (Double.beq_iff v c.val).mpr eq
      simp [same, strict] at h

/-- A range with a point is closed on both sides at that point. -/
theorem asPoint_spec {p : Double} (h : asPoint iv = some p) :
    ∃ lo hi, iv.lo = some ⟨lo, false⟩ ∧ iv.hi = some ⟨hi, false⟩ ∧ lo.rank = p.rank ∧
      hi.rank = p.rank := by
  unfold asPoint at h
  split at h
  · rename_i lo hi hlo hhi
    split at h <;> rename_i closed
    · simp only [Bool.and_eq_true, Bool.not_eq_true', Double.beq_iff] at closed
      obtain rfl : lo.val = p := Option.some.inj h
      refine ⟨lo.val, hi.val, ?_, ?_, rfl, closed.2.symm⟩
      · rw [hlo, ← closed.1.1]
      · rw [hhi, ← closed.1.2]
    · exact absurd h (by simp)
  · exact absurd h (by simp)

variable {vals : ValueSet} {k : String}

theorem ValueSet.mem_emplace :
    k ∈ vals.emplace key num ↔ k = key ∨ k ∈ vals := by
  unfold ValueSet.emplace
  split
  · rename_i present
    exact ⟨.inr, fun h => h.elim (fun eq => eq ▸ present) id⟩
  · rw [AList.mem_insert]

/-- An emplaced entry is an old one or the new one. -/
theorem ValueSet.lookup_emplace (h : (vals.emplace key num).lookup k = some n) :
    vals.lookup k = some n ∨ (k = key ∧ n = num) := by
  unfold ValueSet.emplace at h
  split at h
  · exact .inl h
  · by_cases same : k = key
    · subst same
      rw [AList.lookup_insert] at h
      exact .inr ⟨rfl, (Option.some.inj h).symm⟩
    · rw [AList.lookup_insert_ne same] at h
      exact .inl h

/-- An entry of a value set: a key and the number behind it. -/
abbrev Entry := Sigma fun _ : String => Option Double

/-- The entry of a literal. -/
def entryOf (v : Literal) : Entry := ⟨literalKey v, v.asNumber⟩

/-- Emplace entries in order. -/
def ValueSet.emplaceAll (vals : ValueSet) (entries : List Entry) : ValueSet :=
  entries.foldl (fun vals entry => vals.emplace entry.1 entry.2) vals

theorem ValueSet.foldl_emplaceLiteral (values : List Literal) (vals : ValueSet) :
    values.foldl ValueSet.emplaceLiteral vals = vals.emplaceAll (values.map entryOf) := by
  rw [ValueSet.emplaceAll, foldl_map]
  rfl

theorem ValueSet.mem_emplaceAll :
    k ∈ vals.emplaceAll entries ↔ k ∈ vals ∨ ∃ entry ∈ entries, entry.1 = k := by
  induction entries generalizing vals with
  | nil => simp [ValueSet.emplaceAll]
  | cons e entries ih =>
    have step : vals.emplaceAll (e :: entries) = (vals.emplace e.1 e.2).emplaceAll entries := rfl
    rw [step, ih, ValueSet.mem_emplace]
    simp only [mem_cons, exists_eq_or_imp]
    constructor
    · rintro ((rfl | old) | later)
      · exact .inr (.inl rfl)
      · exact .inl old
      · exact .inr (.inr later)
    · rintro (old | rfl | later)
      · exact .inl (.inr old)
      · exact .inl (.inl rfl)
      · exact .inr later

/-- The entries of a filled set are old ones or emplaced ones. -/
theorem ValueSet.lookup_emplaceAll (h : (vals.emplaceAll entries).lookup k = some n) :
    vals.lookup k = some n ∨ ⟨k, n⟩ ∈ entries := by
  induction entries generalizing vals with
  | nil => exact .inl h
  | cons e entries ih =>
    rcases ih h with earlier | later
    · rcases ValueSet.lookup_emplace earlier with old | ⟨rfl, rfl⟩
      · exact .inl old
      · exact .inr mem_cons_self
    · exact .inr (mem_cons_of_mem _ later)

/-! ## Disjunctions of equality tests -/

variable {node : QueryNode}

/-- What a successful collection returns: the field every test is on, and the
literals of the tests emplaced in order. -/
theorem orToSet_spec {f : String}
    {collected : ValueSet} (h : orToSet node field vals = some (f, collected)) :
    f ≠ "" ∧ (field = "" ∨ field = f) ∧
      collected = (equalityLiterals node).foldl ValueSet.emplaceLiteral vals := by
  induction node generalizing field vals f collected with
  | or left right ihLeft ihRight =>
    simp only [orToSet] at h
    split at h
    · rename_i g middle hleft
      obtain ⟨nonempty, seen, hvals⟩ := ihLeft hleft
      obtain ⟨nonempty', seen', hvals'⟩ := ihRight h
      obtain rfl : g = f := seen'.resolve_left nonempty
      refine ⟨nonempty', seen, ?_⟩
      rw [hvals', hvals, equalityLiterals, foldl_append]
    · exact absurd h (by simp)
  | compare g op value =>
    simp only [orToSet] at h
    split at h
    · exact absurd h (by simp)
    · split at h <;> rename_i seen
      · obtain ⟨rfl, rfl⟩ := Prod.mk.inj (Option.some.inj h)
        exact ⟨g.nonempty, seen, rfl⟩
      · exact absurd h (by simp)
  | isIn g values =>
    simp only [orToSet] at h
    split at h <;> rename_i seen
    · obtain ⟨rfl, rfl⟩ := Prod.mk.inj (Option.some.inj h)
      exact ⟨g.nonempty, seen, rfl⟩
    · exact absurd h (by simp)
  | notIn | «matches» | and | not => exact absurd h (by simp [orToSet])

/-- Whether a resolved value equals one of the literals. -/
def equalsAny (event : JsonValue) (field : String) (values : List Literal) : Prop :=
  ∃ v, resolveField event field = some v ∧ ∃ w ∈ values, compareValue v w = some .eq

theorem equalsAny_append {event : JsonValue} {xs ys : List Literal} :
    equalsAny event field (xs ++ ys) ↔ equalsAny event field xs ∨ equalsAny event field ys := by
  constructor
  · rintro ⟨v, found, w, listed, same⟩
    rcases mem_append.mp listed with left | right
    · exact .inl ⟨v, found, w, left, same⟩
    · exact .inr ⟨v, found, w, right, same⟩
  · rintro (⟨v, found, w, listed, same⟩ | ⟨v, found, w, listed, same⟩)
    · exact ⟨v, found, w, mem_append_left _ listed, same⟩
    · exact ⟨v, found, w, mem_append_right _ listed, same⟩

section

variable (search : MatchOp → String → String → Bool) {node : QueryNode} {field : String}

theorem evaluate_isIn (field : FieldNode) (values : List Literal) (event : JsonValue) :
    evaluate search (.isIn field values) event = true ↔ equalsAny event field.path values := by
  unfold evaluate equalsAny
  cases resolveField event field.path with
  | none => simp
  | some v => simp

theorem evaluate_equality (field : FieldNode) (value : Literal) (event : JsonValue) :
    evaluate search (.compare field .eq value) event = true ↔
      equalsAny event field.path [value] := by
  unfold evaluate equalsAny
  cases resolveField event field.path with
  | none => simp
  | some v =>
    cases hcmp : compareValue v value with
    | none | some o => simp [applyCompare, hcmp]

/-- A collected disjunction is true when the field equals one of the literals. -/
theorem evaluate_of_orToSet {vals : ValueSet} {f : String}
    {collected : ValueSet} (h : orToSet node field vals = some (f, collected)) (event : JsonValue) :
    evaluate search node event = true ↔ equalsAny event f (equalityLiterals node) := by
  induction node generalizing field vals f collected with
  | or left right ihLeft ihRight =>
    simp only [orToSet] at h
    split at h
    · rename_i g middle hleft
      obtain ⟨nonempty, -, -⟩ := orToSet_spec hleft
      obtain ⟨-, seen, -⟩ := orToSet_spec h
      obtain rfl : g = f := seen.resolve_left nonempty
      rw [evaluate, Bool.or_eq_true, ihLeft hleft, ihRight h, equalityLiterals,
        equalsAny_append]
    · exact absurd h (by simp)
  | compare g op value =>
    simp only [orToSet] at h
    split at h
    · exact absurd h (by simp)
    · rename_i isEq
      obtain rfl : op = .eq := by simpa using isEq
      split at h
      · obtain ⟨rfl, -⟩ := Prod.mk.inj (Option.some.inj h)
        exact evaluate_equality search g value event
      · exact absurd h (by simp)
  | isIn g values =>
    simp only [orToSet] at h
    split at h
    · obtain ⟨rfl, -⟩ := Prod.mk.inj (Option.some.inj h)
      exact evaluate_isIn search g values event
    · exact absurd h (by simp)
  | notIn | «matches» | and | not => exact absurd h (by simp [orToSet])

/-- An atom that becomes a value set is true when the field equals a literal. -/
theorem evaluate_setAtom {values : List Literal}
    (h : setAtom? node = some (field, values)) (event : JsonValue) :
    evaluate search node event = true ↔ equalsAny event field values := by
  cases node with
  | compare f op value =>
    simp only [setAtom?] at h
    split at h
    · rename_i isEq
      obtain ⟨rfl, -⟩ := isEq
      obtain ⟨rfl, rfl⟩ := Prod.mk.inj (Option.some.inj h)
      exact evaluate_equality search f value event
    · exact absurd h (by simp)
  | isIn f vs =>
    obtain ⟨rfl, rfl⟩ := Prod.mk.inj (Option.some.inj h)
    exact evaluate_isIn search f vs event
  | or left right =>
    simp only [setAtom?, Option.map_eq_some_iff] at h
    obtain ⟨⟨f, collected⟩, hset, pair⟩ := h
    obtain ⟨rfl, rfl⟩ := Prod.mk.inj pair
    exact evaluate_of_orToSet search hset event
  | notIn | «matches» | and | not => exact absurd h (by simp [setAtom?])

end

/-! ## Flattening only tightens -/

/-- `b'` records every constraint of `b`, at least as tightly. -/
structure Refines (b b' : Buckets) : Prop where
  lower : ∀ field iv c, b.intervals.lookup field = some iv → iv.lo = some c →
    ∃ iv' c', b'.intervals.lookup field = some iv' ∧ iv'.lo = some c' ∧ TighterLo c' c
  upper : ∀ field iv c, b.intervals.lookup field = some iv → iv.hi = some c →
    ∃ iv' c', b'.intervals.lookup field = some iv' ∧ iv'.hi = some c' ∧ TighterHi c' c
  sets : ∀ field, field ∈ b.sets → field ∈ b'.sets
  residual : ∀ text ∈ b.residual, text ∈ b'.residual

theorem Refines.refl (b : Buckets) : Refines b b where
  lower _ iv c found lo := ⟨iv, c, found, lo, .refl c⟩
  upper _ iv c found hi := ⟨iv, c, found, hi, .refl c⟩
  sets _ present := present
  residual _ present := present

variable {b : Buckets}

theorem Refines.trans {a c : Buckets} (h₁ : Refines a b) (h₂ : Refines b c) : Refines a c where
  lower field iv bound found lo := by
    obtain ⟨iv₁, c₁, found₁, lo₁, tight₁⟩ := h₁.lower field iv bound found lo
    obtain ⟨iv₂, c₂, found₂, lo₂, tight₂⟩ := h₂.lower field iv₁ c₁ found₁ lo₁
    exact ⟨iv₂, c₂, found₂, lo₂, tight₂.trans tight₁⟩
  upper field iv bound found hi := by
    obtain ⟨iv₁, c₁, found₁, hi₁, tight₁⟩ := h₁.upper field iv bound found hi
    obtain ⟨iv₂, c₂, found₂, hi₂, tight₂⟩ := h₂.upper field iv₁ c₁ found₁ hi₁
    exact ⟨iv₂, c₂, found₂, hi₂, tight₂.trans tight₁⟩
  sets field present := h₂.sets field (h₁.sets field present)
  residual text present := h₂.residual text (h₁.residual text present)

/-- Changing one range to a range at least as tight refines the buckets. -/
theorem Refines.updateInterval (b : Buckets) (field : String) (f : Interval → Interval)
    (tighterLo : ∀ iv c, iv.lo = some c → ∃ c', (f iv).lo = some c' ∧ TighterLo c' c)
    (tighterHi : ∀ iv c, iv.hi = some c → ∃ c', (f iv).hi = some c' ∧ TighterHi c' c) :
    Refines b (b.updateInterval field f) where
  lower g iv c found lo := by
    by_cases same : g = field
    · subst same
      obtain ⟨c', lo', tight⟩ := tighterLo iv c lo
      exact ⟨f iv, c', by rw [Buckets.updateInterval, AList.lookup_insert, found]; rfl, lo', tight⟩
    · exact ⟨iv, c, by rw [Buckets.updateInterval, AList.lookup_insert_ne same, found], lo, .refl c⟩
  upper g iv c found hi := by
    by_cases same : g = field
    · subst same
      obtain ⟨c', hi', tight⟩ := tighterHi iv c hi
      exact ⟨f iv, c', by rw [Buckets.updateInterval, AList.lookup_insert, found]; rfl, hi', tight⟩
    · exact ⟨iv, c, by rw [Buckets.updateInterval, AList.lookup_insert_ne same, found], hi, .refl c⟩
  sets _ present := present
  residual _ present := present

theorem Refines.updateSet (b : Buckets) (field : String) (f : ValueSet → ValueSet) :
    Refines b (b.updateSet field f) where
  lower _ iv c found lo := ⟨iv, c, found, lo, .refl c⟩
  upper _ iv c found hi := ⟨iv, c, found, hi, .refl c⟩
  sets _ present := (AList.mem_insert _).mpr (.inr present)
  residual _ present := present

theorem Refines.cons_residual (b : Buckets) (text : String) :
    Refines b { b with residual := text :: b.residual } where
  lower _ iv c found lo := ⟨iv, c, found, lo, .refl c⟩
  upper _ iv c found hi := ⟨iv, c, found, hi, .refl c⟩
  sets _ present := present
  residual _ present := mem_cons_of_mem _ present

theorem Refines.foldl {α : Type} (f : Buckets → α → Buckets)
    (step : ∀ b x, Refines b (f b x)) (xs : List α) (b : Buckets) : Refines b (xs.foldl f b) := by
  induction xs generalizing b with
  | nil => exact .refl b
  | cons x xs ih => exact (step b x).trans (ih (f b x))

theorem keepsLo (iv : Interval) (cand c : Bound) (h : iv.lo = some c) :
    ∃ c', tightenLo iv.lo cand = some c' ∧ TighterLo c' c := by
  obtain ⟨c', found, -, tight, -⟩ := tightenLo_spec iv.lo cand
  exact ⟨c', found, tight c h⟩

theorem keepsHi (iv : Interval) (cand c : Bound) (h : iv.hi = some c) :
    ∃ c', tightenHi iv.hi cand = some c' ∧ TighterHi c' c := by
  obtain ⟨c', found, -, tight, -⟩ := tightenHi_spec iv.hi cand
  exact ⟨c', found, tight c h⟩

/-- Flattening a predicate only adds to the buckets. -/
theorem refines_flatten (node : QueryNode) (b : Buckets) : Refines b (flatten node b) := by
  induction node generalizing b with
  | and left right ihLeft ihRight => exact (ihLeft b).trans (ihRight (flatten left b))
  | compare field op value =>
    unfold flatten
    split
    · exact .updateInterval _ _ _ (fun iv c h => keepsLo iv _ c h) (fun iv c h => keepsHi iv _ c h)
    · exact .updateSet _ _ _
    · exact .updateInterval _ _ _ (fun iv c h => keepsLo iv _ c h) (fun iv c h => ⟨c, h, .refl c⟩)
    · exact .updateInterval _ _ _ (fun iv c h => keepsLo iv _ c h) (fun iv c h => ⟨c, h, .refl c⟩)
    · exact .updateInterval _ _ _ (fun iv c h => ⟨c, h, .refl c⟩) (fun iv c h => keepsHi iv _ c h)
    · exact .updateInterval _ _ _ (fun iv c h => ⟨c, h, .refl c⟩) (fun iv c h => keepsHi iv _ c h)
    · exact .cons_residual _ _
  | isIn field values => exact .foldl _ (fun b v => .updateSet b _ _) values b
  | or left right =>
    unfold flatten
    split
    · exact .foldl _ (fun b entry => .updateSet b _ _) _ b
    · exact .cons_residual _ _
  | notIn | «matches» | not => exact .cons_residual _ _

variable {atom : QueryNode}

/-- Whatever holds of flattening an atom into any buckets, and survives
tightening, holds of flattening a conjunction with that atom. -/
theorem flatten_conjunct {P : Buckets → Prop}
    (survives : ∀ b b', Refines b b' → P b → P b') (listed : atom ∈ conjuncts node)
    (holds : ∀ b, P (flatten atom b)) (b : Buckets) : P (flatten node b) := by
  induction node generalizing b with
  | and left right ihLeft ihRight =>
    rcases mem_append.mp listed with inLeft | inRight
    · exact survives _ _ (refines_flatten right _) (ihLeft inLeft b)
    · exact ihRight inRight (flatten left b)
  | compare | isIn | notIn | «matches» | or | not =>
    obtain rfl := mem_singleton.mp listed; exact holds b

section

variable (listed : atom ∈ conjuncts node) {field : String} {literal : Literal} {c : Bound}

include listed

/-- A conjunct's lower bound is in the range of its field. -/
theorem flatten_lower (bound : lowerBound? atom = some (field, literal, c)) (b : Buckets) :
    ∃ iv c', (flatten node b).intervals.lookup field = some iv ∧ iv.lo = some c' ∧
      TighterLo c' c := by
  refine flatten_conjunct (P := fun b => ∃ iv c', b.intervals.lookup field = some iv ∧
    iv.lo = some c' ∧ TighterLo c' c) ?_ listed ?_ b
  · rintro b b' refines ⟨iv, c₁, found, lo, tight⟩
    obtain ⟨iv', c₂, found', lo', tight'⟩ := refines.lower field iv c₁ found lo
    exact ⟨iv', c₂, found', lo', tight'.trans tight⟩
  · intro b
    cases atom with
    | compare f op value =>
      simp only [lowerBound?] at bound
      split at bound <;> cases bound <;> rename_i num hnum
      all_goals
        obtain ⟨c', found, tight, -⟩ := tightenLo_spec
          ((b.intervals.lookup f.path).getD .unbounded).lo ⟨num, _⟩
        simp only [flatten, hnum, Buckets.updateInterval, AList.lookup_insert]
        exact ⟨_, c', rfl, found, tight⟩
    | _ => exact absurd bound (by simp [lowerBound?])

/-- A conjunct's upper bound is in the range of its field. -/
theorem flatten_upper (bound : upperBound? atom = some (field, literal, c)) (b : Buckets) :
    ∃ iv c', (flatten node b).intervals.lookup field = some iv ∧ iv.hi = some c' ∧
      TighterHi c' c := by
  refine flatten_conjunct (P := fun b => ∃ iv c', b.intervals.lookup field = some iv ∧
    iv.hi = some c' ∧ TighterHi c' c) ?_ listed ?_ b
  · rintro b b' refines ⟨iv, c₁, found, hi, tight⟩
    obtain ⟨iv', c₂, found', hi', tight'⟩ := refines.upper field iv c₁ found hi
    exact ⟨iv', c₂, found', hi', tight'.trans tight⟩
  · intro b
    cases atom with
    | compare f op value =>
      simp only [upperBound?] at bound
      split at bound <;> cases bound <;> rename_i num hnum
      all_goals
        obtain ⟨c', found, tight, -⟩ := tightenHi_spec
          ((b.intervals.lookup f.path).getD .unbounded).hi ⟨num, _⟩
        simp only [flatten, hnum, Buckets.updateInterval, AList.lookup_insert]
        exact ⟨_, c', rfl, found, tight⟩
    | _ => exact absurd bound (by simp [upperBound?])

/-- A conjunct that is opaque leaves its text. -/
theorem flatten_residual
    (residual : isOpaque atom = true) (b : Buckets) :
    atom.toText ∈ (flatten node b).residual := by
  refine flatten_conjunct (P := fun b => atom.toText ∈ b.residual)
    (fun b b' refines present => refines.residual _ present) listed (fun b => ?_) b
  cases atom with
  | and left right => exact absurd residual (by simp [isOpaque])
  | isIn f values => exact absurd residual (by simp [isOpaque, setAtom?])
  | compare f op value =>
    cases op <;> cases hnum : value.asNumber <;>
      simp [isOpaque, setAtom?, lowerBound?, upperBound?, hnum] at residual <;>
      simp [flatten, hnum]
  | or left right =>
    cases hset : orToSet (.or left right) "" ∅ with
    | none => simp [flatten, hset]
    | some found => exact absurd residual (by simp [isOpaque, setAtom?, hset])
  | notIn | «matches» | not => exact mem_cons_self

end

/-! ## Adding values to the set of a field -/

/-- `b'` is `b` with the entries of `values` added to the set of `field`. An
empty list leaves no trace. -/
structure AddsSet (field : String) (values : List Literal) (b b' : Buckets) : Prop where
  intervals : b'.intervals = b.intervals
  residual : b'.residual = b.residual
  others : ∀ g, g ≠ field ∨ values = [] → b'.sets.lookup g = b.sets.lookup g
  added : values ≠ [] → ∃ vals, b'.sets.lookup field = some vals ∧
    (∀ w ∈ values, literalKey w ∈ vals) ∧
    (∀ old, b.sets.lookup field = some old → ∀ k ∈ old, k ∈ vals) ∧
    ∀ k n, vals.lookup k = some n →
      (∃ old, b.sets.lookup field = some old ∧ old.lookup k = some n) ∨
        ∃ w ∈ values, literalKey w = k ∧ w.asNumber = n

/-- What emplacing entries one by one does to the buckets. -/
theorem foldl_updateSet (field : String) (entries : List Entry) (b : Buckets) :
    let b' := entries.foldl
      (fun b entry => b.updateSet field fun vals => vals.emplace entry.1 entry.2) b
    b'.intervals = b.intervals ∧ b'.residual = b.residual ∧
      ∀ g, b'.sets.lookup g =
        if g = field ∧ entries ≠ [] then
          some (((b.sets.lookup field).getD ∅).emplaceAll entries)
        else b.sets.lookup g := by
  induction entries generalizing b with
  | nil => exact ⟨rfl, rfl, fun g => by simp⟩
  | cons e entries ih =>
    obtain ⟨intervals, residual, sets⟩ :=
      ih (b.updateSet field fun vals => vals.emplace e.1 e.2)
    refine ⟨intervals, residual, fun g => ?_⟩
    rw [foldl_cons, sets]
    by_cases same : g = field
    · subst same
      by_cases last : entries = []
      · subst last
        simp [Buckets.updateSet, ValueSet.emplaceAll]
      · simp [last, Buckets.updateSet, ValueSet.emplaceAll]
    · simp [same, Buckets.updateSet]

/-- Emplacing entries that come from literals, each literal with its key, adds
the set of these literals. -/
theorem addsSet_of_entries (field : String) (values : List Literal) (entries : List Entry)
    (b : Buckets) (empty : values = [] ↔ entries = [])
    (keys : ∀ w ∈ values, ∃ entry ∈ entries, entry.1 = literalKey w)
    (sources : ∀ entry ∈ entries, ∃ w ∈ values, entryOf w = entry) :
    AddsSet field values b (entries.foldl
      (fun b entry => b.updateSet field fun vals => vals.emplace entry.1 entry.2) b) := by
  obtain ⟨intervals, residual, sets⟩ := foldl_updateSet field entries b
  refine ⟨intervals, residual, fun g outside => ?_, fun nonempty => ?_⟩
  · rw [sets, if_neg]
    rintro ⟨same, filled⟩
    rcases outside with differ | none
    · exact differ same
    · exact filled (empty.mp none)
  · refine ⟨_, by rw [sets, if_pos ⟨rfl, fun h => nonempty (empty.mpr h)⟩], ?_, ?_, ?_⟩
    · intro w listed
      obtain ⟨entry, present, key⟩ := keys w listed
      exact ValueSet.mem_emplaceAll.mpr (.inr ⟨entry, present, key⟩)
    · intro old found k present
      rw [found]
      exact ValueSet.mem_emplaceAll.mpr (.inl present)
    · intro k n found
      rcases ValueSet.lookup_emplaceAll found with before | emplaced
      · cases old : b.sets.lookup field with
        | none => rw [old] at before; exact absurd before (by simp)
        | some vals =>
          rw [old] at before
          exact .inl ⟨vals, rfl, before⟩
      · obtain ⟨w, listed, source⟩ := sources _ emplaced
        cases source
        exact .inr ⟨w, listed, rfl, rfl⟩

/-- Flattening an atom that is a value set adds that set, and nothing else. -/
theorem addsSet_flatten (h : setAtom? atom = some (field, values)) (b : Buckets) :
    AddsSet field values b (flatten atom b) := by
  have listed : ∀ (field : String) (values : List Literal), AddsSet field values b
      (values.foldl (addSetValue · field ·) b) := by
    intro field values
    have h := addsSet_of_entries field values (values.map entryOf) b (by simp)
      (fun w hw => ⟨entryOf w, mem_map_of_mem hw, rfl⟩) (fun entry he => mem_map.mp he)
    rw [foldl_map] at h
    exact h
  cases atom with
  | compare f op value =>
    simp only [setAtom?] at h
    split at h
    · rename_i isSet
      obtain ⟨rfl, textual⟩ := isSet
      obtain ⟨rfl, rfl⟩ := Prod.mk.inj (Option.some.inj h)
      have step : flatten (.compare f .eq value) b = [value].foldl (addSetValue · f.path ·) b := by
        simp only [flatten, textual, foldl_cons, foldl_nil]
      rw [step]
      exact listed f.path [value]
    · exact absurd h (by simp)
  | isIn f vs =>
    obtain ⟨rfl, rfl⟩ := Prod.mk.inj (Option.some.inj h)
    exact listed f.path vs
  | or left right =>
    simp only [setAtom?, Option.map_eq_some_iff] at h
    obtain ⟨⟨f, collected⟩, hset, pair⟩ := h
    obtain ⟨rfl, rfl⟩ := Prod.mk.inj pair
    obtain ⟨-, -, rfl⟩ := orToSet_spec hset
    rw [ValueSet.foldl_emplaceLiteral] at hset
    have step : flatten (.or left right) b =
        (ValueSet.emplaceAll ∅ ((equalityLiterals (.or left right)).map entryOf)).entries.foldl
          (fun b entry => b.updateSet f fun vals => vals.emplace entry.1 entry.2) b := by
      simp only [flatten, hset]
    have keyed : ∀ w ∈ equalityLiterals (.or left right),
        ∃ entry ∈ (ValueSet.emplaceAll ∅
          ((equalityLiterals (.or left right)).map entryOf)).entries, entry.1 = literalKey w := by
      intro w hw
      have present : literalKey w ∈ ValueSet.emplaceAll ∅
          ((equalityLiterals (.or left right)).map entryOf) :=
        ValueSet.mem_emplaceAll.mpr (.inr ⟨entryOf w, mem_map_of_mem hw, rfl⟩)
      exact mem_map.mp (AList.mem_keys.mp present)
    have sourced : ∀ entry ∈ (ValueSet.emplaceAll ∅
        ((equalityLiterals (.or left right)).map entryOf)).entries,
        ∃ w ∈ equalityLiterals (.or left right), entryOf w = entry := by
      rintro ⟨k, n⟩ he
      rcases ValueSet.lookup_emplaceAll (AList.mem_lookup_iff.mpr he) with old | emplaced
      · exact absurd old (by simp)
      · exact mem_map.mp emplaced
    rw [step]
    refine addsSet_of_entries f _ _ b ?_ keyed sourced
    constructor
    · intro none
      rw [none]
      rfl
    · intro none
      by_contra some
      obtain ⟨w, hw⟩ := exists_mem_of_ne_nil _ some
      obtain ⟨entry, he, -⟩ := keyed w hw
      rw [none] at he
      exact absurd he (by simp)
  | notIn | «matches» | and | not => exact absurd h (by simp [setAtom?])

/-- A conjunct with at least one listed value leaves a set for its field. -/
theorem flatten_setAtom (listed : atom ∈ conjuncts node) (h : setAtom? atom = some (field, values))
    (nonempty : values ≠ []) (b : Buckets) : field ∈ (flatten node b).sets := by
  refine flatten_conjunct (P := fun b => field ∈ b.sets)
    (fun b b' refines present => refines.sets field present) listed (fun b => ?_) b
  obtain ⟨vals, found, -⟩ := (addsSet_flatten h b).added nonempty
  rw [← AList.lookup_isSome, found]
  rfl

/-! ## Everything in the buckets comes from an atom -/

/-- Each bound, key, entry and text in the buckets is that of a listed atom. -/
structure Sourced (atoms : List QueryNode) (b : Buckets) : Prop where
  lower : ∀ field iv c, b.intervals.lookup field = some iv → iv.lo = some c →
    ∃ atom ∈ atoms, ∃ literal, lowerBound? atom = some (field, literal, c)
  upper : ∀ field iv c, b.intervals.lookup field = some iv → iv.hi = some c →
    ∃ atom ∈ atoms, ∃ literal, upperBound? atom = some (field, literal, c)
  keys : ∀ field vals, b.sets.lookup field = some vals →
    ∃ atom ∈ atoms, ∃ values, setAtom? atom = some (field, values) ∧
      ∀ w ∈ values, literalKey w ∈ vals
  entries : ∀ field vals k n, b.sets.lookup field = some vals → vals.lookup k = some n →
    ∃ atom ∈ atoms, ∃ values, setAtom? atom = some (field, values) ∧
      ∃ w ∈ values, literalKey w = k ∧ w.asNumber = n
  residual : ∀ text ∈ b.residual, ∃ atom ∈ atoms, isOpaque atom = true ∧ atom.toText = text

theorem sourced_empty (atoms : List QueryNode) : Sourced atoms .empty where
  lower _ _ _ found := absurd found (by simp [Buckets.empty])
  upper _ _ _ found := absurd found (by simp [Buckets.empty])
  keys _ _ found := absurd found (by simp [Buckets.empty])
  entries _ _ _ _ found := absurd found (by simp [Buckets.empty])
  residual _ present := absurd present (by simp [Buckets.empty])

variable {atoms : List QueryNode}

/-- Changing one range keeps the buckets sourced when every new bound is. -/
theorem Sourced.updateInterval (h : Sourced atoms b) (field : String) (f : Interval → Interval)
    (lo : ∀ iv c, (f iv).lo = some c → iv.lo = some c ∨
      ∃ atom ∈ atoms, ∃ literal, lowerBound? atom = some (field, literal, c))
    (hi : ∀ iv c, (f iv).hi = some c → iv.hi = some c ∨
      ∃ atom ∈ atoms, ∃ literal, upperBound? atom = some (field, literal, c)) :
    Sourced atoms (b.updateInterval field f) where
  lower g iv c found bound := by
    by_cases same : g = field
    · subst same
      rw [Buckets.updateInterval, AList.lookup_insert] at found
      obtain rfl := Option.some.inj found
      rcases lo _ c bound with old | new
      · cases before : b.intervals.lookup g with
        | none => rw [before] at old; exact absurd old (by simp [Interval.unbounded])
        | some iv => rw [before] at old; exact h.lower g iv c before old
      · exact new
    · rw [Buckets.updateInterval, AList.lookup_insert_ne same] at found
      exact h.lower g iv c found bound
  upper g iv c found bound := by
    by_cases same : g = field
    · subst same
      rw [Buckets.updateInterval, AList.lookup_insert] at found
      obtain rfl := Option.some.inj found
      rcases hi _ c bound with old | new
      · cases before : b.intervals.lookup g with
        | none => rw [before] at old; exact absurd old (by simp [Interval.unbounded])
        | some iv => rw [before] at old; exact h.upper g iv c before old
      · exact new
    · rw [Buckets.updateInterval, AList.lookup_insert_ne same] at found
      exact h.upper g iv c found bound
  __ := h

/-- Adding the set of a listed atom keeps the buckets sourced. -/
theorem Sourced.addsSet {b' : Buckets} (h : Sourced atoms b) (listed : atom ∈ atoms)
    (isSet : setAtom? atom = some (field, values)) (adds : AddsSet field values b b') :
    Sourced atoms b' where
  lower g iv c found := h.lower g iv c (adds.intervals ▸ found)
  upper g iv c found := h.upper g iv c (adds.intervals ▸ found)
  keys g vals found := by
    by_cases outside : g ≠ field ∨ values = []
    · exact h.keys g vals (adds.others g outside ▸ found)
    · obtain ⟨rfl, nonempty⟩ : g = field ∧ values ≠ [] := by simpa [not_or] using outside
      obtain ⟨vals', found', keyed, -, -⟩ := adds.added nonempty
      obtain rfl := Option.some.inj (found.symm.trans found')
      exact ⟨atom, listed, values, isSet, keyed⟩
  entries g vals k n found entry := by
    by_cases outside : g ≠ field ∨ values = []
    · exact h.entries g vals k n (adds.others g outside ▸ found) entry
    · obtain ⟨rfl, nonempty⟩ : g = field ∧ values ≠ [] := by simpa [not_or] using outside
      obtain ⟨vals', found', -, -, sources⟩ := adds.added nonempty
      obtain rfl := Option.some.inj (found.symm.trans found')
      rcases sources k n entry with ⟨old, before, entry⟩ | source
      · exact h.entries g old k n before entry
      · exact ⟨atom, listed, values, isSet, source⟩
  residual text present := h.residual text (adds.residual ▸ present)

/-- Recording the text of a listed opaque atom keeps the buckets sourced. -/
theorem Sourced.cons_residual
    (h : Sourced atoms b) (listed : atom ∈ atoms) (residual : isOpaque atom = true) :
    Sourced atoms { b with residual := atom.toText :: b.residual } where
  __ := h
  residual text present := by
    rcases mem_cons.mp present with rfl | old
    · exact ⟨atom, listed, residual, rfl⟩
    · exact h.residual text old

theorem newLo (h : tightenLo iv.lo cand = some c) :
    iv.lo = some c ∨ c = cand := by
  obtain ⟨c', found, -, -, origin⟩ := tightenLo_spec iv.lo cand
  obtain rfl := Option.some.inj (h.symm.trans found)
  exact origin.symm

theorem newHi (h : tightenHi iv.hi cand = some c) :
    iv.hi = some c ∨ c = cand := by
  obtain ⟨c', found, -, -, origin⟩ := tightenHi_spec iv.hi cand
  obtain rfl := Option.some.inj (h.symm.trans found)
  exact origin.symm

/-- Flattening a comparison keeps the buckets sourced. -/
theorem Sourced.flatten_compare {field : FieldNode}
    {op : CompareOp} {value : Literal} (h : Sourced atoms b)
    (listed : .compare field op value ∈ atoms) :
    Sourced atoms (flatten (.compare field op value) b) := by
  have lower : ∀ c, lowerBound? (.compare field op value) = some (field.path, value, c) →
      ∃ atom ∈ atoms, ∃ literal, lowerBound? atom = some (field.path, literal, c) :=
    fun c bound => ⟨_, listed, value, bound⟩
  have upper : ∀ c, upperBound? (.compare field op value) = some (field.path, value, c) →
      ∃ atom ∈ atoms, ∃ literal, upperBound? atom = some (field.path, literal, c) :=
    fun c bound => ⟨_, listed, value, bound⟩
  have setAtom : op = .eq → value.asNumber = none →
      Sourced atoms (addSetValue b field.path value) := by
    rintro rfl textual
    have isSet : setAtom? (.compare field .eq value) = some (field.path, [value]) := by
      simp [setAtom?, textual]
    have step : flatten (.compare field .eq value) b = addSetValue b field.path value := by
      simp only [flatten, textual]
    exact h.addsSet listed isSet (step ▸ addsSet_flatten isSet b)
  unfold flatten
  split <;> rename_i hnum
  · refine h.updateInterval _ _ (fun iv c hc => ?_) (fun iv c hc => ?_)
    · exact (newLo hc).imp_right fun new => lower c (by simp [lowerBound?, hnum, new])
    · exact (newHi hc).imp_right fun new => upper c (by simp [upperBound?, hnum, new])
  · exact setAtom rfl hnum
  · refine h.updateInterval _ _ (fun iv c hc => ?_) (fun iv c hc => .inl hc)
    exact (newLo hc).imp_right fun new => lower c (by simp [lowerBound?, hnum, new])
  · refine h.updateInterval _ _ (fun iv c hc => ?_) (fun iv c hc => .inl hc)
    exact (newLo hc).imp_right fun new => lower c (by simp [lowerBound?, hnum, new])
  · refine h.updateInterval _ _ (fun iv c hc => .inl hc) (fun iv c hc => ?_)
    exact (newHi hc).imp_right fun new => upper c (by simp [upperBound?, hnum, new])
  · refine h.updateInterval _ _ (fun iv c hc => .inl hc) (fun iv c hc => ?_)
    exact (newHi hc).imp_right fun new => upper c (by simp [upperBound?, hnum, new])
  · rename_i op _ _ eqNumber eqText gt ge lt
    refine h.cons_residual listed ?_
    cases op <;> cases number : value.asNumber <;>
      simp_all [isOpaque, setAtom?, lowerBound?, upperBound?]

/-- The buckets of a conjunction are sourced by its conjuncts. -/
theorem sourced_flatten (h : Sourced atoms b) (listed : ∀ atom ∈ conjuncts node, atom ∈ atoms) :
    Sourced atoms (flatten node b) := by
  induction node generalizing b with
  | and left right ihLeft ihRight =>
    exact ihRight (ihLeft h fun atom ha => listed atom (mem_append_left _ ha))
      fun atom ha => listed atom (mem_append_right _ ha)
  | compare field op value => exact h.flatten_compare (listed _ mem_cons_self)
  | isIn field values =>
    exact h.addsSet (listed _ mem_cons_self) rfl (addsSet_flatten rfl b)
  | or left right =>
    have here := listed _ mem_cons_self
    cases hset : orToSet (.or left right) "" ∅ with
    | none =>
      have residual : isOpaque (.or left right) = true := by
        simp [isOpaque, setAtom?, lowerBound?, upperBound?, hset]
      have step : flatten (.or left right) b =
          { b with residual := (QueryNode.or left right).toText :: b.residual } := by
        simp only [flatten, hset]
      rw [step]
      exact h.cons_residual here residual
    | some found =>
      have isSet : setAtom? (.or left right) =
          some (found.1, equalityLiterals (.or left right)) := by
        simp [setAtom?, hset]
      exact h.addsSet here isSet (addsSet_flatten isSet b)
  | notIn | «matches» | not => exact h.cons_residual (listed _ mem_cons_self) rfl

end DFTracer.Query
