/-
# Programs that share common operations

An expression is turned into a list of operations, each of which reads the results of earlier
ones. An operation that is asked for again, as its key tells, is not listed again. A slot stands
for a term, and as long as keys tell different operations apart, the terms are those of the
expression. A run of the list evaluates all of its terms.
-/

import Mathlib

namespace DFTracer.Math.Sharing

open List

/-- An operation with up to three operands. -/
structure Op (H σ : Type) where
  head : H
  a : σ
  b : σ
  c : σ
  deriving DecidableEq

/-- An operation on terms. The absent term stands where an operation has no operand. -/
inductive Term (H : Type)
  | absent
  | op (head : H) (a b c : Term H)
  deriving DecidableEq

/-- Where a result is kept. -/
abbrev Slot := Option Nat

variable {H K V : Type} {ts rest : List (Term H)} {slot : Slot} {op : Op H Slot}
  {program : List (Op H Slot)}

def termOf (terms : List (Term H)) : Slot → Term H
  | none => .absent
  | some k => terms.getD k .absent

/-- The term of an operation whose operands are slots. -/
def Op.term (op : Op H Slot) (terms : List (Term H)) : Term H :=
  .op op.head (termOf terms op.a) (termOf terms op.b) (termOf terms op.c)

/-- The terms of a program, slot by slot. -/
def terms (program : List (Op H Slot)) : List (Term H) :=
  program.foldl (fun ts op => ts ++ [op.term ts]) []

/-- A slot that is written. -/
def Within (n : Nat) (slot : Slot) : Prop := ∀ k ∈ slot, k < n

theorem terms_append (program : List (Op H Slot)) (op : Op H Slot) :
    terms (program ++ [op]) = terms program ++ [op.term (terms program)] := by
  rw [terms, foldl_append]
  rfl

@[simp] theorem length_terms (program : List (Op H Slot)) :
    (terms program).length = program.length := by
  induction program using List.reverseRecOn with
  | nil => rfl
  | append_singleton program op ih =>
    rw [terms_append, length_append, length_append, ih]
    rfl

theorem termOf_append (within : Within ts.length slot) :
    termOf (ts ++ rest) slot = termOf ts slot := by
  cases slot with
  | none => rfl
  | some k => exact getD_append _ _ _ _ (within k rfl)

theorem terms_grows (program rest : List (Op H Slot)) :
    terms program <+: terms (program ++ rest) := by
  induction rest using List.reverseRecOn with
  | nil => rw [append_nil]
  | append_singleton rest op ih =>
    rw [← append_assoc, terms_append]
    exact ih.trans (List.prefix_append _ _)

/-- Operands that are written. -/
structure Op.Within (op : Op H Slot) (n : Nat) : Prop where
  a : Sharing.Within n op.a
  b : Sharing.Within n op.b
  c : Sharing.Within n op.c

theorem Op.term_append (within : op.Within ts.length) :
    op.term (ts ++ rest) = op.term ts := by
  unfold Op.term
  rw [termOf_append within.a, termOf_append within.b, termOf_append within.c]

theorem Within.mono {m n : Nat} (within : Within m slot) (le : m ≤ n) :
    Within n slot :=
  fun k mem => (within k mem).trans_le le

theorem termOf_grows {program' : List (Op H Slot)} (grows : program <+: program') (within : Within program.length slot) :
    termOf (terms program') slot = termOf (terms program) slot := by
  obtain ⟨rest, rfl⟩ := grows
  obtain ⟨more, eq⟩ := terms_grows program rest
  rw [← eq, termOf_append (by rwa [length_terms])]

/-- Operations read what was written before them. -/
def Backward (program : List (Op H Slot)) : Prop :=
  ∀ (k : Nat) (op : Op H Slot), program[k]? = some op → op.Within k

theorem termOf_slot (backward : Backward program) {k : Nat} (listed : program[k]? = some op) :
    termOf (terms program) (some k) = op.term (terms program) := by
  obtain ⟨lt, eq⟩ := List.getElem?_eq_some_iff.mp listed
  have cut : program = program.take k ++ op :: program.drop (k + 1) := by
    rw [← eq, getElem_cons_drop, take_append_drop]
  have length : (program.take k).length = k := length_take_of_le lt.le
  have within : op.Within (program.take k).length := length.symm ▸ backward k op listed
  have first : program.take k ++ [op] <+: program :=
    ⟨program.drop (k + 1), by rw [append_assoc]; exact cut.symm⟩
  obtain ⟨rest, all⟩ := first
  obtain ⟨more, grown⟩ := terms_grows (program.take k ++ [op]) rest
  rw [all, terms_append] at grown
  have width : (terms (program.take k)).length = k := by rw [length_terms, length]
  rw [← grown, append_assoc, Op.term_append (by rwa [length_terms])]
  change List.getD _ k _ = _
  rw [getD_append_right _ _ _ _ width.le, width, Nat.sub_self]
  rfl

section Runs

variable (step : H → Option V → Option V → Option V → Option V)

def read (values : List V) : Slot → Option V
  | none => none
  | some k => values[k]?

/-- An operation on what its slots hold. -/
def Op.apply (op : Op H Slot) (values : List V) : Option V :=
  step op.head (read values op.a) (read values op.b) (read values op.c)

/-- One operation after the other. -/
def run (program : List (Op H Slot)) : Option (List V) :=
  program.foldlM (fun values op => (op.apply step values).map fun v => values ++ [v]) []

/-- What an operand gives: nothing where there is none, and else the value of its term. -/
def Term.operand : Term H → Option (Option V)
  | .absent => some none
  | .op head a b c =>
    a.operand.bind fun x => b.operand.bind fun y => c.operand.bind fun z =>
      (step head x y z).map some

/-- The value of a term. The absent term has none. -/
def Term.value (t : Term H) : Option V := (t.operand step).join

theorem run_append (program : List (Op H Slot)) (op : Op H Slot) :
    run step (program ++ [op]) =
      (run step program).bind fun values => (op.apply step values).map fun v => values ++ [v] := by
  unfold run
  rw [foldlM_append]
  refine congrArg (Option.bind _) (funext fun values => ?_)
  exact bind_pure _

variable {step}

theorem operand_of_value {t : Term H} {v : V} (h : t.value step = some v) :
    t.operand step = some (some v) :=
  Option.join_eq_some_iff.mp h

variable {values : List V} {ts : List (Term H)} {program : List (Op H Slot)}

theorem operand_termOf
    (evaluated : List.Forall₂ (fun t v => t.value step = some v) ts values) (slot : Slot) :
    (termOf ts slot).operand step = some (read values slot) := by
  cases slot with
  | none => rfl
  | some k =>
    change (ts.getD k .absent).operand step = some values[k]?
    rw [getD_eq_getElem?_getD]
    rcases Nat.lt_or_ge k ts.length with lt | ge
    · have lt' : k < values.length := evaluated.length_eq ▸ lt
      rw [getElem?_eq_getElem lt, getElem?_eq_getElem lt']
      exact operand_of_value (evaluated.get lt lt')
    · have ge' : values.length ≤ k := evaluated.length_eq ▸ ge
      rw [getElem?_eq_none ge, getElem?_eq_none ge']
      rfl

/-- The term of an operation has the value that the operation gives. -/
theorem value_term
    (evaluated : List.Forall₂ (fun t v => t.value step = some v) ts values) (op : Op H Slot) :
    (op.term ts).value step = op.apply step values := by
  unfold Term.value Op.term Term.operand
  rw [operand_termOf evaluated, operand_termOf evaluated, operand_termOf evaluated]
  change ((op.apply step values).map some).join = op.apply step values
  cases op.apply step values <;> rfl

theorem values_of_run (ran : run step program = some values) :
    List.Forall₂ (fun t v => t.value step = some v) (terms program) values := by
  induction program using List.reverseRecOn generalizing values with
  | nil =>
    cases ran
    exact .nil
  | append_singleton program op ih =>
    rw [run_append] at ran
    obtain ⟨before, first, last⟩ := Option.bind_eq_some_iff.mp ran
    obtain ⟨v, applied, rfl⟩ := Option.map_eq_some_iff.mp last
    have evaluated := ih first
    rw [terms_append]
    exact rel_append evaluated (.cons ((value_term evaluated op).trans applied) .nil)

theorem run_of_values (valued : ∀ t ∈ terms program, t.value step ≠ none) :
    ∃ values, run step program = some values := by
  induction program using List.reverseRecOn with
  | nil => exact ⟨[], rfl⟩
  | append_singleton program op ih =>
    rw [terms_append] at valued
    obtain ⟨before, ran⟩ := ih fun t mem => valued t (mem_append_left _ mem)
    have last := valued _ (mem_append_right _ mem_cons_self)
    rw [value_term (values_of_run ran)] at last
    obtain ⟨v, applied⟩ := Option.ne_none_iff_exists'.mp last
    refine ⟨before ++ [v], ?_⟩
    rw [run_append, ran, Option.bind_some, applied]
    rfl

theorem read_of_run (ran : run step program = some values) (slot : Slot) :
    read values slot = (termOf (terms program) slot).value step := by
  unfold Term.value
  rw [operand_termOf (values_of_run ran)]
  rfl

end Runs

/-- A program, and the slots of its operations by their keys. -/
structure Shared (H K : Type) where
  program : List (Op H Slot) := []
  memo : List (K × Nat) := []

namespace Shared

variable [DecidableEq K] (key : Op H Slot → K)

/-- The slot of an operation: that of an earlier one with its key, or a new one. -/
def emit (op : Op H Slot) (s : Shared H K) : Slot × Shared H K :=
  match s.memo.lookup (key op) with
  | some slot => (some slot, s)
  | none =>
    (some s.program.length,
      { program := s.program ++ [op], memo := (key op, s.program.length) :: s.memo })

/-- Operations read what was written before them, and every key leads to an operation that has
it. -/
structure Sound (s : Shared H K) : Prop where
  backward : Backward s.program
  keyed : ∀ k slot, s.memo.lookup k = some slot → ∃ op, s.program[slot]? = some op ∧ key op = k

/-- What emitting an operation does: its slot holds its term, and the program grows by nothing
but the operation. -/
structure Emits (op : Op H Slot) (s : Shared H K) (slot : Slot) (s' : Shared H K) : Prop where
  sound : s'.Sound key
  grows : s.program <+: s'.program
  within : Within s'.program.length slot
  term : termOf (terms s'.program) slot = op.term (terms s.program)
  operations : ∀ op' ∈ s'.program, op' ∈ s.program ∨ op' = op
  terms : ∀ t ∈ terms s'.program, t ∈ terms s.program ∨ t = op.term (terms s.program)

variable {key} {s : Shared H K} {op : Op H Slot}

theorem sound_empty : ({} : Shared H K).Sound key where
  backward := by
    intro k op listed
    cases listed
  keyed := by
    intro k slot found
    cases found

/-- Where keys tell the operation from the others, emitting it is the same as listing it. -/
theorem Sound.emit (sound : s.Sound key) (within : op.Within s.program.length)
    (told : ∀ op' ∈ s.program, key op' = key op → op' = op) :
    Emits key op s (s.emit key op).1 (s.emit key op).2 := by
  unfold Shared.emit
  cases found : s.memo.lookup (key op) with
  | some slot =>
    obtain ⟨op', listed, same⟩ := sound.keyed _ _ found
    obtain rfl := told op' (mem_of_getElem? listed) same
    exact {
      sound := sound
      grows := prefix_rfl
      within := by
        rintro k ⟨⟩
        exact (List.getElem?_eq_some_iff.mp listed).1
      term := termOf_slot sound.backward listed
      operations := fun _ mem => .inl mem
      terms := fun _ mem => .inl mem }
  | none =>
    have last : (s.program ++ [op])[s.program.length]? = some op := getElem?_concat_length
    have backward : Backward (s.program ++ [op]) := by
      intro k op' listed
      rcases Nat.lt_or_ge k s.program.length with lt | ge
      · rw [getElem?_append_left lt] at listed
        exact sound.backward k op' listed
      · obtain ⟨bound, -⟩ := List.getElem?_eq_some_iff.mp listed
        rw [length_append, length_singleton] at bound
        obtain rfl : k = s.program.length := by omega
        rw [last] at listed
        cases listed
        exact within
    have slots : ∀ k slot, ((key op, s.program.length) :: s.memo).lookup k = some slot →
        ∃ op', (s.program ++ [op])[slot]? = some op' ∧ key op' = k := by
      intro k slot h
      rw [lookup_cons] at h
      by_cases eq : k = key op
      · subst eq
        rw [beq_self_eq_true, Option.some_inj] at h
        exact ⟨op, h ▸ last, rfl⟩
      · rw [beq_false_of_ne eq] at h
        obtain ⟨op', listed, same⟩ := sound.keyed k slot h
        obtain ⟨lt, -⟩ := List.getElem?_eq_some_iff.mp listed
        exact ⟨op', by rwa [getElem?_append_left lt], same⟩
    exact {
      sound := ⟨backward, slots⟩
      grows := List.prefix_append _ _
      within := by
        rintro k ⟨⟩
        rw [length_append]
        exact Nat.lt_succ_self _
      term := by
        rw [termOf_slot backward last, terms_append, Op.term_append (by rwa [length_terms])]
      operations := by
        intro op' mem
        rw [mem_append, mem_singleton] at mem
        exact mem
      terms := by
        intro t mem
        rw [terms_append, mem_append, mem_singleton] at mem
        exact mem }

end Shared

end DFTracer.Math.Sharing
