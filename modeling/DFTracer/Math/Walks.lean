/-
# Walks along a partial function

A walk goes on as long as there is a next step. Where only finitely many members have one, a walk
ends unless it comes to a member that it comes back to.
-/

import Mathlib.Data.Fintype.Pigeonhole
import Mathlib.Data.Set.Finite.Basic

namespace DFTracer.Math

variable {α : Type} {next : α → Option α} {a b : α}

/-- Where a walk is after a number of steps, unless it has ended. -/
def walk (next : α → Option α) : Nat → α → Option α
  | 0, a => some a
  | n + 1, a => (next a).bind (walk next n)

/-- One step of a walk. -/
def Leads (next : α → Option α) (a b : α) : Prop := next a = some b

theorem walk_add (m n : Nat) (a : α) :
    walk next (m + n) a = (walk next m a).bind (walk next n) := by
  induction m generalizing a with
  | zero => rw [Nat.zero_add, walk, Option.bind_some]
  | succ m ih =>
    rw [Nat.succ_add, walk, walk, Option.bind_assoc]
    exact congrArg _ (funext ih)

theorem walk_ended {m n : Nat} (ended : walk next m a = none) (later : m ≤ n) :
    walk next n a = none := by
  rw [← Nat.add_sub_cancel' later, walk_add, ended, Option.bind_none]

theorem walk_snoc (n : Nat) (a : α) : walk next (n + 1) a = (walk next n a).bind next := by
  rw [walk_add]
  congr 1
  funext b
  rw [walk]
  cases next b <;> rfl

theorem reaches_iff : Relation.ReflTransGen (Leads next) a b ↔ ∃ n, walk next n a = some b := by
  constructor
  · intro reaches
    induction reaches with
    | refl => exact ⟨0, rfl⟩
    | tail _ step ih =>
      obtain ⟨n, there⟩ := ih
      refine ⟨n + 1, ?_⟩
      rw [walk_snoc, there]
      exact step
  · intro ⟨n, there⟩
    induction n generalizing a with
    | zero =>
      cases there
      exact .refl
    | succ n ih =>
      obtain ⟨c, step, rest⟩ := Option.bind_eq_some_iff.mp there
      exact .head step (ih rest)

theorem returns_iff : Relation.TransGen (Leads next) a b ↔ ∃ n, walk next (n + 1) a = some b := by
  rw [Relation.TransGen.head'_iff]
  constructor
  · intro ⟨c, step, rest⟩
    obtain ⟨n, there⟩ := reaches_iff.mp rest
    exact ⟨n, Option.bind_eq_some_iff.mpr ⟨c, step, there⟩⟩
  · intro ⟨n, there⟩
    obtain ⟨c, step, rest⟩ := Option.bind_eq_some_iff.mp there
    exact ⟨c, step, reaches_iff.mpr ⟨n, rest⟩⟩

/-- A walk goes around a cycle as often as one likes. -/
theorem walk_around {k : Nat} (back : walk next k b = some b) (times : Nat) :
    walk next (k * times) b = some b := by
  induction times with
  | zero => rfl
  | succ times ih => rw [Nat.mul_succ, walk_add, ih, Option.bind_some, back]

/-- A walk that does not end visits some member twice. -/
theorem exists_cycle (finite : {a | (next a).isSome}.Finite) (endless : ∀ n, walk next n a ≠ none) :
    ∃ b, (∃ m, walk next m a = some b) ∧ ∃ n, walk next (n + 1) b = some b := by
  choose visited there using fun n => Option.ne_none_iff_exists'.mp (endless n)
  have goesOn : ∀ n, (next (visited n)).isSome := by
    intro n
    have step := @walk_snoc _ next n a
    rw [there, there, Option.bind_some] at step
    rw [← step]
    rfl
  have : Finite {a | (next a).isSome} := finite
  obtain ⟨i, j, different, same⟩ := Finite.exists_ne_map_eq_of_infinite
    fun n => (⟨visited n, goesOn n⟩ : {a | (next a).isSome})
  have meet : visited i = visited j := congrArg Subtype.val same
  clear same
  wlog before : i < j generalizing i j
  · exact this j i different.symm meet.symm (Nat.lt_of_le_of_ne (Nat.le_of_not_lt before) different.symm)
  refine ⟨visited i, ⟨i, there i⟩, j - i - 1, ?_⟩
  have apart := @walk_add _ next i (j - i - 1 + 1) a
  rw [show i + (j - i - 1 + 1) = j by omega, there, there, Option.bind_some] at apart
  rw [← apart, meet]

/-- A walk ends if and only if it does not come to a member that it comes back to. -/
theorem walk_ends_iff (finite : {a | (next a).isSome}.Finite) (a : α) :
    (∃ n, walk next n a = none) ↔
      ¬ ∃ b, Relation.ReflTransGen (Leads next) a b ∧ Relation.TransGen (Leads next) b b := by
  simp only [reaches_iff, returns_iff]
  constructor
  · intro ⟨n, ended⟩ ⟨b, ⟨m, there⟩, k, back⟩
    have around : walk next (m + (k + 1) * n) a = some b := by
      rw [walk_add, there, Option.bind_some, walk_around back]
    have late : n ≤ m + (k + 1) * n :=
      (Nat.le_mul_of_pos_left n (Nat.succ_pos k)).trans (Nat.le_add_left _ _)
    rw [walk_ended ended late] at around
    cases around
  · intro noCycle
    by_contra endless
    exact noCycle (exists_cycle finite fun n ended => endless ⟨n, ended⟩)

end DFTracer.Math
