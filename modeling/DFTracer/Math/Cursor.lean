/-
# Reading from the front of a list

A cursor reads a value from the front of a list and leaves the rest, or it fails. When it reads
no further than the value goes, what it answers for a written value does not depend on what
follows, and then a value cut short and a value with something behind it are both told from a
whole one.
-/

import Mathlib.Tactic.Common

namespace DFTracer.Math

open List

/-- Read from the front of a list and leave the rest, or fail. -/
abbrev Cursor (β : Type) : Type → Type := StateT (List β) Option

namespace Cursor

variable {β α γ : Type}

/-- One element. -/
def next : Cursor β β
  | [] => none
  | b :: rest => some (b, rest)

/-- As many elements as are asked for. -/
def take (n : Nat) : Cursor β (List β) := fun data =>
  if n ≤ data.length then some (data.take n, data.drop n) else none

/-- One value after the other. -/
def repeated (p : Cursor β α) : Nat → Cursor β (List α)
  | 0 => pure []
  | n + 1 => do
      let a ← p
      let rest ← repeated p n
      pure (a :: rest)

/-- Read a value that takes the whole list. -/
def whole (p : Cursor β α) (data : List β) : Option α :=
  match p data with
  | some (a, []) => some a
  | _ => none

/-- What is read does not depend on what follows it. -/
def Local (p : Cursor β α) : Prop :=
  ∀ data a rest, p data = some (a, rest) → ∀ more, p (data ++ more) = some (a, rest ++ more)

/-- What is read from a word, whatever follows it. -/
def Answers (p : Cursor β α) (word : List β) (answer : Option α) : Prop :=
  ∀ rest, p (word ++ rest) = answer.map (·, rest)

theorem bind_eq_some {p : Cursor β α} {f : α → Cursor β γ} {data rest : List β} {c : γ} :
    (p >>= f) data = some (c, rest) ↔
      ∃ a left, p data = some (a, left) ∧ f a left = some (c, rest) := by
  change (p data).bind (fun read => f read.1 read.2) = _ ↔ _
  rw [Option.bind_eq_some_iff]
  exact Prod.exists

namespace Local

variable {p : Cursor β α} {f : α → Cursor β γ}

theorem pure (a : α) : Local (Pure.pure a : Cursor β α) := by
  intro data b rest read more
  cases read
  rfl

theorem failure : Local (Alternative.failure : Cursor β α) := by
  intro data b rest read
  cases read

theorem bind (first : Local p) (second : ∀ a, Local (f a)) : Local (p >>= f) := by
  intro data c rest read more
  obtain ⟨a, left, hp, hf⟩ := bind_eq_some.mp read
  exact bind_eq_some.mpr ⟨a, left ++ more, first _ _ _ hp more, second a _ _ _ hf more⟩

theorem guarded (c : Prop) [Decidable c] : Local (guard c : Cursor β Unit) := by
  by_cases h : c
  · rw [guard, if_pos h]
    exact pure ()
  · rw [guard, if_neg h]
    exact failure

theorem next : Local (next : Cursor β β) := by
  intro data b rest read more
  cases data with
  | nil => cases read
  | cons c data =>
    cases read
    rfl

theorem take (n : Nat) : Local (take n : Cursor β (List β)) := by
  intro data front rest read more
  by_cases enough : n ≤ data.length
  · rw [Cursor.take, if_pos enough] at read
    cases read
    rw [Cursor.take, if_pos (by rw [length_append]; omega), take_append_of_le_length enough,
      drop_append_of_le_length enough]
  · rw [Cursor.take, if_neg enough] at read
    cases read

theorem repeated (first : Local p) (n : Nat) : Local (repeated p n) := by
  induction n with
  | zero => exact pure []
  | succ n ih => exact first.bind fun a => ih.bind fun rest => pure (a :: rest)

end Local

namespace Answers

variable {p : Cursor β α} {f : α → Cursor β γ} {u v : List β}

theorem pure (a : α) : Answers (Pure.pure a : Cursor β α) [] (some a) := fun _ => rfl

theorem bind {answer : Option α} {onward : α → Option γ} (first : Answers p u answer)
    (second : ∀ a, answer = some a → Answers (f a) v (onward a)) :
    Answers (p >>= f) (u ++ v) (answer.bind onward) := by
  intro rest
  change (p (u ++ v ++ rest)).bind (fun read => f read.1 read.2) = _
  rw [append_assoc, first]
  cases answer with
  | none => rfl
  | some a => exact second a rfl rest

theorem bind_some {a : α} {answer : Option γ} (first : Answers p u (some a))
    (second : Answers (f a) v answer) : Answers (p >>= f) (u ++ v) answer := by
  apply @first.bind _ _ _ _ _ _ _ _ (fun _ => answer)
  intro b same
  cases same
  exact second

theorem bind_none (first : Answers p u none) : Answers (p >>= f) (u ++ v) none := by
  apply @first.bind _ _ _ _ _ _ _ _ (fun _ => none)
  exact fun _ impossible => nomatch impossible

theorem guarded {c : Prop} [Decidable c] {q : Cursor β α} {answer : Option α}
    (onward : c → Answers q v answer) :
    Answers (do guard c; q) v (if c then answer else none) := by
  intro rest
  by_cases h : c
  · rw [guard, if_pos h, if_pos h]
    exact onward h rest
  · rw [guard, if_neg h, if_neg h]
    rfl

theorem next (b : β) : Answers next [b] (some b) := fun _ => rfl

theorem take (word : List β) : Answers (take word.length) word (some word) := by
  intro rest
  rw [Cursor.take, if_pos (by rw [length_append]; omega), take_left, drop_left]
  rfl

theorem repeated {δ : Type} {encode : δ → List β} {answer : δ → Option α} {values : List δ}
    (each : ∀ value ∈ values, Answers p (encode value) (answer value)) :
    Answers (repeated p values.length) (values.flatMap encode) (values.mapM answer) := by
  induction values with
  | nil => exact pure []
  | cons value values ih =>
    have rest := ih fun value' listed => each value' (mem_cons_of_mem value listed)
    rw [mapM_cons]
    exact (each value mem_cons_self).bind fun a _ => by
      have := rest.bind (f := fun rest => (Pure.pure (a :: rest) : Cursor β _))
        fun rest _ => pure (a :: rest)
      rwa [append_nil] at this

end Answers
section Whole

variable {p : Cursor β α} {word : List β} {answer : Option α}

theorem whole_answers (answers : Answers p word answer) : whole p word = answer := by
  have read := answers []
  rw [append_nil] at read
  rw [whole, read]
  cases answer <;> rfl

/-- A word with something behind it is refused. -/
theorem whole_longer (answers : Answers p word answer) {extra : List β} (some : extra ≠ []) :
    whole p (word ++ extra) = none := by
  rw [whole, answers extra]
  cases answer with
  | none => rfl
  | some a =>
    cases extra with
    | nil => exact absurd rfl some
    | cons b extra => rfl

/-- A word that is cut short is refused. -/
theorem whole_shorter (here : Local p) (answers : Answers p word answer) {front extra : List β}
    (cut : front ++ extra = word) (some : extra ≠ []) : whole p front = none := by
  rw [whole]
  cases read : p front with
  | none => rfl
  | some found =>
    obtain ⟨a, rest⟩ := found
    have onward := here _ _ _ read extra
    have all := answers []
    rw [append_nil, ← cut, onward] at all
    cases rest with
    | cons b rest => rfl
    | nil =>
      cases answer with
      | none => cases all
      | some c =>
        cases all
        exact absurd rfl some

end Whole

end Cursor
end DFTracer.Math
