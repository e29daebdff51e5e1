/-
# Weighted keys

A multiset of keys, as a list in which each key stands with its weight. The weight of the
keys with a property adds up over disjoint properties and does not see the order.
-/

import Mathlib.Data.List.Perm.Basic

namespace DFTracer.Math.WeightedKeys

universe u
variable {κ : Type u}

/-- The weight of the keys with a property. -/
def weigh (p : κ → Prop) [DecidablePred p] : List (κ × Nat) → Nat
  | [] => 0
  | (key, weight) :: rest => (if p key then weight else 0) + weigh p rest

/-- The weight of all keys. -/
abbrev total (l : List (κ × Nat)) : Nat := weigh (fun _ => True) l

variable {p q r : κ → Prop} [DecidablePred p] [DecidablePred q] [DecidablePred r]
variable {l l' : List (κ × Nat)}

@[simp] theorem weigh_nil : weigh p [] = 0 := rfl

@[simp] theorem weigh_append : weigh p (l ++ l') = weigh p l + weigh p l' := by
  induction l with
  | nil => simp
  | cons e l ih => simp only [List.cons_append, weigh, ih, Nat.add_assoc]

theorem weigh_singleton (key : κ) (weight : Nat) :
    weigh p [(key, weight)] = if p key then weight else 0 := by
  simp only [weigh, Nat.add_zero]

/-- Only what holds of the keys that are there matters. -/
theorem weigh_congr (h : ∀ e ∈ l, p e.1 ↔ q e.1) : weigh p l = weigh q l := by
  induction l with
  | nil => rfl
  | cons e l ih =>
    rw [weigh, weigh, ih fun d hd => h d (List.mem_cons_of_mem e hd)]
    simp only [h e List.mem_cons_self]

theorem weigh_eq_zero (h : ∀ e ∈ l, ¬ p e.1) : weigh p l = 0 := by
  induction l with
  | nil => rfl
  | cons e l ih =>
    rw [weigh, if_neg (h e List.mem_cons_self), ih fun d hd => h d (List.mem_cons_of_mem e hd)]

theorem weigh_eq_total (h : ∀ e ∈ l, p e.1) : weigh p l = total l :=
  weigh_congr fun e he => iff_true_intro (h e he)

/-- The weights of two properties that exclude each other add up. -/
theorem weigh_add (apart : ∀ e ∈ l, p e.1 → ¬ q e.1) (whole : ∀ e ∈ l, r e.1 ↔ p e.1 ∨ q e.1) :
    weigh p l + weigh q l = weigh r l := by
  induction l with
  | nil => rfl
  | cons e l ih =>
    have here := apart e List.mem_cons_self
    have rest := ih (fun d hd => apart d (List.mem_cons_of_mem e hd))
      fun d hd => whole d (List.mem_cons_of_mem e hd)
    simp only [weigh, whole e List.mem_cons_self]
    by_cases hp : p e.1
    · simp only [here hp, if_false, or_false]
      omega
    · simp only [hp, if_false, false_or]
      omega

theorem weigh_le_total : weigh p l ≤ total l := by
  have split : weigh p l + weigh (fun k => ¬ p k) l = total l :=
    weigh_add (fun e _ hp => not_not_intro hp)
      fun e _ => ⟨fun _ => Decidable.em (p e.1), fun _ => trivial⟩
  rw [← split]
  exact Nat.le_add_right _ _

theorem weigh_perm (h : l.Perm l') : weigh p l = weigh p l' := by
  induction h with
  | nil => rfl
  | cons e _ ih => rw [weigh, weigh, ih]
  | swap e d l => simp only [weigh, Nat.add_left_comm]
  | trans _ _ ih₁ ih₂ => rw [ih₁, ih₂]

end DFTracer.Math.WeightedKeys
