/-
# Chains in an array of links

Each position may link to a later one. Positions are put in front of the chain of their
class, from the last one down, so that a chain lists the positions of its class in
ascending order.
-/

import Mathlib.Data.List.Range

namespace DFTracer.Math

open List

/-- Following the links from a start goes through exactly these positions. -/
inductive Chained (next : Nat → Option Nat) : Option Nat → List Nat → Prop
  | nil : Chained next none []
  | cons {r : Nat} {rs : List Nat} (rest : Chained next (next r) rs) :
      Chained next (some r) (r :: rs)

theorem Chained.congr {next next' : Nat → Option Nat} {start : Option Nat} {rs : List Nat}
    (h : Chained next start rs) (agree : ∀ r ∈ rs, next' r = next r) : Chained next' start rs := by
  induction h with
  | nil => exact .nil
  | @cons r rs _ ih =>
    apply Chained.cons
    rw [agree r mem_cons_self]
    exact ih fun r' hr => agree r' (mem_cons_of_mem r hr)

variable {κ : Type} [DecidableEq κ]

/-- The positions of a class from `k` on. -/
def classFrom (cls : Nat → Option κ) (k n : Nat) (a : κ) : List Nat :=
  (List.range' k (n - k)).filter fun i => cls i = some a

section ClassFrom

variable {cls : Nat → Option κ} {k n : Nat}

theorem mem_classFrom {a : κ} {i : Nat} :
    i ∈ classFrom cls k n a ↔ (k ≤ i ∧ i < n) ∧ cls i = some a := by
  rw [classFrom, mem_filter, mem_range'_1, decide_eq_true_iff]
  constructor
  · rintro ⟨⟨hk, hn⟩, hcls⟩
    exact ⟨⟨hk, by omega⟩, hcls⟩
  · rintro ⟨⟨hk, hn⟩, hcls⟩
    exact ⟨⟨hk, by omega⟩, hcls⟩

theorem classFrom_self (a : κ) : classFrom cls n n a = [] := by
  rw [classFrom, Nat.sub_self, range'_zero, filter_nil]

theorem classFrom_step (hk : k < n) (a : κ) :
    classFrom cls k n a
      = if cls k = some a then k :: classFrom cls (k + 1) n a else classFrom cls (k + 1) n a := by
  have hrange : List.range' k (n - k) = k :: List.range' (k + 1) (n - (k + 1)) := by
    rw [show n - k = n - (k + 1) + 1 by omega, range'_succ]
  rw [classFrom, hrange, filter_cons]
  by_cases h : cls k = some a
  · rw [if_pos (decide_eq_true h), if_pos h, classFrom]
  · rw [if_neg (by simpa using h), if_neg h, classFrom]

theorem length_classFrom_le (a : κ) : (classFrom cls k n a).length ≤ n := by
  refine Nat.le_trans (length_filter_le _ _) ?_
  rw [length_range']
  exact Nat.sub_le n k

end ClassFrom

/-- The positions from `k` on are in the chains of their classes. -/
structure Linked (cls : Nat → Option κ) (k : Nat) (first : κ → Option Nat)
    (next : List (Option Nat)) : Prop where
  untouched : ∀ i < k, next[i]? = some none
  chained : ∀ a, Chained (fun r => (next[r]?).join) (first a) (classFrom cls k next.length a)

namespace Linked

variable {cls : Nat → Option κ} {k : Nat} {first : κ → Option Nat} {next : List (Option Nat)}

theorem start (n : Nat) : Linked cls n (fun _ => none) (List.replicate n none) where
  untouched := fun i hi => by rw [getElem?_replicate, if_pos hi]
  chained := fun a => by
    rw [length_replicate, classFrom_self]
    exact .nil

section

variable (h : Linked cls (k + 1) first next) (hk : k < next.length)

include h hk

/-- A position without a class is passed over. -/
theorem skip (hcls : cls k = none) :
    Linked cls k first next where
  untouched := fun i hi => h.untouched i (by omega)
  chained := fun a => by
    rw [classFrom_step hk, hcls]
    exact h.chained a

/-- A position is put in front of the chain of its class. -/
theorem push {a : κ}
    (hcls : cls k = some a) :
    Linked cls k (Function.update first a (some k))
      (if (first a).isSome then next.set k (first a) else next) := by
  -- where there is nothing to link to, the link is the one that is there already
  have hset : (if (first a).isSome then next.set k (first a) else next) = next.set k (first a) := by
    cases hfirst : first a with
    | some r => rfl
    | none =>
      rw [Option.isSome_none, if_neg Bool.false_ne_true]
      apply ext_getElem?
      intro i
      by_cases hi : i = k
      · rw [hi, getElem?_set_self hk]
        exact h.untouched k (by omega)
      · rw [getElem?_set_ne (Ne.symm hi)]
  rw [hset]
  have hothers (b : κ) : ∀ r ∈ classFrom cls (k + 1) next.length b,
      ((next.set k (first a))[r]?).join = (next[r]?).join := by
    intro r hr
    have := (mem_classFrom.mp hr).1
    rw [getElem?_set_ne (by omega)]
  constructor
  · intro i hi
    rw [getElem?_set_ne (by omega)]
    exact h.untouched i (by omega)
  · intro b
    rw [length_set, classFrom_step hk, hcls]
    by_cases hb : a = b
    · subst hb
      rw [if_pos rfl, Function.update_self]
      apply Chained.cons
      rw [getElem?_set_self hk]
      exact (h.chained a).congr (hothers a)
    · rw [if_neg (fun heq => hb (Option.some.inj heq)), Function.update_of_ne (Ne.symm hb)]
      exact (h.chained b).congr (hothers b)

end

end Linked

end DFTracer.Math
