/-
# States that are added to and merged

A partial state starts empty, takes values one after the other and is merged with others. A build
records how. What holds of the empty state and is kept by both steps holds of every build, along
with the values that went into it.
-/

import Mathlib.Data.List.Basic

namespace DFTracer.Math

open List

/-- How a partial state came about. -/
inductive Build (α : Type) where
  | empty
  | add (t : Build α) (x : α)
  | merge (t other : Build α)

namespace Build

variable {α σ : Type} {start : σ} {add : σ → α → σ} {join : σ → σ → σ}
  {C : Build α → Build α → Prop} {P : List α → σ → Prop}

/-- Everything that went in. -/
def values : Build α → List α
  | empty => []
  | .add t x => t.values ++ [x]
  | merge t other => t.values ++ other.values

/-- The state that comes out. -/
def run (start : σ) (add : σ → α → σ) (join : σ → σ → σ) : Build α → σ
  | empty => start
  | .add t x => add (run start add join t) x
  | merge t other => join (run start add join t) (run start add join other)

/-- The values in a row, added one by one. -/
def ofList (l : List α) : Build α := l.foldl Build.add empty

theorem values_foldl_add (l : List α) (t : Build α) :
    (l.foldl Build.add t).values = t.values ++ l := by
  induction l generalizing t with
  | nil => exact (append_nil _).symm
  | cons x l ih => rw [foldl_cons, ih, values, append_assoc, singleton_append]

@[simp] theorem values_ofList (l : List α) : (ofList l).values = l := by
  rw [ofList, values_foldl_add, values, nil_append]

section FilterMap

variable {β : Type} (f : α → Option β)

/-- The build of what is taken from the values. -/
def filterMap : Build α → Build β
  | empty => empty
  | .add t x =>
    match f x with
    | none => t.filterMap
    | some y => .add t.filterMap y
  | merge t other => merge t.filterMap other.filterMap

theorem values_filterMap (t : Build α) : (t.filterMap f).values = t.values.filterMap f := by
  induction t with
  | empty => rfl
  | add t x ih =>
    rw [filterMap, values, filterMap_append]
    cases found : f x with
    | none =>
      rw [filterMap_cons_none found, filterMap_nil, append_nil]
      exact ih
    | some y =>
      rw [filterMap_cons_some found, ← ih]
      rfl
  | merge t other ih ih' => rw [filterMap, values, values, filterMap_append, ih, ih']

theorem filterMap_foldl_add (l : List α) (t : Build α) :
    (l.foldl Build.add t).filterMap f = (l.filterMap f).foldl Build.add (t.filterMap f) := by
  induction l generalizing t with
  | nil => rfl
  | cons x l ih =>
    rw [foldl_cons, ih, filterMap]
    cases found : f x with
    | none => rw [filterMap_cons_none found]
    | some y => rw [filterMap_cons_some found, foldl_cons]

theorem filterMap_ofList (l : List α) : (ofList l).filterMap f = ofList (l.filterMap f) :=
  filterMap_foldl_add f l .empty

end FilterMap

/-- Every merging on the way meets a condition on the two that are merged. -/
def Merging (C : Build α → Build α → Prop) : Build α → Prop
  | empty => True
  | .add t _ => t.Merging C
  | merge t other => t.Merging C ∧ other.Merging C ∧ C t other

theorem merging_foldl_add (l : List α) {t : Build α}
    (all : t.Merging C) : (l.foldl Build.add t).Merging C := by
  induction l generalizing t with
  | nil => exact all
  | cons x l ih => exact @ih (t.add x) all

theorem merging_ofList (l : List α) : (ofList l).Merging C :=
  merging_foldl_add l trivial

/-- What adding keeps, and merging under a condition, holds of a build whose mergings meet it. -/
theorem run_merging (nothing : P [] start) (added : ∀ l s x, P l s → P (l ++ [x]) (add s x))
    (merged : ∀ t other, C t other → P t.values (t.run start add join) →
      P other.values (other.run start add join) →
      P (t.values ++ other.values) (join (t.run start add join) (other.run start add join)))
    (t : Build α) (all : t.Merging C) : P t.values (t.run start add join) := by
  induction t with
  | empty => exact nothing
  | add t x ih => exact added _ _ x (ih all)
  | merge t other ih ih' => exact merged t other all.2.2 (ih all.1) (ih' all.2.1)

/-- What each step keeps holds of a whole build, where every value is of a kind. -/
theorem run_invariant {kind : α → Prop} (nothing : P [] start)
    (added : ∀ l s x, kind x → P l s → P (l ++ [x]) (add s x))
    (merged : ∀ l s l' s', P l s → P l' s' → P (l ++ l') (join s s')) (t : Build α)
    (all : ∀ x ∈ t.values, kind x) : P t.values (t.run start add join) := by
  induction t with
  | empty => exact nothing
  | add t x ih =>
    rw [values, forall_mem_append, forall_mem_singleton] at all
    exact added _ _ x all.2 (ih all.1)
  | merge t other ih ih' =>
    rw [values, forall_mem_append] at all
    exact merged _ _ _ _ (ih all.1) (ih' all.2)

end Build
end DFTracer.Math
