/-
# Merging sorted runs

Several runs, each ascending by an id that no two elements share, are read together: every
time the run with the least head gives an element. What comes out is the ascending list of
all the elements, in however many parts it is read.
-/

import Mathlib.Data.List.Perm.Basic
import Mathlib.Data.List.Pairwise

namespace DFTracer.Math

open List

variable {α ρ : Type}

/-- Take the least head of the runs, of the earliest run where several have it. -/
def popMin (head : ρ → Option α) (pop : ρ → ρ) (id : α → Nat) : List ρ → Option (α × List ρ)
  | [] => none
  | r :: rs => match head r, popMin head pop id rs with
    | none, none => none
    | some x, none => some (x, pop r :: rs)
    | none, some (y, rs') => some (y, r :: rs')
    | some x, some (y, rs') => if id y < id x then some (y, r :: rs') else some (x, pop r :: rs)

/-- Take the least head up to `n` times. -/
def takeMin (head : ρ → Option α) (pop : ρ → ρ) (id : α → Nat) :
    Nat → List ρ → List α × List ρ
  | 0, rs => ([], rs)
  | n + 1, rs => match popMin head pop id rs with
    | none => ([], rs)
    | some (x, rs') =>
      (x :: (takeMin head pop id n rs').1, (takeMin head pop id n rs').2)

/-- How a run reads: its elements in order, of which the first is the head. -/
structure Reads (head : ρ → Option α) (pop : ρ → ρ) (left : ρ → List α) : Prop where
  head : ∀ r, head r = (left r).head?
  pop : ∀ r, left (pop r) = (left r).tail

/-- The runs still hold this ascending list, cut into ascending parts. -/
structure Pending (id : α → Nat) (left : ρ → List α) (l : List α) (rs : List ρ) : Prop where
  ascending : l.Pairwise fun x y => id x < id y
  perm : (rs.flatMap left).Perm l
  runs : ∀ r ∈ rs, (left r).Pairwise fun x y => id x < id y

variable {head : ρ → Option α} {pop : ρ → ρ} {id : α → Nat} {left : ρ → List α} {rs rs' : List ρ}
  {x : α}

theorem popMin_none (h : Reads head pop left) :
    popMin head pop id rs = none ↔ rs.flatMap left = [] := by
  induction rs with
  | nil => simp [popMin]
  | cons r rs ih =>
    rw [flatMap_cons, append_eq_nil_iff, ← ih, ← head?_eq_none_iff, ← h.head r,
      popMin]
    cases hr : head r with
    | none =>
      cases hp : popMin head pop id rs with
      | none | some p => simp
    | some x =>
      cases hp : popMin head pop id rs with
      | none => simp
      | some p =>
        by_cases hlt : id p.1 < id x <;> simp [hlt]

/-- What is taken is an element, and the rest stays. -/
theorem popMin_perm (h : Reads head pop left) (hx : popMin head pop id rs = some (x, rs')) :
    (rs.flatMap left).Perm (x :: rs'.flatMap left) := by
  induction rs generalizing x rs' with
  | nil => simp [popMin] at hx
  | cons r rs ih =>
    have own {x : α} (hr : head r = some x) :
        ((r :: rs).flatMap left).Perm (x :: (pop r :: rs).flatMap left) := by
      have hl : left r = x :: left (pop r) := by
        rw [h.pop]
        rw [h.head] at hr
        exact (cons_head?_tail hr).symm
      rw [flatMap_cons, flatMap_cons, hl, cons_append]
    have other {y : α} {rs' : List ρ} (hy : (rs.flatMap left).Perm (y :: rs'.flatMap left)) :
        ((r :: rs).flatMap left).Perm (y :: (r :: rs').flatMap left) := by
      exact (hy.append_left _).trans perm_middle
    rw [popMin] at hx
    cases hr : head r with
    | none =>
      cases hp : popMin head pop id rs with
      | none => simp [hr, hp] at hx
      | some p =>
        simp only [hr, hp] at hx
        obtain ⟨rfl, rfl⟩ := hx
        exact other (ih hp)
    | some y =>
      cases hp : popMin head pop id rs with
      | none =>
        simp only [hr, hp] at hx
        obtain ⟨rfl, rfl⟩ := hx
        exact own hr
      | some p =>
        by_cases hlt : id p.1 < id y
        · simp only [hr, hp, hlt] at hx
          obtain ⟨rfl, rfl⟩ := hx
          exact other (ih hp)
        · simp only [hr, hp, hlt] at hx
          obtain ⟨rfl, rfl⟩ := hx
          exact own hr

/-- A run that is popped is one of the runs, or one of them after its head. -/
theorem popMin_runs {P : ρ → Prop} (hpop : ∀ r, P r → P (pop r))
    (hx : popMin head pop id rs = some (x, rs')) (hP : ∀ r ∈ rs, P r) : ∀ r ∈ rs', P r := by
  induction rs generalizing x rs' with
  | nil => simp [popMin] at hx
  | cons r rs ih =>
    have hr := hP r mem_cons_self
    have hrs : ∀ r ∈ rs, P r := fun r' h => hP r' (mem_cons_of_mem r h)
    have own : ∀ r' ∈ pop r :: rs, P r' := by
      rintro r' (_ | ⟨_, hr'⟩)
      · exact hpop r hr
      · exact hrs r' hr'
    have other {y : α} {rs' : List ρ} (hp : popMin head pop id rs = some (y, rs')) :
        ∀ r' ∈ r :: rs', P r' := by
      rintro r' (_ | ⟨_, hr'⟩)
      · exact hr
      · exact ih hp hrs r' hr'
    rw [popMin] at hx
    split at hx
    · simp at hx
    · obtain ⟨rfl, rfl⟩ := Prod.mk.inj (Option.some.inj hx)
      exact own
    · rename_i hp
      obtain ⟨rfl, rfl⟩ := Prod.mk.inj (Option.some.inj hx)
      exact other hp
    · rename_i hp
      split at hx
      · obtain ⟨rfl, rfl⟩ := Prod.mk.inj (Option.some.inj hx)
        exact other hp
      · obtain ⟨rfl, rfl⟩ := Prod.mk.inj (Option.some.inj hx)
        exact own

/-- What is taken is the least of what ascending runs hold. -/
theorem popMin_least (h : Reads head pop left) (hx : popMin head pop id rs = some (x, rs'))
    (sorted : ∀ r ∈ rs, (left r).Pairwise fun x y => id x < id y) :
    ∀ y ∈ rs.flatMap left, id x ≤ id y := by
  induction rs generalizing x rs' with
  | nil => simp [popMin] at hx
  | cons r rs ih =>
    have hrs : ∀ r ∈ rs, (left r).Pairwise fun x y => id x < id y :=
      fun r' h => sorted r' (mem_cons_of_mem r h)
    have ofHead {x : α} (hr : head r = some x) : ∀ y ∈ left r, id x ≤ id y := by
      have hl : left r = x :: (left r).tail := by
        rw [h.head] at hr
        exact (cons_head?_tail hr).symm
      intro y hy
      rw [hl] at hy
      have hs := sorted r mem_cons_self
      rw [hl] at hs
      rcases mem_cons.mp hy with rfl | hy
      · exact Nat.le_refl _
      · exact Nat.le_of_lt ((pairwise_cons.mp hs).1 y hy)
    intro y hy
    rw [flatMap_cons, mem_append] at hy
    rw [popMin] at hx
    split at hx
    · simp at hx
    · rename_i hr hp
      obtain ⟨rfl, rfl⟩ := Prod.mk.inj (Option.some.inj hx)
      rw [(popMin_none h).mp hp] at hy
      rcases hy with hy | hy
      · exact ofHead hr y hy
      · cases hy
    · rename_i hr hp
      obtain ⟨rfl, rfl⟩ := Prod.mk.inj (Option.some.inj hx)
      rw [h.head, head?_eq_none_iff] at hr
      rw [hr] at hy
      rcases hy with hy | hy
      · cases hy
      · exact ih hp hrs y hy
    · rename_i hr hp
      split at hx
      · rename_i hlt
        obtain ⟨rfl, rfl⟩ := Prod.mk.inj (Option.some.inj hx)
        rcases hy with hy | hy
        · exact Nat.le_trans (Nat.le_of_lt hlt) (ofHead hr y hy)
        · exact ih hp hrs y hy
      · rename_i hlt
        obtain ⟨rfl, rfl⟩ := Prod.mk.inj (Option.some.inj hx)
        rcases hy with hy | hy
        · exact ofHead hr y hy
        · exact Nat.le_trans (Nat.le_of_not_lt hlt) (ih hp hrs y hy)

namespace Pending

variable {l : List α} {rs : List ρ}

theorem popMin_eq_none (h : Reads head pop left) (p : Pending id left [] rs) :
    popMin head pop id rs = none :=
  (popMin_none h).mpr (perm_nil.mp p.perm)

/-- Runs that hold an ascending list give its first element and hold the others. -/
theorem popMin_cons (h : Reads head pop left) {x : α} (p : Pending id left (x :: l) rs) :
    ∃ rs', popMin head pop id rs = some (x, rs') ∧ Pending id left l rs' := by
  cases hp : popMin head pop id rs with
  | none =>
    have hnil := (popMin_none h).mp hp
    have hperm := p.perm
    rw [hnil] at hperm
    cases nil_perm.mp hperm
  | some q =>
    obtain ⟨y, rs'⟩ := q
    have hperm := popMin_perm h hp
    have hy : y ∈ x :: l := p.perm.subset (hperm.symm.subset mem_cons_self)
    have hle : id y ≤ id x :=
      popMin_least h hp p.runs x (p.perm.symm.subset mem_cons_self)
    have hxy : y = x := by
      rcases mem_cons.mp hy with rfl | hy
      · rfl
      · exact absurd ((pairwise_cons.mp p.ascending).1 y hy) (Nat.not_lt.mpr hle)
    subst hxy
    refine ⟨rs', rfl, (pairwise_cons.mp p.ascending).2,
      (hperm.symm.trans p.perm).cons_inv, ?_⟩
    apply popMin_runs (P := fun r => (left r).Pairwise fun x y => id x < id y) _ hp p.runs
    intro r hr
    rw [h.pop]
    exact hr.sublist (tail_sublist _)

/-- Taking `n` times gives the first `n` elements. -/
theorem takeMin (h : Reads head pop left) (p : Pending id left l rs) (n : Nat) :
    (takeMin head pop id n rs).1 = l.take n ∧
      Pending id left (l.drop n) (takeMin head pop id n rs).2 := by
  induction n generalizing l rs with
  | zero => exact ⟨rfl, p⟩
  | succ n ih =>
    cases l with
    | nil =>
      rw [Math.takeMin, p.popMin_eq_none h]
      exact ⟨rfl, p⟩
    | cons x l =>
      obtain ⟨rs', hp, p'⟩ := p.popMin_cons h
      rw [Math.takeMin, hp]
      exact ⟨congrArg (x :: ·) (ih p').1, (ih p').2⟩

end Pending

end DFTracer.Math
