/-
# Lists of fallible steps

A step for every element of a list succeeds as a whole when every step does, and fails when
one does.
-/

import Mathlib.Data.List.Forall2

namespace DFTracer.Math

open List

variable {ε α β : Type} {f : α → Except ε β} {l : List α}

theorem mapM_ok {g : α → β} (h : ∀ x ∈ l, f x = .ok (g x)) : l.mapM f = .ok (l.map g) := by
  induction l with
  | nil => rfl
  | cons x l ih =>
    rw [mapM_cons, h x mem_cons_self, ih fun y hy => h y (mem_cons_of_mem x hy)]
    rfl

/-- What every step gives of its element holds of the results in order. -/
theorem mapM_forall₂ {γ : Type} {l' : List γ} {P : γ → β → Prop}
    (h : List.Forall₂ (fun x c => ∃ y, f x = .ok y ∧ P c y) l l') :
    ∃ ys, l.mapM f = .ok ys ∧ List.Forall₂ P l' ys := by
  induction h with
  | nil => exact ⟨[], rfl, .nil⟩
  | cons hx _ ih =>
    obtain ⟨y, hy, hP⟩ := hx
    obtain ⟨ys, hys, hPs⟩ := ih
    refine ⟨y :: ys, ?_, .cons hP hPs⟩
    rw [mapM_cons, hy, hys]
    rfl

theorem mapM_error {x : α} (hx : x ∈ l) {e : ε} (he : f x = .error e) :
    ∃ e, l.mapM f = .error e := by
  induction l with
  | nil => cases hx
  | cons y l ih =>
    rw [mapM_cons]
    cases hy : f y with
    | error e' => exact ⟨e', rfl⟩
    | ok z =>
      rcases mem_cons.mp hx with rfl | hx
      · rw [hy] at he
        cases he
      · obtain ⟨e', he'⟩ := ih hx
        rw [he']
        exact ⟨e', rfl⟩

theorem mapM_eq_some {f : α → Option β} : ∀ {l : List α} {l' : List β},
    List.Forall₂ (fun a b => f a = some b) l l' → l.mapM f = some l' := by
  intro l l' h
  induction h with
  | nil => rfl
  | cons first rest ih => rw [mapM_cons, first, ih]; rfl

/-- Values that are related to each element of a list make up a list. -/
theorem exists_forall₂ {R : α → β → Prop} : ∀ {l : List α},
    (∃ l', List.Forall₂ R l l') ↔ ∀ a ∈ l, ∃ b, R a b := by
  intro l
  induction l with
  | nil =>
    constructor
    · intro _ a ha
      cases ha
    · exact fun _ => ⟨[], .nil⟩
  | cons a l ih =>
    constructor
    · rintro ⟨l', h⟩ x hx
      cases h with
      | cons first rest =>
        rcases mem_cons.mp hx with rfl | hx
        · exact ⟨_, first⟩
        · exact ih.mp ⟨_, rest⟩ x hx
    · intro h
      obtain ⟨b, first⟩ := h a mem_cons_self
      obtain ⟨l', rest⟩ := ih.mpr fun x hx => h x (mem_cons_of_mem a hx)
      exact ⟨b :: l', .cons first rest⟩

theorem mapM_eq_some_getD {f : α → Option Int} :
    ∀ {l : List α} {l' : List Int}, l.mapM f = some l' →
      l' = l.map (fun x => (f x).getD 0) ∧ ∀ x ∈ l, f x = some ((f x).getD 0)
  | [], l', same => by
    cases same
    exact ⟨rfl, fun _ listed => absurd listed not_mem_nil⟩
  | x :: l, l', same => by
    rw [mapM_cons] at same
    obtain ⟨y, first, same⟩ := Option.bind_eq_some_iff.mp same
    obtain ⟨ys, rest, same⟩ := Option.bind_eq_some_iff.mp same
    cases same
    obtain ⟨others, all⟩ := mapM_eq_some_getD rest
    rw [map_cons, ← others, forall_mem_cons, first]
    exact ⟨rfl, rfl, all⟩

theorem mapM_eq_none {f : α → Option Int} :
    ∀ {l : List α}, l.mapM f = none → ∃ x ∈ l, f x = none
  | [], failed => by cases failed
  | x :: l, failed => by
    rw [exists_mem_cons_iff]
    cases first : f x with
    | none => exact .inl rfl
    | some y =>
      cases rest : l.mapM f with
      | none => exact .inr (mapM_eq_none rest)
      | some ys =>
        rw [mapM_cons, first, rest] at failed
        cases failed

/-- What succeeds in two steps succeeds in both. -/
theorem exists_of_bind {x : Except ε α} {f : α → Except ε β} {b : β}
    (h : (x >>= f) = .ok b) : ∃ a, x = .ok a ∧ f a = .ok b := by
  cases x with
  | error e => cases h
  | ok a => exact ⟨a, rfl, h⟩

theorem toOption_bind (x : Except ε α) (g : α → Except ε β) :
    (x >>= g).toOption = x.toOption.bind fun a => (g a).toOption := by
  cases x <;> rfl

theorem toOption_mapM (g : α → Except ε β) (l : List α) :
    (l.mapM g).toOption = l.mapM fun x => (g x).toOption := by
  induction l with
  | nil => rfl
  | cons x l ih =>
    rw [mapM_cons, mapM_cons, ← ih]
    cases g x with
    | error e => rfl
    | ok y => cases l.mapM g <;> rfl

/-! ## Tables that are computed in two orders -/

section Tables

variable {π τ α β γ : Type} {f g : α → Option β} {l : List α} {ys : List β} {as : List α}
  {bs : List (List α)}

theorem mapM_cons_some (x : α) (l : List α) :
    (x :: l).mapM f = (f x).bind fun y => (l.mapM f).map (y :: ·) := by
  rw [mapM_cons]
  cases f x with
  | none => rfl
  | some y => cases l.mapM f <;> rfl

theorem mapM_congr_mem (same : ∀ x ∈ l, f x = g x) :
    l.mapM f = l.mapM g := by
  induction l with
  | nil => rfl
  | cons x l ih =>
    rw [mapM_cons_some, mapM_cons_some, same x mem_cons_self,
      ih fun y mem => same y (mem_cons_of_mem x mem)]

/-- A step that succeeds wherever another one does, and with its results. -/
theorem mapM_of_mapM (h : l.mapM f = some ys)
    (more : ∀ x ∈ l, ∀ y, f x = some y → g x = some y) : l.mapM g = some ys := by
  induction l generalizing ys with
  | nil => exact h
  | cons x l ih =>
    rw [mapM_cons_some] at h ⊢
    obtain ⟨y, first, h⟩ := Option.bind_eq_some_iff.mp h
    obtain ⟨rest, others, rfl⟩ := Option.map_eq_some_iff.mp h
    rw [more x mem_cons_self y first,
      ih others fun z mem => more z (mem_cons_of_mem x mem)]
    rfl

/-- What every step that succeeds gives holds of the results in order. -/
theorem forall₂_of_mapM {R : α → β → Prop}
    (h : l.mapM f = some ys) (each : ∀ x ∈ l, ∀ y, f x = some y → R x y) :
    List.Forall₂ R l ys := by
  induction l generalizing ys with
  | nil =>
    cases h
    exact .nil
  | cons x l ih =>
    rw [mapM_cons_some] at h
    obtain ⟨y, first, h⟩ := Option.bind_eq_some_iff.mp h
    obtain ⟨rest, others, rfl⟩ := Option.map_eq_some_iff.mp h
    exact .cons (each x mem_cons_self y first)
      (ih others fun z mem => each z (mem_cons_of_mem x mem))

theorem mapM_isSome (all : ∀ x ∈ l, (f x).isSome) :
    (l.mapM f).isSome := by
  induction l with
  | nil => rfl
  | cons x l ih =>
    rw [mapM_cons_some]
    obtain ⟨y, first⟩ := Option.isSome_iff_exists.mp (all x mem_cons_self)
    obtain ⟨rest, others⟩ := Option.isSome_iff_exists.mp
      (ih fun z mem => all z (mem_cons_of_mem x mem))
    rw [first, others]
    rfl

theorem mapM_of_none {x : α} (mem : x ∈ l) (none : f x = none) :
    l.mapM f = Option.none := by
  induction mem with
  | head l => rw [mapM_cons_some, none, Option.bind_none]
  | tail y _ ih =>
    rw [mapM_cons_some, ih]
    cases f y <;> rfl

/-- Two steps at every entry of a list. -/
theorem mapM_bind_eq {g : β → Option γ} (l : List α) :
    (l.mapM fun x => (f x).bind g) = (l.mapM f).bind fun ys => ys.mapM g := by
  induction l with
  | nil => rfl
  | cons x l ih =>
    rw [mapM_cons_some, mapM_cons_some, ih]
    cases f x with
    | none => rfl
    | some y =>
      cases l.mapM f with
      | none =>
        change ((g y).bind fun _ => none) = none
        cases g y <;> rfl
      | some ys => exact (mapM_cons_some y ys).symm

theorem mapM_zipWith_cons (places : List π) (x : π → Option α) (y : π → Option (List α)) :
    (places.mapM fun p => (x p).bind fun a => (y p).map (a :: ·)) =
      (places.mapM x).bind fun as => (places.mapM y).map fun bs => List.zipWith List.cons as bs := by
  induction places with
  | nil => rfl
  | cons p places ih =>
    rw [mapM_cons_some, mapM_cons_some, mapM_cons_some, ih]
    cases x p with
    | none => rfl
    | some a =>
      cases y p with
      | none =>
        cases places.mapM x <;> rfl
      | some b =>
        cases places.mapM x with
        | none => rfl
        | some as => cases places.mapM y <;> rfl

theorem length_of_mapM (h : l.mapM f = some ys) :
    ys.length = l.length := by
  induction l generalizing ys with
  | nil =>
    cases h
    rfl
  | cons x l ih =>
    rw [mapM_cons_some] at h
    obtain ⟨y, -, h⟩ := Option.bind_eq_some_iff.mp h
    obtain ⟨rest, all, rfl⟩ := Option.map_eq_some_iff.mp h
    rw [length_cons, length_cons, ih all]

theorem filterMap_head_zipWith (h : as.length = bs.length) :
    (List.zipWith List.cons as bs).filterMap (·[0]?) = as := by
  induction as generalizing bs with
  | nil => rfl
  | cons a as ih =>
    cases bs with
    | nil => cases h
    | cons b bs => exact congrArg (a :: ·) (ih (Nat.succ.inj h))

theorem filterMap_tail_zipWith (h : as.length = bs.length) (j : Nat) :
    (List.zipWith List.cons as bs).filterMap (·[j + 1]?) = bs.filterMap (·[j]?) := by
  induction as generalizing bs with
  | nil =>
    cases bs with
    | nil => rfl
    | cons b bs => cases h
  | cons a as ih =>
    cases bs with
    | nil => cases h
    | cons b bs =>
      rw [zipWith_cons_cons, filterMap_cons, ih (Nat.succ.inj h)]
      rfl

/-- A table that is computed by rows and collected by columns. -/
theorem mapM_transpose (places : List π) (ts : List τ) (g : π → τ → Option α)
    (finish : List α → Option β) :
    ((places.mapM fun p => ts.mapM (g p)).bind fun parts =>
      (List.range ts.length).mapM fun j => finish (parts.filterMap (·[j]?))) =
      ts.mapM fun t => (places.mapM fun p => g p t).bind finish := by
  induction ts with
  | nil =>
    have empty : (places.mapM fun p => [].mapM (g p)) = some (places.map fun _ => []) := by
      induction places with
      | nil => rfl
      | cons p places ih =>
        rw [mapM_cons_some, ih]
        rfl
    rw [empty]
    rfl
  | cons t ts ih =>
    have rows : (fun p => (t :: ts).mapM (g p)) =
        fun p => (g p t).bind fun a => (ts.mapM (g p)).map (a :: ·) :=
      funext fun p => mapM_cons_some t ts
    rw [rows, mapM_zipWith_cons, mapM_cons_some, ← ih, length_cons,
      range_succ_eq_map]
    cases first : places.mapM fun p => g p t with
    | none => rfl
    | some as =>
      cases others : places.mapM fun p => ts.mapM (g p) with
      | none =>
        change none = ((finish as).bind fun _ => none)
        cases finish as <;> rfl
      | some bs =>
        have same : as.length = bs.length :=
          (length_of_mapM first).trans (length_of_mapM others).symm
        change ((0 :: (List.range ts.length).map Nat.succ).mapM fun j =>
          finish ((List.zipWith List.cons as bs).filterMap (·[j]?))) = _
        rw [mapM_cons_some, mapM_map, filterMap_head_zipWith same]
        have tails : (fun j => finish ((List.zipWith List.cons as bs).filterMap (·[j + 1]?))) =
            fun j => finish (bs.filterMap (·[j]?)) :=
          funext fun j => congrArg finish (filterMap_tail_zipWith same j)
        exact congrArg (fun f => (finish as).bind fun u =>
          ((List.range ts.length).mapM f).map (u :: ·)) tails

end Tables

end DFTracer.Math
