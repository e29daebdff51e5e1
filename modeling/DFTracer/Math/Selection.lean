/-
# Selecting a best value

A partial state keeps the best value so far: a later one takes its place only if it is strictly
better. Values compare by a rank, and one without a rank compares to nothing. Which value is kept
depends on the order where values have one rank, and wherever one has none.
-/

import Mathlib
import DFTracer.Math.Builds

namespace DFTracer.Math

open List

variable {α κ ρ : Type}

/-- Take a value if it is the first, or better than the one so far. -/
def pick (better : α → α → Bool) : Option α → α → Option α
  | none, x => some x
  | some w, x => if better x w then some x else some w

/-- Take what another state has picked. -/
def joinPicks (better : α → α → Bool) (s : Option α) : Option α → Option α
  | none => s
  | some w => pick better s w

/-- What is picked along a build. -/
def select (better : α → α → Bool) (t : Build α) : Option α :=
  t.run none (pick better) (joinPicks better)

/-- Better values have the greater rank. -/
def RankedBy [LT κ] (rank : α → Option κ) (better : α → α → Bool) : Prop :=
  ∀ x y, better x y = true ↔ ∃ a b, rank x = some a ∧ rank y = some b ∧ b < a

/-- The values that some build may keep: all of them if one has no rank, else the best. -/
def Possible (rank : α → Option κ) (better : α → α → Bool) (l : List α) (w : α) : Prop :=
  w ∈ l ∧ ((∃ n ∈ l, rank n = none) ∨ ∀ x ∈ l, better x w = false)

variable [LinearOrder κ] {rank : α → Option κ} {better : α → α → Bool} {l : List α} {w x : α}

namespace RankedBy

section

variable (ranked : RankedBy rank better)

include ranked

theorem of_rank_none (none_ : rank w = none) :
    better x w = false := by
  rw [Bool.eq_false_iff]
  intro above
  obtain ⟨a, b, _, second, _⟩ := (ranked x w).mp above
  rw [none_] at second
  cases second

theorem irrefl (x : α) : better x x = false := by
  rw [Bool.eq_false_iff]
  intro above
  obtain ⟨a, b, first, second, less⟩ := (ranked x x).mp above
  cases first.symm.trans second
  exact lt_irrefl a less

/-- Where all have a rank, what is not beaten by a winner is not beaten by what it beats. -/
theorem not_better_trans {y z : α} (has : rank y ≠ none)
    (first : better x y = false) (second : better y z = false) : better x z = false := by
  rw [Bool.eq_false_iff] at first second ⊢
  intro above
  obtain ⟨a, c, rank_x, rank_z, less⟩ := (ranked x z).mp above
  obtain ⟨b, rank_y⟩ := Option.ne_none_iff_exists'.mp has
  apply first
  rw [ranked]
  refine ⟨a, b, rank_x, rank_y, lt_of_le_of_lt (not_lt.mp fun up => second ?_) less⟩
  exact (ranked y z).mpr ⟨b, c, rank_y, rank_z, up⟩

end

end RankedBy

/-- The best of some values that all have a rank. -/
def Best (better : α → α → Bool) (l : List α) : Option α → Prop
  | none => l = []
  | some w => w ∈ l ∧ ∀ x ∈ l, better x w = false

theorem Best.pick (ranked : RankedBy rank better) (all : ∀ y ∈ l, rank y ≠ none) {s : Option α}
    {r : List α} (first : Best better l s) {w : α} (has : rank w ≠ none) (mem : w ∈ r)
    (top : ∀ x ∈ r, better x w = false) : Best better (l ++ r) (pick better s w) := by
  cases s with
  | none =>
    rw [show l = [] from first]
    exact ⟨mem, top⟩
  | some v =>
    obtain ⟨v_mem, v_top⟩ := first
    rw [Math.pick]
    by_cases above : better w v = true
    · rw [if_pos above]
      refine ⟨mem_append_right _ mem, fun x listed => ?_⟩
      rcases mem_append.mp listed with listed | listed
      · have lower : better v w = false := by
          rw [Bool.eq_false_iff]
          intro below
          obtain ⟨a, b, rank_w, rank_v, less⟩ := (ranked w v).mp above
          obtain ⟨c, d, rank_v', rank_w', less'⟩ := (ranked v w).mp below
          cases rank_v.symm.trans rank_v'
          cases rank_w.symm.trans rank_w'
          exact lt_asymm less less'
        exact ranked.not_better_trans (all v v_mem) (v_top x listed) lower
      · exact top x listed
    · rw [if_neg above]
      rw [Bool.not_eq_true] at above
      refine ⟨mem_append_left _ v_mem, fun x listed => ?_⟩
      rcases mem_append.mp listed with listed | listed
      · exact v_top x listed
      · exact ranked.not_better_trans has (top x listed) above

theorem select_add (t : Build α) (x : α) :
    select better (t.add x) = pick better (select better t) x := rfl

theorem select_merge (t other : Build α) : select better (t.merge other) =
    joinPicks better (select better t) (select better other) := rfl

theorem pick_eq_or (better : α → α → Bool) (s : Option α) (x : α) :
    pick better s x = s ∨ pick better s x = some x := by
  cases s with
  | none => exact .inr rfl
  | some w =>
    by_cases above : better x w = true
    · exact .inr (if_pos above)
    · exact .inl (if_neg above)

/-- What a build keeps is one of its values. -/
theorem select_mem (t : Build α) :
    (select better t = none → t.values = []) ∧ ∀ w, select better t = some w → w ∈ t.values := by
  induction t with
  | empty => exact ⟨fun _ => rfl, fun w kept => absurd kept (Option.some_ne_none w).symm⟩
  | add t x ih =>
    rw [select_add]
    rcases pick_eq_or better (select better t) x with same | same
    · rw [same]
      refine ⟨fun none_ => ?_, fun w kept => mem_append_left _ (ih.2 w kept)⟩
      rw [none_] at same
      cases same
    · rw [same]
      refine ⟨fun none_ => absurd none_ (Option.some_ne_none x), fun w kept => ?_⟩
      cases kept
      exact mem_append_right _ mem_cons_self
  | merge t other ih ih' =>
    rw [select_merge, Build.values]
    cases theirs : select better other with
    | none =>
      rw [ih'.1 theirs, append_nil]
      exact ih
    | some v =>
      have v_mem := ih'.2 v theirs
      rw [joinPicks]
      rcases pick_eq_or better (select better t) v with same | same
      · rw [same]
        refine ⟨fun none_ => ?_, fun w kept => mem_append_left _ (ih.2 w kept)⟩
        rw [none_] at same
        cases same
      · rw [same]
        refine ⟨fun none_ => absurd none_ (Option.some_ne_none v), fun w kept => ?_⟩
        cases kept
        exact mem_append_right _ v_mem

theorem select_best (ranked : RankedBy rank better) (t : Build α)
    (all : ∀ y ∈ t.values, rank y ≠ none) : Best better t.values (select better t) := by
  induction t with
  | empty => rfl
  | add t x ih =>
    rw [Build.values, forall_mem_append, forall_mem_singleton] at all
    refine (ih all.1).pick ranked all.1 all.2 mem_cons_self fun y listed => ?_
    rw [mem_singleton.mp listed]
    exact ranked.irrefl x
  | merge t other ih ih' =>
    rw [Build.values, forall_mem_append] at all
    have theirs := ih' all.2
    rw [select_merge, Build.values]
    cases kept : select better other with
    | none =>
      rw [kept] at theirs
      rw [show other.values = [] from theirs, append_nil]
      exact ih all.1
    | some v =>
      rw [kept] at theirs
      exact (ih all.1).pick ranked all.1 (all.2 v theirs.1) theirs.1 theirs.2

/-- What a build keeps is one of the possible values. -/
theorem select_possible (ranked : RankedBy rank better) (t : Build α)
    (kept : select better t = some w) : Possible rank better t.values w := by
  refine ⟨(select_mem t).2 w kept, ?_⟩
  by_cases unranked : ∃ n ∈ t.values, rank n = none
  · exact .inl unranked
  · have best := select_best ranked t fun y listed none_ => unranked ⟨y, listed, none_⟩
    rw [kept] at best
    exact .inr best.2

theorem select_foldl_add (l : List α) (t : Build α) :
    select better (l.foldl Build.add t) = l.foldl (pick better) (select better t) := by
  induction l generalizing t with
  | nil => rfl
  | cons x l ih => exact ih (t.add x)

theorem foldl_pick (top : ∀ x ∈ l, better x w = false) :
    l.foldl (pick better) (some w) = some w := by
  induction l with
  | nil => rfl
  | cons x l ih =>
    obtain ⟨here, top⟩ := forall_mem_cons.mp top
    rw [foldl_cons, pick, here]
    exact ih top

/-- A value that comes first and is not beaten is kept. -/
theorem select_first (top : ∀ x ∈ l, better x w = false) :
    select better (.ofList (w :: l)) = some w :=
  (select_foldl_add (w :: l) .empty).trans (foldl_pick top)

/-- A first value without a rank hides all that comes after it in a part. -/
theorem select_beside (ranked : RankedBy rank better) {n : α} (none_ : rank n = none) :
    select better (.merge (.ofList [w]) (.ofList (n :: l))) = some w := by
  have hidden : better n w = false := by
    rw [Bool.eq_false_iff]
    intro above
    obtain ⟨a, b, first, _⟩ := (ranked n w).mp above
    rw [none_] at first
    cases first
  rw [select_merge, select_first fun x _ => ranked.of_rank_none none_,
    select_first fun x listed => absurd listed not_mem_nil, joinPicks, pick, hidden]
  rfl

section Rows

variable {β : Type} {cand : ρ → Option α} {rows : List ρ} {t : Build ρ}

theorem exists_select (ranked : RankedBy rank better)
    (possible : Possible rank better (rows.filterMap cand) w) :
    ∃ t : Build ρ, t.values.Perm rows ∧ select better (t.filterMap cand) = some w := by
  obtain ⟨mem, case⟩ := possible
  obtain ⟨r, r_mem, holds⟩ := mem_filterMap.mp mem
  obtain ⟨front, back, rfl⟩ := append_of_mem r_mem
  have order : (r :: (front ++ back)).Perm (front ++ r :: back) := perm_middle.symm
  have first : ∀ l, ((r :: l).filterMap cand) = w :: l.filterMap cand :=
    fun l => filterMap_cons_some holds
  by_cases top : ∀ x ∈ (front ++ r :: back).filterMap cand, better x w = false
  · refine ⟨.ofList (r :: (front ++ back)), ?_, ?_⟩
    · rwa [Build.values_ofList]
    · rw [Build.filterMap_ofList, first]
      refine select_first fun x listed => top x ?_
      apply (order.filterMap cand).subset
      rw [first]
      exact mem_cons_of_mem w listed
  · obtain ⟨n, listed, none_⟩ := case.resolve_right top
    obtain ⟨q, q_mem, holds'⟩ := mem_filterMap.mp listed
    have other : q ≠ r := by
      rintro rfl
      cases holds.symm.trans holds'
      exact top fun x _ => ranked.of_rank_none none_
    have rest := (mem_cons.mp (order.symm.subset q_mem)).resolve_left other
    obtain ⟨before, after, split⟩ := append_of_mem rest
    refine ⟨.merge (.ofList [r]) (.ofList (q :: (before ++ after))), ?_, ?_⟩
    · rw [Build.values, Build.values_ofList, Build.values_ofList]
      refine .trans (.cons r ?_) order
      rw [split]
      exact perm_middle.symm
    · rw [Build.filterMap, Build.filterMap_ofList, Build.filterMap_ofList, first,
        filterMap_cons_some holds']
      exact select_beside ranked none_

/-- What is kept of rows is possible for them in any order. -/
theorem possible_of_select (ranked : RankedBy rank better)
    (values : t.values.Perm rows) (kept : select better (t.filterMap cand) = some w) :
    Possible rank better (rows.filterMap cand) w := by
  obtain ⟨mem, case⟩ := select_possible ranked _ kept
  have perm : (t.filterMap cand).values.Perm (rows.filterMap cand) := by
    rw [Build.values_filterMap]
    exact values.filterMap cand
  refine ⟨perm.subset mem, case.imp ?_ fun top x listed => top x (perm.symm.subset listed)⟩
  rintro ⟨n, listed, none_⟩
  exact ⟨n, perm.subset listed, none_⟩

theorem filterMap_eq_nil_of_select (values : t.values.Perm rows)
    (none_ : select better (t.filterMap cand) = none) : rows.filterMap cand = [] := by
  have nothing := (select_mem _).1 none_
  rw [Build.values_filterMap] at nothing
  have perm := values.filterMap cand
  rw [nothing] at perm
  exact perm.nil_eq.symm

/-- All builds over some rows report the same exactly when all possible values do. -/
theorem select_agree_iff (ranked : RankedBy rank better) (rows : List ρ) (report : α → β) :
    (∀ t t' : Build ρ, t.values.Perm rows → t'.values.Perm rows →
      (select better (t.filterMap cand)).map report =
        (select better (t'.filterMap cand)).map report) ↔
    ∀ w w', Possible rank better (rows.filterMap cand) w →
      Possible rank better (rows.filterMap cand) w' → report w = report w' := by
  constructor
  · intro agree w w' possible possible'
    obtain ⟨t, values, kept⟩ := exists_select ranked possible
    obtain ⟨t', values', kept'⟩ := exists_select ranked possible'
    have same := agree t t' values values'
    rw [kept, kept'] at same
    exact Option.some_inj.mp same
  · intro agree t t' values values'
    cases kept : select better (t.filterMap cand) with
    | none =>
      have nothing := filterMap_eq_nil_of_select values kept
      cases kept' : select better (t'.filterMap cand) with
      | none => rfl
      | some w' =>
        have mem := (possible_of_select ranked values' kept').1
        rw [nothing] at mem
        cases mem
    | some w =>
      have possible := possible_of_select ranked values kept
      cases kept' : select better (t'.filterMap cand) with
      | none =>
        have mem := possible.1
        rw [filterMap_eq_nil_of_select values' kept'] at mem
        cases mem
      | some w' =>
        exact congrArg some (agree w w' possible (possible_of_select ranked values' kept'))

end Rows

end DFTracer.Math
