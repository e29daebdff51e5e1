/-
# Facts about lists

Filters, zips, counts and orders of lists, as far as the developments above need them and
the library does not have them.
-/

import Mathlib

namespace DFTracer.Math

open List

variable {α β : Type}

/-- Two filters keep the same elements exactly when they agree on all. -/
theorem filter_eq_filter_iff (p q : α → Bool) (list : List α) :
    list.filter p = list.filter q ↔ ∀ a ∈ list, p a = q a := by
  constructor
  · intro same a listed
    have member : a ∈ list.filter p ↔ a ∈ list.filter q := by rw [same]
    simpa [listed] using member
  · exact filter_congr

/-- Equal concatenations, no part of the first longer than that of the second: the
parts are equal. -/
theorem eq_of_flatMap_eq {f g : β → List α} {parts : List β}
    (same : parts.flatMap f = parts.flatMap g)
    (short : ∀ part ∈ parts, (f part).length ≤ (g part).length) : ∀ part ∈ parts, f part = g part := by
  induction parts with
  | nil => exact fun _ listed => absurd listed not_mem_nil
  | cons part rest ih =>
    rw [flatMap_cons, flatMap_cons] at same
    obtain ⟨first, later⟩ := forall_mem_cons.mp short
    have tail : (rest.flatMap f).length ≤ (rest.flatMap g).length := by
      rw [length_flatMap, length_flatMap]
      exact sum_le_sum later
    have total := congrArg List.length same
    rw [length_append, length_append] at total
    obtain ⟨head, others⟩ := append_inj same (by omega)
    exact forall_mem_cons.mpr ⟨head, ih others later⟩

variable {a : α} {l : List α} {i : Nat} {b : α}

theorem countP_modify (p : α → Bool) (f : α → α) (found : l[i]? = some a) :
    (l.modify i f).countP p + (if p a then 1 else 0) = l.countP p + if p (f a) then 1 else 0 := by
  induction l generalizing i with
  | nil => cases found
  | cons b l ih =>
    cases i with
    | zero =>
      cases found
      simp only [modify_zero_cons, countP_cons]
      omega
    | succ i =>
      have counted := ih found
      simp only [modify_succ_cons, countP_cons]
      omega

theorem getElem?_concat
    (found : (l ++ [a])[i]? = some b) : l[i]? = some b ∨ i = l.length ∧ b = a := by
  by_cases before : i < l.length
  · rw [getElem?_append_left before] at found
    exact .inl found
  · rw [getElem?_append_right (Nat.le_of_not_lt before), getElem?_singleton] at found
    by_cases last : i - l.length = 0
    · rw [if_pos last] at found
      cases found
      exact .inr ⟨by omega, rfl⟩
    · rw [if_neg last] at found
      cases found

/-- What is counted of the keys that a list has. -/
theorem sum_countP [DecidableEq β] (f : α → β) {keys : List β} (distinct : keys.Nodup)
    (l : List α) :
    (keys.map fun k => l.countP fun x => f x = k).sum = l.countP fun x => f x ∈ keys := by
  have split {k : β} {keys : List β} (new : k ∉ keys) :
      (l.countP fun x => f x = k) + (l.countP fun x => f x ∈ keys)
        = l.countP fun x => f x ∈ k :: keys := by
    induction l with
    | nil => rfl
    | cons x l ih =>
      rw [countP_cons, countP_cons, countP_cons, ← ih]
      by_cases here : f x = k
      · simp [here, new]
        omega
      · simp [here]
        omega
  induction keys with
  | nil => simp
  | cons k keys ih =>
    obtain ⟨new, distinct⟩ := nodup_cons.mp distinct
    rw [map_cons, sum_cons, ih distinct, split new]

theorem zip_map_self (f : α → β) (l : List α) :
    (l.map f).zip l = l.map fun x => (f x, x) := by
  induction l with
  | nil => rfl
  | cons x l ih => rw [map_cons, zip_cons_cons, ih, map_cons]

/-- Lists with equal images pair elements with equal images. -/
theorem eq_of_mem_zip {γ : Type} {f : α → γ} {g : β → γ} {xs : List α} {ys : List β}
    (h : xs.map f = ys.map g) {p : α × β} (hp : p ∈ xs.zip ys) : f p.1 = g p.2 := by
  induction xs generalizing ys with
  | nil => cases hp
  | cons x xs ih =>
    cases ys with
    | nil => cases hp
    | cons y ys =>
      obtain ⟨hhead, htail⟩ := List.cons.inj h
      rcases mem_cons.mp hp with rfl | hin
      · exact hhead
      · exact ih htail hin

theorem dropWhile_dropWhile {p q : α → Bool} (weaker : ∀ x, p x = true → q x = true)
    (l : List α) : (l.dropWhile p).dropWhile q = l.dropWhile q := by
  induction l with
  | nil => rfl
  | cons x l ih =>
    by_cases dropped : p x = true
    · rw [dropWhile_cons_of_pos dropped, ih, dropWhile_cons_of_pos (weaker x dropped)]
    · rw [dropWhile_cons_of_neg dropped]

theorem flatten_mapIdx (l : List α) (d : α) (f : Nat → α → List β) :
    (l.mapIdx f).flatten = (List.range l.length).flatMap fun i => f i (l.getD i d) := by
  congr 1
  apply ext_getElem
  · simp
  · intro i hi hi'
    have hi : i < l.length := by simpa using hi
    simp [getElem?_eq_getElem hi]

/-- Where no element repeats, no two elements stand in both orders. -/
theorem not_both_orders (distinct : l.Nodup)
    (first : [a, b].Sublist l) (second : [b, a].Sublist l) : False := by
  induction l with
  | nil => cases first
  | cons c l ih =>
    obtain ⟨fresh, distinct⟩ := nodup_cons.mp distinct
    cases first with
    | cons _ first =>
      cases second with
      | cons _ second => exact ih distinct first second
      | cons_cons _ second => exact fresh (first.subset (by simp))
    | cons_cons _ first =>
      cases second with
      | cons _ second => exact fresh (second.subset (by simp))
      | cons_cons _ second => exact fresh (first.subset (by simp))

theorem pair_sublist_of_lt [Preorder α] (sorted : l.Pairwise (· < ·)) (a_mem : a ∈ l) (b_mem : b ∈ l) (below : a < b) : [a, b].Sublist l := by
  obtain ⟨front, back, rfl⟩ := append_of_mem a_mem
  rcases mem_append.mp b_mem with early | late
  · have above := (pairwise_append.mp sorted).2.2 b early a mem_cons_self
    exact absurd (above.trans below) (lt_irrefl b)
  · rcases mem_cons.mp late with rfl | late
    · exact absurd below (lt_irrefl b)
    · apply List.Sublist.trans _ (sublist_append_right front _)
      exact cons_sublist_cons.mpr (singleton_sublist.mpr late)

end DFTracer.Math
