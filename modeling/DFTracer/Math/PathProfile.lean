/-
# Functions on paths

A tree whose nodes carry values of a commutative monoid is, seen from outside, a
function from paths to values. Grafting a tree below a node moves such a function
under a path, and adding trees node by node adds the functions, so the order in
which trees are merged drops out of the sum.
-/

import Mathlib.Algebra.BigOperators.Pi

namespace DFTracer.Math.PathProfile

open List

variable {ν M : Type*} [DecidableEq ν] [AddCommMonoid M]

/-- The function `h`, moved below the path `p`. -/
def plant (p : List ν) (h : List ν → M) : List ν → M :=
  fun q => if p <+: q then h (q.drop p.length) else 0

/-- What lies below the path `p`. -/
def below (f : List ν → M) (p : List ν) : List ν → M :=
  fun r => f (p ++ r)

@[simp] theorem plant_nil (h : List ν → M) : plant [] h = h := by
  funext q
  simp [plant]

theorem plant_append_apply (p r : List ν) (h : List ν → M) : plant p h (p ++ r) = h r := by
  simp [plant]

theorem plant_apply_of_not (p q : List ν) (h : List ν → M) (hq : ¬ p <+: q) : plant p h q = 0 :=
  if_neg hq

/-- Moving below a path twice is moving below the joined path. -/
theorem plant_plant (p q : List ν) (h : List ν → M) : plant p (plant q h) = plant (p ++ q) h := by
  funext x
  by_cases hp : p <+: x
  · obtain ⟨y, rfl⟩ := hp
    rw [plant_append_apply]
    by_cases hq : q <+: y
    · obtain ⟨z, rfl⟩ := hq
      rw [plant_append_apply, ← append_assoc, plant_append_apply]
    · rw [plant_apply_of_not _ _ _ hq, plant_apply_of_not]
      intro hpq
      exact hq ((prefix_append_right_inj p).mp hpq)
  · rw [plant_apply_of_not _ _ _ hp, plant_apply_of_not]
    intro hpq
    exact hp ((List.prefix_append p q).trans hpq)

theorem plant_add (p : List ν) (f g : List ν → M) : plant p (f + g) = plant p f + plant p g := by
  funext q
  by_cases hp : p <+: q
  · simp [plant, hp]
  · simp [plant, hp]

@[simp] theorem plant_zero (p : List ν) : plant p (0 : List ν → M) = 0 := by
  funext q
  simp [plant]

theorem plant_sum (p : List ν) (fs : List (List ν → M)) :
    plant p fs.sum = (fs.map (plant p)).sum := by
  induction fs with
  | nil => exact plant_zero p
  | cons f fs ih => rw [sum_cons, plant_add, ih, map_cons, sum_cons]

theorem plant_single (p q : List ν) (m : M) :
    plant p (Pi.single q m) = (Pi.single (p ++ q) m : List ν → M) := by
  funext x
  by_cases hp : p <+: x
  · obtain ⟨y, rfl⟩ := hp
    rw [plant_append_apply, Pi.single_apply, Pi.single_apply]
    simp only [append_cancel_left_eq]
  · rw [plant_apply_of_not _ _ _ hp, Pi.single_apply, if_neg]
    rintro rfl
    exact hp (List.prefix_append p q)

omit [DecidableEq ν] [AddCommMonoid M] in

omit [DecidableEq ν] [AddCommMonoid M] in
@[simp] theorem below_nil (f : List ν → M) : below f [] = f := rfl

/-- A sum over different names with one name that counts. -/
theorem sum_map_unique {names : List ν} (distinct : names.Nodup) {n : ν} (hn : n ∈ names)
    {F : ν → M} (h : ∀ m, m ≠ n → F m = 0) : (names.map F).sum = F n := by
  rw [sum_map_eq_nsmul_single n F fun m hm _ => h m hm,
    count_eq_one_of_mem distinct hn, one_nsmul]

/-- A subtree is its root together with the subtrees of its children. -/
theorem below_eq_children (f : List ν → M) (p : List ν) (names : List ν) (distinct : names.Nodup)
    (covers : ∀ n r, f (p ++ n :: r) ≠ 0 → n ∈ names) :
    below f p = Pi.single [] (f p) + (names.map fun n => plant [n] (below f (p ++ [n]))).sum := by
  have hsum : ∀ q : List ν, (names.map fun n => plant [n] (below f (p ++ [n]))).sum q
      = (names.map fun n => plant [n] (below f (p ++ [n])) q).sum := by
    intro q
    rw [Pi.list_sum_apply, map_map]
    rfl
  funext q
  rw [Pi.add_apply, hsum]
  cases q with
  | nil =>
    have hzero : (names.map fun n => plant [n] (below f (p ++ [n])) ([] : List ν)).sum = 0 := by
      apply sum_eq_zero
      intro x hx
      obtain ⟨n, -, rfl⟩ := mem_map.mp hx
      exact plant_apply_of_not _ _ _ (by simp)
    rw [hzero, add_zero, Pi.single_eq_same, below, append_nil]
  | cons m r =>
    have hother : ∀ n, n ≠ m → plant [n] (below f (p ++ [n])) (m :: r) = 0 := by
      intro n hn
      exact plant_apply_of_not _ _ _ (by simpa using hn)
    have hsame : plant [m] (below f (p ++ [m])) (m :: r) = below f p (m :: r) := by
      have h := plant_append_apply [m] r (below f (p ++ [m]))
      rw [singleton_append] at h
      rw [h, below, below, append_assoc, singleton_append]
    rw [Pi.single_eq_of_ne (cons_ne_nil m r), zero_add]
    by_cases hm : m ∈ names
    · rw [sum_map_unique distinct hm hother, hsame]
    · rw [sum_eq_zero]
      · by_contra hne
        exact hm (covers m r hne)
      · intro x hx
        obtain ⟨n, hn, rfl⟩ := mem_map.mp hx
        apply hother
        rintro rfl
        exact hm hn

end DFTracer.Math.PathProfile
