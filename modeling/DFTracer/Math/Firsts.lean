/-
# First elements of each key

From a list, the elements whose key has not come before. A set of keys may already be known
when the list starts, so that a long list can be read in parts. Only which keys are known
matters, and the elements of one class of keys may be read on their own.
-/

import Mathlib.Data.List.Nodup
import Mathlib.Data.List.Pairwise
import Mathlib.Data.List.Perm.Basic

namespace DFTracer.Math

open List

variable {α β κ : Type} [DecidableEq κ]

/-- The elements whose key is neither known nor the key of an earlier element. -/
def firsts (key : α → κ) (known : List κ) : List α → List α
  | [] => []
  | x :: l => if key x ∈ known then firsts key known l
      else x :: firsts key (key x :: known) l

variable {key : α → κ} {known : List κ} {l : List α} {x : α} {known' : List κ} {k : κ}

theorem firsts_cons_known {k : α → κ} (h : k x ∈ known) :
    firsts k known (x :: l) = firsts k known l :=
  if_pos h

theorem firsts_cons_new {k : α → κ} (h : k x ∉ known) :
    firsts k known (x :: l) = x :: firsts k (k x :: known) l :=
  if_neg h

/-- Only whether the keys that come are known matters. -/
theorem firsts_congr_on (same : ∀ x ∈ l, key x ∈ known ↔ key x ∈ known') :
    firsts key known l = firsts key known' l := by
  induction l generalizing known known' with
  | nil => rfl
  | cons x l ih =>
    have hx := same x mem_cons_self
    have hl : ∀ y ∈ l, key y ∈ known ↔ key y ∈ known' :=
      fun y hy => same y (mem_cons_of_mem x hy)
    by_cases h : key x ∈ known
    · rw [firsts_cons_known h, firsts_cons_known (hx.mp h), ih hl]
    · rw [firsts_cons_new h, firsts_cons_new fun h' => h (hx.mpr h')]
      congr 1
      apply ih
      intro y hy
      rw [mem_cons, mem_cons, hl y hy]

theorem firsts_congr (same : ∀ k, k ∈ known ↔ k ∈ known') :
    firsts key known l = firsts key known' l :=
  firsts_congr_on fun x _ => same (key x)

/-- Reading a list in two parts, the keys of the first are known to the second. -/
theorem firsts_append (l' : List α) :
    firsts key known (l ++ l') = firsts key known l ++ firsts key (known ++ l.map key) l' := by
  induction l generalizing known with
  | nil => rw [nil_append, map_nil, append_nil, firsts, nil_append]
  | cons x l ih =>
    by_cases h : key x ∈ known
    · rw [cons_append, firsts_cons_known h, firsts_cons_known h, ih]
      congr 1
      apply firsts_congr
      intro k
      simp only [map_cons, mem_append, mem_cons]
      constructor
      · rintro (hk | hk)
        · exact .inl hk
        · exact .inr (.inr hk)
      · rintro (hk | rfl | hk)
        · exact .inl hk
        · exact .inl h
        · exact .inr hk
    · rw [cons_append, firsts_cons_new h, firsts_cons_new h, ih]
      congr 2
      apply firsts_congr
      intro k
      simp only [map_cons, mem_append, mem_cons]
      tauto

theorem firsts_sublist : List.Sublist (firsts key known l) l := by
  induction l generalizing known with
  | nil => exact List.Sublist.slnil
  | cons x l ih =>
    by_cases h : key x ∈ known
    · rw [firsts_cons_known h]
      exact ih.cons x
    · rw [firsts_cons_new h]
      exact ih.cons_cons x

theorem mem_map_firsts :
    k ∈ (firsts key known l).map key ↔ k ∈ l.map key ∧ k ∉ known := by
  induction l generalizing known with
  | nil => simp [firsts]
  | cons x l ih =>
    by_cases h : key x ∈ known
    · rw [firsts_cons_known h, ih, map_cons, mem_cons]
      constructor
      · rintro ⟨hk, hn⟩
        exact ⟨.inr hk, hn⟩
      · rintro ⟨rfl | hk, hn⟩
        · exact absurd h hn
        · exact ⟨hk, hn⟩
    · rw [firsts_cons_new h, map_cons, mem_cons, ih]
      by_cases hk : k = key x
      · simp [hk, h]
      · simp [hk]

theorem firsts_eq_nil : firsts key known l = [] ↔ ∀ x ∈ l, key x ∈ known := by
  constructor
  · intro h x hx
    by_contra hn
    have hmem : key x ∈ (firsts key known l).map key :=
      mem_map_firsts.mpr ⟨mem_map_of_mem hx, hn⟩
    simp [h] at hmem
  · intro h
    apply eq_nil_iff_forall_not_mem.mpr
    intro x hx
    have hk := (mem_map_firsts.mp (mem_map_of_mem (f := key) hx)).2
    exact hk (h x (firsts_sublist.subset hx))

/-- No key comes twice. -/
theorem nodup_map_firsts : ((firsts key known l).map key).Nodup := by
  induction l generalizing known with
  | nil => exact nodup_nil
  | cons x l ih =>
    by_cases h : key x ∈ known
    · rw [firsts_cons_known h]
      exact ih
    · rw [firsts_cons_new h, map_cons, nodup_cons]
      refine ⟨fun hx => ?_, ih⟩
      exact (mem_map_firsts.mp hx).2 mem_cons_self

/-- A known key that does not come changes nothing. -/
theorem firsts_unused (hk : ∀ x ∈ l, key x ≠ k) :
    firsts key (k :: known) l = firsts key known l := by
  induction l generalizing known with
  | nil => rfl
  | cons x l ih =>
    have hx := hk x mem_cons_self
    have hl : ∀ y ∈ l, key y ≠ k := fun y hy => hk y (mem_cons_of_mem x hy)
    by_cases h : key x ∈ known
    · rw [firsts_cons_known h, firsts_cons_known (mem_cons_of_mem k h), ih hl]
    · have h' : key x ∉ k :: known := by simp [hx, h]
      rw [firsts_cons_new h, firsts_cons_new h', ← @ih (key x :: known) hl]
      congr 1
      apply firsts_congr
      intro k'
      simp only [mem_cons]
      tauto

/-- The elements of a class of keys can be read on their own. -/
theorem firsts_filter {p : α → Bool} {q : κ → Bool} (hp : ∀ x, p x = q (key x)) :
    firsts key known (l.filter p) = (firsts key known l).filter p := by
  induction l generalizing known with
  | nil => rfl
  | cons x l ih =>
    by_cases hx : p x = true
    · rw [filter_cons_of_pos hx]
      by_cases h : key x ∈ known
      · rw [firsts_cons_known h, firsts_cons_known h, ih]
      · rw [firsts_cons_new h, firsts_cons_new h, filter_cons_of_pos hx, ih]
    · rw [filter_cons_of_neg hx]
      by_cases h : key x ∈ known
      · rw [firsts_cons_known h, ih]
      · rw [firsts_cons_new h, filter_cons_of_neg hx, ← ih, firsts_unused]
        intro y hy he
        apply hx
        rw [hp, ← he, ← hp]
        exact (mem_filter.mp hy).2

/-- The elements whose keys are not known. -/
def unknowns (key : α → κ) (known : List κ) (l : List α) : List α :=
  l.filter fun x => key x ∉ known

theorem mem_unknowns : x ∈ unknowns key known l ↔ x ∈ l ∧ key x ∉ known := by
  rw [unknowns, mem_filter, decide_eq_true_iff]

theorem unknowns_sublist : List.Sublist (unknowns key known l) l :=
  filter_sublist

/-- Elements with known keys may be left out first. -/
theorem firsts_unknowns : firsts key [] (unknowns key known l) = firsts key known l := by
  unfold unknowns
  have general : ∀ seen, (∀ k ∈ known, k ∉ seen) →
      firsts key seen (l.filter fun x => key x ∉ known) = firsts key (known ++ seen) l := by
    induction l with
    | nil => intro seen _; rfl
    | cons x l ih =>
      intro seen hs
      by_cases h : key x ∈ known
      · rw [filter_cons_of_neg (by simpa using h), ih seen hs,
          firsts_cons_known (mem_append_left _ h)]
      · rw [filter_cons_of_pos (by simpa using h)]
        by_cases hx : key x ∈ seen
        · rw [firsts_cons_known hx, firsts_cons_known (mem_append_right _ hx), ih seen hs]
        · have hn : key x ∉ known ++ seen := by simp [h, hx]
          rw [firsts_cons_new hx, firsts_cons_new hn, ih]
          · congr 1
            apply firsts_congr
            intro k
            simp only [mem_append, mem_cons]
            tauto
          · intro k hk hk'
            rcases mem_cons.mp hk' with rfl | hk'
            · exact h hk
            · exact hs k hk hk'
  rw [general [] (by simp), append_nil]

/-- Reading images is taking the images of what is read. -/
theorem firsts_map {f : β → α} {l : List β} :
    firsts key known (l.map f) = (firsts (fun x => key (f x)) known l).map f := by
  induction l generalizing known with
  | nil => rfl
  | cons x l ih =>
    by_cases h : key (f x) ∈ known
    · rw [map_cons, firsts_cons_known h,
        firsts_cons_known (k := fun x => key (f x)) h, ih]
    · rw [map_cons, firsts_cons_new h,
        firsts_cons_new (k := fun x => key (f x)) h, map_cons, ih]

/-- A coarser key gives the same elements exactly when it tells the keys apart. -/
theorem firsts_coarser {ι : Type} [DecidableEq ι] {g : κ → ι} :
    firsts (fun x => g (key x)) [] l = firsts key [] l
      ↔ ∀ x ∈ l, ∀ y ∈ l, g (key x) = g (key y) → key x = key y := by
  constructor
  · intro h x hx y hy hg
    have hnd : (((firsts key [] l).map key).map g).Nodup := by
      rw [map_map, ← h]
      exact nodup_map_firsts
    have hx' : key x ∈ (firsts key [] l).map key :=
      mem_map_firsts.mpr ⟨mem_map_of_mem hx, by simp⟩
    have hy' : key y ∈ (firsts key [] l).map key :=
      mem_map_firsts.mpr ⟨mem_map_of_mem hy, by simp⟩
    exact inj_on_of_nodup_map hnd hx' hy' hg
  · intro inj
    have general : ∀ l' : List α, (∀ x ∈ l', x ∈ l) → ∀ seen : List κ,
        (∀ k ∈ seen, ∃ x ∈ l, key x = k) →
        firsts (fun x => g (key x)) (seen.map g) l' = firsts key seen l' := by
      intro l'
      induction l' with
      | nil => intro _ seen _; rfl
      | cons x l' ih =>
        intro hl seen hs
        have hiff : g (key x) ∈ seen.map g ↔ key x ∈ seen := by
          constructor
          · intro hx
            obtain ⟨k, hk, he⟩ := mem_map.mp hx
            obtain ⟨y, hy, rfl⟩ := hs k hk
            rw [inj x (hl x mem_cons_self) y hy he.symm]
            exact hk
          · exact mem_map_of_mem
        have hl' : ∀ y ∈ l', y ∈ l := fun y hy => hl y (mem_cons_of_mem x hy)
        by_cases h : key x ∈ seen
        · rw [firsts_cons_known h,
            firsts_cons_known (k := fun x => g (key x)) (hiff.mpr h),
            ih hl' seen hs]
        · rw [firsts_cons_new h,
            firsts_cons_new (k := fun x => g (key x)) fun hx => h (hiff.mp hx)]
          congr 1
          apply ih hl' (key x :: seen)
          intro k hk
          rcases mem_cons.mp hk with rfl | hk
          · exact ⟨x, hl x mem_cons_self, rfl⟩
          · exact hs k hk
    exact general l (fun x hx => hx) [] (by simp)

/-- A part of a list is found again by what tells its elements apart. -/
theorem filter_mem_map_sublist {f : α → κ} {s : List α} (hs : List.Sublist s l)
    (apart : (l.map f).Nodup) : (l.filter fun x => f x ∈ s.map f) = s := by
  induction hs with
  | slnil => rfl
  | @cons s l x hs ih =>
    rw [map_cons, nodup_cons] at apart
    have hx : f x ∉ s.map f := fun hx => apart.1 ((hs.map f).subset hx)
    rw [filter_cons_of_neg (by simpa using hx)]
    exact ih apart.2
  | @cons_cons s l x hs ih =>
    rw [map_cons, nodup_cons] at apart
    rw [filter_cons_of_pos (by simp)]
    congr 1
    rw [← ih apart.2]
    apply filter_congr
    intro y hy
    have hne : f y ≠ f x := by
      intro he
      apply apart.1
      rw [← he]
      exact mem_map_of_mem hy
    rw [ih apart.2]
    simp [hne]

/-- Reading the classes one after the other gives every element once. -/
theorem flatMap_filter_perm {c : α → Nat} {n : Nat} (hc : ∀ x ∈ l, c x < n) :
    ((List.range n).flatMap fun g => l.filter fun x => c x = g).Perm l := by
  induction n generalizing l with
  | zero =>
    have hl : l = [] := by
      apply eq_nil_iff_forall_not_mem.mpr
      intro x hx
      exact absurd (hc x hx) (Nat.not_lt_zero _)
    rw [hl]
    exact List.Perm.refl _
  | succ n ih =>
    rw [range_succ, flatMap_append, flatMap_singleton]
    have below : ∀ x ∈ l.filter fun x => decide (c x < n), c x < n :=
      fun x hx => of_decide_eq_true (mem_filter.mp hx).2
    have hlow : ((List.range n).flatMap fun g => l.filter fun x => c x = g)
        = (List.range n).flatMap fun g =>
            (l.filter fun x => decide (c x < n)).filter fun x => c x = g := by
      apply flatMap_congr
      intro g hg
      rw [filter_filter]
      apply filter_congr
      intro x _
      have := mem_range.mp hg
      by_cases h : c x = g
      · simp [h, this]
      · simp [h]
    have htop : (l.filter fun x => decide (c x = n))
        = l.filter fun x => !decide (c x < n) := by
      apply filter_congr
      intro x hx
      have := hc x hx
      by_cases h : c x = n
      · simp [h]
      · have : c x < n := by omega
        simp [h, this]
    rw [hlow, htop]
    exact ((ih below).append_right _).trans (filter_append_perm _ l)

end DFTracer.Math
