/-
# Space-saving summaries

A summary keeps a counter for at most `k` values of a stream. A value without a counter takes a
free one, or evicts a value of least count and inherits its count. Counters never fall below the
true counts, and a value without one occurred no more often than any counter says. Offering the
counters of one summary to another keeps both bounds unless the first has dropped a value that the
other has seen.
-/

import Mathlib.Data.Finsupp.Weight

namespace DFTracer.Math

open Finsupp List

variable {α : Type} {k c n : ℕ} {f f' g g' : α →₀ ℕ} {v w : α}

/-- What offering a value with a count may do to the counters of a summary. -/
inductive Offered (k : ℕ) (f : α →₀ ℕ) (v : α) (c : ℕ) : (α →₀ ℕ) → Prop where
  | room (free : v ∈ f.support ∨ f.support.card < k) : Offered k f v c (f + single v c)
  | evict (w : α) (absent : v ∉ f.support) (full : k ≤ f.support.card) (held : w ∈ f.support)
      (least : ∀ u ∈ f.support, f w ≤ f u) :
      Offered k f v c (f.erase w + single v (f w + c))

section Supports

open Classical in
theorem support_add_single (positive : 0 < c) :
    (f + single v c).support = insert v f.support := by
  ext u
  rw [mem_support_iff, Finset.mem_insert, mem_support_iff, Finsupp.add_apply]
  by_cases same : u = v
  · subst same
    rw [single_eq_same]
    exact iff_of_true (Nat.add_pos_right _ positive).ne' (.inl rfl)
  · rw [single_eq_of_ne same, add_zero, or_iff_right same]

theorem mem_support_add_single (positive : 0 < c) (u : α) :
    u ∈ (f + single v c).support ↔ u = v ∨ u ∈ f.support := by
  classical
  rw [support_add_single positive, Finset.mem_insert]

theorem mem_support_erase (u : α) : u ∈ (f.erase w).support ↔ u ≠ w ∧ u ∈ f.support := by
  classical
  rw [support_erase, Finset.mem_erase]

theorem degree_erase_add (f : α →₀ ℕ) (w : α) : (f.erase w).degree + f w = f.degree := by
  conv_rhs => rw [← erase_add_single w f]
  rw [map_add, degree_single]

end Supports

/-- Offering keeps a counter for every value that has one when there is room. -/
theorem card_of_room (positive : 0 < c) (free : v ∈ f.support ∨ f.support.card < k)
    (size : f.support.card ≤ k) : (f + single v c).support.card ≤ k := by
  classical
  rw [support_add_single positive]
  by_cases held : v ∈ f.support
  · rwa [Finset.insert_eq_of_mem held]
  · rw [Finset.card_insert_of_notMem held]
    exact free.resolve_left held

/-- An eviction leaves as many counters as before. -/
theorem card_of_evict (positive : 0 < n) (absent : v ∉ f.support) (held : w ∈ f.support) :
    (f.erase w + single v n).support.card = f.support.card := by
  classical
  rw [support_add_single positive, support_erase, Finset.card_insert_of_notMem,
    Finset.card_erase_add_one held]
  exact fun inside => absent (Finset.mem_of_mem_erase inside)

/-- The counters `f` of a summary, beside the true counts `g`. -/
structure Guarantees (k : ℕ) (g f : α →₀ ℕ) : Prop where
  size : f.support.card ≤ k
  seen : ∀ v ∈ f.support, v ∈ g.support
  tracked : ∀ v ∈ f.support, g v ≤ f v
  dropped : ∀ v ∈ g.support, v ∉ f.support → f.support.card = k ∧ ∀ w ∈ f.support, g v ≤ f w
  total : f.degree = g.degree

theorem guarantees_zero : Guarantees k (0 : α →₀ ℕ) 0 where
  size := Nat.zero_le k
  seen := fun _ held => held
  tracked := fun _ _ => le_rfl
  dropped := fun _ held => absurd held (Finset.notMem_empty _)
  total := rfl

/-- Offering a value to a summary adds its count to the true counts. -/
theorem Guarantees.offer (positive : 0 < c) (guarantees : Guarantees k g f)
    (offered : Offered k f v c f') : Guarantees k (g + single v c) f' := by
  cases offered with
  | room free =>
    have counted : ∀ u ∈ f.support, (g + single v c) u ≤ (f + single v c) u := by
      intro u held
      exact Nat.add_le_add_right (guarantees.tracked u held) _
    constructor
    · exact card_of_room positive free guarantees.size
    · intro u held
      rw [mem_support_add_single positive] at held ⊢
      exact held.imp_right (guarantees.seen u)
    · intro u held
      by_cases before : u ∈ f.support
      · exact counted u before
      · -- a value with a new counter was never dropped, as some counter was free
        have same := ((mem_support_add_single positive u).mp held).resolve_right before
        subst same
        have fresh : u ∉ g.support := by
          intro seen
          have full := (guarantees.dropped u seen before).1
          have := free.resolve_left before
          omega
        rw [Finsupp.add_apply, notMem_support_iff.mp fresh]
        exact Nat.add_le_add_right (Nat.zero_le _) _
    · intro u seen gone
      rw [mem_support_add_single positive, not_or] at gone
      rw [mem_support_add_single positive, or_iff_right gone.1] at seen
      obtain ⟨full, least⟩ := guarantees.dropped u seen gone.2
      have held : v ∈ f.support := free.resolve_right (by omega)
      have same : (f + single v c).support = f.support := by
        classical
        rw [support_add_single positive, Finset.insert_eq_of_mem held]
      rw [same]
      refine ⟨full, fun w counter => ?_⟩
      rw [Finsupp.add_apply, single_eq_of_ne gone.1]
      exact (least w counter).trans (Nat.le_add_right _ _)
    · rw [map_add, map_add, guarantees.total]
  | evict w absent full held least =>
    have more : 0 < f w + c := Nat.add_pos_right _ positive
    have apart : v ≠ w := fun same => absent (same ▸ held)
    have bound : ∀ u ∈ g.support, u ∉ f.support → g u ≤ f w :=
      fun u seen gone => (guarantees.dropped u seen gone).2 w held
    constructor
    · rw [card_of_evict more absent held]
      exact guarantees.size
    · intro u counter
      rw [mem_support_add_single more, mem_support_erase] at counter
      rw [mem_support_add_single positive]
      exact counter.imp_right fun rest => guarantees.seen u rest.2
    · intro u counter
      rw [mem_support_add_single more, mem_support_erase] at counter
      rw [Finsupp.add_apply, Finsupp.add_apply]
      by_cases same : u = v
      · subst same
        rw [single_eq_same, single_eq_same, erase_ne apart, notMem_support_iff.mp absent,
          Nat.zero_add]
        by_cases seen : u ∈ g.support
        · exact Nat.add_le_add_right (bound u seen absent) c
        · rw [notMem_support_iff.mp seen]
          exact Nat.add_le_add_right (Nat.zero_le _) c
      · obtain ⟨other, before⟩ := counter.resolve_left same
        rw [single_eq_of_ne same, single_eq_of_ne same, erase_ne other]
        exact guarantees.tracked u before
    · intro u seen gone
      rw [mem_support_add_single more, mem_support_erase, not_or, not_and] at gone
      rw [mem_support_add_single positive, or_iff_right gone.1] at seen
      refine ⟨?_, fun x counter => ?_⟩
      · rw [card_of_evict more absent held]
        exact le_antisymm guarantees.size full
      · -- what is gone is the evicted value, or was gone before
        have low : g u ≤ f w := by
          by_cases evicted : u = w
          · rw [evicted]
            exact guarantees.tracked w held
          · exact bound u seen (gone.2 evicted)
        rw [mem_support_add_single more, mem_support_erase] at counter
        rw [Finsupp.add_apply, Finsupp.add_apply, single_eq_of_ne gone.1]
        apply low.trans
        by_cases same : x = v
        · rw [same, single_eq_same]
          omega
        · obtain ⟨other, before⟩ := counter.resolve_left same
          rw [erase_ne other]
          exact (least x before).trans (Nat.le_add_right _ _)
    · rw [map_add, map_add, degree_single, degree_single, ← guarantees.total,
        ← degree_erase_add f w, Nat.add_assoc]

/-- A list of values with counts, offered in order. -/
inductive OfferedAll (k : ℕ) : (α →₀ ℕ) → List (α × ℕ) → (α →₀ ℕ) → Prop where
  | nil (f : α →₀ ℕ) : OfferedAll k f [] f
  | cons {f f' f'' : α →₀ ℕ} {e : α × ℕ} {l : List (α × ℕ)} (first : Offered k f e.1 e.2 f')
      (rest : OfferedAll k f' l f'') : OfferedAll k f (e :: l) f''

/-- The counts of a list of values, added up. -/
noncomputable def ofEntries (l : List (α × ℕ)) : α →₀ ℕ := (l.map fun e => single e.1 e.2).sum

variable {l : List (α × ℕ)} {m : ℕ} {D : Set α}

theorem ofEntries_cons (e : α × ℕ) (l : List (α × ℕ)) :
    ofEntries (e :: l) = single e.1 e.2 + ofEntries l := by
  rfl

theorem ofEntries_of_notMem (absent : v ∉ l.map Prod.fst) : ofEntries l v = 0 := by
  induction l with
  | nil => rfl
  | cons e l ih =>
    rw [map_cons, mem_cons, not_or] at absent
    rw [ofEntries_cons, Finsupp.add_apply, single_eq_of_ne absent.1, ih absent.2]

theorem ofEntries_of_mem (distinct : (l.map Prod.fst).Nodup) {e : α × ℕ} (listed : e ∈ l) :
    ofEntries l e.1 = e.2 := by
  induction l with
  | nil => cases listed
  | cons d l ih =>
    rw [map_cons, nodup_cons] at distinct
    rw [ofEntries_cons, Finsupp.add_apply]
    rcases mem_cons.mp listed with rfl | listed
    · rw [single_eq_same, ofEntries_of_notMem distinct.1, add_zero]
    · have other : e.1 ≠ d.1 := fun same =>
        distinct.1 (same ▸ mem_map_of_mem (f := Prod.fst) listed)
      rw [single_eq_of_ne other, ih distinct.2 listed, Nat.zero_add]

theorem mem_support_ofEntries (distinct : (l.map Prod.fst).Nodup) (positive : ∀ e ∈ l, 0 < e.2) :
    v ∈ (ofEntries l).support ↔ v ∈ l.map Prod.fst := by
  rw [mem_support_iff]
  constructor
  · intro counted
    by_contra absent
    exact counted (ofEntries_of_notMem absent)
  · intro listed
    obtain ⟨e, e_mem, rfl⟩ := mem_map.mp listed
    rw [ofEntries_of_mem distinct e_mem]
    exact (positive e e_mem).ne'

theorem degree_ofEntries (l : List (α × ℕ)) : (ofEntries l).degree = (l.map Prod.snd).sum := by
  induction l with
  | nil => exact map_zero _
  | cons e l ih =>
    rw [ofEntries_cons, map_add, degree_single, ih, map_cons, List.sum_cons]

theorem card_support_ofEntries (distinct : (l.map Prod.fst).Nodup)
    (positive : ∀ e ∈ l, 0 < e.2) : (ofEntries l).support.card = l.length := by
  classical
  have same : (ofEntries l).support = (l.map Prod.fst).toFinset := by
    ext v
    rw [mem_support_ofEntries distinct positive, mem_toFinset]
  rw [same, toFinset_card_of_nodup distinct, length_map]

theorem Guarantees.offerAll (positive : ∀ e ∈ l, 0 < e.2) (guarantees : Guarantees k g f)
    (offered : OfferedAll k f l f') : Guarantees k (g + ofEntries l) f' := by
  induction offered generalizing g with
  | nil f =>
    rw [ofEntries, map_nil, sum_nil, add_zero]
    exact guarantees
  | cons first rest ih =>
    obtain ⟨here, positive⟩ := forall_mem_cons.mp positive
    rw [ofEntries_cons, ← add_assoc]
    exact ih positive (guarantees.offer here first)

/-! ## Merging -/

/-- Either all `k` counters are at least `m`, or those of the given values are there and are. -/
def Raised (k m : ℕ) (D : Set α) (f : α →₀ ℕ) : Prop :=
  (f.support.card = k ∧ ∀ w ∈ f.support, m ≤ f w) ∨ ∀ u ∈ D, u ∈ f.support ∧ m ≤ f u

theorem Raised.offer (positive : 0 < c) (enough : m ≤ c)
    (size : f.support.card ≤ k) (raised : Raised k m D f) (offered : Offered k f v c f') :
    Raised k m (insert v D) f' := by
  have grows : ∀ u, m ≤ f u → m ≤ (f + single v c) u := fun u least => by
    exact least.trans (Nat.le_add_right _ _)
  cases offered with
  | room free =>
    rcases raised with ⟨full, all⟩ | some_
    · have held : v ∈ f.support := free.resolve_right (by omega)
      have same : (f + single v c).support = f.support := by
        classical
        rw [support_add_single positive, Finset.insert_eq_of_mem held]
      refine .inl ⟨by rw [same, full], fun u counter => ?_⟩
      rw [same] at counter
      exact grows u (all u counter)
    · refine .inr fun u given => ?_
      rw [mem_support_add_single positive]
      rcases given with same | given
      · refine ⟨.inl same, ?_⟩
        rw [same, Finsupp.add_apply, single_eq_same]
        omega
      · exact ⟨.inr (some_ u given).1, grows u (some_ u given).2⟩
  | evict w absent full held least =>
    have more : 0 < f w + c := Nat.add_pos_right _ positive
    by_cases high : m ≤ f w
    · refine .inl ⟨?_, fun u counter => ?_⟩
      · rw [card_of_evict more absent held]
        exact le_antisymm size full
      · rw [mem_support_add_single more, mem_support_erase] at counter
        rw [Finsupp.add_apply]
        by_cases same : u = v
        · rw [same, single_eq_same]
          omega
        · obtain ⟨other, before⟩ := counter.resolve_left same
          rw [erase_ne other]
          exact (high.trans (least u before)).trans (Nat.le_add_right _ _)
    · -- the evicted counter is too low to be one of the given
      have some_ := raised.resolve_left fun all => high (all.2 w held)
      refine .inr fun u given => ?_
      rw [mem_support_add_single more, mem_support_erase, Finsupp.add_apply]
      rcases given with same | given
      · rw [same, single_eq_same]
        exact ⟨.inl rfl, by omega⟩
      · have other : u ≠ w := fun same => high (same ▸ (some_ u given).2)
        rw [erase_ne other]
        exact ⟨.inr ⟨other, (some_ u given).1⟩,
          (some_ u given).2.trans (Nat.le_add_right _ _)⟩

theorem Raised.offerAll (positive : ∀ e ∈ l, 0 < e.2)
    (enough : ∀ e ∈ l, m ≤ e.2) (guarantees : Guarantees k g f) (raised : Raised k m D f)
    (offered : OfferedAll k f l f') : Raised k m (D ∪ {u | u ∈ l.map Prod.fst}) f' := by
  induction offered generalizing D g with
  | nil f => simpa using raised
  | @cons f _ _ e l first rest ih =>
    obtain ⟨here, positive⟩ := forall_mem_cons.mp positive
    obtain ⟨most, enough⟩ := forall_mem_cons.mp enough
    have next := ih positive enough (guarantees.offer here first)
      (raised.offer here most guarantees.size first)
    have same : D ∪ {u | u ∈ (e :: l).map Prod.fst} =
        insert e.1 D ∪ {u | u ∈ l.map Prod.fst} := by
      ext u
      change u ∈ D ∨ u ∈ (e :: l).map Prod.fst ↔ (u = e.1 ∨ u ∈ D) ∨ u ∈ l.map Prod.fst
      rw [map_cons, mem_cons]
      tauto
    rwa [same]

/-- Once all `k` counters of a full summary were offered, no counter is below the least of them. -/
theorem floor_of_offerAll (distinct : (l.map Prod.fst).Nodup) (full : l.length = k)
    (positive : ∀ e ∈ l, 0 < e.2) (enough : ∀ e ∈ l, m ≤ e.2) (guarantees : Guarantees k g f)
    (offered : OfferedAll k f l f') : f'.support.card = k ∧ ∀ w ∈ f'.support, m ≤ f' w := by
  classical
  have raised : Raised k m (∅ ∪ {u | u ∈ l.map Prod.fst}) f' :=
    Raised.offerAll positive enough guarantees (.inr fun _ given => absurd given id) offered
  rcases raised with all | some_
  · exact all
  · have size := (guarantees.offerAll positive offered).size
    have inside : (l.map Prod.fst).toFinset ⊆ f'.support := by
      intro u listed
      exact (some_ u (.inr (mem_toFinset.mp listed))).1
    have count : (l.map Prod.fst).toFinset.card = k := by
      rw [toFinset_card_of_nodup distinct, length_map, full]
    have same := Finset.eq_of_subset_of_card_le inside (by rwa [count])
    rw [← same, count]
    refine ⟨rfl, fun w listed => (some_ w (.inr (mem_toFinset.mp listed))).2⟩

/-- Offering the counters of a summary to another keeps the guarantees for both streams together,
unless a value of both is not counted any more by the summary that is offered. -/
theorem Guarantees.merge (distinct : (l.map Prod.fst).Nodup) (positive : ∀ e ∈ l, 0 < e.2)
    (first : Guarantees k g f) (second : Guarantees k g' (ofEntries l))
    (known : ∀ v ∈ g.support, v ∈ g'.support → v ∈ (ofEntries l).support)
    (offered : OfferedAll k f l f') : Guarantees k (g + g') f' := by
  have both := first.offerAll positive offered
  have least : ∀ v, g v + g' v ≤ (g + ofEntries l) v ∨
      g v = 0 ∧ v ∈ g'.support ∧ v ∉ (ofEntries l).support := by
    intro v
    by_cases counted : v ∈ (ofEntries l).support
    · exact .inl (Nat.add_le_add_left (second.tracked v counted) _)
    · by_cases seen : v ∈ g'.support
      · refine .inr ⟨?_, seen, counted⟩
        by_contra before
        exact counted (known v (mem_support_iff.mpr before) seen)
      · rw [notMem_support_iff.mp seen]
        exact .inl (Nat.le_add_right _ _)
  constructor
  · exact both.size
  · intro v counter
    have seen := both.seen v counter
    rw [mem_support_iff, Finsupp.add_apply] at seen ⊢
    by_cases counted : v ∈ (ofEntries l).support
    · have := mem_support_iff.mp (second.seen v counted)
      omega
    · rw [notMem_support_iff.mp counted] at seen
      omega
  · intro v counter
    rcases least v with le | ⟨before, _, gone⟩
    · exact le.trans (both.tracked v counter)
    · have seen := mem_support_iff.mp (both.seen v counter)
      rw [Finsupp.add_apply, before, notMem_support_iff.mp gone] at seen
      exact absurd rfl seen
  · intro v seen gone
    rcases least v with le | ⟨before, late, uncounted⟩
    · have counted : v ∈ (g + ofEntries l).support := by
        rw [mem_support_iff, Finsupp.add_apply] at seen ⊢
        rw [Finsupp.add_apply] at le
        omega
      obtain ⟨full, bound⟩ := both.dropped v counted gone
      exact ⟨full, fun w counter => le.trans (bound w counter)⟩
    · obtain ⟨full, bound⟩ := second.dropped v late uncounted
      rw [card_support_ofEntries distinct positive] at full
      rw [Finsupp.add_apply, before, Nat.zero_add]
      refine floor_of_offerAll distinct full positive (fun e listed => ?_) first offered
      rw [← ofEntries_of_mem distinct listed]
      apply bound
      rw [mem_support_ofEntries distinct positive]
      exact mem_map_of_mem listed
  · rw [both.total, map_add, map_add, second.total]

end DFTracer.Math
