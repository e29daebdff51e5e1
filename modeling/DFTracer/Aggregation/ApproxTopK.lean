/-
# Approximate top-k

A group keeps a space-saving summary of the values of a column. Rows offer their values one by
one, and a partial state is merged by offering its counters in the order of their values. The
merging does not add what the other side may have dropped, so the guarantees of the summaries
hold where nothing is dropped that both sides have seen.
-/

import DFTracer.Math.Builds
import DFTracer.Math.SpaceSaving
import DFTracer.Math.Table
import Mathlib.Data.String.Basic

namespace DFTracer.Aggregation

open DFTracer.Math List

variable {α ρ : Type} [LinearOrder ρ]

/-- `SpaceSavingMap`, from the representations of values to counts. -/
abbrev SpaceSavingMap (ρ : Type) [LinearOrder ρ] : Type := Table ρ ℕ

namespace SpaceSavingMap

/-- The entries in the order of the values. -/
def inOrder (m : SpaceSavingMap ρ) : List (ρ × ℕ) :=
  m.entries.insertionSort fun x y => x.1 ≤ y.1

/-- The first entry of least count. -/
def least : List (ρ × ℕ) → Option (ρ × ℕ)
  | [] => none
  | first :: rest =>
    some ((first :: rest).foldl (fun least e => if e.2 < least.2 then e else least) first)

/-- `space_saving_offer`. -/
def offer (m : SpaceSavingMap ρ) (k : ℕ) (value : ρ) (count : ℕ) : SpaceSavingMap ρ :=
  if k = 0 then m
  else
    match m.lookup value with
    | some c => m.alter value fun _ => c + count
    | none =>
      if m.entries.length < k then m.alter value fun _ => count
      else
        match least m.inOrder with
        | none => m
        | some min => (m.erase min.1).alter value fun _ => min.2 + count

/-- The part of `agg_accumulate` for a slot, where `cellRepr` writes a cell. A null cell is
skipped. -/
def accumulate (cellRepr : α → ρ) (k : ℕ) (m : SpaceSavingMap ρ) (cell : Option α) :
    SpaceSavingMap ρ :=
  match cell with
  | none => m
  | some cell => m.offer k (cellRepr cell) 1

/-- The part of `AggState::merge_group` for a slot. -/
def mergeGroup (k : ℕ) (m other : SpaceSavingMap ρ) : SpaceSavingMap ρ :=
  other.inOrder.foldl (fun m e => m.offer k e.1 e.2) m

/-- The summary of a group whose rows are spread over partial states. -/
def build (cellRepr : α → ρ) (k : ℕ) (t : Build (Option α)) : SpaceSavingMap ρ :=
  t.run .empty (accumulate cellRepr k) (mergeGroup k)

/-! ## Offering refines the abstract step -/

/-- The counters as a function. -/
noncomputable def counters (m : SpaceSavingMap ρ) : ρ →₀ ℕ := ofEntries m.entries

theorem counters_apply (m : SpaceSavingMap ρ) (v : ρ) : m.counters v = (m.lookup v).getD 0 := by
  cases found : m.lookup v with
  | none => exact ofEntries_of_notMem (Table.lookup_eq_none_iff.mp found)
  | some c => exact ofEntries_of_mem m.distinct (Table.lookup_eq_some_iff.mp found)

/-- Every counter says one at least. -/
def Positive (m : SpaceSavingMap ρ) : Prop := ∀ v c, m.lookup v = some c → 0 < c

variable {m : SpaceSavingMap ρ} {v : ρ} {c k : ℕ}

theorem Positive.entries (positive : m.Positive) :
    ∀ e ∈ m.entries, 0 < e.2 :=
  fun e listed => positive e.1 e.2 (Table.lookup_eq_some_iff.mpr listed)

theorem Positive.mem_support (positive : m.Positive) :
    v ∈ m.counters.support ↔ m.lookup v ≠ none := by
  rw [counters, mem_support_ofEntries m.distinct positive.entries, Ne, Table.lookup_eq_none_iff,
    not_not]
  rfl

theorem Positive.card_support (positive : m.Positive) :
    m.counters.support.card = m.entries.length :=
  card_support_ofEntries m.distinct positive.entries

theorem Positive.alter (positive : m.Positive)
    (more : 0 < c) : Positive (m.alter v fun _ => c) := by
  intro u d found
  rw [Table.lookup_alter] at found
  by_cases same : u = v
  · rw [if_pos same] at found
    cases found
    exact more
  · rw [if_neg same] at found
    exact positive u d found

theorem Positive.erase (positive : m.Positive) (v : ρ) :
    Positive (m.erase v) := by
  intro u d found
  rw [Table.lookup_erase] at found
  by_cases same : u = v
  · rw [if_pos same] at found
    cases found
  · rw [if_neg same] at found
    exact positive u d found

omit [LinearOrder ρ] in
theorem foldl_least (entries : List (ρ × ℕ)) (first : ρ × ℕ) :
    ((entries.foldl (fun least e => if e.2 < least.2 then e else least) first) = first ∨
      (entries.foldl (fun least e => if e.2 < least.2 then e else least) first) ∈ entries) ∧
    (entries.foldl (fun least e => if e.2 < least.2 then e else least) first).2 ≤ first.2 ∧
    ∀ e ∈ entries,
      (entries.foldl (fun least e => if e.2 < least.2 then e else least) first).2 ≤ e.2 := by
  induction entries generalizing first with
  | nil => exact ⟨.inl rfl, le_rfl, fun e listed => absurd listed not_mem_nil⟩
  | cons d entries ih =>
    rw [foldl_cons]
    by_cases lower : d.2 < first.2
    · rw [if_pos lower]
      obtain ⟨mem, low, all⟩ := ih d
      refine ⟨.inr (mem_cons.mpr mem), low.trans lower.le, ?_⟩
      exact forall_mem_cons.mpr ⟨low, all⟩
    · rw [if_neg lower]
      obtain ⟨mem, low, all⟩ := ih first
      refine ⟨mem.imp_right (mem_cons_of_mem d), low, ?_⟩
      exact forall_mem_cons.mpr ⟨low.trans (Nat.le_of_not_lt lower), all⟩

omit [LinearOrder ρ] in
theorem least_spec {entries : List (ρ × ℕ)} (some_ : entries ≠ []) :
    ∃ min ∈ entries, least entries = some min ∧ ∀ e ∈ entries, min.2 ≤ e.2 := by
  cases entries with
  | nil => exact absurd rfl some_
  | cons first rest =>
    obtain ⟨mem, _, all⟩ := foldl_least (first :: rest) first
    refine ⟨_, ?_, rfl, all⟩
    rcases mem with same | mem
    · rw [same]
      exact mem_cons_self
    · exact mem

theorem mem_inOrder {e : ρ × ℕ} : e ∈ m.inOrder ↔ e ∈ m.entries :=
  mem_insertionSort _

section Cases

variable {m : SpaceSavingMap ρ} {k c d : ℕ} {v : ρ}

theorem offer_of_counted (some_ : 0 < k) (found : m.lookup v = some d) :
    m.offer k v c = m.alter v fun _ => d + c := by
  rw [offer, if_neg some_.ne', found]

theorem offer_of_room (some_ : 0 < k) (found : m.lookup v = none) (room : m.entries.length < k) :
    m.offer k v c = m.alter v fun _ => c := by
  rw [offer, if_neg some_.ne', found]
  exact if_pos room

theorem offer_of_full (some_ : 0 < k) (found : m.lookup v = none) (full : k ≤ m.entries.length) :
    ∃ min ∈ m.entries, (∀ e ∈ m.entries, min.2 ≤ e.2) ∧
      m.offer k v c = (m.erase min.1).alter v fun _ => min.2 + c := by
  have nonempty : m.inOrder ≠ [] := by
    intro none
    have zero : m.entries.length = 0 := by
      rw [← length_insertionSort (fun x y : ρ × ℕ => x.1 ≤ y.1), ← inOrder, none]
      rfl
    omega
  obtain ⟨min, listed, here, low⟩ := least_spec nonempty
  refine ⟨min, mem_inOrder.mp listed, fun e held => low e (mem_inOrder.mpr held), ?_⟩
  rw [offer, if_neg some_.ne', found]
  rw [if_neg (Nat.not_lt.mpr full), here]

/-- A value that is counted or takes a free counter. -/
theorem counters_alter (before : m.counters v = d) :
    counters (m.alter v fun _ => d + c) = m.counters + .single v c := by
  ext u
  rw [counters_apply, Finsupp.add_apply, Table.lookup_alter]
  by_cases same : u = v
  · rw [if_pos same, same, before, Finsupp.single_eq_same]
    rfl
  · rw [if_neg same, Finsupp.single_eq_of_ne same, counters_apply]
    rfl

/-- A value that takes the counter of another. -/
theorem counters_evict {w : ρ} (absent : m.counters v = 0) (apart : v ≠ w) :
    counters ((m.erase w).alter v fun _ => c) = m.counters.erase w + .single v c := by
  ext u
  rw [counters_apply, Finsupp.add_apply, Table.lookup_alter]
  by_cases same : u = v
  · rw [if_pos same, same, Finsupp.single_eq_same, Finsupp.erase_ne apart, absent, Nat.zero_add]
    rfl
  · rw [if_neg same, Finsupp.single_eq_of_ne same, Table.lookup_erase]
    by_cases evicted : u = w
    · rw [if_pos evicted, evicted, Finsupp.erase_same]
      rfl
    · rw [if_neg evicted, Finsupp.erase_ne evicted, counters_apply]
      rfl

end Cases

/-- What the code does with a value is what a summary may do. -/
theorem Positive.offer (positive : m.Positive) (some_ : 0 < k) (v : ρ) (more : 0 < c) :
    (m.offer k v c).Positive ∧ Offered k m.counters v c (m.offer k v c).counters := by
  cases found : m.lookup v with
  | some d =>
    have before : m.counters v = d := by
      rw [counters_apply, found]
      rfl
    rw [offer_of_counted some_ found, counters_alter before]
    refine ⟨positive.alter (Nat.add_pos_right d more), .room (.inl ?_)⟩
    rw [positive.mem_support, found]
    exact Option.some_ne_none d
  | none =>
    have absent : v ∉ m.counters.support := fun held => positive.mem_support.mp held found
    have before := Finsupp.notMem_support_iff.mp absent
    by_cases room : m.entries.length < k
    · have taken := @counters_alter _ _ m c 0 v before
      rw [Nat.zero_add] at taken
      rw [offer_of_room some_ found room, taken]
      refine ⟨positive.alter more, .room (.inr ?_)⟩
      rwa [positive.card_support]
    · have full := Nat.le_of_not_lt room
      obtain ⟨min, listed, low, same⟩ := @offer_of_full _ _ m k c v some_ found full
      have held := Table.lookup_eq_some_iff.mpr listed
      have value : m.counters min.1 = min.2 := by
        rw [counters_apply, held]
        rfl
      have apart : v ≠ min.1 := by
        intro same
        rw [← same, found] at held
        cases held
      rw [same, counters_evict before apart, ← value]
      refine ⟨?_, .evict min.1 absent ?_ ?_ fun u counted => ?_⟩
      · exact (positive.erase min.1).alter (Nat.add_pos_right _ more)
      · rwa [positive.card_support]
      · rw [positive.mem_support, held]
        exact Option.some_ne_none _
      · rw [value, counters_apply]
        cases other : m.lookup u with
        | none => exact absurd other (positive.mem_support.mp counted)
        | some d => exact low (u, d) (Table.lookup_eq_some_iff.mp other)

theorem Positive.offerAll (positive : m.Positive) (some_ : 0 < k)
    {l : List (ρ × ℕ)} (more : ∀ e ∈ l, 0 < e.2) :
    (l.foldl (fun m e => m.offer k e.1 e.2) m).Positive ∧
      OfferedAll k m.counters l (l.foldl (fun m e => m.offer k e.1 e.2) m).counters := by
  induction l generalizing m with
  | nil => exact ⟨positive, .nil _⟩
  | cons e l ih =>
    obtain ⟨here, more⟩ := forall_mem_cons.mp more
    obtain ⟨positive', first⟩ := positive.offer some_ e.1 here
    obtain ⟨rest, offered⟩ := ih positive' more
    exact ⟨rest, .cons first offered⟩

/-- The values of the rows that are not null. -/
def stream (cellRepr : α → ρ) (rows : List (Option α)) : List ρ :=
  rows.filterMap fun cell => cell.map cellRepr

/-- The guarantees of a summary of `k` counters over a stream of values. -/
structure Holds (k : ℕ) (values : List ρ) (m : SpaceSavingMap ρ) : Prop where
  tracked : ∀ v c, m.lookup v = some c → values.count v ≤ c
  untracked : m.entries.length = k → ∀ v, m.lookup v = none →
    ∀ w c, m.lookup w = some c → values.count v ≤ c
  size : m.entries.length ≤ k
  total : (m.entries.map Prod.snd).sum = values.length

/-- The true counts of a stream. -/
noncomputable def counts (values : List ρ) : ρ →₀ ℕ := ofEntries (values.map fun v => (v, 1))

theorem counts_apply (values : List ρ) (v : ρ) : counts values v = values.count v := by
  induction values with
  | nil => rfl
  | cons u values ih =>
    rw [counts, map_cons, ofEntries_cons, Finsupp.add_apply, ← counts, ih, count_cons,
      Finsupp.single_apply, Nat.add_comm]
    by_cases same : u = v
    · rw [if_pos same, if_pos (beq_iff_eq.mpr same)]
    · rw [if_neg same, if_neg fun equal => same (beq_iff_eq.mp equal)]

theorem counts_append (values rest : List ρ) :
    counts (values ++ rest) = counts values + counts rest := by
  ext v
  rw [Finsupp.add_apply, counts_apply, counts_apply, counts_apply, count_append]

omit [LinearOrder ρ] in
theorem degree_counts (values : List ρ) : (counts values).degree = values.length := by
  rw [counts, degree_ofEntries, map_map]
  change (values.map fun _ => 1).sum = _
  rw [map_const', sum_replicate, smul_eq_mul, Nat.mul_one]

/-- Abstract guarantees are guarantees of the code's summary. -/
theorem Positive.holds (positive : m.Positive) {values : List ρ}
    (guarantees : Guarantees k (counts values) m.counters) : Holds k values m := by
  have value : ∀ v c, m.lookup v = some c → v ∈ m.counters.support ∧ m.counters v = c := by
    intro v c found
    rw [positive.mem_support, counters_apply, found]
    exact ⟨Option.some_ne_none c, rfl⟩
  constructor
  · intro v c found
    obtain ⟨held, same⟩ := value v c found
    rw [← same, ← counts_apply]
    exact guarantees.tracked v held
  · intro _ v absent w c found
    obtain ⟨held, same⟩ := value w c found
    rw [← same, ← counts_apply]
    by_cases seen : v ∈ (counts values).support
    · refine (guarantees.dropped v seen fun held => ?_).2 w held
      exact positive.mem_support.mp held absent
    · rw [Finsupp.notMem_support_iff.mp seen]
      exact Nat.zero_le _
  · rw [← positive.card_support]
    exact guarantees.size
  · rw [← degree_ofEntries, ← counters, guarantees.total, degree_counts]

/-- Nothing that both sides have seen is dropped by the side that is merged in. -/
def Kept (cellRepr : α → ρ) (k : ℕ) (t other : Build (Option α)) : Prop :=
  ∀ v ∈ stream cellRepr t.values, v ∈ stream cellRepr other.values →
    (build cellRepr k other).lookup v ≠ none

/-- A summary with the guarantees of its abstract counters. -/
def Sound (cellRepr : α → ρ) (k : ℕ) (rows : List (Option α)) (m : SpaceSavingMap ρ) : Prop :=
  m.Positive ∧ Guarantees k (counts (stream cellRepr rows)) m.counters

omit [LinearOrder ρ] in
theorem stream_append (cellRepr : α → ρ) (rows rest : List (Option α)) :
    stream cellRepr (rows ++ rest) = stream cellRepr rows ++ stream cellRepr rest :=
  filterMap_append ..

variable {cellRepr : α → ρ} {k : ℕ} {rows rest : List (Option α)} {m other : SpaceSavingMap ρ}

theorem Sound.accumulate (some_ : 0 < k) (sound : Sound cellRepr k rows m) (cell : Option α) :
    Sound cellRepr k (rows ++ [cell]) (m.accumulate cellRepr k cell) := by
  cases cell with
  | none =>
    rw [Sound, stream_append, counts_append]
    change _ ∧ Guarantees k (_ + 0) _
    rw [add_zero]
    exact sound
  | some cell =>
    obtain ⟨positive, offered⟩ := sound.1.offer some_ (cellRepr cell) Nat.one_pos
    rw [Sound, stream_append, counts_append]
    change _ ∧ Guarantees k (_ + ofEntries [(cellRepr cell, 1)]) _
    rw [ofEntries_cons, ofEntries, map_nil, sum_nil, add_zero]
    exact ⟨positive, sound.2.offer Nat.one_pos offered⟩

theorem perm_inOrder (m : SpaceSavingMap ρ) : m.inOrder.Perm m.entries :=
  perm_insertionSort _ _

theorem Sound.mergeGroup (some_ : 0 < k) (first : Sound cellRepr k rows m)
    (second : Sound cellRepr k rest other)
    (kept : ∀ v ∈ stream cellRepr rows, v ∈ stream cellRepr rest → other.lookup v ≠ none) :
    Sound cellRepr k (rows ++ rest) (m.mergeGroup k other) := by
  have more : ∀ e ∈ other.inOrder, 0 < e.2 :=
    fun e listed => second.1.entries e (mem_inOrder.mp listed)
  have same : ofEntries other.inOrder = other.counters :=
    ((perm_inOrder other).map _).sum_eq
  have distinct : (other.inOrder.map Prod.fst).Nodup :=
    ((perm_inOrder other).map Prod.fst).nodup_iff.mpr other.distinct
  obtain ⟨positive, offered⟩ := first.1.offerAll some_ more
  rw [Sound, stream_append, counts_append]
  refine ⟨positive, first.2.merge distinct more (by rw [same]; exact second.2) ?_ offered⟩
  intro v seen seen'
  rw [Finsupp.mem_support_iff, counts_apply] at seen seen'
  rw [same, second.1.mem_support]
  exact kept v (count_pos_iff.mp (Nat.pos_of_ne_zero seen))
    (count_pos_iff.mp (Nat.pos_of_ne_zero seen'))

/-- Over any partial states the guarantees hold, where no merging loses what both sides saw. -/
theorem holds_build (cellRepr : α → ρ) {k : ℕ} (some_ : 0 < k) (t : Build (Option α))
    (kept : t.Merging (Kept cellRepr k)) :
    Holds k (stream cellRepr t.values) (build cellRepr k t) := by
  have sound : Sound cellRepr k t.values (build cellRepr k t) := by
    refine Build.run_merging ?_ ?_ ?_ t kept
    · refine ⟨fun v c found => ?_, guarantees_zero⟩
      cases found
    · intro rows m cell sound
      exact sound.accumulate some_ cell
    · intro t other condition first second
      exact first.mergeGroup some_ second condition
  exact sound.1.holds sound.2

theorem holds_build_two : Holds 2 (stream id [some "a", none, some "b", some "b", some "a"])
    (build id 2 (.merge (.ofList [some "a", none]) (.ofList [some "b", some "b", some "a"]))) := by
  have sound := holds_build id (k := 2) (by decide)
    (.merge (.ofList [some "a", none]) (.ofList [some "b", some "b", some "a"]))
    ⟨Build.merging_ofList _, Build.merging_ofList _, by
      intro v seen _
      cases mem_singleton.mp seen
      decide +kernel⟩
  rwa [Build.values, Build.values_ofList, Build.values_ofList] at sound

/-- A value that was dropped on one side and counted on the other is dropped again, although it
occurred twice and a counter says one. -/
theorem not_holds_build : ¬ Holds 2 (stream id [some "a", some "a", some "b", some "c"])
    (build id 2 (.merge (.ofList [some "a"]) (.ofList [some "a", some "b", some "c"]))) := by
  intro holds
  have low := holds.untracked (by decide +kernel) "a" (by decide +kernel) "b" 1 (by decide +kernel)
  exact absurd low (by decide +kernel)

end SpaceSavingMap

end DFTracer.Aggregation
