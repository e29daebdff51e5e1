/-
# Finite maps in order of insertion

A table keeps one entry a key, in the order in which the keys came. Entries are
altered in place or appended, and one table is joined into another entry by entry.
What a table says is what it looks up.
-/

import Mathlib.Algebra.Order.BigOperators.Group.List
import Mathlib.Algebra.Order.Ring.Nat
import Mathlib.Data.List.Dedup

namespace DFTracer.Math

open List

variable {κ β : Type}

/-- Entries with distinct keys, in order of insertion. -/
structure Table (κ β : Type) where
  entries : List (κ × β)
  distinct : (entries.map Prod.fst).Nodup

namespace Table

variable [DecidableEq κ] {entries : List (κ × β)} {t : Table κ β} {v : β}

/-- The value beside a key. -/
def find (k : κ) : List (κ × β) → Option β
  | [] => none
  | (k', v) :: rest => if k' = k then some v else find k rest

/-- Replace the value beside a key, or append the key. -/
def put (k : κ) (f : Option β → β) : List (κ × β) → List (κ × β)
  | [] => [(k, f none)]
  | (k', v) :: rest => if k' = k then (k', f (some v)) :: rest else (k', v) :: put k f rest

theorem mem_keys_put (k k' : κ) (f : Option β → β) (entries : List (κ × β)) :
    k' ∈ (put k f entries).map Prod.fst ↔ k' = k ∨ k' ∈ entries.map Prod.fst := by
  induction entries with
  | nil => simp [put]
  | cons e rest ih =>
    by_cases h : e.1 = k
    · simp only [put, h, if_true, map_cons, mem_cons]
      tauto
    · simp only [put, h, if_false, map_cons, mem_cons]
      tauto

theorem nodup_put (k : κ) (f : Option β → β)
    (distinct : (entries.map Prod.fst).Nodup) : ((put k f entries).map Prod.fst).Nodup := by
  induction entries with
  | nil => simp [put]
  | cons e rest ih =>
    rw [map_cons, nodup_cons] at distinct
    by_cases h : e.1 = k
    · simpa only [put, h, if_true, map_cons, nodup_cons] using h ▸ distinct
    · rw [put, if_neg h, map_cons, nodup_cons, mem_keys_put]
      exact ⟨fun hmem => hmem.elim h distinct.1, ih distinct.2⟩

/-- A table without entries. -/
def empty : Table κ β := ⟨[], List.nodup_nil⟩

/-- What the table holds for a key. -/
def lookup (t : Table κ β) (k : κ) : Option β := find k t.entries

/-- Replace the value of a key by a function of the old one, absent or not. -/
def alter (t : Table κ β) (k : κ) (f : Option β → β) : Table κ β :=
  ⟨put k f t.entries, nodup_put k f t.distinct⟩

/-- Join the entries of another table into this one. -/
def merge (join : Option β → β → β) (t other : Table κ β) : Table κ β :=
  other.entries.foldl (fun t e => t.alter e.1 fun v => join v e.2) t

/-- The keys that have an entry. -/
def keys (t : Table κ β) : List κ := t.entries.map Prod.fst

@[simp] theorem lookup_empty (k : κ) : (empty : Table κ β).lookup k = none := rfl

theorem find_put (k k' : κ) (f : Option β → β) (entries : List (κ × β)) :
    find k' (put k f entries) = if k' = k then some (f (find k entries)) else find k' entries := by
  induction entries with
  | nil =>
    by_cases h : k = k'
    · simp [put, find, h]
    · simp [put, find, h, Ne.symm h]
  | cons e rest ih =>
    by_cases h : e.1 = k
    · subst h
      by_cases h' : e.1 = k'
      · simp [put, find, h']
      · simp [put, find, h', Ne.symm h']
    · have hrest : find k (e :: rest) = find k rest := by rw [find, if_neg h]
      rw [put, if_neg h, find, ih, hrest]
      by_cases h' : k' = k
      · subst h'
        rw [if_neg h, if_pos rfl, if_pos rfl]
      · rw [if_neg h', if_neg h', find]

theorem lookup_alter (t : Table κ β) (k k' : κ) (f : Option β → β) :
    (t.alter k f).lookup k' = if k' = k then some (f (t.lookup k)) else t.lookup k' :=
  find_put k k' f t.entries

@[simp] theorem lookup_alter_self (t : Table κ β) (k : κ) (f : Option β → β) :
    (t.alter k f).lookup k = some (f (t.lookup k)) := by
  rw [lookup_alter, if_pos rfl]

variable {k : κ}

theorem lookup_alter_of_ne (t : Table κ β) {k' : κ} (f : Option β → β) (h : k' ≠ k) :
    (t.alter k f).lookup k' = t.lookup k' := by
  rw [lookup_alter, if_neg h]

theorem find_eq_none_iff :
    find k entries = none ↔ k ∉ entries.map Prod.fst := by
  induction entries with
  | nil => simp [find]
  | cons e rest ih =>
    by_cases h : e.1 = k
    · simp [find, h]
    · have hne : ¬k = e.1 := fun heq => h heq.symm
      simp only [find, h, if_false, ih, map_cons, mem_cons, hne, false_or]

theorem lookup_eq_none_iff : t.lookup k = none ↔ k ∉ t.keys :=
  find_eq_none_iff

theorem find_eq_some_iff
    (distinct : (entries.map Prod.fst).Nodup) : find k entries = some v ↔ (k, v) ∈ entries := by
  induction entries with
  | nil => simp [find]
  | cons e rest ih =>
    rw [map_cons, nodup_cons] at distinct
    by_cases h : e.1 = k
    · have habsent : (k, v) ∉ rest := fun hmem =>
        distinct.1 (h ▸ mem_map_of_mem (f := Prod.fst) hmem)
      simp only [find, h, if_true, Option.some.injEq, mem_cons, habsent, or_false,
        Prod.ext_iff, true_and, eq_comm]
    · have hne : (k, v) ≠ e := fun heq => h (congrArg Prod.fst heq).symm
      simp only [find, h, if_false, ih distinct.2, mem_cons, hne, false_or]

theorem lookup_eq_some_iff : t.lookup k = some v ↔ (k, v) ∈ t.entries :=
  find_eq_some_iff t.distinct

theorem lookup_foldl_alter (join : Option β → β → β) (k : κ) (entries : List (κ × β))
    (distinct : (entries.map Prod.fst).Nodup) (t : Table κ β) :
    (entries.foldl (fun t e => t.alter e.1 fun v => join v e.2) t).lookup k
      = (find k entries).elim (t.lookup k) fun v => some (join (t.lookup k) v) := by
  induction entries generalizing t with
  | nil => rfl
  | cons e rest ih =>
    rw [map_cons, nodup_cons] at distinct
    rw [foldl_cons, ih distinct.2]
    by_cases h : e.1 = k
    · subst h
      rw [find_eq_none_iff.mpr distinct.1]
      simp [find]
    · rw [lookup_alter_of_ne t _ (Ne.symm h)]
      simp [find, h]

/-- Joining tables joins what they hold for a key. -/
theorem lookup_merge (join : Option β → β → β) (t other : Table κ β) (k : κ) :
    (t.merge join other).lookup k
      = (other.lookup k).elim (t.lookup k) fun v => some (join (t.lookup k) v) :=
  lookup_foldl_alter join k other.entries other.distinct t

/-- Every value replaced. -/
def mapValues (f : β → β) (t : Table κ β) : Table κ β where
  entries := t.entries.map fun e => (e.1, f e.2)
  distinct := by
    rw [List.map_map]
    exact t.distinct

theorem find_map (f : β → β) (k : κ) (entries : List (κ × β)) :
    find k (entries.map fun e => (e.1, f e.2)) = (find k entries).map f := by
  induction entries with
  | nil => rfl
  | cons e rest ih =>
    rw [map_cons, find, find]
    by_cases h : e.1 = k
    · rw [if_pos h, if_pos h]
      rfl
    · rw [if_neg h, if_neg h]
      exact ih

theorem lookup_mapValues (f : β → β) (t : Table κ β) (k : κ) :
    (t.mapValues f).lookup k = (t.lookup k).map f :=
  find_map f k t.entries

/-- Joining a table into an empty one keeps what it holds. -/
theorem lookup_merge_empty (join : Option β → β → β) (alone : ∀ v, join none v = v)
    (t : Table κ β) (k : κ) : (empty.merge join t).lookup k = t.lookup k := by
  rw [lookup_merge]
  cases t.lookup k with
  | none => rfl
  | some v => exact congrArg some (alone v)

section Alike

variable {t u : Table κ β}

/-- Tables that look up the same have the same entries. -/
theorem mem_entries (alike : ∀ k, t.lookup k = u.lookup k) (e : κ × β) :
    e ∈ t.entries ↔ e ∈ u.entries := by
  cases e with
  | mk k v => rw [← lookup_eq_some_iff, ← lookup_eq_some_iff, alike]

theorem length_entries (alike : ∀ k, t.lookup k = u.lookup k) :
    t.entries.length = u.entries.length := by
  have perm : t.entries.Perm u.entries :=
    (perm_ext_iff_of_nodup t.distinct.of_map u.distinct.of_map).mpr (mem_entries alike)
  exact perm.length_eq

end Alike

/-- A table has no more entries than a list of its keys has distinct members. -/
theorem length_entries_le {l : List κ} (listed : ∀ k, t.lookup k ≠ none → k ∈ l) :
    t.entries.length ≤ l.dedup.length := by
  have sub : t.keys ⊆ l.dedup := by
    intro k hk
    refine mem_dedup.mpr (listed k fun none => ?_)
    exact lookup_eq_none_iff.mp none hk
  have le : t.keys.length ≤ l.dedup.length := (subperm_of_subset t.distinct sub).length_le
  rwa [keys, length_map] at le

end Table

end DFTracer.Math

/-! ## Sums over finite maps

What the entries of a table weigh together, as entries come, go and change their weight. -/

namespace DFTracer.Math.Table

open List

variable {κ β : Type} [DecidableEq κ]

/-- The table without a key. -/
def erase (t : Table κ β) (k : κ) : Table κ β where
  entries := t.entries.filter fun e => e.1 ≠ k
  distinct := t.distinct.sublist (List.filter_sublist.map Prod.fst)

theorem lookup_erase (t : Table κ β) (k k' : κ) :
    (t.erase k).lookup k' = if k' = k then none else t.lookup k' := by
  have find_filter (entries : List (κ × β)) : find k' (entries.filter fun e => e.1 ≠ k)
      = if k' = k then none else find k' entries := by
    induction entries with
    | nil => by_cases h : k' = k <;> simp [find]
    | cons e rest ih =>
      by_cases same : e.1 = k
      · rw [filter_cons_of_neg (by simpa using same), ih]
        by_cases h : k' = k
        · rw [if_pos h, if_pos h]
        · rw [if_neg h, if_neg h, find, if_neg fun eq => h (eq.symm.trans same)]
      · rw [filter_cons_of_pos (by simpa using same), find, ih]
        by_cases h : k' = k
        · rw [if_pos h, if_pos h, if_neg fun eq => same (eq.trans h)]
        · rw [if_neg h, if_neg h, find]
  exact find_filter t.entries

/-- What the entries weigh together. -/
def total (weight : κ → β → Nat) (t : Table κ β) : Nat :=
  (t.entries.map fun e => weight e.1 e.2).sum

variable {weight weight' : κ → β → Nat} {t : Table κ β}

theorem total_congr (same : ∀ k v, t.lookup k = some v → weight k v = weight' k v) :
    t.total weight = t.total weight' := by
  apply congrArg List.sum
  apply map_congr_left
  intro e listed
  exact same e.1 e.2 (lookup_eq_some_iff.mpr listed)

theorem total_le (le : ∀ k v, t.lookup k = some v → weight k v ≤ weight' k v) :
    t.total weight ≤ t.total weight' :=
  sum_le_sum fun e listed => le e.1 e.2 (lookup_eq_some_iff.mpr listed)

/-- An entry and the others. -/
theorem total_erase {k : κ} {v : β} (found : t.lookup k = some v) :
    t.total weight = weight k v + (t.erase k).total weight := by
  have split (entries : List (κ × β)) (distinct : (entries.map Prod.fst).Nodup)
      (found : find k entries = some v) : (entries.map fun e => weight e.1 e.2).sum
        = weight k v
          + ((entries.filter fun e => e.1 ≠ k).map fun e => weight e.1 e.2).sum := by
    induction entries with
    | nil => cases found
    | cons e rest ih =>
      rw [map_cons, nodup_cons] at distinct
      rw [find] at found
      rw [map_cons, sum_cons]
      by_cases same : e.1 = k
      · rw [if_pos same] at found
        cases found
        have others : rest.filter (fun e' => e'.1 ≠ k) = rest := by
          apply filter_eq_self.mpr
          intro e' listed
          have ne : e'.1 ≠ k := fun eq =>
            distinct.1 (same ▸ eq ▸ mem_map_of_mem listed)
          simpa using ne
        rw [filter_cons_of_neg (by simpa using same), others, same]
      · rw [if_neg same] at found
        rw [filter_cons_of_pos (by simpa using same), map_cons, sum_cons,
          ih distinct.2 found, Nat.add_left_comm]
  exact split t.entries t.distinct found

/-- A new entry adds its weight. -/
theorem total_alter_none {k : κ} (absent : t.lookup k = none) (f : Option β → β) :
    (t.alter k f).total weight = t.total weight + weight k (f none) := by
  have append (entries : List (κ × β)) (absent : k ∉ entries.map Prod.fst) :
      put k f entries = entries ++ [(k, f none)] := by
    induction entries with
    | nil => rfl
    | cons e rest ih =>
      rw [map_cons, mem_cons, not_or] at absent
      rw [put, if_neg (Ne.symm absent.1), ih absent.2, cons_append]
  have entries : (t.alter k f).entries = t.entries ++ [(k, f none)] :=
    append t.entries (lookup_eq_none_iff.mp absent)
  rw [total, entries, map_append, sum_append]
  rfl

/-- When one entry weighs more, so does the table. -/
theorem total_change {k : κ} {v : β} (found : t.lookup k = some v)
    (same : ∀ k' v', t.lookup k' = some v' → k' ≠ k → weight k' v' = weight' k' v') :
    t.total weight + weight' k v = t.total weight' + weight k v := by
  have others : (t.erase k).total weight = (t.erase k).total weight' := by
    apply total_congr
    intro k' v' found'
    rw [lookup_erase] at found'
    by_cases eq : k' = k
    · rw [if_pos eq] at found'
      cases found'
    · rw [if_neg eq] at found'
      exact same k' v' found' eq
  rw [total_erase found, @total_erase _ _ _ weight' t k v found]
  omega

end DFTracer.Math.Table

/-! ## Tables that correspond

Two tables correspond when they have the same keys, with values in a relation. -/

namespace DFTracer.Math.Table

variable {κ β : Type} [DecidableEq κ] {R : β → β → Prop} {t u v : Table κ β}

/-- The entries of the tables are in the relation, key by key. -/
def Alike (R : β → β → Prop) (t u : Table κ β) : Prop :=
  ∀ k, Option.Rel R (t.lookup k) (u.lookup k)

theorem Alike.refl (refl : ∀ b, R b b) (t : Table κ β) : t.Alike R t := by
  intro k
  cases t.lookup k with
  | none => exact .none
  | some b => exact .some (refl b)

theorem Alike.trans (h : t.Alike R u) (trans : ∀ {a b c}, R a b → R b c → R a c)
    (h' : u.Alike R v) : t.Alike R v := by
  intro k
  have first := h k
  have second := h' k
  generalize t.lookup k = x, u.lookup k = y, v.lookup k = z at first second ⊢
  cases first with
  | none =>
    cases second with
    | none => exact .none
  | some r =>
    cases second with
    | some r' => exact .some (trans r r')

/-- Changing the same key keeps the correspondence when the new values are in the relation. -/
theorem Alike.alter (h : t.Alike R u) (k : κ) {f g : Option β → β}
    (step : ∀ old old', Option.Rel R old old' → R (f old) (g old')) :
    (t.alter k f).Alike R (u.alter k g) := by
  intro k'
  rw [lookup_alter, lookup_alter]
  by_cases hk : k' = k
  · rw [if_pos hk, if_pos hk]
    exact .some (step _ _ (h k))
  · rw [if_neg hk, if_neg hk]
    exact h k'

/-- Corresponding entries look the same to whatever the relation respects. -/
theorem Alike.map_eq {γ : Type} {view : β → γ} (h : t.Alike R u)
    (respects : ∀ a b, R a b → view a = view b) (k : κ) :
    (t.lookup k).map view = (u.lookup k).map view := by
  have related := h k
  generalize t.lookup k = x, u.lookup k = y at related
  cases related with
  | none => rfl
  | some r => exact congrArg some (respects _ _ r)

end DFTracer.Math.Table
