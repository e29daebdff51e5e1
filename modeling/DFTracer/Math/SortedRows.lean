/-
# Rows in the order of their keys

A store keeps one row a key, in the order of the bytes of the keys. What is put replaces the row of
its key, and a scan from a key on gives the rows that are not before it. The rows whose keys start
with a given text stand together, at the front of a scan from that text.
-/

import Mathlib.Data.List.Lex
import Mathlib.Data.List.TakeWhile

namespace DFTracer.Math.SortedRows

open List

/-- The bytes of a key, by which rows are ordered. -/
def rank (key : List UInt8) : List Nat := key.map UInt8.toNat

theorem rank_injective {a b : List UInt8} (h : rank a = rank b) : a = b :=
  map_injective_iff.mpr (fun _ _ same => UInt8.toNat_inj.mp same) h

/-- Rows with their keys. -/
abbrev Rows (β : Type) := List (List UInt8 × β)

variable {β : Type}

/-- The rows are in the order of their keys, each key once. -/
def Sorted (rows : Rows β) : Prop := rows.Pairwise fun a b => rank a.1 < rank b.1

/-- Put a row in its place. -/
def put (rows : Rows β) (key : List UInt8) (value : β) : Rows β :=
  rows.filter (fun r => rank r.1 < rank key) ++
    (key, value) :: rows.filter fun r => rank key < rank r.1

/-- The rows from a key on. -/
def seek (rows : Rows β) (key : List UInt8) : Rows β :=
  rows.dropWhile fun r => rank r.1 < rank key

/-- A key starts with a text. -/
def startsWith (start key : List UInt8) : Bool := start.isPrefixOf key

section Put

variable {rows : Rows β} {key : List UInt8} {value : β}

theorem mem_put {r : List UInt8 × β} :
    r ∈ put rows key value ↔ r = (key, value) ∨ (r ∈ rows ∧ r.1 ≠ key) := by
  unfold put
  rw [mem_append, mem_cons, mem_filter, mem_filter]
  have apart : r.1 ≠ key ↔ rank r.1 < rank key ∨ rank key < rank r.1 :=
    (not_congr ⟨congrArg rank, rank_injective⟩).trans lt_or_lt_iff_ne.symm
  simp only [decide_eq_true_eq]
  tauto

theorem sorted_put (sorted : Sorted rows) : Sorted (put rows key value) := by
  unfold put Sorted
  rw [pairwise_append, pairwise_cons]
  refine ⟨sorted.filter _, ⟨?_, sorted.filter _⟩, ?_⟩
  · intro r hr
    exact of_decide_eq_true (mem_filter.mp hr).2
  · intro a ha b hb
    have before : rank a.1 < rank key := of_decide_eq_true (mem_filter.mp ha).2
    rcases mem_cons.mp hb with rfl | after
    · exact before
    · exact before.trans (of_decide_eq_true (mem_filter.mp after).2)

end Put

/-- A key between a text and a key that starts with it starts with it. -/
theorem prefix_between {start key : List Nat} : ∀ {more : List Nat}, ¬ key < start →
    ¬ start ++ more < key → start <+: key := by
  induction start generalizing key with
  | nil => exact fun _ _ => nil_prefix
  | cons a start ih =>
    intro more low high
    cases key with
    | nil => exact absurd (nil_lt_cons a start) low
    | cons b key =>
      rw [cons_append] at high
      rw [cons_lt_cons_iff] at low high
      have same : a = b := by omega
      subst same
      have low : ¬ key < start := fun before => low (.inr ⟨rfl, before⟩)
      have high : ¬ start ++ more < key := fun before => high (.inr ⟨rfl, before⟩)
      exact cons_prefix_cons.mpr ⟨rfl, ih low high⟩

theorem not_lt_prefix {start more : List Nat} : ¬ start ++ more < start := by
  induction start with
  | nil => exact not_lt_nil _
  | cons a start ih =>
    rw [cons_append, cons_lt_cons_iff]
    rintro (before | ⟨-, before⟩)
    · omega
    · exact ih before

theorem startsWith_iff {start key : List UInt8} :
    startsWith start key = true ↔ rank start <+: rank key := by
  unfold startsWith
  rw [List.isPrefixOf_iff_prefix]
  exact (prefix_map_iff_of_injective fun _ _ same => UInt8.toNat_inj.mp same).symm

section Scan

variable {rows : Rows β} {start : List UInt8} {r : List UInt8 × β}

/-- No row of a scan is before its key. -/
theorem seek_not_lt (sorted : Sorted rows) : ∀ r ∈ seek rows start, ¬ rank r.1 < rank start := by
  unfold Sorted at sorted
  induction rows with
  | nil => exact forall_mem_nil _
  | cons first rows ih =>
    rw [pairwise_cons] at sorted
    unfold seek
    by_cases before : rank first.1 < rank start
    · rw [dropWhile_cons_of_pos (by simpa using before)]
      exact ih sorted.2
    · rw [dropWhile_cons_of_neg (by simpa using before)]
      intro r hr
      rcases mem_cons.mp hr with rfl | later
      · exact before
      · exact fun small => before ((sorted.1 r later).trans small)

theorem mem_seek (h : r ∈ rows) (from_start : ¬ rank r.1 < rank start) :
    r ∈ seek rows start := by
  induction rows with
  | nil => cases h
  | cons first rows ih =>
    unfold seek
    by_cases before : rank first.1 < rank start
    · rw [dropWhile_cons_of_pos (by simpa using before)]
      rcases mem_cons.mp h with rfl | later
      · exact absurd before from_start
      · exact ih later
    · rw [dropWhile_cons_of_neg (by simpa using before)]
      exact h

/-- In order, a row is reached while all rows up to it are wanted. -/
theorem mem_takeWhile {rows : Rows β} (sorted : Sorted rows) {wanted : List UInt8 × β → Bool} (h : r ∈ rows)
    (upTo : ∀ e ∈ rows, ¬ rank r.1 < rank e.1 → wanted e = true) : r ∈ rows.takeWhile wanted := by
  unfold Sorted at sorted
  induction rows with
  | nil => cases h
  | cons first rows ih =>
    rw [pairwise_cons] at sorted
    rcases mem_cons.mp h with rfl | later
    · rw [takeWhile_cons_of_pos (upTo r mem_cons_self (lt_irrefl _))]
      exact mem_cons_self
    · have before := sorted.1 r later
      rw [takeWhile_cons_of_pos (upTo first mem_cons_self before.not_gt)]
      exact mem_cons_of_mem _
        (ih sorted.2 later fun e he => upTo e (mem_cons_of_mem _ he))

/-- A scan from a text meets the rows whose keys start with it first. -/
theorem mem_scan (sorted : Sorted rows) :
    r ∈ (seek rows start).takeWhile (fun e => startsWith start e.1) ↔
      r ∈ rows ∧ startsWith start r.1 = true := by
  constructor
  · intro h
    have starts := @mem_takeWhile_imp _ (fun e => startsWith start e.1) _ r h
    exact ⟨(dropWhile_sublist _).subset ((takeWhile_sublist _).subset h), starts⟩
  · rintro ⟨h, starts⟩
    obtain ⟨more, hmore⟩ := startsWith_iff.mp starts
    have reached : r ∈ seek rows start := mem_seek h (hmore ▸ not_lt_prefix)
    refine mem_takeWhile (sorted.sublist (dropWhile_sublist _)) reached fun e he upTo => ?_
    rw [← hmore] at upTo
    exact startsWith_iff.mpr (prefix_between (seek_not_lt sorted e he) upTo)

end Scan

end DFTracer.Math.SortedRows
