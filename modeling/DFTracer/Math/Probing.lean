/-
# Open addressing

Slots in a ring, each free or taken by an entry. An entry is put into the first free slot from its
home on, so that it is found by walking from its home: no slot before it is free. The walk ends
because some slot is.
-/

import Mathlib.Data.Finset.Card
import Mathlib.Tactic.Linarith

namespace DFTracer.Math.Probing

/-- The first slot at which a walk stops, unless it makes more steps than it may. -/
def walk (next : Nat → Nat) (stop : Nat → Bool) : Nat → Nat → Option Nat
  | 0, _ => none
  | steps + 1, i => if stop i then some i else walk next stop steps (next i)

section Walk

variable {size : Nat} {next : Nat → Nat} {stop : Nat → Bool}

/-- A walk around a ring stops at the first place where it may. -/
theorem walk_eq (ring : ∀ i, next (i % size) = (i + 1) % size) {home k : Nat}
    (before : ∀ j < k, stop ((home + j) % size) = false)
    (here : stop ((home + k) % size) = true) {steps : Nat} (enough : k < steps) :
    walk next stop steps (home % size) = some ((home + k) % size) := by
  induction k generalizing home steps with
  | zero =>
    obtain ⟨steps, rfl⟩ : ∃ n, steps = n + 1 := ⟨steps - 1, by omega⟩
    rw [Nat.add_zero] at here
    rw [walk, if_pos here, Nat.add_zero]
  | succ k ih =>
    obtain ⟨steps, rfl⟩ : ∃ n, steps = n + 1 := ⟨steps - 1, by omega⟩
    have first : stop (home % size) = false := before 0 (Nat.succ_pos k)
    rw [walk, if_neg (by simp [first]), ring]
    have shift : ∀ j, home + 1 + j = home + (j + 1) := fun j => by omega
    rw [← shift k]
    refine ih (fun j hj => ?_) (by rw [shift]; exact here) (by omega)
    rw [shift]
    exact before (j + 1) (by omega)

/-- A walk that can stop somewhere stops. -/
theorem exists_stop {home i : Nat} (inside : i < size) (here : stop i = true) :
    ∃ k < size, stop ((home + k) % size) = true ∧
      ∀ j < k, stop ((home + j) % size) = false := by
  have some_stop : ∃ k, stop ((home + k) % size) = true := by
    refine ⟨i + (size - home % size), ?_⟩
    have below : home % size < size := Nat.mod_lt _ (by omega)
    have whole : home + (i + (size - home % size)) = i + size * (home / size + 1) := by
      have parts := Nat.div_add_mod home size
      rw [Nat.mul_add]
      omega
    rw [whole, Nat.add_mul_mod_self_left, Nat.mod_eq_of_lt inside]
    exact here
  refine ⟨Nat.find some_stop, ?_, Nat.find_spec some_stop, fun j hj => ?_⟩
  · by_contra far
    have earlier := Nat.find_min some_stop (m := Nat.find some_stop - size) (by omega)
    have same : home + Nat.find some_stop = home + (Nat.find some_stop - size) + size := by omega
    have found := Nat.find_spec some_stop
    rw [same, Nat.add_mod_right] at found
    exact earlier found
  · exact Bool.eq_false_iff.mpr (Nat.find_min some_stop hj)

end Walk

variable {κ : Type}

/-- What stops a walk: a free slot or an entry that is looked for. -/
def stops (slots : Nat → Option κ) (wanted : κ → Bool) (i : Nat) : Bool :=
  (slots i).all wanted

/-- The entries that the slots of a ring hold, each once and reached from its home. -/
structure Holds (home : κ → Nat) (size : Nat) (slots : Nat → Option κ) (entries : List κ) :
    Prop where
  nodup : entries.Nodup
  mem : ∀ v, v ∈ entries ↔ ∃ i < size, slots i = some v
  once : ∀ i < size, ∀ j < size, ∀ v, slots i = some v → slots j = some v → i = j
  reached : ∀ i < size, ∀ v, slots i = some v →
    ∃ k, i = (home v + k) % size ∧ ∀ j < k, slots ((home v + j) % size) ≠ none

namespace Holds

variable {home : κ → Nat} {size : Nat} {slots : Nat → Option κ} {entries : List κ}

theorem empty : Holds home size (fun _ => none) [] where
  nodup := List.nodup_nil
  mem := by simp
  once := nofun
  reached := nofun

/-- Entries that are as many as the homes they have. -/
theorem congr {home' : κ → Nat} (h : Holds home size slots entries)
    (same : ∀ v ∈ entries, home v = home' v) : Holds home' size slots entries where
  nodup := h.nodup
  mem := h.mem
  once := h.once
  reached i hi v hv := by
    obtain ⟨k, hk, before⟩ := h.reached i hi v hv
    have inside : v ∈ entries := (h.mem v).mpr ⟨i, hi, hv⟩
    rw [same v inside] at hk before
    exact ⟨k, hk, before⟩

/-- Where there are more slots than entries, one is free. -/
theorem exists_free (h : Holds home size slots entries) (room : entries.length < size) :
    ∃ i < size, slots i = none := by
  by_contra full
  have taken : ∀ i < size, ∃ v, slots i = some v := by
    intro i hi
    cases hv : slots i with
    | none => exact absurd ⟨i, hi, hv⟩ full
    | some v => exact ⟨v, rfl⟩
  classical
  have fits : Finset.card (Finset.range size) ≤ Finset.card (entries.map some).toFinset := by
    apply Finset.card_le_card_of_injOn slots
    · intro i hi
      obtain ⟨v, hv⟩ := taken i (Finset.mem_range.mp hi)
      rw [hv]
      simpa using (h.mem v).mpr ⟨i, Finset.mem_range.mp hi, hv⟩
    · intro i hi j hj same
      have hi := Finset.mem_range.mp hi
      have hj := Finset.mem_range.mp hj
      obtain ⟨v, hv⟩ := taken i hi
      exact h.once i hi j hj v hv (same ▸ hv)
  have most := List.toFinset_card_le (entries.map some)
  rw [List.length_map] at most
  rw [Finset.card_range] at fits
  omega

section Lookup

variable {next : Nat → Nat}

section

variable (h : Holds home size slots entries)

include h

/-- An entry that is wanted alone is found by a walk from its home. -/
theorem walk_mem (ring : ∀ i, next (i % size) = (i + 1) % size)
    {wanted : κ → Bool} {v : κ} (inside : v ∈ entries) (hv : wanted v = true)
    (alone : ∀ w ∈ entries, wanted w = true → w = v) :
    ∃ i, walk next (stops slots wanted) size (home v % size) = some i ∧ slots i = some v := by
  obtain ⟨i, hi, place⟩ := (h.mem v).mp inside
  obtain ⟨m, rfl, taken⟩ := h.reached i hi v place
  have stop : stops slots wanted ((home v + m) % size) = true := by
    unfold stops
    rw [place]
    exact hv
  obtain ⟨k, hk, here, before⟩ := @exists_stop size _ (home v) _ hi stop
  refine ⟨_, walk_eq ring before here hk, ?_⟩
  have near : k ≤ m := by
    by_contra far
    rw [before m (by omega)] at stop
    cases stop
  have inner : (home v + k) % size < size := Nat.mod_lt _ (by omega)
  cases slot : slots ((home v + k) % size) with
  | none =>
    by_cases same : k = m
    · rw [same, place] at slot
      cases slot
    · exact absurd slot (taken k (by omega))
  | some w =>
    unfold stops at here
    rw [slot] at here
    rw [alone w ((h.mem w).mpr ⟨_, inner, slot⟩) here]

/-- Where no entry is wanted, a walk ends at a free slot. -/
theorem walk_free
    (ring : ∀ i, next (i % size) = (i + 1) % size) (room : entries.length < size)
    {wanted : κ → Bool} (lacks : ∀ w ∈ entries, wanted w = false) (start : Nat) :
    ∃ k, walk next (stops slots wanted) size (start % size) = some ((start + k) % size) ∧
      (start + k) % size < size ∧ slots ((start + k) % size) = none ∧
      ∀ j < k, slots ((start + j) % size) ≠ none := by
  obtain ⟨i, hi, free⟩ := h.exists_free room
  have stop : stops slots wanted i = true := by
    unfold stops
    rw [free]
    rfl
  obtain ⟨k, hk, here, before⟩ := @exists_stop size _ start _ hi stop
  have inner : ∀ j, (start + j) % size < size := fun j => Nat.mod_lt _ (by omega)
  refine ⟨k, walk_eq ring before here hk, inner k, ?_, fun j hj free => ?_⟩
  · cases slot : slots ((start + k) % size) with
    | none => rfl
    | some w =>
      unfold stops at here
      rw [slot] at here
      have unwanted := lacks w ((h.mem w).mpr ⟨_, inner k, slot⟩)
      exact absurd (here.symm.trans unwanted) (by decide)
  · have earlier := before j hj
    unfold stops at earlier
    rw [free] at earlier
    cases earlier

/-- An entry that is put into the first free slot from its home is held with the others. -/
theorem insert {v : κ} (fresh : v ∉ entries) {k : Nat}
    (inner : (home v + k) % size < size) (free : slots ((home v + k) % size) = none)
    (before : ∀ j < k, slots ((home v + j) % size) ≠ none) :
    Holds home size (Function.update slots ((home v + k) % size) (some v)) (entries ++ [v]) := by
  have kept : ∀ i w, slots i = some w →
      Function.update slots ((home v + k) % size) (some v) i = some w := by
    intro i w hw
    have other : i ≠ (home v + k) % size := by
      rintro rfl
      rw [free] at hw
      cases hw
    rw [Function.update_of_ne other]
    exact hw
  have still : ∀ i, slots i ≠ none →
      Function.update slots ((home v + k) % size) (some v) i ≠ none := by
    intro i taken
    obtain ⟨w, hw⟩ := Option.ne_none_iff_exists'.mp taken
    rw [kept i w hw]
    exact Option.some_ne_none w
  have cases_slot : ∀ i w, Function.update slots ((home v + k) % size) (some v) i = some w →
      (i = (home v + k) % size ∧ w = v) ∨ slots i = some w := by
    intro i w hw
    by_cases new : i = (home v + k) % size
    · rw [new, Function.update_self] at hw
      exact .inl ⟨new, (Option.some.inj hw).symm⟩
    · rw [Function.update_of_ne new] at hw
      exact .inr hw
  have stranger : ∀ i < size, slots i ≠ some v := fun i hi hv => fresh ((h.mem v).mpr ⟨i, hi, hv⟩)
  constructor
  · exact List.nodup_append.mpr ⟨h.nodup, List.nodup_singleton v,
      fun a ha b hb same => fresh (List.mem_singleton.mp hb ▸ same ▸ ha)⟩
  · intro w
    rw [List.mem_append, List.mem_singleton, h.mem w]
    constructor
    · rintro (⟨i, hi, hw⟩ | rfl)
      · exact ⟨i, hi, kept i w hw⟩
      · exact ⟨_, inner, Function.update_self ..⟩
    · rintro ⟨i, hi, hw⟩
      rcases cases_slot i w hw with ⟨-, rfl⟩ | old
      · exact .inr rfl
      · exact .inl ⟨i, hi, old⟩
  · intro i hi j hj w hiw hjw
    rcases cases_slot i w hiw with ⟨rfl, rfl⟩ | oldi
    · rcases cases_slot j w hjw with ⟨rfl, -⟩ | oldj
      · rfl
      · exact absurd oldj (stranger j hj)
    · rcases cases_slot j w hjw with ⟨rfl, rfl⟩ | oldj
      · exact absurd oldi (stranger i hi)
      · exact h.once i hi j hj w oldi oldj
  · intro i hi w hw
    rcases cases_slot i w hw with ⟨rfl, rfl⟩ | old
    · exact ⟨k, rfl, fun j hj => still _ (before j hj)⟩
    · obtain ⟨m, rfl, taken⟩ := h.reached i hi w old
      exact ⟨m, rfl, fun j hj => still _ (taken j hj)⟩

end

end Lookup

end Holds

end DFTracer.Math.Probing
