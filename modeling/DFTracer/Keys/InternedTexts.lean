/-
# Interning the texts of a key

An encoder puts the texts of a key into the table, one after another, and writes the numbers that
they get. The first text that a table without strings gets has the number zero, unless numbers are
hashes, and so whether a text has the number zero can be told before.
-/

import DFTracer.Keys.KeyRoundTrip

namespace DFTracer.Interning.StringIntern

open DFTracer.Aggregation (Bytes)

/-- A table that is a dictionary. -/
def Sound (t : StringIntern) : Prop := ∃ d, t.Represents d

/-- The number of a text that is in the table. -/
def numberOf (t : StringIntern) (sv : Bytes) : Option Nat := (t.lookup (hash sv) sv).join

/-- Texts are put into a table, one after another. -/
inductive Interns : StringIntern → List Bytes → StringIntern → Prop
  | nil (t : StringIntern) : Interns t [] t
  | cons {t t' : StringIntern} {sv : Bytes} {svs : List Bytes} {id : Nat}
      (first : (t.getOrInsert sv).1 = .ok id) (rest : Interns (t.getOrInsert sv).2 svs t') :
      Interns t (sv :: svs) t'

variable {t t' t'' : StringIntern} {svs : List Bytes} {sv : Bytes} {id : Nat}

theorem Interns.append {more : List Bytes} (h : Interns t svs t')
    (rest : Interns t' more t'') : Interns t (svs ++ more) t'' := by
  induction h with
  | nil => exact rest
  | cons first _ ih => exact .cons first (ih rest)

/-- A later table has all that an earlier one has. -/
def Later (t t' : StringIntern) : Prop :=
  ∀ d, t.Represents d → ∃ d', t'.Represents d' ∧ d.Extends d'

namespace Later

variable {t t' t'' : StringIntern}

theorem refl (t : StringIntern) : Later t t := fun d h => ⟨d, h, .refl d⟩

theorem trans (h : Later t t') (h' : Later t' t'') : Later t t'' := by
  intro d represents
  obtain ⟨d', represents', grown⟩ := h d represents
  obtain ⟨d'', represents'', grown'⟩ := h' d' represents'
  exact ⟨d'', represents'', grown.trans grown'⟩

theorem sound (h : Later t t') (sound : t.Sound) : t'.Sound := by
  obtain ⟨d, represents⟩ := sound
  obtain ⟨d', represents', -⟩ := h d represents
  exact ⟨d', represents'⟩

end Later

theorem numberOf_eq {d : Dictionary} (h : t.Represents d) (sv : Bytes) :
    t.numberOf sv = d.idOf sv := by
  rw [numberOf, lookup_eq h]
  rfl

theorem Later.numberOf (later : Later t t') (sound : t.Sound) (h : t.numberOf sv = some id) : t'.numberOf sv = some id := by
  obtain ⟨d, represents⟩ := sound
  obtain ⟨d', represents', grown⟩ := later d represents
  rw [numberOf_eq represents] at h
  rw [numberOf_eq represents']
  exact grown.idOf h

/-- A text with a number stands behind it, and the number is in range. -/
theorem resolve_numberOf (sound : t.Sound)
    (h : t.numberOf sv = some id) : id < 2 ^ 32 ∧ t.resolve id = .ok sv := by
  obtain ⟨d, represents⟩ := sound
  rw [numberOf_eq represents] at h
  have bound := Dictionary.valueOf_idOf h
  have small : fastCapacity < 2 ^ 32 := by decide
  exact ⟨(Dictionary.valueOf_lt bound).trans small, resolve_eq represents bound⟩

section GetOrInsert

variable {t : StringIntern} {sv : Bytes} {id : Nat}

theorem later_getOrInsert (t : StringIntern) (sv : Bytes) : Later t (t.getOrInsert sv).2 := by
  intro d h
  rcases getOrInsert_cases h sv with ⟨id, -, same⟩ | ⟨-, e, -, same⟩ | ⟨-, id, free, fits, t', same, h'⟩
  · exact ⟨d, by rwa [same], .refl d⟩
  · exact ⟨d, by rwa [same], .refl d⟩
  · exact ⟨_, by rwa [same], Dictionary.extends_bind free fits⟩

theorem numberOf_getOrInsert (sound : t.Sound) (h : (t.getOrInsert sv).1 = .ok id) :
    (t.getOrInsert sv).2.numberOf sv = some id := by
  obtain ⟨d, represents⟩ := sound
  obtain ⟨d', represents', -, found⟩ := idOf_of_getOrInsert represents h
  rw [numberOf_eq represents', found]

end GetOrInsert

theorem Interns.later (h : Interns t svs t') :
    Later t t' := by
  induction h with
  | nil t => exact .refl t
  | cons _ _ ih => exact (later_getOrInsert _ _).trans ih

/-- What was put in has a number. -/
theorem Interns.exists_number (h : Interns t svs t')
    (sound : t.Sound) : ∀ sv ∈ svs, ∃ id, t'.numberOf sv = some id := by
  induction h with
  | nil => exact fun sv hsv => by cases hsv
  | @cons t t' sv svs id first rest ih =>
    have after := (later_getOrInsert t sv).sound sound
    intro sv hsv
    rcases List.mem_cons.mp hsv with rfl | hsv
    · exact ⟨_, rest.later.numberOf after (numberOf_getOrInsert sound first)⟩
    · exact ih after sv hsv

/-! ## The number zero -/

/-- A text has the number zero, or would get it now. -/
def ZeroNow (t : StringIntern) (sv : Bytes) : Prop :=
  match t.numberOf sv with
  | some id => id = 0
  | none => t.newId (hash sv) = 0

/-- A text has the number zero after texts are put in, of which one is the first. -/
def GetsZero (t : StringIntern) (first sv : Bytes) : Prop :=
  match t.numberOf sv with
  | some id => id = 0
  | none => t.newId (hash sv) = 0 ∧ (t.deterministicIds = true ∨ sv = first)

/-- No counter starts at zero any more. -/
def Settled (t : StringIntern) : Prop := t.deterministicIds = true ∨ 0 < t.numStrings

/-- The way numbers are given stays, and their counter does not go back. -/
structure Counts (t t' : StringIntern) : Prop where
  way : t'.deterministicIds = t.deterministicIds
  counter : t.numStrings ≤ t'.numStrings

theorem Counts.refl (t : StringIntern) : Counts t t := ⟨rfl, Nat.le_refl _⟩

theorem Counts.trans (h : Counts t t') (h' : Counts t' t'') :
    Counts t t'' :=
  ⟨h'.way.trans h.way, h.counter.trans h'.counter⟩

theorem counts_bindSlot (t : StringIntern) (id : Nat) (sv : Bytes) :
    Counts t (t.bindSlot id sv).2 := by
  rw [bindSlot]
  split
  next => exact .refl t
  next => exact ⟨rfl, Nat.le_refl _⟩

theorem counts_indexInsert {h : Nat} (inserted : t.indexInsert h id = some t') : Counts t t' := by
  rw [indexInsert] at inserted
  split at inserted
  next =>
    obtain ⟨grown, -, inserted⟩ := Option.bind_eq_some_iff.mp inserted
    obtain ⟨placed, -, same⟩ := Option.bind_eq_some_iff.mp inserted
    cases same
    exact ⟨rfl, Nat.le_refl _⟩
  next =>
    obtain ⟨kept, -, inserted⟩ := Option.bind_eq_some_iff.mp inserted
    obtain ⟨placed, -, same⟩ := Option.bind_eq_some_iff.mp inserted
    cases same
    exact ⟨rfl, Nat.le_refl _⟩

theorem counts_advanceNumStrings (t : StringIntern) (id : Nat) :
    Counts t (t.advanceNumStrings id) := by
  rw [advanceNumStrings]
  split
  next below => exact ⟨rfl, (Nat.le_of_lt below)⟩
  next => exact .refl t

theorem counts_bindNew (t : StringIntern) (h id : Nat) (sv : Bytes) :
    Counts t (t.bindNew h id sv).2 := by
  have slot := counts_bindSlot t id sv
  rw [bindNew]
  split
  next bound =>
    rw [bound] at slot
    exact slot
  next bound =>
    rw [bound] at slot
    split
    next => exact slot
    next inserted =>
      exact (slot.trans (counts_indexInsert inserted)).trans (counts_advanceNumStrings _ id)

theorem counts_getOrInsert (t : StringIntern) (sv : Bytes) : Counts t (t.getOrInsert sv).2 := by
  have bound := counts_bindNew t (hash sv) (t.newId (hash sv)) sv
  rw [getOrInsert]
  split
  next => exact .refl t
  next => exact .refl t
  next =>
    simp only
    split
    next =>
      split
      next => exact .refl t
      next => exact .refl t
    next =>
      split
      next same =>
        rw [same] at bound
        exact bound
      next same =>
        rw [same] at bound
        exact bound

/-- The number of a new text. -/
theorem newId_of_getOrInsert (sound : t.Sound)
    (new : t.numberOf sv = none) (h : (t.getOrInsert sv).1 = .ok id) :
    id = t.newId (hash sv) := by
  obtain ⟨d, represents⟩ := sound
  have lookup := lookup_eq represents sv
  rw [numberOf, lookup] at new
  rw [getOrInsert, lookup, show d.idOf sv = none from new] at h
  simp only at h
  split at h
  next =>
    split at h
    next => exact (Except.ok.inj h).symm
    next => cases h
  next =>
    split at h
    next => cases h
    next => exact (Except.ok.inj h).symm

section Zero

variable {t : StringIntern} {sv : Bytes} {id : Nat} {t' : StringIntern} {svs : List Bytes}

section

variable (sound : t.Sound)

include sound

/-- A number that was given is below the counter. -/
theorem lt_numStrings (h : t.numberOf sv = some id) : id < t.numStrings := by
  obtain ⟨d, represents⟩ := sound
  rw [numberOf_eq represents] at h
  exact represents.below _ (Dictionary.idOf_mem h)

/-- A counter that counted does not give zero. -/
theorem newId_ne_zero (way : t.deterministicIds = false)
    (counted : 0 < t.numStrings) (h : Nat) : t.newId h ≠ 0 := by
  obtain ⟨d, represents⟩ := sound
  have top := represents.top
  have small : fastCapacity < 2 ^ 32 := by decide
  rw [newId, if_neg (by rw [way]; exact Bool.false_ne_true)]
  omega

/-- A text that is not put in stays new. -/
theorem numberOf_other {other : Bytes} (ne : other ≠ sv)
    (h : (t.getOrInsert sv).1 = .ok id) :
    (t.getOrInsert sv).2.numberOf other = t.numberOf other := by
  obtain ⟨d, represents⟩ := sound
  rw [numberOf_eq represents]
  rcases getOrInsert_cases represents sv with
    ⟨id, -, same⟩ | ⟨-, e, -, same⟩ | ⟨-, id, free, fits, t', same, represents'⟩
  · rw [same, numberOf_eq represents]
  · rw [same] at h
    cases h
  · rw [same, numberOf_eq represents', Dictionary.idOf_bind, if_neg (Ne.symm ne), Option.or_none]

/-- Where no counter starts at zero, a text that is put in changes nothing about zero. -/
theorem zeroNow_getOrInsert (settled : t.Settled)
    (h : (t.getOrInsert sv).1 = .ok id) (other : Bytes) :
    (t.getOrInsert sv).2.ZeroNow other ↔ t.ZeroNow other := by
  have later := later_getOrInsert t sv
  have counts := counts_getOrInsert t sv
  unfold ZeroNow
  cases found : t.numberOf other with
  | some n => rw [later.numberOf sound found]
  | none =>
    by_cases same : other = sv
    · subst same
      rw [numberOf_getOrInsert sound h, newId_of_getOrInsert sound found h]
    · rw [numberOf_other sound same h, found]
      cases way : t.deterministicIds with
      | true => simp only [newId, counts.way, way, if_true]
      | false =>
        have counted : 0 < t.numStrings := by
          rcases settled with hash | counted
          · rw [way] at hash
            cases hash
          · exact counted
        have now := newId_ne_zero sound way counted (hash other)
        have then' := newId_ne_zero (later.sound sound) (counts.way.trans way)
          (lt_of_lt_of_le counted counts.counter) (hash other)
        exact ⟨fun zero => absurd zero then', fun zero => absurd zero now⟩

theorem settled_getOrInsert (h : (t.getOrInsert sv).1 = .ok id) :
    (t.getOrInsert sv).2.Settled :=
  .inr (Nat.zero_lt_of_lt (lt_numStrings ((later_getOrInsert t sv).sound sound)
    (numberOf_getOrInsert sound h)))

end

theorem Interns.zeroNow (h : Interns t svs t')
    (sound : t.Sound) (settled : t.Settled) (other : Bytes) :
    t'.ZeroNow other ↔ t.ZeroNow other := by
  induction h with
  | nil => exact Iff.rfl
  | @cons t t' sv svs id first rest ih =>
    have after := (later_getOrInsert t sv).sound sound
    exact (ih after (settled_getOrInsert sound first)).trans
      (zeroNow_getOrInsert sound settled first other)

/-- The first text that is put in a table without strings, where numbers are counted. -/
theorem zeroNow_first (sound : t.Sound) (way : t.deterministicIds = false)
    (fresh : t.numStrings = 0) (h : (t.getOrInsert sv).1 = .ok id) (other : Bytes) :
    (t.getOrInsert sv).2.ZeroNow other ↔ t.GetsZero sv other := by
  have none : ∀ x, t.numberOf x = none := by
    intro x
    cases found : t.numberOf x with
    | none => rfl
    | some n =>
      have below := lt_numStrings sound found
      omega
  have zero : ∀ h, t.newId h = 0 := by
    intro h
    rw [newId, if_neg (by rw [way]; exact Bool.false_ne_true), fresh, Nat.zero_mod]
  have after := (later_getOrInsert t sv).sound sound
  have mine := numberOf_getOrInsert sound h
  rw [newId_of_getOrInsert sound (none sv) h, zero] at mine
  unfold ZeroNow GetsZero
  rw [none other]
  by_cases same : other = sv
  · rw [same, mine]
    simp [zero]
  · have counted : 0 < (t.getOrInsert sv).2.numStrings := lt_numStrings after mine
    have kept := (counts_getOrInsert t sv).way.trans way
    have away := newId_ne_zero after kept counted (hash other)
    rw [numberOf_other sound same h, none other]
    simp [way, same, away]

/-- Whether a text that is put in gets the number zero can be told before. -/
theorem Interns.numberOf_eq_zero {first : Bytes}
    (h : Interns t (first :: svs) t') (sound : t.Sound) {sv : Bytes} (inside : sv ∈ first :: svs) :
    t'.numberOf sv = some 0 ↔ t.GetsZero first sv := by
  obtain ⟨id, number⟩ := h.exists_number sound sv inside
  have last : t'.numberOf sv = some 0 ↔ t'.ZeroNow sv := by
    unfold ZeroNow
    rw [number]
    exact ⟨fun same => Option.some.inj same, fun same => congrArg some same⟩
  rw [last]
  by_cases settled : t.Settled
  · rw [h.zeroNow sound settled]
    unfold ZeroNow GetsZero
    cases found : t.numberOf sv with
    | some n => rfl
    | none =>
      rcases settled with way | counted
      · simp [way]
      · cases way : t.deterministicIds with
        | true => simp
        | false => simp [newId_ne_zero sound way counted]
  · have way : t.deterministicIds = false := Bool.eq_false_iff.mpr fun way => settled (.inl way)
    have fresh : t.numStrings = 0 := Nat.eq_zero_of_not_pos fun counted => settled (.inr counted)
    cases h with
    | cons begins rest =>
      have after := (later_getOrInsert t first).sound sound
      rw [rest.zeroNow after (settled_getOrInsert sound begins),
        zeroNow_first sound way fresh begins]

end Zero

end DFTracer.Interning.StringIntern
