/-
# Interning strings

A table gives each string a number. The strings stand behind their numbers in blocks, a log keeps
the numbers in the order in which they were bound, and an open-addressed index finds the number of
a string. Numbers come from a counter or from the hash of the string, and a persisted dictionary
binds its own. A call that is rejected throws.
-/

import DFTracer.Aggregation.Metrics
import DFTracer.Math.BlockTable
import DFTracer.Math.Probing

namespace DFTracer.Interning

open List

open DFTracer.Math (BlockTable)
open DFTracer.Math.Probing (walk stops)
open DFTracer.Aggregation (Bytes fnv1aHash)

def blockBits : Nat := 12

def directorySize : Nat := 2 ^ 16

/-- One more than the largest number. -/
def fastCapacity : Nat := 2 ^ blockBits * directorySize

def initialIndexSlots : Nat := 2 ^ 10

/-- The finalizer of a hash, after which every bit depends on all. -/
def fnv1aMix (h : UInt64) : UInt64 :=
  let h := h ^^^ (h >>> 33)
  let h := h * 0xff51afd7ed558ccd
  let h := h ^^^ (h >>> 33)
  let h := h * 0xc4ceb9fe1a85ec53
  h ^^^ (h >>> 33)

def hash (sv : Bytes) : Nat := (fnv1aMix (fnv1aHash sv)).toNat

/-- The index from strings to numbers. A slot of the code holds a number plus one, and zero where
it is free. -/
structure Index where
  mask : Nat
  slots : Nat → Option Nat

def makeIndex (slots : Nat) : Index := ⟨slots - 1, fun _ => none⟩

namespace Index

/-- The slot after a slot. -/
def next (idx : Index) (i : Nat) : Nat := (i + 1) &&& idx.mask

/-- The walk of a hash over the slots, up to a free one or one that holds a wanted number. -/
def probe (idx : Index) (h : Nat) (wanted : Nat → Bool) : Option Nat :=
  walk idx.next (stops idx.slots wanted) (idx.mask + 1) (h &&& idx.mask)

/-- Put a number into the first free slot of its hash. -/
def place (idx : Index) (h id : Nat) : Option Index :=
  (idx.probe h fun _ => false).map fun i =>
    { idx with slots := Function.update idx.slots i (some id) }

end Index

structure StringIntern where
  directory : BlockTable Bytes
  log : BlockTable Nat
  index : Index
  indexSize : Nat
  entryCount : Nat
  numStrings : Nat
  deterministicIds : Bool

/-- Why a call throws. `loops` stands for a call that never returns. -/
inductive InternError where
  | collision (existing sv : Bytes)
  | conflict (id : Nat) (existing sv : Bytes)
  | outOfRange (id : Nat)
  | exhausted (id : Nat)
  | loops
deriving DecidableEq

namespace StringIntern

/-- A table without strings. -/
def fresh : StringIntern where
  directory := .empty
  log := .empty
  index := makeIndex initialIndexSlots
  indexSize := 0
  entryCount := 0
  numStrings := 0
  deterministicIds := false

/-- The string bound to a number, unless the number is free. -/
def slotValue (t : StringIntern) (id : Nat) : Option Bytes :=
  if fastCapacity ≤ id then none else t.directory.get blockBits id

/-- The string of a number, which is empty where there is none. -/
def resolve (t : StringIntern) (id : Nat) : Except InternError Bytes :=
  if fastCapacity ≤ id then .error (.outOfRange id)
  else .ok ((t.directory.get blockBits id).getD [])

/-- The number of the entry at a place in the order of binding. -/
def entryId (t : StringIntern) (n : Nat) : Nat := (t.log.get blockBits n).getD 0

/-- The number that the index has for a string, nothing when the walk never ends. -/
def lookup (t : StringIntern) (h : Nat) (sv : Bytes) : Option (Option Nat) :=
  (t.index.probe h fun v => t.slotValue v == some sv).map t.index.slots

/-- One index entry of the old index, put into the new one. -/
def rehash (t : StringIntern) (fresh : Index) (i : Nat) : Option Index :=
  match t.index.slots i with
  | none => some fresh
  | some v => fresh.place (hash ((t.slotValue v).getD [])) v

def growIndex (t : StringIntern) : Option Index :=
  (List.range (t.index.mask + 1)).foldlM t.rehash (makeIndex ((t.index.mask + 1) * 2))

def indexInsert (t : StringIntern) (h id : Nat) : Option StringIntern := do
  let idx ← if (t.index.mask + 1) * 3 ≤ (t.indexSize + 1) * 4 then t.growIndex else some t.index
  let idx ← idx.place h id
  some { t with index := idx, indexSize := t.indexSize + 1 }

def advanceNumStrings (t : StringIntern) (id : Nat) : StringIntern :=
  if t.numStrings < id + 1 then { t with numStrings := id + 1 } else t

def logEntry (t : StringIntern) (id : Nat) : StringIntern :=
  { t with log := t.log.set blockBits t.entryCount id, entryCount := t.entryCount + 1 }

def bindSlot (t : StringIntern) (id : Nat) (str : Bytes) : Except InternError Unit × StringIntern :=
  if fastCapacity ≤ id then (.error (.exhausted id), t)
  else (.ok (), { t with directory := t.directory.set blockBits id str }.logEntry id)

/-- Bind a number to a string that the index does not have. -/
def bindNew (t : StringIntern) (h id : Nat) (sv : Bytes) : Except InternError Unit × StringIntern :=
  match t.bindSlot id sv with
  | (.error e, t) => (.error e, t)
  | (.ok (), t) =>
    match t.indexInsert h id with
    | none => (.error .loops, t)
    | some t => (.ok (), t.advanceNumStrings id)

/-- The number that a new string gets. -/
def newId (t : StringIntern) (h : Nat) : Nat :=
  if t.deterministicIds then h &&& (fastCapacity - 1) else t.numStrings % 2 ^ 32

def getOrInsert (t : StringIntern) (sv : Bytes) : Except InternError Nat × StringIntern :=
  match t.lookup (hash sv) sv with
  | none => (.error .loops, t)
  | some (some id) => (.ok id, t)
  | some none =>
    let id := t.newId (hash sv)
    match t.slotValue id with
    | some existing => if existing = sv then (.ok id, t) else (.error (.collision existing sv), t)
    | none =>
      match t.bindNew (hash sv) id sv with
      | (.error e, t) => (.error e, t)
      | (.ok (), t) => (.ok id, t)

/-- Insert at a number, for loading a persisted dictionary. -/
def insertAtId (t : StringIntern) (id : Nat) (sv : Bytes) :
    Except InternError Unit × StringIntern :=
  match t.slotValue id with
  | some existing => if existing = sv then (.ok (), t) else (.error (.conflict id existing sv), t)
  | none =>
    match t.lookup (hash sv) sv with
    | none => (.error .loops, t)
    | some (some existing) =>
      match t.bindSlot id ((t.slotValue existing).getD []) with
      | (.error e, t) => (.error e, t)
      | (.ok (), t) => (.ok (), t.advanceNumStrings id)
    | some none => t.bindNew (hash sv) id sv

def enableDeterministicIds (t : StringIntern) : StringIntern := { t with deterministicIds := true }

end StringIntern

/-! ## What an interning table says

A dictionary is a list of bindings, each number bound once. A string may stand behind several
numbers, and the first of them is its number. Bindings are only ever added at the end, so numbers
keep their strings and strings their numbers. -/

open DFTracer.Aggregation (Bytes)

/-- Numbers and their strings, in the order in which they were bound. -/
structure Dictionary where
  bindings : List (Nat × Bytes)
  distinct : (bindings.map Prod.fst).Nodup
  inRange : ∀ b ∈ bindings, b.1 < fastCapacity

namespace Dictionary

def empty : Dictionary := ⟨[], List.nodup_nil, nofun⟩

/-- The string that a number is bound to. -/
def valueOf (d : Dictionary) (id : Nat) : Option Bytes :=
  (d.bindings.find? fun b => b.1 == id).map Prod.snd

/-- The first number that is bound to a string. -/
def idOf (d : Dictionary) (sv : Bytes) : Option Nat :=
  (d.bindings.find? fun b => b.2 == sv).map Prod.fst

/-- A dictionary with one more binding. -/
def bind (d : Dictionary) (id : Nat) (sv : Bytes) (free : d.valueOf id = none)
    (fits : id < fastCapacity) : Dictionary where
  bindings := d.bindings ++ [(id, sv)]
  distinct := by
    have fresh : ∀ b ∈ d.bindings, b.1 ≠ id := by
      simpa [valueOf] using free
    rw [List.map_append]
    refine List.nodup_append.mpr ⟨d.distinct, List.nodup_singleton _, ?_⟩
    rintro a ha b hb rfl
    obtain ⟨binding, hmem, rfl⟩ := List.mem_map.mp ha
    exact fresh binding hmem (List.mem_singleton.mp hb)
  inRange := by
    intro b hb
    rcases List.mem_append.mp hb with old | new
    · exact d.inRange b old
    · cases List.mem_singleton.mp new
      exact fits

section Lookups

variable {d : Dictionary} {id : Nat} {sv : Bytes}

theorem valueOf_eq_some : d.valueOf id = some sv ↔ (id, sv) ∈ d.bindings := by
  constructor
  · intro h
    obtain ⟨⟨i, s⟩, found, rfl⟩ := Option.map_eq_some_iff.mp h
    have same : i = id := by simpa using find?_some found
    exact same ▸ mem_of_find?_eq_some found
  · intro h
    unfold valueOf
    cases found : d.bindings.find? fun b => b.1 == id with
    | none => exact absurd (beq_self_eq_true id) (find?_eq_none.mp found _ h)
    | some b =>
      have same : b.1 = id := by simpa using find?_some found
      have one := inj_on_of_nodup_map d.distinct (mem_of_find?_eq_some found) h same
      rw [one]
      rfl

theorem valueOf_lt (h : d.valueOf id = some sv) : id < fastCapacity :=
  d.inRange _ (valueOf_eq_some.mp h)

theorem idOf_mem (h : d.idOf sv = some id) : (id, sv) ∈ d.bindings := by
  obtain ⟨⟨i, s⟩, found, rfl⟩ := Option.map_eq_some_iff.mp h
  have same : s = sv := by simpa using find?_some found
  exact same ▸ mem_of_find?_eq_some found

theorem valueOf_idOf (h : d.idOf sv = some id) : d.valueOf id = some sv :=
  valueOf_eq_some.mpr (idOf_mem h)

theorem idOf_eq_none : d.idOf sv = none ↔ ∀ b ∈ d.bindings, b.2 ≠ sv := by
  unfold idOf
  simp

/-- A number that is the first of some string. -/
def IsFirst (d : Dictionary) (id : Nat) : Prop := ∃ sv, d.idOf sv = some id

theorem idOf_of_isFirst (first : d.IsFirst id) (h : d.valueOf id = some sv) :
    d.idOf sv = some id := by
  obtain ⟨other, hother⟩ := first
  cases (valueOf_idOf hother).symm.trans h
  exact hother

/-- The string of a bound number has a first number. -/
theorem exists_idOf (h : d.valueOf id = some sv) : ∃ first, d.idOf sv = some first := by
  cases found : d.idOf sv with
  | none => exact absurd rfl (idOf_eq_none.mp found _ (valueOf_eq_some.mp h))
  | some first => exact ⟨first, rfl⟩

end Lookups

section Bind

variable {d : Dictionary} {id : Nat} {sv : Bytes} (free : d.valueOf id = none)
  (fits : id < fastCapacity)

theorem valueOf_bind (other : Nat) : (d.bind id sv free fits).valueOf other =
    if other = id then some sv else d.valueOf other := by
  unfold valueOf bind
  rw [find?_append]
  by_cases same : other = id
  · subst same
    have none : (d.bindings.find? fun b => b.1 == other) = none :=
      Option.map_eq_none_iff.mp free
    rw [none]
    simp
  · rw [if_neg same]
    cases d.bindings.find? fun b => b.1 == other with
    | some b => rfl
    | none => simp [Ne.symm same]

theorem idOf_bind (other : Bytes) : (d.bind id sv free fits).idOf other =
    (d.idOf other).or (if sv = other then some id else none) := by
  unfold idOf bind
  rw [find?_append]
  cases d.bindings.find? fun b => b.2 == other with
  | some b => rfl
  | none =>
    by_cases same : sv = other
    · simp
    · simp

/-- A new string brings its number as the first. -/
theorem isFirst_bind_new (new : d.idOf sv = none) (other : Nat) :
    (d.bind id sv free fits).IsFirst other ↔ other = id ∨ d.IsFirst other := by
  constructor
  · rintro ⟨s, hs⟩
    rw [idOf_bind] at hs
    cases found : d.idOf s with
    | some first =>
      rw [found] at hs
      exact .inr ⟨s, found.trans hs⟩
    | none =>
      rw [found] at hs
      split at hs
      · exact .inl (Option.some.inj hs).symm
      · cases hs
  · rintro (rfl | ⟨s, hs⟩)
    · exact ⟨sv, by rw [idOf_bind, new, if_pos rfl]; rfl⟩
    · exact ⟨s, by rw [idOf_bind, hs]; rfl⟩

/-- A string that has a number keeps it. -/
theorem isFirst_bind_old {first : Nat} (old : d.idOf sv = some first) (other : Nat) :
    (d.bind id sv free fits).IsFirst other ↔ d.IsFirst other := by
  have same : ∀ s, (d.bind id sv free fits).idOf s = d.idOf s := by
    intro s
    rw [idOf_bind]
    cases found : d.idOf s with
    | some first => rfl
    | none =>
      rw [Option.none_or, if_neg]
      rintro rfl
      rw [old] at found
      cases found
  unfold IsFirst
  simp only [same]

end Bind

/-- A dictionary that goes on from another. -/
def Extends (d d' : Dictionary) : Prop := d.bindings <+: d'.bindings

theorem Extends.refl (d : Dictionary) : d.Extends d := prefix_refl _

theorem Extends.trans {a b c : Dictionary} (hab : a.Extends b) (hbc : b.Extends c) : a.Extends c :=
  List.IsPrefix.trans hab hbc

variable {d : Dictionary} {id : Nat} {sv : Bytes} {d' : Dictionary}

theorem extends_bind (free : d.valueOf id = none)
    (fits : id < fastCapacity) : d.Extends (d.bind id sv free fits) := List.prefix_append _ _

/-- Numbers keep their strings. -/
theorem Extends.valueOf (h : d.Extends d')
    (bound : d.valueOf id = some sv) : d'.valueOf id = some sv :=
  valueOf_eq_some.mpr (h.subset (valueOf_eq_some.mp bound))

/-- Strings keep their numbers. -/
theorem Extends.idOf (h : d.Extends d') (bound : d.idOf sv = some id) : d'.idOf sv = some id := by
  obtain ⟨more, same⟩ := h
  unfold Dictionary.idOf at bound ⊢
  obtain ⟨b, found, rfl⟩ := Option.map_eq_some_iff.mp bound
  rw [← same, find?_append, found]
  rfl

/-- There are no more bindings than numbers. -/
theorem length_le (d : Dictionary) : d.bindings.length ≤ fastCapacity := by
  have inside : d.bindings.map Prod.fst ⊆ List.range fastCapacity := by
    intro id hid
    obtain ⟨b, hb, rfl⟩ := mem_map.mp hid
    exact mem_range.mpr (d.inRange b hb)
  have most := (d.distinct.subperm inside).length_le
  rw [length_map, length_range] at most
  exact most

end Dictionary

end DFTracer.Interning
