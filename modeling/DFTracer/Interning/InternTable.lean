/-
# The table is a dictionary

What the blocks, the log and the index of a table hold is one dictionary. A call that succeeds
answers from it or adds a binding at its end, and a call that throws leaves it as it was. No walk
over the index goes on forever, since the index grows before it is full.
-/

import DFTracer.Interning.StringIntern
import DFTracer.Math.SortedRows
import DFTracer.Math.Varint

namespace DFTracer.Interning

open List

open DFTracer.Math (BlockTable)
open DFTracer.Math.Probing (Holds walk stops)
open DFTracer.Aggregation (Bytes)

/-! ## The index -/

/-- The index holds numbers with the given hashes, and is not yet full. -/
structure Indexes (home : Nat → Nat) (idx : Index) (entries : List Nat) : Prop where
  power : ∃ k, idx.mask + 1 = 2 ^ (k + 1)
  load : entries.length * 4 < (idx.mask + 1) * 3
  holds : Holds home (idx.mask + 1) idx.slots entries

namespace Indexes

variable {home : Nat → Nat} {idx : Index} {entries : List Nat}

theorem and_mask (power : ∃ k, idx.mask + 1 = 2 ^ (k + 1)) (i : Nat) :
    i &&& idx.mask = i % (idx.mask + 1) := by
  obtain ⟨k, hk⟩ := power
  have mask : idx.mask = 2 ^ (k + 1) - 1 := by omega
  rw [hk, mask, Nat.and_two_pow_sub_one_eq_mod]

theorem next_eq (power : ∃ k, idx.mask + 1 = 2 ^ (k + 1)) (i : Nat) :
    idx.next (i % (idx.mask + 1)) = (i + 1) % (idx.mask + 1) := by
  rw [Index.next, and_mask power, Nat.mod_add_mod]

section

variable (h : Indexes home idx entries)

include h

/-- A wanted number that is alone is found. -/
theorem probe_mem {wanted : Nat → Bool} {id : Nat}
    (inside : id ∈ entries) (hid : wanted id = true)
    (alone : ∀ w ∈ entries, wanted w = true → w = id) :
    ∃ i, idx.probe (home id) wanted = some i ∧ idx.slots i = some id := by
  rw [Index.probe, and_mask h.power]
  exact h.holds.walk_mem (next_eq h.power) inside hid alone

theorem room : entries.length < idx.mask + 1 := by
  have load := h.load
  omega

/-- Where no number is wanted, the walk ends at a free slot. -/
theorem probe_free {wanted : Nat → Bool}
    (lacks : ∀ w ∈ entries, wanted w = false) (hash : Nat) :
    ∃ i, idx.probe hash wanted = some i ∧ idx.slots i = none := by
  obtain ⟨k, found, -, free, -⟩ := h.holds.walk_free (next_eq h.power) h.room lacks hash
  rw [Index.probe, and_mask h.power]
  exact ⟨_, found, free⟩

end

/-- A number is placed in a ring that has room. -/
theorem place_eq (power : ∃ k, idx.mask + 1 = 2 ^ (k + 1))
    (h : Holds home (idx.mask + 1) idx.slots entries) (room : entries.length < idx.mask + 1)
    {id : Nat} (fresh : id ∉ entries) :
    ∃ placed, idx.place (home id) id = some placed ∧ placed.mask = idx.mask ∧
      Holds home (idx.mask + 1) placed.slots (entries ++ [id]) := by
  obtain ⟨k, found, inner, free, before⟩ :=
    @Holds.walk_free _ _ _ _ _ idx.next h (next_eq power) room (fun _ => false)
      (fun w _ => rfl) (home id)
  refine ⟨⟨idx.mask, Function.update idx.slots ((home id + k) % (idx.mask + 1)) (some id)⟩, ?_,
    rfl, h.insert fresh inner free before⟩
  rw [Index.place, Index.probe, and_mask power, found]
  rfl

end Indexes

namespace StringIntern

variable {t : StringIntern} {home : Nat → Nat} {entries : List Nat}

section

variable (h : Indexes home t.index entries) (hashes : ∀ v ∈ entries, hash ((t.slotValue v).getD []) = home v)

include h hashes

/-- The numbers in the first slots, put into a ring that is twice as large. -/
theorem rehash_eq :
    ∀ n ≤ t.index.mask + 1, ∃ grown,
      (List.range n).foldlM t.rehash (makeIndex ((t.index.mask + 1) * 2)) = some grown ∧
        grown.mask + 1 = (t.index.mask + 1) * 2 ∧
        Holds home ((t.index.mask + 1) * 2) grown.slots ((List.range n).filterMap t.index.slots) := by
  obtain ⟨k, size⟩ := h.power
  intro n
  induction n with
  | zero =>
    intro _
    refine ⟨makeIndex ((t.index.mask + 1) * 2), rfl, ?_, Holds.empty⟩
    rw [makeIndex]
    simp only
    omega
  | succ n ih =>
    intro inside
    obtain ⟨grown, hgrown, hsize, holds⟩ := ih (by omega)
    rw [range_succ, foldlM_append, hgrown]
    have power : ∃ k, grown.mask + 1 = 2 ^ (k + 1) := ⟨k + 1, by rw [hsize, size]; rfl⟩
    cases slot : t.index.slots n with
    | none =>
      refine ⟨grown, ?_, hsize, ?_⟩
      · simp [rehash, slot]
      · simpa [slot] using holds
    | some v =>
      have inside : v ∈ entries := (h.holds.mem v).mpr ⟨n, by omega, slot⟩
      have fresh : v ∉ (List.range n).filterMap t.index.slots := by
        rw [mem_filterMap]
        rintro ⟨i, hi, hv⟩
        have below := mem_range.mp hi
        have same := h.holds.once i (by omega) n (by omega) v hv slot
        omega
      have room : ((List.range n).filterMap t.index.slots).length < grown.mask + 1 := by
        have most := length_filterMap_le t.index.slots (List.range n)
        rw [length_range] at most
        omega
      rw [← hsize] at holds
      obtain ⟨placed, hplaced, hmask, holds⟩ := Indexes.place_eq power holds room fresh
      refine ⟨placed, ?_, by rw [hmask, hsize], ?_⟩
      · simp [rehash, slot, hashes v inside, hplaced]
      · rw [← hsize]
        simpa [slot] using holds

/-- The grown index holds what the index held. -/
theorem growIndex_eq :
    ∃ grown, t.growIndex = some grown ∧ grown.mask + 1 = (t.index.mask + 1) * 2 ∧
      ∃ others, others.Perm entries ∧ Holds home (grown.mask + 1) grown.slots others := by
  obtain ⟨grown, hgrown, hsize, holds⟩ := rehash_eq h hashes _ (Nat.le_refl _)
  refine ⟨grown, hgrown, hsize, _, ?_, hsize ▸ holds⟩
  refine (perm_ext_iff_of_nodup holds.nodup h.holds.nodup).mpr fun v => ?_
  rw [h.holds.mem v, mem_filterMap]
  simp only [mem_range]

end

variable {id : Nat}

/-- A number that the index lacks is added to it. -/
theorem indexInsert_eq (h : Indexes home t.index entries) (count : t.indexSize = entries.length)
    (hashes : ∀ v ∈ entries, hash ((t.slotValue v).getD []) = home v)
    (fresh : id ∉ entries) :
    ∃ idx others, t.indexInsert (home id) id =
        some { t with index := idx, indexSize := t.indexSize + 1 } ∧
      others.Perm (id :: entries) ∧ Indexes home idx others := by
  obtain ⟨k, size⟩ := h.power
  have load := h.load
  unfold indexInsert
  split
  next full =>
    obtain ⟨grown, hgrown, hsize, others, perm, holds⟩ := growIndex_eq h hashes
    have power : ∃ k, grown.mask + 1 = 2 ^ (k + 1) := ⟨k + 1, by rw [hsize, size]; rfl⟩
    have room : others.length < grown.mask + 1 := by
      rw [perm.length_eq]
      omega
    have lacks : id ∉ others := fun inside => fresh (perm.mem_iff.mp inside)
    obtain ⟨placed, hplaced, hmask, all⟩ := Indexes.place_eq power holds room lacks
    refine ⟨placed, others ++ [id], ?_, ?_, hmask ▸ power, ?_, hmask ▸ all⟩
    · rw [hgrown]
      simp [hplaced]
    · exact (perm_append_singleton id others).trans (perm.cons id)
    · rw [length_append, length_singleton, perm.length_eq]
      omega
  next notFull =>
    obtain ⟨placed, hplaced, hmask, all⟩ := Indexes.place_eq h.power h.holds h.room fresh
    refine ⟨placed, entries ++ [id], ?_, perm_append_singleton id entries,
      hmask ▸ h.power, ?_, hmask ▸ all⟩
    · simp [hplaced]
    · rw [length_append, length_singleton]
      omega

/-! ## The table -/

/-- The table says what a dictionary says, and the index has the first number of each string. -/
structure Represents (t : StringIntern) (d : Dictionary) : Prop where
  value : ∀ id, t.slotValue id = d.valueOf id
  count : t.entryCount = d.bindings.length
  entry : ∀ n (h : n < d.bindings.length), t.log.get blockBits n = some (d.bindings[n].1)
  below : ∀ b ∈ d.bindings, b.1 < t.numStrings
  top : t.numStrings ≤ fastCapacity
  index : ∃ entries, (∀ id, id ∈ entries ↔ d.IsFirst id) ∧ t.indexSize = entries.length ∧
    Indexes (fun id => hash ((d.valueOf id).getD [])) t.index entries

theorem represents_fresh : Represents fresh Dictionary.empty where
  value id := by
    rw [slotValue]
    split <;> rfl
  count := rfl
  entry := nofun
  below := nofun
  top := Nat.zero_le _
  index := by
    refine ⟨[], ?_, rfl, ⟨9, rfl⟩, by decide, Holds.empty⟩
    intro id
    refine ⟨nofun, ?_⟩
    rintro ⟨sv, first⟩
    cases first

variable {d : Dictionary}

/-- The index has the number that the dictionary has for a string. -/
theorem lookup_eq (h : Represents t d) (sv : Bytes) : t.lookup (hash sv) sv = some (d.idOf sv) := by
  obtain ⟨entries, firsts, -, indexes⟩ := h.index
  have wanted : ∀ v, (t.slotValue v == some sv) = true ↔ d.valueOf v = some sv := by
    intro v
    rw [h.value, beq_iff_eq]
  unfold lookup
  cases found : d.idOf sv with
  | some id =>
    have value := Dictionary.valueOf_idOf found
    obtain ⟨i, hi, slot⟩ := indexes.probe_mem ((firsts id).mpr ⟨sv, found⟩) ((wanted id).mpr value)
      (fun w hw same => by
        have other := Dictionary.idOf_of_isFirst ((firsts w).mp hw) ((wanted w).mp same)
        exact Option.some.inj (other.symm.trans found))
    simp only [value, Option.getD_some] at hi
    rw [hi, Option.map_some, slot]
  | none =>
    obtain ⟨i, hi, slot⟩ := @Indexes.probe_free _ _ _ indexes
      (fun v => t.slotValue v == some sv) (fun w _ => by
        refine Bool.eq_false_iff.mpr fun same => ?_
        obtain ⟨first, hfirst⟩ := Dictionary.exists_idOf ((wanted w).mp same)
        rw [found] at hfirst
        cases hfirst) (hash sv)
    rw [hi, Option.map_some, slot]

/-- What binding a free number leaves: the string behind it and the number in the log. -/
structure Bound (t t' : StringIntern) (id : Nat) (sv : Bytes) : Prop where
  value : ∀ other, t'.slotValue other = if other = id then some sv else t.slotValue other
  count : t'.entryCount = t.entryCount + 1
  last : t'.log.get blockBits t.entryCount = some id
  kept : ∀ n < t.entryCount, t'.log.get blockBits n = t.log.get blockBits n
  index : t'.index = t.index
  indexSize : t'.indexSize = t.indexSize
  numStrings : t'.numStrings = t.numStrings

theorem bindSlot_eq (fits : id < fastCapacity) (sv : Bytes) :
    ∃ t', t.bindSlot id sv = (.ok (), t') ∧ Bound t t' id sv := by
  refine ⟨_, if_neg (Nat.not_le.mpr fits), ?_, rfl, ?_, ?_, rfl, rfl, rfl⟩
  · intro other
    by_cases same : other = id
    · subst same
      simp [slotValue, logEntry, Nat.not_le.mpr fits]
    · simp only [slotValue, logEntry, BlockTable.get_set_ne _ _ same, if_neg same]
  · simp [logEntry]
  · intro n hn
    exact BlockTable.get_set_ne _ _ (Nat.ne_of_lt hn)

variable {sv : Bytes}

/-- A bound number is put at the end of the dictionary, once the index has its string. -/
theorem Bound.represents {t' t'' : StringIntern} (h : Represents t d)
    (free : d.valueOf id = none) (fits : id < fastCapacity) (bound : Bound t t' id sv)
    (value : ∀ other, t''.slotValue other = t'.slotValue other) (log : t''.log = t'.log)
    (count : t''.entryCount = t'.entryCount) (number : t''.numStrings = t'.numStrings)
    (index : ∃ entries, (∀ other, other ∈ entries ↔ (d.bind id sv free fits).IsFirst other) ∧
      t''.indexSize = entries.length ∧
      Indexes (fun other => hash (((d.bind id sv free fits).valueOf other).getD [])) t''.index
        entries) :
    Represents (t''.advanceNumStrings id) (d.bind id sv free fits) := by
  have fields : (t''.advanceNumStrings id).directory = t''.directory ∧
      (t''.advanceNumStrings id).log = t''.log ∧
      (t''.advanceNumStrings id).entryCount = t''.entryCount ∧
      (t''.advanceNumStrings id).index = t''.index ∧
      (t''.advanceNumStrings id).indexSize = t''.indexSize ∧
      (t''.advanceNumStrings id).numStrings = max t''.numStrings (id + 1) := by
    unfold advanceNumStrings
    split
    · exact ⟨rfl, rfl, rfl, rfl, rfl, by simp only; omega⟩
    · exact ⟨rfl, rfl, rfl, rfl, rfl, by omega⟩
  obtain ⟨directory, log', count', index', indexSize', number'⟩ := fields
  constructor
  · intro other
    have same : (t''.advanceNumStrings id).slotValue other = t''.slotValue other := by
      rw [slotValue, slotValue, directory]
    rw [same, value, bound.value, Dictionary.valueOf_bind, h.value]
  · rw [count', count, bound.count, h.count]
    simp [Dictionary.bind]
  · intro n hn
    rw [log', log]
    simp only [Dictionary.bind, length_append, length_singleton] at hn
    simp only [Dictionary.bind]
    by_cases old : n < d.bindings.length
    · rw [bound.kept n (h.count ▸ old), h.entry n old, getElem_append_left old]
    · have new : n = t.entryCount := by rw [h.count]; omega
      subst new
      rw [bound.last, getElem_append_right (by rw [h.count])]
      simp
  · intro b hb
    rw [number', number, bound.numStrings]
    rcases mem_append.mp hb with old | new
    · have below := h.below b old
      omega
    · cases mem_singleton.mp new
      omega
  · have top := h.top
    rw [number', number, bound.numStrings]
    omega
  · rw [index', indexSize']
    exact index

/-- The hashes of the first numbers are the same when another number is bound. -/
theorem home_bind (free : d.valueOf id = none) (fits : id < fastCapacity)
    {v : Nat} (first : d.IsFirst v) :
    (d.bind id sv free fits).valueOf v = d.valueOf v := by
  obtain ⟨s, hs⟩ := first
  have value := Dictionary.valueOf_idOf hs
  rw [Dictionary.valueOf_bind, if_neg]
  rintro rfl
  rw [free] at value
  cases value

section

variable (h : Represents t d) (free : d.valueOf id = none) (fits : id < fastCapacity)

include h free fits

theorem bindNew_eq (new : d.idOf sv = none) :
    ∃ t', t.bindNew (hash sv) id sv = (.ok (), t') ∧ Represents t' (d.bind id sv free fits) := by
  obtain ⟨entries, firsts, count, indexes⟩ := h.index
  obtain ⟨t', ht', bound⟩ := @bindSlot_eq t id fits sv
  have value : ∀ other, t'.slotValue other = (d.bind id sv free fits).valueOf other := by
    intro other
    rw [bound.value, Dictionary.valueOf_bind, h.value]
  have lacks : id ∉ entries := by
    intro inside
    obtain ⟨s, hs⟩ := (firsts id).mp inside
    have taken := Dictionary.valueOf_idOf hs
    rw [free] at taken
    cases taken
  have moved : Indexes (fun v => hash (((d.bind id sv free fits).valueOf v).getD []))
      t'.index entries := by
    rw [bound.index]
    refine ⟨indexes.power, indexes.load, indexes.holds.congr fun v hv => ?_⟩
    rw [home_bind free fits ((firsts v).mp hv)]
  have home : hash (((d.bind id sv free fits).valueOf id).getD []) = hash sv := by
    rw [Dictionary.valueOf_bind, if_pos rfl]
    rfl
  obtain ⟨idx, others, hinsert, perm, all⟩ := indexInsert_eq moved (bound.indexSize.trans count)
    (fun v hv => by rw [value]) lacks
  rw [home] at hinsert
  refine ⟨({ t' with index := idx, indexSize := t'.indexSize + 1 } : StringIntern).advanceNumStrings
    id, ?_, ?_⟩
  · rw [bindNew, ht']
    simp only [hinsert]
  · refine bound.represents h free fits (fun other => rfl) rfl rfl rfl ⟨others, ?_, ?_, all⟩
    · intro other
      rw [perm.mem_iff, mem_cons, firsts, Dictionary.isFirst_bind_new free fits new]
    · rw [perm.length_eq, length_cons, bound.indexSize, count]

/-- Binding a free number to a string that has one. -/
theorem bindSlot_alias {first : Nat} (old : d.idOf sv = some first) :
    ∃ t', t.bindSlot id sv = (.ok (), t') ∧
      Represents (t'.advanceNumStrings id) (d.bind id sv free fits) := by
  obtain ⟨entries, firsts, count, indexes⟩ := h.index
  obtain ⟨t', ht', bound⟩ := @bindSlot_eq t id fits sv
  refine ⟨t', ht', bound.represents h free fits (fun other => rfl) rfl rfl rfl
    ⟨entries, ?_, bound.indexSize.trans count, ?_⟩⟩
  · intro other
    rw [firsts, Dictionary.isFirst_bind_old free fits old]
  · rw [bound.index]
    refine ⟨indexes.power, indexes.load, indexes.holds.congr fun v hv => ?_⟩
    rw [home_bind free fits ((firsts v).mp hv)]

end

theorem bindSlot_full (full : fastCapacity ≤ id) (sv : Bytes) :
    t.bindSlot id sv = (.error (.exhausted id), t) := if_pos full

/-- What a call does: it answers from the dictionary, throws and leaves the table as it was, or
adds one binding of a new string. -/
theorem getOrInsert_cases (h : Represents t d) (sv : Bytes) :
    (∃ id, d.idOf sv = some id ∧ t.getOrInsert sv = (.ok id, t)) ∨
      (d.idOf sv = none ∧ ∃ e, e ≠ .loops ∧ t.getOrInsert sv = (.error e, t)) ∨
      (d.idOf sv = none ∧ ∃ id free fits t', t.getOrInsert sv = (.ok id, t') ∧
        Represents t' (d.bind id sv free fits)) := by
  unfold getOrInsert
  rw [lookup_eq h]
  cases found : d.idOf sv with
  | some id => exact .inl ⟨id, rfl, rfl⟩
  | none =>
    simp only
    rw [h.value]
    cases taken : d.valueOf (t.newId (hash sv)) with
    | some existing =>
      have other : existing ≠ sv := by
        rintro rfl
        obtain ⟨first, hfirst⟩ := Dictionary.exists_idOf taken
        rw [found] at hfirst
        cases hfirst
      simp only [if_neg other]
      exact .inr (.inl ⟨trivial, _, by simp, rfl⟩)
    | none =>
      by_cases fits : t.newId (hash sv) < fastCapacity
      · obtain ⟨t', ht', represents⟩ := bindNew_eq h taken fits found
        simp only [ht']
        exact .inr (.inr ⟨trivial, _, taken, fits, t', rfl, represents⟩)
      · have full := @bindSlot_full t _ (Nat.not_lt.mp fits) sv
        simp only [bindNew, full]
        exact .inr (.inl ⟨trivial, _, by simp, rfl⟩)

/-- What a call with a number does. It throws only when the number is out of range or has another
string. -/
theorem insertAtId_cases (h : Represents t d) (id : Nat) (sv : Bytes) :
    (d.valueOf id = some sv ∧ t.insertAtId id sv = (.ok (), t)) ∨
      ((fastCapacity ≤ id ∨ ∃ existing, existing ≠ sv ∧ d.valueOf id = some existing) ∧
        ∃ e, e ≠ .loops ∧ t.insertAtId id sv = (.error e, t)) ∨
      (∃ free fits t', t.insertAtId id sv = (.ok (), t') ∧
        Represents t' (d.bind id sv free fits)) := by
  cases slot : t.slotValue id with
  | some existing =>
    have taken : d.valueOf id = some existing := (h.value id).symm.trans slot
    unfold insertAtId
    rw [slot]
    by_cases same : existing = sv
    · subst same
      exact .inl ⟨taken, if_pos rfl⟩
    · simp only [if_neg same]
      exact .inr (.inl ⟨.inr ⟨existing, same, taken⟩, _, by simp, rfl⟩)
  | none =>
    have taken : d.valueOf id = none := (h.value id).symm.trans slot
    unfold insertAtId
    rw [slot, lookup_eq h]
    by_cases fits : id < fastCapacity
    · cases found : d.idOf sv with
      | some first =>
        obtain ⟨t', ht', represents⟩ := bindSlot_alias h taken fits found
        have same : (t.slotValue first).getD [] = sv := by
          rw [h.value, Dictionary.valueOf_idOf found]
          rfl
        simp only [same, ht']
        exact .inr (.inr ⟨taken, fits, _, rfl, represents⟩)
      | none =>
        obtain ⟨t', ht', represents⟩ := bindNew_eq h taken fits found
        simp only [ht']
        exact .inr (.inr ⟨taken, fits, t', rfl, represents⟩)
    · have full := fun str => @bindSlot_full t _ (Nat.not_lt.mp fits) str
      cases found : d.idOf sv with
      | some first =>
        simp only [full]
        exact .inr (.inl ⟨.inl (Nat.not_lt.mp fits), _, by simp, rfl⟩)
      | none =>
        simp only [bindNew, full]
        exact .inr (.inl ⟨.inl (Nat.not_lt.mp fits), _, by simp, rfl⟩)

end StringIntern

/-! ## Persisting a dictionary

The entries of a table past a watermark are written as rows, each under a prefix and its number,
and a fresh table is filled from the rows with that prefix, in the order of the keys. A number has
seven bits a byte, so that this is not the order of the numbers. -/

open DFTracer.Math
open DFTracer.Math.SortedRows (Rows put seek startsWith Sorted)

/-- A number at the front of bytes, which must end. -/
def readVarint (bytes : Bytes) : Option (Nat × Bytes) :=
  if bytes.all (128 ≤ ·.toNat) then none else some (Varint.read bytes)

def internDictPrefix : Bytes := [0xFF, 0xFD]

/-- The key of an entry. -/
def dictKey (id : Nat) : Bytes := internDictPrefix ++ Varint.write id

/-- A table and how many of its entries are written. -/
structure AggInternTable where
  intern : StringIntern
  flushedEntries : Nat

/-- Write an entry. -/
def putEntry (intern : StringIntern) (rows : Rows Bytes) (n : Nat) :
    Except InternError (Rows Bytes) := do
  let sv ← intern.resolve (intern.entryId n)
  .ok (put rows (dictKey (intern.entryId n)) sv)

/-- Write the entries past the watermark and advance it. -/
def flushInternDictionary (rows : Rows Bytes) (table : AggInternTable) :
    Except InternError (Rows Bytes × AggInternTable) :=
  let current := table.intern.entryCount % 2 ^ 32
  if current ≤ table.flushedEntries then .ok (rows, table)
  else do
    let rows ← (List.range' table.flushedEntries (current - table.flushedEntries)).foldlM
      (putEntry table.intern) rows
    .ok (rows, { table with flushedEntries := current })

/-- Insert the entries of rows, up to the first row without the prefix. -/
def insertRows : Rows Bytes → StringIntern → Except InternError Unit × StringIntern
  | [], intern => (.ok (), intern)
  | (key, value) :: rest, intern =>
    if startsWith internDictPrefix key then
      match readVarint (key.drop internDictPrefix.length) with
      | none => insertRows rest intern
      | some (id, _) =>
        match intern.insertAtId (id % 2 ^ 32) value with
        | (.error e, intern) => (.error e, intern)
        | (.ok (), intern) => insertRows rest intern
    else (.ok (), intern)

/-- Fill a table from the rows of a store. -/
def loadInternDictionary (rows : Rows Bytes) (table : AggInternTable) :
    Except InternError Unit × AggInternTable :=
  match insertRows (seek rows internDictPrefix) table.intern with
  | (.error e, intern) => (.error e, { table with intern := intern })
  | (.ok (), intern) => (.ok (), ⟨intern, intern.entryCount % 2 ^ 32⟩)

theorem exists_last_byte (n : Nat) : ∃ b ∈ Varint.write n, b.toNat < 128 := by
  induction n using Nat.strong_induction_on with
  | _ n ih =>
    rw [Varint.write]
    split
    next small =>
      refine ⟨UInt8.ofNat n, mem_singleton_self _, ?_⟩
      rw [UInt8.toNat_ofNat']
      omega
    next large =>
      obtain ⟨b, hb, small⟩ := ih (n / 128) (by omega)
      exact ⟨b, mem_cons_of_mem _ hb, small⟩

/-- The number of an entry is read back from its key. -/
theorem readVarint_dictKey {id : Nat} (fits : id < fastCapacity) :
    readVarint ((dictKey id).drop internDictPrefix.length) = some (id, []) := by
  have wide : id < 2 ^ 64 := fits.trans (by decide)
  have back := Varint.read_write wide []
  rw [append_nil] at back
  rw [dictKey, drop_left, readVarint, back, if_neg]
  rw [all_eq_true]
  intro all
  obtain ⟨b, hb, small⟩ := exists_last_byte id
  have large := of_decide_eq_true (all b hb)
  omega

theorem dictKey_injective {id other : Nat} (fits : id < fastCapacity) (fits' : other < fastCapacity)
    (same : dictKey id = dictKey other) : id = other := by
  have read := readVarint_dictKey fits
  rw [same, readVarint_dictKey fits'] at read
  exact (Prod.mk.inj (Option.some.inj read)).1.symm

end DFTracer.Interning
