/-
# Bloom filters that are stored

A filter with the number of bits and of hashes that it was made for. They are stored with its
blocks, in 32 bits each, and decide where a value is looked for once the filter is read again.
Two filters of one geometry are merged by their bits.
-/

import DFTracer.Flame.Transport
import DFTracer.Indexing.BloomFilter
import DFTracer.Math.Table

namespace DFTracer.Indexing

open Flame (Bytes put littleEndian)

universe u

/-- `BLOCK_BITS`. -/
abbrev BLOCK_BITS : Nat := 256

/-- `HEADER_SIZE`. -/
abbrev HEADER_SIZE : Nat := 12

/-- The bits in blocks, the geometry, the number of values added, and the last value added
when it is short enough to be remembered. -/
structure StoredFilter (V : Type u) where
  blocks : List Block
  numBits : Nat
  numHashes : Nat
  numEntries : Nat
  lastValue : Option V

/-- What a filter takes from elsewhere: the two hashes of a value, its length, and the two
formulas for the geometry that are computed with logarithms. -/
structure Formulas (V : Type u) where
  hashes : V → UInt64 × UInt64
  size : V → Nat
  /-- The number of bits for a number of entries and a rate, not yet rounded. -/
  estimate : Nat → Float → Nat
  /-- The number of hashes for a number of bits and of entries. -/
  optimalNumHashes : Nat → Nat → Nat

/-- `optimal_num_bits`: the estimate, in whole blocks. -/
def Formulas.optimalNumBits {V : Type u} (F : Formulas V) (n : Nat) (p : Float) : Nat :=
  (max (F.estimate n p) BLOCK_BITS + BLOCK_BITS - 1) / BLOCK_BITS * BLOCK_BITS

namespace StoredFilter

section Operations

variable {V : Type u} (F : Formulas V)

/-- An empty filter. -/
def new (expectedEntries : Nat) (falsePositiveRate : Float) : StoredFilter V where
  blocks :=
    List.replicate (F.optimalNumBits expectedEntries falsePositiveRate / BLOCK_BITS)
      (Vector.replicate 8 0)
  numBits := F.optimalNumBits expectedEntries falsePositiveRate
  numHashes := F.optimalNumHashes (F.optimalNumBits expectedEntries falsePositiveRate)
    expectedEntries
  numEntries := 0
  lastValue := none

/-- The block of a value, from the stored number of bits. -/
def blockOf (f : StoredFilter V) (value : V) : Nat :=
  BloomFilter.blockIndex (F.hashes value).1 (f.numBits / BLOCK_BITS)

def possiblyContains (f : StoredFilter V) (value : V) : Bool :=
  f.blocks[f.blockOf F value]?.any fun block =>
    block.covers (computeBlockMask (F.hashes value).2)

/-- Add a value. One equal to the remembered value only counts. -/
def add [DecidableEq V] (f : StoredFilter V) (value : V) : StoredFilter V :=
  if f.lastValue = some value then { f with numEntries := f.numEntries + 1 }
  else
    { f with
      blocks := f.blocks.modify (f.blockOf F value)
        (Block.set · (computeBlockMask (F.hashes value).2))
      numEntries := f.numEntries + 1
      lastValue := if F.size value ≤ 64 then some value else none }

/-- Take over the bits of another filter, of the same geometry only. -/
def mergeFrom (f other : StoredFilter V) : Option (StoredFilter V) :=
  if f.blocks.length ≠ other.blocks.length ∨ f.numBits ≠ other.numBits ∨
      f.numHashes ≠ other.numHashes then none
  else
    some { f with
      blocks := f.blocks.zipWith Block.set other.blocks
      numEntries := f.numEntries + other.numEntries }

end Operations

/-- The bytes of a block. -/
def blockBytes (block : Block) : Bytes := block.toList.flatMap fun word => put 4 word.toNat

/-- A 32-bit number at the front of bytes. -/
def readU32 (data : Bytes) : Nat := littleEndian (data.take 4)

/-- The block at the front of bytes. -/
def readBlock (data : Bytes) : Block :=
  Vector.ofFn fun i : Fin 8 => UInt32.ofNat (readU32 (data.drop (4 * i)))

/-- The first blocks of bytes. -/
def readBlocks : Nat → Bytes → List Block
  | 0, _ => []
  | n + 1, data => readBlock data :: readBlocks n (data.drop 32)

variable {V : Type u}

/-- The header and the bits of a filter. -/
def serialize (f : StoredFilter V) : Bytes :=
  put 4 (f.numHashes % 2 ^ 32) ++ put 4 (f.numEntries % 2 ^ 32) ++ put 4 (f.numBits % 2 ^ 32)
    ++ f.blocks.flatMap blockBytes

/-- The filter that bytes hold, when they hold a header. -/
def fromBlob (data : Bytes) : Option (StoredFilter V) :=
  if data.length < HEADER_SIZE then none
  else
    some {
      blocks := readBlocks ((data.length - HEADER_SIZE) / 32) (data.drop HEADER_SIZE)
      numBits := readU32 (data.drop 8)
      numHashes := readU32 data
      numEntries := readU32 (data.drop 4)
      lastValue := none }

/-- A filter as it is read again. -/
def reloaded (f : StoredFilter V) : StoredFilter V where
  blocks := f.blocks
  numBits := f.numBits % 2 ^ 32
  numHashes := f.numHashes % 2 ^ 32
  numEntries := f.numEntries % 2 ^ 32
  lastValue := none

theorem readU32_put {n : Nat} (hn : n < 2 ^ 32) (rest : Bytes) : readU32 (put 4 n ++ rest) = n := by
  exact Flame.littleEndian_put 4 n hn

/-- A word in the bytes of words. -/
theorem readU32_words (words : List UInt32) (rest : Bytes) {i : Nat} (h : i < words.length) :
    readU32 ((words.flatMap (fun word => put 4 word.toNat) ++ rest).drop (4 * i)) =
      words[i].toNat := by
  induction words generalizing i with
  | nil => exact absurd h (Nat.not_lt_zero i)
  | cons word words ih =>
    rw [List.flatMap_cons, List.append_assoc]
    cases i with
    | zero => exact readU32_put word.toNat_lt _
    | succ i =>
      exact ih (Nat.lt_of_succ_lt_succ h)

theorem readBlock_blockBytes (block : Block) (rest : Bytes) :
    readBlock (blockBytes block ++ rest) = block := by
  apply Vector.ext
  intro i h
  have hlen : i < block.toList.length := by rwa [Vector.length_toList]
  simp only [readBlock, Vector.getElem_ofFn, blockBytes, readU32_words _ rest hlen,
    Vector.getElem_toList, UInt32.ofNat_toNat]

theorem length_blockBytes (block : Block) : (blockBytes block).length = 32 := by
  simp [blockBytes]

theorem length_flatMap_blockBytes (blocks : List Block) :
    (blocks.flatMap blockBytes).length = 32 * blocks.length := by
  induction blocks with
  | nil => rfl
  | cons block blocks ih =>
    rw [List.flatMap_cons, List.length_append, length_blockBytes, List.length_cons]
    omega

theorem readBlocks_blockBytes (blocks : List Block) :
    readBlocks blocks.length (blocks.flatMap blockBytes) = blocks := by
  induction blocks with
  | nil => rfl
  | cons block blocks ih =>
    rw [List.flatMap_cons, List.length_cons, readBlocks, readBlock_blockBytes,
      List.drop_left' (length_blockBytes block), ih]

theorem length_serialize (f : StoredFilter V) :
    f.serialize.length = HEADER_SIZE + 32 * f.blocks.length := by
  simp only [serialize, List.length_append, Flame.put_length, length_flatMap_blockBytes]

/-- What is read of the bytes of a filter. -/
theorem fromBlob_serialize (f : StoredFilter V) : fromBlob f.serialize = some f.reloaded := by
  have length := f.length_serialize
  have below (n : Nat) : n % 2 ^ 32 < 2 ^ 32 := Nat.mod_lt n (by decide)
  have bits : f.serialize.drop HEADER_SIZE = f.blocks.flatMap blockBytes := by
    apply List.drop_left'
    simp only [List.length_append, Flame.put_length]
  have hashes : readU32 f.serialize = f.numHashes % 2 ^ 32 := by
    exact readU32_put (below _) _
  have entries : readU32 (f.serialize.drop 4) = f.numEntries % 2 ^ 32 := by
    exact readU32_put (below _) _
  have size : readU32 (f.serialize.drop 8) = f.numBits % 2 ^ 32 := by
    rw [serialize, List.append_assoc, List.drop_left']
    · exact readU32_put (below _) _
    · simp only [List.length_append, Flame.put_length]
  unfold fromBlob
  rw [if_neg (by omega), length, Nat.add_sub_cancel_left, Nat.mul_div_cancel_left _ (by decide),
    bits, readBlocks_blockBytes, hashes, entries, size]
  rfl

/-! ## What a filter holds -/

section Holds

variable {F : Formulas V} {f other : StoredFilter V} {value : V}

/-- The geometry is that of the blocks, and the remembered value is held. -/
structure Sound (F : Formulas V) (f : StoredFilter V) : Prop where
  nonempty : 0 < f.blocks.length
  numBits : f.numBits = BLOCK_BITS * f.blocks.length
  remembers : ∀ value, f.lastValue = some value → f.possiblyContains F value = true

theorem blockOf_lt (sound : Sound F f) (value : V) : f.blockOf F value < f.blocks.length := by
  rw [blockOf, sound.numBits, Nat.mul_div_cancel_left _ (by decide)]
  exact BloomFilter.blockIndex_lt _ sound.nonempty

theorem possiblyContains_iff :
    f.possiblyContains F value = true ↔ ∃ block, f.blocks[f.blockOf F value]? = some block ∧
      block.covers (computeBlockMask (F.hashes value).2) = true :=
  Option.any_eq_true _ _

theorem Sound.new (F : Formulas V) (n : Nat) (p : Float) : Sound F (new F n p) where
  nonempty := by
    rw [StoredFilter.new, List.length_replicate, Formulas.optimalNumBits]
    simp only [BLOCK_BITS]
    omega
  numBits := by
    rw [StoredFilter.new, List.length_replicate, Formulas.optimalNumBits,
      Nat.mul_div_cancel _ (by decide), Nat.mul_comm]
  remembers := fun _ h => nomatch h

variable [DecidableEq V]

theorem blockOf_add (added value : V) : (f.add F added).blockOf F value = f.blockOf F value := by
  unfold add blockOf
  split <;> rfl

/-- Adding a value loses no other. -/
theorem possiblyContains_add_of (added : V) (held : f.possiblyContains F value = true) :
    (f.add F added).possiblyContains F value = true := by
  rw [possiblyContains_iff] at held ⊢
  obtain ⟨block, found, covered⟩ := held
  rw [blockOf_add]
  unfold add
  split
  · exact ⟨block, found, covered⟩
  · simp only [List.getElem?_modify, found]
    refine ⟨_, rfl, ?_⟩
    split
    · exact Block.covers_set_of_covers _ covered
    · exact covered

/-- An added value is found. -/
theorem possiblyContains_add (sound : Sound F f) (value : V) :
    (f.add F value).possiblyContains F value = true := by
  by_cases last : f.lastValue = some value
  · exact possiblyContains_add_of value (sound.remembers value last)
  · rw [possiblyContains_iff, blockOf_add]
    have inside := blockOf_lt sound value
    unfold add
    rw [if_neg last]
    simp only [List.getElem?_modify, List.getElem?_eq_getElem inside]
    exact ⟨_, rfl, Block.covers_set _ _⟩

theorem length_add (f : StoredFilter V) (value : V) :
    (f.add F value).blocks.length = f.blocks.length := by
  unfold add
  split
  · rfl
  · exact List.length_modify _ _ _

theorem numBits_add (f : StoredFilter V) (value : V) : (f.add F value).numBits = f.numBits := by
  unfold add
  split <;> rfl

theorem Sound.add (sound : Sound F f) (value : V) : Sound F (f.add F value) where
  nonempty := by
    rw [length_add]
    exact sound.nonempty
  numBits := by
    rw [length_add, numBits_add]
    exact sound.numBits
  remembers := by
    intro other remembered
    by_cases last : f.lastValue = some value
    · have same : (f.add F value).lastValue = f.lastValue := by
        unfold StoredFilter.add
        rw [if_pos last]
      exact possiblyContains_add_of value (sound.remembers other (same.symm.trans remembered))
    · have same : value = other := by
        unfold StoredFilter.add at remembered
        rw [if_neg last] at remembered
        split at remembered
        · exact Option.some.inj remembered
        · cases remembered
      rw [same]
      exact possiblyContains_add sound other

omit [DecidableEq V]

theorem set_covers_right {block mask : Block} (more : Block) (covered : block.covers mask = true) :
    (more.set block).covers mask = true := by
  have swap : more.set block = block.set more := by
    apply Vector.ext
    intro i h
    simp only [Block.set, Vector.getElem_zipWith]
    exact UInt32.or_comm _ _
  rw [swap]
  exact Block.covers_set_of_covers more covered

/-- Filters of one geometry merge, and the result holds what either held. -/
theorem mergeFrom_sound (sound : Sound F f) (sound' : Sound F other)
    (bits : f.numBits = other.numBits) (hashes : f.numHashes = other.numHashes) :
    ∃ merged, f.mergeFrom other = some merged ∧ Sound F merged ∧
      ∀ value, f.possiblyContains F value = true ∨ other.possiblyContains F value = true →
        merged.possiblyContains F value = true := by
  have length : f.blocks.length = other.blocks.length := by
    apply Nat.eq_of_mul_eq_mul_left (show 0 < BLOCK_BITS by decide)
    rw [← sound.numBits, ← sound'.numBits, bits]
  have holds (value : V)
      (held : f.possiblyContains F value = true ∨ other.possiblyContains F value = true) :
      ({ f with
        blocks := f.blocks.zipWith Block.set other.blocks
        numEntries := f.numEntries + other.numEntries } : StoredFilter V).possiblyContains F value =
          true := by
    have inside := blockOf_lt sound value
    have inside' : f.blockOf F value < other.blocks.length := length ▸ inside
    rw [possiblyContains_iff]
    change ∃ block, (f.blocks.zipWith Block.set other.blocks)[f.blockOf F value]? = some block ∧ _
    rw [List.getElem?_zipWith, List.getElem?_eq_getElem inside, List.getElem?_eq_getElem inside']
    refine ⟨_, rfl, ?_⟩
    rcases held with held | held
    · obtain ⟨block, found, covered⟩ := possiblyContains_iff.mp held
      rw [List.getElem?_eq_getElem inside] at found
      rw [Option.some.inj found]
      exact Block.covers_set_of_covers _ covered
    · obtain ⟨block, found, covered⟩ := possiblyContains_iff.mp held
      have same : other.blockOf F value = f.blockOf F value := by rw [blockOf, blockOf, bits]
      rw [same, List.getElem?_eq_getElem inside'] at found
      rw [Option.some.inj found]
      exact set_covers_right _ covered
  refine ⟨_, ?_, ?_, holds⟩
  · unfold mergeFrom
    rw [if_neg]
    intro apart
    rcases apart with apart | apart | apart
    · exact apart length
    · exact apart bits
    · exact apart hashes
  · exact {
      nonempty := by
        rw [List.length_zipWith, ← length, Nat.min_self]
        exact sound.nonempty
      numBits := by
        rw [List.length_zipWith, ← length, Nat.min_self]
        exact sound.numBits
      remembers := fun value remembered => holds value (.inl (sound.remembers value remembered)) }

/-- Fewer bits than a 32-bit number counts survive a reload. -/
theorem reloaded_sound (sound : Sound F f) (fits : f.numBits < 2 ^ 32) : Sound F f.reloaded where
  nonempty := sound.nonempty
  numBits := by
    rw [reloaded, Nat.mod_eq_of_lt fits]
    exact sound.numBits
  remembers := fun _ h => nomatch h

theorem possiblyContains_reloaded (fits : f.numBits < 2 ^ 32) (value : V) :
    f.reloaded.possiblyContains F value = f.possiblyContains F value := by
  have same : f.reloaded.blockOf F value = f.blockOf F value := by
    rw [blockOf, blockOf, reloaded, Nat.mod_eq_of_lt fits]
  unfold possiblyContains
  rw [same]
  rfl

end Holds

end StoredFilter

/-! ## Value dictionaries that are stored

The dictionary of a dimension holds a count for each text that a chunk has of it. It is stored
entry by entry, with the length of a text in 16 bits and the number of entries in 32, and a
pruner asks the dictionary that is read again. A text that it does not list counts as absent. -/

open Flame (Bytes put littleEndian put_length littleEndian_put)
open Math (Table)
open StoredFilter (readU32 readU32_put)

/-- A count for each value text. The entries are in the order in which they are stored. -/
abbrev ValueCounts := Table Bytes UInt64

namespace ValueCounts

/-- The length that is stored of a text. -/
def keyLen (key : Bytes) : Nat := min key.length 0xFFFF

/-- The bytes of one entry. -/
def serializeEntry (entry : Bytes × UInt64) : Bytes :=
  put 2 (keyLen entry.1) ++ entry.1.take (keyLen entry.1) ++ put 8 entry.2.toNat

/-- The bytes of a dictionary. -/
def serializeValueCounts (counts : ValueCounts) : Bytes :=
  if counts.entries = [] then []
  else put 4 (counts.entries.length % 2 ^ 32) ++ counts.entries.flatMap serializeEntry

/-- A 16-bit number at the front of bytes. -/
def readU16 (data : Bytes) : Nat := littleEndian (data.take 2)

/-- A 64-bit number at the front of bytes. -/
def readU64 (data : Bytes) : UInt64 := UInt64.ofNat (littleEndian (data.take 8))

/-- Read up to `num` entries, as long as the bytes last. -/
def readEntries : Nat → Bytes → ValueCounts → ValueCounts
  | 0, _, result => result
  | num + 1, data, result =>
    if data.length < 2 then result
    else
      let keyLen := readU16 data
      let data := data.drop 2
      if data.length < keyLen + 8 then result
      else
        let key := data.take keyLen
        let data := data.drop keyLen
        readEntries num (data.drop 8) (result.alter key fun _ => readU64 data)

/-- The dictionary that bytes hold. -/
def deserializeValueCounts (data : Bytes) : ValueCounts :=
  if data.length < 4 then Table.empty else readEntries (readU32 data) (data.drop 4) Table.empty

/-- The chunk has the value. -/
def dictContains (counts : ValueCounts) (value : Bytes) : Bool := (counts.lookup value).isSome

/-- The chunk has no other value. -/
def dictExcludes (counts : ValueCounts) (value : Bytes) : Bool :=
  counts.entries.length == 1 && counts.dictContains value

/-- The chunk does not have the value. -/
def dictLacks (counts : ValueCounts) (value : Bytes) : Bool := !counts.dictContains value

/-! ### Entries that are read again -/

/-- The texts fit 16 bits and the number of entries 32. -/
structure Storable (counts : ValueCounts) : Prop where
  texts : ∀ entry ∈ counts.entries, entry.1.length < 2 ^ 16
  number : counts.entries.length < 2 ^ 32

/-- The number that bytes hold is below the power of 256 that they leave room for. -/
theorem littleEndian_lt (bytes : Bytes) : littleEndian bytes < 256 ^ bytes.length := by
  induction bytes with
  | nil => exact Nat.one_pos
  | cons b rest ih =>
    have := b.toNat_lt
    rw [littleEndian, List.length_cons]
    omega

theorem littleEndian_take_lt (width : Nat) (data : Bytes) :
    littleEndian (data.take width) < 256 ^ width :=
  Nat.lt_of_lt_of_le (littleEndian_lt _)
    (Nat.pow_le_pow_right (by decide) (List.length_take_le width data))

/-- Every text that is read is short. -/
theorem short_of_mem_readEntries {num : Nat} {data : Bytes} {result : ValueCounts}
    (short : ∀ key ∈ result.keys, key.length < 2 ^ 16) :
    ∀ key ∈ (readEntries num data result).keys, key.length < 2 ^ 16 := by
  induction num generalizing data result with
  | zero => exact short
  | succ num ih =>
    rw [readEntries]
    split
    · exact short
    · dsimp only
      split
      · exact short
      · apply ih
        intro key listed
        rcases (Table.mem_keys_put _ _ _ _).mp listed with rfl | listed
        · rw [List.length_take]
          exact Nat.lt_of_le_of_lt (Nat.min_le_left _ _) (littleEndian_take_lt 2 data)
        · exact short key listed

/-- Reading adds at most one text an entry. -/
theorem length_readEntries_le (num : Nat) (data : Bytes) (result : ValueCounts) :
    (readEntries num data result).entries.length ≤ result.entries.length + num := by
  have grows (key : Bytes) (f : Option UInt64 → UInt64) (entries : List (Bytes × UInt64)) :
      (Table.put key f entries).length ≤ entries.length + 1 := by
    induction entries with
    | nil => exact Nat.le_refl _
    | cons entry rest ih =>
      rw [Table.put]
      split
      · exact Nat.le_succ _
      · exact Nat.succ_le_succ ih
  induction num generalizing data result with
  | zero => exact Nat.le_refl _
  | succ num ih =>
    rw [readEntries]
    split
    · exact Nat.le_add_right _ _
    · dsimp only
      split
      · exact Nat.le_add_right _ _
      · have step := grows ((data.drop 2).take (readU16 data))
          (fun _ => readU64 ((data.drop 2).drop (readU16 data))) result.entries
        have rest := ih (((data.drop 2).drop (readU16 data)).drop 8)
          (result.alter ((data.drop 2).take (readU16 data))
            fun _ => readU64 ((data.drop 2).drop (readU16 data)))
        apply Nat.le_trans rest
        rw [Table.alter]
        dsimp only
        omega

theorem readU64_put (count : UInt64) (rest : Bytes) : readU64 (put 8 count.toNat ++ rest) = count := by
  rw [readU64, List.take_left' (put_length 8 _), littleEndian_put 8 _ count.toNat_lt,
    UInt64.ofNat_toNat]

/-- One stored entry is read, and the rest is left. -/
theorem readEntries_serializeEntry (num : Nat) {entry : Bytes × UInt64}
    (short : entry.1.length < 2 ^ 16) (rest : Bytes) (result : ValueCounts) :
    readEntries (num + 1) (serializeEntry entry ++ rest) result
      = readEntries num rest (result.alter entry.1 fun _ => entry.2) := by
  have whole : keyLen entry.1 = entry.1.length := by
    rw [keyLen]
    omega
  have bytes : serializeEntry entry ++ rest
      = put 2 entry.1.length ++ (entry.1 ++ (put 8 entry.2.toNat ++ rest)) := by
    rw [serializeEntry, whole, List.take_length, List.append_assoc, List.append_assoc]
  have keyLen : readU16 (serializeEntry entry ++ rest) = entry.1.length := by
    rw [bytes, readU16, List.take_left' (put_length 2 _), littleEndian_put 2 _ short]
  have text : (serializeEntry entry ++ rest).drop 2 = entry.1 ++ (put 8 entry.2.toNat ++ rest) := by
    rw [bytes, List.drop_left' (put_length 2 _)]
  have long : ¬ (serializeEntry entry ++ rest).length < 2 := by
    rw [bytes, List.length_append, put_length]
    omega
  have inside : ¬ (entry.1 ++ (put 8 entry.2.toNat ++ rest)).length < entry.1.length + 8 := by
    rw [List.length_append, List.length_append, put_length]
    omega
  rw [readEntries, if_neg long, keyLen, text]
  dsimp only
  rw [if_neg inside, List.take_left, List.drop_left, readU64_put, List.drop_left' (put_length 8 _)]

/-- The entries that are read are put into the dictionary one by one. -/
theorem readEntries_serialize (entries : List (Bytes × UInt64))
    (short : ∀ entry ∈ entries, entry.1.length < 2 ^ 16) (result : ValueCounts) :
    readEntries entries.length (entries.flatMap serializeEntry) result
      = entries.foldl (fun result entry => result.alter entry.1 fun _ => entry.2) result := by
  induction entries generalizing result with
  | nil => rfl
  | cons entry entries ih =>
    rw [List.flatMap_cons, List.length_cons,
      readEntries_serializeEntry _ (short entry List.mem_cons_self)]
    exact ih (fun e listed => short e (List.mem_cons_of_mem _ listed)) _

theorem deserialize_serialize {counts : ValueCounts} (storable : counts.Storable) :
    deserializeValueCounts counts.serializeValueCounts
      = Table.merge (fun _ count => count) Table.empty counts := by
  rw [serializeValueCounts]
  by_cases none : counts.entries = []
  · rw [Table.merge, none]
    rfl
  · have header : readU32 (put 4 (counts.entries.length % 2 ^ 32)
        ++ counts.entries.flatMap serializeEntry) = counts.entries.length := by
      rw [readU32_put (Nat.mod_lt _ (by decide)), Nat.mod_eq_of_lt storable.number]
    rw [if_neg none, deserializeValueCounts, if_neg, header]
    · exact readEntries_serialize _ storable.texts _
    · rw [List.length_append, put_length]
      omega

/-- A dictionary whose texts and number of entries fit is read again as it was. -/
theorem lookup_deserialize {counts : ValueCounts} (storable : counts.Storable) (value : Bytes) :
    (deserializeValueCounts counts.serializeValueCounts).lookup value = counts.lookup value := by
  rw [deserialize_serialize storable]
  exact Table.lookup_merge_empty _ (fun _ => rfl) counts value

/-- No long text is in a dictionary that was read. -/
theorem dictLacks_of_long (data : Bytes) {value : Bytes} (long : 2 ^ 16 ≤ value.length) :
    (deserializeValueCounts data).dictLacks value = true := by
  have absent : (deserializeValueCounts data).lookup value = none := by
    rw [Table.lookup_eq_none_iff]
    intro listed
    rw [deserializeValueCounts] at listed
    split at listed
    · exact absurd listed List.not_mem_nil
    · have := short_of_mem_readEntries (fun key h => absurd h List.not_mem_nil) value listed
      omega
  rw [dictLacks, dictContains, absent]
  rfl

/-- A dictionary that was read has no more entries than its bytes say in 32 bits. -/
theorem length_deserialize_lt (data : Bytes) :
    (deserializeValueCounts data).entries.length < 2 ^ 32 := by
  rw [deserializeValueCounts]
  split
  · exact Nat.two_pow_pos 32
  · have few := length_readEntries_le (readU32 data) (data.drop 4) Table.empty
    have number : readU32 data < 2 ^ 32 := littleEndian_take_lt 4 data
    exact Nat.lt_of_le_of_lt few (by rwa [Table.empty, List.length_nil, Nat.zero_add])

/-- A dictionary is read again as it was stored if and only if its texts are shorter than 2^16
bytes and there are fewer than 2^32 of them. -/
theorem valueCounts_roundTrip_iff (counts : ValueCounts) :
    (∀ value, (deserializeValueCounts counts.serializeValueCounts).lookup value
      = counts.lookup value) ↔ counts.Storable := by
  constructor
  · intro same
    constructor
    · intro entry listed
      by_contra long
      have found : counts.lookup entry.1 = some entry.2 := Table.lookup_eq_some_iff.mpr listed
      have lacks := dictLacks_of_long counts.serializeValueCounts (Nat.le_of_not_lt long)
      rw [dictLacks, dictContains, same, found] at lacks
      cases lacks
    · rw [← Table.length_entries same]
      exact length_deserialize_lt _
  · exact fun storable value => lookup_deserialize storable value

/-- The dictionary of one text of 2^16 bytes. -/
def longText : ValueCounts :=
  ⟨[(List.replicate (2 ^ 16) 0, 1)], List.nodup_singleton _⟩

theorem longText_lost : ¬ ∀ value,
    (deserializeValueCounts longText.serializeValueCounts).lookup value
      = longText.lookup value := by
  intro same
  have found : longText.lookup (List.replicate (2 ^ 16) 0) = some 1 :=
    Table.lookup_eq_some_iff.mpr List.mem_cons_self
  have lacks := @dictLacks_of_long longText.serializeValueCounts (List.replicate (2 ^ 16) 0)
    (Nat.le_of_eq List.length_replicate.symm)
  rw [dictLacks, dictContains, same, found] at lacks
  exact absurd lacks (by decide)

end ValueCounts

end DFTracer.Indexing
