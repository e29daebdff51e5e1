/-
# Bloom filters

A split block filter: a value picks one block of 256 bits and one bit in each of its eight words.
A scalable filter chains such filters, opening a larger level when the last one is full. The
number of bits of a level is a parameter here. A filter may answer yes for a value it never saw,
and never answers no for a value that was added.
-/

import Mathlib.Algebra.Order.Ring.Nat

namespace DFTracer.Indexing

/-- `Fnv1aHasherUtility`: the 64-bit FNV-1a hash of the bytes of a text. -/
def fnv1aHash (value : String) : UInt64 :=
  value.toUTF8.data.foldl (fun state byte => (state ^^^ byte.toUInt64) * 0x00000100000001b3)
    0xcbf29ce484222325

/-- The SplitMix64 finisher. -/
def splitMix64 (raw : UInt64) : UInt64 :=
  let h := (raw ^^^ (raw >>> 30)) * 0xbf58476d1ce4e5b9
  let h := (h ^^^ (h >>> 27)) * 0x94d049bb133111eb
  h ^^^ (h >>> 31)

/-- `compute_hashes`. -/
def computeHashes (value : String) : UInt64 × UInt64 :=
  let raw := fnv1aHash value
  (splitMix64 raw, splitMix64 (raw + 0x9e3779b97f4a7c15))

/-- A block of eight words, 256 bits. -/
abbrev Block := Vector UInt32 8

/-- `SALT`. -/
def salt : Block :=
  #v[0x47b6137b, 0x44974d91, 0x8824ad5b, 0xa2b7289d, 0x705495c7, 0x2df1424b, 0x9efc4947, 0x5c6bfb31]

/-- `compute_block_mask`: one bit in each word. -/
def computeBlockMask (h2 : UInt64) : Block :=
  let h32 := (h2 ^^^ (h2 >>> 32)).toUInt32
  salt.map fun s => (1 : UInt32) <<< ((h32 * s) >>> 27)

namespace Block

/-- Every bit of the mask is set in the block. -/
def covers (block mask : Block) : Bool :=
  (block.zipWith (fun word bits => word &&& bits == bits) mask).all id

/-- The block with the bits of the mask set. -/
def set (block mask : Block) : Block := block.zipWith (· ||| ·) mask

theorem word_or (word bits : UInt32) : (word ||| bits) &&& bits = bits := by
  apply UInt32.eq_of_toBitVec_eq
  ext i
  simp
  grind

theorem word_mono {word bits : UInt32} (more : UInt32) (covered : word &&& bits = bits) :
    (word ||| more) &&& bits = bits := by
  rw [← covered]
  apply UInt32.eq_of_toBitVec_eq
  ext i
  simp
  grind

theorem covers_iff (block mask : Block) :
    block.covers mask = true ↔ ∀ (i : Nat) (h : i < 8), block[i] &&& mask[i] = mask[i] := by
  simp [covers]

theorem covers_set (block mask : Block) : (block.set mask).covers mask = true := by
  rw [covers_iff]
  intro i h
  simp only [set, Vector.getElem_zipWith]
  exact word_or _ _

theorem covers_set_of_covers {block mask : Block} (more : Block)
    (covered : block.covers mask = true) : (block.set more).covers mask = true := by
  rw [covers_iff] at covered ⊢
  intro i h
  simp only [set, Vector.getElem_zipWith]
  exact word_mono _ (covered i h)

end Block

/-! ## One filter -/

/-- `BloomFilter`: its blocks, the number of values added, and the last value
added when it is short enough to be remembered. -/
structure BloomFilter where
  blocks : List Block
  /-- The bit estimate is rounded up to whole blocks, at least one. -/
  nonempty : 0 < blocks.length
  numEntries : Nat
  lastValue : Option String

namespace BloomFilter

/-- `block_index`: the high word of a 64 by 64 bit product. -/
def blockIndex (h1 : UInt64) (numBlocks : Nat) : Nat := h1.toNat * numBlocks / 2 ^ 64

theorem blockIndex_lt (h1 : UInt64) {numBlocks : Nat} (positive : 0 < numBlocks) :
    blockIndex h1 numBlocks < numBlocks := by
  unfold blockIndex
  rw [Nat.div_lt_iff_lt_mul (by decide), Nat.mul_comm]
  exact Nat.mul_lt_mul_of_pos_left h1.toNat_lt positive

/-- A filter of at least `bits` bits, in whole blocks. -/
def empty (bits : Nat) : BloomFilter where
  blocks := List.replicate ((max bits 256 + 255) / 256) (Vector.replicate 8 0)
  nonempty := by
    rw [List.length_replicate]
    omega
  numEntries := 0
  lastValue := none

/-- The block a value lives in. -/
def blockOf (filter : BloomFilter) (value : String) : Nat :=
  blockIndex (computeHashes value).1 filter.blocks.length

/-- `possibly_contains`. -/
def possiblyContains (filter : BloomFilter) (value : String) : Bool :=
  filter.blocks[filter.blockOf value]?.any fun block =>
    block.covers (computeBlockMask (computeHashes value).2)

/-- `add`. A value equal to the remembered one only counts. -/
def add (filter : BloomFilter) (value : String) : BloomFilter :=
  if filter.lastValue = some value then { filter with numEntries := filter.numEntries + 1 }
  else
    { blocks := filter.blocks.modify (filter.blockOf value)
        (Block.set · (computeBlockMask (computeHashes value).2))
      nonempty := by
        rw [List.length_modify]
        exact filter.nonempty
      numEntries := filter.numEntries + 1
      lastValue := if value.utf8ByteSize ≤ 64 then some value else none }

/-- What `possibly_contains` finds: a block with every bit of the value set. -/
theorem possiblyContains_iff (filter : BloomFilter) (value : String) :
    filter.possiblyContains value = true ↔
      ∃ block, filter.blocks[filter.blockOf value]? = some block ∧
        block.covers (computeBlockMask (computeHashes value).2) = true :=
  Option.any_eq_true _ _

/-- Adding keeps the number of blocks, so every value stays in its block. -/
@[simp] theorem blockOf_add (filter : BloomFilter) (added value : String) :
    (filter.add added).blockOf value = filter.blockOf value := by
  unfold add blockOf
  split
  · rfl
  · simp only [List.length_modify]

variable {filter : BloomFilter}

/-- Adding a value loses no other. -/
theorem possiblyContains_add_of {value : String} (added : String)
    (held : filter.possiblyContains value = true) :
    (filter.add added).possiblyContains value = true := by
  rw [possiblyContains_iff] at held ⊢
  obtain ⟨block, found, covered⟩ := held
  rw [blockOf_add]
  unfold add
  split
  · exact ⟨block, found, covered⟩
  · simp only [List.getElem?_modify, found]
    refine ⟨_, rfl, ?_⟩
    split
    · exact Block.covers_set_of_covers _ covered
    · exact covered

/-- The remembered value was added. -/
def Remembers (filter : BloomFilter) : Prop :=
  ∀ value, filter.lastValue = some value → filter.possiblyContains value = true

theorem remembers_empty (bits : Nat) : (empty bits).Remembers := by
  intro value remembered
  exact absurd remembered (by simp [empty])

/-- An added value is found. -/
theorem possiblyContains_add (remembers : filter.Remembers)
    (value : String) : (filter.add value).possiblyContains value = true := by
  by_cases last : filter.lastValue = some value
  · exact possiblyContains_add_of value (remembers value last)
  · rw [possiblyContains_iff, blockOf_add]
    have inside : filter.blockOf value < filter.blocks.length :=
      blockIndex_lt _ filter.nonempty
    unfold add
    rw [if_neg last]
    simp only [List.getElem?_modify, List.getElem?_eq_getElem inside]
    exact ⟨_, rfl, Block.covers_set _ _⟩

theorem Remembers.add (remembers : filter.Remembers) (value : String) :
    (filter.add value).Remembers := by
  intro other remembered
  by_cases last : filter.lastValue = some value
  · have same : (filter.add value).lastValue = filter.lastValue := by
      unfold BloomFilter.add
      rw [if_pos last]
    exact possiblyContains_add_of value (remembers other (same.symm.trans remembered))
  · have same : other = value := by
      unfold BloomFilter.add at remembered
      rw [if_neg last] at remembered
      split at remembered
      · exact (Option.some.inj remembered).symm
      · exact absurd remembered (by simp)
    subst same
    exact possiblyContains_add remembers other

end BloomFilter

/-- One level of a chain. -/
structure Level where
  filter : BloomFilter
  capacity : Nat
  distinct : Nat

/-- `ScalableBloomFilter`: the levels in order. The last one, where values are
added, is kept apart, so a chain is never empty. -/
structure ScalableBloomFilter where
  closed : List Level
  active : Level

namespace ScalableBloomFilter

-- the bit estimate of a level, from its capacity and its position in the chain
variable (estimate : Nat → Nat → Nat) {chain : ScalableBloomFilter} {other : String}

/-- `open_level` for a chain that has `position` levels. -/
def openLevel (position capacity : Nat) : Level where
  filter := .empty (estimate capacity position)
  capacity := capacity
  distinct := 0

/-- A chain with one empty level. -/
def empty (initialCapacity : Nat) : ScalableBloomFilter where
  closed := []
  active := openLevel estimate 0 (if 0 < initialCapacity then initialCapacity else 1)

/-- `levels_`. -/
def levels (chain : ScalableBloomFilter) : List Level := chain.closed ++ [chain.active]

/-- `possibly_contains`. -/
def possiblyContains (chain : ScalableBloomFilter) (value : String) : Bool :=
  chain.levels.any fun level => level.filter.possiblyContains value

/-- `add`: a value that already probes as present is skipped, and a level that
reached its capacity is followed by one four times as large. -/
def add (chain : ScalableBloomFilter) (value : String) : ScalableBloomFilter :=
  if chain.possiblyContains value then chain
  else
    let active : Level :=
      { filter := chain.active.filter.add value
        capacity := chain.active.capacity
        distinct := chain.active.distinct + 1 }
    if active.capacity ≤ active.distinct then
      { closed := chain.closed ++ [active]
        active := openLevel estimate (chain.closed.length + 1) (active.capacity * 4) }
    else { chain with active := active }

/-- Every level remembers only what it holds. -/
def Remembers (chain : ScalableBloomFilter) : Prop := chain.active.filter.Remembers

theorem remembers_empty (initialCapacity : Nat) :
    (empty estimate initialCapacity).Remembers :=
  BloomFilter.remembers_empty _

theorem Remembers.add (remembers : chain.Remembers)
    (value : String) : (chain.add estimate value).Remembers := by
  unfold ScalableBloomFilter.add
  split
  · exact remembers
  · dsimp only
    split
    · exact BloomFilter.remembers_empty _
    · exact BloomFilter.Remembers.add remembers value

/-- The levels after a value was really added. -/
theorem possiblyContains_step {value : String} (absent : chain.possiblyContains value = false)
    (held : (chain.closed.any fun level => level.filter.possiblyContains other) = true ∨
      (chain.active.filter.add value).possiblyContains other = true) :
    (chain.add estimate value).possiblyContains other = true := by
  unfold ScalableBloomFilter.add
  rw [if_neg (by simp [absent])]
  unfold possiblyContains levels
  dsimp only
  split
  · simp only [List.any_append, List.any_cons, List.any_nil, Bool.or_false, Bool.or_eq_true]
    exact .inl held
  · simp only [List.any_append, List.any_cons, List.any_nil, Bool.or_false, Bool.or_eq_true]
    exact held

/-- Adding a value loses no other. -/
theorem possiblyContains_add_of (value : String) (held : chain.possiblyContains other = true) :
    (chain.add estimate value).possiblyContains other = true := by
  cases present : chain.possiblyContains value with
  | true =>
    unfold add
    rw [if_pos present]
    exact held
  | false =>
    apply possiblyContains_step estimate present
    unfold possiblyContains levels at held
    rw [List.any_append, Bool.or_eq_true] at held
    refine held.imp_right fun active => ?_
    simp only [List.any_cons, List.any_nil, Bool.or_false] at active
    exact BloomFilter.possiblyContains_add_of value active

/-- An added value is found. -/
theorem possiblyContains_add (remembers : chain.Remembers)
    (value : String) : (chain.add estimate value).possiblyContains value = true := by
  cases present : chain.possiblyContains value with
  | true =>
    unfold add
    rw [if_pos present]
    exact present
  | false =>
    apply possiblyContains_step estimate present
    exact .inr (BloomFilter.possiblyContains_add remembers value)

end ScalableBloomFilter

end DFTracer.Indexing
