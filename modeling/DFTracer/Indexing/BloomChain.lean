/-
# Chains of Bloom filters

A scalable filter over its whole life: values are added to the last level, chains are merged
level by level, and chains are stored and read again. A value that went into a chain, or into
one merged into it, is found, as long as the levels that are stored have fewer bits than a
32-bit number counts.
-/

import DFTracer.Indexing.StoredBloom

namespace DFTracer.Indexing

open Flame (Bytes put littleEndian)

universe u

/-- A level of a chain. -/
structure StoredLevel (V : Type u) where
  filter : StoredFilter V
  capacity : Nat
  distinct : Nat

/-- What sorting promises of the levels it is given: the same levels, by capacity. The order
of levels of one capacity is left open. -/
structure LevelSort (V : Type u) where
  sort : List (StoredLevel V) → List (StoredLevel V)
  perm : ∀ levels, (sort levels).Perm levels
  sorted : ∀ levels, (sort levels).Pairwise fun a b => a.capacity ≤ b.capacity

/-- A chain of levels. -/
structure Chain (V : Type u) where
  levels : List (StoredLevel V)
  initialCapacity : Nat
  falsePositiveRate : Float
  distinct : Nat

namespace Chain

/-- `GROWTH_FACTOR`. -/
def GROWTH_FACTOR : Nat := 4

/-- `TIGHTENING_RATIO`. -/
def TIGHTENING_RATIO : Float := 0.5

/-- `MAGIC`. -/
def MAGIC : Bytes := [83, 66, 70, 49]

section Operations

variable {V : Type u} (F : Formulas V) (S : LevelSort V)

/-- The rate tightened by a number of levels. -/
def tightened (rate : Float) : Nat → Float
  | 0 => rate
  | n + 1 => tightened rate n * TIGHTENING_RATIO

/-- Open a level after the others. -/
def openLevel (chain : Chain V) (capacity : Nat) : Chain V :=
  { chain with
    levels := chain.levels ++
      [⟨.new F capacity (tightened chain.falsePositiveRate chain.levels.length), capacity, 0⟩] }

/-- A chain of one empty level. -/
def new (initialCapacity : Nat) (falsePositiveRate : Float) : Chain V :=
  let initialCapacity := if initialCapacity > 0 then initialCapacity else 1
  openLevel F ⟨[], initialCapacity, falsePositiveRate, 0⟩ initialCapacity

def possiblyContains (chain : Chain V) (value : V) : Bool :=
  chain.levels.any fun level => level.filter.possiblyContains F value

/-- Add a value that is not found yet to the last level, and open another one when it is
full. -/
def add [DecidableEq V] (chain : Chain V) (value : V) : Chain V :=
  if chain.possiblyContains F value then chain
  else
    match chain.levels.getLast? with
    | none => chain
    | some active =>
      let active : StoredLevel V :=
        { active with filter := active.filter.add F value, distinct := active.distinct + 1 }
      let chain :=
        { chain with
          levels := chain.levels.dropLast ++ [active], distinct := chain.distinct + 1 }
      if active.distinct ≥ active.capacity then
        chain.openLevel F (active.capacity * GROWTH_FACTOR)
      else chain

/-- Levels of one geometry. -/
def SameGeometry (dst src : StoredLevel V) : Prop :=
  dst.capacity = src.capacity ∧ dst.filter.numBits = src.filter.numBits ∧
    dst.filter.numHashes = src.filter.numHashes

instance (dst src : StoredLevel V) : Decidable (SameGeometry dst src) :=
  inferInstanceAs (Decidable (_ ∧ _ ∧ _))

/-- Merge a level into the first one of its geometry, or add it as it is. -/
def mergeLevel : List (StoredLevel V) → StoredLevel V → Option (List (StoredLevel V))
  | [], src => some [src]
  | dst :: rest, src =>
    if SameGeometry dst src then
      (dst.filter.mergeFrom src.filter).map fun filter =>
        { dst with filter, distinct := dst.distinct + src.distinct } :: rest
    else (mergeLevel rest src).map (dst :: ·)

/-- Merge all levels of another chain, one after the other. -/
def mergeLevels (levels : List (StoredLevel V)) :
    List (StoredLevel V) → Option (List (StoredLevel V))
  | [] => some levels
  | src :: rest => (mergeLevel levels src).bind fun levels => mergeLevels levels rest

/-- Merge another chain. Levels of different sizes make it fail. -/
def mergeFrom (chain other : Chain V) : Option (Chain V) :=
  (mergeLevels chain.levels other.levels).map fun levels =>
    let chain := { chain with levels := S.sort levels, distinct := chain.distinct + other.distinct }
    match chain.levels.getLast? with
    | none => chain
    | some last =>
      if last.distinct ≥ last.capacity then chain.openLevel F (last.capacity * GROWTH_FACTOR)
      else chain

/-- The bytes of a level: their number and the filter's. -/
def levelBytes (level : StoredLevel V) : Bytes :=
  put 4 (level.filter.serialize.length % 2 ^ 32) ++ level.filter.serialize

def serialize (chain : Chain V) : Bytes :=
  MAGIC ++ put 4 (chain.levels.length % 2 ^ 32) ++ chain.levels.flatMap levelBytes

/-- A level of a filter that was read. -/
def levelOf (filter : StoredFilter V) : StoredLevel V where
  filter
  capacity := if filter.numEntries > 0 then filter.numEntries else 1
  distinct := filter.numEntries

/-- Read a number of levels. -/
def readLevels : Nat → Bytes → Option (List (StoredLevel V))
  | 0, _ => some []
  | n + 1, data =>
    if data.length < 4 then none
    else
      let blobSize := StoredFilter.readU32 data
      let data := data.drop 4
      if data.length < blobSize then none
      else
        (StoredFilter.fromBlob (data.take blobSize)).bind fun filter =>
          (readLevels n (data.drop blobSize)).map (levelOf filter :: ·)

/-- A chain of default capacity and rate. -/
def ofLevels (levels : List (StoredLevel V)) : Chain V where
  levels
  initialCapacity := 1024
  falsePositiveRate := 0.01
  distinct := levels.foldl (fun sum level => sum + level.distinct) 0

/-- The chain that bytes hold. Bytes without the magic are those of a single filter. -/
def fromBlob (data : Bytes) : Option (Chain V) :=
  if 8 ≤ data.length ∧ data.take 4 = MAGIC then
    (readLevels (StoredFilter.readU32 (data.drop 4)) (data.drop 8)).map fun levels =>
      if levels.isEmpty then (ofLevels levels).openLevel F (ofLevels levels).initialCapacity
      else ofLevels levels
  else (StoredFilter.fromBlob data).map fun legacy => ofLevels [levelOf legacy]

end Operations

end Chain

/-- A chain with all that went into it. -/
structure Member (V : Type u) where
  chain : Chain V
  added : List V

/-- What is done to a family of chains. -/
inductive Op (V : Type u) where
  /-- Make an empty chain. -/
  | create (initialCapacity : Nat) (falsePositiveRate : Float)
  /-- Add a value to a chain. -/
  | add (i : Nat) (value : V)
  /-- Merge the second chain into the first. -/
  | merge (i j : Nat)
  /-- Store a chain and read it again, as a chain of its own. -/
  | reload (i : Nat)

section Family

variable {V : Type u} [DecidableEq V] (F : Formulas V) (S : LevelSort V)

/-- One operation. It fails when a merge or the reading fails. -/
def step (family : List (Member V)) : Op V → Option (List (Member V))
  | .create capacity rate => some (family ++ [⟨.new F capacity rate, []⟩])
  | .add i value =>
    some (family.modify i fun m => ⟨m.chain.add F value, value :: m.added⟩)
  | .merge i j =>
    match family[i]?, family[j]? with
    | some m, some other =>
      (m.chain.mergeFrom F S other.chain).map fun chain =>
        family.set i ⟨chain, other.added ++ m.added⟩
    | _, _ => some family
  | .reload i =>
    match family[i]? with
    | some m => (Chain.fromBlob F m.chain.serialize).map fun chain => family ++ [⟨chain, m.added⟩]
    | none => some family

/-- A run of operations. -/
def run (family : List (Member V)) : List (Op V) → Option (List (Member V))
  | [] => some family
  | op :: ops => (step F S family op).bind fun family => run family ops

/-- The levels and their bits can be counted in 32 bits. -/
def Chain.Storable (chain : Chain V) : Prop :=
  chain.levels.length < 2 ^ 32 ∧ ∀ level ∈ chain.levels, level.filter.numBits < 2 ^ 32

instance (chain : Chain V) : Decidable chain.Storable := inferInstanceAs (Decidable (_ ∧ _))

/-- A chain that is stored is storable. -/
def Guarded (family : List (Member V)) : Op V → Prop
  | .reload i => ∀ m ∈ family[i]?, m.chain.Storable
  | _ => True

instance (family : List (Member V)) : (op : Op V) → Decidable (Guarded family op)
  | .create _ _ | .add _ _ | .merge _ _ => .isTrue trivial
  | .reload i => inferInstanceAs (Decidable (∀ m ∈ family[i]?, m.chain.Storable))

/-- Every operation of the run is guarded. -/
def Careful (family : List (Member V)) : List (Op V) → Prop
  | [] => True
  | op :: ops => Guarded family op ∧ ∀ next ∈ step F S family op, Careful next ops

instance decidableCareful :
    (ops : List (Op V)) → (family : List (Member V)) → Decidable (Careful F S family ops)
  | [], _ => .isTrue trivial
  | op :: ops, family =>
    have : ∀ next, Decidable (Careful F S next ops) := decidableCareful ops
    inferInstanceAs
      (Decidable (Guarded family op ∧ ∀ next ∈ step F S family op, Careful F S next ops))

/-- Every value that went into a chain is found. -/
def NoFalseNegatives (family : List (Member V)) : Prop :=
  ∀ m ∈ family, ∀ value ∈ m.added, m.chain.possiblyContains F value = true

end Family

end DFTracer.Indexing
