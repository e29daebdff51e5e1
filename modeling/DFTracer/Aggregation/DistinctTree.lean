/-
# Distinct counts of merged sketches

A distinct sketch of any precision, built by adding hashes and by merging sketches in any order.
It holds the hashes themselves while they are few and registers afterwards, and both are those of
the set of all hashes that were ever added.
-/

import DFTracer.Aggregation.Sketches

namespace DFTracer.Aggregation

open List

/-- The number of leading bits of a hash that name a register, as a template argument. -/
structure Precision where
  bits : Nat
  pos : 0 < bits
  small : bits < 32

namespace Precision

/-- `BasicDistinctSketch<>`. -/
def default : Precision := ⟨PRECISION, by decide, by decide⟩

variable (p : Precision)

/-- `REGISTERS`. -/
def registers : Nat := 2 ^ p.bits

/-- `SPARSE_LIMIT`. -/
def sparseLimit : Nat := p.registers / 4

/-- The register of a hash. -/
def register (h : UInt64) : Nat := h.toNat / 2 ^ (64 - p.bits)

/-- The rank of a hash in its register. -/
def rank (h : UInt64) : UInt8 :=
  UInt8.ofNat (DistinctSketch.clz
    ((h <<< UInt64.ofNat p.bits) ||| ((1 : UInt64) <<< UInt64.ofNat (p.bits - 1))) + 1)

/-- Raise the register of a hash to its rank. -/
def applyDense (dense : List UInt8) (h : UInt64) : List UInt8 :=
  dense.modify (p.register h) fun r => if p.rank h > r then p.rank h else r

/-- Go over from hashes to registers. -/
def toDense (s : DistinctSketch) : DistinctSketch :=
  if s.dense ≠ [] then s
  else { dense := s.sparse.foldl p.applyDense (List.replicate p.registers 0) }

/-- Drop repeated hashes, and go over to registers when too many are left. -/
def compactSparse (s : DistinctSketch) : DistinctSketch :=
  let s := { s with sparse := DistinctSketch.unique s.sparse }
  if s.sparse.length ≥ p.sparseLimit then p.toDense s else s

def addHash (s : DistinctSketch) (h : UInt64) : DistinctSketch :=
  if s.dense = [] then
    let s := { s with sparse := s.sparse ++ [h] }
    if s.sparse.length ≥ p.sparseLimit then p.compactSparse s else s
  else { s with dense := p.applyDense s.dense h }

def mergeFrom (s o : DistinctSketch) : DistinctSketch :=
  if o.dense = [] ∧ o.sparse = [] then s
  else
    let s :=
      if o.dense ≠ [] then
        let s := p.toDense s
        { s with dense := s.dense.zipWith (fun a b => if a < b then b else a) o.dense }
      else s
    o.sparse.foldl p.addHash s

/-- The number of registers as a double. -/
def m : Float := (UInt64.ofNat p.registers).toFloat

/-- `ALPHA`. -/
def alpha : Float := 0.7213 / (1.0 + 1.079 / p.m)

/-- The number of distinct values. -/
def estimate (s : DistinctSketch) : UInt64 :=
  if s.dense = [] then UInt64.ofNat (DistinctSketch.unique s.sparse).length
  else
    let sum := s.dense.foldl (fun acc r => acc + Float.scaleB 1.0 (-(r.toNat : Int))) (0.0 : Float)
    let zeros := s.dense.countP (· = 0)
    let est := p.alpha * p.m * p.m / sum
    let linear := p.m * Float.log (p.m / (UInt64.ofNat zeros).toFloat)
    let est := if zeros > 0 ∧ linear ≤ 2.5 * p.m then linear else est
    (est + 0.5).toUInt64

/-! ## Registers -/

/-- The greatest rank of the hashes that a register is selected by, or zero where there are
none. -/
structure IsTopRank (hashes : List UInt64) (i : Nat) (r : UInt8) : Prop where
  above : ∀ h ∈ hashes, p.register h = i → p.rank h ≤ r
  reached : r = 0 ∨ ∃ h ∈ hashes, p.register h = i ∧ p.rank h = r

/-- Registers that hold the greatest ranks of hashes. -/
structure Registers (dense : List UInt8) (hashes : List UInt64) : Prop where
  length : dense.length = p.registers
  top : ∀ i r, dense[i]? = some r → p.IsTopRank hashes i r

variable {p}

variable {hashes' : List UInt64} {i : Nat} {r : UInt8} {dense : List UInt8} {h : UInt64}
  {dense' : List UInt8} {s : DistinctSketch}

theorem IsTopRank.unique {hashes : List UInt64} (same : ∀ h, h ∈ hashes ↔ h ∈ hashes') {r' : UInt8} (top : p.IsTopRank hashes i r) (top' : p.IsTopRank hashes' i r') :
    r = r' := by
  have le {hashes hashes' : List UInt64} (same : ∀ h, h ∈ hashes ↔ h ∈ hashes') {r r' : UInt8}
      (top : p.IsTopRank hashes i r) (top' : p.IsTopRank hashes' i r') : r ≤ r' := by
    rcases top.reached with zero | ⟨h, listed, here, rank⟩
    · rw [zero]
      exact UInt8.zero_le
    · exact rank ▸ top'.above h ((same h).mp listed) here
  exact UInt8.le_antisymm (le same top top') (le (fun h => (same h).symm) top' top)

theorem Registers.congr {hashes : List UInt64} (same : ∀ h, h ∈ hashes ↔ h ∈ hashes') (registers : p.Registers dense hashes) : p.Registers dense hashes' where
  length := registers.length
  top := by
    intro i r found
    have top := registers.top i r found
    constructor
    · exact fun h listed here => top.above h ((same h).mpr listed) here
    · exact top.reached.imp_right fun ⟨h, listed, rest⟩ => ⟨h, (same h).mp listed, rest⟩

theorem registers_pos (p : Precision) : 0 < p.registers := Nat.two_pow_pos _

theorem Registers.ne_nil {hashes : List UInt64}
    (registers : p.Registers dense hashes) : dense ≠ [] := by
  intro none
  have length := registers.length
  rw [none] at length
  exact absurd p.registers_pos (length ▸ Nat.lt_irrefl 0)

theorem registers_replicate (p : Precision) :
    p.Registers (List.replicate p.registers 0) [] where
  length := length_replicate
  top := by
    intro i r found
    have zero : r = 0 := eq_of_mem_replicate (mem_of_getElem? found)
    exact ⟨fun _ listed => absurd listed not_mem_nil, .inl zero⟩

/-- The greater of a rank and another is the greatest of both. -/
theorem IsTopRank.insert {hashes : List UInt64}
    (top : p.IsTopRank hashes i r) (here : p.register h = i) :
    p.IsTopRank (hashes ++ [h]) i (if p.rank h > r then p.rank h else r) := by
  constructor
  · intro h' listed selected
    rcases mem_append.mp listed with old | new
    · have below := top.above h' old selected
      split
      · rename_i raised
        exact UInt8.le_of_lt (UInt8.lt_of_le_of_lt below raised)
      · exact below
    · rw [mem_singleton.mp new]
      split
      · exact UInt8.le_refl _
      · rename_i notRaised
        exact UInt8.not_lt.mp notRaised
  · split
    · exact .inr ⟨h, mem_append_right _ (mem_singleton_self h), here, rfl⟩
    · exact top.reached.imp_right fun ⟨h', listed, rest⟩ => ⟨h', mem_append_left _ listed, rest⟩

/-- A hash of another register does not matter. -/
theorem IsTopRank.skip {hashes : List UInt64}
    (top : p.IsTopRank hashes i r) (other : p.register h ≠ i) :
    p.IsTopRank (hashes ++ [h]) i r := by
  constructor
  · intro h' listed selected
    rcases mem_append.mp listed with old | new
    · exact top.above h' old selected
    · exact absurd (mem_singleton.mp new ▸ selected) other
  · exact top.reached.imp_right fun ⟨h', listed, rest⟩ => ⟨h', mem_append_left _ listed, rest⟩

theorem Registers.applyDense {hashes : List UInt64}
    (registers : p.Registers dense hashes) (h : UInt64) :
    p.Registers (p.applyDense dense h) (hashes ++ [h]) where
  length := by rw [Precision.applyDense, length_modify, registers.length]
  top := by
    intro i r found
    rw [Precision.applyDense, getElem?_modify] at found
    obtain ⟨r₀, old, rfl⟩ := Option.map_eq_some_iff.mp found
    by_cases here : p.register h = i
    · rw [if_pos here]
      exact (registers.top i r₀ old).insert here
    · rw [if_neg here]
      exact (registers.top i r₀ old).skip here

theorem Registers.foldl {hashes : List UInt64}
    (registers : p.Registers dense hashes) (added : List UInt64) :
    p.Registers (added.foldl p.applyDense dense) (hashes ++ added) := by
  induction added generalizing dense hashes with
  | nil => rwa [append_nil]
  | cons h added ih =>
    rw [← singleton_append, ← append_assoc]
    exact ih (registers.applyDense h)

/-- The greater registers are those of both. -/
theorem Registers.zipWith {hashes : List UInt64}
    (registers : p.Registers dense hashes) (registers' : p.Registers dense' hashes') :
    p.Registers (dense.zipWith (fun a b => if a < b then b else a) dense') (hashes ++ hashes') where
  length := by rw [length_zipWith, registers.length, registers'.length, Nat.min_self]
  top := by
    intro i r found
    obtain ⟨a, b, left, right, rfl⟩ := getElem?_zipWith_eq_some.mp found
    have topA := registers.top i a left
    have topB := registers'.top i b right
    have fromA {r : UInt8} (reached : r = 0 ∨ ∃ h ∈ hashes, p.register h = i ∧ p.rank h = r) :
        r = 0 ∨ ∃ h ∈ hashes ++ hashes', p.register h = i ∧ p.rank h = r :=
      reached.imp_right fun ⟨h, listed, rest⟩ => ⟨h, mem_append_left _ listed, rest⟩
    have fromB {r : UInt8} (reached : r = 0 ∨ ∃ h ∈ hashes', p.register h = i ∧ p.rank h = r) :
        r = 0 ∨ ∃ h ∈ hashes ++ hashes', p.register h = i ∧ p.rank h = r :=
      reached.imp_right fun ⟨h, listed, rest⟩ => ⟨h, mem_append_right _ listed, rest⟩
    split
    · rename_i less
      constructor
      · intro h listed here
        rcases mem_append.mp listed with inA | inB
        · exact UInt8.le_of_lt (UInt8.lt_of_le_of_lt (topA.above h inA here) less)
        · exact topB.above h inB here
      · exact fromB topB.reached
    · rename_i notLess
      constructor
      · intro h listed here
        rcases mem_append.mp listed with inA | inB
        · exact topA.above h inA here
        · exact UInt8.le_trans (topB.above h inB here) (UInt8.not_lt.mp notLess)
      · exact fromA topA.reached

/-! ## Sketches -/

/-- A sketch holds a set of hashes: the hashes themselves while they are few, and registers once
they are not. -/
inductive Holds (p : Precision) (hashes : List UInt64) : DistinctSketch → Prop
  | sparse (sparse : List UInt64) (same : ∀ h, h ∈ sparse ↔ h ∈ hashes)
      (few : sparse = [] ∨ sparse.length < p.sparseLimit) : Holds p hashes { sparse }
  | dense (dense : List UInt8) (registers : p.Registers dense hashes) (some : hashes ≠ [])
      (many : p.sparseLimit ≤ hashes.toFinset.card) : Holds p hashes { dense }

theorem Holds.congr {hashes : List UInt64} (same : ∀ h, h ∈ hashes ↔ h ∈ hashes') (holds : Holds p hashes s) : Holds p hashes' s := by
  cases holds with
  | sparse sparse same' few => exact .sparse sparse (fun h => (same' h).trans (same h)) few
  | dense dense registers some many =>
    have equal : hashes.toFinset = hashes'.toFinset := by
      ext h
      rw [mem_toFinset, mem_toFinset, same]
    apply Holds.dense dense (registers.congr same)
    · obtain ⟨h, rest, rfl⟩ := exists_cons_of_ne_nil some
      exact ne_nil_of_mem ((same h).mp mem_cons_self)
    · rwa [← equal]

theorem mem_unique (h : UInt64) (hashes : List UInt64) :
    h ∈ DistinctSketch.unique hashes ↔ h ∈ hashes := by
  rw [DistinctSketch.unique, mem_dedup, mem_mergeSort]

/-- As many hashes are left as are distinct. -/
theorem length_unique (hashes : List UInt64) :
    (DistinctSketch.unique hashes).length = hashes.toFinset.card := by
  exact ((mergeSort_perm hashes _).dedup).length_eq

/-- The registers that hashes go over to. -/
def denseOf (p : Precision) (hashes : List UInt64) : List UInt8 :=
  hashes.foldl p.applyDense (List.replicate p.registers 0)

theorem registers_denseOf (hashes : List UInt64) : p.Registers (p.denseOf hashes) hashes := by
  have registers := p.registers_replicate.foldl hashes
  rwa [nil_append] at registers

theorem Holds.addHash {hashes : List UInt64} (holds : Holds p hashes s)
    (h : UInt64) : Holds p (hashes ++ [h]) (p.addHash s h) := by
  cases holds with
  | sparse sparse same few =>
    have same' : ∀ h', h' ∈ sparse ++ [h] ↔ h' ∈ hashes ++ [h] := by
      intro h'
      rw [mem_append, mem_append, same]
    rw [Precision.addHash, if_pos rfl]
    dsimp only
    split
    · rw [compactSparse]
      split
      · rename_i many
        rw [length_unique] at many
        have holds : Holds p (DistinctSketch.unique (sparse ++ [h]))
            { dense := p.denseOf (DistinctSketch.unique (sparse ++ [h])) } := by
          apply Holds.dense _ (registers_denseOf _)
          · apply ne_nil_of_mem ((mem_unique h _).mpr _)
            exact mem_append_right _ (mem_singleton_self h)
          · have equal : (DistinctSketch.unique (sparse ++ [h])).toFinset
                = (sparse ++ [h]).toFinset := by
              ext h'
              rw [mem_toFinset, mem_toFinset, mem_unique]
            rwa [equal]
        exact holds.congr fun h' => (mem_unique h' _).trans (same' h')
      · rename_i few
        apply Holds.sparse _ fun h' => (mem_unique h' _).trans (same' h')
        exact .inr (Nat.lt_of_not_le few)
    · rename_i few
      exact .sparse _ same' (.inr (Nat.lt_of_not_le few))
  | dense dense registers some many =>
    rw [Precision.addHash, if_neg registers.ne_nil]
    apply Holds.dense _ (registers.applyDense h) (append_ne_nil_of_left_ne_nil some _)
    apply Nat.le_trans many
    apply Finset.card_le_card
    intro h' listed
    rw [mem_toFinset] at listed ⊢
    exact mem_append_left _ listed

theorem Holds.foldl {hashes : List UInt64} (holds : Holds p hashes s)
    (added : List UInt64) : Holds p (hashes ++ added) (added.foldl p.addHash s) := by
  induction added generalizing s hashes with
  | nil => rwa [append_nil]
  | cons h added ih =>
    rw [← singleton_append, ← append_assoc]
    exact ih (holds.addHash h)

theorem Holds.mergeFrom {hashes : List UInt64} {o : DistinctSketch}
    (holds : Holds p hashes s) (holds' : Holds p hashes' o) :
    Holds p (hashes ++ hashes') (p.mergeFrom s o) := by
  cases holds' with
  | sparse sparse same few =>
    have same' : ∀ h, h ∈ hashes ++ sparse ↔ h ∈ hashes ++ hashes' := by
      intro h
      rw [mem_append, mem_append, same]
    rw [Precision.mergeFrom]
    split
    · rename_i nothing
      have none : sparse = [] := nothing.2
      rw [none, append_nil] at same'
      exact holds.congr same'
    · exact (holds.foldl sparse).congr same'
  | dense dense registers some many =>
    have goesOver : p.Registers (p.toDense s).dense hashes ∧ (p.toDense s).sparse = [] := by
      cases holds with
      | sparse sparse same few => exact ⟨(registers_denseOf sparse).congr same, rfl⟩
      | dense dense registers some many =>
        rw [toDense, if_pos registers.ne_nil]
        exact ⟨registers, rfl⟩
    have both := goesOver.1.zipWith registers
    rw [Precision.mergeFrom, if_neg fun nothing => registers.ne_nil nothing.1,
      if_pos registers.ne_nil]
    dsimp only
    rw [goesOver.2]
    apply Holds.dense _ both (append_ne_nil_of_right_ne_nil _ some)
    apply Nat.le_trans many
    apply Finset.card_le_card
    intro h listed
    rw [mem_toFinset] at listed ⊢
    exact mem_append_right _ listed

/-! ## Trees of sketches -/

/-- How a sketch came to be. -/
inductive Tree where
  | empty
  | add (t : Tree) (h : UInt64)
  | merge (t other : Tree)

/-- The sketch of a tree. -/
def Tree.build (p : Precision) : Tree → DistinctSketch
  | .empty => {}
  | .add t h => p.addHash (t.build p) h
  | .merge t other => p.mergeFrom (t.build p) (other.build p)

/-- The hashes that were added anywhere in a tree. -/
def Tree.hashes : Tree → List UInt64
  | .empty => []
  | .add t h => t.hashes ++ [h]
  | .merge t other => t.hashes ++ other.hashes

theorem Tree.holds (p : Precision) (t : Tree) : Holds p t.hashes (t.build p) := by
  induction t with
  | empty => exact .sparse [] (fun _ => Iff.rfl) (.inl rfl)
  | add t h ih => exact ih.addHash h
  | merge t other ih ih' => exact ih.mergeFrom ih'

/-- The registers of two sets that are the same. -/
theorem Registers.unique {hashes : List UInt64}
    (same : ∀ h, h ∈ hashes ↔ h ∈ hashes') (registers : p.Registers dense hashes)
    (registers' : p.Registers dense' hashes') : dense = dense' := by
  have length : dense.length = dense'.length := registers.length.trans registers'.length.symm
  apply ext_getElem length
  intro i h h'
  exact (registers.top i _ (getElem?_eq_getElem h)).unique same
    (registers'.top i _ (getElem?_eq_getElem h'))

/-- A sketch counts a set of hashes: it has registers if and only if the set is not empty and has
as many hashes as are not held any more, it counts exactly before that, and its registers are the
greatest ranks afterwards. -/
structure CountsSet (p : Precision) (hashes : List UInt64) (s : DistinctSketch) : Prop where
  dense : s.dense ≠ [] ↔ hashes ≠ [] ∧ p.sparseLimit ≤ hashes.toFinset.card
  exact_ : s.dense = [] → (p.estimate s).toNat = hashes.toFinset.card
  registers : s.dense ≠ [] → p.Registers s.dense hashes

theorem Holds.countsSet {hashes : List UInt64} (holds : Holds p hashes s) :
    CountsSet p hashes s := by
  cases holds with
  | sparse sparse same few =>
    have equal : sparse.toFinset = hashes.toFinset := by
      ext h
      rw [mem_toFinset, mem_toFinset, same]
    have card : hashes.toFinset.card ≤ sparse.length := equal ▸ toFinset_card_le sparse
    constructor
    · constructor
      · exact fun registers => absurd rfl registers
      · rintro ⟨added, many⟩
        exfalso
        rcases few with none | few
        · obtain ⟨h, rest, rfl⟩ := exists_cons_of_ne_nil added
          exact not_mem_nil (none ▸ (same h).mpr mem_cons_self)
        · omega
    · intro _
      have small : hashes.toFinset.card < 2 ^ 64 := by
        rcases few with none | few
        · rw [none] at card
          exact Nat.lt_of_le_of_lt card (by decide)
        · have limit : p.sparseLimit ≤ p.registers := Nat.div_le_self _ _
          have fits : p.registers < 2 ^ 32 := Nat.pow_lt_pow_right (by decide) p.small
          omega
      rw [estimate, if_pos rfl, length_unique, equal, UInt64.toNat_ofNat', Nat.mod_eq_of_lt small]
    · exact fun registers => absurd rfl registers
  | dense dense registers added many =>
    constructor
    · exact ⟨fun _ => ⟨added, many⟩, fun _ => registers.ne_nil⟩
    · exact fun none => absurd none registers.ne_nil
    · exact fun _ => registers

/-- The estimate depends on the set of hashes alone. -/
theorem CountsSet.estimate_eq {hashes : List UInt64} {s' : DistinctSketch}
    (same : ∀ h, h ∈ hashes ↔ h ∈ hashes') (counts : CountsSet p hashes s)
    (counts' : CountsSet p hashes' s') : p.estimate s = p.estimate s' := by
  have equal : hashes.toFinset = hashes'.toFinset := by
    ext h
    rw [mem_toFinset, mem_toFinset, same]
  have empty : hashes ≠ [] ↔ hashes' ≠ [] := by
    have card : hashes.toFinset = ∅ ↔ hashes'.toFinset = ∅ := by rw [equal]
    rw [toFinset_eq_empty_iff, toFinset_eq_empty_iff] at card
    exact not_congr card
  have both : s.dense ≠ [] ↔ s'.dense ≠ [] := by
    rw [counts.dense, counts'.dense, empty, equal]
  by_cases some : s.dense = []
  · have some' : s'.dense = [] := by
      by_contra some'
      exact both.mpr some' some
    apply UInt64.toNat_inj.mp
    rw [counts.exact_ some, counts'.exact_ some', equal]
  · have registers := (counts.registers some).unique same (counts'.registers (both.mp some))
    rw [estimate, estimate, if_neg some, if_neg (both.mp some), registers]

/-- Whatever the tree, its sketch counts the set of the hashes that were added, and the estimates
of trees over one set are the same. -/
theorem tree_countsSet (p : Precision) :
    (∀ t : Tree, CountsSet p t.hashes (t.build p)) ∧
      ∀ t t' : Tree, (∀ h, h ∈ t.hashes ↔ h ∈ t'.hashes) →
        p.estimate (t.build p) = p.estimate (t'.build p) :=
  ⟨fun t => (t.holds p).countsSet,
    fun t t' same => (t.holds p).countsSet.estimate_eq same (t'.holds p).countsSet⟩

/-- A hash that is added twice counts once. -/
theorem tree_countsSet_repeated :
    default.estimate ((Tree.merge (.add .empty 7) (.add .empty 7)).build default)
      = default.estimate ((Tree.add .empty 7).build default) := by
  apply (tree_countsSet default).2
  intro h
  simp [Tree.hashes]

/-- With two registers no hash is held, and an empty sketch still has no registers. -/
theorem twoRegisters_empty : ¬ ∀ (p : Precision) (t : Tree),
    (t.build p).dense ≠ [] ↔ p.sparseLimit ≤ t.hashes.toFinset.card := by
  intro dense
  have some := (dense ⟨1, by decide, by decide⟩ .empty).mpr (Nat.zero_le _)
  exact some rfl

end Precision

end DFTracer.Aggregation
