/-
# No false negatives

In every run in which only storable chains are stored, no merge and no reading fails, and each
chain finds every value that went into it or into a chain merged into it. A level of more
bits looks for its values in other blocks once it is read again.
-/

import DFTracer.Indexing.BloomChain

namespace DFTracer.Indexing

open Flame (Bytes put littleEndian)

universe u

section Levels

variable {V : Type u} {F : Formulas V} {value : V} {levels' : List (StoredLevel V)}

/-- The levels are sound. -/
def LevelsSound (F : Formulas V) (levels : List (StoredLevel V)) : Prop :=
  ∀ level ∈ levels, level.filter.Sound F

/-- Some level holds the value. -/
def Found (F : Formulas V) (levels : List (StoredLevel V)) (value : V) : Prop :=
  ∃ level ∈ levels, level.filter.possiblyContains F value = true

theorem Chain.possiblyContains_iff {chain : Chain V} :
    chain.possiblyContains F value = true ↔ Found F chain.levels value :=
  List.any_eq_true

variable {levels : List (StoredLevel V)}

theorem Found.cons_iff {level : StoredLevel V} :
    Found F (level :: levels) value ↔
      level.filter.possiblyContains F value = true ∨ Found F levels value := by
  simp only [Found, List.mem_cons, exists_eq_or_imp]

theorem Found.append_iff :
    Found F (levels ++ levels') value ↔ Found F levels value ∨ Found F levels' value := by
  simp only [Found, List.mem_append, or_and_right, exists_or]

theorem LevelsSound.append (h : LevelsSound F levels)
    (h' : LevelsSound F levels') : LevelsSound F (levels ++ levels') := by
  intro level hlevel
  rcases List.mem_append.mp hlevel with hlevel | hlevel
  · exact h level hlevel
  · exact h' level hlevel

theorem LevelsSound.cons {level : StoredLevel V}
    (h : level.filter.Sound F) (h' : LevelsSound F levels) : LevelsSound F (level :: levels) := by
  intro l hl
  rcases List.mem_cons.mp hl with rfl | hl
  · exact h
  · exact h' l hl

theorem mergeLevel_sound {src : StoredLevel V}
    (sound : LevelsSound F levels) (sound' : src.filter.Sound F) :
    ∃ merged, Chain.mergeLevel levels src = some merged ∧ merged ≠ [] ∧ LevelsSound F merged ∧
      ∀ value, Found F levels value ∨ src.filter.possiblyContains F value = true →
        Found F merged value := by
  induction levels with
  | nil =>
    refine ⟨[src], rfl, List.cons_ne_nil _ _, ?_, ?_⟩
    · exact LevelsSound.cons sound' sound
    · rintro value (⟨level, hlevel, _⟩ | held)
      · cases hlevel
      · exact ⟨src, List.mem_cons_self, held⟩
  | cons dst rest ih =>
    have first := sound dst List.mem_cons_self
    have others : LevelsSound F rest := fun level h => sound level (List.mem_cons_of_mem dst h)
    unfold Chain.mergeLevel
    by_cases same : Chain.SameGeometry dst src
    · obtain ⟨filter, hfilter, hsound, hholds⟩ :=
        StoredFilter.mergeFrom_sound first sound' same.2.1 same.2.2
      rw [if_pos same, hfilter]
      refine ⟨_, rfl, List.cons_ne_nil _ _, LevelsSound.cons hsound others, ?_⟩
      intro value held
      rw [Found.cons_iff] at held ⊢
      rcases held with (held | held) | held
      · exact .inl (hholds value (.inl held))
      · exact .inr held
      · exact .inl (hholds value (.inr held))
    · obtain ⟨merged, hmerged, _, hsound, hholds⟩ := ih others
      rw [if_neg same, hmerged]
      refine ⟨_, rfl, List.cons_ne_nil _ _, LevelsSound.cons first hsound, ?_⟩
      intro value held
      rw [Found.cons_iff] at held ⊢
      rcases held with (held | held) | held
      · exact .inl held
      · exact .inr (hholds value (.inl held))
      · exact .inr (hholds value (.inr held))

theorem mergeLevels_sound {others : List (StoredLevel V)} (sound : LevelsSound F levels)
    (sound' : LevelsSound F others) (nonempty : levels ≠ []) :
    ∃ merged, Chain.mergeLevels levels others = some merged ∧ merged ≠ [] ∧
      LevelsSound F merged ∧
        ∀ value, Found F levels value ∨ Found F others value → Found F merged value := by
  induction others generalizing levels with
  | nil =>
    refine ⟨levels, rfl, nonempty, sound, ?_⟩
    rintro value (held | ⟨level, hlevel, _⟩)
    · exact held
    · cases hlevel
  | cons src rest ih =>
    obtain ⟨merged, hmerged, nonempty', hsound, hholds⟩ :=
      mergeLevel_sound sound (sound' src List.mem_cons_self)
    obtain ⟨all, hall, nonempty'', hsound', hholds'⟩ :=
      ih hsound (fun level h => sound' level (List.mem_cons_of_mem src h)) nonempty'
    refine ⟨all, ?_, nonempty'', hsound', ?_⟩
    · rw [Chain.mergeLevels, hmerged]
      exact hall
    · intro value held
      apply hholds'
      rw [Found.cons_iff] at held
      rcases held with held | held | held
      · exact .inl (hholds value (.inl held))
      · exact .inl (hholds value (.inr held))
      · exact .inr held

end Levels

namespace Chain

variable {V : Type u} {F : Formulas V} {S : LevelSort V} {chain other : Chain V}

/-- A chain of sound levels, at least one. -/
structure Sound (F : Formulas V) (chain : Chain V) : Prop where
  nonempty : chain.levels ≠ []
  levels : LevelsSound F chain.levels

theorem Sound.openLevel (levels : LevelsSound F chain.levels) (capacity : Nat) :
    Sound F (chain.openLevel F capacity) where
  nonempty := List.append_ne_nil_of_right_ne_nil _ (List.cons_ne_nil _ _)
  levels := levels.append (LevelsSound.cons (StoredFilter.Sound.new F _ _)
    fun _ h => (List.not_mem_nil h).elim)

theorem found_openLevel {value : V} (capacity : Nat) (held : Found F chain.levels value) :
    Found F (chain.openLevel F capacity).levels value :=
  Found.append_iff.mpr (.inl held)

theorem Sound.new (F : Formulas V) (capacity : Nat) (rate : Float) : Sound F (new F capacity rate) :=
  .openLevel (fun _ h => (List.not_mem_nil h).elim) _

/-- Adding a value keeps what is held and holds the value. -/
theorem add_sound [DecidableEq V] (sound : Sound F chain) (value : V) :
    Sound F (chain.add F value) ∧ ∀ v, v = value ∨ Found F chain.levels v →
      Found F (chain.add F value).levels v := by
  unfold add
  by_cases present : chain.possiblyContains F value = true
  · rw [if_pos present]
    refine ⟨sound, ?_⟩
    rintro v (rfl | held)
    · exact possiblyContains_iff.mp present
    · exact held
  · rw [if_neg present, List.getLast?_eq_some_getLast sound.nonempty]
    have split := List.dropLast_append_getLast sound.nonempty
    generalize chain.levels.getLast sound.nonempty = active at split
    have all := sound.levels
    rw [← split] at all
    have last := all active (List.mem_append_right _ List.mem_cons_self)
    have added : LevelsSound F (chain.levels.dropLast ++
        [⟨active.filter.add F value, active.capacity, active.distinct + 1⟩]) :=
      LevelsSound.append (fun level h => all level (List.mem_append_left _ h))
        (LevelsSound.cons (last.add value) fun _ h => (List.not_mem_nil h).elim)
    have holds : ∀ v, v = value ∨ Found F chain.levels v → Found F (chain.levels.dropLast ++
        [⟨active.filter.add F value, active.capacity, active.distinct + 1⟩]) v := by
      intro v held
      rw [← split, Found.append_iff, Found.cons_iff] at held
      rw [Found.append_iff, Found.cons_iff]
      rcases held with rfl | held | held | held
      · exact .inr (.inl (StoredFilter.possiblyContains_add last v))
      · exact .inl held
      · exact .inr (.inl (StoredFilter.possiblyContains_add_of value held))
      · exact .inr (.inr held)
    dsimp only
    split
    · exact ⟨.openLevel added _, fun v held => found_openLevel _ (holds v held)⟩
    · exact ⟨⟨List.append_ne_nil_of_right_ne_nil _ (List.cons_ne_nil _ _), added⟩, holds⟩

/-- Sound chains merge. -/
theorem mergeFrom_sound (sound : Sound F chain) (sound' : Sound F other) :
    ∃ merged, chain.mergeFrom F S other = some merged ∧ Sound F merged ∧
      ∀ value, Found F chain.levels value ∨ Found F other.levels value →
        Found F merged.levels value := by
  obtain ⟨levels, hlevels, nonempty, hsound, hholds⟩ :=
    mergeLevels_sound sound.levels sound'.levels sound.nonempty
  have perm := S.perm levels
  have sorted : LevelsSound F (S.sort levels) := fun level h => hsound level (perm.mem_iff.mp h)
  have nonempty' : S.sort levels ≠ [] := fun h => nonempty (List.nil_perm.mp (h ▸ perm))
  have holds : ∀ value, Found F chain.levels value ∨ Found F other.levels value →
      Found F (S.sort levels) value := by
    intro value held
    obtain ⟨level, hlevel, found⟩ := hholds value held
    exact ⟨level, perm.mem_iff.mpr hlevel, found⟩
  unfold mergeFrom
  rw [hlevels]
  refine ⟨_, rfl, ?_⟩
  dsimp only
  rw [List.getLast?_eq_some_getLast nonempty']
  dsimp only
  split
  · exact ⟨.openLevel sorted _, fun value held => found_openLevel _ (holds value held)⟩
  · exact ⟨⟨nonempty', sorted⟩, holds⟩

/-- The levels as they are read again. -/
def reloadedLevels (levels : List (StoredLevel V)) : List (StoredLevel V) :=
  levels.map fun level => levelOf level.filter.reloaded

theorem length_levelBytes (level : StoredLevel V) :
    4 ≤ (levelBytes level).length := by
  rw [levelBytes, List.length_append]
  exact Nat.le_add_right 4 _

theorem readLevels_serialize (levels : List (StoredLevel V))
    (short : ∀ level ∈ levels, level.filter.serialize.length < 2 ^ 32) :
    readLevels levels.length (levels.flatMap levelBytes) = some (reloadedLevels levels) := by
  induction levels with
  | nil => rfl
  | cons level levels ih =>
    have fits := short level List.mem_cons_self
    have rest := ih fun l h => short l (List.mem_cons_of_mem level h)
    have size : StoredFilter.readU32 ((level :: levels).flatMap levelBytes) =
        level.filter.serialize.length := by
      rw [List.flatMap_cons, levelBytes, Nat.mod_eq_of_lt fits]
      exact StoredFilter.readU32_put fits _
    have body : ((level :: levels).flatMap levelBytes).drop 4 =
        level.filter.serialize ++ levels.flatMap levelBytes := by
      exact List.drop_left' (Flame.put_length 4 _)
    have long : ¬ ((level :: levels).flatMap levelBytes).length < 4 := by
      have := length_levelBytes level
      rw [List.flatMap_cons, List.length_append]
      omega
    rw [List.length_cons, readLevels, if_neg long]
    rw [size, body, if_neg (by rw [List.length_append]; omega), List.take_left, List.drop_left,
      StoredFilter.fromBlob_serialize, rest]
    rfl

/-- What is read of the bytes of a chain. -/
theorem fromBlob_serialize (nonempty : chain.levels ≠ []) (few : chain.levels.length < 2 ^ 32)
    (short : ∀ level ∈ chain.levels, level.filter.serialize.length < 2 ^ 32) :
    fromBlob F chain.serialize = some (ofLevels (reloadedLevels chain.levels)) := by
  have count : StoredFilter.readU32 (chain.serialize.drop 4) = chain.levels.length := by
    rw [serialize, Nat.mod_eq_of_lt few]
    exact StoredFilter.readU32_put few _
  have body : chain.serialize.drop 8 = chain.levels.flatMap levelBytes := by
    apply List.drop_left'
    rfl
  have some' : (reloadedLevels chain.levels).isEmpty = false := by
    rw [List.isEmpty_eq_false_iff]
    exact fun h => nonempty (List.map_eq_nil_iff.mp h)
  rw [fromBlob, count, body, readLevels_serialize chain.levels short, Option.map_some, some']
  rfl

theorem length_serialize_lt {level : StoredLevel V} (sound : level.filter.Sound F)
    (fits : level.filter.numBits < 2 ^ 32) : level.filter.serialize.length < 2 ^ 32 := by
  have bits := sound.numBits
  have length := level.filter.length_serialize
  simp only [BLOCK_BITS, HEADER_SIZE] at bits length
  omega

/-- A storable chain is read again as it was. -/
theorem reload_sound (sound : Sound F chain) (storable : chain.Storable) :
    ∃ reloaded, fromBlob F chain.serialize = some reloaded ∧ Sound F reloaded ∧
      ∀ value, Found F chain.levels value → Found F reloaded.levels value := by
  refine ⟨_, fromBlob_serialize sound.nonempty storable.1 ?_, ⟨?_, ?_⟩, ?_⟩
  · exact fun level h => length_serialize_lt (sound.levels level h) (storable.2 level h)
  · exact fun h => sound.nonempty (List.map_eq_nil_iff.mp h)
  · intro level hlevel
    obtain ⟨l, hl, rfl⟩ := List.mem_map.mp hlevel
    exact StoredFilter.reloaded_sound (sound.levels l hl) (storable.2 l hl)
  · rintro value ⟨level, hlevel, held⟩
    refine ⟨_, List.mem_map_of_mem hlevel, ?_⟩
    rw [levelOf, StoredFilter.possiblyContains_reloaded (storable.2 level hlevel)]
    exact held

end Chain

/-! ## Families -/

section Family

variable {V : Type u} [DecidableEq V] {F : Formulas V} {S : LevelSort V} {family : List (Member V)}

/-- The chain is sound and finds what went into it. -/
structure Member.Sound (F : Formulas V) (m : Member V) : Prop where
  chain : m.chain.Sound F
  finds : ∀ value ∈ m.added, Found F m.chain.levels value

omit [DecidableEq V] in
theorem mem_append_single {m new : Member V}
    (sound : ∀ m ∈ family, m.Sound F) (hnew : new.Sound F) (hm : m ∈ family ++ [new]) :
    m.Sound F := by
  rcases List.mem_append.mp hm with hm | hm
  · exact sound m hm
  · rw [List.mem_singleton.mp hm]
    exact hnew

/-- A guarded operation succeeds and leaves a sound family. -/
theorem step_sound (sound : ∀ m ∈ family, m.Sound F) {op : Op V} (guarded : Guarded family op) :
    ∃ next, step F S family op = some next ∧ ∀ m ∈ next, m.Sound F := by
  cases op with
  | create capacity rate =>
    refine ⟨_, rfl, fun m hm => mem_append_single sound ?_ hm⟩
    exact ⟨.new F capacity rate, fun _ h => (List.not_mem_nil h).elim⟩
  | add i value =>
    refine ⟨_, rfl, ?_⟩
    intro m hm
    obtain ⟨k, hk⟩ := List.mem_iff_getElem?.mp hm
    rw [List.getElem?_modify] at hk
    obtain ⟨old, hold, rfl⟩ := Option.map_eq_some_iff.mp hk
    have was := sound old (List.mem_of_getElem? hold)
    split
    · obtain ⟨hsound, hholds⟩ := Chain.add_sound was.chain value
      refine ⟨hsound, ?_⟩
      intro v hv
      rcases List.mem_cons.mp hv with hv | hv
      · exact hholds v (.inl hv)
      · exact hholds v (.inr (was.finds v hv))
    · exact was
  | merge i j =>
    dsimp only [step]
    split
    · next m other hi hj =>
        have was := sound m (List.mem_of_getElem? hi)
        have was' := sound other (List.mem_of_getElem? hj)
        obtain ⟨merged, hmerged, hsound, hholds⟩ :=
          Chain.mergeFrom_sound (S := S) was.chain was'.chain
        rw [hmerged]
        refine ⟨_, rfl, ?_⟩
        intro m' hm'
        rcases List.mem_or_eq_of_mem_set hm' with hm' | rfl
        · exact sound m' hm'
        · refine ⟨hsound, ?_⟩
          intro v hv
          rcases List.mem_append.mp hv with hv | hv
          · exact hholds v (.inr (was'.finds v hv))
          · exact hholds v (.inl (was.finds v hv))
    · exact ⟨family, rfl, sound⟩
  | reload i =>
    dsimp only [step] at guarded ⊢
    cases hi : family[i]? with
    | none => exact ⟨family, rfl, sound⟩
    | some m =>
      have was := sound m (List.mem_of_getElem? hi)
      obtain ⟨reloaded, hreloaded, hsound, hholds⟩ :=
        Chain.reload_sound was.chain (guarded m hi)
      dsimp only
      rw [hreloaded]
      refine ⟨_, rfl, fun m' hm' => mem_append_single sound ?_ hm'⟩
      exact ⟨hsound, fun v hv => hholds v (was.finds v hv)⟩

theorem run_sound {ops : List (Op V)}
    (sound : ∀ m ∈ family, m.Sound F) (careful : Careful F S family ops) :
    ∃ final, run F S family ops = some final ∧ ∀ m ∈ final, m.Sound F := by
  induction ops generalizing family with
  | nil => exact ⟨family, rfl, sound⟩
  | cons op ops ih =>
    obtain ⟨guarded, rest⟩ := careful
    obtain ⟨next, hnext, hsound⟩ := step_sound (S := S) sound guarded
    obtain ⟨final, hfinal, hall⟩ := ih hsound (rest next hnext)
    refine ⟨final, ?_, hall⟩
    rw [run, hnext]
    exact hfinal

end Family

/-- A careful run finds every value that went into a chain or into one merged into it. -/
theorem no_false_negatives {V : Type u} [DecidableEq V] (F : Formulas V) (S : LevelSort V)
    (ops : List (Op V)) (careful : Careful F S [] ops) :
    ∃ family, run F S [] ops = some family ∧ NoFalseNegatives F family := by
  obtain ⟨family, hfamily, sound⟩ := run_sound (fun _ h => (List.not_mem_nil h).elim) careful
  refine ⟨family, hfamily, ?_⟩
  intro m hm value hvalue
  exact Chain.possiblyContains_iff.mpr ((sound m hm).finds value hvalue)

/-- Levels by capacity, those of one capacity in their order. -/
def byCapacity (V : Type u) : LevelSort V where
  sort levels := levels.mergeSort fun a b => decide (a.capacity ≤ b.capacity)
  perm levels := List.mergeSort_perm levels _
  sorted levels := by
    have h : (levels.mergeSort fun a b => decide (a.capacity ≤ b.capacity)).Pairwise fun a b =>
        decide (a.capacity ≤ b.capacity) = true := by
      apply List.pairwise_mergeSort
      · intro a b c hab hbc
        simp only [decide_eq_true_eq] at hab hbc ⊢
        exact Nat.le_trans hab hbc
      · intro a b
        simp only [Bool.or_eq_true, decide_eq_true_eq]
        exact Nat.le_total _ _
    simpa only [decide_eq_true_eq] using h

/-- Numbers by their hashes, and levels of 256 bits. -/
def smallFormulas : Formulas UInt64 where
  hashes v := (splitMix64 v, splitMix64 (v + 0x9e3779b97f4a7c15))
  size _ := 8
  estimate n _ := if n = 1 then 11 else 51
  optimalNumHashes m n := (m * 7 + 5 * n) / (10 * n)

/-- Two chains, one of them read again and merged into the other. -/
def smallOps : List (Op UInt64) :=
  [.create 1 0.01, .add 0 5, .add 0 7, .reload 0, .create 1 0.01, .add 2 9, .merge 2 1]

theorem smallOps_no_false_negatives :
    ∃ family, run smallFormulas (byCapacity UInt64) [] smallOps = some family ∧
      NoFalseNegatives smallFormulas family :=
  no_false_negatives smallFormulas (byCapacity UInt64) smallOps
    (by decide +kernel)

/-! ## A level of more bits than 32-bit numbers count -/

section Wide

/-- Numbers that are their own first hash. 400000000 entries at a rate of 0.01 take more than
`2 ^ 32` bits. -/
def wideFormulas : Formulas UInt64 where
  hashes v := (v, 0)
  size _ := 8
  estimate n _ := if n = 400000000 then 4409126853 else 11288
  optimalNumHashes _ _ := 8

theorem wide_optimalNumBits (p : Float) :
    wideFormulas.optimalNumBits 400000000 p = 4409126912 := by
  unfold Formulas.optimalNumBits wideFormulas
  dsimp only
  decide

variable {V : Type u} {f : StoredFilter UInt64} {F : Formulas V} {chain : Chain V}

theorem new_blocks (F : Formulas V) (n : Nat) (p : Float) :
    (StoredFilter.new F n p).blocks =
      List.replicate (F.optimalNumBits n p / BLOCK_BITS) (Vector.replicate 8 0) := rfl

theorem new_numBits (F : Formulas V) (n : Nat) (p : Float) :
    (StoredFilter.new F n p).numBits = F.optimalNumBits n p := rfl

/-- The blocks and the bits of that level. -/
theorem wide_geometry (p : Float) :
    (StoredFilter.new wideFormulas 400000000 p).blocks =
        List.replicate 17223152 (Vector.replicate 8 0) ∧
      (StoredFilter.new wideFormulas 400000000 p).numBits = 4409126912 := by
  rw [new_blocks, new_numBits, wide_optimalNumBits]
  exact ⟨congrArg (List.replicate · _) (by decide), rfl⟩

theorem new_levels (F : Formulas V) {capacity : Nat} (positive : 0 < capacity)
    (rate : Float) : (Chain.new F capacity rate).levels =
      [⟨.new F capacity (Chain.tightened rate 0), capacity, 0⟩] := by
  rw [Chain.new, if_pos positive]
  rfl

/-- A value whose block is empty is not found. -/
theorem not_possiblyContains {v : UInt64}
    (found : f.blocks[f.blockOf wideFormulas v]? = some (Vector.replicate 8 0)) :
    f.possiblyContains wideFormulas v = false := by
  unfold StoredFilter.possiblyContains
  rw [found]
  change Block.covers (Vector.replicate 8 0) (computeBlockMask 0) = false
  decide +kernel

/-- The value in the middle. -/
def middle : UInt64 := 9223372036854775808

/-- The middle one of all blocks, and of those that are counted after a reload. -/
theorem blockOf_wide :
    (f.numBits = 4409126912 → f.blockOf wideFormulas middle = 8611576) ∧
      (f.numBits = 4409126912 % 2 ^ 32 → f.blockOf wideFormulas middle = 222968) := by
  constructor
  · intro h
    rw [StoredFilter.blockOf, h]
    decide
  · intro h
    rw [StoredFilter.blockOf, h]
    decide

/-- Adding to a chain of one level that does not find the value and is not full yet. -/
theorem add_single [DecidableEq V]
    {active : StoredLevel V} {value : V} (single : chain.levels = [active])
    (absent : active.filter.possiblyContains F value = false)
    (room : active.distinct + 1 < active.capacity) :
    (chain.add F value).levels =
      [⟨active.filter.add F value, active.capacity, active.distinct + 1⟩] := by
  have notFound : ¬ chain.possiblyContains F value = true := by
    rw [Chain.possiblyContains_iff, single, Found.cons_iff, absent]
    rintro (h | ⟨level, h, _⟩)
    · cases h
    · cases h
  unfold Chain.add
  rw [if_neg notFound, single]
  dsimp only [List.getLast?_singleton]
  rw [if_neg (Nat.not_le.mpr room)]
  rfl

/-- A chain of one level whose bytes can be counted is read again. -/
theorem fromBlob_single {level : StoredLevel V}
    {n : Nat} (single : chain.levels = [level]) (length : level.filter.blocks.length = n)
    (fits : 12 + 32 * n < 2 ^ 32) :
    Chain.fromBlob F chain.serialize =
      some (Chain.ofLevels [Chain.levelOf level.filter.reloaded]) := by
  have nonempty : chain.levels ≠ [] := by
    rw [single]
    exact List.cons_ne_nil _ _
  have few : chain.levels.length < 2 ^ 32 := by
    rw [single, List.length_singleton]
    omega
  have short : ∀ l ∈ chain.levels, l.filter.serialize.length < 2 ^ 32 := by
    intro l hl
    rw [single, List.mem_singleton] at hl
    rw [hl, StoredFilter.length_serialize, length]
    exact fits
  rw [Chain.fromBlob_serialize nonempty few short, single]
  rfl

/-- A value that was added is not found any more after a reload. -/
theorem wide_false_negative :
    ∃ family, run wideFormulas (byCapacity UInt64) []
        [.create 400000000 0.01, .add 0 middle, .reload 0] = some family ∧
      ¬ NoFalseNegatives wideFormulas family := by
  obtain ⟨blocks, numBits⟩ := wide_geometry (Chain.tightened 0.01 0)
  have single : (Chain.new wideFormulas 400000000 0.01).levels =
      [⟨.new wideFormulas 400000000 (Chain.tightened 0.01 0), 400000000, 0⟩] :=
    new_levels wideFormulas (by decide) 0.01
  generalize StoredFilter.new wideFormulas 400000000 (Chain.tightened 0.01 0) = f at *
  have absent : f.possiblyContains wideFormulas middle = false := by
    apply not_possiblyContains
    rw [blockOf_wide.1 numBits, blocks, List.getElem?_replicate_of_lt (by decide)]
  have added := add_single single absent (show 0 + 1 < 400000000 by decide)
  generalize hchain : (Chain.new wideFormulas 400000000 0.01).add wideFormulas middle = chain
    at added
  have length : (f.add wideFormulas middle).blocks.length = 17223152 := by
    rw [StoredFilter.length_add, blocks, List.length_replicate]
  have read := fromBlob_single (F := wideFormulas) added length (by omega)
  have made : step wideFormulas (byCapacity UInt64) [] (.create 400000000 0.01) =
      some [⟨.new wideFormulas 400000000 0.01, []⟩] := rfl
  have fed : step wideFormulas (byCapacity UInt64) [⟨.new wideFormulas 400000000 0.01, []⟩]
      (.add 0 middle) = some [⟨chain, [middle]⟩] := by
    rw [← hchain]
    rfl
  have stored : step wideFormulas (byCapacity UInt64) [⟨chain, [middle]⟩] (.reload 0) =
      some [⟨chain, [middle]⟩,
        ⟨.ofLevels [Chain.levelOf (f.add wideFormulas middle).reloaded], [middle]⟩] := by
    dsimp only [step, List.getElem?_cons_zero]
    rw [read]
    rfl
  -- the bits that are read are those of 222968 blocks before the one that was written
  have kept : (f.add wideFormulas middle).blocks[222968]? = some (Vector.replicate 8 0) := by
    unfold StoredFilter.add
    split
    · rw [blocks, List.getElem?_replicate_of_lt (by decide)]
    · rw [List.getElem?_modify, blockOf_wide.1 numBits, blocks,
        List.getElem?_replicate_of_lt (by decide)]
      simp
  have lost : (f.add wideFormulas middle).reloaded.possiblyContains wideFormulas middle =
      false := by
    apply not_possiblyContains
    rw [blockOf_wide.2]
    · exact kept
    · rw [StoredFilter.reloaded, StoredFilter.numBits_add, numBits]
  have ran : run wideFormulas (byCapacity UInt64) []
      [.create 400000000 0.01, .add 0 middle, .reload 0] =
        some [⟨chain, [middle]⟩,
          ⟨.ofLevels [Chain.levelOf (f.add wideFormulas middle).reloaded], [middle]⟩] := by
    rw [run, made, Option.bind_some, run, fed, Option.bind_some, run, stored, Option.bind_some, run]
  refine ⟨_, ran, ?_⟩
  intro all
  have found := all _ (List.mem_cons_of_mem _ List.mem_cons_self) middle List.mem_cons_self
  rw [Chain.possiblyContains_iff] at found
  obtain ⟨level, hlevel, held⟩ := found
  rw [List.mem_singleton.mp hlevel, Chain.levelOf, lost] at held
  cases held

end Wide

end DFTracer.Indexing
