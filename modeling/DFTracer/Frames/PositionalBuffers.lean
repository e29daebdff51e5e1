/-
# Rows that are held

A tail keeps enough rows for the last of them, and a sample keeps the rows of least keys, as
the keys of rows differ. Both put morsels together, which fails for a type whose parts cannot
be put together.
-/

import DFTracer.Frames.PositionalCursors

namespace DFTracer.Frames

open Math Math.Puller List

section Concat

variable {types : List DataType} {ms : List (Morsel Cells)}

theorem concatMorsels_same (same : ∀ m ∈ ms, m.types = types) (some : ms ≠ [])
    (supported : ∀ d ∈ types, concatSupported d.id = true) :
    concatMorsels ms = .ok types := by
  unfold concatMorsels
  rw [concatTypes_same _ (by simpa using some) supported]
  · rfl
  · intro t ht
    obtain ⟨m, hm, rfl⟩ := mem_map.mp ht
    exact same m hm

theorem concatMorsels_unsupported (same : ∀ m ∈ ms, m.types = types) (some : ms ≠ [])
    {d : DataType} (hd : d ∈ types) (unsupported : concatSupported d.id = false) :
    ∃ e, concatMorsels ms = .error e := by
  obtain ⟨m, ms, rfl⟩ := exists_cons_of_ne_nil some
  obtain ⟨e, he⟩ := concatTypes_unsupported (ms.map (·.types))
    (same m mem_cons_self ▸ hd) unsupported
  unfold concatMorsels
  rw [map_cons, he]
  exact ⟨_, rfl⟩

end Concat

/-! ## The tail -/

/-- The rows of morsels. -/
def bufRows (buf : List (Morsel Cells)) : List Cells := buf.flatMap (·.rows)

/-- A buffer that holds at least as many of the last rows as are wanted. -/
structure KeepsTail (n : Int) (types : List DataType) (rows : List Cells) (s : TailState) :
    Prop where
  running : s.done = false
  total : s.total = (bufRows s.buf).length
  suffix : bufRows s.buf <:+ rows
  enough : min n rows.length ≤ s.total
  typed : ∀ m ∈ s.buf, m.types = types

section Tail

variable {n : Int} {types : List DataType} {rows : List Cells} {s : TailState} {v high : Int}
  {ρ : Type} {ms : List (Morsel Cells)}

theorem popFront_spec (positive : 0 < n) {buf : List (Morsel Cells)} {total : Int}
    (h : total = (bufRows buf).length) :
    (TailCursor.popFront n buf total).2 = (bufRows (TailCursor.popFront n buf total).1).length ∧
      bufRows (TailCursor.popFront n buf total).1 <:+ bufRows buf ∧
      min n total ≤ (TailCursor.popFront n buf total).2 ∧
      (TailCursor.popFront n buf total).1 ⊆ buf ∧
      (buf ≠ [] → (TailCursor.popFront n buf total).1 ≠ []) := by
  induction buf generalizing total with
  | nil => exact ⟨h, suffix_rfl, min_le_right n total, List.Subset.refl _, fun h => h⟩
  | cons m buf ih =>
    unfold TailCursor.popFront
    have split : bufRows (m :: buf) = m.rows ++ bufRows buf := flatMap_cons
    rw [split, length_append] at h
    split
    · rename_i more
      have rest : total - m.rows.length = (bufRows buf).length := by omega
      obtain ⟨length, suffix, enough, sub, some⟩ := ih rest
      refine ⟨length, ?_, by omega, List.Subset.trans sub (subset_cons_self m buf),
        fun _ => some ?_⟩
      · exact suffix.trans (suffix_append _ _)
      · rintro rfl
        rw [rest] at more
        exact absurd more (not_le.mpr positive)
    · refine ⟨?_, suffix_rfl, min_le_right n total, List.Subset.refl _, fun h => h⟩
      rw [split, length_append]
      exact h

theorem KeepsTail.accumulate (positive : 0 < n)
    (h : KeepsTail n types rows s) {m : Morsel Cells} (typed : m.types = types) :
    KeepsTail n types (rows ++ m.rows) (TailCursor.accumulate n s m) ∧
      (TailCursor.accumulate n s m).buf ≠ [] := by
  have together : bufRows (s.buf ++ [m]) = bufRows s.buf ++ m.rows := by
    unfold bufRows
    rw [flatMap_append, flatMap_singleton]
  have count : s.total + m.rows.length = (bufRows (s.buf ++ [m])).length := by
    rw [together, length_append, h.total]
    rfl
  obtain ⟨length, suffix, enough, sub, some⟩ := popFront_spec positive count
  refine ⟨⟨h.running, length, ?_, ?_, ?_⟩, some (append_ne_nil_of_right_ne_nil _
    (cons_ne_nil m []))⟩
  · refine suffix.trans ?_
    rw [together]
    obtain ⟨front, hfront⟩ := h.suffix
    exact ⟨front, by rw [← append_assoc, hfront]⟩
  · have before := h.enough
    rw [length_append]
    change _ ≤ (TailCursor.popFront n (s.buf ++ [m]) (s.total + m.rows.length)).2
    omega
  · intro m' hm'
    rcases mem_append.mp (sub hm') with held | new
    · exact h.typed m' held
    · rw [mem_singleton.mp new]
      exact typed

theorem clamp_of_le (h : 0 ≤ v) (h' : v ≤ high) : clamp v 0 high = v := by
  unfold clamp
  rw [min_eq_left h', max_eq_right h]

theorem clamp_of_ge (h : 0 ≤ high) (h' : high ≤ v) : clamp v 0 high = high := by
  unfold clamp
  rw [min_eq_right h', max_eq_right h]

theorem tailRows_eq (rows : List ρ) (positive : 0 < n) :
    tailRows rows n = rows.drop (rows.length - n).toNat := by
  unfold tailRows
  rcases le_total n rows.length with fewer | all
  · rw [clamp_of_le positive.le fewer]
    rw [sliceRows_eq _ (by omega) positive.le, take_of_length_le]
    rw [length_drop]
    omega
  · rw [clamp_of_ge (by omega) all]
    rw [sliceRows_eq _ (by omega) (by omega), take_of_length_le]
    · congr 1
      omega
    · rw [length_drop]
      omega

/-- The last rows of a suffix that has enough of them. -/
theorem tailRows_suffix {held rows : List ρ} (positive : 0 < n) (suffix : held <:+ rows)
    (enough : min n rows.length ≤ held.length) :
    (if n < held.length then sliceRows held (held.length - n) n else held) = tailRows rows n := by
  obtain ⟨front, rfl⟩ := suffix
  rw [length_append] at enough
  rw [tailRows_eq _ positive, length_append, Nat.cast_add]
  split
  · rw [sliceRows_eq _ (by omega) positive.le, take_of_length_le, drop_append,
      @drop_eq_nil_of_le _ front _ (by omega)]
    · congr 1
      omega
    · rw [length_drop]
      omega
  · rcases Nat.eq_zero_or_pos front.length with none | some
    · rw [eq_nil_of_length_eq_zero none, nil_append, length_nil,
        show ((0 : Nat) + (held.length : Int) - n).toNat = 0 by omega, drop_zero]
    · rw [drop_left' (by omega)]

/-- The state after all morsels. -/
theorem tail_outputs (positive : 0 < n) {ms : List (Morsel Cells)} {s : TailState}
    (running : s.done = false) :
    (tailCursor n).outputs s ms =
      (TailCursor.finish n (ms.foldl (TailCursor.accumulate n) s)).map Option.toList := by
  have going (s : TailState) (running : s.done = false) : ¬ (tailCursor n).stopped s = true := by
    change ¬ (s.done || decide (n ≤ 0)) = true
    rw [running, Bool.false_or, decide_eq_true_eq]
    omega
  induction ms generalizing s with
  | nil =>
    rw [outputs, if_neg (going s running), foldl_nil]
    change ((TailCursor.finish n s).map _).map _ = _
    cases TailCursor.finish n s <;> rfl
  | cons m ms ih =>
    rw [outputs_skip (going s running) rfl]
    exact ih running

theorem tail_foldl (positive : 0 < n) (h : KeepsTail n types rows s) (typed : ∀ m ∈ ms, m.types = types) :
    KeepsTail n types (rows ++ bufRows ms) (ms.foldl (TailCursor.accumulate n) s) ∧
      (ms ≠ [] → (ms.foldl (TailCursor.accumulate n) s).buf ≠ []) := by
  induction ms using List.reverseRecOn with
  | nil =>
    refine ⟨?_, fun h => absurd rfl h⟩
    unfold bufRows
    rw [flatMap_nil, append_nil]
    exact h
  | append_singleton ms m ih =>
    obtain ⟨kept, -⟩ := ih fun m' hm' => typed m' (mem_append_left _ hm')
    have next := kept.accumulate positive (typed m (mem_append_right _ mem_cons_self))
    rw [foldl_append]
    have rows_eq : rows ++ bufRows (ms ++ [m]) = rows ++ bufRows ms ++ m.rows := by
      unfold bufRows
      rw [flatMap_append, flatMap_singleton, append_assoc]
    rw [rows_eq]
    exact ⟨next.1, fun _ => next.2⟩

theorem tail_start (n : Int) (types : List DataType) : KeepsTail n types [] {} where
  running := rfl
  total := rfl
  suffix := suffix_rfl
  enough := min_le_right n 0
  typed _ hm := absurd hm not_mem_nil

/-- The last rows come out at the end. -/
theorem tail_gives (positive : 0 < n) (typed : ∀ m ∈ ms, m.types = types)
    (supported : ms ≠ [] → ∀ d ∈ types, concatSupported d.id = true) :
    Gives (tailCursor n) {} ms types (tailRows (bufRows ms) n) 1 := by
  obtain ⟨kept, some⟩ := tail_foldl positive (tail_start n types) typed
  rw [nil_append] at kept
  have outputs := @tail_outputs n positive ms {} rfl
  generalize ms.foldl (TailCursor.accumulate n) {} = s at kept some outputs
  by_cases none : ms = []
  · subst none
    have rows : tailRows (bufRows []) n = [] := eq_nil_of_suffix_nil (by
      rw [tailRows_eq _ positive]
      exact drop_suffix _ _)
    rw [rows]
    exact .nil ((tail_outputs positive rfl).trans rfl)
  · have concat := concatMorsels_same kept.typed (some none) (supported none)
    have last : TailCursor.finish n s = .ok (Option.some
        (if n < s.total then sliceMorsel ⟨types, bufRows s.buf⟩ (s.total - n) n
          else ⟨types, bufRows s.buf⟩)) := by
      unfold TailCursor.finish
      rw [if_neg (by rw [List.isEmpty_iff]; exact some none), concat]
      rfl
    rw [last] at outputs
    refine ⟨_, outputs, ?_, ?_, Nat.le_refl 1⟩
    · intro m hm _
      rw [mem_singleton.mp hm]
      split <;> rfl
    · rw [← tailRows_suffix positive kept.suffix (kept.total ▸ kept.enough), ← kept.total]
      change _ ++ [] = _
      rw [append_nil]
      split <;> rfl

/-- A tail of a type whose parts cannot be put together fails. -/
theorem tail_fails (positive : 0 < n) (typed : ∀ m ∈ ms, m.types = types)
    (some : ms ≠ []) {d : DataType} (hd : d ∈ types) (unsupported : concatSupported d.id = false) :
    ∃ e, (tailCursor n).outputs {} ms = .error e := by
  obtain ⟨kept, held⟩ := tail_foldl positive (tail_start n types) typed
  rw [tail_outputs positive rfl]
  obtain ⟨e, he⟩ := concatMorsels_unsupported kept.typed (held some) hd unsupported
  refine ⟨e, ?_⟩
  unfold TailCursor.finish
  rw [if_neg (by rw [List.isEmpty_iff]; exact held some), he]
  rfl

end Tail

theorem xor_shiftRight_injective {k : Nat} (hk : 0 < k) {a b : Nat}
    (h : a ^^^ (a >>> k) = b ^^^ (b >>> k)) : a = b := by
  have moved : a ^^^ b = (a ^^^ b) >>> k := by
    rw [Nat.shiftRight_xor_distrib]
    calc a ^^^ b = (a ^^^ (a >>> k)) ^^^ (a >>> k) ^^^ b := by
          rw [Nat.xor_assoc a, Nat.xor_self, Nat.xor_zero]
      _ = (b ^^^ (b >>> k)) ^^^ (a >>> k) ^^^ b := by rw [h]
      _ = (a >>> k) ^^^ (b >>> k) := by
          rw [Nat.xor_comm b, Nat.xor_assoc, Nat.xor_assoc, Nat.xor_comm b, Nat.xor_assoc,
            Nat.xor_self, Nat.xor_zero, Nat.xor_comm]
  have zero : a ^^^ b = 0 := by
    by_contra some
    have smaller := Nat.div_lt_self (Nat.pos_of_ne_zero some) (Nat.one_lt_two_pow hk.ne')
    omega
  exact Nat.xor_eq_zero_iff.mp zero

theorem uint64_xor_shiftRight {x y k : UInt64} (hk : 0 < k.toNat % 64)
    (h : x ^^^ (x >>> k) = y ^^^ (y >>> k)) : x = y := by
  apply UInt64.toNat_inj.mp
  apply xor_shiftRight_injective hk
  have := congrArg UInt64.toNat h
  rwa [UInt64.toNat_xor, UInt64.toNat_xor, UInt64.toNat_shiftRight, UInt64.toNat_shiftRight] at this

theorem uint64_mul_right {x y c inv : UInt64} (unit : c * inv = 1) (h : x * c = y * c) : x = y := by
  calc x = x * c * inv := by rw [mul_assoc, unit, mul_one]
    _ = y * c * inv := by rw [h]
    _ = y := by rw [mul_assoc, unit, mul_one]

/-- The mixing function loses nothing. -/
theorem splitmix64_injective {x y : UInt64} (h : splitmix64 x = splitmix64 y) : x = y := by
  have third := uint64_xor_shiftRight (by decide) h
  have second := @uint64_mul_right _ _ _ 0x319642b2d24d8ec3 (by decide) third
  have first := uint64_xor_shiftRight (by decide) second
  have mixed := @uint64_mul_right _ _ _ 0x96de1b173f119089 (by decide) first
  have added := uint64_xor_shiftRight (by decide) mixed
  exact add_right_cancel added

theorem sampleKey_injective {seed : UInt64} {i j : Nat} (hi : i < 2 ^ 64) (hj : j < 2 ^ 64)
    (h : sampleKey seed i = sampleKey seed j) : i = j := by
  have mixed := splitmix64_injective (UInt64.toNat_inj.mp h)
  have same := congrArg UInt64.toNat (add_right_cancel mixed)
  rwa [UInt64.toNat_ofNat', UInt64.toNat_ofNat', Nat.mod_eq_of_lt hi, Nat.mod_eq_of_lt hj] at same

/-! ## The sample -/

/-- So many of the least keys, and what is left out. -/
theorem leastKeys_spec {α : Type} (nth : NthElement Nat) (key : α → Nat) (k : Nat) (xs : List α) :
    ∃ left, (leastKeys nth key k xs ++ left).Perm xs ∧
      (leastKeys nth key k xs).length = min k xs.length ∧
      ∀ a ∈ leastKeys nth key k xs, ∀ b ∈ left, ¬ key b < key a := by
  unfold leastKeys
  split
  · refine ⟨(nth.run key k xs).drop k, ?_, ?_, nth.split key k xs⟩
    · rw [take_append_drop]
      exact nth.perm key k xs
    · rw [List.length_take, (nth.perm key k xs).length_eq]
  · refine ⟨[], ?_, by omega, fun a _ b hb => absurd hb not_mem_nil⟩
    rw [append_nil]

/-- The rows that are held are those of least keys. -/
structure KeepsLeast (n : Int) (seed : UInt64) (types : List DataType) (rows : List Cells)
    (s : SampleState) : Prop where
  running : s.done = false
  off : s.off = rows.length
  least : Smallest (sampleKey seed) n.toNat rows.length (s.best.map Sampled.idx)
  key : ∀ e ∈ s.best, e.key = sampleKey seed e.idx
  row : ∀ e ∈ s.best, rows[e.idx]? = some e.row
  typed : s.best ≠ [] → s.types = types

section Sample

variable {nth : NthElement Nat} {n : Int} {seed : UInt64} {types : List DataType}
  {rows : List Cells} {s : SampleState} {m : Morsel Cells} {ms : List (Morsel Cells)}

theorem sample_start (n : Int) (seed : UInt64) (types : List DataType) :
    KeepsLeast n seed types [] {} where
  running := rfl
  off := rfl
  least := Smallest.zero _ _
  key _ he := absurd he not_mem_nil
  row _ he := absurd he not_mem_nil
  typed h := absurd rfl h

/-- The rows of a morsel with their keys and numbers. -/
def drawn (seed : UInt64) (off : Nat) (rows : List Cells) : List Sampled :=
  rows.zipIdx.map fun (row, i) => ⟨sampleKey seed (off + i), off + i, row⟩

theorem drawn_idx (off : Nat) (rows : List Cells) :
    (drawn seed off rows).map Sampled.idx = List.range' off rows.length := by
  unfold drawn
  rw [map_map]
  have second : (fun e : Cells × Nat => off + e.2) = (off + ·) ∘ Prod.snd := rfl
  change rows.zipIdx.map (fun e => off + e.2) = _
  rw [second, ← map_map, zipIdx_map_snd, map_add_range', Nat.add_zero]

theorem mem_drawn {off : Nat} {e : Sampled} (h : e ∈ drawn seed off rows) :
    e.key = sampleKey seed e.idx ∧ off ≤ e.idx ∧ rows[e.idx - off]? = some e.row := by
  obtain ⟨⟨row, i⟩, hx, rfl⟩ := mem_map.mp h
  refine ⟨rfl, Nat.le_add_right off i, ?_⟩
  rw [Nat.add_sub_cancel_left]
  exact mk_mem_zipIdx_iff_getElem?.mp hx

theorem KeepsLeast.reduce {rows : List Cells} {s : SampleState} (h : KeepsLeast n seed types rows s)
    {m : Morsel Cells} (typed : m.types = types) (counted : (rows ++ m.rows).length < 2 ^ 63)
    (supported : s.best ≠ [] → ∀ d ∈ types, concatSupported d.id = true) :
    ∃ s', SampleCursor.reduce nth n seed s m = .ok s' ∧ s'.types = types ∧
      KeepsLeast n seed types (rows ++ m.rows) s' := by
  have concat : (if s.best.isEmpty then .ok m.types
      else concatMorsels [⟨s.types, s.best.map (·.row)⟩, m]) = Except.ok types := by
    split
    · rw [typed]
    · rename_i some
      rw [List.isEmpty_iff] at some
      apply concatMorsels_same _ (cons_ne_nil _ _) (supported some)
      intro m' hm'
      rcases mem_pair.mp hm' with rfl | rfl
      · exact h.typed some
      · exact typed
  have length : (s.best ++ drawn seed s.off m.rows).length = s.best.length + m.rows.length := by
    have := congrArg List.length (@drawn_idx seed s.off m.rows)
    rw [length_map, length_range'] at this
    rw [length_append, this]
  obtain ⟨left, perm, count, least⟩ := leastKeys_spec nth Sampled.key
    (min n.toNat (s.best ++ drawn seed s.off m.rows).length) (s.best ++ drawn seed s.off m.rows)
  have reduced : SampleCursor.reduce nth n seed s m = .ok
      { s with
        types
        best := leastKeys nth Sampled.key (min n.toNat (s.best ++ drawn seed s.off m.rows).length)
          (s.best ++ drawn seed s.off m.rows)
        off := s.off + m.rows.length } := by
    unfold SampleCursor.reduce
    rw [concat]
    rfl
  refine ⟨_, reduced, rfl, ?_⟩
  generalize leastKeys nth Sampled.key _ _ = kept at perm count least
  have entry (e : Sampled) (he : e ∈ kept ++ left) :
      e.key = sampleKey seed e.idx ∧ (rows ++ m.rows)[e.idx]? = some e.row := by
    rcases mem_append.mp (perm.subset he) with old | new
    · refine ⟨h.key e old, ?_⟩
      have row := h.row e old
      rw [getElem?_append_left (List.getElem?_eq_some_iff.mp row).1]
      exact row
    · obtain ⟨key, after, row⟩ := mem_drawn new
      refine ⟨key, ?_⟩
      rw [getElem?_append_right (h.off ▸ after), ← h.off]
      exact row
  exact {
    running := h.running
    off := by
      rw [length_append, ← h.off]
    least := by
      rw [length_append]
      refine @Smallest.absorb _ _ _ _ _ _ h.least _ ?_ _ (left.map Sampled.idx) ?_ ?_ ?_
      · intro i hi j hj same
        rw [length_append] at counted
        exact sampleKey_injective (by omega) (by omega) same
      · have mapped := perm.map Sampled.idx
        rwa [map_append, map_append, drawn_idx, h.off] at mapped
      · rw [length_map, count, length_map]
        omega
      · intro i hi j hj
        obtain ⟨a, ha, rfl⟩ := mem_map.mp hi
        obtain ⟨b, hb, rfl⟩ := mem_map.mp hj
        rw [← (entry a (mem_append_left _ ha)).1, ← (entry b (mem_append_right _ hb)).1]
        exact least a ha b hb
    key := fun e he => (entry e (mem_append_left _ he)).1
    row := fun e he => (entry e (mem_append_left _ he)).2
    typed := fun _ => rfl }

/-- A row is held where there are rows and room. -/
theorem KeepsLeast.best_ne_nil
    (h : KeepsLeast n seed types rows s) : s.best ≠ [] ↔ 0 < n ∧ rows ≠ [] := by
  have length := h.least.length
  rw [length_map] at length
  rw [← length_pos_iff, ← length_pos_iff]
  omega

/-- A morsel that comes after a row that is held. -/
def Joins (rows : List Cells) (ms : List (Morsel Cells)) : Prop :=
  ∃ before after, ms = before ++ after ∧ rows ++ bufRows before ≠ [] ∧ after ≠ []

theorem Joins.of_cons (h : Joins (rows ++ m.rows) ms) : Joins rows (m :: ms) := by
  obtain ⟨before, after, rfl, some, later⟩ := h
  refine ⟨m :: before, after, rfl, ?_, later⟩
  unfold bufRows at some ⊢
  rwa [flatMap_cons, ← append_assoc]

theorem Joins.here (some : rows ≠ []) (m : Morsel Cells)
    (ms : List (Morsel Cells)) : Joins rows (m :: ms) :=
  ⟨[], m :: ms, rfl, by unfold bufRows; rwa [flatMap_nil, append_nil],
    cons_ne_nil m ms⟩

/-- A row that is held comes from the first morsel or from those before. -/
theorem Joins.cases (h : Joins [] (m :: ms)) :
    Joins m.rows ms := by
  obtain ⟨before, after, split, some, later⟩ := h
  cases before with
  | nil => exact absurd rfl some
  | cons m' before =>
    cases split
    refine ⟨before, after, rfl, ?_, later⟩
    unfold bufRows at some ⊢
    rwa [flatMap_cons, nil_append] at some

/-- All morsels are taken where they can be put together. -/
theorem sample_outputs {ms : List (Morsel Cells)} {rows : List Cells} {s : SampleState}
    (h : KeepsLeast n seed types rows s) (typed : ∀ m ∈ ms, m.types = types)
    (counted : (rows ++ bufRows ms).length < 2 ^ 63)
    (supported : 0 < n → Joins rows ms → ∀ d ∈ types, concatSupported d.id = true) :
    ∃ s', (sampleCursor nth n seed).outputs s ms = .ok [SampleCursor.finish s'] ∧
      KeepsLeast n seed types (rows ++ bufRows ms) s' := by
  have running (s : SampleState) (h : s.done = false) :
      ¬ (sampleCursor nth n seed).stopped s = true := by
    change ¬ s.done = true
    rw [h]
    exact Bool.false_ne_true
  induction ms generalizing rows s with
  | nil =>
    refine ⟨s, ?_, ?_⟩
    · rw [outputs, if_neg (running s h.running)]
      rfl
    · unfold bufRows
      rw [flatMap_nil, append_nil]
      exact h
  | cons m ms ih =>
    have rows_eq : rows ++ bufRows (m :: ms) = rows ++ m.rows ++ bufRows ms := by
      unfold bufRows
      rw [flatMap_cons, append_assoc]
    rw [rows_eq] at counted ⊢
    obtain ⟨s', reduced, -, kept⟩ := @KeepsLeast.reduce nth _ _ _ _ _ h _
      (typed m mem_cons_self)
      (lt_of_le_of_lt (by rw [@length_append _ (rows ++ m.rows)]; omega) counted)
      fun some => supported (h.best_ne_nil.mp some).1
        (Joins.here (h.best_ne_nil.mp some).2 m ms)
    have absorbed : (sampleCursor nth n seed).absorb s m = .ok (s', none) := by
      change (SampleCursor.reduce nth n seed s m).map _ = _
      rw [reduced]
      rfl
    obtain ⟨last, outputs, final⟩ := ih kept
      (fun m' hm' => typed m' (mem_cons_of_mem m hm')) counted
      fun positive joins => supported positive joins.of_cons
    refine ⟨last, ?_, final⟩
    rw [outputs_skip (running s h.running) absorbed]
    exact outputs

/-- The rows that are held at the end are those of the sample. -/
theorem finish_rows (h : KeepsLeast n seed types rows s) (counted : rows.length < 2 ^ 63) :
    (SampleCursor.finish s).rows = sampleRows nth rows n seed := by
  have room : (clamp n 0 rows.length).toNat = min n.toNat rows.length := by
    unfold clamp
    omega
  obtain ⟨left, perm, count, least⟩ := leastKeys_spec nth (sampleKey seed)
    (clamp n 0 rows.length).toNat (List.range rows.length)
  have whole : Smallest (sampleKey seed) n.toNat rows.length
      (leastKeys nth (sampleKey seed) (clamp n 0 rows.length).toNat (List.range rows.length)) := by
    have start := Smallest.zero (sampleKey seed) n.toNat
    have all := @Smallest.absorb _ _ _ _ _ _ start rows.length ?_ _ left ?_ ?_ least
    · rwa [Nat.zero_add] at all
    · intro i hi j hj same
      exact sampleKey_injective (by omega) (by omega) same
    · rw [← range_eq_range']
      exact perm
    · rw [count, length_range, length_nil]
      omega
  have same := h.least.perm whole
  have sorted : (s.best.mergeSort fun a b => a.idx ≤ b.idx).map Sampled.idx =
      (leastKeys nth (sampleKey seed) (clamp n 0 rows.length).toNat
        (List.range rows.length)).mergeSort (· ≤ ·) := by
    refine @List.Perm.eq_of_pairwise _ (· ≤ ·) _ _ (fun a b _ _ => Nat.le_antisymm) ?_ ?_ ?_
    · rw [pairwise_map]
      exact pairwise_mergeSort_key Sampled.idx s.best
    · exact pairwise_mergeSort_key id _
    · exact ((mergeSort_perm _ _).map _).trans
        (same.trans (mergeSort_perm _ _).symm)
  unfold SampleCursor.finish sampleRows take
  dsimp only
  rw [← sorted, filterMap_map, ← filterMap_eq_map]
  apply filterMap_congr
  intro e he
  exact (h.row e ((mergeSort_perm _ _).subset he)).symm

theorem sample_gives {ms : List (Morsel Cells)} (typed : ∀ m ∈ ms, m.types = types)
    (counted : (bufRows ms).length < 2 ^ 63)
    (supported : 0 < n → Joins [] ms → ∀ d ∈ types, concatSupported d.id = true) :
    Gives (sampleCursor nth n seed) {} ms types (sampleRows nth (bufRows ms) n seed) 1 := by
  obtain ⟨s, outputs, kept⟩ := @sample_outputs nth _ _ _ _ _ _ (sample_start n seed types) typed
    (by rwa [nil_append]) supported
  rw [nil_append] at kept
  refine ⟨_, outputs, ?_, ?_, Nat.le_refl 1⟩
  · intro m hm some
    rw [mem_singleton.mp hm] at some ⊢
    apply kept.typed
    rintro none
    apply some
    unfold SampleCursor.finish
    rw [none, mergeSort_nil, map_nil]
  · rw [flatMap_singleton, finish_rows kept counted]

/-- A sample of a type whose parts cannot be put together fails. -/
theorem sample_fails (positive : 0 < n) {ms : List (Morsel Cells)} {rows : List Cells}
    {s : SampleState} (h : KeepsLeast n seed types rows s) (typed : ∀ m ∈ ms, m.types = types)
    (counted : (rows ++ bufRows ms).length < 2 ^ 63) (joins : Joins rows ms) {d : DataType}
    (hd : d ∈ types) (unsupported : concatSupported d.id = false) :
    ∃ e, (sampleCursor nth n seed).outputs s ms = .error e := by
  have running (s : SampleState) (h : s.done = false) :
      ¬ (sampleCursor nth n seed).stopped s = true := by
    change ¬ s.done = true
    rw [h]
    exact Bool.false_ne_true
  induction ms generalizing rows s with
  | nil =>
    obtain ⟨before, after, split, -, later⟩ := joins
    exact absurd (append_eq_nil_iff.mp split.symm).2 later
  | cons m ms ih =>
    by_cases some : rows = []
    · subst some
      have rows_eq : [] ++ bufRows (m :: ms) = [] ++ m.rows ++ bufRows ms := by
        unfold bufRows
        rw [flatMap_cons, append_assoc]
      rw [rows_eq] at counted
      have empty : s.best = [] := by
        by_contra held
        exact (h.best_ne_nil.mp held).2 rfl
      obtain ⟨s', reduced, -, kept⟩ := @KeepsLeast.reduce nth _ _ _ _ _ h _
        (typed m mem_cons_self)
        (lt_of_le_of_lt (by rw [@length_append _ ([] ++ m.rows)]; omega) counted)
        fun held => absurd empty held
      have absorbed : (sampleCursor nth n seed).absorb s m = .ok (s', none) := by
        change (SampleCursor.reduce nth n seed s m).map _ = _
        rw [reduced]
        rfl
      rw [outputs_skip (running s h.running) absorbed]
      exact ih kept (fun m' hm' => typed m' (mem_cons_of_mem m hm')) counted joins.cases
    · have held := h.best_ne_nil.mpr ⟨positive, some⟩
      obtain ⟨e, he⟩ := @concatMorsels_unsupported types
        [⟨s.types, s.best.map (·.row)⟩, m] (by
          intro m' hm'
          rcases mem_pair.mp hm' with rfl | rfl
          · exact h.typed held
          · exact typed m' mem_cons_self) (cons_ne_nil _ _) d hd unsupported
      refine ⟨e, ?_⟩
      have failed : (sampleCursor nth n seed).absorb s m = .error e := by
        change (SampleCursor.reduce nth n seed s m).map _ = _
        unfold SampleCursor.reduce
        rw [if_neg (by rwa [List.isEmpty_iff]), he]
        rfl
      rw [outputs, if_neg (running s h.running), failed]

end Sample

end DFTracer.Frames
