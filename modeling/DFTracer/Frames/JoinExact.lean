/-
# The hash join is the relational join

The parts of the left frame are probed one after the other. What each of them gives is
the next block of the join, and what is flushed at the end are the right rows that
nothing matched. It fails for one kind of key alone: a direct table over all words.
-/

import DFTracer.Frames.JoinIndex
import DFTracer.Math.Lists

namespace DFTracer.Frames

open List

open Math (Chained classFrom)
open HashJoin (marks rightClass)

namespace JoinInput

variable (input : JoinInput)

/-- The output rows of the left rows from one to another. -/
def blockPairs (a b : Nat) : List (Nat × Option Nat) :=
  (List.range' a (b - a)).flatMap (rowPairs input.how input.right.numRows input.agree)

/-- The frame of these output rows. -/
def block (a b : Nat) : DataFrame where
  names := input.left.names ++ input.keptRight.map Prod.fst
  columns :=
    (input.left.names.zip input.left.columns).map (fun c =>
      { c.2 with cells := (input.blockPairs a b).map fun p => c.2.cell p.1 })
    ++ input.keptRight.map fun c =>
      { c.2 with cells := (input.blockPairs a b).map fun p => p.2.bind c.2.cell }

variable {input} {a b d : Nat}

theorem blockPairs_append (hab : a ≤ b) (hbd : b ≤ d) :
    input.blockPairs a b ++ input.blockPairs b d = input.blockPairs a d := by
  have hrange : List.range' a (d - a) = List.range' a (b - a) ++ List.range' b (d - b) := by
    rw [show d - a = b - a + (d - b) by omega, ← range'_append_1,
      show a + (b - a) = b by omega]
  rw [blockPairs, blockPairs, blockPairs, hrange, flatMap_append]

/-- Columns put below one another. -/
theorem append_columns {α β : Type} (xs : List α) (ys : List β) (series : α → Series)
    (series' : β → Series) (cells : α → List (Option Bytes)) (cells' : β → List (Option Bytes))
    (below : α → Series) (below' : β → Series) :
    List.zipWith (fun c e : Series => { c with cells := c.cells ++ e.cells })
        (xs.map (fun x => { series x with cells := cells x })
          ++ ys.map fun y => { series' y with cells := cells' y })
        (xs.map below ++ ys.map below')
      = xs.map (fun x => { series x with cells := cells x ++ (below x).cells })
        ++ ys.map fun y => { series' y with cells := cells' y ++ (below' y).cells } := by
  rw [zipWith_append (by rw [length_map, length_map]), zipWith_map,
    zipWith_map, zipWith_self, zipWith_self]

/-- Neighbouring blocks make a block. -/
theorem append_block (hab : a ≤ b) (hbd : b ≤ d) :
    (input.block a b).append (input.block b d) = input.block a d := by
  rw [DataFrame.append, block, block, block, append_columns, ← blockPairs_append hab hbd]
  simp only [map_append]

/-- Where every right row is matched the join is its rows of the left frame. -/
theorem block_eq_reference
    (h : neverMatched input.how input.right.numRows input.agree input.left.numRows = []) :
    input.block 0 input.left.numRows = input.reference := by
  rw [block, reference, h, blockPairs, Nat.sub_zero, ← range_eq_range']
  simp only [map_nil, append_nil]

end JoinInput

/-! ## A join between two probes -/

/-- The join has been built for this input, and the first `k` left rows are probed. -/
structure Probed (strHash : Bytes → UInt64) (input : JoinInput) (hj : HashJoin) (k : Nat) : Prop where
  right : hj.right = input.right
  how : hj.how = input.how
  keys : hj.rightKeys = input.rightKeys
  leftOn : hj.leftOn = if input.how = .Cross then [] else input.leftOn
  rightOn : hj.rightOn = if input.how = .Cross then [] else input.rightOn
  suffix : hj.suffix = if input.suffix.isEmpty then "_right" else input.suffix
  flushed : hj.flushed = false
  matched : hj.rightMatched = marks input.how input.right.numRows input.agree k
  indexed : input.how ≠ .Cross → Indexed hj
    (rightClass strHash (input.rightKeys.map KeyView.ofSeries) input.right.numRows)

section Lists

variable {α : Type} {names : List String} {xs : List α}

/-- Looking up several names finds their columns. -/
theorem mapM_of_found (find : String → Option α) {f : String → Except JoinFailure α}
    (hf : ∀ k c, find k = some c → f k = .ok c) {columns : List α}
    (h : names.map find = columns.map some) : names.mapM f = .ok columns := by
  induction names generalizing columns with
  | nil =>
    rw [map_eq_nil_iff.mp h.symm]
    rfl
  | cons k names ih =>
    cases columns with
    | nil => cases h
    | cons c columns =>
      obtain ⟨hk, hrest⟩ := List.cons.inj h
      rw [mapM_cons, hf k c hk, ih hrest]
      rfl

theorem forM_of_ok {f : α → Except JoinFailure Unit}
    (h : ∀ x ∈ xs, f x = .ok ()) : xs.forM f = .ok () := by
  induction xs with
  | nil => rfl
  | cons x xs ih =>
    change (f x >>= fun _ => xs.forM f) = _
    rw [h x mem_cons_self]
    exact ih fun y hy => h y (mem_cons_of_mem x hy)

theorem lookup_zip_map {β : Type} (f : α → β) (k : String) (names : List String) (xs : List α) :
    (names.zip (xs.map f)).lookup k = ((names.zip xs).lookup k).map f := by
  induction names generalizing xs with
  | nil => rfl
  | cons name names ih =>
    cases xs with
    | nil => rfl
    | cons x xs =>
      rw [map_cons, zip_cons_cons, zip_cons_cons, lookup_cons,
        lookup_cons]
      split
      · rfl
      · exact ih xs

theorem mem_of_lookup_zip {k : String} {x : α} (h : (names.zip xs).lookup k = some x) : x ∈ xs := by
  induction names generalizing xs with
  | nil => cases h
  | cons name names ih =>
    cases xs with
    | nil => cases h
    | cons y ys =>
      rw [zip_cons_cons, lookup_cons] at h
      split at h
      · exact mem_cons.mpr (.inl (Option.some.inj h).symm)
      · exact mem_cons_of_mem y (ih h)

end Lists

section Exact

variable {strHash : Bytes → UInt64} {input : JoinInput} {hj : HashJoin} {k : Nat} {i : Nat}
  {how : JoinHow} {m : Nat} {rightIdx : List (Option Nat)} {c : Series}

theorem JoinInput.keysFit (input : JoinInput) : KeysFit input.leftKeys input.rightKeys := by
  have hsized (df : DataFrame) (formed : df.WellFormed) {names : List String} {keys : List Series}
      (hfound : names.map df.column = keys.map some) : ∀ c ∈ keys, c.Sized := by
    intro c hc
    have hmem : some c ∈ names.map df.column := by
      rw [hfound]
      exact mem_map_of_mem hc
    obtain ⟨name, _, hname⟩ := mem_map.mp hmem
    exact formed.sized c (mem_of_lookup_zip hname)
  refine ⟨input.typed, input.orderable, ?_, ?_⟩
  · by_cases hcross : input.how = .Cross
    · rw [(input.unkeyed hcross).1]
      exact nofun
    · exact hsized input.left input.leftFormed (input.leftFound hcross)
  · by_cases hcross : input.how = .Cross
    · rw [(input.unkeyed hcross).2]
      exact nofun
    · exact hsized input.right input.rightFormed (input.rightFound hcross)

/-- The keys of a part of the left frame fit as well. -/
theorem JoinInput.keysFit_slice (input : JoinInput) (offset len : Nat) :
    KeysFit (input.leftKeys.map fun c => c.slice offset len) input.rightKeys where
  typed := by
    rw [map_map]
    exact input.typed
  orderable := input.orderable
  leftSized := by
    intro c hc
    obtain ⟨whole, hwhole, rfl⟩ := mem_map.mp hc
    exact (input.keysFit.leftSized whole hwhole).slice offset len
  rightSized := input.keysFit.rightSized

/-- A row of a part matches what the row of the frame matches. -/
theorem keyMatch_slice (lefts rights : List Series) (offset len : Nat) (hi : i < len) (r : Nat) :
    keyMatch (lefts.map fun c => c.slice offset len) rights i r
      = keyMatch lefts rights (offset + i) r := by
  unfold keyMatch
  rw [zip_map_left, all_map]
  congr 1
  funext c
  change (((c.1.slice offset len).cell i).isSome && (c.1.slice offset len).cell i == c.2.cell r)
    = _
  rw [Series.cell_slice _ _ _ _ hi]

theorem Probed.rightLayout_eq (h : Probed strHash input hj k) :
    hj.rightLayout input.left.names = input.keptRight := by
  unfold HashJoin.rightLayout JoinInput.keptRight
  rw [h.how, h.right, h.leftOn, h.rightOn, h.suffix]
  by_cases honly : leftOnly input.how
  · rw [if_pos honly, if_pos honly]
  · rw [if_neg honly, if_neg honly]
    congr 1
    · funext c
      simp
    · apply filter_congr
      intro c _
      by_cases hcross : input.how = .Cross
      · simp [hcross]
      · rw [if_neg hcross, if_neg hcross, not_any_eq_all_not, decide_eq_false hcross]
        congr 1
        funext p
        obtain ⟨p, q⟩ := p
        rw [Bool.eq_iff_iff]
        simp [or_comm]

/-- A row of a part is led to the right rows that it matches. -/
theorem Probed.leads (h : Probed strHash input hj k) (hcross : input.how ≠ .Cross)
    (offset len : Nat) (hi : i < len) :
    HashJoin.Leads strHash hj
      ((input.leftKeys.map fun c => c.slice offset len).map KeyView.ofSeries)
      (input.rightKeys.map KeyView.ofSeries) i
      (matching input.right.numRows input.agree (offset + i)) := by
  have fit := input.keysFit_slice offset len
  have hindexed := h.indexed hcross
  have hlength : hj.next.length = input.right.numRows := hindexed.length.trans (by rw [h.right])
  have hagree (r : Nat) := keyMatch_slice input.leftKeys input.rightKeys offset len hi r
  have hmatch (r : Nat) : input.agree (offset + i) r = _ := (hagree r).symm.trans (keyMatch_eq fit)
  constructor
  rw [HashJoin.isNull_eq, HashJoin.firstOf_eq]
  by_cases hnull : anyNull ((input.leftKeys.map fun c => c.slice offset len).map KeyView.ofSeries) i
  · refine ⟨[], ?_, nofun, Nat.zero_le _, ?_⟩
    · rw [if_pos hnull]
      exact .nil
    · rw [matching, filter_nil, filter_eq_nil_iff.mpr]
      intro r _
      rw [hmatch, hnull]
      exact Bool.false_ne_true
  · rw [if_neg hnull]
    refine ⟨_, hindexed.chained _, ?_, ?_, ?_⟩
    · intro r hr
      rw [hlength, ← h.right]
      exact (Math.mem_classFrom.mp hr).1.2
    · rw [hlength, ← h.right]
      exact Math.length_classFrom_le _
    · rw [classFrom, Nat.sub_zero, ← range_eq_range', filter_filter, h.right]
      apply filter_congr
      intro r hr
      have hclass : rightClass strHash (input.rightKeys.map KeyView.ofSeries) input.right.numRows r
          = if anyNull (input.rightKeys.map KeyView.ofSeries) r then none
            else some (rowHash strHash (input.rightKeys.map KeyView.ofSeries) r) := by
        rw [rightClass, hashClass, buildHashes, getElem?_map, getElem?_range (mem_range.mp hr)]
        rfl
      have hviews : ((input.leftKeys.map fun c => c.slice offset len).map KeyView.ofSeries).length
          = (input.rightKeys.map KeyView.ofSeries).length := by
        rw [length_map, fit.length_eq, length_map]
      rw [HashJoin.equal_eq hviews, hclass, hmatch, Bool.eq_false_of_not_eq_true hnull]
      by_cases hright : anyNull (input.rightKeys.map KeyView.ofSeries) r
      · rw [hright]
        simp
      · rw [Bool.eq_false_of_not_eq_true hright]
        cases hequal : rowsEqual ((input.leftKeys.map fun c => c.slice offset len).map
            KeyView.ofSeries) i (input.rightKeys.map KeyView.ofSeries) r with
        | false => rfl
        | true =>
          have hmatches : keyMatch (input.leftKeys.map fun c => c.slice offset len)
              input.rightKeys i r := by
            rw [keyMatch_eq fit, hequal, Bool.eq_false_of_not_eq_true hnull,
              Bool.eq_false_of_not_eq_true hright]
            rfl
          rw [rowHash_of_match strHash fit hmatches]
          simp

/-! ## Probing a part -/

theorem DataFrame.column_slice (df : DataFrame) (offset len : Nat) (name : String) :
    (df.slice offset len).column name = (df.column name).map fun c => c.slice offset len :=
  lookup_zip_map _ _ _ _

theorem Series.length_slice (c : Series) (offset len : Nat) :
    (c.slice offset len).length = min len (c.length - offset) := by
  unfold Series.slice Series.length
  rw [List.length_take, length_drop]

theorem DataFrame.numRows_slice (df : DataFrame) (offset len : Nat) :
    (df.slice offset len).numRows = min len (df.numRows - offset) := by
  unfold DataFrame.numRows DataFrame.slice
  cases df.columns with
  | nil => simp
  | cons c columns => exact c.length_slice offset len

/-- The pairs of a part are the pairs of its rows in the whole frame. -/
theorem JoinInput.blockPairs_eq (input : JoinInput) (offset m : Nat) :
    input.blockPairs offset (offset + m)
      = ((List.range m).flatMap (rowPairs input.how input.right.numRows fun i =>
          input.agree (offset + i))).map fun p => (offset + p.1, p.2) := by
  rw [blockPairs, Nat.add_sub_cancel_left, range'_eq_map_range, flatMap_map,
    map_flatMap]
  congr 1
  funext i
  rw [rowPairs, rowPairs, map_map]
  rfl

theorem fst_lt_of_mem {n : Nat} {agree : Nat → Nat → Bool} {p : Nat × Option Nat}
    (hp : p ∈ (List.range m).flatMap (rowPairs how n agree)) : p.1 < m := by
  obtain ⟨i, hi, hrow⟩ := mem_flatMap.mp hp
  obtain ⟨r, _, rfl⟩ := mem_map.mp hrow
  exact mem_range.mp hi

/-- What is emitted for the pairs of a part is a block of the join. -/
theorem Probed.emit_eq (h : Probed strHash input hj k) {offset len : Nat} (hm : m ≤ len) {pairs : List (Nat × Option Nat)}
    (hpairs : pairs = (List.range m).flatMap (rowPairs input.how input.right.numRows fun i =>
      input.agree (offset + i)))
    (hright : leftOnly input.how = false → rightIdx = pairs.map Prod.snd) :
    hj.emit (input.left.slice offset len) (pairs.map Prod.fst) rightIdx
      = input.block offset (offset + m) := by
  have hblock := input.blockPairs_eq offset m
  rw [← hpairs] at hblock
  have hlayout : hj.rightLayout (input.left.slice offset len).names = input.keptRight :=
    h.rightLayout_eq
  have hcolumns : (input.left.slice offset len).columns.map
        (fun c => c.take ((pairs.map Prod.fst).map some))
      = (input.left.names.zip input.left.columns).map fun c =>
        { c.2 with cells := (pairs.map fun p => (offset + p.1, p.2)).map fun p => c.2.cell p.1 } := by
    have hzip (f : Series → Series) : input.left.columns.map f
        = (input.left.names.zip input.left.columns).map fun c => f c.2 := by
      have hsnd := congrArg (List.map f) (map_snd_zip input.leftFormed.named.ge)
      rw [map_map] at hsnd
      exact hsnd.symm
    rw [DataFrame.slice, map_map, ← hzip fun c =>
      { c with cells := (pairs.map fun p => (offset + p.1, p.2)).map fun p => c.cell p.1 }]
    apply map_congr_left
    intro c _
    rw [Function.comp_apply, Series.take, map_map, map_map, map_map]
    congr 1
    apply map_congr_left
    intro p hp
    rw [hpairs] at hp
    exact Series.cell_slice c offset len p.1 (Nat.lt_of_lt_of_le (fst_lt_of_mem hp) hm)
  have hkept : input.keptRight.map (fun c => c.2.take rightIdx)
      = input.keptRight.map fun c =>
        { c.2 with cells := (pairs.map fun p => (offset + p.1, p.2)).map fun p => p.2.bind c.2.cell } := by
    by_cases honly : leftOnly input.how
    · rw [JoinInput.keptRight, if_pos honly]
      rfl
    · apply map_congr_left
      intro c _
      rw [Series.take, hright (Bool.eq_false_of_not_eq_true honly), map_map, map_map]
      rfl
  rw [HashJoin.emit, hlayout, JoinInput.block, hblock, hcolumns, hkept]
  rfl

theorem Probed.checks (h : Probed strHash input hj k) (offset len : Nat) :
    hj.leftOn.mapM (HashJoin.leftKey (input.left.slice offset len))
        = .ok (input.leftKeys.map fun c => c.slice offset len) ∧
      ((hj.leftOn.zip hj.rightOn).zip
        ((input.leftKeys.map fun c => c.slice offset len).zip hj.rightKeys)).forM
          (fun p => HashJoin.checkType p.1 p.2.1 p.2.2) = .ok () := by
  constructor
  · apply mapM_of_found (input.left.slice offset len).column
    · intro name c hc
      rw [HashJoin.leftKey, hc]
    · rw [h.leftOn]
      by_cases hcross : input.how = .Cross
      · rw [if_pos hcross, (input.unkeyed hcross).1]
        rfl
      · have hfound := congrArg (List.map (Option.map fun c : Series => c.slice offset len))
          (input.leftFound hcross)
        rw [map_map, map_map] at hfound
        rw [if_neg hcross, map_map]
        refine (map_congr_left fun name _ => ?_).trans hfound
        exact DataFrame.column_slice input.left offset len name
  · apply forM_of_ok
    intro p hp
    have hkeys := (of_mem_zip hp).2
    rw [h.keys] at hkeys
    have htyped := Math.eq_of_mem_zip (input.keysFit_slice offset len).typed hkeys
    rw [HashJoin.checkType, if_neg (not_not.mpr (Prod.mk.inj htyped).1)]

/-- In a cross join every right row is paired with every left row. -/
theorem crossPairs_eq (hcross : input.how = .Cross) (offset m : Nat) :
    ((List.range m).flatMap fun i => (List.range input.right.numRows).map fun r => (i, some r))
      = (List.range m).flatMap (rowPairs input.how input.right.numRows fun i =>
        input.agree (offset + i)) := by
  congr 1
  funext i
  have hall : matching input.right.numRows (fun i => input.agree (offset + i)) i
      = List.range input.right.numRows := by
    apply filter_eq_self.mpr
    intro r _
    unfold JoinInput.agree
    rw [(input.unkeyed hcross).1]
    rfl
  unfold rowPairs rowMatches
  rw [hcross, hall]
  exact (map_map ..).symm

theorem marks_of_not_keeps (h : keepsUnmatchedRight how = false) (n : Nat)
    (agree : Nat → Nat → Bool) (k : Nat) : marks how n agree k = [] := by
  rw [marks, h]
  rfl

/-- A probe gives the next block, and remembers what it has matched. -/
theorem Probed.probe_eq (h : Probed strHash input hj k) (len : Nat) :
    ∃ hj', hj.probe strHash (input.left.slice k len)
        = .ok (input.block k (k + min len (input.left.numRows - k)), hj') ∧
      Probed strHash input hj' (k + min len (input.left.numRows - k)) := by
  obtain ⟨hkeys, htypes⟩ := h.checks k len
  have hrows := input.left.numRows_slice k len
  generalize hm : min len (input.left.numRows - k) = m at hrows ⊢
  have hlen : m ≤ len := hm ▸ Nat.min_le_left _ _
  by_cases hcross : input.how = .Cross
  · have hprobe : hj.probe strHash (input.left.slice k len)
        = .ok (hj.emit (input.left.slice k len)
          (((List.range m).flatMap fun i =>
            (List.range input.right.numRows).map fun r => (i, some r)).map Prod.fst)
          (((List.range m).flatMap fun i =>
            (List.range input.right.numRows).map fun r => (i, some r)).map Prod.snd), hj) := by
      rw [HashJoin.probe, hkeys]
      change ((_ : Except JoinFailure Unit).bind _) = _
      rw [htypes, ← hrows, ← h.right]
      exact if_pos (h.how.trans hcross)
    refine ⟨hj, ?_, { h with matched := ?_ }⟩
    · rw [hprobe, h.emit_eq hlen (crossPairs_eq hcross k m) fun _ => rfl]
    · have hkeeps : keepsUnmatchedRight input.how = false := by rw [hcross]; rfl
      rw [h.matched, marks_of_not_keeps hkeeps, marks_of_not_keeps hkeeps]
  · obtain ⟨pairs, hpairs⟩ : ∃ pairs, pairs = (List.range m).flatMap
        (rowPairs input.how input.right.numRows fun i => input.agree (k + i)) := ⟨_, rfl⟩
    obtain ⟨out, hout, hleft, hright, hmatched⟩ : ∃ out,
        HashJoin.probeRows strHash hj
            ((input.leftKeys.map fun c => c.slice k len).map KeyView.ofSeries)
            (input.rightKeys.map KeyView.ofSeries) m = .ok out ∧
          out.left = pairs.map Prod.fst ∧
          (leftOnly input.how = false → out.right = pairs.map Prod.snd) ∧
          out.matched = marks input.how input.right.numRows input.agree (k + m) := by
      refine ⟨_, HashJoin.probeRows_eq (by rwa [h.how]) (by rw [h.matched, h.how])
        (fun i hi => h.leads hcross k len (Nat.lt_of_lt_of_le hi hlen)), ?_, ?_, ?_⟩
      · rw [hpairs, h.how]
      · intro honly
        rw [hpairs, h.how, honly]
        rfl
      · rw [h.how]
    have fit := input.keysFit_slice k len
    have hprobe : hj.probe strHash (input.left.slice k len)
        = .ok (hj.emit (input.left.slice k len) out.left out.right,
          { hj with rightMatched := out.matched }) := by
      rw [HashJoin.probe, hkeys]
      change ((_ : Except JoinFailure Unit).bind _) = _
      rw [htypes]
      refine (if_neg (by rwa [h.how])).trans ?_
      rw [h.keys, keyViews_eq fit.leftOrderable, keyViews_eq input.orderable, hrows]
      change (HashJoin.probeRows _ _ _ _ _).bind _ = _
      rw [hout]
      rfl
    refine ⟨{ hj with rightMatched := out.matched }, ?_, { h with
      matched := hmatched
      indexed := fun hcross => ⟨(h.indexed hcross).length, (h.indexed hcross).chained⟩ }⟩
    rw [hprobe, hleft, h.emit_eq hlen hpairs hright]

/-- Probing the parts gives the blocks of the join, from the row on where they start. -/
theorem Probed.probeAll_eq (h : Probed strHash input hj k) (hk : k ≤ input.left.numRows)
    (sizes : List Nat) :
    ∃ b outs hj', hj.probeAll strHash (input.left.cutFrom k sizes)
        = .ok (input.block k b :: outs, hj') ∧
      Probed strHash input hj' input.left.numRows ∧ k ≤ b ∧ b ≤ input.left.numRows ∧
      ∀ a ≤ b, outs.foldl DataFrame.append (input.block a b) = input.block a input.left.numRows := by
  induction sizes generalizing k hj with
  | nil =>
    obtain ⟨hj', hprobe, hprobed⟩ := h.probe_eq (input.left.numRows - k)
    rw [Nat.min_self, Nat.add_sub_of_le hk] at hprobe hprobed
    refine ⟨input.left.numRows, [], hj', ?_, hprobed, hk, Nat.le_refl _, fun _ _ => rfl⟩
    rw [DataFrame.cutFrom, HashJoin.probeAll, hprobe]
    rfl
  | cons n sizes ih =>
    obtain ⟨hj', hprobe, hprobed⟩ := h.probe_eq n
    have hend : k + min n (input.left.numRows - k) = min (k + n) input.left.numRows := by omega
    rw [hend] at hprobe hprobed
    have hle : min (k + n) input.left.numRows ≤ input.left.numRows := Nat.min_le_right _ _
    obtain ⟨b, outs, last, hall, hlast, hkb, hb, hfold⟩ := ih hprobed hle
    refine ⟨min (k + n) input.left.numRows,
      input.block (min (k + n) input.left.numRows) b :: outs, last, ?_, hlast, by omega, hle, ?_⟩
    · rw [DataFrame.cutFrom, HashJoin.probeAll, hprobe, Except.bind, hall]
      rfl
    · intro a ha
      rw [foldl_cons, JoinInput.append_block ha hkb]
      exact hfold a (by omega)

theorem Probed.unmatched_eq (h : Probed strHash input hj input.left.numRows)
    (hkeeps : keepsUnmatchedRight input.how) :
    hj.unmatched = neverMatched input.how input.right.numRows input.agree input.left.numRows := by
  rw [HashJoin.unmatched, neverMatched, if_pos hkeeps, h.matched, marks, if_pos hkeeps,
    length_map, length_range]
  apply filter_congr
  intro r hr
  rw [getElem?_map, getElem?_range (mem_range.mp hr), Option.map_some, ← not_any_eq_all_not]
  cases (List.range input.left.numRows).any fun i => input.agree i r <;> rfl

theorem Probed.sharedKeyOf_eq (h : Probed strHash input hj k) (hcross : input.how ≠ .Cross)
    (name : String) : hj.sharedKeyOf name = input.sharedKey name := by
  rw [HashJoin.sharedKeyOf, h.leftOn, h.rightOn, h.keys, if_neg hcross, if_neg hcross]
  congr 2
  funext p
  rw [Bool.eq_iff_iff]
  simp [Prod.ext_iff]

theorem not_cross_of_keeps (hkeeps : keepsUnmatchedRight input.how) : input.how ≠ .Cross := by
  intro hcross
  rw [hcross] at hkeeps
  cases hkeeps

/-- With a key the left frame has a column. -/
theorem JoinInput.columns_ne_nil (input : JoinInput) (hcross : input.how ≠ .Cross) :
    input.left.columns ≠ [] := by
  intro hnil
  obtain ⟨name, names, hnames⟩ := exists_cons_of_ne_nil (input.keyed hcross).1
  have hfound := input.leftFound hcross
  rw [hnames, map_cons, DataFrame.column, hnil, zip_nil_right] at hfound
  cases hkeys : input.leftKeys with
  | nil =>
    rw [hkeys] at hfound
    cases hfound
  | cons c keys =>
    rw [hkeys] at hfound
    cases (List.cons.inj hfound).1

/-- The right rows alone go below the rows of the left frame. -/
theorem Probed.append_emitRight (h : Probed strHash input hj k) (hcross : input.how ≠ .Cross) :
    (input.block 0 input.left.numRows).append
        (hj.emitRight input.left.names input.left.columns
          ((neverMatched input.how input.right.numRows input.agree input.left.numRows).map some))
      = input.reference := by
  rw [HashJoin.emitRight, h.rightLayout_eq, DataFrame.append, JoinInput.block,
    JoinInput.append_columns, JoinInput.blockPairs, ← range_eq_range']
  congr 1
  congr 1
  · apply map_congr_left
    intro c _
    rw [h.sharedKeyOf_eq hcross]
    cases input.sharedKey c.1 with
    | none | some key => simp [Series.take, Function.comp_def]
  · apply map_congr_left
    intro c _
    rw [Series.take, map_map]
    rfl

theorem numRows_emitRight_ne_zero (hcross : input.how ≠ .Cross) (hne : rightIdx ≠ []) :
    (hj.emitRight input.left.names input.left.columns rightIdx).numRows ≠ 0 := by
  obtain ⟨c, columns, hcolumns⟩ := exists_cons_of_ne_nil (input.columns_ne_nil hcross)
  have hnamed := input.leftFormed.named
  rw [hcolumns] at hnamed
  obtain ⟨name, names, hnames⟩ := exists_cons_of_length_eq_add_one hnamed
  rw [HashJoin.emitRight, hcolumns, hnames, zip_cons_cons, map_cons, DataFrame.numRows]
  dsimp only
  rw [cons_append, head?_cons, Option.elim_some]
  cases hj.sharedKeyOf (name, c).1 with
  | none =>
    rw [Series.length_take, length_map]
    exact fun hz => hne (eq_nil_of_length_eq_zero hz)
  | some key =>
    rw [Series.length_take]
    exact fun hz => hne (eq_nil_of_length_eq_zero hz)

/-- What is flushed is empty, or it goes below the rows of the left frame. -/
theorem Probed.flush_eq (h : Probed strHash input hj input.left.numRows) :
    ∃ rest hj', hj.flush input.left.names input.left.columns = .ok (rest, hj') ∧
      ((rest.numRows = 0 ∧ input.block 0 input.left.numRows = input.reference) ∨
        (rest.numRows ≠ 0 ∧
          (input.block 0 input.left.numRows).append rest = input.reference)) := by
  by_cases hkeeps : keepsUnmatchedRight input.how
  · have hcross := not_cross_of_keeps hkeeps
    have hlengths : ¬input.left.columns.length ≠ input.left.names.length :=
      not_not.mpr input.leftFormed.named.symm
    have hflush : hj.flush input.left.names input.left.columns = _ :=
      (if_neg (by rw [h.flushed, h.how, hkeeps]; exact Bool.false_ne_true)).trans (if_neg hlengths)
    refine ⟨_, _, hflush, ?_⟩
    rw [h.unmatched_eq hkeeps]
    by_cases hnil : neverMatched input.how input.right.numRows input.agree input.left.numRows = []
    · rw [hnil]
      exact .inl ⟨rfl, JoinInput.block_eq_reference hnil⟩
    · have hne : (neverMatched input.how input.right.numRows input.agree
          input.left.numRows).map some ≠ [] := fun hmap => hnil (map_eq_nil_iff.mp hmap)
      rw [if_neg (List.isEmpty_iff.not.mpr hne)]
      exact .inr ⟨numRows_emitRight_ne_zero hcross hne, h.append_emitRight hcross⟩
  · have hnever : neverMatched input.how input.right.numRows input.agree input.left.numRows = [] :=
      if_neg hkeeps
    have hflush : hj.flush input.left.names input.left.columns = _ :=
      if_pos (by rw [h.flushed, h.how, Bool.eq_false_of_not_eq_true hkeeps]; rfl)
    exact ⟨_, _, hflush, .inl ⟨rfl, JoinInput.block_eq_reference hnever⟩⟩

/-! ## The whole join -/

/-- A column of integers of eight bytes is viewed as values of eight bytes. -/
theorem ofSeries_integer (htype : c.type = .Int64 ∨ c.type = .Uint64) :
    KeyView.ofSeries c = { kind := .Fixed, width := 8, cells := c.cells } := by
  unfold KeyView.ofSeries
  rcases htype with htype | htype
  · rw [htype]
    rfl
  · rw [htype]
    rfl

/-- A key of eight bytes is hashed to its word, and only its own bytes have that word. -/
theorem mem_hashes_word (sized : c.Sized) (htype : c.type = .Int64 ∨ c.type = .Uint64)
    {w : Bytes} (hw : w.length = 8) :
    some (wordOf w) ∈ buildHashes strHash [KeyView.ofSeries c] c.length ↔ some w ∈ c.cells := by
  have hwidth : byteWidth c.type c.fixedSize = some (KeyView.ofSeries c).width := by
    rw [ofSeries_integer htype]
    rcases htype with htype | htype <;> rw [htype] <;> rfl
  have hhash {i : Nat} {b : Bytes} (hb : c.cell i = some b) :
      rowHash strHash [KeyView.ofSeries c] i = wordOf b ∧ b.length = 8 := by
    obtain ⟨hbytes, hlength⟩ := fixedBytes_ofSeries sized hwidth hb
    have hview := ofSeries_integer htype
    have hkind : (KeyView.ofSeries c).kind = .Fixed := by rw [hview]
    have height : (KeyView.ofSeries c).width = 8 := by rw [hview]
    rw [height] at hlength
    rw [rowHash, KeyView.hash, hkind]
    rw [if_pos height, hbytes]
    exact ⟨rfl, hlength⟩
  have hnull (i : Nat) : anyNull [KeyView.ofSeries c] i = (c.cell i).isNone := by
    rw [anyNull, any_cons, any_nil, Bool.or_false, isNull_ofSeries]
  rw [buildHashes, mem_map]
  constructor
  · rintro ⟨i, _, hi⟩
    rw [hnull] at hi
    cases hcell : c.cell i with
    | none =>
      rw [hcell] at hi
      cases hi
    | some b =>
      obtain ⟨hword, hb⟩ := hhash hcell
      rw [hcell, hword] at hi
      have hsame := wordOf_inj (hb.trans hw.symm) hb.le (Option.some.inj hi)
      rw [← hsame]
      exact Series.mem_of_cell hcell
  · intro hmem
    obtain ⟨i, hi⟩ := mem_iff_getElem?.mp hmem
    have hcell : c.cell i = some w := by rw [Series.cell, hi, Option.join_some]
    refine ⟨i, mem_range.mpr (List.getElem?_eq_some_iff.mp hi).1, ?_⟩
    rw [hnull, hcell, Option.isNone_some, if_neg Bool.false_ne_true, (hhash hcell).1]

theorem JoinInput.rightKey_mem (input : JoinInput) {key : Series} (hkey : key ∈ input.rightKeys) :
    key.Sized ∧ key.length = input.right.numRows := by
  by_cases hcross : input.how = .Cross
  · rw [(input.unkeyed hcross).2] at hkey
    cases hkey
  · have hmem : some key ∈ input.rightOn.map input.right.column := by
      rw [input.rightFound hcross]
      exact mem_map_of_mem hkey
    obtain ⟨name, _, hname⟩ := mem_map.mp hmem
    have hcolumn := mem_of_lookup_zip hname
    exact ⟨input.rightFormed.sized key hcolumn, input.rightFormed.rectangular key hcolumn⟩

theorem wraps_iff_coversAllWords (hright : hj.right = input.right)
    (hkeys : hj.rightKeys = input.rightKeys) :
    hj.Wraps strHash (input.rightKeys.map KeyView.ofSeries) ↔ input.CoversAllWords := by
  unfold HashJoin.Wraps JoinInput.CoversAllWords
  rw [hright, hkeys]
  have hzero : (0 : UInt64) = wordOf (List.replicate 8 0) := by decide
  have hmax : (0xFFFFFFFFFFFFFFFF : UInt64) = wordOf (List.replicate 8 0xFF) := by decide
  have hwords {key : Series} (hone : input.rightKeys = [key])
      (htype : key.type = .Int64 ∨ key.type = .Uint64) {w : Bytes} (hw : w.length = 8) :
      some (wordOf w) ∈ buildHashes strHash (input.rightKeys.map KeyView.ofSeries)
        input.right.numRows ↔ some w ∈ key.cells := by
    obtain ⟨sized, hlength⟩ := input.rightKey_mem (hone ▸ mem_singleton_self key)
    rw [hone, ← hlength]
    exact mem_hashes_word sized htype hw
  constructor
  · rintro ⟨hone, hfirst, hlast⟩
    obtain ⟨key, hkey, htype⟩ : ∃ key, input.rightKeys = [key]
        ∧ (key.type = .Int64 ∨ key.type = .Uint64) := by
      unfold oneInteger at hone
      split at hone
      · rename_i key view hkey _
        rw [Bool.and_eq_true, Bool.or_eq_true, beq_iff_eq, beq_iff_eq] at hone
        exact ⟨key, hkey, hone.2⟩
      · cases hone
    rw [hzero, hwords hkey htype rfl] at hfirst
    rw [hmax, hwords hkey htype rfl] at hlast
    exact ⟨key, hkey, htype, hfirst, hlast⟩
  · rintro ⟨key, hkey, htype, hfirst, hlast⟩
    refine ⟨?_, ?_, ?_⟩
    · rw [hkey, map_singleton, oneInteger, ofSeries_integer htype]
      rcases htype with htype | htype <;> rw [htype] <;> rfl
    · rwa [hzero, hwords hkey htype rfl]
    · rwa [hmax, hwords hkey htype rfl]

/-- A join is built, unless its key covers all words. -/
theorem new_spec (strHash : Bytes → UInt64) (input : JoinInput) :
    (input.CoversAllWords → HashJoin.new strHash input.right input.leftOn input.rightOn input.how
        input.suffix = .error .outOfBounds) ∧
      (¬input.CoversAllWords → ∃ hj, HashJoin.new strHash input.right input.leftOn input.rightOn
        input.how input.suffix = .ok hj ∧ Probed strHash input hj 0) := by
  obtain ⟨start, hstart⟩ : ∃ start : HashJoin, start =
      { right := input.right
        leftOn := if input.how = .Cross then [] else input.leftOn
        rightOn := if input.how = .Cross then [] else input.rightOn
        how := input.how
        rightKeys := input.rightKeys
        suffix := if input.suffix.isEmpty then HashJoin.DEFAULT_SUFFIX else input.suffix
        rightMatched :=
          if keepsUnmatchedRight input.how then List.replicate input.right.numRows false else [] } :=
    ⟨_, rfl⟩
  have hmatched : start.rightMatched = marks input.how input.right.numRows input.agree 0 := by
    rw [hstart, marks]
    dsimp only
    split_ifs
    · simp
    · rfl
  have hnew : HashJoin.new strHash input.right input.leftOn input.rightOn input.how input.suffix
      = if input.how = .Cross then .ok start
        else start.index strHash (input.rightKeys.map KeyView.ofSeries) := by
    rw [HashJoin.new, hstart]
    by_cases hcross : input.how = .Cross
    · rw [HashJoin.checkKeys, if_pos hcross, if_pos hcross, if_pos hcross, if_pos hcross,
        (input.unkeyed hcross).2]
      exact if_pos hcross
    · have hnonempty : ¬input.leftOn.isEmpty := List.isEmpty_iff.not.mpr (input.keyed hcross).1
      have hlength : ¬input.leftOn.length ≠ input.rightOn.length :=
        not_not.mpr (input.keyed hcross).2
      have hfound : input.rightOn.mapM (HashJoin.rightKey input.right) = .ok input.rightKeys := by
        apply mapM_of_found input.right.column _ (input.rightFound hcross)
        intro name c hc
        rw [HashJoin.rightKey, hc]
      rw [HashJoin.checkKeys, if_neg hcross, if_neg hnonempty, if_neg hlength, if_neg hcross,
        if_neg hcross, if_neg hcross]
      change (input.rightOn.mapM (HashJoin.rightKey input.right)).bind _ = _
      rw [hfound]
      refine (if_neg hcross).trans ?_
      rw [keyViews_eq input.orderable]
      rfl
  have hwraps : start.Wraps strHash (input.rightKeys.map KeyView.ofSeries) ↔ input.CoversAllWords :=
    wraps_iff_coversAllWords (by rw [hstart]) (by rw [hstart])
  rw [hnew]
  constructor
  · intro hcovers
    have hcross : input.how ≠ .Cross := by
      intro hcross
      obtain ⟨key, hkey, _⟩ := hcovers
      rw [(input.unkeyed hcross).2] at hkey
      cases hkey
    rw [if_neg hcross]
    exact HashJoin.index_of_wraps (hwraps.mpr hcovers)
  · intro hnot
    by_cases hcross : input.how = .Cross
    · rw [if_pos hcross]
      refine ⟨start, rfl, ?_⟩
      constructor
      case matched => exact hmatched
      case indexed => exact fun hne => absurd hcross hne
      case suffix =>
        rw [hstart]
        rfl
      all_goals rw [hstart]
    · obtain ⟨direct, directBase, first, next, hindex, hindexed⟩ :=
        HashJoin.index_of_not_wraps (by rw [hstart]) (hwraps.not.mpr hnot)
      rw [if_neg hcross]
      refine ⟨_, hindex, ?_⟩
      constructor
      case matched => exact hmatched
      case indexed =>
        intro _
        have hright : start.right = input.right := by rw [hstart]
        rw [← hright]
        exact hindexed
      case suffix =>
        rw [hstart]
        rfl
      all_goals rw [hstart]

end Exact

namespace AllWords

/-- One column of two integers, 0 and −1. -/
def frame : DataFrame where
  names := ["k"]
  columns := [{ type := .Int64, cells := [some (List.replicate 8 0), some (List.replicate 8 0xFF)] }]

theorem wellFormed : frame.WellFormed where
  named := rfl
  rectangular := by
    intro c hc
    rw [mem_singleton.mp hc]
    rfl
  sized := by
    intro c hc
    rw [mem_singleton.mp hc]
    refine ⟨by decide, fun _ _ h => absurd h (by decide), ?_⟩
    intro b hb w hw
    rw [← Option.some.inj hw]
    rcases mem_cons.mp hb with h | h
    · rw [Option.some.inj h]
      rfl
    · rw [Option.some.inj (mem_singleton.mp h)]
      rfl

/-- The frame is joined with itself. -/
def input : JoinInput where
  left := frame
  right := frame
  leftOn := ["k"]
  rightOn := ["k"]
  how := .Inner
  suffix := ""
  leftKeys := frame.columns
  rightKeys := frame.columns
  leftFormed := wellFormed
  rightFormed := wellFormed
  keyed := fun _ => ⟨by decide, rfl⟩
  leftFound := fun _ => rfl
  rightFound := fun _ => rfl
  unkeyed := nofun
  typed := rfl
  orderable := by
    intro c hc
    rw [List.mem_singleton.mp hc]
    rfl

end AllWords

end DFTracer.Frames
