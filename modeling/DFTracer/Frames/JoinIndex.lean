/-
# The index of a join

Both indexes put the right rows of a hash into one chain, in ascending order, and every
lookup leads to the chain of its hash. Only a direct table over all words fails: its
span wraps to nothing, and the first row that is put in goes beyond its end.
-/

import DFTracer.Frames.JoinKeys
import DFTracer.Math.Chains
import Mathlib.Data.List.ReduceOption

namespace DFTracer.Frames

open List

open Math (Table Chained classFrom Linked)

namespace HashJoin

/-- The lookup that was chosen when the right frame was indexed. -/
def lookup (hj : HashJoin) (h : UInt64) : Option Nat :=
  if !hj.direct.isEmpty then directFirst hj.direct hj.directBase h else hj.first.lookup h

theorem oneWord_cases {views : List KeyView} (h : oneWord views) :
    ∃ view, views = [view] ∧ view.kind = .Fixed ∧ view.width = 8 := by
  unfold oneWord at h
  split at h
  · rw [Bool.and_eq_true, beq_iff_eq, beq_iff_eq] at h
    exact ⟨_, rfl, h⟩
  · cases h

theorem isNull_eq (views : List KeyView) (i : Nat) : isNull views i = anyNull views i := by
  unfold isNull anyNull
  split_ifs <;> rfl

/-- Every mode looks up the hash of the row. -/
theorem firstOf_eq (strHash : Bytes → UInt64) (hj : HashJoin) (views : List KeyView) (i : Nat) :
    firstOf strHash hj views i = hj.lookup (rowHash strHash views i) := by
  unfold firstOf lookup
  by_cases hword : oneWord views
  · obtain ⟨view, rfl, hkind, hwidth⟩ := oneWord_cases hword
    have hhash : rowHash strHash [view] i = keyWord [view] i := by
      rw [rowHash, KeyView.hash, hkind, hwidth]
      rfl
    rw [if_pos hword, hhash]
  · rw [if_neg hword]

/-- Every mode compares the keys of the rows. -/
theorem equal_eq {lviews rviews : List KeyView} (hlength : lviews.length = rviews.length)
    (i r : Nat) : equal lviews rviews i r = rowsEqual lviews i rviews r := by
  unfold equal
  by_cases hword : oneWord lviews
  · obtain ⟨view, rfl, hkind, hwidth⟩ := oneWord_cases hword
    obtain ⟨other, rfl⟩ := length_eq_one_iff.mp hlength.symm
    rw [rowsEqual, zip_cons_cons, all_cons, KeyView.equals, hkind, hwidth]
    simp [keyWord]
  · rw [if_neg hword]

end HashJoin

/-- The hash of a row that has one. -/
def hashClass (hashes : List (Option UInt64)) (r : Nat) : Option UInt64 := (hashes[r]?).join

section Build

variable {hashes : List (Option UInt64)}

theorem reverse_range_succ (k : Nat) :
    (List.range (k + 1)).reverse = k :: (List.range k).reverse := by
  rw [range_succ, reverse_append, reverse_singleton, singleton_append]

variable {k : Nat}

theorem HashIndex.insert_of_none (index : HashIndex) (hcls : hashClass hashes k = none) :
    index.insert hashes k = index := by
  unfold hashClass at hcls
  rw [HashIndex.insert, hcls]

variable {v : UInt64}

theorem HashIndex.insert_of_some (index : HashIndex) (hcls : hashClass hashes k = some v) :
    index.insert hashes k =
      { first := index.first.alter v fun _ => k
        next := if (index.first.lookup v).isSome then index.next.set k (index.first.lookup v)
          else index.next } := by
  unfold hashClass at hcls
  rw [HashIndex.insert, hcls]
  dsimp only
  cases index.first.lookup v <;> rfl

/-- One row is put into the hash index. -/
theorem HashIndex.linked_insert {index : HashIndex} (hk : k < index.next.length)
    (h : Linked (hashClass hashes) (k + 1) index.first.lookup index.next) :
    Linked (hashClass hashes) k (index.insert hashes k).first.lookup (index.insert hashes k).next
      ∧ (index.insert hashes k).next.length = index.next.length := by
  cases hcls : hashClass hashes k with
  | none =>
    rw [index.insert_of_none hcls]
    exact ⟨h.skip hk hcls, rfl⟩
  | some v =>
    have hfirst : (index.first.alter v fun _ => k).lookup
        = Function.update index.first.lookup v (some k) := by
      funext w
      rw [Table.lookup_alter, Function.update_apply]
    rw [index.insert_of_some hcls]
    rw [hfirst]
    refine ⟨h.push hk hcls, ?_⟩
    split_ifs
    · exact length_set
    · rfl

theorem HashIndex.linked_foldl (index : HashIndex) (hk : k ≤ index.next.length)
    (h : Linked (hashClass hashes) k index.first.lookup index.next) :
    Linked (hashClass hashes) 0
        ((List.range k).reverse.foldl (HashIndex.insert hashes) index).first.lookup
        ((List.range k).reverse.foldl (HashIndex.insert hashes) index).next
      ∧ ((List.range k).reverse.foldl (HashIndex.insert hashes) index).next.length
        = index.next.length := by
  induction k generalizing index with
  | zero => exact ⟨h, rfl⟩
  | succ k ih =>
    obtain ⟨hinsert, hlength⟩ := HashIndex.linked_insert (by omega) h
    rw [reverse_range_succ, ← hlength]
    exact ih _ (by omega) hinsert

/-- The hash index chains the rows of each hash. -/
theorem linked_buildHash (hashes : List (Option UInt64)) :
    Linked (hashClass hashes) 0 (buildHash hashes).first.lookup (buildHash hashes).next
      ∧ (buildHash hashes).next.length = hashes.length := by
  have hlength : (List.replicate hashes.length (none : Option Nat)).length = hashes.length :=
    length_replicate
  have hstart : Linked (hashClass hashes) hashes.length (Table.empty : Table UInt64 Nat).lookup
      (List.replicate hashes.length none) := Linked.start hashes.length
  have h := HashIndex.linked_foldl
    { first := Table.empty, next := List.replicate hashes.length none } hlength.ge hstart
  rwa [hlength] at h

/-! ## The direct table -/

theorem DirectIndex.insert_of_none (index : DirectIndex) (lo : UInt64)
    (hcls : hashClass hashes k = none) : index.insert hashes lo k = .ok index := by
  unfold hashClass at hcls
  rw [DirectIndex.insert, hcls]

variable {lo : UInt64} {hi : UInt64}

theorem DirectIndex.insert_of_some (index : DirectIndex)
    (hcls : hashClass hashes k = some v) (hin : (v - lo).toNat < index.direct.length)
    (hfits : index.direct.length < 2 ^ 64) :
    index.insert hashes lo k = .ok
      { direct := index.direct.set (v - lo).toNat (some k)
        next :=
          if (HashJoin.directFirst index.direct lo v).isSome then
            index.next.set k (HashJoin.directFirst index.direct lo v)
          else index.next } := by
  have hslot : HashJoin.directFirst index.direct lo v = index.direct[(v - lo).toNat] := by
    rw [HashJoin.directFirst, if_pos, getElem?_eq_getElem hin, Option.join_some]
    rwa [UInt64.lt_iff_toNat_lt, UInt64.toNat_ofNat_of_lt' hfits]
  unfold hashClass at hcls
  rw [DirectIndex.insert, hcls, hslot]
  dsimp only
  rw [getElem?_eq_getElem hin]

/-- Setting a slot changes the lookup of its word alone. -/
theorem directFirst_set {direct : List (Option Nat)}
    (hin : (v - lo).toNat < direct.length) (hfits : direct.length < 2 ^ 64) :
    HashJoin.directFirst (direct.set (v - lo).toNat (some k)) lo
      = Function.update (HashJoin.directFirst direct lo) v (some k) := by
  funext w
  unfold HashJoin.directFirst
  rw [Function.update_apply, length_set]
  by_cases hw : w = v
  · subst hw
    rw [if_pos rfl, if_pos, getElem?_set_self hin, Option.join_some]
    rwa [UInt64.lt_iff_toNat_lt, UInt64.toNat_ofNat_of_lt' hfits]
  · have hslot : (v - lo).toNat ≠ (w - lo).toNat := by
      intro h
      have hsub := UInt64.toNat_inj.mp h
      exact hw (by
        have := congrArg (fun x => x + lo) hsub
        simpa only [UInt64.sub_add_cancel] using this.symm)
    rw [if_neg hw]
    dsimp only
    rw [getElem?_set_ne hslot]

/-- All words of the rows lie within the span of the table. -/
def Spans (hashes : List (Option UInt64)) (lo : UInt64) (span : Nat) : Prop :=
  ∀ r v, hashClass hashes r = some v → (v - lo).toNat < span

/-- One row is put into a direct table that spans all words. -/
theorem DirectIndex.linked_insert {index : DirectIndex}
    (hspan : Spans hashes lo index.direct.length) (hfits : index.direct.length < 2 ^ 64)
    (hk : k < index.next.length)
    (h : Linked (hashClass hashes) (k + 1) (HashJoin.directFirst index.direct lo) index.next) :
    ∃ inserted, index.insert hashes lo k = .ok inserted ∧
      Linked (hashClass hashes) k (HashJoin.directFirst inserted.direct lo) inserted.next ∧
      inserted.next.length = index.next.length ∧
      inserted.direct.length = index.direct.length := by
  cases hcls : hashClass hashes k with
  | none => exact ⟨index, index.insert_of_none lo hcls, h.skip hk hcls, rfl, rfl⟩
  | some v =>
    have hin := hspan k v hcls
    have hpush := h.push hk hcls
    rw [← directFirst_set hin hfits] at hpush
    refine ⟨_, index.insert_of_some hcls hin hfits, hpush, ?_, length_set⟩
    by_cases hslot : (HashJoin.directFirst index.direct lo v).isSome
    · rw [if_pos hslot]
      exact length_set
    · rw [if_neg hslot]

/-- A direct table that spans all words chains the rows of each word. -/
theorem DirectIndex.linked_foldlM (index : DirectIndex)
    (hspan : Spans hashes lo index.direct.length) (hfits : index.direct.length < 2 ^ 64)
    (hk : k ≤ index.next.length)
    (h : Linked (hashClass hashes) k (HashJoin.directFirst index.direct lo) index.next) :
    ∃ built, (List.range k).reverse.foldlM (DirectIndex.insert hashes lo) index = .ok built ∧
      Linked (hashClass hashes) 0 (HashJoin.directFirst built.direct lo) built.next ∧
      built.next.length = index.next.length ∧ built.direct.length = index.direct.length := by
  induction k generalizing index with
  | zero => exact ⟨index, rfl, h, rfl, rfl⟩
  | succ k ih =>
    obtain ⟨inserted, hinsert, hlinked, hnext, hdirect⟩ :=
      DirectIndex.linked_insert hspan hfits (by omega) h
    rw [reverse_range_succ, foldlM_cons, hinsert, ← hnext, ← hdirect]
    rw [← hdirect] at hspan hfits
    exact ih _ hspan hfits (by omega) hlinked

theorem linked_buildDirect {span : Nat} (hspan : Spans hashes lo span) (hfits : span < 2 ^ 64) :
    ∃ built, buildDirect hashes lo span = .ok built ∧
      Linked (hashClass hashes) 0 (HashJoin.directFirst built.direct lo) built.next ∧
      built.next.length = hashes.length ∧ built.direct.length = span := by
  have hstart : Linked (hashClass hashes) hashes.length
      (HashJoin.directFirst (List.replicate span none) lo) (List.replicate hashes.length none) := by
    have hnone : HashJoin.directFirst (List.replicate span none) lo = fun _ => none := by
      funext w
      rw [HashJoin.directFirst]
      split_ifs
      · rw [getElem?_replicate]
        split_ifs <;> rfl
      · rfl
    rw [hnone]
    exact Linked.start hashes.length
  obtain ⟨built, hbuilt, hlinked, hnext, hdirect⟩ := DirectIndex.linked_foldlM
    { direct := List.replicate span none, next := List.replicate hashes.length none }
    (by rwa [length_replicate]) (by rwa [length_replicate])
    length_replicate.ge hstart
  exact ⟨built, hbuilt, hlinked, hnext.trans length_replicate,
    hdirect.trans length_replicate⟩

/-- A table without slots fails at the first row that is put in. -/
theorem buildDirect_of_empty {r : Nat}
    (hr : hashClass hashes r = some v) : buildDirect hashes lo 0 = .error .outOfBounds := by
  have hrow : r < hashes.length := by
    by_contra hge
    rw [hashClass, getElem?_eq_none (Nat.le_of_not_lt hge)] at hr
    cases hr
  have hfold (k : Nat) (next : List (Option Nat)) (hk : r < k) :
      (List.range k).reverse.foldlM (DirectIndex.insert hashes lo) { direct := [], next }
        = .error .outOfBounds := by
    induction k with
    | zero => exact absurd hk (Nat.not_lt_zero r)
    | succ k ih =>
      rw [reverse_range_succ, foldlM_cons]
      cases hcls : hashClass hashes k with
      | none =>
        rw [DirectIndex.insert_of_none _ lo hcls]
        apply ih
        have hne : r ≠ k := fun heq => by
          rw [heq, hcls] at hr
          cases hr
        omega
      | some w =>
        unfold hashClass at hcls
        rw [DirectIndex.insert, hcls]
        rfl
  exact hfold hashes.length _ hrow

/-! ## The span of the words -/

theorem mem_hashes_iff : some v ∈ hashes ↔ ∃ r, hashClass hashes r = some v := by
  rw [mem_iff_getElem?]
  constructor
  · rintro ⟨r, hr⟩
    exact ⟨r, by rw [hashClass, hr, Option.join_some]⟩
  · rintro ⟨r, hr⟩
    exact ⟨r, Option.join_eq_some_iff.mp hr⟩

theorem lesser_spec (a b : UInt64) :
    (lesser a b = a ∨ lesser a b = b) ∧ lesser a b ≤ a ∧ lesser a b ≤ b := by
  unfold lesser
  by_cases h : b < a
  · rw [if_pos h]
    exact ⟨.inr rfl, UInt64.le_of_lt h, UInt64.le_refl b⟩
  · rw [if_neg h]
    exact ⟨.inl rfl, UInt64.le_refl a, UInt64.not_lt.mp h⟩

theorem greater_spec (a b : UInt64) :
    (greater a b = a ∨ greater a b = b) ∧ a ≤ greater a b ∧ b ≤ greater a b := by
  unfold greater
  by_cases h : a < b
  · rw [if_pos h]
    exact ⟨.inr rfl, UInt64.le_of_lt h, UInt64.le_refl b⟩
  · rw [if_neg h]
    exact ⟨.inl rfl, UInt64.le_refl a, UInt64.not_lt.mp h⟩

/-- Widen a range by a word. -/
def widen (range : Option (UInt64 × UInt64)) (v : UInt64) : Option (UInt64 × UInt64) :=
  let (lo, hi) := range.getD (0xFFFFFFFFFFFFFFFF, 0)
  some (lesser lo v, greater hi v)

theorem widen_none (v : UInt64) : widen none v = some (v, v) := by
  have htop : v ≤ 0xFFFFFFFFFFFFFFFF := by
    exact Nat.le_sub_one_of_lt (UInt64.toNat_lt v)
  have hlesser : lesser 0xFFFFFFFFFFFFFFFF v = v := by
    unfold lesser
    split_ifs with h
    · rfl
    · exact UInt64.le_antisymm (UInt64.not_lt.mp h) htop
  have hgreater : greater 0 v = v := by
    unfold greater
    split_ifs with h
    · rfl
    · apply UInt64.le_antisymm _ (UInt64.not_lt.mp h)
      exact Nat.zero_le _
  change some (lesser 0xFFFFFFFFFFFFFFFF v, greater 0 v) = _
  rw [hlesser, hgreater]

/-- The range that words widen a range to. -/
theorem foldl_widen (words : List UInt64) (lo hi : UInt64) :
    ∃ lo' hi', words.foldl widen (some (lo, hi)) = some (lo', hi') ∧
      (lo' = lo ∨ lo' ∈ words) ∧ (hi' = hi ∨ hi' ∈ words) ∧ lo' ≤ lo ∧ hi ≤ hi' ∧
      ∀ v ∈ words, lo' ≤ v ∧ v ≤ hi' := by
  induction words generalizing lo hi with
  | nil => exact ⟨lo, hi, rfl, .inl rfl, .inl rfl, UInt64.le_refl _, UInt64.le_refl _, nofun⟩
  | cons w words ih =>
    obtain ⟨hleast, hlo, hlow⟩ := lesser_spec lo w
    obtain ⟨hmost, hhi, hhiw⟩ := greater_spec hi w
    obtain ⟨lo', hi', hfold, hlo', hhi', hleft, hright, hall⟩ := ih (lesser lo w) (greater hi w)
    refine ⟨lo', hi', hfold, ?_, ?_, UInt64.le_trans hleft hlo, UInt64.le_trans hhi hright, ?_⟩
    · rcases hlo' with h | h
      · exact hleast.imp h.trans fun hw => mem_cons.mpr (.inl (h.trans hw))
      · exact .inr (mem_cons_of_mem w h)
    · rcases hhi' with h | h
      · exact hmost.imp h.trans fun hw => mem_cons.mpr (.inl (h.trans hw))
      · exact .inr (mem_cons_of_mem w h)
    · intro v hv
      rcases mem_cons.mp hv with rfl | hin
      · exact ⟨UInt64.le_trans hleft hlow, UInt64.le_trans hhiw hright⟩
      · exact hall v hin

/-- The range of the words is reached at both ends, and holds them all. -/
theorem wordRange_spec (h : wordRange hashes = some (lo, hi)) :
    some lo ∈ hashes ∧ some hi ∈ hashes ∧ ∀ v, some v ∈ hashes → lo ≤ v ∧ v ≤ hi := by
  simp only [← reduceOption_mem_iff]
  change hashes.reduceOption.foldl widen none = _ at h
  cases hwords : hashes.reduceOption with
  | nil =>
    rw [hwords] at h
    cases h
  | cons w words =>
    obtain ⟨lo', hi', hfold, hlo, hhi, hleft, hright, hall⟩ := foldl_widen words w w
    rw [hwords, foldl_cons, widen_none, hfold] at h
    obtain ⟨rfl, rfl⟩ := Prod.mk.inj (Option.some.inj h)
    refine ⟨mem_cons.mpr hlo, mem_cons.mpr hhi, ?_⟩
    intro v hv
    rcases mem_cons.mp hv with rfl | hin
    · exact ⟨hleft, hright⟩
    · exact hall v hin

theorem wordRange_isSome (h : some v ∈ hashes) : (wordRange hashes).isSome := by
  rw [← reduceOption_mem_iff] at h
  change (hashes.reduceOption.foldl widen none).isSome
  cases hwords : hashes.reduceOption with
  | nil =>
    rw [hwords] at h
    cases h
  | cons w words =>
    obtain ⟨lo, hi, hfold, _⟩ := foldl_widen words w w
    rw [foldl_cons, widen_none, hfold]
    rfl

/-- The span from the least word to the greatest wraps only where they are the first and
the last word of all. -/
theorem span_eq_zero_iff (hle : lo ≤ hi) :
    hi - lo + 1 = 0 ↔ lo = 0 ∧ hi = 0xFFFFFFFFFFFFFFFF := by
  simp only [← UInt64.toNat_inj, UInt64.toNat_add]
  have hsub : (hi - lo).toNat = hi.toNat - lo.toNat := UInt64.toNat_sub_of_le _ _ (by
    rwa [UInt64.le_iff_toNat_le])
  have hlt := UInt64.toNat_lt hi
  have hone : (1 : UInt64).toNat = 1 := rfl
  have hzero : (0 : UInt64).toNat = 0 := rfl
  have hmax : (0xFFFFFFFFFFFFFFFF : UInt64).toNat = 2 ^ 64 - 1 := rfl
  omega

/-- Where the span does not wrap it holds all words. -/
theorem spans_of_wordRange (h : wordRange hashes = some (lo, hi))
    (hwraps : hi - lo + 1 ≠ 0) : Spans hashes lo (hi - lo + 1).toNat := by
  obtain ⟨_, _, hall⟩ := wordRange_spec h
  intro r v hv
  obtain ⟨hlo, hhi⟩ := hall v (mem_hashes_iff.mpr ⟨r, hv⟩)
  have hle := UInt64.le_trans hlo hhi
  have hsub : (v - lo).toNat = v.toNat - lo.toNat := UInt64.toNat_sub_of_le _ _ hlo
  have hspan : (hi - lo).toNat = hi.toNat - lo.toNat := UInt64.toNat_sub_of_le _ _ hle
  have hlt := UInt64.toNat_lt hi
  have hone : (1 : UInt64).toNat = 1 := rfl
  have hadd : (hi - lo + 1).toNat = (hi.toNat - lo.toNat + 1) % 2 ^ 64 := by
    rw [UInt64.toNat_add, hspan, hone]
  rw [← UInt64.toNat_inj.ne] at hwraps
  rw [UInt64.le_iff_toNat_le] at hlo hhi
  have hzero : (0 : UInt64).toNat = 0 := rfl
  omega

end Build

/-- Every lookup leads to the chain of its hash. -/
structure Indexed (hj : HashJoin) (cls : Nat → Option UInt64) : Prop where
  length : hj.next.length = hj.right.numRows
  chained : ∀ h, Chained (fun r => (hj.next[r]?).join) (hj.lookup h)
    (classFrom cls 0 hj.right.numRows h)

namespace HashJoin

variable {strHash : Bytes → UInt64} {hj : HashJoin} {views : List KeyView}

/-- The hash of a right row without null keys. -/
def rightClass (strHash : Bytes → UInt64) (views : List KeyView) (n r : Nat) : Option UInt64 :=
  hashClass (buildHashes strHash views n) r

/-- The span of the direct table wraps. -/
def Wraps (strHash : Bytes → UInt64) (hj : HashJoin) (views : List KeyView) : Prop :=
  oneInteger hj.rightKeys views ∧
    some 0 ∈ buildHashes strHash views hj.right.numRows ∧
    some 0xFFFFFFFFFFFFFFFF ∈ buildHashes strHash views hj.right.numRows

/-- Where the span of the direct table wraps, the first row goes beyond its end. -/
theorem index_of_wraps (h : hj.Wraps strHash views) :
    hj.index strHash views = .error .outOfBounds := by
  obtain ⟨hone, hzero, hmax⟩ := h
  obtain ⟨⟨lo, hi⟩, hrange⟩ := Option.isSome_iff_exists.mp (wordRange_isSome hzero)
  obtain ⟨_, _, hall⟩ := wordRange_spec hrange
  have hspan : hi - lo + 1 = 0 := by
    rw [span_eq_zero_iff (UInt64.le_trans (hall _ hzero).1 (hall _ hzero).2)]
    refine ⟨UInt64.le_antisymm (hall _ hzero).1 ?_, UInt64.le_antisymm ?_ (hall _ hmax).2⟩
    · exact Nat.zero_le _
    · exact Nat.le_sub_one_of_lt (UInt64.toNat_lt hi)
  obtain ⟨r, hr⟩ := mem_hashes_iff.mp hzero
  have hdirect : directRange hj.rightKeys views (buildHashes strHash views hj.right.numRows)
      = some (lo, 0) := by
    rw [directRange, if_pos hone, hrange, Option.bind_some]
    rw [hspan, if_pos (by exact Nat.zero_le _)]
  have hbuild : buildDirect (buildHashes strHash views hj.right.numRows) lo (0 : UInt64).toNat
      = .error .outOfBounds := buildDirect_of_empty hr
  rw [index, hdirect]
  dsimp only
  rw [hbuild]
  rfl

/-- Otherwise the right rows are indexed. -/
theorem index_of_not_wraps (hfresh : hj.direct = [])
    (h : ¬hj.Wraps strHash views) :
    ∃ direct directBase first next,
      hj.index strHash views = .ok { hj with direct, directBase, first, next } ∧
      Indexed { hj with direct, directBase, first, next }
        (rightClass strHash views hj.right.numRows) := by
  have hlength : (buildHashes strHash views hj.right.numRows).length = hj.right.numRows := by
    rw [buildHashes, length_map, length_range]
  cases hdirect : directRange hj.rightKeys views (buildHashes strHash views hj.right.numRows) with
  | none =>
    obtain ⟨hlinked, hnext⟩ := linked_buildHash (buildHashes strHash views hj.right.numRows)
    have hindex : hj.index strHash views = .ok
        { hj with
          first := (buildHash (buildHashes strHash views hj.right.numRows)).first
          next := (buildHash (buildHashes strHash views hj.right.numRows)).next } := by
      rw [index, hdirect]
    refine ⟨[], hj.directBase, _, _, by rw [hindex, ← hfresh], hnext.trans hlength, ?_⟩
    intro w
    have hchained := hlinked.chained w
    rwa [hnext, hlength] at hchained
  | some range =>
    obtain ⟨lo, span⟩ := range
    have hindex : hj.index strHash views
        = (buildDirect (buildHashes strHash views hj.right.numRows) lo span.toNat).map
          fun built => { hj with
            direct := built.direct
            directBase := lo
            next := built.next } := by
      rw [index, hdirect]
    have hone : oneInteger hj.rightKeys views := by
      by_contra hnot
      rw [directRange, if_neg hnot] at hdirect
      cases hdirect
    rw [directRange, if_pos hone, Option.bind_eq_some_iff] at hdirect
    obtain ⟨⟨lo', hi⟩, hrange, hspan⟩ := hdirect
    dsimp only at hspan
    split_ifs at hspan with hfits
    obtain ⟨rfl, rfl⟩ := Prod.mk.inj (Option.some.inj hspan)
    obtain ⟨hlo, hhi, hall⟩ := wordRange_spec hrange
    have hnonzero : hi - lo' + 1 ≠ 0 := by
      intro hzero
      obtain ⟨rfl, rfl⟩ := (span_eq_zero_iff (hall _ hhi).1).mp hzero
      exact h ⟨hone, hlo, hhi⟩
    obtain ⟨built, hbuilt, hlinked, hnext, hslots⟩ :=
      linked_buildDirect (spans_of_wordRange hrange hnonzero) (UInt64.toNat_lt _)
    refine ⟨built.direct, lo', hj.first, built.next, by rw [hindex, hbuilt]; rfl,
      hnext.trans hlength, ?_⟩
    intro w
    have hchained := hlinked.chained w
    rw [hnext, hlength] at hchained
    have hnonempty : built.direct.isEmpty = false := by
      rw [isEmpty_eq_false_iff, ← length_pos_iff, hslots, Nat.pos_iff_ne_zero]
      exact fun hz => hnonzero (UInt64.toNat_inj.mp hz)
    unfold lookup
    rw [hnonempty]
    exact hchained

end HashJoin

/-! ## Probing the index

A probe goes through the chain of a row's hash and keeps the rows whose keys really
equal. As rows that match are all in that chain, these are the rows that match, in
ascending order. What a probe writes, and what it remembers, is thereby told row by row. -/

open Math (Chained classFrom)

namespace HashJoin

section Walk

variable {hj : HashJoin} {lviews rviews : List KeyView} {i : Nat} {start : Option Nat}
  {rows : List Nat} {fuel : Nat}

/-- A walk through a chain finds its rows with equal keys. -/
theorem equalRows_eq (h : Chained (fun r => (hj.next[r]?).join) start rows)
    (hin : ∀ r ∈ rows, r < hj.next.length) (hfuel : rows.length ≤ fuel) :
    equalRows hj lviews rviews i fuel start = .ok (rows.filter (equal lviews rviews i)) := by
  induction h generalizing fuel with
  | nil => cases fuel <;> rfl
  | @cons r rows _ ih =>
    cases fuel with
    | zero => exact absurd hfuel (Nat.not_succ_le_zero _)
    | succ fuel =>
      have hr := hin r mem_cons_self
      have hnext : hj.nextOf r = .ok (hj.next[r]?).join := by
        rw [nextOf, getElem?_eq_getElem hr, Option.join_some]
      have hrest := ih (fun r' hr' => hin r' (mem_cons_of_mem r hr'))
        (Nat.le_of_succ_le_succ hfuel)
      rw [equalRows, hnext, Except.bind, hrest, filter_cons]
      rfl

/-- The first row with equal keys starts the part of the chain that has all of them. -/
theorem firstEqual_spec (lviews rviews : List KeyView) (i : Nat)
    (h : Chained (fun r => (hj.next[r]?).join) start rows)
    (hin : ∀ r ∈ rows, r < hj.next.length) (hfuel : rows.length ≤ fuel) :
    ∃ found rest, firstEqual hj lviews rviews i fuel start = .ok found ∧
      Chained (fun r => (hj.next[r]?).join) found rest ∧ (∀ r ∈ rest, r < hj.next.length) ∧
      rest.length ≤ fuel ∧
      rest.filter (equal lviews rviews i) = rows.filter (equal lviews rviews i) ∧
      (found = none ↔ rows.filter (equal lviews rviews i) = []) := by
  induction h generalizing fuel with
  | nil => exact ⟨none, [], by cases fuel <;> rfl, .nil, nofun, Nat.zero_le _, rfl, by simp⟩
  | @cons r rows hrest ih =>
    cases fuel with
    | zero => exact absurd hfuel (Nat.not_succ_le_zero _)
    | succ fuel =>
      by_cases hequal : equal lviews rviews i r
      · refine ⟨some r, r :: rows, ?_, .cons hrest, hin, hfuel, rfl, ?_⟩
        · rw [firstEqual, if_pos hequal]
        · rw [filter_cons, if_pos hequal]
          simp
      · have hr := hin r mem_cons_self
        have hnext : hj.nextOf r = .ok (hj.next[r]?).join := by
          rw [nextOf, getElem?_eq_getElem hr, Option.join_some]
        obtain ⟨found, rest, hfound, hchained, hrestIn, hlength, hfilter, hnone⟩ := ih
          (fun r' hr' => hin r' (mem_cons_of_mem r hr')) (Nat.le_of_succ_le_succ hfuel)
        rw [filter_cons, if_neg hequal]
        refine ⟨found, rest, ?_, hchained, hrestIn, by omega, hfilter, hnone⟩
        rw [firstEqual, if_neg hequal, hnext]
        exact hfound

end Walk

/-- A probe of this row starts at the chain of the rows that match it. -/
structure Leads (strHash : Bytes → UInt64) (hj : HashJoin) (lviews rviews : List KeyView) (i : Nat)
    (rows : List Nat) : Prop where
  chain : ∃ chain,
    Chained (fun r => (hj.next[r]?).join)
      (if isNull lviews i then none else firstOf strHash hj lviews i) chain ∧
    (∀ r ∈ chain, r < hj.next.length) ∧ chain.length ≤ hj.next.length ∧
    chain.filter (equal lviews rviews i) = rows

/-- Right rows that match are remembered. -/
def mark (matched : List Bool) (rows : List Nat) : List Bool :=
  rows.foldl (fun matched r => matched.set r true) matched

theorem mark_nil (rows : List Nat) : mark [] rows = [] := by
  induction rows with
  | nil => rfl
  | cons r rows ih => exact ih

/-- What a row adds to the pair lists. -/
def Pairs.add (how : JoinHow) (out : Pairs) (pairs : List (Nat × Option Nat)) (rows : List Nat) :
    Pairs where
  left := out.left ++ pairs.map Prod.fst
  right := if leftOnly how then out.right else out.right ++ pairs.map Prod.snd
  matched := mark out.matched rows

/-- A row adds its pairs. -/
theorem probeRow_eq {strHash : Bytes → UInt64} {hj : HashJoin} {lviews rviews : List KeyView}
    {i : Nat} (n : Nat) (agree : Nat → Nat → Bool) (out : Pairs) (hcross : hj.how ≠ .Cross)
    (hleads : Leads strHash hj lviews rviews i (matching n agree i))
    (hlength : out.matched.length = hj.rightMatched.length)
    (honly : leftOnly hj.how → out.matched = []) :
    probeRow strHash hj lviews rviews out i
      = .ok (out.add hj.how (rowPairs hj.how n agree i) (matching n agree i)) := by
  obtain ⟨chain, hchain, hin, hfits, hrows⟩ := hleads.chain
  obtain ⟨found, rest, hfound, hrest, hrestIn, hrestFits, hfilter, hnone⟩ :=
    firstEqual_spec lviews rviews i hchain hin (Nat.le_succ_of_le hfits)
  rw [hrows] at hfilter hnone
  cases found with
  | none =>
    have hempty := hnone.mp rfl
    cases hhow : hj.how
    case Cross => exact absurd hhow hcross
    all_goals
      simp [probeRow, hfound, Except.bind, hhow, Pairs.add, rowPairs, rowMatches, hempty,
        keepsUnmatchedLeft,
        leftOnly, mark]
  | some r =>
    have hsome : matching n agree i ≠ [] := fun hnil => nomatch hnone.mpr hnil
    have hequal : equalRows hj lviews rviews i (hj.next.length + 1) (some r)
        = .ok (matching n agree i) := by
      rw [equalRows_eq hrest hrestIn hrestFits, hfilter]
    have hmark : (if hj.rightMatched.length ≠ 0 then
          (matching n agree i).foldl (fun matched r => matched.set r true) out.matched
        else out.matched) = mark out.matched (matching n agree i) := by
      by_cases hzero : hj.rightMatched.length ≠ 0
      · rw [if_pos hzero]
        rfl
      · rw [if_neg hzero, eq_nil_of_length_eq_zero (hlength.trans (not_not.mp hzero)), mark_nil]
    cases hhow : hj.how
    case Cross => exact absurd hhow hcross
    case Semi =>
      have hnil : out.matched = [] := honly (by rw [hhow]; rfl)
      simp [probeRow, hfound, Except.bind, hhow, Pairs.add, rowPairs, rowMatches, hsome, leftOnly,
        hnil, mark_nil]
    case Anti =>
      have hnil : out.matched = [] := honly (by rw [hhow]; rfl)
      simp [probeRow, hfound, Except.bind, hhow, Pairs.add, rowPairs, rowMatches, hsome]
      rw [hnil, mark_nil, ← hnil]
    all_goals
      rw [probeRow, hfound]
      simp only [Except.bind, hhow, hequal, Except.map, hmark]
      simp [Pairs.add, rowPairs, rowMatches, hsome, leftOnly, Function.comp_def]

/-- The right rows that one of the first left rows matches, where they are remembered. -/
def marks (how : JoinHow) (n : Nat) (agree : Nat → Nat → Bool) (k : Nat) : List Bool :=
  if keepsUnmatchedRight how then
    (List.range n).map fun r => (List.range k).any fun i => agree i r
  else []

theorem mark_map (n : Nat) (f : Nat → Bool) (rows : List Nat) :
    mark ((List.range n).map f) rows = (List.range n).map fun r => f r || decide (r ∈ rows) := by
  induction rows generalizing f with
  | nil => simp [mark]
  | cons r rows ih =>
    have hset : ((List.range n).map f).set r true
        = (List.range n).map fun k => f k || decide (k = r) := by
      apply ext_getElem?
      intro k
      rw [getElem?_set]
      by_cases hk : k < n
      · by_cases hkr : r = k
        · simp [hkr, hk]
        · simp [hkr, Ne.symm hkr, hk]
      · by_cases hkr : r = k
        · simp [hkr, Nat.not_lt.mp hk]
        · simp [hkr, Nat.not_lt.mp hk]
    rw [mark, foldl_cons, hset]
    refine (ih _).trans (map_congr_left fun k _ => ?_)
    by_cases hk : k = r <;> simp [hk]

/-- One more left row marks the right rows that match it. -/
theorem mark_marks (how : JoinHow) (n : Nat) (agree : Nat → Nat → Bool) (k : Nat) :
    mark (marks how n agree k) (matching n agree k) = marks how n agree (k + 1) := by
  unfold marks
  split_ifs
  · rw [mark_map]
    apply map_congr_left
    intro r hr
    rw [range_succ, any_append, matching, any_cons, any_nil, Bool.or_false]
    congr 1
    rw [Bool.eq_iff_iff, decide_eq_true_iff, mem_filter]
    exact and_iff_right hr
  · exact mark_nil _

theorem length_marks (how : JoinHow) (n : Nat) (agree : Nat → Nat → Bool) (k k' : Nat) :
    (marks how n agree k).length = (marks how n agree k').length := by
  unfold marks
  split_ifs
  · rw [length_map, length_map]
  · rfl

theorem marks_of_leftOnly {how : JoinHow} (h : leftOnly how) (n : Nat) (agree : Nat → Nat → Bool)
    (k : Nat) : marks how n agree k = [] := by
  cases how
  case Semi => rfl
  case Anti => rfl
  all_goals cases h

/-- The rows of a part, from `offset` on, add their pairs one after the other. -/
theorem probeRows_eq {strHash : Bytes → UInt64} {hj : HashJoin} {lviews rviews : List KeyView}
    {n offset m : Nat} {agree : Nat → Nat → Bool} (hcross : hj.how ≠ .Cross)
    (hmatched : hj.rightMatched = marks hj.how n agree offset)
    (hleads : ∀ i < m, Leads strHash hj lviews rviews i (matching n agree (offset + i))) :
    probeRows strHash hj lviews rviews m
      = .ok
        { left := ((List.range m).flatMap fun i =>
            rowPairs hj.how n (fun i => agree (offset + i)) i).map Prod.fst
          right := if leftOnly hj.how then [] else
            ((List.range m).flatMap fun i =>
              rowPairs hj.how n (fun i => agree (offset + i)) i).map Prod.snd
          matched := marks hj.how n agree (offset + m) } := by
  unfold probeRows
  induction m with
  | zero =>
    rw [hmatched]
    cases leftOnly hj.how <;> rfl
  | succ m ih =>
    rw [range_succ, foldlM_append, ih fun i hi => hleads i (by omega)]
    have hrow := probeRow_eq n (fun i => agree (offset + i))
      { left := ((List.range m).flatMap fun i =>
          rowPairs hj.how n (fun i => agree (offset + i)) i).map Prod.fst
        right := if leftOnly hj.how then [] else
          ((List.range m).flatMap fun i =>
            rowPairs hj.how n (fun i => agree (offset + i)) i).map Prod.snd
        matched := marks hj.how n agree (offset + m) }
      hcross (hleads m (Nat.lt_succ_self m))
      (by rw [hmatched]; exact length_marks _ _ _ _ _)
      (fun honly => marks_of_leftOnly honly n agree (offset + m))
    have hmark := mark_marks hj.how n agree (offset + m)
    change (probeRow strHash hj lviews rviews _ m).bind (fun out => Except.ok out) = _
    rw [hrow]
    simp only [Pairs.add, flatMap_append, flatMap_cons, flatMap_nil, append_nil, map_append]
    rw [← Nat.add_assoc, ← hmark]
    cases leftOnly hj.how <;> rfl

end HashJoin

end DFTracer.Frames
