/-
# Keys of a join

Rows whose keys have the same values have the same hash, and the comparison of keys,
word by word or byte by byte, decides whether the values are the same. So it does not
matter which of the lookups is chosen, as long as each leads to the rows of a hash.
-/

import DFTracer.Frames.HashJoin

namespace DFTracer.Frames

open List

/-- Words of bytes of one length are the same only for the same bytes. -/
theorem wordOf_inj {a b : Bytes} (hlength : a.length = b.length) (hsmall : a.length ≤ 8)
    (h : wordOf a = wordOf b) : a = b := by
  have hdigits (c : Bytes) : ∀ d ∈ c.map UInt8.toNat, d < 256 := by
    intro d hd
    obtain ⟨x, _, rfl⟩ := mem_map.mp hd
    exact UInt8.toNat_lt x
  have hbound (c : Bytes) (hc : c.length ≤ 8) : Nat.ofDigits 256 (c.map UInt8.toNat) < 2 ^ 64 := by
    have hlt := Nat.ofDigits_lt_base_pow_length (by decide : 1 < 256) (hdigits c)
    rw [length_map] at hlt
    exact Nat.lt_of_lt_of_le hlt (Nat.pow_le_pow_right (by decide : 0 < 256) hc)
  have hnat := congrArg UInt64.toNat h
  rw [wordOf, wordOf, UInt64.toNat_ofNat_of_lt' (hbound a hsmall),
    UInt64.toNat_ofNat_of_lt' (hbound b (hlength ▸ hsmall))] at hnat
  have hmap := Nat.ofDigits_inj_of_len_eq (by decide : 1 < 256) (by simpa using hlength)
    (hdigits a) (hdigits b) hnat
  exact map_injective_iff.mpr (fun x y hxy => UInt8.toNat_inj.mp hxy) hmap

/-- The bytes of a row of a buffer in which all rows have the same width. -/
theorem fixedBytes_flatMap {α : Type} (f : α → Bytes) {w : Nat} (xs : List α)
    (hw : ∀ x ∈ xs, (f x).length = w) {i : Nat} {x : α} (hx : xs[i]? = some x) :
    KeyView.fixedBytes (xs.flatMap f) w i = f x := by
  unfold KeyView.fixedBytes
  induction xs generalizing i with
  | nil => cases hx
  | cons y ys ih =>
    have hy := hw y mem_cons_self
    cases i with
    | zero =>
      have hxy : y = x := Option.some.inj hx
      rw [Nat.zero_mul, ← hxy]
      exact take_left' hy
    | succ i =>
      rw [flatMap_cons, Nat.succ_mul, Nat.add_comm, ← drop_drop, drop_left' hy]
      exact ih (fun z hz => hw z (mem_cons_of_mem y hz)) hx

/-! ## The views of key columns -/

section Views

open KeyView

variable {c lc rc : Series} {i r : Nat} {a b : Bytes}

theorem ofSeries_cells (c : Series) : (ofSeries c).cells = c.cells := by
  unfold ofSeries
  split_ifs <;> rfl

theorem isNull_ofSeries (c : Series) (i : Nat) : (ofSeries c).isNull i = (c.cell i).isNone := by
  rw [isNull, ofSeries_cells]
  rfl

theorem bytes_ofSeries (h : c.cell i = some a) : (ofSeries c).bytes i = a := by
  rw [bytes, ofSeries_cells]
  change (c.cell i).getD [] = a
  rw [h]
  rfl

/-- A type with values that are no texts has a width. -/
theorem isSome_byteWidth {t : TypeId} {fixedSize : Int} (orderable : isOrderableType t)
    (hvar : ¬(narrowVarwidthType t = .String ∨ narrowVarwidthType t = .Binary))
    (known : t = .FixedSizeBinary → 0 ≤ fixedSize) : (byteWidth t fixedSize).isSome := by
  cases t
  case FixedSizeBinary =>
    rw [byteWidth, if_pos (known rfl)]
    rfl
  all_goals first
    | rfl
    | exact absurd (.inl rfl) hvar
    | exact absurd (.inr rfl) hvar
    | exact absurd orderable Bool.false_ne_true

/-- How a column is viewed: as texts, as booleans, or as values of one width. -/
theorem ofSeries_cases (sized : c.Sized) (orderable : isOrderableType c.type) :
    ((ofSeries c).kind = .Str32 ∨ (ofSeries c).kind = .Str64)
      ∨ ((ofSeries c).kind = .Bool ∧ c.type = .Bool)
      ∨ (ofSeries c).kind = .Fixed ∧ byteWidth c.type c.fixedSize = some (ofSeries c).width := by
  by_cases hvar : narrowVarwidthType c.type = .String ∨ narrowVarwidthType c.type = .Binary
  · apply Or.inl
    rw [ofSeries, if_pos hvar]
    by_cases hwide : c.type = .LargeString ∨ c.type = .LargeBinary
    · exact .inr (if_pos hwide)
    · exact .inl (if_neg hwide)
  · apply Or.inr
    rw [ofSeries, if_neg hvar]
    by_cases hbool : c.type = .Bool
    · exact .inl ⟨by rw [if_pos hbool], hbool⟩
    · obtain ⟨w, hw⟩ := Option.isSome_iff_exists.mp (isSome_byteWidth orderable hvar sized.known)
      rw [if_neg hbool, hw]
      exact .inr ⟨rfl, rfl⟩

/-- The values of a fixed-width column lie one after the other. -/
theorem fixedBytes_ofSeries (sized : c.Sized)
    (hwidth : byteWidth c.type c.fixedSize = some (ofSeries c).width) (h : c.cell i = some a) :
    fixedBytes (ofSeries c).data (ofSeries c).width i = a ∧ a.length = (ofSeries c).width := by
  have hlength (b : Bytes) (hb : some b ∈ c.cells) : b.length = (ofSeries c).width :=
    sized.width b hb _ hwidth
  have hcell : c.cells[i]? = some (some a) := Option.join_eq_some_iff.mp h
  constructor
  · rw [data, ofSeries_cells]
    apply fixedBytes_flatMap (fun cell : Option Bytes =>
      cell.getD (List.replicate (ofSeries c).width 0)) c.cells _ hcell
    intro cell hin
    cases cell with
    | none => exact length_replicate
    | some b => exact hlength b hin
  · exact hlength a (Series.mem_of_cell h)

/-- Columns of one type are viewed alike. -/
theorem ofSeries_congr (htype : lc.type = rc.type) (hsize : lc.fixedSize = rc.fixedSize) :
    (ofSeries lc).kind = (ofSeries rc).kind ∧ (ofSeries lc).width = (ofSeries rc).width := by
  unfold ofSeries
  rw [htype, hsize]
  split_ifs <;> exact ⟨rfl, rfl⟩

/-- The same value has the same hash in columns of one type. -/
theorem hash_congr (strHash : Bytes → UInt64) (htype : lc.type = rc.type)
    (hsize : lc.fixedSize = rc.fixedSize) (lsized : lc.Sized) (rsized : rc.Sized)
    (orderable : isOrderableType lc.type) (hl : lc.cell i = some a) (hr : rc.cell r = some a) :
    (ofSeries lc).hash strHash i = (ofSeries rc).hash strHash r := by
  obtain ⟨hkind, hwidth⟩ := ofSeries_congr htype hsize
  unfold KeyView.hash
  rw [← hkind, ← hwidth, KeyView.bit, KeyView.bit, bytes_ofSeries hl, bytes_ofSeries hr]
  rcases ofSeries_cases lsized orderable with (hstr | hstr) | ⟨hbool, _⟩ | ⟨hfixed, hw⟩
  · rw [hstr]
  · rw [hstr]
  · rw [hbool]
  · have hw' : byteWidth rc.type rc.fixedSize = some (ofSeries rc).width := by
      rw [← htype, ← hsize, hw, hwidth]
    have hleft := (fixedBytes_ofSeries lsized hw hl).1
    have hright := (fixedBytes_ofSeries rsized hw' hr).1
    rw [← hwidth] at hright
    rw [hleft, hright]

/-- The comparison of two keys decides whether they have the same value. -/
theorem equals_iff (htype : lc.type = rc.type) (hsize : lc.fixedSize = rc.fixedSize)
    (lsized : lc.Sized) (rsized : rc.Sized) (orderable : isOrderableType lc.type)
    (hl : lc.cell i = some a) (hr : rc.cell r = some b) :
    (ofSeries lc).equals i (ofSeries rc) r = (a == b) := by
  obtain ⟨hkind, hwidth⟩ := ofSeries_congr htype hsize
  unfold KeyView.equals
  rw [KeyView.bit, KeyView.bit, bytes_ofSeries hl, bytes_ofSeries hr]
  rcases ofSeries_cases lsized orderable with (hstr | hstr) | ⟨hbool, hisBool⟩ | ⟨hfixed, hw⟩
  · rw [hstr]
  · rw [hstr]
  · rw [hbool]
    rcases lsized.bool a (Series.mem_of_cell hl) hisBool with rfl | rfl
    all_goals rcases rsized.bool b (Series.mem_of_cell hr) (htype ▸ hisBool) with rfl | rfl
    all_goals rfl
  · have hw' : byteWidth rc.type rc.fixedSize = some (ofSeries rc).width := by
      rw [← htype, ← hsize, hw, hwidth]
    obtain ⟨hleft, hla⟩ := fixedBytes_ofSeries lsized hw hl
    obtain ⟨hright, hrb⟩ := fixedBytes_ofSeries rsized hw' hr
    rw [← hwidth] at hright hrb
    rw [hfixed]
    rw [hleft, hright]
    by_cases hword : (ofSeries lc).width = 8 ∨ (ofSeries lc).width = 4
    · rw [if_pos hword, Bool.eq_iff_iff, beq_iff_eq, beq_iff_eq]
      constructor
      · exact wordOf_inj (hla.trans hrb.symm) (by omega)
      · exact congrArg wordOf
    · rw [if_neg hword]

end Views

/-! ## Several key columns -/

/-- Key columns of equal types, with values that can be keyed on. -/
structure KeysFit (lefts rights : List Series) : Prop where
  typed : lefts.map (fun c => (c.type, c.fixedSize)) = rights.map fun c => (c.type, c.fixedSize)
  orderable : ∀ c ∈ rights, isOrderableType c.type
  leftSized : ∀ c ∈ lefts, c.Sized
  rightSized : ∀ c ∈ rights, c.Sized

section Keys

open KeyView

variable {lefts rights : List Series} {i r : Nat}

theorem KeysFit.tail {lc rc : Series} (h : KeysFit (lc :: lefts) (rc :: rights)) :
    KeysFit lefts rights where
  typed := (List.cons.inj h.typed).2
  orderable := fun c hc => h.orderable c (mem_cons_of_mem rc hc)
  leftSized := fun c hc => h.leftSized c (mem_cons_of_mem lc hc)
  rightSized := fun c hc => h.rightSized c (mem_cons_of_mem rc hc)

theorem KeysFit.length_eq (h : KeysFit lefts rights) : lefts.length = rights.length := by
  have := congrArg List.length h.typed
  rwa [length_map, length_map] at this

theorem KeysFit.leftOrderable (h : KeysFit lefts rights) : ∀ c ∈ lefts, isOrderableType c.type := by
  intro c hc
  have hmem : (c.type, c.fixedSize) ∈ rights.map fun c => (c.type, c.fixedSize) := by
    rw [← h.typed]
    exact mem_map_of_mem hc
  obtain ⟨rc, hrc, hsame⟩ := mem_map.mp hmem
  rw [← (Prod.mk.inj hsame).1]
  exact h.orderable rc hrc

theorem keyViews_eq {keys : List Series} (orderable : ∀ c ∈ keys, isOrderableType c.type) :
    keyViews keys = .ok (keys.map ofSeries) := by
  unfold keyViews
  induction keys with
  | nil => rfl
  | cons c keys ih =>
    have hc : KeyView.new c = .ok (ofSeries c) := by
      rw [KeyView.new, orderable c mem_cons_self]
      rfl
    rw [mapM_cons, hc, ih fun d hd => orderable d (mem_cons_of_mem c hd)]
    rfl

theorem anyNull_eq (keys : List Series) (i : Nat) :
    anyNull (keys.map ofSeries) i = keys.any fun c => (c.cell i).isNone := by
  have hnull : ((fun k : KeyView => k.isNull i) ∘ ofSeries) = fun c => (c.cell i).isNone := by
    funext c
    exact isNull_ofSeries c i
  rw [anyNull, any_map, hnull]

/-- Fold the hashes of several keys into one. -/
def combineHashes : List UInt64 → UInt64
  | [h] => h
  | hs => hs.foldl hashCombine 0

theorem rowHash_eq (strHash : Bytes → UInt64) (keys : List KeyView) (i : Nat) :
    rowHash strHash keys i = combineHashes (keys.map fun k => k.hash strHash i) := by
  rcases keys with _ | ⟨k, _ | ⟨k', keys⟩⟩
  · simp only [rowHash, combineHashes, map_nil, foldl_nil]
  · rfl
  · simp only [rowHash, combineHashes, map_cons, foldl_cons, foldl_map]

theorem rowHash_of_match (strHash : Bytes → UInt64) (fit : KeysFit lefts rights)
    (h : keyMatch lefts rights i r) :
    rowHash strHash (lefts.map ofSeries) i = rowHash strHash (rights.map ofSeries) r := by
  rw [rowHash_eq, rowHash_eq, map_map, map_map]
  congr 1
  induction lefts generalizing rights with
  | nil =>
    rw [eq_nil_of_length_eq_zero fit.length_eq.symm]
    rfl
  | cons lc lefts ih =>
    cases rights with
    | nil => cases fit.length_eq
    | cons rc rights =>
      rw [keyMatch, zip_cons_cons, all_cons, Bool.and_eq_true, Bool.and_eq_true,
        beq_iff_eq] at h
      obtain ⟨⟨hsome, hsame⟩, hrest⟩ := h
      obtain ⟨a, ha⟩ := Option.isSome_iff_exists.mp hsome
      obtain ⟨htype, hsize⟩ := Prod.mk.inj (List.cons.inj fit.typed).1
      rw [map_cons, map_cons, ih fit.tail hrest]
      congr 1
      exact hash_congr strHash htype hsize (fit.leftSized lc mem_cons_self)
        (fit.rightSized rc mem_cons_self)
        (htype ▸ fit.orderable rc mem_cons_self) ha (hsame ▸ ha)

/-- Rows match exactly when no key is null and the comparison says that they are equal. -/
theorem keyMatch_eq (fit : KeysFit lefts rights) :
    keyMatch lefts rights i r
      = (!anyNull (lefts.map ofSeries) i && !anyNull (rights.map ofSeries) r
          && rowsEqual (lefts.map ofSeries) i (rights.map ofSeries) r) := by
  rw [anyNull_eq, anyNull_eq]
  unfold keyMatch rowsEqual
  induction lefts generalizing rights with
  | nil =>
    rw [eq_nil_of_length_eq_zero fit.length_eq.symm]
    rfl
  | cons lc lefts ih =>
    cases rights with
    | nil => cases fit.length_eq
    | cons rc rights =>
      rw [zip_cons_cons, all_cons, ih fit.tail, map_cons, map_cons,
        zip_cons_cons, all_cons, any_cons, any_cons]
      cases hl : lc.cell i with
      | none => simp
      | some a =>
        cases hr : rc.cell r with
        | none => simp
        | some b =>
          obtain ⟨htype, hsize⟩ := Prod.mk.inj (List.cons.inj fit.typed).1
          rw [equals_iff htype hsize (fit.leftSized lc mem_cons_self)
            (fit.rightSized rc mem_cons_self)
            (htype ▸ fit.orderable rc mem_cons_self) hl hr]
          simp only [Option.some_beq_some]
          cases a == b <;> simp

end Keys

end DFTracer.Frames
