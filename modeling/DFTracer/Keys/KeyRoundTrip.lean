/-
# A key comes back from its bytes

The bytes of a key with numbers are read back to the same key by either decoder. Where the texts
behind the numbers are still in the table, what is rendered is the texts, except that a number zero
and a hash of zeros are taken for an absent text.
-/

import DFTracer.Keys.KeyCodec
import DFTracer.Math.Fallible

namespace DFTracer.Keys

open DFTracer.Math List
open DFTracer.Aggregation (Bytes AggMapType parseHex64)
open DFTracer.Interning (StringIntern InternError)

/-- The byte of a kind of row and of an inline hash. -/
def typeByte (mapType : AggMapType) (inline : Bool) : UInt8 :=
  mapTypeByte mapType ||| (if inline then aggKeyFhashInline else 0)

theorem typeByte_inline (mapType : AggMapType) (inline : Bool) :
    (typeByte mapType inline &&& aggKeyFhashInline != 0) = inline := by
  cases mapType <;> cases inline <;> decide

theorem typeByte_mapType (mapType : AggMapType) (inline : Bool) :
    typeByte mapType inline &&& ~~~aggKeyFhashInline = mapTypeByte mapType := by
  cases mapType <;> cases inline <;> decide

/-- The bytes of a file hash. -/
def fhashBytes (key : AggregationKey) : Bytes :=
  if key.fhashInline then putBe64 key.fhash else putVarint key.fhash.toNat

def extraBytes (pairs : List (Nat × Nat)) : Bytes :=
  pairs.flatMap fun (k, v) => putVarint k ++ putVarint v

/-- The bytes of a key in a shard. -/
def keyBytes (shard : UInt16) (mapType : AggMapType) (key : AggregationKey) : Bytes :=
  putBe16 shard ++ (typeByte mapType key.fhashInline :: (putVarint key.catId
    ++ (putVarint key.nameId ++ (putVarint key.pid.toNat ++ (putVarint key.tid.toNat
    ++ (putVarint key.hhashId ++ (fhashBytes key ++ (putVarint key.timeBucket.toNat
    ++ (putBe16 (UInt16.ofNat key.extraKeys.length) ++ extraBytes key.extraKeys)))))))))

/-- The numbers of a key fit where they are kept. -/
structure AggregationKey.Fits (key : AggregationKey) : Prop where
  cat : key.catId < 2 ^ 32
  name : key.nameId < 2 ^ 32
  hhash : key.hhashId < 2 ^ 32
  extra : ∀ p ∈ key.extraKeys, p.1 < 2 ^ 32 ∧ p.2 < 2 ^ 32
  few : key.extraKeys.length < 65536

/-- The encoder of keys of numbers writes these bytes, whatever the cache holds. -/
theorem computeShard_fst (cache : Option ShardCache) (cat name : Bytes) (pid tid : UInt64) :
    (computeShard cache cat name pid tid).1 = shardOf cat name pid tid := by
  cases cache with
  | none => rfl
  | some c =>
    rw [computeShard]
    split
    next same =>
      obtain ⟨rfl, rfl, rfl, rfl⟩ := same
      exact c.right
    next => rfl

theorem wide {n : Nat} (fits : n < 2 ^ 32) : n < 2 ^ 64 := fits.trans (by decide)

theorem readExtraIds_extraBytes : ∀ {pairs : List (Nat × Nat)},
    (∀ p ∈ pairs, p.1 < 2 ^ 32 ∧ p.2 < 2 ^ 32) →
    readExtraIds pairs.length (extraBytes pairs) = some (pairs, []) := by
  intro pairs
  induction pairs with
  | nil => exact fun _ => rfl
  | cons p pairs ih =>
    intro fits
    obtain ⟨hk, hv⟩ := fits p mem_cons_self
    have rest := ih fun q hq => fits q (mem_cons_of_mem p hq)
    have front : extraBytes (p :: pairs) =
        putVarint p.1 ++ (putVarint p.2 ++ extraBytes pairs) := by
      rw [extraBytes, flatMap_cons, append_assoc]
      rfl
    rw [length_cons, readExtraIds, front, varint_putVarint (wide hk)]
    simp only [Option.bind_eq_bind, Option.bind_some, varint_putVarint (wide hv), rest,
      Nat.mod_eq_of_lt hk, Nat.mod_eq_of_lt hv]
    rfl

section Decoding

variable {key : AggregationKey}

theorem toNat_extraLength (fits : key.Fits) :
    (UInt16.ofNat key.extraKeys.length).toNat = key.extraKeys.length := by
  rw [UInt16.toNat_ofNat', Nat.mod_eq_of_lt fits.few]

theorem read_fhashBytes (key : AggregationKey) (rest : Bytes) :
    readFhash key.fhashInline (fhashBytes key ++ rest) = some (key.fhash, rest) := by
  rw [readFhash, fhashBytes]
  cases key.fhashInline with
  | true => exact be64_putBe64 key.fhash rest
  | false =>
    simp only [Bool.false_eq_true, if_false, varint_putVarint key.fhash.toNat_lt,
      Option.map_some, UInt64.ofNat_toNat]

/-- A key comes back from its bytes. -/
theorem deserializeAggKey_keyBytes (fits : key.Fits) (shard : UInt16) (mapType : AggMapType) :
    deserializeAggKey (keyBytes shard mapType key) = some ⟨mapTypeByte mapType, key⟩ := by
  unfold deserializeAggKey keyBytes
  simp only [Option.bind_eq_bind, Option.bind_some, Option.pure_def, be16_putBe16, u8,
    varint_putVarint (wide fits.cat), varint_putVarint (wide fits.name),
    varint_putVarint key.pid.toNat_lt, varint_putVarint key.tid.toNat_lt,
    varint_putVarint (wide fits.hhash), typeByte_inline, read_fhashBytes,
    varint_putVarint key.timeBucket.toNat_lt, toNat_extraLength fits,
    readExtraIds_extraBytes fits.extra, typeByte_mapType, Nat.mod_eq_of_lt fits.cat,
    Nat.mod_eq_of_lt fits.name, Nat.mod_eq_of_lt fits.hhash, UInt64.ofNat_toNat]

end Decoding

/-! ## Views -/

theorem decodeVarint_putVarint {v : Nat} (fits : v < 2 ^ 64) (rest : Bytes) :
    decodeVarint (putVarint v ++ rest) = (v, rest) := Varint.read_write fits rest

theorem ok_bind {ε α β : Type} (a : α) (f : α → Except ε β) : (Except.ok a >>= f) = f a := rfl

section Views

variable {key : AggregationKey} {t : StringIntern}

theorem parseExtraTexts_extraBytes : ∀ {pairs : List (Nat × Nat)},
    (∀ p ∈ pairs, p.1 < 2 ^ 32 ∧ p.2 < 2 ^ 32) →
    parseExtraTexts t pairs.length (extraBytes pairs) = AggregationKey.extraTexts t pairs := by
  intro pairs
  induction pairs with
  | nil => exact fun _ => rfl
  | cons p pairs ih =>
    intro fits
    obtain ⟨k, v⟩ := p
    obtain ⟨hk, hv⟩ := fits (k, v) mem_cons_self
    have rest := ih fun q hq => fits q (mem_cons_of_mem _ hq)
    have front : extraBytes ((k, v) :: pairs) =
        putVarint k ++ (putVarint v ++ extraBytes pairs) := by
      rw [extraBytes, flatMap_cons, append_assoc]
      rfl
    have some : ¬ putVarint k ++ (putVarint v ++ extraBytes pairs) = [] :=
      append_ne_nil_of_left_ne_nil (Varint.write_ne_nil k) _
    rw [length_cons, front, parseExtraTexts, if_neg some]
    simp only [decodeVarint_putVarint (wide hk), decodeVarint_putVarint (wide hv), rest,
      Nat.mod_eq_of_lt hk, Nat.mod_eq_of_lt hv, AggregationKey.extraTexts]

theorem six_le_length (shard : UInt16) (mapType : AggMapType) :
    ¬ (keyBytes shard mapType key).length < 6 := by
  have nonempty := fun n => Varint.length_write_pos n
  have cat := nonempty key.catId
  simp only [keyBytes, putVarint, putBe16, length_append, length_cons]
  omega

theorem parseFhash_fhashBytes {text : Bytes} (rendered : key.fhashStr t = .ok text)
    (before rest : Bytes) : ∃ fhashStr,
      parseFhash t key.fhashInline before (fhashBytes key ++ rest) =
        .ok (some (key.fhash, fhashStr, rest)) ∧
      (if key.fhashInline = false then fhashStr
        else if key.fhash = 0 then [] else formatHex64 key.fhash) = text := by
  rw [AggregationKey.fhashStr] at rendered
  rw [parseFhash, fhashBytes]
  cases inline : key.fhashInline with
  | true =>
    have long : ¬ (putBe64 key.fhash ++ rest).length < 8 := by
      rw [length_append, length_putBe64]
      omega
    refine ⟨before, ?_, ?_⟩
    · rw [if_pos rfl, if_pos rfl, if_neg long, ← length_putBe64 key.fhash, take_left,
        drop_left, shiftIn_putBe64]
    · rw [inline] at rendered
      simp only [Bool.true_eq_false, if_false] at rendered ⊢
      split at rendered
      next zero =>
        cases rendered
        exact if_pos zero
      next other =>
        cases rendered
        exact if_neg other
  | false =>
    rw [inline, if_pos rfl] at rendered
    refine ⟨text, ?_, if_pos rfl⟩
    simp only [Bool.false_eq_true, if_false, decodeVarint_putVarint key.fhash.toNat_lt,
      rendered, UInt64.ofNat_toNat]
    rfl

theorem drop_putBe16 (v : UInt16) (rest : Bytes) : (putBe16 v ++ rest).drop 2 = rest := rfl

/-- A view is read from the bytes of a key, with the texts behind its numbers. -/
theorem parseAggKeyView_keyBytes (fits : key.Fits) (shard : UInt16) (mapType : AggMapType)
    {texts : KeyTexts} (rendered : key.render t = .ok texts)
    (out : AggKeyView) (wantExtraKeys : Bool) :
    ∃ kv, parseAggKeyView (keyBytes shard mapType key) t out wantExtraKeys = .ok (some kv) ∧
      kv.mapType = mapTypeByte mapType ∧
      kv.render = { texts with extraKeys := if wantExtraKeys then texts.extraKeys else [] } := by
  obtain ⟨cat, hcat, rendered⟩ := Math.exists_of_bind rendered
  obtain ⟨name, hname, rendered⟩ := Math.exists_of_bind rendered
  obtain ⟨hhash, hhhash, rendered⟩ := Math.exists_of_bind rendered
  obtain ⟨fhash, hfhash, rendered⟩ := Math.exists_of_bind rendered
  obtain ⟨extraKeys, hextra, rendered⟩ := Math.exists_of_bind rendered
  cases rendered
  obtain ⟨fhashStr, hparsed, htext⟩ := parseFhash_fhashBytes hfhash out.fhashStr
    (putVarint key.timeBucket.toNat ++ (putBe16 (UInt16.ofNat key.extraKeys.length) ++
      extraBytes key.extraKeys))
  have hwanted : parseExtra t wantExtraKeys (putBe16 (UInt16.ofNat key.extraKeys.length) ++
      extraBytes key.extraKeys) = .ok (if wantExtraKeys then extraKeys else []) := by
    cases wantExtraKeys with
    | false => rfl
    | true =>
      have word := (Prod.mk.inj (Option.some.inj
        (be16_putBe16 (UInt16.ofNat key.extraKeys.length) (extraBytes key.extraKeys)))).1
      have texts := parseExtraTexts_extraBytes (t := t) fits.extra
      rw [← toNat_extraLength fits, ← word, hextra] at texts
      exact texts
  refine ⟨⟨mapTypeByte mapType, cat, name, key.pid, key.tid, hhash, key.fhash, key.fhashInline,
    fhashStr, key.timeBucket, if wantExtraKeys then extraKeys else []⟩, ?_, rfl, ?_⟩
  · unfold parseAggKeyView
    rw [if_neg (six_le_length shard mapType)]
    unfold keyBytes
    simp only [drop_putBe16, u8, decodeVarint_putVarint (wide fits.cat),
      decodeVarint_putVarint (wide fits.name), decodeVarint_putVarint key.pid.toNat_lt,
      decodeVarint_putVarint key.tid.toNat_lt, decodeVarint_putVarint (wide fits.hhash),
      typeByte_inline, hparsed, ok_bind, decodeVarint_putVarint key.timeBucket.toNat_lt, hwanted,
      typeByte_mapType, UInt64.ofNat_toNat, Nat.mod_eq_of_lt fits.cat, Nat.mod_eq_of_lt fits.name,
      Nat.mod_eq_of_lt fits.hhash]
    rw [show t.resolve key.catId = .ok cat from hcat,
      show t.resolve key.nameId = .ok name from hname,
      show resolveUnlessZero t key.hhashId = .ok hhash from hhhash]
    rfl
  · rw [AggKeyView.render, fhashText, htext]

end Views

/-! ## What is rendered of a key

A key has the numbers that its texts got. As long as the table resolves them, either decoder
renders the texts, but a text whose number is zero is taken for an absent one, and so is a hash of
zeros. Two keys of texts that are rendered as they are differ in their bytes. -/

/-- The texts that are put into the table, in their order. -/
def KeyTexts.inserted (texts : KeyTexts) : List Bytes :=
  texts.cat :: texts.name :: ((if texts.hhash = [] then [] else [texts.hhash]) ++
    ((if (parseHex64 texts.fhash).isSome ∨ texts.fhash = [] then [] else [texts.fhash]) ++
      texts.extraKeys.flatMap fun (k, v) => [k, v]))

section Numbered

variable (number : Bytes → Nat)

def numberUnlessEmpty (sv : Bytes) : Nat := if sv = [] then 0 else number sv

/-- The key of texts that have numbers. -/
def numberedKey (texts : KeyTexts) : AggregationKey where
  catId := number texts.cat
  nameId := number texts.name
  hhashId := numberUnlessEmpty number texts.hhash
  fhashInline := (parseHex64 texts.fhash).isSome
  pid := texts.pid
  tid := texts.tid
  fhash := (parseHex64 texts.fhash).getD (UInt64.ofNat (numberUnlessEmpty number texts.fhash))
  timeBucket := texts.timeBucket
  extraKeys := texts.extraKeys.map fun (k, v) => (number k, number v)

/-- The texts as they are rendered. -/
def seen (texts : KeyTexts) : KeyTexts where
  cat := texts.cat
  name := texts.name
  pid := texts.pid
  tid := texts.tid
  hhash := if number texts.hhash = 0 then [] else texts.hhash
  fhash := match parseHex64 texts.fhash with
    | some v => if v = 0 then [] else texts.fhash
    | none => if number texts.fhash = 0 then [] else texts.fhash
  timeBucket := texts.timeBucket
  extraKeys := texts.extraKeys

/-- The table has texts behind their numbers. -/
def Resolves (t : StringIntern) (svs : List Bytes) : Prop :=
  ∀ sv ∈ svs, number sv < 2 ^ 32 ∧ t.resolve (number sv) = .ok sv

end Numbered

section Rendering

variable {number : Bytes → Nat} {t : StringIntern} {texts : KeyTexts} {sv : Bytes}

theorem numberUnlessEmpty_lt (h : sv ≠ [] → number sv < 2 ^ 32) :
    numberUnlessEmpty number sv < 2 ^ 32 := by
  rw [numberUnlessEmpty]
  split
  next => decide
  next some => exact h some

/-- A number zero is taken for an absent text. -/
theorem resolve_numberUnlessEmpty
    (h : sv ≠ [] → number sv < 2 ^ 32 ∧ t.resolve (number sv) = .ok sv) :
    resolveUnlessZero t (numberUnlessEmpty number sv) = .ok (if number sv = 0 then [] else sv) := by
  rw [resolveUnlessZero, numberUnlessEmpty]
  by_cases empty : sv = []
  · rw [if_pos empty, if_pos rfl, empty, ite_self]
  · obtain ⟨fits, same⟩ := h empty
    rw [if_neg empty]
    split
    next => rfl
    next => rw [Nat.mod_eq_of_lt fits, same]

theorem extraTexts_map : ∀ {pairs : List (Bytes × Bytes)},
    Resolves number t (pairs.flatMap fun (k, v) => [k, v]) →
    AggregationKey.extraTexts t (pairs.map fun (k, v) => (number k, number v)) = .ok pairs := by
  intro pairs
  induction pairs with
  | nil => exact fun _ => rfl
  | cons p pairs ih =>
    intro h
    obtain ⟨k, v⟩ := p
    have hk := (h k (by simp)).2
    have hv := (h v (by simp)).2
    have rest := ih fun sv hsv => h sv (by
      exact mem_append_right _ hsv)
    rw [map_cons, AggregationKey.extraTexts, hk, hv, rest]
    rfl

section

variable (h : Resolves number t texts.inserted)

include h

theorem Resolves.hhash (some : texts.hhash ≠ []) :
    number texts.hhash < 2 ^ 32 ∧ t.resolve (number texts.hhash) = .ok texts.hhash :=
  h _ (by simp [KeyTexts.inserted, some])

theorem Resolves.fhash
    (plain : parseHex64 texts.fhash = none) (some : texts.fhash ≠ []) :
    number texts.fhash < 2 ^ 32 ∧ t.resolve (number texts.fhash) = .ok texts.fhash :=
  h _ (by simp [KeyTexts.inserted, plain, some])

theorem Resolves.extra :
    Resolves number t (texts.extraKeys.flatMap fun (k, v) => [k, v]) :=
  fun sv hsv => h sv (mem_cons_of_mem _ (mem_cons_of_mem _
    (mem_append_right _ (mem_append_right _ hsv))))

theorem fits_numberedKey
    (few : texts.extraKeys.length < 65536) : (numberedKey number texts).Fits where
  cat := (h texts.cat (by simp [KeyTexts.inserted])).1
  name := (h texts.name (by simp [KeyTexts.inserted])).1
  hhash := numberUnlessEmpty_lt fun some => (h.hhash some).1
  extra := by
    intro p hp
    obtain ⟨⟨k, v⟩, hmem, rfl⟩ := mem_map.mp hp
    have here := fun sv hsv => h.extra sv (mem_flatMap.mpr ⟨(k, v), hmem, hsv⟩)
    exact ⟨(here k (by simp)).1, (here v (by simp)).1⟩
  few := by rwa [numberedKey, length_map]

theorem fhashStr_numberedKey :
    (numberedKey number texts).fhashStr t = .ok (seen number texts).fhash := by
  rw [AggregationKey.fhashStr, numberedKey, seen]
  cases parsed : parseHex64 texts.fhash with
  | some v =>
    simp only [Option.isSome_some, Option.getD_some, Bool.true_eq_false, if_false,
      formatHex64_parseHex64 parsed]
    split <;> rfl
  | none =>
    have small := numberUnlessEmpty_lt fun some => (h.fhash parsed some).1
    have fits : numberUnlessEmpty number texts.fhash < 2 ^ 64 := wide small
    simp only [Option.getD_none, UInt64.toNat_ofNat_of_lt' fits]
    exact resolve_numberUnlessEmpty fun some => h.fhash parsed some

/-- A key is rendered as its texts are seen. -/
theorem render_numberedKey :
    (numberedKey number texts).render t = .ok (seen number texts) := by
  have cat : (numberedKey number texts).cat t = .ok texts.cat :=
    (h texts.cat (by simp [KeyTexts.inserted])).2
  have name : (numberedKey number texts).name t = .ok texts.name :=
    (h texts.name (by simp [KeyTexts.inserted])).2
  have hhash : (numberedKey number texts).hhash t =
      .ok (if number texts.hhash = 0 then [] else texts.hhash) :=
    resolve_numberUnlessEmpty fun some => h.hhash some
  have extra : AggregationKey.extraTexts t (numberedKey number texts).extraKeys =
      .ok texts.extraKeys := extraTexts_map h.extra
  rw [AggregationKey.render, cat, name, hhash, fhashStr_numberedKey h, extra]
  rfl

end

end Rendering

/-- Bytes are rendered as a kind of row and texts, by either decoder and into any old view. -/
structure Renders (t : StringIntern) (data : Bytes) (mapType : AggMapType) (texts : KeyTexts) :
    Prop where
  key : ∃ d, deserializeAggKey data = some d ∧ d.mapType = mapTypeByte mapType ∧
    d.key.render t = .ok texts
  view : ∀ out wantExtraKeys, ∃ kv, parseAggKeyView data t out wantExtraKeys = .ok (some kv) ∧
    kv.mapType = mapTypeByte mapType ∧
    kv.render = { texts with extraKeys := if wantExtraKeys then texts.extraKeys else [] }

theorem mapTypeByte_injective {a b : AggMapType} (same : mapTypeByte a = mapTypeByte b) : a = b := by
  cases a <;> cases b <;> first | rfl | cases same

/-- Bytes are rendered in one way. -/
theorem Renders.unique {t : StringIntern} {data : Bytes} {ma mb : AggMapType} {a b : KeyTexts}
    (ha : Renders t data ma a) (hb : Renders t data mb b) : ma = mb ∧ a = b := by
  obtain ⟨d, hd, kind, rendered⟩ := ha.key
  obtain ⟨d', hd', kind', rendered'⟩ := hb.key
  cases Option.some.inj (hd.symm.trans hd')
  exact ⟨mapTypeByte_injective (kind.symm.trans kind'),
    Except.ok.inj (rendered.symm.trans rendered')⟩

/-- The bytes of texts with numbers are rendered as the texts are seen. -/
theorem renders_numberedKey {number : Bytes → Nat} {t : StringIntern} {texts : KeyTexts}
    (h : Resolves number t texts.inserted) (few : texts.extraKeys.length < 65536)
    (shard : UInt16) (mapType : AggMapType) :
    Renders t (keyBytes shard mapType (numberedKey number texts)) mapType (seen number texts) where
  key := ⟨_, deserializeAggKey_keyBytes (fits_numberedKey h few) shard mapType, rfl,
    render_numberedKey h⟩
  view := fun out wantExtraKeys => parseAggKeyView_keyBytes (fits_numberedKey h few) shard mapType
    (render_numberedKey h) out wantExtraKeys

end DFTracer.Keys
