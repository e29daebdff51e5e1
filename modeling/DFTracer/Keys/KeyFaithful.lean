/-
# Aggregation keys are faithful

The bytes of a key are rendered as the texts and numbers that were given, by either decoder and
whatever is put into the table later, and two keys have the same bytes only when they are the
same. This fails for a host hash or a file hash whose text has the number zero, and for a file
hash of zeros: they are taken for absent ones.
-/

import DFTracer.Keys.InternedTexts

namespace DFTracer.Keys

open DFTracer.Math
open DFTracer.Aggregation (Bytes AggMapType parseHex64)
open DFTracer.Interning (StringIntern InternError Call after run_represents after_represents)
open DFTracer.Interning.StringIntern (Sound Interns Later GetsZero)

/-- The number of a text in a table. -/
def numbering (t : StringIntern) (sv : Bytes) : Nat := (t.numberOf sv).getD 0

theorem numbering_lt {t : StringIntern} (sound : t.Sound) (sv : Bytes) : numbering t sv < 2 ^ 32 := by
  rw [numbering]
  cases number : t.numberOf sv with
  | none => decide
  | some id => exact (StringIntern.resolve_numberOf sound number).1

/-! ## What an encoder puts in -/

/-- A step puts texts in, and returns a value of the table that any later table has too. -/
def Puts {α : Type} (step : Interned α) (svs : List Bytes) (value : StringIntern → α) : Prop :=
  ∀ t a t', t.Sound → step t = (.ok a, t') →
    Interns t svs t' ∧ ∀ t'', Later t' t'' → a = value t''

namespace Puts

variable {α β : Type}

theorem pure (a : α) : Puts (Pure.pure a) [] fun _ => a := by
  intro t b t' _ h
  cases h
  exact ⟨.nil t, fun _ _ => rfl⟩

/-- A step after another. -/
theorem bind {step : Interned α} {next : α → Interned β} {svs more : List Bytes}
    {value : StringIntern → α} {result : α → StringIntern → β} (first : Puts step svs value)
    (second : ∀ a, Puts (next a) more (result a)) :
    Puts (step >>= next) (svs ++ more) fun t => result (value t) t := by
  intro t b t' sound h
  have expand : (step >>= next) t = ExceptT.bindCont next (step t).1 (step t).2 := rfl
  rw [expand] at h
  cases ran : step t with
  | mk outcome between =>
    rw [ran] at h
    cases outcome with
    | error e => cases h
    | ok a =>
      obtain ⟨interns, same⟩ := first t a between sound ran
      obtain ⟨more, result⟩ := second a between b t' (interns.later.sound sound) h
      refine ⟨interns.append more, fun t'' later => ?_⟩
      rw [result t'' later, same t'' (more.later.trans later)]

theorem of_eq {step : Interned α} {svs svs' : List Bytes} {value value' : StringIntern → α}
    (h : Puts step svs value) (texts : svs = svs') (same : ∀ t, t.Sound → value t = value' t) :
    Puts step svs' value' := by
  cases texts
  intro t a t' sound ran
  obtain ⟨interns, result⟩ := h t a t' sound ran
  refine ⟨interns, fun t'' later => ?_⟩
  rw [result t'' later, same t'' (later.sound (interns.later.sound sound))]

theorem getOrInsert (sv : Bytes) : Puts (getOrInsert sv) [sv] fun t => numbering t sv := by
  intro t id t' sound h
  have first : (t.getOrInsert sv).1 = .ok id := congrArg Prod.fst h
  have same : (t.getOrInsert sv).2 = t' := congrArg Prod.snd h
  subst same
  refine ⟨.cons first (.nil _), fun t'' later => ?_⟩
  have after := (StringIntern.later_getOrInsert t sv).sound sound
  have number := later.numberOf after (StringIntern.numberOf_getOrInsert sound first)
  change id = (t''.numberOf sv).getD 0
  rw [number]
  rfl

theorem getOrInsertUnlessEmpty (sv : Bytes) : Puts (getOrInsertUnlessEmpty sv)
    (if sv = [] then [] else [sv]) fun t => numberUnlessEmpty (numbering t) sv := by
  unfold Keys.getOrInsertUnlessEmpty numberUnlessEmpty
  by_cases empty : sv = []
  · simp only [if_pos empty]
    exact pure 0
  · simp only [if_neg empty]
    exact getOrInsert sv

theorem putFhash (fhash : Bytes) : Puts (putFhash fhash)
    (if (parseHex64 fhash).isSome ∨ fhash = [] then [] else [fhash])
    fun t => if (parseHex64 fhash).isSome then putBe64 ((parseHex64 fhash).getD 0)
      else putVarint (numberUnlessEmpty (numbering t) fhash) := by
  unfold Keys.putFhash
  cases parseHex64 fhash with
  | some v => exact pure (putBe64 v)
  | none =>
    refine ((getOrInsertUnlessEmpty fhash).bind fun id => pure (putVarint id)).of_eq ?_ ?_
    · simp
    · intro t _
      simp

theorem putExtraTexts (pairs : List (Bytes × Bytes)) :
    Puts (putExtraTexts pairs) (pairs.flatMap fun (k, v) => [k, v])
      fun t => extraBytes (pairs.map fun (k, v) => (numbering t k, numbering t v)) := by
  induction pairs with
  | nil => exact pure []
  | cons p pairs ih =>
    obtain ⟨k, v⟩ := p
    have steps := (getOrInsert k).bind fun k => (getOrInsert v).bind fun v =>
      ih.bind fun rest => pure (putVarint k ++ putVarint v ++ rest)
    refine steps.of_eq ?_ ?_
    · simp
    · intro t _
      rfl

/-- An encoder puts the texts of a key in and returns the bytes of their numbers. -/
theorem serializeAggKeyTexts (cache : Option ShardCache) (mapType : AggMapType)
    (texts : KeyTexts) : Puts (serializeAggKeyTexts cache mapType texts) texts.inserted
      fun t => keyBytes (shardOf texts.cat texts.name texts.pid texts.tid) mapType
        (numberedKey (numbering t) texts) := by
  have steps := (getOrInsert texts.cat).bind fun catId => (getOrInsert texts.name).bind fun nameId =>
    (getOrInsertUnlessEmpty texts.hhash).bind fun hhashId => (putFhash texts.fhash).bind fun fhash =>
    (putExtraTexts texts.extraKeys).bind fun extra => pure
      (putBe16 (computeShard cache texts.cat texts.name texts.pid texts.tid).1 ++
        [typeByte mapType (parseHex64 texts.fhash).isSome] ++ putVarint catId ++ putVarint nameId
        ++ putVarint texts.pid.toNat ++ putVarint texts.tid.toNat ++ putVarint hhashId ++ fhash
        ++ putVarint texts.timeBucket.toNat ++ putBe16 (UInt16.ofNat texts.extraKeys.length)
        ++ extra)
  refine steps.of_eq ?_ ?_
  · simp [KeyTexts.inserted]
  · intro t sound
    have small : numberUnlessEmpty (numbering t) texts.fhash < 2 ^ 32 :=
      numberUnlessEmpty_lt fun _ => numbering_lt sound texts.fhash
    have fhash : fhashBytes (numberedKey (numbering t) texts) =
        if (parseHex64 texts.fhash).isSome then putBe64 ((parseHex64 texts.fhash).getD 0)
        else putVarint (numberUnlessEmpty (numbering t) texts.fhash) := by
      rw [fhashBytes, numberedKey]
      cases parseHex64 texts.fhash with
      | some v => rfl
      | none => simp [UInt64.toNat_ofNat_of_lt' (wide small)]
    rw [computeShard_fst, keyBytes, fhash]
    simp only [numberedKey, List.length_map, List.append_assoc, List.cons_append, List.nil_append]

end Puts

/-- No text of a key is taken for an absent one when it is put into this table. -/
structure Plain (t : StringIntern) (texts : KeyTexts) : Prop where
  hhash : texts.hhash ≠ [] → ¬ t.GetsZero texts.cat texts.hhash
  fhash : parseHex64 texts.fhash = none → texts.fhash ≠ [] → ¬ t.GetsZero texts.cat texts.fhash
  zeros : parseHex64 texts.fhash ≠ some 0

section Encoded

variable {cache : Option ShardCache} {mapType : AggMapType} {texts : KeyTexts}
  {t t' : StringIntern} {data : Bytes}

section

variable (interns : Interns t texts.inserted t') (sound : t.Sound)

include interns sound

/-- A text that was put in is taken for an absent one exactly when it got the number zero. -/
theorem blank_iff (sv : Bytes)
    (inside : sv ≠ [] → sv ∈ texts.inserted) :
    (if numbering t' sv = 0 then [] else sv) = sv ↔ (sv ≠ [] → ¬ t.GetsZero texts.cat sv) := by
  by_cases empty : sv = []
  · rw [empty, ite_self]
    exact ⟨fun _ absent => absurd rfl absent, fun _ => rfl⟩
  · obtain ⟨id, number⟩ := interns.exists_number sound sv (inside empty)
    have zero := interns.numberOf_eq_zero sound (inside empty)
    rw [number, Option.some.injEq] at zero
    rw [numbering, number, Option.getD_some, ← zero]
    by_cases none : id = 0
    · rw [if_pos none]
      exact ⟨fun same => absurd same.symm empty, fun some => absurd none (some empty)⟩
    · rw [if_neg none]
      exact ⟨fun _ _ => none, fun _ => rfl⟩

theorem seen_eq_iff :
    seen (numbering t') texts = texts ↔ Plain t texts := by
  have hhash := blank_iff interns sound texts.hhash fun some => by
    simp [KeyTexts.inserted, some]
  have fhash : (seen (numbering t') texts).fhash = texts.fhash ↔
      (parseHex64 texts.fhash = none → texts.fhash ≠ [] → ¬ t.GetsZero texts.cat texts.fhash) ∧
        parseHex64 texts.fhash ≠ some 0 := by
    rw [seen]
    cases parsed : parseHex64 texts.fhash with
    | none =>
      have plain := blank_iff interns sound texts.fhash fun some => by
        simp [KeyTexts.inserted, parsed, some]
      simp only [plain]
      simp
    | some v =>
      have digits : texts.fhash ≠ [] := by
        intro empty
        rw [empty] at parsed
        cases parsed
      by_cases zero : v = 0
      · simp [Ne.symm digits]
      · simp [zero]
  constructor
  · intro same
    have split := fhash.mp (congrArg KeyTexts.fhash same)
    exact ⟨hhash.mp (congrArg KeyTexts.hhash same), split.1, split.2⟩
  · intro plain
    have first := hhash.mpr plain.hhash
    have second := fhash.mpr ⟨plain.fhash, plain.zeros⟩
    rw [seen] at second ⊢
    rw [first]
    simp only at second
    rw [second]

/-- The table has the texts of an encoded key behind their numbers. -/
theorem resolves_numbering
    {t'' : StringIntern} (later : Later t' t'') :
    Resolves (numbering t') t'' texts.inserted := by
  intro sv hsv
  have after := interns.later.sound sound
  obtain ⟨id, number⟩ := interns.exists_number sound sv hsv
  have still := StringIntern.resolve_numberOf (later.sound after) (later.numberOf after number)
  rw [numbering, number]
  exact still

end

/-- The bytes of a key are rendered as its texts are seen. -/
theorem renders_seen (sound : t.Sound) (few : texts.extraKeys.length < 65536)
    (encoded : serializeAggKeyTexts cache mapType texts t = (.ok data, t')) {t'' : StringIntern}
    (later : Later t' t'') : Renders t'' data mapType (seen (numbering t') texts) := by
  obtain ⟨interns, result⟩ := Puts.serializeAggKeyTexts cache mapType texts t data t' sound encoded
  rw [result t' (.refl t')]
  exact renders_numberedKey (resolves_numbering interns sound later) few _ mapType

end Encoded

/-- The table after calls. -/
def runs (calls : List Call) (t : StringIntern) : StringIntern :=
  calls.foldl (fun t call => (call.run t).2) t

theorem later_runs (calls : List Call) (t : StringIntern) : Later t (runs calls t) :=
  fun _ represents => run_represents calls represents

/-- A row's kind and what it is aggregated under. -/
abbrev Row := AggMapType × KeyTexts

/-- The bytes of two keys, the second of which is encoded in a later table, are equal exactly when
the keys are, and they are rendered as the keys whatever is called later. -/
structure Faithful (a b : Row) (ka kb : Bytes) (ta tb : StringIntern) : Prop where
  bytes : ka = kb ↔ a = b
  first : ∀ calls, Renders (runs calls ta) ka a.1 a.2
  second : ∀ calls, Renders (runs calls tb) kb b.1 b.2

/-- Two keys are faithful exactly when no host hash and no file hash of them gets the number zero
and no file hash is zero. -/
theorem keysFaithful_iff (calls more : List Call) (ca cb : Option ShardCache) (a b : Row)
    (fewA : a.2.extraKeys.length < 65536) (fewB : b.2.extraKeys.length < 65536)
    {ka kb : Bytes} {ta tb : StringIntern}
    (encodedA : serializeAggKeyTexts ca a.1 a.2 (after calls) = (.ok ka, ta))
    (encodedB : serializeAggKeyTexts cb b.1 b.2 (runs more ta) = (.ok kb, tb)) :
    Faithful a b ka kb ta tb ↔ Plain (after calls) a.2 ∧ Plain (runs more ta) b.2 := by
  have start : (after calls).Sound := after_represents calls
  obtain ⟨internsA, resultA⟩ := Puts.serializeAggKeyTexts ca a.1 a.2 _ _ _ start encodedA
  have soundA := internsA.later.sound start
  have between := (later_runs more ta).sound soundA
  obtain ⟨internsB, resultB⟩ := Puts.serializeAggKeyTexts cb b.1 b.2 _ _ _ between encodedB
  have later : Later ta tb := (later_runs more ta).trans internsB.later
  rw [← seen_eq_iff internsA start, ← seen_eq_iff internsB between]
  constructor
  · intro faithful
    have seenA := renders_seen start fewA encodedA (.refl ta)
    have seenB := renders_seen between fewB encodedB (.refl tb)
    exact ⟨(seenA.unique (faithful.first [])).2, (seenB.unique (faithful.second [])).2⟩
  · rintro ⟨plainA, plainB⟩
    constructor
    · constructor
      · intro same
        have readA := renders_seen start fewA encodedA later
        have readB := renders_seen between fewB encodedB (.refl tb)
        rw [same, plainA] at readA
        rw [plainB] at readB
        have rows := readA.unique readB
        exact Prod.ext rows.1 rows.2
      · rintro rfl
        rw [resultA tb later, resultB tb (.refl tb)]
    · intro calls'
      have read := renders_seen start fewA encodedA (later_runs calls' ta)
      rwa [plainA] at read
    · intro calls'
      have read := renders_seen between fewB encodedB (later_runs calls' tb)
      rwa [plainB] at read

theorem eq_of_fst {α β : Type} {x : α × β} {a : α} (first : x.1 = a) : x = (a, x.2) := by
  cases first
  rfl

/-- A row with digits, a host and an extra key. -/
def digitsRow : Row :=
  (.EVENT, ⟨[97], [98], 1, 2, [99], List.replicate 16 49, 5, [([107], [118])]⟩)

/-- The table after a row is encoded. -/
abbrev tableAfter (row : Row) (t : StringIntern) : StringIntern :=
  (serializeAggKeyTexts none row.1 row.2 t).2

/-- The row put into a table without strings and once more. -/
theorem keysFaithful_iff_twice :
    Faithful digitsRow digitsRow
        [6, 233, 128, 0, 1, 1, 2, 2, 17, 17, 17, 17, 17, 17, 17, 17, 5, 0, 1, 3, 4]
        [6, 233, 128, 0, 1, 1, 2, 2, 17, 17, 17, 17, 17, 17, 17, 17, 5, 0, 1, 3, 4]
        (tableAfter digitsRow (after []))
        (tableAfter digitsRow (runs [] (tableAfter digitsRow (after [])))) ↔
      Plain (after []) digitsRow.2 ∧ Plain (runs [] (tableAfter digitsRow (after []))) digitsRow.2 :=
  keysFaithful_iff [] [] none none _ _ (by decide) (by decide)
    (eq_of_fst (by decide +kernel)) (eq_of_fst (by decide +kernel))

/-- A key whose file hash is sixteen zeros. -/
def zeroHash : KeyTexts := ⟨[], [], 0, 0, [], List.replicate 16 48, 0, []⟩

/-- The file hash of zeros is rendered as an absent one. -/
theorem zeroHash_not_faithful :
    ¬ ∀ (calls more : List Call) (ca cb : Option ShardCache) (a b : Row) (ka kb : Bytes)
      (ta tb : StringIntern), a.2.extraKeys.length < 65536 → b.2.extraKeys.length < 65536 →
      serializeAggKeyTexts ca a.1 a.2 (after calls) = (.ok ka, ta) →
      serializeAggKeyTexts cb b.1 b.2 (runs more ta) = (.ok kb, tb) →
      Faithful a b ka kb ta tb := by
  intro all
  have encoded : serializeAggKeyTexts none .EVENT zeroHash (after []) =
      (.ok [4, 101, 128, 0, 0, 0, 0, 0, 0, 0, 0, 0, 0, 0, 0, 0, 0, 0, 0],
        tableAfter (.EVENT, zeroHash) (after [])) :=
    eq_of_fst (by decide +kernel)
  have again : serializeAggKeyTexts none .EVENT zeroHash
      (runs [] (tableAfter (.EVENT, zeroHash) (after []))) =
      (.ok [4, 101, 128, 0, 0, 0, 0, 0, 0, 0, 0, 0, 0, 0, 0, 0, 0, 0, 0],
        tableAfter (.EVENT, zeroHash) (runs [] (tableAfter (.EVENT, zeroHash) (after [])))) :=
    eq_of_fst (by decide +kernel)
  have faithful := all [] [] none none (.EVENT, zeroHash) (.EVENT, zeroHash) _ _ _ _ (by decide)
    (by decide) encoded again
  have read := renders_seen (after_represents []) (by decide) encoded (.refl _)
  have same := congrArg KeyTexts.fhash (read.unique (faithful.first [])).2
  cases same

end DFTracer.Keys
