/-
# Numbers and aggregation keys as bytes

Words stand in bytes with the highest first, and other numbers have variable length. A reader takes
what it needs from the front and fails when bytes are missing. A hash is written as sixteen digits.
-/

import DFTracer.Interning.InternHistory

namespace DFTracer.Keys

open DFTracer.Math List
open DFTracer.Aggregation (Bytes parseHex64 hexDigit)

def putBe16 (v : UInt16) : Bytes := [(v >>> 8).toUInt8, v.toUInt8]

def putBe64 (v : UInt64) : Bytes :=
  [(v >>> 56).toUInt8, (v >>> 48).toUInt8, (v >>> 40).toUInt8, (v >>> 32).toUInt8,
    (v >>> 24).toUInt8, (v >>> 16).toUInt8, (v >>> 8).toUInt8, v.toUInt8]

def putVarint (v : Nat) : Bytes := Varint.write v

def u8 : Bytes → Option (UInt8 × Bytes)
  | [] => none
  | b :: rest => some (b, rest)

def be16 : Bytes → Option (UInt16 × Bytes)
  | high :: low :: rest => some ((high.toUInt16 <<< 8) ||| low.toUInt16, rest)
  | _ => none

/-- A word with the bytes of a list shifted in. -/
def shiftIn (bytes : Bytes) (v : UInt64) : UInt64 :=
  bytes.foldl (fun v b => (v <<< 8) ||| b.toUInt64) v

def be64 (data : Bytes) : Option (UInt64 × Bytes) :=
  if data.length < 8 then none else some (shiftIn (data.take 8) 0, data.drop 8)

def varint (data : Bytes) : Option (Nat × Bytes) := Interning.readVarint data

variable {v : UInt64} {c : UInt8} {d : UInt64}

/-- A byte that is shifted in stands below what there was. -/
theorem toNat_shift_or (fits : v.toNat * 256 < 2 ^ 64) (b : UInt8) :
    ((v <<< 8) ||| b.toUInt64).toNat = v.toNat * 256 + b.toNat := by
  have below : b.toNat < 2 ^ 8 := b.toNat_lt
  simp only [UInt64.toNat_or, UInt64.toNat_shiftLeft, UInt8.toNat_toUInt64, UInt64.reduceToNat,
    Nat.shiftLeft_eq]
  rw [Nat.mod_eq_of_lt fits, Nat.mul_comm, ← Nat.two_pow_add_eq_or_of_lt below]

theorem toNat_shiftIn : ∀ {bytes : Bytes} {v : UInt64},
    (v.toNat + 1) * 256 ^ bytes.length ≤ 2 ^ 64 →
    (shiftIn bytes v).toNat = bytes.foldl (fun n b => n * 256 + b.toNat) v.toNat := by
  intro bytes
  induction bytes with
  | nil => exact fun _ => rfl
  | cons b bytes ih =>
    intro v fits
    have positive : 0 < 256 ^ bytes.length := Nat.pow_pos (by decide)
    have below := b.toNat_lt
    rw [length_cons, Nat.pow_succ, Nat.mul_comm (256 ^ _), ← Nat.mul_assoc] at fits
    have room : v.toNat * 256 < 2 ^ 64 := by
      have := Nat.le_mul_of_pos_right ((v.toNat + 1) * 256) positive
      omega
    have step := toNat_shift_or room b
    have next : (((v <<< 8) ||| b.toUInt64).toNat + 1) * 256 ^ bytes.length ≤ 2 ^ 64 := by
      refine le_trans (Nat.mul_le_mul_right _ ?_) fits
      omega
    have rest := ih next
    rw [step] at rest
    exact rest

theorem be16_putBe16 (v : UInt16) (rest : Bytes) : be16 (putBe16 v ++ rest) = some (v, rest) := by
  have word : ((v >>> 8).toUInt8.toUInt16 <<< 8) ||| v.toUInt8.toUInt16 = v := by
    apply UInt16.toNat_inj.mp
    have wide := v.toNat_lt
    have low : v.toNat % 2 ^ 8 < 2 ^ 8 := Nat.mod_lt _ (by decide)
    simp only [UInt16.toNat_or, UInt16.toNat_shiftLeft, UInt8.toNat_toUInt16, UInt16.toNat_toUInt8,
      UInt16.toNat_shiftRight, UInt16.reduceToNat, Nat.shiftRight_eq_div_pow, Nat.shiftLeft_eq]
    rw [Nat.mod_eq_of_lt (a := v.toNat / 2 ^ 8 % 2 ^ 8 * 2 ^ 8) (by omega), Nat.mul_comm,
      ← Nat.two_pow_add_eq_or_of_lt low]
    omega
  simp only [putBe16, be16, cons_append, nil_append, word]

theorem length_putBe64 (v : UInt64) : (putBe64 v).length = 8 := rfl

theorem shiftIn_putBe64 (v : UInt64) : shiftIn (putBe64 v) 0 = v := by
  apply UInt64.toNat_inj.mp
  have wide := v.toNat_lt
  rw [toNat_shiftIn (by rw [length_putBe64]; decide)]
  simp only [putBe64, foldl_cons, foldl_nil, UInt64.toNat_toUInt8, UInt64.toNat_shiftRight,
    UInt64.reduceToNat, Nat.reduceMod]
  omega

theorem be64_putBe64 (v : UInt64) (rest : Bytes) : be64 (putBe64 v ++ rest) = some (v, rest) := by
  have long : ¬ (putBe64 v ++ rest).length < 8 := by
    rw [length_append, length_putBe64]
    omega
  rw [be64, if_neg long, ← length_putBe64 v, take_left, drop_left, shiftIn_putBe64]

theorem varint_putVarint {v : Nat} (fits : v < 2 ^ 64) (rest : Bytes) :
    varint (putVarint v ++ rest) = some (v, rest) := by
  rw [varint, Interning.readVarint, putVarint, Varint.read_write fits, if_neg]
  rw [all_eq_true]
  intro all
  obtain ⟨b, hb, small⟩ := Interning.exists_last_byte v
  have large := of_decide_eq_true (all b (mem_append_left _ hb))
  omega

/-! ## Digits -/

/-- The digit of a value. -/
def digitOf (d : UInt64) : UInt8 := if d < 10 then 48 + d.toUInt8 else 87 + d.toUInt8

/-- Put digits before others, the lowest of the value last. -/
def formatDigits : Nat → UInt64 → Bytes → Bytes
  | 0, _, out => out
  | n + 1, v, out => formatDigits n (v >>> 4) (digitOf (v &&& 0xF) :: out)

/-- The sixteen digits of a hash. -/
def formatHex64 (v : UInt64) : Bytes := formatDigits 16 v []

theorem hexDigit_lt (h : hexDigit c = some d) : d.toNat < 16 := by
  unfold hexDigit at h
  split at h
  next range =>
    cases h
    have high := UInt8.le_iff_toNat_le.mp range.2
    simp only [UInt8.toNat_toUInt64, UInt8.toNat_sub_of_le _ _ range.1, UInt8.reduceToNat] at *
    omega
  next =>
    split at h
    next range =>
      cases h
      have high := UInt8.le_iff_toNat_le.mp range.2
      simp only [UInt8.toNat_toUInt64, UInt8.toNat_add, UInt8.toNat_sub_of_le _ _ range.1,
        UInt8.reduceToNat] at *
      omega
    next => cases h

theorem digitOf_hexDigit (h : hexDigit c = some d) : digitOf d = c := by
  unfold hexDigit at h
  split at h
  next range =>
    cases h
    have low := UInt8.le_iff_toNat_le.mp range.1
    have high := UInt8.le_iff_toNat_le.mp range.2
    have small : (c - 48).toUInt64 < 10 := by
      rw [UInt64.lt_iff_toNat_lt, UInt8.toNat_toUInt64, UInt8.toNat_sub_of_le _ _ range.1]
      simp only [UInt8.reduceToNat, UInt64.reduceToNat] at *
      omega
    rw [digitOf, if_pos small]
    apply UInt8.toNat_inj.mp
    simp only [UInt8.toNat_add, UInt64.toNat_toUInt8, UInt8.toNat_toUInt64,
      UInt8.toNat_sub_of_le _ _ range.1, UInt8.reduceToNat] at *
    omega
  next =>
    split at h
    next range =>
      cases h
      have low := UInt8.le_iff_toNat_le.mp range.1
      have high := UInt8.le_iff_toNat_le.mp range.2
      have large : ¬ (c - 97 + 10).toUInt64 < 10 := by
        rw [UInt64.lt_iff_toNat_lt, UInt8.toNat_toUInt64, UInt8.toNat_add,
          UInt8.toNat_sub_of_le _ _ range.1]
        simp only [UInt8.reduceToNat, UInt64.reduceToNat] at *
        omega
      rw [digitOf, if_neg large]
      apply UInt8.toNat_inj.mp
      simp only [UInt8.toNat_add, UInt64.toNat_toUInt8, UInt8.toNat_toUInt64,
        UInt8.toNat_sub_of_le _ _ range.1, UInt8.reduceToNat] at *
      omega
    next => cases h

/-- The digits that were parsed stand before what comes after them. -/
theorem formatDigits_parse : ∀ {s : Bytes} {v : UInt64} (out : Bytes), s.length ≤ 16 →
    s.foldlM (fun (v : UInt64) c => (hexDigit c).map fun d => (v <<< 4) ||| d) 0 = some v →
    v.toNat < 16 ^ s.length ∧ formatDigits s.length v out = s ++ out := by
  intro s
  induction s using List.reverseRecOn with
  | nil =>
    intro v out _ h
    cases h
    exact ⟨by decide, rfl⟩
  | append_singleton s c ih =>
    intro v out fits h
    rw [length_append, length_singleton] at fits ⊢
    rw [foldlM_append] at h
    obtain ⟨u, hu, h⟩ := Option.bind_eq_some_iff.mp h
    obtain ⟨w, hw, same⟩ := Option.bind_eq_some_iff.mp h
    cases same
    obtain ⟨d, hd, rfl⟩ := Option.map_eq_some_iff.mp hw
    have small := hexDigit_lt hd
    have power : 16 ^ s.length ≤ 16 ^ 15 := Nat.pow_le_pow_right (by decide) (by omega)
    obtain ⟨below, -⟩ := ih out (by omega) hu
    have value : ((u <<< 4) ||| d).toNat = u.toNat * 16 + d.toNat := by
      have nibble : d.toNat < 2 ^ 4 := small
      simp only [UInt64.toNat_or, UInt64.toNat_shiftLeft, UInt64.reduceToNat, Nat.reduceMod,
        Nat.shiftLeft_eq]
      rw [Nat.mod_eq_of_lt (by omega), Nat.mul_comm, ← Nat.two_pow_add_eq_or_of_lt nibble]
    have high : ((u <<< 4) ||| d) >>> 4 = u := by
      apply UInt64.toNat_inj.mp
      simp only [UInt64.toNat_shiftRight, UInt64.reduceToNat, Nat.reduceMod]
      omega
    have low : ((u <<< 4) ||| d) &&& 0xF = d := by
      apply UInt64.toNat_inj.mp
      have mask : (0xF : UInt64).toNat = 2 ^ 4 - 1 := rfl
      rw [UInt64.toNat_and, mask, Nat.and_two_pow_sub_one_eq_mod]
      omega
    refine ⟨?_, ?_⟩
    · omega
    · rw [formatDigits, high, low, digitOf_hexDigit hd, (ih (c :: out) (by omega) hu).2,
        append_assoc, singleton_append]

/-- A hash that is parsed is written as it was. -/
theorem formatHex64_parseHex64 {s : Bytes} (h : parseHex64 s = some v) :
    formatHex64 v = s := by
  unfold parseHex64 at h
  split at h
  next => cases h
  next long =>
    have length : s.length = 16 := not_not.mp long
    have digits := (formatDigits_parse [] length.le h).2
    rwa [length, append_nil] at digits

/-! ## The bytes of an aggregation key

A row of the store stands under the bytes of its key: a shard, the kind of the row, the numbers of
its texts in the interning table and its own numbers. A file hash of sixteen digits is in the key
itself, which a bit of the kind says. There are two encoders, from texts and from a key of numbers,
and two decoders, and zero stands for an absent text. -/

open DFTracer.Aggregation (Bytes AggMapType parseHex64 fnv1aHash)
open DFTracer.Interning (StringIntern InternError)

/-- What a row is aggregated under, with the texts as they are. -/
structure KeyTexts where
  cat : Bytes
  name : Bytes
  pid : UInt64
  tid : UInt64
  hhash : Bytes
  fhash : Bytes
  timeBucket : UInt64
  extraKeys : List (Bytes × Bytes)
deriving DecidableEq

/-- A key with the numbers of its texts. The file hash is a hash, or a number where it is not
inline. -/
structure AggregationKey where
  catId : Nat
  nameId : Nat
  hhashId : Nat
  fhashInline : Bool
  pid : UInt64
  tid : UInt64
  fhash : UInt64
  timeBucket : UInt64
  extraKeys : List (Nat × Nat)
deriving DecidableEq

def aggKeyFhashInline : UInt8 := 0x80

/-- The byte of a kind of row. -/
def mapTypeByte : AggMapType → UInt8
  | .EVENT => 0
  | .PROFILE => 1
  | .SYSTEM => 2

def aggKeyNumShards : UInt64 := 4096

/-- The bytes of a number in memory. -/
def valueBytes (v : UInt64) : Bytes := (putBe64 v).reverse

/-- The shard of what most rows differ in. -/
def shardOf (cat name : Bytes) (pid tid : UInt64) : UInt16 :=
  (fnv1aHash (cat ++ name ++ valueBytes pid ++ valueBytes tid) % aggKeyNumShards).toUInt16

/-- The last shard that was computed, and of what. -/
structure ShardCache where
  cat : Bytes
  name : Bytes
  pid : UInt64
  tid : UInt64
  shard : UInt16
  right : shard = shardOf cat name pid tid

/-- How long a text of the cache may be. -/
def shardCacheBuffer : Nat := 64

def computeShard (cache : Option ShardCache) (cat name : Bytes) (pid tid : UInt64) :
    UInt16 × Option ShardCache :=
  match cache with
  | some c =>
    if cat = c.cat ∧ name = c.name ∧ pid = c.pid ∧ tid = c.tid then (c.shard, cache)
    else missed
  | none => missed
where
  missed :=
    (shardOf cat name pid tid,
      if cat.length ≤ shardCacheBuffer ∧ name.length ≤ shardCacheBuffer then
        some ⟨cat, name, pid, tid, shardOf cat name pid tid, rfl⟩
      else none)

/-- A step that may insert into the interning table and may throw. -/
abbrev Interned (α : Type) := ExceptT InternError (StateM StringIntern) α

def getOrInsert (sv : Bytes) : Interned Nat := fun t => t.getOrInsert sv

/-- The number of a text that may be absent. -/
def getOrInsertUnlessEmpty (sv : Bytes) : Interned Nat :=
  if sv = [] then pure 0 else getOrInsert sv

/-- The bytes of a file hash, which is kept as it is where it has sixteen digits. -/
def putFhash (fhash : Bytes) : Interned Bytes :=
  match parseHex64 fhash with
  | some v => pure (putBe64 v)
  | none => do
      let id ← getOrInsertUnlessEmpty fhash
      pure (putVarint id)

/-- The numbers of the extra keys and values, as bytes. -/
def putExtraTexts : List (Bytes × Bytes) → Interned Bytes
  | [] => pure []
  | (k, v) :: rest => do
      let k ← getOrInsert k
      let v ← getOrInsert v
      let rest ← putExtraTexts rest
      pure (putVarint k ++ putVarint v ++ rest)

/-- The bytes of a key of texts, whose numbers are put into the interning table. -/
def serializeAggKeyTexts (cache : Option ShardCache) (mapType : AggMapType) (texts : KeyTexts) :
    Interned Bytes := do
  let shard := (computeShard cache texts.cat texts.name texts.pid texts.tid).1
  let numExtra := UInt16.ofNat texts.extraKeys.length
  let inline := (parseHex64 texts.fhash).isSome
  let typeByte := mapTypeByte mapType ||| (if inline then aggKeyFhashInline else 0)
  let catId ← getOrInsert texts.cat
  let nameId ← getOrInsert texts.name
  let hhashId ← getOrInsertUnlessEmpty texts.hhash
  let fhash ← putFhash texts.fhash
  let extra ← putExtraTexts texts.extraKeys
  pure (putBe16 shard ++ [typeByte] ++ putVarint catId ++ putVarint nameId
    ++ putVarint texts.pid.toNat ++ putVarint texts.tid.toNat ++ putVarint hhashId ++ fhash
    ++ putVarint texts.timeBucket.toNat ++ putBe16 numExtra ++ extra)

/-- The bytes of a key of numbers, which the interning table has. -/
def serializeAggKey (cache : Option ShardCache) (mapType : AggMapType) (key : AggregationKey)
    (intern : StringIntern) : Except InternError Bytes := do
  let cat ← intern.resolve key.catId
  let name ← intern.resolve key.nameId
  let typeByte := mapTypeByte mapType ||| (if key.fhashInline then aggKeyFhashInline else 0)
  pure (putBe16 (computeShard cache cat name key.pid key.tid).1 ++ [typeByte]
    ++ putVarint key.catId ++ putVarint key.nameId ++ putVarint key.pid.toNat
    ++ putVarint key.tid.toNat ++ putVarint key.hhashId
    ++ (if key.fhashInline then putBe64 key.fhash else putVarint key.fhash.toNat)
    ++ putVarint key.timeBucket.toNat ++ putBe16 (UInt16.ofNat key.extraKeys.length)
    ++ key.extraKeys.flatMap fun (k, v) => putVarint k ++ putVarint v)

/-! ### Decoding -/

structure DeserializedAggKey where
  mapType : UInt8
  key : AggregationKey

/-- As many pairs of numbers as there must be. -/
def readExtraIds : Nat → Bytes → Option (List (Nat × Nat) × Bytes)
  | 0, data => some ([], data)
  | n + 1, data => do
      let (k, data) ← varint data
      let (v, data) ← varint data
      let (rest, data) ← readExtraIds n data
      pure ((k % 2 ^ 32, v % 2 ^ 32) :: rest, data)

/-- The file hash, or its number. -/
def readFhash (inline : Bool) (data : Bytes) : Option (UInt64 × Bytes) :=
  if inline then be64 data else (varint data).map fun (v, data) => (UInt64.ofNat v, data)

/-- The key behind bytes, unless they are truncated. -/
def deserializeAggKey (data : Bytes) : Option DeserializedAggKey := do
  let (_, data) ← be16 data
  let (typeByte, data) ← u8 data
  let (catId, data) ← varint data
  let (nameId, data) ← varint data
  let (pid, data) ← varint data
  let (tid, data) ← varint data
  let (hhashId, data) ← varint data
  let inline := typeByte &&& aggKeyFhashInline != 0
  let (fhash, data) ← readFhash inline data
  let (timeBucket, data) ← varint data
  let (numExtra, data) ← be16 data
  let (extraKeys, _) ← readExtraIds numExtra.toNat data
  pure {
    mapType := typeByte &&& ~~~aggKeyFhashInline
    key := {
      catId := catId % 2 ^ 32
      nameId := nameId % 2 ^ 32
      hhashId := hhashId % 2 ^ 32
      fhashInline := inline
      pid := UInt64.ofNat pid
      tid := UInt64.ofNat tid
      fhash := fhash
      timeBucket := UInt64.ofNat timeBucket
      extraKeys := extraKeys } }

/-- The text of a number, which is absent for zero. -/
def resolveUnlessZero (intern : StringIntern) (id : Nat) : Except InternError Bytes :=
  if id = 0 then .ok [] else intern.resolve (id % 2 ^ 32)

namespace AggregationKey

def cat (key : AggregationKey) (intern : StringIntern) : Except InternError Bytes :=
  intern.resolve key.catId

def name (key : AggregationKey) (intern : StringIntern) : Except InternError Bytes :=
  intern.resolve key.nameId

def hhash (key : AggregationKey) (intern : StringIntern) : Except InternError Bytes :=
  resolveUnlessZero intern key.hhashId

/-- The text of the file hash. -/
def fhashStr (key : AggregationKey) (intern : StringIntern) : Except InternError Bytes :=
  if key.fhashInline = false then resolveUnlessZero intern key.fhash.toNat
  else if key.fhash = 0 then .ok []
  else .ok (formatHex64 key.fhash)

/-- The texts of the extra keys and values. -/
def extraTexts (intern : StringIntern) : List (Nat × Nat) → Except InternError (List (Bytes × Bytes))
  | [] => .ok []
  | (k, v) :: rest => do
      let k ← intern.resolve k
      let v ← intern.resolve v
      let rest ← extraTexts intern rest
      pure ((k, v) :: rest)

/-- The key as its accessors render it. -/
def render (key : AggregationKey) (intern : StringIntern) : Except InternError KeyTexts := do
  let cat ← key.cat intern
  let name ← key.name intern
  let hhash ← key.hhash intern
  let fhash ← key.fhashStr intern
  let extraKeys ← extraTexts intern key.extraKeys
  pure ⟨cat, name, key.pid, key.tid, hhash, fhash, key.timeBucket, extraKeys⟩

end AggregationKey

/-- A key with its texts, as a scan reads it. -/
structure AggKeyView where
  mapType : UInt8
  cat : Bytes
  name : Bytes
  pid : UInt64
  tid : UInt64
  hhash : Bytes
  fhash : UInt64
  fhashInline : Bool
  fhashStr : Bytes
  timeBucket : UInt64
  extraKeys : List (Bytes × Bytes)

/-- A number at the front of bytes, which their end ends. -/
def decodeVarint (data : Bytes) : Nat × Bytes := Varint.read data

/-- At most as many pairs of texts as there may be, until the bytes end. -/
def parseExtraTexts (intern : StringIntern) : Nat → Bytes →
    Except InternError (List (Bytes × Bytes))
  | 0, _ => .ok []
  | n + 1, data =>
    if data = [] then .ok []
    else do
      let (k, data) := decodeVarint data
      let (v, data) := decodeVarint data
      let k ← intern.resolve (k % 2 ^ 32)
      let v ← intern.resolve (v % 2 ^ 32)
      let rest ← parseExtraTexts intern n data
      pure ((k, v) :: rest)

/-- The file hash of a view and its text, which stays as it was where the hash is inline. -/
def parseFhash (intern : StringIntern) (inline : Bool) (before : Bytes) (data : Bytes) :
    Except InternError (Option (UInt64 × Bytes × Bytes)) :=
  if inline then
    if data.length < 8 then .ok none
    else .ok (some (shiftIn (data.take 8) 0, before, data.drop 8))
  else do
    let (fhash, data) := decodeVarint data
    let fhashStr ← resolveUnlessZero intern fhash
    pure (some (UInt64.ofNat fhash, fhashStr, data))

/-- The extra keys and values of a view, where they are wanted. -/
def parseExtra (intern : StringIntern) (wanted : Bool) (data : Bytes) :
    Except InternError (List (Bytes × Bytes)) :=
  match wanted, data with
  | true, high :: low :: data =>
    parseExtraTexts intern ((high.toUInt16 <<< 8) ||| low.toUInt16).toNat data
  | _, _ => .ok []

/-- Read a view from bytes into an old one, nothing where bytes are missing. -/
def parseAggKeyView (data : Bytes) (intern : StringIntern) (out : AggKeyView)
    (wantExtraKeys : Bool) : Except InternError (Option AggKeyView) := do
  if data.length < 6 then return none
  let some (typeByte, data) := u8 (data.drop 2) | return none
  let inline := typeByte &&& aggKeyFhashInline != 0
  let (catId, data) := decodeVarint data
  let (nameId, data) := decodeVarint data
  let (pid, data) := decodeVarint data
  let (tid, data) := decodeVarint data
  let (hhashId, data) := decodeVarint data
  let some (fhash, fhashStr, data) ← parseFhash intern inline out.fhashStr data | return none
  let (timeBucket, data) := decodeVarint data
  let extraKeys ← parseExtra intern wantExtraKeys data
  let cat ← intern.resolve (catId % 2 ^ 32)
  let name ← intern.resolve (nameId % 2 ^ 32)
  let hhash ← resolveUnlessZero intern (hhashId % 2 ^ 32)
  return some {
    mapType := typeByte &&& ~~~aggKeyFhashInline
    cat := cat
    name := name
    pid := UInt64.ofNat pid
    tid := UInt64.ofNat tid
    hhash := hhash
    fhash := fhash
    fhashInline := inline
    fhashStr := fhashStr
    timeBucket := UInt64.ofNat timeBucket
    extraKeys := extraKeys }

/-- The text of the file hash of a view. -/
def fhashText (kv : AggKeyView) : Bytes :=
  if kv.fhashInline = false then kv.fhashStr
  else if kv.fhash = 0 then []
  else formatHex64 kv.fhash

/-- The view as its texts. -/
def AggKeyView.render (kv : AggKeyView) : KeyTexts :=
  ⟨kv.cat, kv.name, kv.pid, kv.tid, kv.hhash, fhashText kv, kv.timeBucket, kv.extraKeys⟩

end DFTracer.Keys
