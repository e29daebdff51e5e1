/-
# Eviction policies and the member decode cache

A policy orders the keys of a bounded cache. The cache touches a key that is inserted or used
and pops the key to evict next. LRU keeps the keys by their last use; CLOCK sweeps a ring of keys
and passes over those that have been used since the last sweep.
-/

import DFTracer.Math.Table

namespace DFTracer.Cache

open List

inductive EvictionKind
  | LRU
  | CLOCK
  deriving DecidableEq

/-- A key of the ring, with its reference bit. -/
structure Slot (κ : Type) where
  key : κ
  ref : Bool

/-- The state of a policy: the keys from the most recently used one, or the ring, as what is
before the hand and what is from the hand on. -/
inductive EvictionPolicy (κ : Type) where
  | lru (order : List κ)
  | clock (swept ahead : List (Slot κ))

namespace EvictionPolicy

variable {κ : Type} {p : EvictionPolicy κ}

def makeEvictionPolicy : EvictionKind → EvictionPolicy κ
  | .CLOCK => .clock [] []
  | .LRU => .lru []

/-- The keys that the policy tracks. -/
def keys : EvictionPolicy κ → List κ
  | lru order => order
  | clock swept ahead => (swept ++ ahead).map Slot.key

/-- Set the reference bit of a key. -/
def refer [DecidableEq κ] (key : κ) (ring : List (Slot κ)) : List (Slot κ) :=
  ring.map fun slot => if slot.key = key then { slot with ref := true } else slot

/-- Record an insert or an access. A new key of the ring comes last, which is before the hand
when the hand is at the end. -/
def touch [DecidableEq κ] (key : κ) : EvictionPolicy κ → EvictionPolicy κ
  | lru order => lru (key :: order.erase key)
  | clock swept ahead =>
    if key ∈ (swept ++ ahead).map Slot.key then clock (refer key swept) (refer key ahead)
    else if ahead = [] then clock (swept ++ [⟨key, true⟩]) []
    else clock swept (ahead ++ [⟨key, true⟩])

/-- Move the hand on, up to a number of steps. -/
def sweep : Nat → List (Slot κ) → List (Slot κ) → Option (κ × EvictionPolicy κ)
  | 0, _, _ => none
  | steps + 1, swept, slot :: rest =>
    if slot.ref then sweep steps (swept ++ [{ slot with ref := false }]) rest
    else some (slot.key, clock swept rest)
  | steps + 1, swept, [] =>
    match swept with
    | [] => none
    | slot :: rest =>
      if slot.ref then sweep steps [{ slot with ref := false }] rest
      else some (slot.key, clock [] rest)

/-- Remove and return the next key to evict. -/
def popVictim : EvictionPolicy κ → Option (κ × EvictionPolicy κ)
  | lru order => order.getLast?.map fun victim => (victim, lru order.dropLast)
  | clock swept ahead => sweep (2 * (swept ++ ahead).length + 1) swept ahead

/-! ## What the policies keep -/

theorem keys_refer [DecidableEq κ] (key : κ) (ring : List (Slot κ)) :
    (refer key ring).map Slot.key = ring.map Slot.key := by
  rw [refer, map_map]
  apply map_congr_left
  intro slot _
  by_cases same : slot.key = key
  · simp [same]
  · simp [same]

/-- Touching a key adds it. -/
theorem mem_keys_touch [DecidableEq κ] (p : EvictionPolicy κ) (key k : κ) :
    k ∈ (p.touch key).keys ↔ k = key ∨ k ∈ p.keys := by
  cases p with
  | lru order =>
    by_cases same : k = key
    · simp [touch, keys, same]
    · simp [touch, keys, same]
  | clock swept ahead =>
    rw [touch]
    by_cases known : key ∈ (swept ++ ahead).map Slot.key
    · rw [if_pos known]
      have same : (clock (refer key swept) (refer key ahead)).keys
          = (clock swept ahead).keys := by
        rw [keys, keys, map_append, map_append, keys_refer, keys_refer]
      rw [same]
      constructor
      · exact .inr
      · rintro (rfl | h)
        · exact known
        · exact h
    · rw [if_neg known]
      by_cases atEnd : ahead = []
      · rw [atEnd]
        simp [keys, or_comm]
      · rw [if_neg atEnd]
        simp only [keys, map_append, mem_append, map_cons, map_nil, mem_singleton]
        tauto

theorem nodup_touch [DecidableEq κ] (nodup : p.keys.Nodup) (key : κ) :
    (p.touch key).keys.Nodup := by
  cases p with
  | lru order =>
    exact nodup_cons.mpr ⟨List.Nodup.not_mem_erase nodup, nodup.erase key⟩
  | clock swept ahead =>
    rw [touch]
    by_cases known : key ∈ (swept ++ ahead).map Slot.key
    · rw [if_pos known]
      rw [keys, map_append, keys_refer, keys_refer, ← map_append]
      exact nodup
    · have extended : ((swept ++ ahead).map Slot.key ++ [key]).Nodup :=
        nodup_append.mpr ⟨nodup, nodup_singleton _, fun a ha b hb =>
          mem_singleton.mp hb ▸ fun same => known (same ▸ ha)⟩
      rw [if_neg known]
      by_cases atEnd : ahead = []
      · subst atEnd
        simpa [keys] using extended
      · rw [if_neg atEnd]
        simpa [keys] using extended

/-- The slots with their reference bit set. -/
def referred (ring : List (Slot κ)) : Nat := ring.countP Slot.ref

/-- The hand finds a victim once it has cleared the bits that are set. -/
theorem sweep_finds {steps : Nat} {swept ahead : List (Slot κ)} (some : swept ++ ahead ≠ [])
    (enough : referred (swept ++ ahead) < steps) :
    ∃ victim p, sweep steps swept ahead = Option.some (victim, p) ∧
      ((swept ++ ahead).map Slot.key).Perm (victim :: p.keys) := by
  induction steps generalizing swept ahead with
  | zero => exact absurd enough (Nat.not_lt_zero _)
  | succ steps ih =>
    have pass (slot : Slot κ) (before rest : List (Slot κ)) (set : slot.ref = true)
        (enough : referred (before ++ slot :: rest) < steps + 1) :
        ∃ victim p, sweep steps (before ++ [{ slot with ref := false }]) rest
            = Option.some (victim, p) ∧
          ((before ++ slot :: rest).map Slot.key).Perm (victim :: p.keys) := by
      have less : referred (before ++ [{ slot with ref := false }] ++ rest) < steps := by
        simp only [referred, countP_append, countP_cons, set, countP_nil,
          if_true, Bool.false_eq_true, if_false] at enough ⊢
        omega
      obtain ⟨victim, p, found, perm⟩ := ih (by simp) less
      refine ⟨victim, p, found, ?_⟩
      simpa using perm
    have found (slot : Slot κ) (before rest : List (Slot κ)) :
        ((before ++ slot :: rest).map Slot.key).Perm (slot.key :: (clock before rest).keys) := by
      rw [keys, map_append, map_append]
      exact perm_middle
    cases ahead with
    | cons slot rest =>
      rw [sweep]
      by_cases set : slot.ref = true
      · rw [if_pos set]
        exact pass slot swept rest set enough
      · rw [if_neg set]
        exact ⟨slot.key, clock swept rest, rfl, found slot swept rest⟩
    | nil =>
      cases swept with
      | nil => exact absurd rfl some
      | cons slot rest =>
        rw [append_nil] at enough ⊢
        rw [sweep]
        by_cases set : slot.ref = true
        · rw [if_pos set]
          exact pass slot [] rest set enough
        · rw [if_neg set]
          exact ⟨slot.key, clock [] rest, rfl, found slot [] rest⟩

/-- A policy that tracks a key pops one, and keeps the others. -/
theorem popVictim_some (some : p.keys ≠ []) :
    ∃ victim p', p.popVictim = Option.some (victim, p') ∧ p.keys.Perm (victim :: p'.keys) := by
  cases p with
  | lru order =>
    have some : order ≠ [] := some
    refine ⟨order.getLast some, lru order.dropLast, ?_, ?_⟩
    · rw [popVictim, getLast?_eq_some_getLast some]
      rfl
    · have whole := dropLast_concat_getLast some
      have perm : (order.dropLast ++ [order.getLast some]).Perm
          (order.getLast some :: order.dropLast) := perm_append_comm
      rw [whole] at perm
      exact perm
  | clock swept ahead =>
    have ring : swept ++ ahead ≠ [] := fun none => some (congrArg (List.map Slot.key) none)
    apply sweep_finds ring
    have most : referred (swept ++ ahead) ≤ (swept ++ ahead).length := countP_le_length
    omega

theorem popVictim_none (empty : p.keys = []) : p.popVictim = none := by
  cases p with
  | lru order =>
    have none : order = [] := empty
    rw [none]
    rfl
  | clock swept ahead =>
    have ring : swept ++ ahead = [] := map_eq_nil_iff.mp empty
    obtain ⟨rfl, rfl⟩ := append_eq_nil_iff.mp ring
    rfl

end EvictionPolicy

/-! ## The member decode cache

Calls for the same member share an entry and its mutex, so that one of them decodes while the
others wait. The map from keys to entries, the eviction policy and the count of bytes are kept by
shard, under a lock that is held from one of the steps below to the next and never across a decode. -/

open Math (Table)

structure DecodedMember where
  data : List UInt8
  compressedSize : UInt64
  deriving DecidableEq

structure MemberKey where
  file : UInt64
  member : UInt64
  deriving DecidableEq

def GOLDEN_RATIO : UInt64 := 0x9e3779b97f4a7c15

def MemberKey.hash (k : MemberKey) : UInt64 :=
  let h := k.file * GOLDEN_RATIO
  h ^^^ (k.member + GOLDEN_RATIO + (h <<< 6) + (h >>> 2))

def NSHARDS : Nat := 16

/-- The shard of a key. -/
def MemberKey.shard (k : MemberKey) : Fin NSHARDS :=
  ⟨(k.hash &&& 15).toNat % NSHARDS, Nat.mod_lt _ (Nat.zero_lt_succ 15)⟩

/-- An entry that calls share. The mutex is held by a call, if any. -/
structure Entry where
  key : MemberKey
  ready : Bool := false
  bytes : Option DecodedMember := none
  size : Nat := 0
  mutex : Option Nat := none

structure Shard where
  map : Table MemberKey Nat := .empty
  policy : EvictionPolicy MemberKey
  curBytes : UInt64 := 0

/-- Where a call is: it waits for the mutex of its entry, decodes, is about to account for what
it decoded, or is done. -/
inductive Phase where
  | waiting (entry : Nat)
  | decoding (entry : Nat)
  | accounting (entry : Nat)
  | returned (entry : Nat) (bytes : Option DecodedMember)
  | failed (entry : Nat)

/-- A call of `get_or_decode`. -/
structure Call where
  key : MemberKey
  phase : Phase

structure MemberDecodeCache where
  perShardCapacity : UInt64
  shards : Fin NSHARDS → Shard
  entries : List Entry := []
  calls : List Call := []
  decodes : Nat := 0

/-- A step of a call: it looks its key up, takes the mutex, has decoded, has failed to decode, or
accounts for the bytes. -/
inductive Action where
  | request (key : MemberKey)
  | acquire (call : Nat)
  | produce (call : Nat) (bytes : Option DecodedMember)
  | throw (call : Nat)
  | account (call : Nat)

namespace Phase

def entry : Phase → Nat
  | waiting e => e
  | decoding e => e
  | accounting e => e
  | returned e _ => e
  | failed e => e

/-- The call has come to its end. -/
def done : Phase → Bool
  | returned _ _ => true
  | failed _ => true
  | _ => false

end Phase

namespace Shard

/-- Evict until the bytes fit, and list what is subtracted from which count. -/
def evict (sizeOf : Nat → Nat) (capacity : UInt64) : Nat → Shard → Shard × List (UInt64 × UInt64)
  | 0, s => (s, [])
  | fuel + 1, s =>
    if s.curBytes > capacity then
      match s.policy.popVictim with
      | none => (s, [])
      | some (victim, policy) =>
        match s.map.lookup victim with
        | none => evict sizeOf capacity fuel { s with policy := policy }
        | some e =>
          let size := UInt64.ofNat (sizeOf e)
          let evicted := evict sizeOf capacity fuel
            ⟨s.map.erase victim, policy, s.curBytes - size⟩
          (evicted.1, (s.curBytes, size) :: evicted.2)
    else (s, [])

/-- Account for an entry that is ready. -/
def charge (sizeOf : Nat → Nat) (capacity : UInt64) (key : MemberKey) (e : Nat) (s : Shard) :
    Shard × List (UInt64 × UInt64) :=
  if capacity = 0 then ({ s with map := s.map.erase key }, [])
  else
    let charged := { s with curBytes := s.curBytes + UInt64.ofNat (sizeOf e) }
    let evicted := evict sizeOf capacity (charged.policy.keys.length + 1) charged
    ({ evicted.1 with policy := evicted.1.policy.touch key }, evicted.2)

end Shard

namespace MemberDecodeCache

def init (capacityBytes : UInt64) (kind : EvictionKind) : MemberDecodeCache where
  perShardCapacity := capacityBytes / UInt64.ofNat NSHARDS
  shards := fun _ => { policy := EvictionPolicy.makeEvictionPolicy kind }

variable (s : MemberDecodeCache)

def sizeOf (e : Nat) : Nat := ((s.entries[e]?).map Entry.size).getD 0

def isReady (e : Nat) : Bool := ((s.entries[e]?).map Entry.ready).getD false

def setShard (i : Fin NSHARDS) (f : Shard → Shard) : MemberDecodeCache :=
  { s with shards := Function.update s.shards i (f (s.shards i)) }

def setEntry (e : Nat) (f : Entry → Entry) : MemberDecodeCache :=
  { s with entries := s.entries.modify e f }

def countDecode : MemberDecodeCache := { s with decodes := s.decodes + 1 }

def setPhase (c : Nat) (phase : Phase) : MemberDecodeCache :=
  { s with calls := s.calls.modify c fun call => { call with phase := phase } }

def addEntry (entry : Entry) : MemberDecodeCache := { s with entries := s.entries ++ [entry] }

def addCall (call : Call) : MemberDecodeCache := { s with calls := s.calls ++ [call] }

/-- Look a key up. A hit touches it, a miss makes an entry, which the policy does not track. -/
def request (key : MemberKey) : MemberDecodeCache :=
  match (s.shards key.shard).map.lookup key with
  | some e =>
    (if s.isReady e then
        s.setShard key.shard fun shard => { shard with policy := shard.policy.touch key }
      else s).addCall ⟨key, .waiting e⟩
  | none =>
    ((s.addEntry { key := key }).setShard key.shard fun shard =>
      { shard with map := shard.map.alter key fun _ => s.entries.length }).addCall
        ⟨key, .waiting s.entries.length⟩

/-- The bytes that were decoded are published with their size. -/
def publish (bytes : Option DecodedMember) (entry : Entry) : Entry :=
  { entry with
    bytes := bytes
    size := (bytes.map fun member => member.data.length).getD 0
    ready := true }

/-- What accounting for an entry does to its shard. -/
def charge (key : MemberKey) (e : Nat) : Shard × List (UInt64 × UInt64) :=
  (s.shards key.shard).charge s.sizeOf s.perShardCapacity key e

/-- One step of one call, if the call can make it. -/
def step : Action → Option MemberDecodeCache
  | .request key => some (s.request key)
  | .acquire c =>
    match s.calls[c]? with
    | some ⟨_, .waiting e⟩ =>
      match s.entries[e]? with
      | some entry =>
        if entry.mutex.isSome then none
        else if entry.ready then some (s.setPhase c (.returned e entry.bytes))
        else some ((s.setEntry e fun entry => { entry with mutex := some c }).setPhase c
          (.decoding e))
      | none => none
    | _ => none
  | .produce c bytes =>
    match s.calls[c]? with
    | some ⟨_, .decoding e⟩ =>
      some ((s.setEntry e (publish bytes)).countDecode.setPhase c (.accounting e))
    | _ => none
  | .throw c =>
    match s.calls[c]? with
    | some ⟨_, .decoding e⟩ =>
      some ((s.setEntry e fun entry => { entry with mutex := none }).setPhase c (.failed e))
    | _ => none
  | .account c =>
    match s.calls[c]? with
    | some ⟨key, .accounting e⟩ =>
      match s.entries[e]? with
      | some entry =>
        some (((s.setShard key.shard fun _ => (s.charge key e).1).setEntry e fun entry =>
          { entry with mutex := none }).setPhase c (.returned e entry.bytes))
      | none => none
    | _ => none

/-- What a step subtracts from a count of bytes: the count and what is subtracted. -/
def subtractions : Action → List (UInt64 × UInt64)
  | .account c =>
    match s.calls[c]? with
    | some ⟨key, .accounting e⟩ => (s.charge key e).2
    | _ => []
  | _ => []

/-- No call is in progress. -/
def Quiescent : Prop := ∀ call ∈ s.calls, call.phase.done

/-- What the entries of a shard's map weigh. -/
def retained (i : Fin NSHARDS) : Nat := (s.shards i).map.total fun _ e => s.sizeOf e

/-- The entry is ready and has been accounted for: the call that decoded it has let go of it. -/
def isCharged (e : Nat) : Bool :=
  ((s.entries[e]?).map fun entry => entry.ready && entry.mutex.isNone).getD false

end MemberDecodeCache

/-- The states that steps reach, of which each is allowed in the state before. -/
inductive Run (allowed : MemberDecodeCache → Action → Prop) (start : MemberDecodeCache) :
    List Action → MemberDecodeCache → Prop where
  | nil : Run allowed start [] start
  | step {actions : List Action} {s s' : MemberDecodeCache} {a : Action}
      (run : Run allowed start actions s) (allow : allowed s a) (next : s.step a = some s') :
      Run allowed start (actions ++ [a]) s'

/-- No request hits an entry that is ready and has not been accounted for, and what is in the map
of a shard is in memory at once. -/
structure Careful (s : MemberDecodeCache) (a : Action) : Prop where
  charged : ∀ key e, a = .request key → (s.shards key.shard).map.lookup key = some e →
    s.isReady e → s.isCharged e
  memory : ∀ i, s.retained i < 2 ^ 64

end DFTracer.Cache
