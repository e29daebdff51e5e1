/-
# What the cache promises

Every call returns bytes that were produced for its key, and an entry is decoded once. A shard
counts its bytes exactly as long as no request hits an entry between its decode and its accounting:
such a hit lets the entry be evicted before its bytes are counted.
-/

import DFTracer.Cache.CacheAccounting

namespace DFTracer.Cache

namespace MemberDecodeCache

variable {s : MemberDecodeCache}

/-- Calls of one entry return the same bytes. -/
theorem Sound.same_bytes (sound : s.Sound) {c c' e : Nat} {key key' : MemberKey}
    {bytes bytes' : Option DecodedMember} (call : s.calls[c]? = some ⟨key, .returned e bytes⟩)
    (call' : s.calls[c']? = some ⟨key', .returned e bytes'⟩) : bytes = bytes' := by
  obtain ⟨entry, found, -, -, rfl⟩ := sound.calls c _ call
  obtain ⟨entry', found', -, -, rfl⟩ := sound.calls c' _ call'
  cases found.symm.trans found'
  rfl

/-- A call that looks a key up shares the entry of a call of that key, as long as that has not been
accounted for. -/
theorem request_shares (sound : s.Sound) (accounted : s.Accounted) {c : Nat} {key : MemberKey}
    {phase : Phase} (call : s.calls[c]? = some ⟨key, phase⟩)
    (uncharged : s.isCharged phase.entry = false) :
    (s.request key).calls = s.calls ++ [⟨key, .waiting phase.entry⟩] := by
  obtain ⟨entry, found, keyEq, -⟩ := sound.calls c _ call
  have listed := accounted.inFlight phase.entry entry found uncharged
  rw [keyEq] at listed
  unfold request
  rw [listed]
  dsimp only
  split <;> rfl

end MemberDecodeCache

open MemberDecodeCache (init)

/-- What calls return was produced for their key, once for an entry. -/
structure Served (actions : List Action) (s : MemberDecodeCache) : Prop where
  produced : ∀ (c : Nat) key e bytes, s.calls[c]? = some (Call.mk key (.returned e bytes)) →
    ∃ (c' : Nat) (phase : Phase), .produce c' bytes ∈ actions ∧
      s.calls[c']? = some (Call.mk key phase)
  shared : ∀ (c c' : Nat) key key' e bytes bytes', s.calls[c]? = some (Call.mk key (.returned e bytes)) →
    s.calls[c']? = some (Call.mk key' (.returned e bytes')) → bytes = bytes'
  once : s.decodes = s.entries.countP Entry.ready

/-- A request shares an entry that has not been accounted for, no step that is allowed subtracts
more than a shard counts, a shard that counts more than its capacity holds one entry that exceeds
it, and when no call is in progress a shard counts what its entries weigh. -/
structure Counted (s : MemberDecodeCache) : Prop where
  shares : ∀ (c : Nat) key phase, s.calls[c]? = some (Call.mk key phase) →
    s.isCharged phase.entry = false →
    (s.request key).calls = s.calls ++ [⟨key, .waiting phase.entry⟩]
  subtracts : ∀ a, Careful s a → ∀ sub ∈ s.subtractions a, sub.2 ≤ sub.1
  exceeds : ∀ i, (s.shards i).curBytes > s.perShardCapacity →
    ∃ k e, (s.shards i).map.lookup k = some e ∧ s.perShardCapacity.toNat < s.sizeOf e
  quiet : s.Quiescent → ∀ i, (s.shards i).curBytes.toNat = s.retained i

/-- The state after actions, if each can be made. -/
def MemberDecodeCache.steps (s : MemberDecodeCache) : List Action → Option MemberDecodeCache
  | [] => some s
  | a :: rest => (s.step a).bind fun s' => s'.steps rest

/-- A member of a number of bytes. -/
def zeros (n : Nat) : Option DecodedMember := some ⟨List.replicate n 0, 1⟩

/-- Nothing is retained, and a call waits for an entry that has left the map when another call of
the same key begins and decodes again. -/
def disabledRun : List Action :=
  [.request ⟨0, 0⟩, .acquire 0, .request ⟨0, 0⟩, .produce 0 (zeros 1), .account 0,
    .request ⟨0, 0⟩, .acquire 2, .produce 2 (zeros 1)]

/-- An entry of 20 bytes is hit before its bytes are counted, and evicted when 12 are. -/
def wrapRun : List Action :=
  [.request ⟨0, 0⟩, .acquire 0, .produce 0 (zeros 20), .request ⟨0, 0⟩,
    .request ⟨0, 16⟩, .acquire 2, .produce 2 (zeros 12)]

/-- One call that decodes 20 bytes. -/
def oneDecode : List Action :=
  [.request ⟨0, 0⟩, .acquire 0, .produce 0 (zeros 20), .account 0]

end DFTracer.Cache
