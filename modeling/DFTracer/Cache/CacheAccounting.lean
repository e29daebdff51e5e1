/-
# The bytes of a shard

As long as no request hits an entry between its decode and its accounting, a shard counts the bytes
of the entries that it has accounted for and still holds, its policy tracks just these, and no
entry leaves the map while a call decodes it.
-/

import DFTracer.Cache.CacheSound

namespace DFTracer.Cache

open List

open Math (Table)

/-! ## Eviction -/

namespace Shard

/-- A shard counts what its entries weigh, and its policy tracks entries that weigh their size. -/
structure Weighs (sizeOf weight : Nat → Nat) (shard : Shard) : Prop where
  nodup : shard.policy.keys.Nodup
  tracked : ∀ k ∈ shard.policy.keys, ∃ e, shard.map.lookup k = some e ∧ weight e = sizeOf e
  bytes : shard.curBytes.toNat = shard.map.total fun _ e => weight e

variable {sizeOf weight : Nat → Nat} {capacity : UInt64} {shard : Shard}

/-- A victim takes the bytes that it weighs from the count. -/
theorem Weighs.evictOne (weighs : shard.Weighs sizeOf weight) {victim : MemberKey}
    {policy : EvictionPolicy MemberKey} {e : Nat} (found : shard.map.lookup victim = some e)
    (perm : shard.policy.keys.Perm (victim :: policy.keys)) (own : weight e = sizeOf e) :
    UInt64.ofNat (sizeOf e) ≤ shard.curBytes ∧
    Weighs sizeOf weight
      ⟨shard.map.erase victim, policy, shard.curBytes - UInt64.ofNat (sizeOf e)⟩ := by
  have total := @Table.total_erase _ _ _ (fun _ e => weight e) shard.map victim e found
  have bytes := weighs.bytes
  have bound := shard.curBytes.toNat_lt
  have size : (UInt64.ofNat (sizeOf e)).toNat = sizeOf e := by
    rw [UInt64.toNat_ofNat']
    apply Nat.mod_eq_of_lt
    omega
  have le : UInt64.ofNat (sizeOf e) ≤ shard.curBytes := by
    rw [UInt64.le_iff_toNat_le]
    omega
  have nodup := nodup_cons.mp (perm.nodup weighs.nodup)
  refine ⟨le, nodup.2, fun k listed => ?_, ?_⟩
  · obtain ⟨e', found', own'⟩ := weighs.tracked k (perm.symm.subset (mem_cons_of_mem _ listed))
    have ne : k ≠ victim := fun same => nodup.1 (same ▸ listed)
    exact ⟨e', by rw [Table.lookup_erase, if_neg ne, found'], own'⟩
  · dsimp only
    rw [UInt64.toNat_sub_of_le _ _ le]
    omega

/-- What eviction makes of a shard: it counts as before, only tracked keys have left the map, the
bytes fit or no key is tracked, and no more has been subtracted than was counted. -/
structure Evicted (sizeOf weight : Nat → Nat) (capacity : UInt64) (shard : Shard)
    (result : Shard × List (UInt64 × UInt64)) : Prop where
  weighs : result.1.Weighs sizeOf weight
  tracked : ∀ k ∈ result.1.policy.keys, k ∈ shard.policy.keys
  gone : ∀ k ∈ shard.policy.keys, k ∉ result.1.policy.keys → result.1.map.lookup k = none
  kept : ∀ k, k ∉ shard.policy.keys ∨ k ∈ result.1.policy.keys →
    result.1.map.lookup k = shard.map.lookup k
  stop : result.1.curBytes ≤ capacity ∨ result.1.policy.keys = []
  subtracted : ∀ sub ∈ result.2, sub.2 ≤ sub.1

theorem Weighs.evicted (weighs : shard.Weighs sizeOf weight)
    (stop : shard.curBytes ≤ capacity ∨ shard.policy.keys = []) :
    Evicted sizeOf weight capacity shard (shard, []) where
  weighs := weighs
  tracked _ listed := listed
  gone _ listed absent := absurd listed absent
  kept _ _ := rfl
  stop := stop
  subtracted _ listed := absurd listed not_mem_nil

theorem Weighs.evict {fuel : Nat} (weighs : shard.Weighs sizeOf weight)
    (enough : shard.policy.keys.length < fuel) :
    Evicted sizeOf weight capacity shard (shard.evict sizeOf capacity fuel) := by
  induction fuel generalizing shard with
  | zero => exact absurd enough (Nat.not_lt_zero _)
  | succ fuel ih =>
    rw [Shard.evict]
    by_cases full : shard.curBytes > capacity
    · rw [if_pos full]
      by_cases empty : shard.policy.keys = []
      · rw [EvictionPolicy.popVictim_none empty]
        exact weighs.evicted (.inr empty)
      · obtain ⟨victim, policy, popped, perm⟩ := EvictionPolicy.popVictim_some empty
        obtain ⟨e, found, own⟩ :=
          weighs.tracked victim (perm.symm.subset mem_cons_self)
        obtain ⟨le, weighs'⟩ := weighs.evictOne found perm own
        have fewer : policy.keys.length < fuel := by
          have length := perm.length_eq
          rw [length_cons] at length
          omega
        have rest := ih weighs' fewer
        have member (k : MemberKey) : k ∈ shard.policy.keys ↔ k = victim ∨ k ∈ policy.keys := by
          rw [perm.mem_iff, mem_cons]
        have absent : victim ∉ policy.keys :=
          (nodup_cons.mp (perm.nodup weighs.nodup)).1
        have erased (k : MemberKey) (other : k ≠ victim) :
            (shard.map.erase victim).lookup k = shard.map.lookup k := by
          rw [Table.lookup_erase, if_neg other]
        rw [popped]
        dsimp only
        rw [found]
        refine {
          weighs := rest.weighs
          tracked := fun k h => (member k).mpr (.inr (rest.tracked k h))
          gone := fun k listed left => ?_
          kept := fun k same => ?_
          stop := rest.stop
          subtracted := fun sub listed => ?_ }
        · rcases (member k).mp listed with rfl | listed
          · rw [rest.kept k (.inl absent)]
            rw [Table.lookup_erase, if_pos rfl]
          · exact rest.gone k listed left
        · rcases same with untracked | listed
          · have other : k ≠ victim := fun eq => untracked ((member k).mpr (.inl eq))
            have untracked : k ∉ policy.keys := fun h => untracked ((member k).mpr (.inr h))
            exact (rest.kept k (.inl untracked)).trans (erased k other)
          · have other : k ≠ victim := fun eq => absent (eq ▸ rest.tracked k listed)
            exact (rest.kept k (.inr listed)).trans (erased k other)
        · rcases mem_cons.mp listed with rfl | listed
          · exact le
          · exact rest.subtracted sub listed
    · rw [if_neg full]
      exact weighs.evicted (.inl (UInt64.not_lt.mp full))

end Shard

namespace MemberDecodeCache

/-! ## Accounted states -/

/-- What an entry weighs in its shard: its size, once it has been accounted for. -/
def weightOf (s : MemberDecodeCache) (e : Nat) : Nat := if s.isCharged e then s.sizeOf e else 0

/-- Every shard counts the entries of its map that have been accounted for, its policy tracks just
these, and the other entries are in the map. -/
structure Accounted (s : MemberDecodeCache) : Prop where
  nodup : ∀ i, (s.shards i).policy.keys.Nodup
  tracked : ∀ i k, k ∈ (s.shards i).policy.keys ↔
    ∃ e, (s.shards i).map.lookup k = some e ∧ s.isCharged e = true
  bytes : ∀ i, (s.shards i).curBytes.toNat = (s.shards i).map.total fun _ e => s.weightOf e
  inFlight : ∀ (e : Nat) (entry : Entry), s.entries[e]? = some entry → s.isCharged e = false →
    (s.shards entry.key.shard).map.lookup entry.key = some e
  bounded : ∀ i, (s.shards i).curBytes ≤ s.perShardCapacity ∨ ∃ k e,
    (s.shards i).map.lookup k = some e ∧ s.isCharged e = true ∧
      (s.shards i).curBytes.toNat = s.sizeOf e
  disabled : s.perShardCapacity = 0 → ∀ i, (s.shards i).policy.keys = []

theorem accounted_init (capacityBytes : UInt64) (kind : EvictionKind) :
    (init capacityBytes kind).Accounted where
  nodup _ := by cases kind <;> exact nodup_nil
  tracked _ k := by
    have untracked : k ∉ (EvictionPolicy.makeEvictionPolicy kind : EvictionPolicy MemberKey).keys := by
      cases kind <;> exact not_mem_nil
    exact ⟨fun h => absurd h untracked, fun ⟨_, found, _⟩ => by cases found⟩
  bytes _ := rfl
  inFlight _ _ found := by cases found
  bounded _ := .inl UInt64.zero_le
  disabled _ _ := by cases kind <;> rfl

variable {s : MemberDecodeCache}

variable {entry : Entry} {e : Nat} {key : MemberKey}

theorem isCharged_eq (found : s.entries[e]? = some entry) :
    s.isCharged e = (entry.ready && entry.mutex.isNone) := by
  rw [isCharged, found]
  rfl

theorem sizeOf_eq (found : s.entries[e]? = some entry) : s.sizeOf e = entry.size := by
  rw [sizeOf, found]
  rfl

theorem weightOf_of_charged (charged : s.isCharged e = true) :
    s.weightOf e = s.sizeOf e := if_pos charged

theorem weightOf_of_uncharged (uncharged : s.isCharged e = false) : s.weightOf e = 0 :=
  if_neg (Bool.eq_false_iff.mp uncharged)

/-- What is seen of an entry only depends on the entry. -/
theorem seen_eq {s s' : MemberDecodeCache} (same : s'.entries[e]? = s.entries[e]?) :
    s'.isCharged e = s.isCharged e ∧ s'.sizeOf e = s.sizeOf e ∧ s'.weightOf e = s.weightOf e := by
  have charged : s'.isCharged e = s.isCharged e := by rw [isCharged, isCharged, same]
  have size : s'.sizeOf e = s.sizeOf e := by rw [sizeOf, sizeOf, same]
  exact ⟨charged, size, by rw [weightOf, weightOf, charged, size]⟩

/-- A change of an entry by a call that does not charge it keeps the accounts. -/
theorem Accounted.advance (accounted : s.Accounted) {c : Nat} {phase : Phase} {f : Entry → Entry}
    (found : s.entries[e]? = some entry) (key : (f entry).key = entry.key)
    (charge : ((f entry).ready && (f entry).mutex.isNone) = (entry.ready && entry.mutex.isNone))
    (size : (entry.ready && entry.mutex.isNone) = true → (f entry).size = entry.size) :
    (s.advance c phase e f).Accounted := by
  have own : (s.advance c phase e f).entries[e]? = some (f entry) := by
    rw [entries_advance, if_pos rfl, found]
    rfl
  have charged (j : Nat) : (s.advance c phase e f).isCharged j = s.isCharged j := by
    by_cases same : j = e
    · rw [same, isCharged_eq own, isCharged_eq found, charge]
    · have eq : (s.advance c phase e f).entries[j]? = s.entries[j]? := by
        rw [entries_advance, if_neg same]
      exact (seen_eq eq).1
  have sized (j : Nat) (isCharged : s.isCharged j = true) :
      (s.advance c phase e f).sizeOf j = s.sizeOf j := by
    by_cases same : j = e
    · rw [same, isCharged_eq found] at isCharged
      rw [same, sizeOf_eq own, sizeOf_eq found, size isCharged]
    · have eq : (s.advance c phase e f).entries[j]? = s.entries[j]? := by
        rw [entries_advance, if_neg same]
      exact (seen_eq eq).2.1
  have weights (j : Nat) : (s.advance c phase e f).weightOf j = s.weightOf j := by
    cases isCharged : s.isCharged j with
    | true => rw [weightOf_of_charged isCharged, weightOf_of_charged ((charged j).trans isCharged),
        sized j isCharged]
    | false => rw [weightOf_of_uncharged isCharged,
        weightOf_of_uncharged ((charged j).trans isCharged)]
  refine {
    nodup := accounted.nodup
    tracked := fun i k => ?_
    bytes := fun i => ?_
    inFlight := fun j entry' listed uncharged => ?_
    bounded := fun i => ?_
    disabled := accounted.disabled }
  · simp only [charged]
    exact accounted.tracked i k
  · simp only [weights]
    exact accounted.bytes i
  · rw [charged] at uncharged
    rcases advance_entry listed with ⟨-, before⟩ | ⟨entry₀, rfl, before, rfl⟩
    · exact accounted.inFlight j entry' before uncharged
    · cases found.symm.trans before
      rw [key]
      exact accounted.inFlight j entry before uncharged
  · rcases accounted.bounded i with fits | ⟨k, j, lookup, isCharged, bytes⟩
    · exact .inl fits
    · exact .inr ⟨k, j, lookup, (charged j).trans isCharged, bytes.trans (sized j isCharged).symm⟩

/-- A hit of an entry that has been accounted for touches a key that is tracked. -/
theorem Accounted.touch (accounted : s.Accounted)
    (found : (s.shards key.shard).map.lookup key = some e) (charged : s.isCharged e = true) :
    (s.setShard key.shard fun shard =>
      { shard with policy := shard.policy.touch key }).Accounted := by
  have member := (accounted.tracked key.shard key).mpr ⟨e, found, charged⟩
  have shards (i : Fin NSHARDS) : ((s.setShard key.shard fun shard =>
      { shard with policy := shard.policy.touch key }).shards i).map = (s.shards i).map ∧
      ((s.setShard key.shard fun shard =>
        { shard with policy := shard.policy.touch key }).shards i).curBytes
        = (s.shards i).curBytes ∧
      ((s.setShard key.shard fun shard =>
        { shard with policy := shard.policy.touch key }).shards i).policy.keys.Nodup ∧
      ∀ k, k ∈ ((s.setShard key.shard fun shard =>
        { shard with policy := shard.policy.touch key }).shards i).policy.keys ↔
          k ∈ (s.shards i).policy.keys := by
    rw [shards_setShard]
    by_cases same : i = key.shard
    · subst same
      rw [if_pos rfl]
      refine ⟨rfl, rfl, EvictionPolicy.nodup_touch (accounted.nodup _) key, fun k => ?_⟩
      rw [EvictionPolicy.mem_keys_touch]
      refine or_iff_right_of_imp fun eq => ?_
      rw [eq]
      exact member
    · rw [if_neg same]
      exact ⟨rfl, rfl, accounted.nodup i, fun _ => Iff.rfl⟩
  refine {
    nodup := fun i => (shards i).2.2.1
    tracked := fun i k => ?_
    bytes := fun i => ?_
    inFlight := fun j entry listed uncharged => ?_
    bounded := fun i => ?_
    disabled := fun none => ?_ }
  · rw [(shards i).2.2.2, (shards i).1]
    exact accounted.tracked i k
  · rw [(shards i).1, (shards i).2.1]
    exact accounted.bytes i
  · rw [(shards _).1]
    exact accounted.inFlight j entry listed uncharged
  · rw [(shards i).1, (shards i).2.1]
    exact accounted.bounded i
  · have empty := accounted.disabled none key.shard
    exact absurd (empty ▸ member) not_mem_nil

/-- A new call changes no account. -/
theorem Accounted.addCall (accounted : s.Accounted) (call : Call) : (s.addCall call).Accounted :=
  { accounted with }

/-- A new entry is in the map, and weighs nothing. -/
theorem Accounted.addEntry (sound : s.Sound) (accounted : s.Accounted)
    (absent : (s.shards key.shard).map.lookup key = none) :
    ((s.addEntry { key := key }).setShard key.shard fun shard =>
      { shard with map := shard.map.alter key fun _ => s.entries.length }).Accounted := by
  let next := (s.addEntry { key := key }).setShard key.shard fun shard =>
    { shard with map := shard.map.alter key fun _ => s.entries.length }
  have old {e : Nat} (before : e < s.entries.length) : next.entries[e]? = s.entries[e]? :=
    getElem?_append_left before
  have new : next.entries[s.entries.length]? = some { key := key } := getElem?_concat_length
  have uncharged : next.isCharged s.entries.length = false := isCharged_eq new
  have listed {i : Fin NSHARDS} {k : MemberKey} {e : Nat}
      (found : (s.shards i).map.lookup k = some e) : e < s.entries.length := by
    obtain ⟨-, entry, entries, -⟩ := sound.keyed i k e found
    exact (List.getElem?_eq_some_iff.mp entries).1
  have policy (i : Fin NSHARDS) : (next.shards i).policy = (s.shards i).policy ∧
      (next.shards i).curBytes = (s.shards i).curBytes := by
    rw [shards_setShard]
    by_cases same : i = key.shard
    · subst same
      rw [if_pos rfl]
      exact ⟨rfl, rfl⟩
    · rw [if_neg same]
      exact ⟨rfl, rfl⟩
  have lookup (i : Fin NSHARDS) (k : MemberKey) : (next.shards i).map.lookup k
      = if i = key.shard ∧ k = key then some s.entries.length else (s.shards i).map.lookup k := by
    rw [shards_setShard]
    by_cases same : i = key.shard
    · subst same
      rw [if_pos rfl]
      have altered := Table.lookup_alter (s.shards key.shard).map key k fun _ => s.entries.length
      by_cases eq : k = key
      · rw [if_pos ⟨rfl, eq⟩]
        rw [if_pos eq] at altered
        exact altered
      · rw [if_neg fun h => eq h.2]
        rw [if_neg eq] at altered
        exact altered
    · rw [if_neg same, if_neg fun h => same h.1]
      rfl
  have kept {i : Fin NSHARDS} {k : MemberKey} {e : Nat}
      (found : (s.shards i).map.lookup k = some e) : (next.shards i).map.lookup k = some e := by
    rw [lookup, if_neg, found]
    rintro ⟨rfl, rfl⟩
    cases absent.symm.trans found
  refine {
    nodup := fun i => (policy i).1 ▸ accounted.nodup i
    tracked := fun i k => ?_
    bytes := fun i => ?_
    inFlight := fun e entry found isCharged => ?_
    bounded := fun i => ?_
    disabled := fun none i => (policy i).1 ▸ accounted.disabled none i }
  · rw [(policy i).1, accounted.tracked]
    constructor
    · rintro ⟨e, found, charged⟩
      exact ⟨e, kept found, (seen_eq (old (listed found))).1.trans charged⟩
    · rintro ⟨e, found, charged⟩
      rw [lookup] at found
      split at found
      · cases found
        cases uncharged.symm.trans charged
      · exact ⟨e, found, (seen_eq (old (listed found))).1.symm.trans charged⟩
  · have same : ((s.shards i).map.total fun _ e => next.weightOf e)
        = (s.shards i).map.total fun _ e => s.weightOf e :=
      Table.total_congr fun k e found => (seen_eq (old (listed found))).2.2
    rw [(policy i).2, accounted.bytes i, ← same, shards_setShard]
    by_cases eq : i = key.shard
    · subst eq
      rw [if_pos rfl]
      have altered := @Table.total_alter_none _ _ _ (fun _ e => next.weightOf e) _ key absent
        fun _ => s.entries.length
      rw [weightOf_of_uncharged uncharged] at altered
      exact altered.symm
    · rw [if_neg eq]
      rfl
  · rcases Math.getElem?_concat found with before | ⟨rfl, rfl⟩
    · have inside := (List.getElem?_eq_some_iff.mp before).1
      exact kept (accounted.inFlight e entry before
        ((seen_eq (old inside)).1.symm.trans isCharged))
    · rw [lookup, if_pos ⟨rfl, rfl⟩]
  · rw [(policy i).2]
    rcases accounted.bounded i with fits | ⟨k, e, found, charged, bytes⟩
    · exact .inl fits
    · have seen := seen_eq (old (listed found))
      exact .inr ⟨k, e, kept found, seen.1.trans charged, bytes.trans seen.2.1.symm⟩

/-! ## Accounting for an entry -/

/-- What accounting for an entry must make of its shard, for what entries are charged then. -/
structure ChargedShard (s : MemberDecodeCache) (e : Nat) (charged : Nat → Bool)
    (before after : Shard) : Prop where
  nodup : after.policy.keys.Nodup
  tracked : ∀ k, k ∈ after.policy.keys ↔ ∃ e', after.map.lookup k = some e' ∧ charged e' = true
  bytes : after.curBytes.toNat
    = after.map.total fun _ e' => if charged e' then s.sizeOf e' else 0
  kept : ∀ k e', before.map.lookup k = some e' → charged e' = false → after.map.lookup k = some e'
  bounded : after.curBytes ≤ s.perShardCapacity ∨ ∃ k e', after.map.lookup k = some e' ∧
    charged e' = true ∧ after.curBytes.toNat = s.sizeOf e'
  disabled : s.perShardCapacity = 0 → after.policy.keys = []

section Charge

variable {key : MemberKey} {e : Nat} {charged : Nat → Bool}

section

variable (accounted : s.Accounted) (found : (s.shards key.shard).map.lookup key = some e) (uncharged : s.isCharged e = false) (now : ∀ j, charged j = if j = e then true else s.isCharged j) (alone : ∀ k, (s.shards key.shard).map.lookup k = some e → k = key)

include accounted found uncharged now alone

/-- An entry that is accounted for without a capacity leaves the map. -/
theorem Accounted.charge_disabled
    (disabled : s.perShardCapacity = 0) :
    ChargedShard s e charged (s.shards key.shard) (s.charge key e).1 := by
  have same : s.charge key e
      = ({ s.shards key.shard with map := (s.shards key.shard).map.erase key }, []) := by
    rw [MemberDecodeCache.charge, Shard.charge, if_pos disabled]
  have untracked := accounted.disabled disabled key.shard
  have other {k : MemberKey} {e' : Nat}
      (listed : ((s.shards key.shard).map.erase key).lookup k = some e') :
      (s.shards key.shard).map.lookup k = some e' ∧ e' ≠ e := by
    rw [Table.lookup_erase] at listed
    split at listed
    · cases listed
    · rename_i ne
      exact ⟨listed, fun eq => ne (alone k (eq ▸ listed))⟩
  have none {k : MemberKey} {e' : Nat}
      (listed : ((s.shards key.shard).map.erase key).lookup k = some e') : charged e' = false := by
    obtain ⟨before, ne⟩ := other listed
    rw [now, if_neg ne]
    apply Bool.eq_false_iff.mpr
    intro isCharged
    have member := (accounted.tracked key.shard k).mpr ⟨e', before, isCharged⟩
    rw [untracked] at member
    exact absurd member not_mem_nil
  have total := @Table.total_erase _ _ _ (fun _ e' => s.weightOf e') _ key e found
  rw [same]
  refine {
    nodup := accounted.nodup key.shard
    tracked := fun k => ?_
    bytes := ?_
    kept := fun k e' before isCharged => ?_
    bounded := ?_
    disabled := fun _ => untracked }
  · rw [untracked]
    constructor
    · intro member
      exact absurd member not_mem_nil
    · rintro ⟨e', listed, isCharged⟩
      cases (none listed).symm.trans isCharged
  · rw [accounted.bytes, total, weightOf_of_uncharged uncharged, Nat.zero_add]
    apply Table.total_congr
    intro k e' listed
    rw [weightOf, now, if_neg (other listed).2]
  · rw [Table.lookup_erase, if_neg, before]
    rintro rfl
    cases found.symm.trans before
    rw [now, if_pos rfl] at isCharged
    cases isCharged
  · rcases accounted.bounded key.shard with within | ⟨k, e', listed, isCharged, _⟩
    · exact .inl within
    · have member := (accounted.tracked key.shard k).mpr ⟨e', listed, isCharged⟩
      rw [untracked] at member
      exact absurd member not_mem_nil

/-- With the bytes of the entry added, and before any eviction, the shard counts what its
entries weigh once the entry is charged. -/
theorem Accounted.weighs_added
    (memory : s.retained key.shard < 2 ^ 64) :
    Shard.Weighs s.sizeOf (fun e' => if charged e' then s.sizeOf e' else 0)
      { s.shards key.shard with
        curBytes := (s.shards key.shard).curBytes + UInt64.ofNat (s.sizeOf e) } := by
  let weight (e' : Nat) : Nat := if charged e' then s.sizeOf e' else 0
  have own : weight e = s.sizeOf e := by
    have isCharged : charged e = true := by rw [now, if_pos rfl]
    exact if_pos isCharged
  have total : ((s.shards key.shard).curBytes + UInt64.ofNat (s.sizeOf e)).toNat
      = (s.shards key.shard).map.total fun _ e' => weight e' := by
    have change := @Table.total_change _ _ _ (fun _ e' => s.weightOf e') (fun _ e' => weight e') _
      key e found (fun k e' listed other => by
        have ne : e' ≠ e := fun eq => other (alone k (eq ▸ listed))
        rw [weightOf]
        dsimp only [weight]
        rw [now, if_neg ne])
    have most : ((s.shards key.shard).map.total fun _ e' => weight e') ≤ s.retained key.shard := by
      apply Table.total_le
      intro k e' _
      dsimp only [weight]
      split
      · exact Nat.le_refl _
      · exact Nat.zero_le _
    have bytes := accounted.bytes key.shard
    rw [weightOf_of_uncharged uncharged] at change
    have size : (UInt64.ofNat (s.sizeOf e)).toNat = s.sizeOf e := by
      rw [UInt64.toNat_ofNat']
      apply Nat.mod_eq_of_lt
      omega
    rw [UInt64.toNat_add]
    omega
  refine ⟨accounted.nodup key.shard, fun k listed => ?_, total⟩
  obtain ⟨e', found', isCharged⟩ := (accounted.tracked key.shard k).mp listed
  have ne : e' ≠ e := by
    intro eq
    cases uncharged.symm.trans (eq ▸ isCharged)
  refine ⟨e', found', ?_⟩
  rw [now, if_neg ne, if_pos isCharged]

/-- An entry that is accounted for is charged to its shard, from which others are evicted. -/
theorem Accounted.charge_enabled
    (memory : s.retained key.shard < 2 ^ 64) (enabled : s.perShardCapacity ≠ 0) :
    ChargedShard s e charged (s.shards key.shard) (s.charge key e).1 ∧
      ∀ sub ∈ (s.charge key e).2, sub.2 ≤ sub.1 := by
  let weight (e' : Nat) : Nat := if charged e' then s.sizeOf e' else 0
  let shard : Shard := { s.shards key.shard with
    curBytes := (s.shards key.shard).curBytes + UInt64.ofNat (s.sizeOf e) }
  have untracked : key ∉ (s.shards key.shard).policy.keys := by
    intro member
    obtain ⟨e', found', isCharged⟩ := (accounted.tracked key.shard key).mp member
    cases found.symm.trans found'
    cases uncharged.symm.trans isCharged
  have own : weight e = s.sizeOf e := by
    have isCharged : charged e = true := by rw [now, if_pos rfl]
    exact if_pos isCharged
  have weighs : shard.Weighs s.sizeOf weight :=
    accounted.weighs_added found uncharged now alone memory
  have evicted : Shard.Evicted s.sizeOf weight s.perShardCapacity shard
      (shard.evict s.sizeOf s.perShardCapacity (shard.policy.keys.length + 1)) :=
    weighs.evict (Nat.lt_succ_self _)
  have same : s.charge key e
      = ({ (shard.evict s.sizeOf s.perShardCapacity (shard.policy.keys.length + 1)).1 with
            policy := (shard.evict s.sizeOf s.perShardCapacity
              (shard.policy.keys.length + 1)).1.policy.touch key },
          (shard.evict s.sizeOf s.perShardCapacity (shard.policy.keys.length + 1)).2) := by
    rw [MemberDecodeCache.charge, Shard.charge, if_neg enabled]
  rw [same]
  generalize shard.evict s.sizeOf s.perShardCapacity (shard.policy.keys.length + 1) = result
    at evicted
  have keyKept : result.1.map.lookup key = some e := (evicted.kept key (.inl untracked)).trans found
  have keyCharged : charged e = true := by rw [now, if_pos rfl]
  have before {k : MemberKey} {e' : Nat} (listed : result.1.map.lookup k = some e')
      (other : k ≠ key) (isCharged : charged e' = true) :
      k ∈ (s.shards key.shard).policy.keys ∧ k ∈ result.1.policy.keys := by
    have known : (s.shards key.shard).map.lookup k = some e' := by
      by_cases gone : k ∈ shard.policy.keys ∧ k ∉ result.1.policy.keys
      · cases (evicted.gone k gone.1 gone.2).symm.trans listed
      · have kept := evicted.kept k (by tauto)
        exact kept.symm.trans listed
    have ne : e' ≠ e := fun eq => other (alone k (eq ▸ known))
    rw [now, if_neg ne] at isCharged
    have member := (accounted.tracked key.shard k).mpr ⟨e', known, isCharged⟩
    refine ⟨member, ?_⟩
    by_contra left
    cases (evicted.gone k member left).symm.trans listed
  refine ⟨{
    nodup := EvictionPolicy.nodup_touch evicted.weighs.nodup key
    tracked := fun k => ?_
    bytes := evicted.weighs.bytes
    kept := fun k e' listed isCharged => ?_
    bounded := ?_
    disabled := fun disabled => absurd disabled enabled }, evicted.subtracted⟩
  · rw [EvictionPolicy.mem_keys_touch]
    constructor
    · rintro (rfl | listed)
      · exact ⟨e, keyKept, keyCharged⟩
      · obtain ⟨e', found', isCharged⟩ :=
          (accounted.tracked key.shard k).mp (evicted.tracked k listed)
        have ne : e' ≠ e := by
          intro eq
          cases uncharged.symm.trans (eq ▸ isCharged)
        refine ⟨e', (evicted.kept k (.inr listed)).trans found', ?_⟩
        rw [now, if_neg ne, isCharged]
    · rintro ⟨e', listed, isCharged⟩
      by_cases same : k = key
      · exact .inl same
      · exact .inr (before listed same isCharged).2
  · have unlisted : k ∉ shard.policy.keys := by
      intro member
      obtain ⟨e₁, found₁, isCharged₁⟩ := (accounted.tracked key.shard k).mp member
      cases listed.symm.trans found₁
      rw [now] at isCharged
      split at isCharged
      · cases isCharged
      · cases isCharged.symm.trans isCharged₁
    exact (evicted.kept k (.inl unlisted)).trans listed
  · dsimp only
    rcases evicted.stop with fits | empty
    · exact .inl fits
    · refine .inr ⟨key, e, keyKept, keyCharged, ?_⟩
      have others : ((result.1.map.erase key).total fun _ e' => weight e') = 0 := by
        have zero : ((result.1.map.erase key).total fun _ e' => weight e')
            = (result.1.map.erase key).total fun _ _ => 0 := by
          apply Table.total_congr
          intro k e' listed
          rw [Table.lookup_erase] at listed
          split at listed
          · cases listed
          · rename_i other
            apply if_neg
            intro isCharged
            have member := (before listed other isCharged).2
            rw [empty] at member
            exact absurd member not_mem_nil
        rw [zero]
        simp [Table.total]
      have split := @Table.total_erase _ _ _ (fun _ e' => weight e') _ key e keyKept
      have bytes := evicted.weighs.bytes
      omega

end

end Charge

section

variable (sound : s.Sound) (accounted : s.Accounted)

include sound accounted

/-- Accounting for an entry keeps the accounts, and never subtracts more than is counted. -/
theorem Accounted.account {c e : Nat} {key : MemberKey}
    (call : s.calls[c]? = some ⟨key, .accounting e⟩)
    (found : s.entries[e]? = some entry) (memory : s.retained key.shard < 2 ^ 64) :
    ((s.setShard key.shard fun _ => (s.charge key e).1).advance c (.returned e entry.bytes) e
      release).Accounted ∧ ∀ sub ∈ (s.charge key e).2, sub.2 ≤ sub.1 := by
  obtain ⟨entry', found', keyEq, mutex, ready⟩ := sound.calls c _ call
  cases found.symm.trans found'
  let next := (s.setShard key.shard fun _ => (s.charge key e).1).advance c
    (.returned e entry.bytes) e release
  have entries (j : Nat) : next.entries[j]?
      = if j = e then (s.entries[j]?).map release else s.entries[j]? :=
    entries_advance _ _ _ _ _ _
  have uncharged : s.isCharged e = false := by
    rw [isCharged_eq found, mutex]
    exact Bool.and_false _
  have now (j : Nat) : next.isCharged j = if j = e then true else s.isCharged j := by
    by_cases same : j = e
    · have own := entries e
      rw [if_pos rfl, found] at own
      rw [if_pos same, same, isCharged_eq own]
      exact congrArg (· && true) ready
    · have other := entries j
      rw [if_neg same] at other
      rw [if_neg same, (seen_eq other).1]
  have sized (j : Nat) : next.sizeOf j = s.sizeOf j := by
    by_cases same : j = e
    · have own := entries e
      rw [if_pos rfl, found] at own
      rw [same, sizeOf_eq own, sizeOf_eq found]
      rfl
    · have other := entries j
      rw [if_neg same] at other
      exact (seen_eq other).2.1
  have listed := accounted.inFlight e entry found uncharged
  rw [keyEq] at listed
  have alone {i : Fin NSHARDS} {k : MemberKey} (lookup : (s.shards i).map.lookup k = some e) :
      k = key ∧ i = key.shard := by
    obtain ⟨shard, entry', found', keyEq'⟩ := sound.keyed i k e lookup
    cases found.symm.trans found'
    have eq : k = key := keyEq'.symm.trans keyEq
    exact ⟨eq, shard.symm.trans (congrArg MemberKey.shard eq)⟩
  have charge : ChargedShard s e next.isCharged (s.shards key.shard) (s.charge key e).1 ∧
      ∀ sub ∈ (s.charge key e).2, sub.2 ≤ sub.1 := by
    by_cases disabled : s.perShardCapacity = 0
    · refine ⟨accounted.charge_disabled listed uncharged now (fun k h => (alone h).1) disabled, ?_⟩
      rw [MemberDecodeCache.charge, Shard.charge, if_pos disabled]
      exact fun _ h => absurd h not_mem_nil
    · exact accounted.charge_enabled listed uncharged now (fun k h => (alone h).1) memory disabled
  obtain ⟨charge, subtracted⟩ := charge
  have shards (i : Fin NSHARDS) : next.shards i
      = if i = key.shard then (s.charge key e).1 else s.shards i :=
    shards_setShard s key.shard i fun _ => (s.charge key e).1
  have own : next.shards key.shard = (s.charge key e).1 := (shards _).trans (if_pos rfl)
  have other {i : Fin NSHARDS} (ne : i ≠ key.shard) : next.shards i = s.shards i :=
    (shards i).trans (if_neg ne)
  have seen {i : Fin NSHARDS} {k : MemberKey} {j : Nat} (ne : i ≠ key.shard)
      (lookup : (s.shards i).map.lookup k = some j) : next.isCharged j = s.isCharged j := by
    rw [now, if_neg]
    rintro rfl
    exact ne (alone lookup).2
  have weights (j : Nat) : next.weightOf j = if next.isCharged j then s.sizeOf j else 0 := by
    rw [weightOf, sized]
  suffices next.Accounted from ⟨this, subtracted⟩
  refine {
    nodup := fun i => ?_
    tracked := fun i k => ?_
    bytes := fun i => ?_
    inFlight := fun j entry₁ found₁ isCharged => ?_
    bounded := fun i => ?_
    disabled := fun disabled i => ?_ }
  · by_cases same : i = key.shard
    · rw [same, own]
      exact charge.nodup
    · rw [other same]
      exact accounted.nodup i
  · by_cases same : i = key.shard
    · rw [same, own]
      exact charge.tracked k
    · rw [other same, accounted.tracked]
      constructor
      · rintro ⟨j, lookup, isCharged⟩
        exact ⟨j, lookup, (seen same lookup).trans isCharged⟩
      · rintro ⟨j, lookup, isCharged⟩
        exact ⟨j, lookup, (seen same lookup).symm.trans isCharged⟩
  · simp only [weights]
    by_cases same : i = key.shard
    · rw [same, own]
      exact charge.bytes
    · rw [other same, accounted.bytes]
      apply Table.total_congr
      intro k j lookup
      rw [weightOf, seen same lookup]
  · have before : ∃ entry₂ : Entry, s.entries[j]? = some entry₂ ∧ entry₂.key = entry₁.key := by
      rw [entries] at found₁
      split at found₁
      · obtain ⟨entry₂, found₂, rfl⟩ := Option.map_eq_some_iff.mp found₁
        exact ⟨entry₂, found₂, rfl⟩
      · exact ⟨entry₁, found₁, rfl⟩
    obtain ⟨entry₂, found₂, keyEq₂⟩ := before
    have old : s.isCharged j = false := by
      have eq := now j
      rw [isCharged] at eq
      split at eq
      · cases eq
      · exact eq.symm
    have lookup := accounted.inFlight j entry₂ found₂ old
    rw [keyEq₂] at lookup
    by_cases same : entry₁.key.shard = key.shard
    · rw [same] at lookup ⊢
      rw [own]
      exact charge.kept entry₁.key j lookup isCharged
    · rw [other same]
      exact lookup
  · by_cases same : i = key.shard
    · rw [same, own]
      simp only [sized]
      exact charge.bounded
    · rw [other same]
      rcases accounted.bounded i with fits | ⟨k, j, lookup, isCharged, bytes⟩
      · exact .inl fits
      · exact .inr ⟨k, j, lookup, (seen same lookup).trans isCharged, bytes.trans (sized j).symm⟩
  · by_cases same : i = key.shard
    · rw [same, own]
      exact charge.disabled disabled
    · rw [other same]
      exact accounted.disabled disabled i

theorem Accounted.request {key : MemberKey}
    (careful : ∀ e, (s.shards key.shard).map.lookup key = some e → s.isReady e →
      s.isCharged e = true) : (s.request key).Accounted := by
  unfold MemberDecodeCache.request
  split
  · rename_i e found
    split
    · rename_i ready
      exact (accounted.touch found (careful e found ready)).addCall _
    · exact accounted.addCall _
  · rename_i absent
    exact (accounted.addEntry sound absent).addCall _

theorem Accounted.step {a : Action}
    {s' : MemberDecodeCache} (careful : Careful s a) (next : s.step a = some s') :
    s'.Accounted := by
  cases stepped next with
  | request key => exact accounted.request sound fun e => careful.charged key e rfl
  | hit call found free ready => exact accounted.advance found rfl rfl fun _ => rfl
  | @lock c e key entry call found free unready =>
    refine accounted.advance found rfl ?_ fun _ => rfl
    have same : (take c entry).ready = entry.ready := rfl
    rw [same, unready]
    rfl
  | @produce c e key bytes call =>
    obtain ⟨entry, found, keyEq, mutex, unready⟩ := sound.calls c _ call
    have uncharged : (entry.ready && entry.mutex.isNone) = false := by
      rw [unready]
      rfl
    have still : ((publish bytes entry).ready && (publish bytes entry).mutex.isNone) = false := by
      have same : (publish bytes entry).mutex = entry.mutex := rfl
      rw [same, mutex]
      rfl
    have advanced : (s.advance c (.accounting e) e (publish bytes)).Accounted :=
      accounted.advance found rfl (still.trans uncharged.symm) fun charged => by
        cases uncharged.symm.trans charged
    exact { advanced with }
  | @throw c e key call =>
    obtain ⟨entry, found, keyEq, mutex, unready⟩ := sound.calls c _ call
    refine accounted.advance found rfl ?_ fun _ => rfl
    have same : (release entry).ready = entry.ready := rfl
    rw [same, unready]
    rfl
  | account call found => exact (accounted.account sound call found (careful.memory _)).1

end

theorem accounted_run {capacityBytes : UInt64} {kind : EvictionKind} {actions : List Action}
    (run : Run Careful (init capacityBytes kind) actions s) : s.Accounted := by
  induction run with
  | nil => exact accounted_init capacityBytes kind
  | step before careful next ih => exact ih.step (sound_run before) careful next

/-- A careful step never subtracts more than is counted. -/
theorem subtractions_le (sound : s.Sound) (accounted : s.Accounted) {a : Action}
    (careful : Careful s a) : ∀ sub ∈ s.subtractions a, sub.2 ≤ sub.1 := by
  intro sub listed
  unfold subtractions at listed
  split at listed
  · rename_i c
    split at listed
    · rename_i key e call
      obtain ⟨entry, found, -⟩ := sound.calls c _ call
      exact (accounted.account sound call found (careful.memory _)).2 sub listed
    · cases listed
  · cases listed

/-- When no call is in progress, an entry that has not been accounted for is empty. -/
theorem retained_of_quiescent (sound : s.Sound) (accounted : s.Accounted) (quiet : s.Quiescent)
    (i : Fin NSHARDS) : (s.shards i).curBytes.toNat = s.retained i := by
  rw [accounted.bytes]
  apply Table.total_congr
  intro k e found
  obtain ⟨-, entry, entries, -⟩ := sound.keyed i k e found
  cases charged : s.isCharged e with
  | true => exact weightOf_of_charged charged
  | false =>
    have unready : entry.ready = false := by
      rw [isCharged_eq entries] at charged
      cases ready : entry.ready with
      | false => rfl
      | true =>
        rw [ready] at charged
        cases mutex : entry.mutex with
        | none =>
          rw [mutex] at charged
          cases charged
        | some c =>
          obtain ⟨key, phase, call, busy⟩ := sound.held e entry c entries mutex
          have done := quiet _ (mem_of_getElem? call)
          rcases busy with rfl | rfl
          · cases done
          · cases done
    rw [weightOf_of_uncharged charged, sizeOf_eq entries, sound.fresh e entry entries unready]

end MemberDecodeCache

end DFTracer.Cache
