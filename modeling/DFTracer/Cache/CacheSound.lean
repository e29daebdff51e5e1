/-
# Entries and their calls

Whatever calls do in whatever order, the mutex of an entry is held by the one call that decodes
or accounts for it, an entry is decoded successfully once, and what a call returns are the bytes
of its entry, which were produced for its key.
-/

import DFTracer.Cache.MemberDecodeCache
import DFTracer.Math.Lists

namespace DFTracer.Cache

open List

open Math (Table)

namespace MemberDecodeCache

/-! ## What a step does -/

/-- A call goes on to a phase and changes its entry. -/
def advance (s : MemberDecodeCache) (c : Nat) (phase : Phase) (e : Nat) (f : Entry → Entry) :
    MemberDecodeCache :=
  (s.setEntry e f).setPhase c phase

def take (c : Nat) (entry : Entry) : Entry := { entry with mutex := some c }

def release (entry : Entry) : Entry := { entry with mutex := none }

/-- The steps, each with the state that it leaves. -/
inductive Stepped (s : MemberDecodeCache) : Action → MemberDecodeCache → Prop where
  | request (key : MemberKey) : Stepped s (.request key) (s.request key)
  | hit {c e : Nat} {key : MemberKey} {entry : Entry}
      (call : s.calls[c]? = some ⟨key, .waiting e⟩) (found : s.entries[e]? = some entry)
      (free : entry.mutex = none) (ready : entry.ready = true) :
      Stepped s (.acquire c) (s.advance c (.returned e entry.bytes) e id)
  | lock {c e : Nat} {key : MemberKey} {entry : Entry}
      (call : s.calls[c]? = some ⟨key, .waiting e⟩) (found : s.entries[e]? = some entry)
      (free : entry.mutex = none) (unready : entry.ready = false) :
      Stepped s (.acquire c) (s.advance c (.decoding e) e (take c))
  | produce {c e : Nat} {key : MemberKey} (bytes : Option DecodedMember)
      (call : s.calls[c]? = some ⟨key, .decoding e⟩) :
      Stepped s (.produce c bytes) (s.advance c (.accounting e) e (publish bytes)).countDecode
  | throw {c e : Nat} {key : MemberKey} (call : s.calls[c]? = some ⟨key, .decoding e⟩) :
      Stepped s (.throw c) (s.advance c (.failed e) e release)
  | account {c e : Nat} {key : MemberKey} {entry : Entry}
      (call : s.calls[c]? = some ⟨key, .accounting e⟩) (found : s.entries[e]? = some entry) :
      Stepped s (.account c)
        ((s.setShard key.shard fun _ => (s.charge key e).1).advance c (.returned e entry.bytes) e
          release)

variable {a : Action} {s' : MemberDecodeCache}

theorem stepped {s : MemberDecodeCache} (next : s.step a = some s') : Stepped s a s' := by
  cases a with
  | request key =>
    cases next
    exact .request key
  | acquire c =>
    unfold step at next
    dsimp only at next
    split at next
    · rename_i key e call
      split at next
      · rename_i entry found
        split at next
        · cases next
        · rename_i free
          have free : entry.mutex = none := Option.not_isSome_iff_eq_none.mp free
          split at next
          · rename_i ready
            cases next
            have same : s.advance c (.returned e entry.bytes) e id
                = s.setPhase c (.returned e entry.bytes) := by
              rw [advance, setEntry, modify_id]
            exact same ▸ .hit call found free ready
          · rename_i unready
            cases next
            exact .lock call found free (Bool.eq_false_iff.mpr unready)
      · cases next
    · cases next
  | produce c bytes =>
    unfold step at next
    dsimp only at next
    split at next
    · rename_i key e call
      cases next
      exact .produce bytes call
    · cases next
  | throw c =>
    unfold step at next
    dsimp only at next
    split at next
    · rename_i key e call
      cases next
      exact .throw call
    · cases next
  | account c =>
    unfold step at next
    dsimp only at next
    split at next
    · rename_i key e call
      split at next
      · rename_i entry found
        cases next
        exact .account call found
      · cases next
    · cases next

section

variable (s : MemberDecodeCache) (c : Nat) (phase : Phase) (e : Nat) (f : Entry → Entry)

include s c phase e f

theorem entries_advance (j : Nat) :
    (s.advance c phase e f).entries[j]?
      = if j = e then (s.entries[j]?).map f else s.entries[j]? := by
  have modified : (s.advance c phase e f).entries[j]?
      = (fun entry => if e = j then f entry else entry) <$> s.entries[j]? :=
    getElem?_modify f e s.entries j
  rw [modified]
  by_cases same : j = e
  · rw [same]
    simp
  · rw [if_neg same]
    simp [Ne.symm same]

theorem calls_advance (c' : Nat) :
    (s.advance c phase e f).calls[c']?
      = if c' = c then (s.calls[c']?).map fun call => { call with phase := phase }
        else s.calls[c']? := by
  have modified : (s.advance c phase e f).calls[c']?
      = (fun call : Call => if c = c' then { call with phase := phase } else call)
        <$> s.calls[c']? :=
    getElem?_modify _ c s.calls c'
  rw [modified]
  by_cases same : c' = c
  · rw [same]
    simp
  · rw [if_neg same]
    simp [Ne.symm same]

end

variable {phase : Phase} {c e : Nat}

variable {f : Entry → Entry} {entry' : Entry} {c' : Nat} {sizeOf : Nat → Nat} {capacity : UInt64}
  {shard : Shard} {k : MemberKey} {allowed : MemberDecodeCache → Action → Prop}
  {capacityBytes : UInt64} {kind : EvictionKind} {actions : List Action}

/-- Where an entry comes from when a call advances. -/
theorem advance_entry {s : MemberDecodeCache} {j : Nat} (found : (s.advance c phase e f).entries[j]? = some entry') :
    (j ≠ e ∧ s.entries[j]? = some entry') ∨
    ∃ entry, j = e ∧ s.entries[e]? = some entry ∧ entry' = f entry := by
  rw [entries_advance] at found
  by_cases same : j = e
  · rw [if_pos same] at found
    obtain ⟨entry, before, after⟩ := Option.map_eq_some_iff.mp found
    exact .inr ⟨entry, same, same ▸ before, after.symm⟩
  · rw [if_neg same] at found
    exact .inl ⟨same, found⟩

/-- Where a call comes from when a call advances. -/
theorem advance_call {s : MemberDecodeCache}
    {call' : Call} (found : (s.advance c phase e f).calls[c']? = some call') :
    (c' ≠ c ∧ s.calls[c']? = some call') ∨
    ∃ call, c' = c ∧ s.calls[c]? = some call ∧ call' = { call with phase := phase } := by
  rw [calls_advance] at found
  by_cases same : c' = c
  · rw [if_pos same] at found
    obtain ⟨call, before, after⟩ := Option.map_eq_some_iff.mp found
    exact .inr ⟨call, same, same ▸ before, after.symm⟩
  · rw [if_neg same] at found
    exact .inl ⟨same, found⟩

theorem evict_lookup {fuel : Nat}
    (found : (shard.evict sizeOf capacity fuel).1.map.lookup k = some e) :
    shard.map.lookup k = some e := by
  induction fuel generalizing shard with
  | zero => exact found
  | succ fuel ih =>
    unfold Shard.evict at found
    split at found
    · split at found
      · exact found
      · split at found
        · have before := ih found
          exact before
        · have before := ih found
          rw [Table.lookup_erase] at before
          split at before
          · cases before
          · exact before
    · exact found

variable {key : MemberKey}

theorem charge_lookup {e₀ : Nat}
    (found : (shard.charge sizeOf capacity key e₀).1.map.lookup k = some e) :
    shard.map.lookup k = some e := by
  unfold Shard.charge at found
  split at found
  · rw [Table.lookup_erase] at found
    split at found
    · cases found
    · exact found
  · have before := evict_lookup found
    exact before

theorem shards_setShard (s : MemberDecodeCache) (i j : Fin NSHARDS) (f : Shard → Shard) :
    (s.setShard i f).shards j = if j = i then f (s.shards i) else s.shards j := by
  by_cases same : j = i
  · subst same
    rw [if_pos rfl]
    exact Function.update_self _ _ _
  · rw [if_neg same]
    exact Function.update_of_ne same _ _

/-! ## Sound states -/

/-- What the phase of a call says of its entry. -/
def Agrees (c : Nat) : Phase → Entry → Prop
  | .waiting _, _ => True
  | .decoding _, entry => entry.mutex = some c ∧ entry.ready = false
  | .accounting _, entry => entry.mutex = some c ∧ entry.ready = true
  | .returned _ bytes, entry => entry.ready = true ∧ entry.bytes = bytes
  | .failed _, _ => True

/-- The entries of the maps and of the calls are entries of their keys, and a mutex that is held is
held by a call that decodes or accounts for the entry. -/
structure Sound (s : MemberDecodeCache) : Prop where
  keyed : ∀ i k e, (s.shards i).map.lookup k = some e →
    k.shard = i ∧ ∃ entry, s.entries[e]? = some entry ∧ entry.key = k
  calls : ∀ c call, s.calls[c]? = some call → ∃ entry,
    s.entries[call.phase.entry]? = some entry ∧ entry.key = call.key ∧ Agrees c call.phase entry
  held : ∀ (e : Nat) (entry : Entry) (c : Nat), s.entries[e]? = some entry →
    entry.mutex = some c → ∃ key phase,
    s.calls[c]? = some ⟨key, phase⟩ ∧ (phase = .decoding e ∨ phase = .accounting e)
  fresh : ∀ (e : Nat) (entry : Entry), s.entries[e]? = some entry → entry.ready = false →
    entry.size = 0
  count : s.decodes = s.entries.countP Entry.ready

theorem sound_init (capacityBytes : UInt64) (kind : EvictionKind) :
    (init capacityBytes kind).Sound where
  keyed _ _ _ found := by cases found
  calls _ _ found := by cases found
  held _ _ _ found := by cases found
  fresh _ _ found := by cases found
  count := rfl

variable {s : MemberDecodeCache}

variable {entry : Entry}

section

variable (sound : s.Sound)

include sound

/-- A call that advances keeps the state sound, when what it does to its entry agrees with its
phase, with those of the other calls, and with who holds the mutex. -/
theorem Sound.advance {f : Entry → Entry} {next : Phase} {decodes : Nat}
    (call : s.calls[c]? = some ⟨key, phase⟩) (own : phase.entry = e)
    (found : s.entries[e]? = some entry) (nextEntry : next.entry = e)
    (keeps : (f entry).key = entry.key) (agrees : Agrees c next (f entry))
    (others : ∀ c' phase', c' ≠ c → Agrees c' phase' entry → Agrees c' phase' (f entry))
    (holder : ∀ c', (f entry).mutex = some c' → entry.mutex = some c' ∧ c' ≠ c ∨
      c' = c ∧ (next = .decoding e ∨ next = .accounting e))
    (fresh : (f entry).ready = false → (f entry).size = 0)
    (count : decodes + (if entry.ready then 1 else 0)
      = s.decodes + if (f entry).ready then 1 else 0) :
    ({ s.advance c next e f with decodes := decodes } : MemberDecodeCache).Sound where
  keyed i k e' listed := by
    obtain ⟨shard, entry', before, keyEq⟩ := sound.keyed i k e' listed
    by_cases same : e' = e
    · subst same
      rw [found] at before
      cases before
      refine ⟨shard, f entry, ?_, keeps.trans keyEq⟩
      have after := s.entries_advance c next e' f e'
      rw [if_pos rfl, found] at after
      exact after
    · refine ⟨shard, entry', ?_, keyEq⟩
      have after := s.entries_advance c next e f e'
      rw [if_neg same] at after
      exact after.trans before
  calls c' call' listed := by
    have moved := s.entries_advance c next e f
    have listed : (s.advance c next e f).calls[c']? = some call' := listed
    rcases advance_call listed with ⟨ne, before⟩ | ⟨call₀, rfl, before, rfl⟩
    · obtain ⟨entry', before', keyEq, agrees'⟩ := sound.calls c' call' before
      by_cases same : call'.phase.entry = e
      · rw [same, found] at before'
        cases before'
        refine ⟨f entry, ?_, keeps.trans keyEq, others c' call'.phase ne agrees'⟩
        have after := moved e
        rw [if_pos rfl, found] at after
        exact same ▸ after
      · refine ⟨entry', ?_, keyEq, agrees'⟩
        have after := moved call'.phase.entry
        rw [if_neg same] at after
        exact after.trans before'
    · rw [call] at before
      cases before
      obtain ⟨entry', before', keyEq, -⟩ := sound.calls c' ⟨key, phase⟩ call
      rw [own, found] at before'
      cases before'
      refine ⟨f entry, ?_, keeps.trans keyEq, agrees⟩
      have after := moved e
      rw [if_pos rfl, found] at after
      exact nextEntry ▸ after
  held e' entry' c' listed mutex := by
    have moved := s.calls_advance c next e f c'
    have listed : (s.advance c next e f).entries[e']? = some entry' := listed
    rcases advance_entry listed with ⟨ne, before⟩ | ⟨entry₀, rfl, before, rfl⟩
    · obtain ⟨key', phase', call', busy⟩ := sound.held e' entry' c' before mutex
      have other : c' ≠ c := by
        intro same
        rw [same, call] at call'
        cases call'
        rcases busy with rfl | rfl
        · exact ne own
        · exact ne own
      rw [if_neg other] at moved
      exact ⟨key', phase', moved.trans call', busy⟩
    · rw [found] at before
      cases before
      rcases holder c' mutex with ⟨old, other⟩ | ⟨rfl, busy⟩
      · rw [if_neg other] at moved
        obtain ⟨key', phase', call', busy⟩ := sound.held e' entry c' found old
        exact ⟨key', phase', moved.trans call', busy⟩
      · rw [if_pos rfl, call] at moved
        exact ⟨key, next, moved, busy⟩
  fresh e' entry' listed unready := by
    have listed : (s.advance c next e f).entries[e']? = some entry' := listed
    rcases advance_entry listed with ⟨ne, before⟩ | ⟨entry₀, rfl, before, rfl⟩
    · exact sound.fresh e' entry' before unready
    · rw [found] at before
      cases before
      exact fresh unready
  count := by
    have counted := Math.countP_modify Entry.ready f found
    have before := sound.count
    have after : (s.advance c next e f).entries = s.entries.modify e f := rfl
    dsimp only
    rw [after]
    omega

/-- A shard whose map holds no more keeps the state sound. -/
theorem Sound.setShard {i : Fin NSHARDS} {f : Shard → Shard}
    (less : ∀ k e, (f (s.shards i)).map.lookup k = some e → (s.shards i).map.lookup k = some e) :
    (s.setShard i f).Sound where
  keyed j k e listed := by
    rw [shards_setShard] at listed
    by_cases same : j = i
    · rw [if_pos same] at listed
      exact same ▸ sound.keyed i k e (less k e listed)
    · rw [if_neg same] at listed
      exact sound.keyed j k e listed
  __ := sound

/-- A call that has looked up an entry of its key. -/
theorem Sound.addCall
    (found : s.entries[e]? = some entry) (keyEq : entry.key = key) :
    (s.addCall ⟨key, .waiting e⟩).Sound where
  __ := sound
  calls c call listed := by
    rcases Math.getElem?_concat listed with before | ⟨-, rfl⟩
    · exact sound.calls c call before
    · exact ⟨entry, found, keyEq, trivial⟩
  held e' entry' c listed mutex := by
    obtain ⟨key', phase', call, busy⟩ := sound.held e' entry' c listed mutex
    refine ⟨key', phase', ?_, busy⟩
    exact (getElem?_append_left (List.getElem?_eq_some_iff.mp call).1).trans call

/-- A new entry, which the map of its shard is told. -/
theorem Sound.addEntry (key : MemberKey) :
    ((s.addEntry { key := key }).setShard key.shard fun shard =>
      { shard with map := shard.map.alter key fun _ => s.entries.length }).Sound where
  keyed j k e listed := by
    have old {e : Nat} {entry : Entry} (found : s.entries[e]? = some entry) :
        (s.entries ++ [{ key := key }])[e]? = some entry :=
      (getElem?_append_left (List.getElem?_eq_some_iff.mp found).1).trans found
    rw [shards_setShard] at listed
    have before (listed : (s.shards j).map.lookup k = some e) : k.shard = j ∧
        ∃ entry, (s.entries ++ [{ key := key }])[e]? = some entry ∧ entry.key = k := by
      obtain ⟨shard, entry, found, keyEq⟩ := sound.keyed j k e listed
      exact ⟨shard, entry, old found, keyEq⟩
    by_cases same : j = key.shard
    · rw [if_pos same] at listed
      rw [Table.lookup_alter] at listed
      by_cases eq : k = key
      · rw [if_pos eq] at listed
        cases listed
        exact ⟨eq ▸ same.symm, { key := key }, getElem?_concat_length, eq.symm⟩
      · rw [if_neg eq] at listed
        exact before (same ▸ listed)
    · rw [if_neg same] at listed
      exact before listed
  calls c call listed := by
    obtain ⟨entry, found, keyEq, agrees⟩ := sound.calls c call listed
    exact ⟨entry,
      (getElem?_append_left (List.getElem?_eq_some_iff.mp found).1).trans found, keyEq, agrees⟩
  held e entry c listed mutex := by
    rcases Math.getElem?_concat listed with before | ⟨-, rfl⟩
    · exact sound.held e entry c before mutex
    · cases mutex
  fresh e entry listed unready := by
    rcases Math.getElem?_concat listed with before | ⟨-, rfl⟩
    · exact sound.fresh e entry before unready
    · rfl
  count := by
    have entries : ((s.addEntry { key := key }).setShard key.shard fun shard =>
        { shard with map := shard.map.alter key fun _ => s.entries.length }).entries
        = s.entries ++ [{ key := key }] := rfl
    rw [entries, countP_append]
    exact sound.count

theorem Sound.request (key : MemberKey) : (s.request key).Sound := by
  unfold MemberDecodeCache.request
  split
  · rename_i e listed
    obtain ⟨-, entry, found, keyEq⟩ := sound.keyed _ key e listed
    split
    · exact (sound.setShard fun _ _ listed => listed).addCall found keyEq
    · exact sound.addCall found keyEq
  · exact (sound.addEntry key).addCall getElem?_concat_length rfl

end

/-- Calls that do not hold the mutex do not see it go free. -/
theorem agrees_release (mutex : entry.mutex = some c)
    (other : c' ≠ c) (agrees : Agrees c' phase entry) : Agrees c' phase (release entry) := by
  cases phase with
  | waiting => trivial
  | decoding | accounting => exact absurd (Option.some.inj (mutex.symm.trans agrees.1)).symm other
  | returned _ _ => exact agrees
  | failed => trivial

theorem Sound.step (sound : s.Sound) (next : s.step a = some s') : s'.Sound := by
  cases stepped next with
  | request key => exact sound.request key
  | @hit c e key entry call found free ready =>
    exact sound.advance call rfl found rfl rfl ⟨ready, rfl⟩ (fun _ _ _ agrees => agrees)
      (fun c' held => absurd (free.symm.trans held) (Option.some_ne_none c').symm)
      (sound.fresh e entry found) rfl
  | @lock c e key entry call found free unready =>
    refine sound.advance call rfl found rfl rfl ⟨rfl, unready⟩ ?_ ?_ (sound.fresh e entry found)
      rfl
    · intro c' phase' _ agrees
      cases phase' with
      | waiting => trivial
      | decoding | accounting =>
        exact absurd (free.symm.trans agrees.1) (Option.some_ne_none c').symm
      | returned _ _ => exact agrees
      | failed => trivial
    · intro c' held
      exact .inr ⟨(Option.some.inj held).symm, .inl rfl⟩
  | @produce c e key bytes call =>
    obtain ⟨entry, found, keyEq, mutex, unready⟩ := sound.calls c _ call
    refine sound.advance call rfl found rfl rfl ⟨mutex, rfl⟩ ?_ ?_
      (fun unready' => by cases unready') ?_
    · intro c' phase' other agrees
      cases phase' with
      | waiting => trivial
      | decoding | accounting =>
        exact absurd (Option.some.inj (mutex.symm.trans agrees.1)).symm other
      | returned _ _ => exact absurd (unready.symm.trans agrees.1) Bool.false_ne_true
      | failed => trivial
    · intro c' held
      exact .inr ⟨(Option.some.inj (mutex.symm.trans held)).symm, .inr rfl⟩
    · rw [unready]
      rfl
  | @throw c e key call =>
    obtain ⟨entry, found, keyEq, mutex, unready⟩ := sound.calls c _ call
    exact sound.advance call rfl found rfl rfl trivial (fun c' _ => agrees_release mutex)
      (fun c' held => by cases held) (sound.fresh e entry found) rfl
  | @account c e key entry call found =>
    have charged : (s.setShard key.shard fun _ => (s.charge key e).1).Sound :=
      sound.setShard fun _ _ listed => charge_lookup listed
    obtain ⟨entry', found', keyEq, mutex, ready⟩ := sound.calls c _ call
    cases found.symm.trans found'
    exact charged.advance call rfl found rfl rfl ⟨ready, rfl⟩ (fun c' _ => agrees_release mutex)
      (fun c' held => by cases held) (sound.fresh e entry found) rfl

theorem sound_run {s : MemberDecodeCache}
    (run : Run allowed (init capacityBytes kind) actions s) : s.Sound := by
  induction run with
  | nil => exact sound_init capacityBytes kind
  | step _ _ next ih => exact ih.step next

/-- A call keeps its key. -/
theorem call_stepped (next : Stepped s a s') (call : s.calls[c]? = some ⟨key, phase⟩) :
    ∃ phase', s'.calls[c]? = some ⟨key, phase'⟩ := by
  have advanced (s : MemberDecodeCache) (call : s.calls[c]? = some ⟨key, phase⟩) (c' : Nat)
      (next : Phase) (e : Nat) (f : Entry → Entry) :
      ∃ phase', (s.advance c' next e f).calls[c]? = some ⟨key, phase'⟩ := by
    rw [calls_advance, call]
    split
    · exact ⟨next, rfl⟩
    · exact ⟨phase, rfl⟩
  cases next with
  | request key' =>
    have added (s' : MemberDecodeCache) (same : s'.calls = s.calls) (new : Call) :
        (s'.addCall new).calls[c]? = some ⟨key, phase⟩ := by
      have calls : (s'.addCall new).calls = s.calls ++ [new] := congrArg (· ++ [new]) same
      rw [calls]
      exact (getElem?_append_left (List.getElem?_eq_some_iff.mp call).1).trans call
    refine ⟨phase, ?_⟩
    unfold MemberDecodeCache.request
    split
    · split
      · exact added _ rfl _
      · exact added _ rfl _
    · exact added _ rfl _
  | hit | lock | produce | throw => exact advanced s call _ _ _ _
  | @account c' e key' entry _ _ =>
    exact advanced (s.setShard key'.shard fun _ => (s.charge key' e).1) call c' _ e release

theorem entries_request (s : MemberDecodeCache) (key : MemberKey) :
    (s.request key).entries = s.entries ∨ (s.request key).entries = s.entries ++ [{ key := key }] := by
  unfold MemberDecodeCache.request
  split
  · split
    · exact .inl rfl
    · exact .inl rfl
  · exact .inr rfl

/-- An entry that is ready was so before, or is what the step has produced. -/
theorem entry_stepped (sound : s.Sound)
    (next : Stepped s a s') (found : s'.entries[e]? = some entry') (ready : entry'.ready = true) :
    (∃ entry, s.entries[e]? = some entry ∧ entry.ready = true ∧ entry.key = entry'.key ∧
      entry.bytes = entry'.bytes) ∨
    ∃ c phase, a = .produce c entry'.bytes ∧ s.calls[c]? = some ⟨entry'.key, phase⟩ := by
  have advanced {c e₀ : Nat} {phase : Phase} {f : Entry → Entry}
      (found : (s.advance c phase e₀ f).entries[e]? = some entry')
      (keeps : ∀ entry, (f entry).key = entry.key ∧ (f entry).ready = entry.ready ∧
        (f entry).bytes = entry.bytes) :
      ∃ entry, s.entries[e]? = some entry ∧ entry.ready = true ∧ entry.key = entry'.key ∧
        entry.bytes = entry'.bytes := by
    rcases advance_entry found with ⟨-, before⟩ | ⟨entry, rfl, before, rfl⟩
    · exact ⟨entry', before, ready, rfl, rfl⟩
    · obtain ⟨key, ready', bytes⟩ := keeps entry
      exact ⟨entry, before, ready'.symm.trans ready, key.symm, bytes.symm⟩
  cases next with
  | request key =>
    left
    rcases entries_request s key with same | more
    · rw [same] at found
      exact ⟨entry', found, ready, rfl, rfl⟩
    · rw [more] at found
      rcases Math.getElem?_concat found with before | ⟨-, rfl⟩
      · exact ⟨entry', before, ready, rfl, rfl⟩
      · cases ready
  | hit | lock => exact .inl (advanced found fun _ => ⟨rfl, rfl, rfl⟩)
  | @produce c e₀ key bytes call =>
    have found : (s.advance c (.accounting e₀) e₀ (publish bytes)).entries[e]? = some entry' :=
      found
    rcases advance_entry found with ⟨-, before⟩ | ⟨entry, rfl, before, rfl⟩
    · exact .inl ⟨entry', before, ready, rfl, rfl⟩
    · obtain ⟨entry₁, found₁, keyEq, -⟩ := sound.calls c _ call
      cases before.symm.trans found₁
      exact .inr ⟨c, .decoding e, rfl, keyEq ▸ call⟩
  | throw => exact .inl (advanced found fun _ => ⟨rfl, rfl, rfl⟩)
  | @account c e₀ key entry _ _ =>
    have found : (s.advance c (.returned e₀ entry.bytes) e₀ release).entries[e]? = some entry' :=
      found
    exact .inl (advanced found fun _ => ⟨rfl, rfl, rfl⟩)

/-- The bytes of an entry that is ready were produced by a call of its key. -/
theorem entry_produced (run : Run allowed (init capacityBytes kind) actions s)
    (found : s.entries[e]? = some entry) (ready : entry.ready = true) :
    ∃ c phase, .produce c entry.bytes ∈ actions ∧ s.calls[c]? = some ⟨entry.key, phase⟩ := by
  induction run generalizing e entry with
  | nil => cases found
  | @step actions s s' a before _ next ih =>
    have stepped := stepped next
    rcases entry_stepped (sound_run before) stepped found ready with
      ⟨entry₀, found₀, ready₀, key, bytes⟩ | ⟨c, phase, rfl, call⟩
    · obtain ⟨c, phase, produced, call⟩ := ih found₀ ready₀
      obtain ⟨phase', call'⟩ := call_stepped stepped call
      exact ⟨c, phase', mem_append_left _ (bytes ▸ produced), key ▸ call'⟩
    · obtain ⟨phase', call'⟩ := call_stepped stepped call
      exact ⟨c, phase', mem_append_right _ (mem_singleton_self _), call'⟩

/-- What a call returns was produced by a call of its key. -/
theorem returned_produced (run : Run allowed (init capacityBytes kind) actions s)
    {bytes : Option DecodedMember} (call : s.calls[c]? = some ⟨key, .returned e bytes⟩) :
    ∃ c' phase, .produce c' bytes ∈ actions ∧ s.calls[c']? = some ⟨key, phase⟩ := by
  obtain ⟨entry, found, keyEq, ready, rfl⟩ := (sound_run run).calls c _ call
  have keyEq : entry.key = key := keyEq
  exact keyEq ▸ entry_produced run found ready

end MemberDecodeCache

end DFTracer.Cache
