/-
# Eviction policies as linked lists

The policies keep their keys in a linked list and find the node of a key in a map. The clock has
a hand, which is a node of its list or the end of it. The lists do what the orders of keys do, and
what they hold and give back is known from what happened before.
-/

import DFTracer.Cache.MemberDecodeCache
import Mathlib.Data.List.AList
import Mathlib.Data.List.Induction

namespace DFTracer.Cache

open List

/-- A node of a list, at its address. -/
structure Node (α : Type) where
  address : Nat
  value : α

variable {κ α : Type} [DecidableEq κ]

/-- A list and the map that finds its nodes. No node has the next address yet. -/
structure NodeList (κ α : Type) where
  nodes : List (Node α) := []
  pos : AList fun _ : κ => Nat := ∅
  next : Nat := 0

namespace NodeList

variable (l : NodeList κ α)

def node? (address : Nat) : Option (Node α) := l.nodes.find? fun n => n.address = address

/-- The node after another one, or none at the end. -/
def after (address : Nat) : Option Nat :=
  ((l.nodes.dropWhile fun n => n.address ≠ address).drop 1).head?.map Node.address

def erase (key : κ) (address : Nat) : NodeList κ α :=
  { l with nodes := l.nodes.filter fun n => n.address ≠ address, pos := l.pos.erase key }

def modify (address : Nat) (f : α → α) : NodeList κ α :=
  { l with nodes := l.nodes.map fun n =>
      if n.address = address then { n with value := f n.value } else n }

end NodeList

/-- The state of a policy. The hand of the clock is none at the end of the ring. -/
inductive ListPolicy (κ : Type) where
  | lru (order : NodeList κ κ)
  | clock (ring : NodeList κ (Slot κ)) (hand : Option Nat)

namespace ListPolicy

def makeEvictionPolicy : EvictionKind → ListPolicy κ
  | .CLOCK => clock {} none
  | .LRU => lru {}

def touch (key : κ) : ListPolicy κ → ListPolicy κ
  | lru order =>
    match order.pos.lookup key with
    | some address =>
      -- splicing moves the node and keeps its address
      let front := (order.node? address).toList
      lru { order with nodes := front ++ order.nodes.filter fun n => n.address ≠ address }
    | none =>
      lru ⟨⟨order.next, key⟩ :: order.nodes, order.pos.insert key order.next, order.next + 1⟩
  | clock ring hand =>
    match ring.pos.lookup key with
    | some address => clock (ring.modify address fun slot => { slot with ref := true }) hand
    | none =>
      clock ⟨ring.nodes ++ [⟨ring.next, key, true⟩], ring.pos.insert key ring.next,
        ring.next + 1⟩ hand

def remove (key : κ) : ListPolicy κ → ListPolicy κ
  | lru order =>
    match order.pos.lookup key with
    | none => lru order
    | some address => lru (order.erase key address)
  | clock ring hand =>
    match ring.pos.lookup key with
    | none => clock ring hand
    | some address =>
      clock (ring.erase key address) (if hand = some address then ring.after address else hand)

/-- Move the hand on, up to a number of steps, and from the end to the beginning. -/
def sweep : Nat → NodeList κ (Slot κ) → Option Nat → Option κ × ListPolicy κ
  | 0, ring, hand => (none, clock ring hand)
  | steps + 1, ring, hand =>
    let hand := hand.or (ring.nodes.head?.map Node.address)
    match hand.bind ring.node? with
    | none => (none, clock ring hand)
    | some n =>
      if n.value.ref then
        sweep steps (ring.modify n.address fun slot => { slot with ref := false })
          (ring.after n.address)
      else
        (some n.value.key, clock (ring.erase n.value.key n.address) (ring.after n.address))

def popVictim : ListPolicy κ → Option κ × ListPolicy κ
  | lru order =>
    match order.nodes.getLast? with
    | none => (none, lru order)
    | some n =>
      let order := { order with nodes := order.nodes.dropLast, pos := order.pos.erase n.value }
      (some n.value, lru order)
  | clock ring hand =>
    if ring.nodes = [] then (none, clock ring hand) else sweep (2 * ring.nodes.length + 1) ring hand

/-- The keys that the map knows. -/
def tracks (p : ListPolicy κ) (key : κ) : Prop :=
  match p with
  | lru order => key ∈ order.pos
  | clock ring _ => key ∈ ring.pos

/-- The slots of the ring. -/
def slots : ListPolicy κ → List (Slot κ)
  | lru _ => []
  | clock ring _ => ring.nodes.map Node.value

end ListPolicy

/-! ## The list and the map -/

/-- The map leads to the nodes, each at an address of its own. -/
structure NodeList.Agrees (key : α → κ) (l : NodeList κ α) : Prop where
  distinct : (l.nodes.map Node.address).Nodup
  fresh : ∀ n ∈ l.nodes, n.address < l.next
  mapped : ∀ k a, l.pos.lookup k = some a ↔ ∃ n ∈ l.nodes, key n.value = k ∧ n.address = a

namespace NodeList.Agrees

variable {key : α → κ} {l : NodeList κ α} {n : Node α} {before rest : List (Node α)} {k : κ}
  {a : Nat}

theorem tracked (agrees : l.Agrees key) (k : κ) :
    k ∈ l.pos ↔ k ∈ l.nodes.map fun n => key n.value := by
  rw [← AList.lookup_isSome, Option.isSome_iff_exists, mem_map]
  simp only [agrees.mapped]
  constructor
  · rintro ⟨_, n, listed, same, _⟩
    exact ⟨n, listed, same⟩
  · rintro ⟨n, listed, same⟩
    exact ⟨n.address, n, listed, same, rfl⟩

/-- The other nodes have other addresses and other keys. -/
theorem others (agrees : l.Agrees key) (split : l.nodes = before ++ n :: rest) :
    ∀ m ∈ before ++ rest, m.address ≠ n.address ∧ key m.value ≠ key n.value := by
  have distinct := agrees.distinct
  rw [split, (perm_middle.map Node.address).nodup_iff, map_cons, nodup_cons] at distinct
  intro m listed
  have apart : m.address ≠ n.address := fun same =>
    distinct.1 (same ▸ mem_map_of_mem listed)
  have inList : ∀ {x}, x ∈ n :: (before ++ rest) → x ∈ l.nodes := fun h => by
    rw [split]
    exact perm_middle.mem_iff.mpr h
  refine ⟨apart, fun same => apart (Option.some.inj ?_)⟩
  rw [← (agrees.mapped (key m.value) m.address).mpr
      ⟨m, inList (mem_cons_of_mem _ listed), rfl, rfl⟩,
    (agrees.mapped (key m.value) n.address).mpr ⟨n, inList mem_cons_self, same.symm, rfl⟩]

theorem node?_eq (agrees : l.Agrees key) (split : l.nodes = before ++ n :: rest) :
    l.node? n.address = some n := by
  have apart := agrees.others split
  rw [node?, split, find?_append, find?_eq_none.mpr, Option.none_or, find?_cons_of_pos]
  · exact decide_eq_true rfl
  · intro m listed
    simpa using (apart m (mem_append_left _ listed)).1

theorem after_eq (agrees : l.Agrees key) (split : l.nodes = before ++ n :: rest) :
    l.after n.address = rest.head?.map Node.address := by
  have apart := agrees.others split
  rw [after, split, dropWhile_append_of_pos, dropWhile_cons_of_neg, drop_one, tail_cons]
  · simp
  · intro m listed
    simpa using (apart m (mem_append_left _ listed)).1

theorem filter_eq (agrees : l.Agrees key) (split : l.nodes = before ++ n :: rest) :
    (l.nodes.filter fun m => m.address ≠ n.address) = before ++ rest := by
  have apart := agrees.others split
  rw [split, filter_append, filter_cons_of_neg (by simp), ← filter_append, filter_eq_self]
  intro m listed
  simpa using (apart m listed).1

theorem modify_eq (agrees : l.Agrees key) (split : l.nodes = before ++ n :: rest) (f : α → α) :
    (l.modify n.address f).nodes = before ++ { n with value := f n.value } :: rest := by
  have same : ∀ part : List (Node α), (∀ m ∈ part, m ∈ before ++ rest) →
      (part.map fun m => if m.address = n.address then { m with value := f m.value } else m) =
        part := by
    intro part inside
    rw [map_congr_left fun m listed => if_neg (agrees.others split m (inside m listed)).1, map_id']
  rw [modify, split, map_append, map_cons, if_pos rfl,
    same before fun m => mem_append_left _, same rest fun m => mem_append_right _]

/-- The order of the nodes does not matter to the map. -/
theorem of_perm (agrees : l.Agrees key) (nodes : List (Node α)) (perm : nodes.Perm l.nodes) :
    Agrees key { l with nodes } where
  distinct := (perm.map _).nodup_iff.mpr agrees.distinct
  fresh n listed := agrees.fresh n (perm.mem_iff.mp listed)
  mapped k a := by
    rw [agrees.mapped]
    simp only [perm.mem_iff]

/-- A node for a new key, at the next address. -/
theorem cons (agrees : l.Agrees key) (value : α) (new : l.pos.lookup (key value) = none) :
    Agrees key ⟨⟨l.next, value⟩ :: l.nodes, l.pos.insert (key value) l.next, l.next + 1⟩ where
  distinct := by
    refine nodup_cons.mpr ⟨fun again => ?_, agrees.distinct⟩
    obtain ⟨n, listed, same⟩ := mem_map.mp again
    have same : n.address = l.next := same
    have older := agrees.fresh n listed
    omega
  fresh n listed := by
    rcases mem_cons.mp listed with rfl | listed
    · exact Nat.lt_succ_self _
    · exact (agrees.fresh n listed).trans (Nat.lt_succ_self _)
  mapped k a := by
    simp only [mem_cons, exists_eq_or_imp]
    by_cases here : k = key value
    · subst here
      rw [AList.lookup_insert, Option.some.injEq]
      refine ⟨fun same => .inl ⟨rfl, same⟩, fun h => h.elim And.right fun old => ?_⟩
      rw [← agrees.mapped, new] at old
      cases old
    · rw [AList.lookup_insert_ne here, agrees.mapped]
      exact (or_iff_right fun h => here h.1.symm).symm

/-- The address of a key is that of its node alone. -/
theorem address_iff (agrees : l.Agrees key) (found : l.pos.lookup k = some a)
    (listed : n ∈ l.nodes) : n.address = a ↔ key n.value = k := by
  obtain ⟨m, inside, same, here⟩ := (agrees.mapped k a).mp found
  constructor
  · intro at_a
    rw [inj_on_of_nodup_map agrees.distinct listed inside (at_a.trans here.symm), same]
  · intro keyed
    have mapped := (agrees.mapped k n.address).mpr ⟨n, listed, keyed, rfl⟩
    exact Option.some.inj (mapped.symm.trans found)

theorem erase (agrees : l.Agrees key) (found : l.pos.lookup k = some a) :
    (l.erase k a).Agrees key where
  distinct := (filter_sublist.map Node.address).nodup agrees.distinct
  fresh m listed := agrees.fresh m (mem_of_mem_filter listed)
  mapped j b := by
    have kept : ∀ m, m ∈ (l.erase k a).nodes ↔ m ∈ l.nodes ∧ key m.value ≠ k := fun m => by
      rw [NodeList.erase, mem_filter, decide_eq_true_iff]
      exact and_congr_right fun listed => not_congr (agrees.address_iff found listed)
    simp only [kept]
    by_cases here : j = k
    · rw [here, NodeList.erase, AList.lookup_erase]
      refine iff_of_false nofun ?_
      rintro ⟨m, ⟨_, other⟩, same, _⟩
      exact other same
    · rw [NodeList.erase, AList.lookup_erase_ne here, agrees.mapped]
      refine exists_congr fun m => and_congr_left fun same => (and_iff_left ?_).symm
      exact same.1 ▸ here

/-- Changing a value without its key. -/
theorem modify (agrees : l.Agrees key) (a : Nat) {f : α → α} (same : ∀ x, key (f x) = key x) :
    (l.modify a f).Agrees key := by
  have address : ∀ m : Node α,
      (if m.address = a then { m with value := f m.value } else m).address = m.address :=
    fun m => by split <;> rfl
  have keyed : ∀ m : Node α,
      key (if m.address = a then { m with value := f m.value } else m).value = key m.value :=
    fun m => by
      split
      · exact same _
      · rfl
  constructor
  · have addresses : (l.modify a f).nodes.map Node.address = l.nodes.map Node.address := by
      rw [NodeList.modify, map_map]
      exact map_congr_left fun m _ => address m
    exact addresses ▸ agrees.distinct
  · intro m listed
    obtain ⟨m, inside, rfl⟩ := mem_map.mp listed
    exact (address m).symm ▸ agrees.fresh m inside
  · intro k b
    rw [NodeList.modify, agrees.mapped]
    simp only [mem_map, exists_exists_and_eq_and, address, keyed]

end NodeList.Agrees

/-! ## The lists do what the orders do -/

namespace EvictionPolicy

def remove (key : κ) : EvictionPolicy κ → EvictionPolicy κ
  | lru order => lru (order.filter fun k => k ≠ key)
  | clock swept ahead =>
    clock (swept.filter fun slot => slot.key ≠ key) (ahead.filter fun slot => slot.key ≠ key)

end EvictionPolicy

namespace ListPolicy

/-- The order of the keys that a list holds, and the ring from its hand on. -/
inductive Represents : ListPolicy κ → EvictionPolicy κ → Prop
  | lru {order : NodeList κ κ} (agrees : order.Agrees id) :
      Represents (lru order) (.lru (order.nodes.map Node.value))
  | clock {ring : NodeList κ (Slot κ)} {swept ahead : List (Node (Slot κ))}
      (agrees : ring.Agrees Slot.key) (split : ring.nodes = swept ++ ahead) :
      Represents (clock ring (ahead.head?.map Node.address))
        (.clock (swept.map Node.value) (ahead.map Node.value))

theorem represents_make (kind : EvictionKind) :
    Represents (makeEvictionPolicy (κ := κ) kind) (.makeEvictionPolicy kind) := by
  have empty {α : Type} (key : α → κ) : NodeList.Agrees key {} :=
    ⟨nodup_nil, nofun, fun _ _ => iff_of_false nofun nofun⟩
  cases kind with
  | CLOCK => exact @Represents.clock _ _ {} [] [] (empty _) rfl
  | LRU => exact .lru (empty id)

variable {p : ListPolicy κ} {q : EvictionPolicy κ}

/-- The map knows the keys that the order holds. -/
theorem tracks_iff (same : p.Represents q) (k : κ) :
    p.tracks k ↔ k ∈ q.keys := by
  cases same with
  | lru agrees => exact agrees.tracked k
  | clock agrees split =>
    rw [tracks, agrees.tracked, EvictionPolicy.keys, ← map_append, ← split, map_map]
    rfl

theorem touch_represents (same : p.Represents q)
    (key : κ) : (p.touch key).Represents (q.touch key) := by
  have known := tracks_iff same key
  cases same with
  | @lru order agrees =>
    cases found : order.pos.lookup key with
    | none =>
      have absent : key ∉ order.nodes.map Node.value := fun h =>
        AList.lookup_eq_none.mp found (known.mpr h)
      rw [touch, found, EvictionPolicy.touch, erase_of_not_mem absent]
      exact .lru (agrees.cons key found)
    | some a =>
      obtain ⟨n, listed, keyed, rfl⟩ := (agrees.mapped key a).mp found
      have keyed : n.value = key := keyed
      subst keyed
      obtain ⟨before, rest, split⟩ := append_of_mem listed
      have front : (order.node? n.address).toList = [n] := by
        rw [agrees.node?_eq split, Option.toList_some]
      have apart : n.value ∉ before.map Node.value := fun h => by
        obtain ⟨m, inside, again⟩ := mem_map.mp h
        exact (agrees.others split m (mem_append_left _ inside)).2 again
      have moved := agrees.of_perm (n :: (before ++ rest)) (split ▸ perm_middle.symm)
      have order_eq : n.value :: (order.nodes.map Node.value).erase n.value =
          (n :: (before ++ rest)).map Node.value := by
        rw [split, map_append, map_cons, erase_append_right _ apart, erase_cons_head, map_cons,
          map_append]
      simp only [touch, found, front, agrees.filter_eq split, EvictionPolicy.touch, order_eq]
      exact .lru moved
  | @clock ring swept ahead agrees split =>
    have known : key ∈ ring.pos ↔
        key ∈ (swept.map Node.value ++ ahead.map Node.value).map Slot.key := known
    rw [EvictionPolicy.touch]
    cases found : ring.pos.lookup key with
    | some a =>
      rw [touch, found, if_pos (known.mp (AList.lookup_isSome.mp (found ▸ rfl)))]
      let set : Node (Slot κ) → Node (Slot κ) := fun n =>
        if n.address = a then { n with value := { n.value with ref := true } } else n
      have referred : ∀ part : List (Node (Slot κ)), (∀ n ∈ part, n ∈ ring.nodes) →
          EvictionPolicy.refer key (part.map Node.value) = (part.map set).map Node.value := by
        intro part inside
        rw [EvictionPolicy.refer, map_map, map_map]
        refine map_congr_left fun n listed => ?_
        have here := agrees.address_iff found (inside n listed)
        by_cases keyed : n.value.key = key
        · simp [set, keyed, here.mpr keyed]
        · simp [set, keyed, mt here.mp keyed]
      have hand : ahead.head?.map Node.address = (ahead.map set).head?.map Node.address := by
        rw [head?_map, Option.map_map]
        refine Option.map_congr fun n _ => ?_
        by_cases here : n.address = a
        · simp [set, here]
        · simp [set, here]
      rw [hand, referred swept fun n h => split ▸ mem_append_left _ h,
        referred ahead fun n h => split ▸ mem_append_right _ h]
      refine .clock (agrees.modify a fun _ => rfl) ?_
      rw [NodeList.modify, split, map_append]
    | none =>
      have new : ring.nodes ++ [⟨ring.next, key, true⟩] =
          swept ++ (ahead ++ [⟨ring.next, key, true⟩]) := by rw [split, append_assoc]
      have longer := (agrees.cons ⟨key, true⟩ found).of_perm _
        (perm_append_singleton _ ring.nodes)
      rw [touch, found, if_neg fun h => AList.lookup_eq_none.mp found (known.mpr h)]
      cases ahead with
      | nil =>
        have stays := Represents.clock longer (new.trans (append_nil _).symm)
        rwa [nil_append, map_append] at stays
      | cons n rest =>
        have stays := Represents.clock longer new
        rwa [map_append] at stays

theorem remove_represents (same : p.Represents q)
    (key : κ) : (p.remove key).Represents (q.remove key) := by
  have known := tracks_iff same key
  have filtered {α : Type} {l : NodeList κ α} {of : α → κ} (agrees : l.Agrees of) {a : Nat}
      (found : l.pos.lookup key = some a) {part : List (Node α)}
      (inside : ∀ n ∈ part, n ∈ l.nodes) :
      (part.map Node.value).filter (fun x => of x ≠ key) =
        (part.filter fun n => n.address ≠ a).map Node.value := by
    rw [filter_map]
    refine congrArg (map Node.value) (filter_congr fun n listed => ?_)
    exact decide_eq_decide.mpr (not_congr (agrees.address_iff found (inside n listed)).symm)
  cases same with
  | @lru order agrees =>
    rw [EvictionPolicy.remove]
    cases found : order.pos.lookup key with
    | none =>
      have absent : key ∉ order.nodes.map Node.value := fun h =>
        AList.lookup_eq_none.mp found (known.mpr h)
      have others : (order.nodes.map Node.value).filter (fun k => k ≠ key) = _ :=
        filter_eq_self.mpr fun k listed => decide_eq_true (ne_of_mem_of_not_mem listed absent)
      rw [remove, found, others]
      exact .lru agrees
    | some a =>
      have others : (order.nodes.map Node.value).filter (fun k => k ≠ key) = _ :=
        filtered agrees found fun _ h => h
      rw [remove, found, others]
      exact .lru (agrees.erase found)
  | @clock ring swept ahead agrees split =>
    rw [EvictionPolicy.remove]
    cases found : ring.pos.lookup key with
    | none =>
      have absent : key ∉ (swept.map Node.value ++ ahead.map Node.value).map Slot.key := fun h =>
        AList.lookup_eq_none.mp found (known.mpr h)
      have others : ∀ part : List (Slot κ), (∀ slot ∈ part, slot ∈ swept.map Node.value ++
          ahead.map Node.value) → (part.filter fun slot => slot.key ≠ key) = part :=
        fun part inside => filter_eq_self.mpr fun slot listed => decide_eq_true fun same =>
          absent (mem_map.mpr ⟨slot, inside slot listed, same⟩)
      rw [remove, found, others _ fun _ => mem_append_left _, others _ fun _ => mem_append_right _]
      exact .clock agrees split
    | some a =>
      have hand : (if ahead.head?.map Node.address = some a then ring.after a
          else ahead.head?.map Node.address) =
            (ahead.filter fun n => n.address ≠ a).head?.map Node.address := by
        cases ahead with
        | nil => rfl
        | cons n rest =>
          by_cases here : n.address = a
          · subst here
            have rest_eq : (rest.filter fun m => m.address ≠ n.address) = rest :=
              filter_eq_self.mpr fun m listed => decide_eq_true
                (agrees.others split m (mem_append_right _ listed)).1
            rw [head?_cons, Option.map_some, if_pos rfl, agrees.after_eq split,
              filter_cons_of_neg (by simp), rest_eq]
          · rw [head?_cons, Option.map_some, if_neg (here ∘ Option.some.inj),
              filter_cons_of_pos (by simpa using here)]
            rfl
      simp only [remove, found, hand]
      rw [filtered agrees found fun n h => split ▸ mem_append_left _ h,
        filtered agrees found fun n h => split ▸ mem_append_right _ h]
      exact .clock (agrees.erase found)
        ((congrArg _ split).trans (filter_append (p := fun n => n.address ≠ a) swept ahead))

/-- The hand comes to the same victim. -/
theorem sweep_represents {steps : Nat} {ring : NodeList κ (Slot κ)}
    {swept ahead : List (Node (Slot κ))} (agrees : ring.Agrees Slot.key)
    (split : ring.nodes = swept ++ ahead) {victim : κ}
    (found : EvictionPolicy.sweep steps (swept.map Node.value) (ahead.map Node.value) =
      some (victim, q)) :
    ∃ p, sweep steps ring (ahead.head?.map Node.address) = (some victim, p) ∧ p.Represents q := by
  induction steps generalizing ring swept ahead with
  | zero => cases found
  | succ steps ih =>
    have turn : ∀ {before n rest hand}, ring.nodes = before ++ n :: rest →
        hand.or (ring.nodes.head?.map Node.address) = some n.address →
        EvictionPolicy.sweep (steps + 1) (before.map Node.value) ((n :: rest).map Node.value) =
          some (victim, q) →
        ∃ p, sweep (steps + 1) ring hand = (some victim, p) ∧ p.Represents q := by
      intro before n rest hand split here found
      have node : (hand.or (ring.nodes.head?.map Node.address)).bind ring.node? = some n := by
        rw [here, Option.bind_some, agrees.node?_eq split]
      rw [map_cons, EvictionPolicy.sweep] at found
      simp only [sweep, node]
      by_cases set : n.value.ref = true
      · rw [if_pos set] at found ⊢
        have cleared := agrees.modify n.address
          (f := fun slot : Slot κ => { slot with ref := false }) fun _ => rfl
        rw [agrees.after_eq split]
        refine @ih _ (before ++ [{ n with value := { n.value with ref := false } }]) rest cleared ?_
          (by rwa [map_append])
        rw [agrees.modify_eq split, append_assoc]
        rfl
      · rw [if_neg set] at found ⊢
        obtain ⟨rfl, rfl⟩ := Prod.mk.inj (Option.some.inj found)
        have keyed : ring.pos.lookup n.value.key = some n.address :=
          (agrees.mapped _ _).mpr ⟨n, split ▸ mem_append_right _ mem_cons_self, rfl, rfl⟩
        refine ⟨_, rfl, ?_⟩
        rw [agrees.after_eq split]
        exact .clock (agrees.erase keyed) (agrees.filter_eq split)
    cases ahead with
    | cons n rest => exact turn split rfl found
    | nil =>
      cases swept with
      | nil => cases found
      | cons n rest =>
        rw [append_nil] at split
        exact @turn [] _ _ _ split (by rw [split]; rfl) found

/-- A pop gives the victim that the order gives. -/
theorem popVictim_represents (same : p.Represents q) (some : q.keys ≠ []) :
    ∃ victim p' q', p.popVictim = (Option.some victim, p') ∧
      q.popVictim = Option.some (victim, q') ∧ p'.Represents q' := by
  obtain ⟨victim, q', popped, _⟩ := EvictionPolicy.popVictim_some some
  refine ⟨victim, ?_⟩
  cases same with
  | @lru order agrees =>
    have held : order.nodes ≠ [] := fun none => some (congrArg (map Node.value) none)
    have split := (dropLast_concat_getLast held).symm
    have keyed : order.pos.lookup (order.nodes.getLast held).value =
        Option.some (order.nodes.getLast held).address :=
      (agrees.mapped _ _).mpr ⟨_, getLast_mem held, rfl, rfl⟩
    have erased := agrees.erase keyed
    rw [EvictionPolicy.popVictim, getLast?_map, getLast?_eq_some_getLast held] at popped
    obtain ⟨rfl, _⟩ := Prod.mk.inj (Option.some.inj popped)
    rw [NodeList.erase, agrees.filter_eq split, append_nil] at erased
    refine ⟨_, _, by rw [popVictim, getLast?_eq_some_getLast held], ?_, .lru erased⟩
    rw [EvictionPolicy.popVictim, getLast?_map, getLast?_eq_some_getLast held, map_dropLast]
    rfl
  | @clock ring swept ahead agrees split =>
    have held : ring.nodes ≠ [] := fun none => some (by
      rw [EvictionPolicy.keys, ← map_append, ← split, none]
      rfl)
    have found := popped
    rw [EvictionPolicy.popVictim, ← map_append, ← split, length_map] at found
    obtain ⟨p', swept, same⟩ := sweep_represents agrees split found
    refine ⟨p', q', ?_, popped, same⟩
    rw [popVictim, if_neg held, swept]

end ListPolicy

/-! ## What the policies know of the past -/

/-- What happened to a key. The hand passes over a key when it clears its bit. -/
inductive Event (κ : Type) where
  | touched (key : κ)
  | removed (key : κ)
  | popped (key : κ)
  | passed (key : κ)
  deriving DecidableEq

/-- An event has happened since others last did. The newest event comes first. -/
def Since (stop : Event κ → Prop) [DecidablePred stop] (event : Event κ) (log : List (Event κ)) :
    Prop :=
  event ∈ log.takeWhile fun e => ¬stop e

omit [DecidableEq κ] in
theorem since_cons (stop : Event κ → Prop) [DecidablePred stop] (event e : Event κ)
    (log : List (Event κ)) :
    Since stop event (e :: log) ↔ ¬stop e ∧ (event = e ∨ Since stop event log) := by
  rw [Since, takeWhile_cons]
  by_cases stops : stop e
  · simp [stops]
  · simp [stops, Since]

/-- The key was touched and has neither been removed nor popped since. -/
def Live (key : κ) : List (Event κ) → Prop :=
  Since (fun e => e = .removed key ∨ e = .popped key) (.touched key)

/-- The other key was touched after the last time the key was. -/
def TouchedSince (key other : κ) : List (Event κ) → Prop :=
  Since (fun e => e = .touched key) (.touched other)

/-- The reference bit of the key was set after the hand last passed it. -/
def ReferredSince (key : κ) : List (Event κ) → Prop :=
  Since (fun e => e = .passed key) (.touched key)

inductive PolicyCall (κ : Type) where
  | touch (key : κ)
  | remove (key : κ)
  | popVictim

/-- The keys whose bits a sweep has cleared. -/
def cleared (before after : List (Slot κ)) : List κ :=
  (after.filter fun slot => !slot.ref && before.any fun old => old.key = slot.key && old.ref).map
    Slot.key

/-- A call, and what it adds to the past. -/
def ListPolicy.call : ListPolicy κ × List (Event κ) → PolicyCall κ → ListPolicy κ × List (Event κ)
  | (p, log), .touch key => (p.touch key, .touched key :: log)
  | (p, log), .remove key => (p.remove key, .removed key :: log)
  | (p, log), .popVictim =>
    match p.popVictim with
    | (none, p') => (p', log)
    | (some victim, p') =>
      (p', .popped victim :: ((cleared p.slots p'.slots).map Event.passed ++ log))

def ListPolicy.run (kind : EvictionKind) (calls : List (PolicyCall κ)) :
    ListPolicy κ × List (Event κ) :=
  calls.foldl ListPolicy.call (makeEvictionPolicy kind, [])

namespace EvictionPolicy

def kind : EvictionPolicy κ → EvictionKind
  | lru _ => .LRU
  | clock _ _ => .CLOCK

def slots : EvictionPolicy κ → List (Slot κ)
  | lru _ => []
  | clock swept ahead => swept ++ ahead

/-- What an order of keys knows of the past. -/
structure Knows (kind : EvictionKind) (p : EvictionPolicy κ) (log : List (Event κ)) : Prop where
  same : p.kind = kind
  nodup : p.keys.Nodup
  live : ∀ k, k ∈ p.keys ↔ Live k log
  recent : ∀ order, p = lru order → order.Pairwise fun a b => TouchedSince b a log
  bits : ∀ slot ∈ p.slots, slot.ref = true ↔ ReferredSince slot.key log

variable {kind : EvictionKind} {p : EvictionPolicy κ} {log : List (Event κ)}

theorem Knows.touch (knows : p.Knows kind log) (key : κ) :
    (p.touch key).Knows kind (.touched key :: log) where
  same := by
    rw [← knows.same]
    cases p with
    | lru order => rfl
    | clock swept ahead =>
      rw [EvictionPolicy.touch]
      split_ifs
      all_goals rfl
  nodup := nodup_touch knows.nodup key
  live k := by
    rw [mem_keys_touch, knows.live, Live, since_cons]
    simp
  recent := by
    cases p with
    | clock swept ahead =>
      intro order same
      rw [EvictionPolicy.touch] at same
      split_ifs at same
    | lru order =>
      rintro _ ⟨⟩
      have nodup : order.Nodup := knows.nodup
      have other {b} (listed : b ∈ order.erase key) : Event.touched key ≠ .touched b :=
        fun same => nodup.not_mem_erase (Event.touched.inj same ▸ listed)
      refine pairwise_cons.mpr ⟨fun b listed => ?_, ?_⟩
      · exact (since_cons _ _ _ _).mpr ⟨other listed, .inl rfl⟩
      · refine ((knows.recent order rfl).sublist erase_sublist).imp_of_mem fun _ listed since => ?_
        exact (since_cons _ _ _ _).mpr ⟨other listed, .inr since⟩
  bits := by
    have kept : ∀ slot ∈ (p.touch key).slots,
        slot = ⟨key, true⟩ ∨ slot ∈ p.slots ∧ slot.key ≠ key := by
      cases p with
      | lru order =>
        intro slot listed
        cases listed
      | clock swept ahead =>
        have refer_slot (slot : Slot κ) (ring : List (Slot κ)) (listed : slot ∈ refer key ring) :
            slot = ⟨key, true⟩ ∨ slot ∈ ring ∧ slot.key ≠ key := by
          obtain ⟨old, inside, rfl⟩ := mem_map.mp listed
          by_cases here : old.key = key
          · simp [here]
          · simp [here, inside]
        intro slot listed
        rw [EvictionPolicy.touch] at listed
        by_cases known : key ∈ (swept ++ ahead).map Slot.key
        · rw [if_pos known] at listed
          refine refer_slot slot (swept ++ ahead) ?_
          rwa [refer, map_append]
        · have either : slot ∈ (swept ++ ahead) ++ [⟨key, true⟩] := by
            split_ifs at listed with atEnd
            · simpa [slots, atEnd] using listed
            · simpa [slots] using listed
          rcases mem_append.mp either with old | new
          · exact .inr ⟨old, fun here => known (here ▸ mem_map_of_mem old)⟩
          · exact .inl (mem_singleton.mp new)
    intro slot listed
    rw [ReferredSince, since_cons]
    rcases kept slot listed with rfl | ⟨old, other⟩
    · simp
    · rw [knows.bits slot old, ReferredSince]
      simp [other]

theorem Knows.remove (knows : p.Knows kind log) (key : κ) :
    (p.remove key).Knows kind (.removed key :: log) := by
  have keys_eq : (p.remove key).keys = p.keys.filter fun k => k ≠ key := by
    cases p with
    | lru order => rfl
    | clock swept ahead =>
      rw [EvictionPolicy.remove, keys, keys, filter_map, filter_append]
      rfl
  constructor
  · rw [← knows.same]
    cases p with
    | lru order => rfl
    | clock swept ahead => rfl
  · exact keys_eq ▸ knows.nodup.filter _
  · intro k
    rw [keys_eq, mem_filter, knows.live, and_comm, decide_eq_true_iff, ne_comm, Live, since_cons]
    simp
  · cases p with
    | clock swept ahead =>
      intro order same
      cases same
    | lru order =>
      rintro _ ⟨⟩
      refine ((knows.recent order rfl).filter _).imp fun since => ?_
      exact (since_cons _ _ _ _).mpr ⟨fun same => (by cases same), .inr since⟩
  · intro slot listed
    have old : slot ∈ p.slots := by
      cases p with
      | lru order => exact listed
      | clock swept ahead =>
        rw [EvictionPolicy.remove, slots, ← filter_append] at listed
        exact mem_of_mem_filter listed
    rw [ReferredSince, since_cons, knows.bits slot old, ReferredSince]
    simp

omit [DecidableEq κ] in
/-- The sweep only clears bits, and finds the first bit that is clear. -/
theorem sweep_slots {steps : Nat} {swept ahead : List (Slot κ)} {victim : κ}
    (found : sweep steps swept ahead = some (victim, p)) :
    p.kind = .CLOCK ∧
    (∀ slot ∈ p.slots, ∃ old ∈ swept ++ ahead, old.key = slot.key ∧ (slot.ref → old.ref)) ∧
    ∀ slot, (ahead ++ swept).find? (fun slot => !slot.ref) = some slot → slot.key = victim := by
  induction steps generalizing swept ahead with
  | zero => cases found
  | succ steps ih =>
    have turn (slot : Slot κ) (before rest : List (Slot κ))
        (found : sweep (steps + 1) before (slot :: rest) = some (victim, p)) :
        p.kind = .CLOCK ∧
        (∀ s ∈ p.slots, ∃ old ∈ before ++ slot :: rest, old.key = s.key ∧ (s.ref → old.ref)) ∧
        ∀ s, (slot :: rest ++ before).find? (fun s => !s.ref) = some s → s.key = victim := by
      rw [sweep] at found
      by_cases set : slot.ref = true
      · rw [if_pos set] at found
        obtain ⟨isClock, kept, first⟩ := ih found
        refine ⟨isClock, fun s listed => ?_, fun s clear => first s ?_⟩
        · obtain ⟨old, inside, same, bit⟩ := kept s listed
          rw [append_assoc, singleton_append, mem_append, mem_cons] at inside
          rcases inside with inside | rfl | inside
          · exact ⟨old, mem_append_left _ inside, same, bit⟩
          · exact ⟨slot, mem_append_right _ mem_cons_self, same, fun _ => set⟩
          · exact ⟨old, mem_append_right _ (mem_cons_of_mem _ inside), same, bit⟩
        · rw [cons_append, find?_cons_of_neg (by simp [set])] at clear
          rw [← append_assoc, find?_append, clear, Option.some_or]
      · rw [if_neg set] at found
        obtain ⟨rfl, rfl⟩ := Prod.mk.inj (Option.some.inj found)
        refine ⟨rfl, fun s listed => ⟨s, ?_, rfl, id⟩, fun s clear => ?_⟩
        · exact (sublist_cons_self slot rest).append_left before |>.mem listed
        · rw [cons_append, find?_cons_of_pos (by simp [set])] at clear
          rw [Option.some.inj clear]
    cases ahead with
    | cons slot rest => exact turn slot swept rest found
    | nil =>
      cases swept with
      | nil => cases found
      | cons slot rest =>
        have here := turn slot [] rest found
        rwa [append_nil] at here ⊢

variable {p' : EvictionPolicy κ} {key : κ} {passes : List κ}

/-- A pop only clears bits. The keys before the victim of LRU were touched after it, and the
victim of CLOCK is clear if any key is. -/
theorem Knows.victim (knows : p.Knows kind log) {victim : κ}
    (popped : p.popVictim = some (victim, p')) :
    (p'.kind = kind ∧ ∀ order, p' = lru order → order.Pairwise fun a b => TouchedSince b a log) ∧
    (∀ slot ∈ p'.slots, ∃ old ∈ p.slots, old.key = slot.key ∧ (slot.ref → old.ref)) ∧
    (kind = .LRU → ∀ j ∈ p.keys, j ≠ victim → TouchedSince victim j log) ∧
    (kind = .CLOCK → (∃ slot ∈ p.slots, slot.ref = false) → ¬ReferredSince victim log) := by
  have same := knows.same
  cases p with
  | lru order =>
    obtain ⟨last, held, pair⟩ := Option.map_eq_some_iff.mp popped
    obtain ⟨rfl, rfl⟩ := Prod.mk.inj pair
    have recent := knows.recent order rfl
    refine ⟨⟨same, ?_⟩, fun slot listed => (by cases listed), fun _ j listed other => ?_,
      fun clock => (by cases same.trans clock)⟩
    · rintro _ ⟨⟩
      exact recent.sublist (dropLast_sublist order)
    · have split := dropLast_append_getLast? last held
      rw [← split] at recent
      rw [keys, ← split, mem_append, mem_singleton] at listed
      exact (pairwise_append.mp recent).2.2 j (listed.resolve_right other) last mem_cons_self
  | clock swept ahead =>
    obtain ⟨isClock, kept, first⟩ := sweep_slots popped
    refine ⟨⟨isClock.trans same, fun order here => ?_⟩, kept,
      fun lru => (by cases same.trans lru), fun _ clear => ?_⟩
    · rw [here] at isClock
      cases isClock
    · obtain ⟨slot, listed, bit⟩ := clear
      have some : ((ahead ++ swept).find? fun slot => !slot.ref).isSome :=
        find?_isSome.mpr ⟨slot, perm_append_comm.mem_iff.mp listed, by simp [bit]⟩
      obtain ⟨found, here⟩ := Option.isSome_iff_exists.mp some
      have inside : found ∈ swept ++ ahead :=
        perm_append_comm.mem_iff.mp (mem_of_find?_eq_some here)
      rw [← first found here, ← knows.bits found inside]
      simpa using find?_some here

omit [DecidableEq κ] in
theorem since_passed {stop : Event κ → Prop} [DecidablePred stop]
    (skip : ∀ k ∈ passes, ¬stop (.passed k)) :
    Since stop (.touched key) (passes.map Event.passed ++ log) ↔ Since stop (.touched key) log := by
  induction passes with
  | nil => rfl
  | cons k rest ih =>
    rw [map_cons, cons_append, since_cons, ih fun j listed => skip j (mem_cons_of_mem _ listed)]
    simp [skip k mem_cons_self]

theorem not_referredSince_of_passed (passed : key ∈ passes) :
    ¬ReferredSince key (passes.map Event.passed ++ log) := by
  induction passes with
  | nil => cases passed
  | cons k rest ih =>
    rw [map_cons, cons_append, ReferredSince, since_cons]
    rintro ⟨other, since⟩
    rcases mem_cons.mp passed with rfl | passed
    · exact other rfl
    · exact ih passed (since.resolve_left nofun)

omit [DecidableEq κ] in
theorem popVictim_perm {victim : κ}
    (popped : p.popVictim = some (victim, p')) : p.keys.Perm (victim :: p'.keys) := by
  obtain ⟨_, _, again, perm⟩ := popVictim_some fun empty => by
    rw [popVictim_none empty] at popped
    cases popped
  rw [popped] at again
  obtain ⟨rfl, rfl⟩ := Prod.mk.inj (Option.some.inj again)
  exact perm

theorem Knows.popVictim (knows : p.Knows kind log) {victim : κ}
    (popped : p.popVictim = some (victim, p')) :
    p'.Knows kind (.popped victim :: ((cleared p.slots p'.slots).map Event.passed ++ log)) := by
  obtain ⟨⟨same, recent⟩, kept, _⟩ := knows.victim popped
  have perm := popVictim_perm popped
  have nodup := nodup_cons.mp (perm.nodup_iff.mp knows.nodup)
  have unique {q : EvictionPolicy κ} (nodup : q.keys.Nodup) {a b : Slot κ} (ha : a ∈ q.slots)
      (hb : b ∈ q.slots) (same : a.key = b.key) : a = b := by
    cases q with
    | lru order => cases ha
    | clock swept ahead => exact inj_on_of_nodup_map nodup ha hb same
  refine ⟨same, nodup.2, fun k => ?_, fun order here => ?_, fun slot listed => ?_⟩
  · have other : k ∈ p'.keys → k ≠ victim := fun listed same => nodup.1 (same ▸ listed)
    rw [Live, since_cons, since_passed fun _ _ => by simp, ← Live, ← knows.live, perm.mem_iff]
    simp only [Event.popped.injEq, mem_cons]
    tauto
  · refine (recent order here).imp fun since => ?_
    exact (since_cons _ _ _ _).mpr ⟨nofun, .inr ((since_passed fun _ _ => nofun).mpr since)⟩
  · obtain ⟨old, inside, keyed, bit⟩ := kept slot listed
    have before := knows.bits old inside
    rw [ReferredSince, since_cons]
    simp only [reduceCtorEq, not_false_eq_true, true_and, false_or]
    by_cases passed : slot.key ∈ cleared p.slots p'.slots
    · obtain ⟨again, twice, same⟩ := mem_map.mp passed
      obtain ⟨twice, clear⟩ := mem_filter.mp twice
      have here := unique nodup.2 twice listed same
      subst here
      refine iff_of_false (fun set => ?_) (not_referredSince_of_passed passed)
      simp [set] at clear
    · rw [since_passed fun k listed (same : Event.passed k = .passed slot.key) =>
        passed (Event.passed.inj same ▸ listed)]
      rw [← ReferredSince, ← keyed, ← before]
      refine ⟨bit, fun set => of_not_not fun clear => passed (mem_map_of_mem (mem_filter.mpr ?_))⟩
      exact ⟨listed, by simpa [clear] using ⟨old, inside, keyed, set⟩⟩

end EvictionPolicy

namespace ListPolicy

variable {kind : EvictionKind} {p : ListPolicy κ} {q : EvictionPolicy κ}

/-- The map leads to the nodes, and the hand is one of them or the end. -/
def Agrees : ListPolicy κ → Prop
  | lru order => order.Agrees id
  | clock ring hand => ring.Agrees Slot.key ∧ ∀ a ∈ hand, a ∈ ring.nodes.map Node.address

theorem Represents.agrees (same : p.Represents q) : p.Agrees := by
  cases same with
  | lru agrees => exact agrees
  | @clock ring swept ahead agrees split =>
    refine ⟨agrees, fun a here => ?_⟩
    rw [← head?_map] at here
    rw [split, map_append]
    exact mem_append_right _ (mem_of_mem_head? here)

theorem Represents.slots_eq (same : p.Represents q) : p.slots = q.slots := by
  cases same with
  | lru agrees => rfl
  | clock agrees split => rw [slots, split, map_append, EvictionPolicy.slots]

theorem popVictim_empty (same : p.Represents q) (empty : q.keys = []) :
    p.popVictim = (none, p) := by
  cases same with
  | @lru order agrees =>
    have none : order.nodes = [] := map_eq_nil_iff.mp empty
    rw [popVictim, none]
    rfl
  | clock agrees split =>
    rw [EvictionPolicy.keys, ← map_append, ← split, map_map] at empty
    rw [popVictim, if_pos (map_eq_nil_iff.mp empty)]

theorem run_knows (kind : EvictionKind) (calls : List (PolicyCall κ)) :
    ∃ q, (run kind calls).1.Represents q ∧ q.Knows kind (run kind calls).2 := by
  induction calls using reverseRecOn with
  | nil =>
    refine ⟨_, represents_make kind, ?_⟩
    cases kind with
    | LRU =>
      refine ⟨rfl, nodup_nil, fun _ => iff_of_false nofun nofun, ?_, nofun⟩
      rintro _ ⟨⟩
      exact .nil
    | CLOCK => exact ⟨rfl, nodup_nil, fun _ => iff_of_false nofun nofun, nofun, nofun⟩
  | append_singleton calls c ih =>
    obtain ⟨q, same, knows⟩ := ih
    rw [run, foldl_append, ← run, foldl_cons]
    cases c with
    | touch key => exact ⟨_, touch_represents same key, knows.touch key⟩
    | remove key => exact ⟨_, remove_represents same key, knows.remove key⟩
    | popVictim =>
      rw [call]
      by_cases empty : q.keys = []
      · rw [popVictim_empty same empty]
        exact ⟨q, same, knows⟩
      · obtain ⟨victim, p', q', popped, found, next⟩ := popVictim_represents same empty
        simp only [popped, same.slots_eq, next.slots_eq]
        exact ⟨q', next, knows.popVictim found⟩

/-- After any calls, the map and the list agree, and the policy tracks the keys that were touched
and are gone neither by a removal nor by a pop. If there is one, a pop gives a key that is tracked:
for LRU the key whose last touch is the oldest, and for CLOCK one whose bit was not set since the
hand last passed it, while a bit is clear. -/
theorem run_tracks (kind : EvictionKind) (calls : List (PolicyCall κ)) :
    (run kind calls).1.Agrees ∧
    (∀ k, (run kind calls).1.tracks k ↔ Live k (run kind calls).2) ∧
    ∀ k, (run kind calls).1.tracks k → ∃ victim p,
      (run kind calls).1.popVictim = (some victim, p) ∧ (run kind calls).1.tracks victim ∧
      (kind = .LRU → ∀ j, (run kind calls).1.tracks j → j ≠ victim →
        TouchedSince victim j (run kind calls).2) ∧
      (kind = .CLOCK → (∃ slot ∈ (run kind calls).1.slots, slot.ref = false) →
        ¬ReferredSince victim (run kind calls).2) := by
  obtain ⟨q, same, knows⟩ := run_knows kind calls
  refine ⟨same.agrees, fun k => (tracks_iff same k).trans (knows.live k), fun k tracked => ?_⟩
  have some := ne_nil_of_mem ((tracks_iff same k).mp tracked)
  obtain ⟨victim, p, q', popped, found, _⟩ := popVictim_represents same some
  obtain ⟨_, _, oldest, clear⟩ := knows.victim found
  have held : victim ∈ q.keys := (EvictionPolicy.popVictim_perm found).mem_iff.mpr mem_cons_self
  refine ⟨victim, p, popped, (tracks_iff same victim).mpr held, fun isLRU j tracked => ?_, ?_⟩
  · exact oldest isLRU j ((tracks_iff same j).mp tracked)
  · exact fun isClock => same.slots_eq ▸ clear isClock

end ListPolicy

end DFTracer.Cache
