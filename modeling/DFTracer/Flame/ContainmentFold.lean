/-
# The flamegraph arena and its rows

The folded call tree is a vector of nodes that name their children by index. An
event is folded into the child of its parent that carries its name; two arenas
are merged node by node along equal names. A partial arena travels as a byte
string that keeps names, statistics and child indices, and loses the name index
`kids`, which merging does not read on the source side.
-/

import DFTracer.Math.Float64
import DFTracer.Math.Lists

namespace DFTracer.Flame

open List

abbrev Bytes := List UInt8

/-- A node of the folded tree: inclusive time, time not spent in children, and
the number of events. `kids` maps a child's name to its index. -/
structure FlameNode where
  name : Bytes := []
  total : Float := 0
  self : Float := 0
  count : UInt64 := 0
  kids : List (Bytes × Nat) := []
  children : List Nat := []

abbrev FlameArena := List FlameNode

/-- The node at an index. -/
def FlameArena.node (arena : FlameArena) (i : Nat) : FlameNode := arena.getD i {}

/-- The name of every root, "all". -/
def rootName : Bytes := [97, 108, 108]

/-- Find the child of `parent` with this name, or append one. -/
def findOrCreateChild (arena : FlameArena) (parent : Nat) (name : Bytes) : FlameArena × Nat :=
  match (arena.node parent).kids.lookup name with
  | some mi => (arena, mi)
  | none =>
    let mi := arena.length
    let arena := arena ++ [{ name }]
    (arena.modify parent fun n =>
      { n with kids := n.kids ++ [(name, mi)], children := n.children ++ [mi] }, mi)

/-- Count an event into the node it belongs to. -/
def FlameNode.addEvent (dur : Float) (n : FlameNode) : FlameNode :=
  { n with total := n.total + dur, self := n.self + dur, count := n.count + 1 }

/-- Take the time of a nested event out of its parent's own. -/
def FlameNode.subSelf (dur : Float) (n : FlameNode) : FlameNode :=
  { n with self := n.self - dur }

/-- Fold one event as a child of `parent` and return the arena index of the node
it went to. Node 0 is the root sentinel, whose self time is left untouched. -/
def foldFlameNode (arena : FlameArena) (name : Bytes) (dur : Float) (parent : Nat) :
    FlameArena × Nat :=
  let (arena, mi) := findOrCreateChild arena parent name
  let arena := arena.modify mi (FlameNode.addEvent dur)
  let arena := if parent ≠ 0 then arena.modify parent (FlameNode.subSelf dur) else arena
  (arena, mi)

/-- Add the statistics of `s` to a node. -/
def FlameNode.addStats (s n : FlameNode) : FlameNode :=
  { n with total := n.total + s.total, self := n.self + s.self, count := n.count + s.count }

/-- Merge the subtree of `src` at `si` into the node `di` of `dst`. Children come
after their parents, so the recursion is no deeper than `src` has nodes. -/
def mergeFlameArena : Nat → FlameArena → Nat → FlameArena → Nat → FlameArena
  | 0, dst, _, _, _ => dst
  | fuel + 1, dst, di, src, si =>
    let dst := dst.modify di (src.node si).addStats
    (src.node si).children.foldl
      (fun dst sc =>
        let (dst, dc) := findOrCreateChild dst di (src.node sc).name
        mergeFlameArena fuel dst dc src sc)
      dst

/-- The little-endian bytes of an unsigned integer of `width` bytes. -/
def put (width : Nat) (v : Nat) : Bytes :=
  (List.range width).map fun k => UInt8.ofNat (v >>> (8 * k))

/-- The unsigned integer with these little-endian bytes. -/
def littleEndian : Bytes → Nat
  | [] => 0
  | b :: rest => b.toNat + 256 * littleEndian rest

/-- Read `width` bytes at a position, zero where they do not all lie inside, and
step over them either way. -/
def get (width : Nat) (data : Bytes) (pos : Nat) : Nat × Nat :=
  (if pos + width ≤ data.length then littleEndian ((data.drop pos).take width) else 0, pos + width)

/-- The four bytes every partial starts with. -/
def FLAM : Nat := 0x464c414d

/-- The bytes of one node. -/
def serializeFlameNode (n : FlameNode) : Bytes :=
  put 4 n.name.length ++ n.name ++ put 8 n.total.toBits.toNat ++ put 8 n.self.toBits.toNat
    ++ put 8 n.count.toNat ++ put 4 n.children.length ++ n.children.flatMap (put 4)

/-- Serialize a partial arena for a distributed merge. -/
def serializeFlameArena (arena : FlameArena) : Bytes :=
  put 4 FLAM ++ put 4 arena.length ++ arena.flatMap serializeFlameNode

/-- Read `n` child indices. -/
def getChildren (data : Bytes) : Nat → Nat → List Nat × Nat
  | 0, pos => ([], pos)
  | n + 1, pos =>
    let (c, pos) := get 4 data pos
    let (rest, pos) := getChildren data n pos
    (c :: rest, pos)

/-- Read one node. -/
def getFlameNode (data : Bytes) (pos : Nat) : FlameNode × Nat :=
  let (nl, pos) := get 4 data pos
  let name := if pos + nl ≤ data.length then (data.drop pos).take nl else []
  let (total, pos) := get 8 data (pos + nl)
  let (self, pos) := get 8 data pos
  let (count, pos) := get 8 data pos
  let (nc, pos) := get 4 data pos
  let (children, pos) := getChildren data nc pos
  ({ name, total := Float.ofBits (.ofNat total), self := Float.ofBits (.ofNat self),
     count := .ofNat count, children }, pos)

/-- Read `n` nodes; the ones that would start beyond the end stay empty. -/
def getFlameNodes (data : Bytes) : Nat → Nat → FlameArena
  | 0, _ => []
  | n + 1, pos =>
    if pos ≤ data.length then
      let (nd, pos) := getFlameNode data pos
      nd :: getFlameNodes data n pos
    else List.replicate (n + 1) {}

/-- Inverse of `serializeFlameArena`; data that does not start with the tag gives
an empty arena. -/
def deserializeFlameArena (data : Bytes) : FlameArena :=
  let (tag, pos) := get 4 data 0
  if tag ≠ FLAM then []
  else
    let (n, pos) := get 4 data pos
    getFlameNodes data n pos

/-! ## Flamegraphs of containment rows

Rows are grouped into lanes and sorted so that an enclosing event precedes what it
encloses; one pass with a nesting stack folds a lane into an arena of its own, and
the lanes' arenas are merged, under a node of the lane's group when a group key is
set. A partial flamegraph is the serialized arena of some lanes. The frame of a
flamegraph lists its nodes with their parents after the totals were rolled up into
the root. -/

/-- Interned strings: an id is a position in the table, and equal strings share
one id. -/
structure StringIntern where
  strings : List Bytes
  distinct : strings.Nodup

abbrev StringIntern.Id (intern : StringIntern) := Fin intern.strings.length

def StringIntern.resolve (intern : StringIntern) (id : intern.Id) : Bytes := intern.strings.get id

/-- The buffered tuple of an event: lane key, interval, label, and the group value
when a group key is set. Ids of `none` are the sentinel 0xFFFFFFFF. -/
structure ContainmentRow (intern : StringIntern) where
  lane : UInt64
  start : Int64
  dur : Int64
  nameId : Option intern.Id
  groupId : Option intern.Id

variable {intern : StringIntern}

/-- The name of a row; a row without one has the empty name. -/
def ContainmentRow.name (r : ContainmentRow intern) : Bytes :=
  r.nameId.elim [] intern.resolve

def ContainmentRow.stop (r : ContainmentRow intern) : Int64 := r.start + r.dur

/-- Whether row `a` may stay before row `b`: starts ascend, and of two events that
start together the one that ends later encloses the other. -/
def ContainmentRow.sortsBefore (a b : ContainmentRow intern) : Bool :=
  !(if b.start ≠ a.start then b.start < a.start else b.stop > a.stop)

/-- The rows of one lane, sorted stably. -/
def sortedLane (rows : List (ContainmentRow intern)) (key : UInt64) :
    List (ContainmentRow intern) :=
  (rows.filter fun r => r.lane = key).mergeSort ContainmentRow.sortsBefore

/-- The lanes of some rows in an order of their keys, which is that of a hash map. -/
structure LaneOrder (rows : List (ContainmentRow intern)) where
  keys : List UInt64
  distinct : keys.Nodup
  covers : ∀ key, key ∈ keys ↔ ∃ r ∈ rows, r.lane = key

/-- The rows grouped into lanes, each sorted. -/
def sortedLanes (rows : List (ContainmentRow intern)) (order : LaneOrder rows) :
    List (List (ContainmentRow intern)) :=
  order.keys.map (sortedLane rows)

/-- One pass over a sorted lane. An entry of the stack is popped once its end is no
later than an event's start; `sink` gets the event, its level and its parent's
handle and returns the handle to push for it. -/
def containmentWalk {ε σ Time Handle : Type} [LE Time] [DecidableLE Time] (start stop : ε → Time)
    (root : Handle) (sink : σ → ε → Nat → Handle → σ × Handle) :
    σ → List (Time × Handle) → List ε → σ
  | state, _, [] => state
  | state, stack, e :: rest =>
    let stack := stack.dropWhile fun top => top.1 ≤ start e
    let parent := stack.head?.elim root Prod.snd
    let (state, handle) := sink state e stack.length parent
    containmentWalk start stop root sink state ((stop e, handle) :: stack) rest

/-- `static_cast<double>(r.dur) * time_scale` -/
def ContainmentRow.scaled (timeScale : Float) (r : ContainmentRow intern) : Float :=
  .ofModel (.ofInt r.dur.toInt) * timeScale

/-- The root every arena starts with. -/
def rootArena : FlameArena := [{ name := rootName }]

/-- The arena of one sorted lane. -/
def foldLane (timeScale : Float) (lane : List (ContainmentRow intern)) : FlameArena :=
  containmentWalk ContainmentRow.start ContainmentRow.stop 0
    (fun arena r _ par => foldFlameNode arena r.name (r.scaled timeScale) par) rootArena [] lane

/-- The node a lane is merged into: the root, or the node of the lane's group, made
when the group is met first. -/
def groupTarget (merged : FlameArena) (groupOf : List (intern.Id × Nat)) :
    Option intern.Id → FlameArena × List (intern.Id × Nat) × Nat
  | none => (merged, groupOf, 0)
  | some gid =>
    match groupOf.lookup gid with
    | some target => (merged, groupOf, target)
    | none =>
      let target := merged.length
      let merged := merged ++ [({ name := intern.resolve gid } : FlameNode)]
      (merged.modify 0 fun n => { n with
          kids := n.kids ++ [(intern.resolve gid, target)]
          children := n.children ++ [target] },
        groupOf ++ [(gid, target)], target)

/-- Merge one lane's arena; a lane without rows is skipped. -/
def mergeLane (timeScale : Float) (state : FlameArena × List (intern.Id × Nat)) :
    List (ContainmentRow intern) → FlameArena × List (intern.Id × Nat)
  | [] => state
  | r :: rest =>
    let a := foldLane timeScale (r :: rest)
    let (merged, groupOf, target) := groupTarget state.1 state.2 r.groupId
    (mergeFlameArena a.length merged target a 0, groupOf)

/-- Add a child's inclusive statistics. -/
def FlameNode.addInclusive (c n : FlameNode) : FlameNode :=
  { n with total := n.total + c.total, count := n.count + c.count }

/-- Roll a node's statistics up from its children: totals and counts are added one
child after the other. -/
def rollUp (merged : FlameArena) (g : Nat) : FlameArena :=
  (merged.node g).children.foldl
    (fun merged c => merged.modify g (merged.node c).addInclusive) merged

/-- Merge all lanes, then roll up every node below the root that has no total of
its own yet. -/
def foldFlameArena (timeScale : Float) (lanes : List (List (ContainmentRow intern))) : FlameArena :=
  let merged := (lanes.foldl (mergeLane timeScale) (rootArena, [])).1
  (merged.node 0).children.foldl
    (fun merged g =>
      if (merged.node g).total != 0 || (merged.node g).children.isEmpty then merged
      else rollUp merged g)
    merged

/-! ### The frame -/

/-- A row of the node frame. -/
structure FlameRow where
  nodeId : Int64
  parent : Int64
  name : Bytes
  level : Int64
  total : Float
  self : Float
  count : Int64
deriving DecidableEq

/-- The parent and level columns: node `i` enters itself at its children. -/
def parentLevels (merged : FlameArena) : List Int64 × List Int64 :=
  (List.range merged.length).foldl
    (fun (par, level) i =>
      (merged.node i).children.foldl
        (fun (par, level) c => (par.set c (.ofNat i), level.set c (level.getD i 0 + 1)))
        (par, level))
    (List.replicate merged.length (-1), List.replicate merged.length 0)

/-- Roll the totals up into the root and emit the node frame. Self time that became
negative is reported as zero. -/
def flameArenaToFrame (merged : FlameArena) : List FlameRow :=
  let merged := if merged.isEmpty then rootArena else merged
  let merged := rollUp merged 0
  let (par, level) := parentLevels merged
  (List.range merged.length).map fun i =>
    let nd := merged.node i
    { nodeId := .ofNat i, parent := par.getD i 0, name := nd.name, level := level.getD i 0,
      total := nd.total, self := if nd.self < 0 then 0 else nd.self,
      count := nd.count.toInt64 }

/-- The flamegraph of all rows. -/
def buildFlamegraph (timeScale : Float) (lanes : List (List (ContainmentRow intern))) :
    List FlameRow :=
  flameArenaToFrame (foldFlameArena timeScale lanes)

/-- The serialized flamegraph of some rows. -/
def flamegraphPartial (timeScale : Float) (rows : List (ContainmentRow intern))
    (order : LaneOrder rows) : Bytes :=
  serializeFlameArena (foldFlameArena timeScale (sortedLanes rows order))

/-- Merge serialized partials by name path; one that does not parse is skipped. -/
def mergePartials (partials : List Bytes) : FlameArena :=
  partials.foldl
    (fun merged p =>
      let a := deserializeFlameArena p
      if a.isEmpty then merged else mergeFlameArena a.length merged 0 a 0)
    rootArena

/-- The flamegraph of merged partials. -/
def mergeFlamegraphPartials (partials : List Bytes) : List FlameRow :=
  flameArenaToFrame (mergePartials partials)

end DFTracer.Flame

/-! ## Nested events

Of the events of a lane two are apart or one lies within the other. The containment walk keeps
the events that are still open on a stack. In a sorted lane these are the events that enclose the
next one, so its level is their number and its parent is the innermost of them. -/

namespace DFTracer.Flame

open List

variable {ε σ Time Handle : Type} [LE Time] [DecidableLE Time]

section Intervals

variable (start stop : ε → Time)

/-- `b` starts while `a` is open and ends no later. -/
def Encloses (a b : ε) : Prop := start a ≤ start b ∧ ¬ stop a ≤ start b ∧ stop b ≤ stop a

instance (a b : ε) : Decidable (Encloses start stop a b) :=
  inferInstanceAs (Decidable (start a ≤ start b ∧ ¬ stop a ≤ start b ∧ stop b ≤ stop a))

/-- The interval of `a` lies within that of `b`. -/
def Inside (a b : ε) : Prop := start b ≤ start a ∧ stop a ≤ stop b

/-- Two intervals are apart, or one lies within the other. -/
def Laminar (a b : ε) : Prop :=
  stop a ≤ start b ∨ stop b ≤ start a ∨ Inside start stop a b ∨ Inside start stop b a

instance (a b : ε) : Decidable (Inside start stop a b) :=
  inferInstanceAs (Decidable (start b ≤ start a ∧ stop a ≤ stop b))

instance (a b : ε) : Decidable (Laminar start stop a b) :=
  inferInstanceAs (Decidable (stop a ≤ start b ∨ stop b ≤ start a ∨ Inside start stop a b ∨
    Inside start stop b a))

/-- The order of a sorted lane. -/
def Before (a b : ε) : Prop := start a ≤ start b ∧ (start b ≤ start a → stop b ≤ stop a)

/-- The walk over a lane that looks at all earlier events. `earlier` holds them with the handles
that the sink gave for them. -/
def treeWalk (root : Handle) (sink : σ → ε → Nat → Handle → σ × Handle) :
    σ → List (ε × Handle) → List ε → σ
  | state, _, [] => state
  | state, earlier, e :: rest =>
    let above := earlier.filter fun p => Encloses start stop p.1 e
    let (state, handle) := sink state e above.length (above.getLast?.elim root Prod.snd)
    treeWalk root sink state (earlier ++ [(e, handle)]) rest

end Intervals

section Walk

variable [Std.IsLinearPreorder Time] {start stop : ε → Time}

omit [DecidableLE Time] in
/-- An event is over when a later one starts, or the later one ends no later. -/
theorem Laminar.apart_or_nested {a b : ε} (before : Before start stop a b)
    (laminar : Laminar start stop a b) : stop a ≤ start b ∨ stop b ≤ stop a := by
  rcases laminar with apart | apart | ⟨early, _⟩ | nested
  · exact .inl apart
  · rcases Std.le_total (a := stop a) (b := start b) with first | later
    · exact .inl first
    · exact .inr (Std.le_trans apart (Std.le_trans before.1 later))
  · exact .inr (before.2 early)
  · exact .inr nested.2

/-- The events that are open at a time, the last one on top. -/
def openAt (stop : ε → Time) (time : Time) (earlier : List (ε × Handle)) : List (Time × Handle) :=
  ((earlier.filter fun p => ¬ stop p.1 ≤ time).map fun p => (stop p.1, p.2)).reverse

/-- The stack shows the open events at every later time. -/
def Shows (start stop : ε → Time) (earlier : List (ε × Handle)) (stack : List (Time × Handle)) :
    Prop :=
  ∀ time, (∀ p ∈ earlier, start p.1 ≤ time) →
    stack.dropWhile (fun top => top.1 ≤ time) = openAt stop time earlier

variable {earlier : List (ε × Handle)} {e : ε} {lane : List ε}

/-- What is open when an event starts still is while the event is. -/
theorem openAt_eq {time : Time}
    (nested : ∀ p ∈ earlier, stop p.1 ≤ start e ∨ stop e ≤ stop p.1) (later : start e ≤ time)
    (running : ¬ stop e ≤ time) : openAt stop (start e) earlier = openAt stop time earlier := by
  rw [openAt]
  congr 2
  apply filter_congr
  intro p listed
  rw [decide_eq_decide, not_iff_not]
  constructor
  · intro ended
    exact Std.le_trans ended later
  · intro ended
    refine (nested p listed).resolve_right fun inside => running ?_
    exact Std.le_trans inside ended

theorem Shows.push {stack : List (Time × Handle)}
    (seen : Shows start stop earlier stack) (after : ∀ p ∈ earlier, start p.1 ≤ start e)
    (nested : ∀ p ∈ earlier, stop p.1 ≤ start e ∨ stop e ≤ stop p.1) (handle : Handle) :
    Shows start stop (earlier ++ [(e, handle)])
      ((stop e, handle) :: stack.dropWhile fun top => top.1 ≤ start e) := by
  intro time late
  have later : start e ≤ time := late (e, handle) (mem_append_right _ mem_cons_self)
  have before : ∀ p ∈ earlier, start p.1 ≤ time := fun p listed =>
    late p (mem_append_left _ listed)
  by_cases running : stop e ≤ time
  · rw [dropWhile_cons_of_pos (by simpa using running), Math.dropWhile_dropWhile, seen time before]
    · rw [openAt, openAt, filter_append, filter_cons_of_neg (by simpa using running),
        filter_nil, append_nil]
    · intro top popped
      exact decide_eq_true (Std.le_trans (of_decide_eq_true popped) later)
  · rw [dropWhile_cons_of_neg (by simpa using running), seen (start e) after,
      openAt_eq nested later running, openAt, openAt, filter_append,
      filter_cons_of_pos (by simpa using running), map_append, reverse_append]
    rfl

omit [Std.IsLinearPreorder Time] in
/-- Open events of a laminar lane enclose what comes next. -/
theorem filter_open (after : ∀ p ∈ earlier, start p.1 ≤ start e)
    (nested : ∀ p ∈ earlier, stop p.1 ≤ start e ∨ stop e ≤ stop p.1) :
    (earlier.filter fun p => ¬ stop p.1 ≤ start e) =
      earlier.filter fun p => Encloses start stop p.1 e := by
  apply filter_congr
  intro p listed
  rw [decide_eq_decide]
  constructor
  · intro running
    exact ⟨after p listed, running, (nested p listed).resolve_left running⟩
  · intro encloses
    exact encloses.2.1

/-- The stack of the walk shows its level and its parent. -/
theorem containmentWalk_eq (root : Handle) (sink : σ → ε → Nat → Handle → σ × Handle) (state : σ)
    {stack : List (Time × Handle)} (seen : Shows start stop earlier stack)
    (sorted : (earlier.map Prod.fst ++ lane).Pairwise (Before start stop))
    (laminar : (earlier.map Prod.fst ++ lane).Pairwise (Laminar start stop)) :
    containmentWalk start stop root sink state stack lane =
      treeWalk start stop root sink state earlier lane := by
  induction lane generalizing state earlier stack with
  | nil => rfl
  | cons e rest ih =>
    have before : ∀ p ∈ earlier, Before start stop p.1 e := fun p listed =>
      (pairwise_append.mp sorted).2.2 p.1 (mem_map_of_mem listed) e mem_cons_self
    have after : ∀ p ∈ earlier, start p.1 ≤ start e := fun p listed => (before p listed).1
    have nested : ∀ p ∈ earlier, stop p.1 ≤ start e ∨ stop e ≤ stop p.1 := fun p listed =>
      Laminar.apart_or_nested (before p listed) ((pairwise_append.mp laminar).2.2 p.1
        (mem_map_of_mem listed) e mem_cons_self)
    have top := seen (start e) after
    rw [openAt, filter_open after nested] at top
    have level : (stack.dropWhile fun top => top.1 ≤ start e).length =
        (earlier.filter fun p => Encloses start stop p.1 e).length := by
      rw [top, length_reverse, length_map]
    have parent : (stack.dropWhile fun top => top.1 ≤ start e).head?.elim root Prod.snd =
        (earlier.filter fun p => Encloses start stop p.1 e).getLast?.elim root Prod.snd := by
      rw [top, head?_reverse, getLast?_map]
      cases (earlier.filter fun p => Encloses start stop p.1 e).getLast? with
      | none | some p => rfl
    rw [containmentWalk, level, parent]
    apply ih
    · exact seen.push after nested _
    · rwa [map_append, append_assoc]
    · rwa [map_append, append_assoc]

/-- Of the events that enclose another the last one is the innermost. -/
theorem innermost {p : ε} (sorted : lane.Pairwise (Before start stop))
    (laminar : lane.Pairwise (Laminar start stop)) (after : ∀ q ∈ lane, start q ≤ start e)
    (last : (lane.filter fun q => Encloses start stop q e).getLast? = some p) :
    ∀ q ∈ lane, Encloses start stop q e → q = p ∨ Encloses start stop q p := by
  obtain ⟨front, split⟩ := getLast?_eq_some_iff.mp last
  intro q listed encloses
  have mem : q ∈ front ++ [p] := by
    rw [← split]
    exact mem_filter.mpr ⟨listed, decide_eq_true encloses⟩
  rcases mem_append.mp mem with inFront | same
  · have pairs := (sorted.and laminar).sublist
      (filter_sublist (p := fun q => decide (Encloses start stop q e)))
    rw [split, pairwise_append] at pairs
    obtain ⟨before, nested⟩ := pairs.2.2 q inFront p mem_cons_self
    have inside : p ∈ lane := by
      have : p ∈ lane.filter fun q => Encloses start stop q e := by
        rw [split]
        exact mem_append_right _ mem_cons_self
      exact (mem_filter.mp this).1
    have running : ¬ stop q ≤ start p := fun ended =>
      encloses.2.1 (Std.le_trans ended (after p inside))
    exact .inr ⟨before.1, running, (Laminar.apart_or_nested before nested).resolve_left running⟩
  · exact .inl (mem_singleton.mp same)

end Walk
end DFTracer.Flame
