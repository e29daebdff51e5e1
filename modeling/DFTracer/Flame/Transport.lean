/-
# A partial survives transport

The bytes of a partial arena are read back as the arena without its name indices,
as long as lengths and indices fit the thirty-two bits they are written with. An
arena that denotes the sum of some lanes has no more nodes than the lanes have
paths, so the bound is one on the number of events.
-/

import DFTracer.Flame.Groups

namespace DFTracer.Flame

open Math.Float64 Math.PathProfile List

@[simp] theorem put_length (width v : Nat) : (put width v).length = width := by
  simp [put]

theorem put_succ (width v : Nat) : put (width + 1) v = UInt8.ofNat v :: put width (v / 256) := by
  unfold put
  rw [range_succ_eq_map, map_cons, map_map]
  congr 1
  apply map_congr_left
  intro k hk
  change UInt8.ofNat (v >>> (8 * (k + 1))) = UInt8.ofNat ((v / 256) >>> (8 * k))
  rw [Nat.shiftRight_eq_div_pow, Nat.shiftRight_eq_div_pow, Nat.div_div_eq_div_mul]
  congr 2
  rw [show 8 * (k + 1) = 8 + 8 * k by omega, pow_add]
  rfl

theorem littleEndian_put (width v : Nat) (hv : v < 256 ^ width) : littleEndian (put width v) = v := by
  induction width generalizing v with
  | zero =>
    obtain rfl : v = 0 := by omega
    rfl
  | succ width ih =>
    rw [put_succ, littleEndian, ih (v / 256) (by omega), UInt8.toNat_ofNat']
    omega

/-- The bytes at a position begin with `bytes`. -/
structure At (data : Bytes) (pos : Nat) (bytes : Bytes) : Prop where
  inside : pos ≤ data.length
  starts : bytes <+: data.drop pos

namespace At

variable {data a b : Bytes} {pos : Nat}

theorem split (h : At data pos (a ++ b)) : At data pos a ∧ At data (pos + a.length) b := by
  obtain ⟨rest, hrest⟩ := h.starts
  have hlen := congrArg List.length hrest
  simp only [length_append, length_drop] at hlen
  have hin := h.inside
  refine ⟨⟨hin, ⟨b ++ rest, ?_⟩⟩, ⟨by omega, ⟨rest, ?_⟩⟩⟩
  · rw [← append_assoc]
    exact hrest
  · rw [← drop_drop, ← hrest, append_assoc, drop_left]

theorem end_le (h : At data pos a) : pos + a.length ≤ data.length := by
  have hlen := h.starts.length_le
  rw [length_drop] at hlen
  have := h.inside
  omega

theorem take_eq (h : At data pos a) : (data.drop pos).take a.length = a :=
  (prefix_iff_eq_take.mp h.starts).symm

theorem get {width v : Nat} (h : At data pos (put width v)) (hv : v < 256 ^ width) :
    get width data pos = (v, pos + width) := by
  have hend := h.end_le
  have htake := h.take_eq
  rw [put_length] at hend htake
  rw [Flame.get, if_pos hend, htake, littleEndian_put width v hv]

end At

variable {data : Bytes} {pos : Nat} {a : FlameArena} {f : Profile}

theorem getChildren_put (cs : List Nat)
    (h : At data pos (cs.flatMap (put 4))) (hcs : ∀ c ∈ cs, c < 2 ^ 32) :
    getChildren data cs.length pos = (cs, pos + (cs.flatMap (put 4)).length) := by
  induction cs generalizing pos with
  | nil => rfl
  | cons c cs ih =>
    obtain ⟨hc, hrest⟩ := h.split
    rw [put_length] at hrest
    rw [length_cons, getChildren, hc.get (hcs c mem_cons_self)]
    simp only [ih hrest fun k hk => hcs k (mem_cons_of_mem _ hk)]
    rw [flatMap_cons, length_append, put_length, Nat.add_assoc]

/-- A double that keeps its bits when they are read back. -/
def KeepsBits (x : Float) : Prop := Float.ofBits x.toBits = x

theorem keepsBits_whole (n : Int) (fits : n.natAbs < 2 ^ 64) : KeepsBits (whole n) := by
  change Float.ofModel (.pack (whole n).toModel.unpack) = whole n
  rw [unpack_whole n fits]
  rfl

/-- The lengths and indices of a node fit thirty-two bits, and its times are
numbers. -/
structure Portable (n : FlameNode) : Prop where
  name : n.name.length < 2 ^ 32
  width : n.children.length < 2 ^ 32
  children : ∀ c ∈ n.children, c < 2 ^ 32
  total : KeepsBits n.total
  self : KeepsBits n.self

/-- A node without its name index. -/
def FlameNode.stripped (n : FlameNode) : FlameNode := { n with kids := [] }

theorem getFlameNode_serialize {n : FlameNode}
    (h : At data pos (serializeFlameNode n)) (hn : Portable n) :
    getFlameNode data pos = (n.stripped, pos + (serializeFlameNode n).length) := by
  have hlen : (serializeFlameNode n).length
      = 4 + n.name.length + 8 + 8 + 8 + 4 + (n.children.flatMap (put 4)).length := by
    simp only [serializeFlameNode, length_append, put_length]
  rw [hlen]
  unfold serializeFlameNode at h
  obtain ⟨h, hchildren⟩ := h.split
  obtain ⟨h, hwidth⟩ := h.split
  obtain ⟨h, hcount⟩ := h.split
  obtain ⟨h, hself⟩ := h.split
  obtain ⟨h, htotal⟩ := h.split
  obtain ⟨hnl, hname⟩ := h.split
  simp only [length_append, put_length] at hchildren hwidth hcount hself htotal hname
  have hnend := hname.end_le
  have hntake := hname.take_eq
  unfold getFlameNode
  rw [hnl.get hn.name]
  simp only [if_pos hnend, hntake]
  rw [Nat.add_assoc pos 4, htotal.get (UInt64.toNat_lt _)]
  simp only [Nat.add_assoc] at hself hcount hwidth hchildren ⊢
  rw [hself.get (UInt64.toNat_lt _)]
  simp only [Nat.add_assoc]
  rw [hcount.get (UInt64.toNat_lt _)]
  simp only [Nat.add_assoc]
  rw [hwidth.get hn.width]
  simp only [Nat.add_assoc]
  rw [getChildren_put _ hchildren hn.children]
  simp only [UInt64.ofNat_toNat, Nat.add_assoc, Prod.mk.injEq, and_true]
  rw [hn.total, hn.self]
  rfl

theorem getFlameNodes_serialize (arena : FlameArena)
    (h : At data pos (arena.flatMap serializeFlameNode)) (harena : ∀ n ∈ arena, Portable n) :
    getFlameNodes data arena.length pos = arena.map FlameNode.stripped := by
  induction arena generalizing pos with
  | nil => rfl
  | cons n arena ih =>
    obtain ⟨hn, hrest⟩ := h.split
    have hread := getFlameNode_serialize hn (harena n mem_cons_self)
    rw [length_cons, getFlameNodes, if_pos h.inside, hread]
    simp only [ih hrest fun k hk => harena k (mem_cons_of_mem _ hk)]
    rfl

/-- Reading a serialized arena gives its nodes without their name indices. -/
theorem deserialize_serialize {arena : FlameArena} (hlen : arena.length < 2 ^ 32)
    (harena : ∀ n ∈ arena, Portable n) :
    deserializeFlameArena (serializeFlameArena arena) = arena.map FlameNode.stripped := by
  have h : At (serializeFlameArena arena) 0 (serializeFlameArena arena) :=
    ⟨Nat.zero_le _, prefix_rfl⟩
  have hparts : serializeFlameArena arena
      = put 4 FLAM ++ (put 4 arena.length ++ arena.flatMap serializeFlameNode) := by
    rw [serializeFlameArena, append_assoc]
  rw [show At (serializeFlameArena arena) 0 (serializeFlameArena arena)
    = At (serializeFlameArena arena) 0 (put 4 FLAM ++ (put 4 arena.length
      ++ arena.flatMap serializeFlameNode)) from congrArg _ hparts] at h
  obtain ⟨htag, h⟩ := h.split
  obtain ⟨hn, hnodes⟩ := h.split
  simp only [put_length] at hn hnodes
  unfold deserializeFlameArena
  rw [htag.get (by decide)]
  simp only
  rw [hn.get hlen]
  exact getFlameNodes_serialize arena hnodes harena

theorem node_map_stripped (a : FlameArena) (i : Nat) :
    FlameArena.node (a.map FlameNode.stripped) i = (a.node i).stripped := by
  unfold FlameArena.node
  rw [getD_eq_getElem?_getD, getD_eq_getElem?_getD, getElem?_map]
  cases a[i]? <;> rfl

theorem sameShape_stripped (a : FlameArena) : SameShape a (a.map FlameNode.stripped) where
  length := length_map ..
  name := by
    intro i
    rw [node_map_stripped]
    rfl
  children := by
    intro i
    rw [node_map_stripped]
    rfl

/-- The name indices do not matter for what an arena denotes. -/
theorem Denotes.stripped (h : Denotes a f) :
    Denotes (a.map FlameNode.stripped) f where
  tree := (sameShape_stripped a).isTree h.tree
  root := ((sameShape_stripped a).name 0).trans h.root
  holds := by
    intro p
    have hp := h.holds p
    rw [(sameShape_stripped a).resolve]
    cases hr : resolve a p with
    | none =>
      rw [hr] at hp
      exact hp
    | some i =>
      rw [hr] at hp
      obtain ⟨t, s, k, hw, ht, hs, hk⟩ := Holds.of_some hp
      rw [hw, Option.map_some, node_map_stripped]
      exact Holds.present _ t s k ht hs hk

/-! ## The size of an arena -/

/-- The paths the lanes' events and groups occupy. -/
def lanePathsOf (lane : List Span) : List Path :=
  baseOf lane :: (lanePaths lane).map fun e => baseOf lane ++ (e.1 ++ [e.2.name])

def allPaths (lanes : List (List Span)) : List Path := [] :: lanes.flatMap lanePathsOf

variable {d : Int64 → Int} {grouped : Bool}

variable {lanes : List (List Span)}

theorem mem_allPaths (h : ExactSpans d grouped lanes) {q : Path}
    (hq : lanesProfile (laneSpec d) lanes q ≠ 0) : q ∈ allPaths lanes := by
  rw [lanesProfile, Pi.add_apply] at hq
  by_cases hroot : q = []
  · rw [hroot]
    exact mem_cons_self
  rw [Pi.single_eq_of_ne hroot, zero_add, sum_apply] at hq
  obtain ⟨w, hw, hwne⟩ := exists_ne_zero hq
  obtain ⟨l, hl, rfl⟩ := mem_map.mp hw
  apply mem_cons_of_mem
  apply mem_flatMap.mpr
  refine ⟨l, hl, ?_⟩
  by_cases hbase : q = baseOf l
  · rw [hbase]
    exact mem_cons_self
  apply mem_cons_of_mem
  have hplain : laneProfile d l q ≠ 0 := by
    rw [laneSpec, Pi.add_apply] at hwne
    have hzero : (if baseOf l = [] then 0 else
        Pi.single (baseOf l) (((laneTop d l : Weight)) : WithZero Weight) : Profile) q = 0 := by
      split
      · rfl
      · exact Pi.single_eq_of_ne hbase _
    rwa [hzero, add_zero] at hwne
  have hpre : baseOf l <+: q := by
    by_contra hnot
    exact hplain (plant_apply_of_not _ _ _ hnot)
  obtain ⟨r, rfl⟩ := hpre
  rw [laneProfile, plant_append_apply, eventsProfile, Pi.add_apply, Pi.single_eq_of_ne
    (by
      rintro rfl
      exact hbase (append_nil _)), zero_add, sum_apply] at hplain
  obtain ⟨v, hv, hvne⟩ := exists_ne_zero hplain
  obtain ⟨e, he, rfl⟩ := mem_map.mp hv
  rcases eventProfile_ne_zero hvne with heq | ⟨heq, hp⟩
  · rw [heq]
    exact mem_map.mpr ⟨e, he, rfl⟩
  · obtain ⟨p, s, hs, heq', -⟩ := h.nested l hl e he hp
    rw [heq, heq']
    exact mem_map.mpr ⟨(p, s), hs, rfl⟩

/-- Distinct nodes lie on distinct paths. -/
theorem Denotes.length_le (h : Denotes a f) {paths : List Path}
    (hpaths : ∀ q, f q ≠ 0 → q ∈ paths) : a.length ≤ paths.length := by
  have hsub : (List.range a.length).Subperm (paths.map fun q => (resolve a q).getD 0) := by
    apply nodup_range.subperm
    intro i hi
    obtain ⟨p, hp⟩ := h.tree.exists_path (mem_range.mp hi)
    exact mem_map.mpr ⟨p, hpaths p (h.ne_zero hp), by rw [hp]; rfl⟩
  have hlen := hsub.length_le
  rwa [length_range, length_map] at hlen

/-- The number of events of some lanes. -/
def eventCount (lanes : List (List Span)) : Nat := (lanes.map List.length).sum

theorem length_lanePaths (lane : List Span) : (lanePaths lane).length = lane.length := by
  have h := congrArg List.length (pathWalk_spans [] [] lane)
  rw [length_map] at h
  exact h

theorem length_allPaths (hne : ∀ l ∈ lanes, l ≠ []) :
    (allPaths lanes).length ≤ 1 + 2 * eventCount lanes := by
  unfold allPaths eventCount
  rw [length_cons, length_flatMap]
  have hsum : (lanes.map fun l => (lanePathsOf l).length).sum
      ≤ 2 * (lanes.map List.length).sum := by
    induction lanes with
    | nil => exact Nat.le_refl 0
    | cons l lanes ih =>
      have hl := length_pos_iff.mpr (hne l mem_cons_self)
      have hrest := ih fun k hk => hne k (mem_cons_of_mem _ hk)
      have hpaths : (lanePathsOf l).length = l.length + 1 := by
        rw [lanePathsOf, length_cons, length_map, length_lanePaths]
      rw [map_cons, sum_cons, map_cons, sum_cons]
      omega
  omega

/-- Names and groups short enough to be sent, and few enough events to index. -/
structure Sendable (lanes : List (List Span)) : Prop where
  names : ∀ l ∈ lanes, ∀ s ∈ l, s.name.length < 2 ^ 32 ∧ ∀ g ∈ s.group, g.length < 2 ^ 32
  count : 2 * eventCount lanes + 1 < 2 ^ 32

/-- The last name of an occupied path can be sent. -/
theorem Sendable.last_lt (h : Sendable lanes) {p : Path} {n : Bytes}
    (hp : p ++ [n] ∈ allPaths lanes) : n.length < 2 ^ 32 := by
  rcases mem_cons.mp hp with hnil | hp
  · simp at hnil
  obtain ⟨l, hl, hin⟩ := mem_flatMap.mp hp
  rcases mem_cons.mp hin with hbase | hin
  · unfold baseOf at hbase
    cases hg : l.head?.bind Span.group with
    | none =>
      rw [hg] at hbase
      simp at hbase
    | some g =>
      rw [hg] at hbase
      have hjoined : p ++ [n] = [] ++ [g] := hbase
      obtain ⟨-, hlast⟩ := append_inj' hjoined rfl
      obtain rfl := singleton_inj.mp hlast
      obtain ⟨s, hs, hsg⟩ := Option.bind_eq_some_iff.mp hg
      exact (h.names l hl s (mem_of_mem_head? hs)).2 n hsg
  · obtain ⟨e, he, heq⟩ := mem_map.mp hin
    rw [← append_assoc] at heq
    obtain ⟨-, hlast⟩ := append_inj' heq rfl
    obtain rfl := singleton_inj.mp hlast
    exact (h.names l hl e.2 (mem_lanePaths he)).1

/-- An arena that denotes the lanes survives transport. -/
theorem Denotes.transport
    (ha : Denotes a (lanesProfile (laneSpec d) lanes)) (h : ExactSpans d grouped lanes)
    (hsend : Sendable lanes) :
    deserializeFlameArena (serializeFlameArena a) = a.map FlameNode.stripped := by
  have hlen : a.length < 2 ^ 32 := by
    have h1 := ha.length_le fun q hq => mem_allPaths h hq
    have h2 := length_allPaths h.nonempty
    have h3 := hsend.count
    omega
  apply deserialize_serialize hlen
  intro n hn
  obtain ⟨i, hi, rfl⟩ := getElem_of_mem hn
  have hnode : a.node i = a[i] := by
    rw [FlameArena.node, getD_eq_getElem?_getD, getElem?_eq_getElem hi]
    rfl
  rw [← hnode]
  obtain ⟨p, hp⟩ := ha.tree.exists_path hi
  have hholds := ha.node_holds hp
  have hbound := within_lanesProfile (F := laneSpec d) p fun l hl =>
    within_laneSpec (h.nonneg l hl) p
  obtain ⟨t, s, k, hw, ht, hs, -⟩ := hholds.of_some
  have hexact := hbound.exact h.small
  rw [hw] at hexact
  have hchildren : ∀ c ∈ (a.node i).children, c < a.length := fun c hc => (ha.tree.child_gt hc).2
  refine ⟨?_, ?_, fun c hc => Nat.lt_trans (hchildren c hc) hlen, ?_, ?_⟩
  · cases p using List.reverseRecOn with
    | nil =>
      obtain rfl : 0 = i := Option.some.inj hp
      rw [ha.root]
      decide
    | append_singleton p n =>
      have hin := mem_allPaths h (ha.ne_zero hp)
      rw [resolve_concat, Option.bind_eq_some_iff] at hp
      obtain ⟨j, -, hchild⟩ := hp
      rw [(ha.tree.childNamed_eq_some.mp hchild).2]
      exact hsend.last_lt hin
  · have hsub : (a.node i).children.Subperm (List.range a.length) := by
      apply (ha.tree.nodup i).subperm
      intro c hc
      exact mem_range.mpr (hchildren c hc)
    have := hsub.length_le
    rw [length_range] at this
    omega
  · rw [ht]
    exact keepsBits_whole t (Nat.lt_trans hexact.1 (by decide))
  · rw [hs]
    exact keepsBits_whole s (Nat.lt_trans hexact.2 (by decide))

end DFTracer.Flame
