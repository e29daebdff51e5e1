/-
# What an arena denotes

The children lists of an arena describe a tree, and a path of names leads to at most one node of
it. Read through its paths, an arena is a function from paths to statistics: folding an event adds
to it at the event's path and at its parent's, and merging adds the two functions. The doubles of
the nodes hold these integers without rounding.
-/

import DFTracer.Flame.ContainmentFold
import DFTracer.Math.FloatSum
import DFTracer.Math.PathProfile

namespace DFTracer.Flame

open Math.Float64 Math.PathProfile List

abbrev Path := List Bytes

/-- The children lists describe a tree rooted at node 0, siblings have different
names, and children come after their parents. -/
structure IsTree (a : FlameArena) : Prop where
  nonempty : 0 < a.length
  child_gt : ∀ {i c}, c ∈ (a.node i).children → i < c ∧ c < a.length
  nodup : ∀ i, (a.node i).children.Nodup
  name_inj : ∀ {i c d}, c ∈ (a.node i).children → d ∈ (a.node i).children →
    (a.node c).name = (a.node d).name → c = d
  parent_unique : ∀ {i j c}, c ∈ (a.node i).children → c ∈ (a.node j).children → i = j
  has_parent : ∀ {c}, 0 < c → c < a.length → ∃ i, c ∈ (a.node i).children

/-- The name index of every node lists its children. -/
def Indexed (a : FlameArena) : Prop :=
  ∀ i n c, (a.node i).kids.lookup n = some c ↔ c ∈ (a.node i).children ∧ (a.node c).name = n

/-- The child of a node with this name. -/
def childNamed (a : FlameArena) (i : Nat) (n : Bytes) : Option Nat :=
  (a.node i).children.find? fun c => (a.node c).name = n

/-- The node a path leads to from the root. -/
def resolve (a : FlameArena) (p : Path) : Option Nat := p.foldlM (childNamed a) 0

@[simp] theorem resolve_nil (a : FlameArena) : resolve a [] = some 0 := rfl

@[simp] theorem resolve_concat (a : FlameArena) (p : Path) (n : Bytes) :
    resolve a (p ++ [n]) = (resolve a p).bind fun i => childNamed a i n := by
  rw [resolve, foldlM_append]
  congr 1
  funext i
  cases h : childNamed a i n <;> simp [h]

namespace IsTree

variable {a : FlameArena} (h : IsTree a) {i : Nat} {p : Path}

include h

theorem childNamed_eq_some {c : Nat} {n : Bytes} :
    childNamed a i n = some c ↔ c ∈ (a.node i).children ∧ (a.node c).name = n := by
  constructor
  · intro hfind
    exact ⟨mem_of_find?_eq_some hfind, by simpa using find?_some hfind⟩
  · rintro ⟨hmem, hname⟩
    cases hfind : childNamed a i n with
    | none => exact absurd (by simpa using hname) (find?_eq_none.mp hfind c hmem)
    | some d =>
      have hd := mem_of_find?_eq_some hfind
      have hdname : (a.node d).name = n := by simpa using find?_some hfind
      rw [h.name_inj hmem hd (by rw [hname, hdname])]

theorem resolve_lt (hp : resolve a p = some i) : i < a.length := by
  induction p using List.reverseRecOn generalizing i with
  | nil =>
    cases hp
    exact h.nonempty
  | append_singleton p n ih =>
    rw [resolve_concat, Option.bind_eq_some_iff] at hp
    obtain ⟨j, -, hchild⟩ := hp
    exact (h.child_gt (h.childNamed_eq_some.mp hchild).1).2

/-- Different paths lead to different nodes. -/
theorem resolve_inj {q : Path} (hp : resolve a p = some i) (hq : resolve a q = some i) : p = q := by
  induction p using List.reverseRecOn generalizing q i with
  | nil =>
    cases hp
    cases q using List.reverseRecOn with
    | nil => rfl
    | append_singleton q m =>
      rw [resolve_concat, Option.bind_eq_some_iff] at hq
      obtain ⟨j, -, hchild⟩ := hq
      have := (h.child_gt (h.childNamed_eq_some.mp hchild).1).1
      omega
  | append_singleton p n ih =>
    rw [resolve_concat, Option.bind_eq_some_iff] at hp
    obtain ⟨j, hj, hchild⟩ := hp
    have hin := h.childNamed_eq_some.mp hchild
    cases q using List.reverseRecOn with
    | nil =>
      cases hq
      have := (h.child_gt hin.1).1
      omega
    | append_singleton q m =>
      rw [resolve_concat, Option.bind_eq_some_iff] at hq
      obtain ⟨j', hj', hchild'⟩ := hq
      have hin' := h.childNamed_eq_some.mp hchild'
      obtain rfl := h.parent_unique hin.1 hin'.1
      rw [ih hj hj', ← hin.2, ← hin'.2]

/-- Every node is on some path. -/
theorem exists_path (hi : i < a.length) : ∃ p, resolve a p = some i := by
  induction i using Nat.strongRecOn with
  | ind i ih =>
    rcases Nat.eq_zero_or_pos i with rfl | hpos
    · exact ⟨[], rfl⟩
    · obtain ⟨j, hj⟩ := h.has_parent hpos hi
      have hlt := (h.child_gt hj).1
      obtain ⟨p, hp⟩ := ih j hlt (Nat.lt_trans hlt hi)
      refine ⟨p ++ [(a.node i).name], ?_⟩
      rw [resolve_concat, hp]
      exact h.childNamed_eq_some.mpr ⟨hj, rfl⟩

end IsTree

theorem node_modify (a : FlameArena) (i j : Nat) (g : FlameNode → FlameNode) (hi : i < a.length) :
    FlameArena.node (a.modify i g) j = if j = i then g (a.node j) else a.node j := by
  unfold FlameArena.node
  rw [getD_eq_getElem?_getD, getElem?_modify, getD_eq_getElem?_getD]
  by_cases h : j = i
  · subst h
    rw [getElem?_eq_getElem hi]
    simp
  · rw [if_neg h]
    simp [Ne.symm h]

/-- Two arenas whose nodes have the same names and children. -/
structure SameShape (a b : FlameArena) : Prop where
  length : b.length = a.length
  name : ∀ i, (b.node i).name = (a.node i).name
  children : ∀ i, (b.node i).children = (a.node i).children

namespace SameShape

variable {a b : FlameArena} (h : SameShape a b)

include h

theorem resolve (p : Path) : resolve b p = Flame.resolve a p := by
  have hchild : childNamed b = childNamed a := by
    funext i n
    simp only [childNamed, h.children, h.name]
  rw [Flame.resolve, Flame.resolve, hchild]

theorem isTree (ha : IsTree a) : IsTree b where
  nonempty := by rw [h.length]; exact ha.nonempty
  child_gt := by
    intro i c hc
    rw [h.children] at hc
    rw [h.length]
    exact ha.child_gt hc
  nodup := by
    intro i
    rw [h.children]
    exact ha.nodup i
  name_inj := by
    intro i c d hc hd hn
    rw [h.children] at hc hd
    rw [h.name, h.name] at hn
    exact ha.name_inj hc hd hn
  parent_unique := by
    intro i j c hi hj
    rw [h.children] at hi hj
    exact ha.parent_unique hi hj
  has_parent := by
    intro c hpos hlt
    rw [h.length] at hlt
    obtain ⟨i, hi⟩ := ha.has_parent hpos hlt
    exact ⟨i, by rwa [h.children]⟩

theorem indexed (hkids : ∀ i, (b.node i).kids = (a.node i).kids) (ha : Indexed a) :
    Indexed b := by
  intro i n c
  rw [hkids, h.children, h.name]
  exact ha i n c

end SameShape

section

variable (a : FlameArena) (i : Nat) (g : FlameNode → FlameNode) (hi : i < a.length) (hg : ∀ n, (g n).name = n.name ∧ (g n).kids = n.kids ∧ (g n).children = n.children)

include a i g hi hg

/-- Changing the statistics of one node. -/
theorem sameShape_modify :
    SameShape a (a.modify i g) where
  length := length_modify ..
  name := by
    intro j
    rw [node_modify a i j g hi]
    split
    · exact (hg _).1
    · rfl
  children := by
    intro j
    rw [node_modify a i j g hi]
    split
    · exact (hg _).2.2
    · rfl

theorem kids_modify (j : Nat) :
    (FlameArena.node (a.modify i g) j).kids = (a.node j).kids := by
  rw [node_modify a i j g hi]
  split
  · exact (hg _).2.1
  · rfl

end

/-! ## Adding a child -/

/-- What `findOrCreateChild` leaves when the parent `i` has no child `n` yet. -/
def withChild (a : FlameArena) (i : Nat) (n : Bytes) : FlameArena :=
  (a ++ [({ name := n } : FlameNode)]).modify i fun nd =>
    { nd with kids := nd.kids ++ [(n, a.length)], children := nd.children ++ [a.length] }

section WithChild

variable {a : FlameArena} (h : IsTree a) {i : Nat} (hi : i < a.length) {n : Bytes}

theorem withChild_length : (withChild a i n).length = a.length + 1 := by
  rw [withChild, length_modify, length_append]
  rfl

theorem node_append (j : Nat) :
    FlameArena.node (a ++ [({ name := n } : FlameNode)]) j
      = if j = a.length then { name := n } else a.node j := by
  unfold FlameArena.node
  rw [getD_eq_getElem?_getD, getD_eq_getElem?_getD]
  rcases Nat.lt_trichotomy j a.length with hlt | rfl | hgt
  · rw [getElem?_append_left hlt, if_neg (Nat.ne_of_lt hlt)]
  · rw [getElem?_concat_length, if_pos rfl]
    rfl
  · rw [if_neg (Nat.ne_of_gt hgt), getElem?_eq_none (by rw [length_append]; exact hgt),
      getElem?_eq_none (Nat.le_of_lt hgt)]

include hi

theorem node_withChild (j : Nat) :
    (withChild a i n).node j =
      if j = i then { a.node i with
        kids := (a.node i).kids ++ [(n, a.length)]
        children := (a.node i).children ++ [a.length] }
      else if j = a.length then { name := n } else a.node j := by
  rw [withChild, node_modify _ _ _ _ (by rw [length_append]; exact Nat.lt_add_right _ hi),
    node_append]
  by_cases hj : j = i
  · subst hj
    rw [if_pos rfl, if_pos rfl, if_neg (Nat.ne_of_lt hi)]
  · rw [if_neg hj, if_neg hj]

theorem withChild_name (j : Nat) :
    ((withChild a i n).node j).name = if j = a.length then n else (a.node j).name := by
  rw [node_withChild hi]
  by_cases hj : j = i
  · subst hj
    rw [if_pos rfl, if_neg (Nat.ne_of_lt hi)]
  · rw [if_neg hj]
    split <;> rfl

theorem withChild_children (j : Nat) :
    ((withChild a i n).node j).children
      = if j = i then (a.node i).children ++ [a.length] else (a.node j).children := by
  rw [node_withChild hi]
  by_cases hj : j = i
  · subst hj
    rw [if_pos rfl, if_pos rfl]
  · rw [if_neg hj, if_neg hj]
    by_cases hl : j = a.length
    · subst hl
      rw [if_pos rfl, FlameArena.node, getD_eq_getElem?_getD,
        getElem?_eq_none (Nat.le_refl _)]
      rfl
    · rw [if_neg hl]

theorem withChild_kids (j : Nat) :
    ((withChild a i n).node j).kids
      = if j = i then (a.node i).kids ++ [(n, a.length)] else (a.node j).kids := by
  rw [node_withChild hi]
  by_cases hj : j = i
  · subst hj
    rw [if_pos rfl, if_pos rfl]
  · rw [if_neg hj, if_neg hj]
    by_cases hl : j = a.length
    · subst hl
      rw [if_pos rfl, FlameArena.node, getD_eq_getElem?_getD,
        getElem?_eq_none (Nat.le_refl _)]
      rfl
    · rw [if_neg hl]

/-- Statistics of the nodes that were there are unchanged. -/
theorem withChild_stats (j : Nat) (hj : j < a.length) :
    ((withChild a i n).node j).total = (a.node j).total ∧
      ((withChild a i n).node j).self = (a.node j).self ∧
      ((withChild a i n).node j).count = (a.node j).count := by
  rw [node_withChild hi]
  by_cases hji : j = i
  · subst hji
    rw [if_pos rfl]
    exact ⟨rfl, rfl, rfl⟩
  · rw [if_neg hji, if_neg (Nat.ne_of_lt hj)]
    exact ⟨rfl, rfl, rfl⟩

theorem withChild_new :
    ((withChild a i n).node a.length).total = 0 ∧ ((withChild a i n).node a.length).self = 0 ∧
      ((withChild a i n).node a.length).count = 0 := by
  rw [node_withChild hi, if_neg (Nat.ne_of_gt hi), if_pos rfl]
  exact ⟨rfl, rfl, rfl⟩

theorem mem_withChild_children {j c : Nat} :
    c ∈ ((withChild a i n).node j).children
      ↔ c ∈ (a.node j).children ∨ (j = i ∧ c = a.length) := by
  rw [withChild_children hi]
  by_cases hj : j = i
  · subst hj
    simp
  · simp [hj]

include h

theorem isTree_withChild (hnew : childNamed a i n = none) : IsTree (withChild a i n) where
  nonempty := by
    rw [withChild_length]
    exact Nat.succ_pos _
  child_gt := by
    intro j c hc
    rw [withChild_length]
    rcases (mem_withChild_children hi).mp hc with hold | ⟨rfl, rfl⟩
    · have := h.child_gt hold
      omega
    · omega
  nodup := by
    intro j
    rw [withChild_children hi]
    split
    · rw [nodup_append]
      refine ⟨h.nodup i, nodup_singleton _, ?_⟩
      intro c hc d hd
      rw [mem_singleton] at hd
      have := (h.child_gt hc).2
      omega
    · exact h.nodup j
  name_inj := by
    have hfresh : ∀ c ∈ (a.node i).children, (a.node c).name ≠ n := by
      intro c hc hname
      have hsome := h.childNamed_eq_some.mpr ⟨hc, hname⟩
      rw [hnew] at hsome
      cases hsome
    intro j c d hc hd hname
    rw [withChild_name hi, withChild_name hi] at hname
    rcases (mem_withChild_children hi).mp hc with holdc | ⟨hj, hc'⟩
    · rw [if_neg (Nat.ne_of_lt (h.child_gt holdc).2)] at hname
      rcases (mem_withChild_children hi).mp hd with holdd | ⟨hj, hd'⟩
      · rw [if_neg (Nat.ne_of_lt (h.child_gt holdd).2)] at hname
        exact h.name_inj holdc holdd hname
      · rw [if_pos hd'] at hname
        rw [hj] at holdc
        exact absurd hname (hfresh c holdc)
    · rw [if_pos hc'] at hname
      rcases (mem_withChild_children hi).mp hd with holdd | ⟨-, hd'⟩
      · rw [if_neg (Nat.ne_of_lt (h.child_gt holdd).2)] at hname
        rw [hj] at holdd
        exact absurd hname.symm (hfresh d holdd)
      · rw [hc', hd']
  parent_unique := by
    intro j k c hj hk
    rcases (mem_withChild_children hi).mp hj with holdj | ⟨hj', hc⟩
    · have := (h.child_gt holdj).2
      rcases (mem_withChild_children hi).mp hk with holdk | ⟨-, hc⟩
      · exact h.parent_unique holdj holdk
      · omega
    · rcases (mem_withChild_children hi).mp hk with holdk | ⟨hk', -⟩
      · have := (h.child_gt holdk).2
        omega
      · rw [hj', hk']
  has_parent := by
    intro c hpos hlt
    rw [withChild_length] at hlt
    rcases Nat.lt_or_ge c a.length with hc | hc
    · obtain ⟨j, hj⟩ := h.has_parent hpos hc
      exact ⟨j, (mem_withChild_children hi).mpr (.inl hj)⟩
    · exact ⟨i, (mem_withChild_children hi).mpr (.inr ⟨rfl, by omega⟩)⟩

/-- The new child is found under its name, and nothing else changes place. -/
theorem childNamed_withChild (hnew : childNamed a i n = none) (j : Nat) (m : Bytes) :
    childNamed (withChild a i n) j m
      = if j = i ∧ m = n then some a.length else childNamed a j m := by
  have htree := isTree_withChild h hi hnew
  apply Option.ext
  intro c
  rw [htree.childNamed_eq_some, mem_withChild_children hi, withChild_name hi]
  by_cases hjm : j = i ∧ m = n
  · rw [show (if j = i ∧ m = n then some a.length else childNamed a j m) = some a.length from
      if_pos hjm]
    constructor
    · rintro ⟨hc | ⟨-, hc⟩, hname⟩
      · rw [if_neg (Nat.ne_of_lt (h.child_gt hc).2)] at hname
        have hsome := h.childNamed_eq_some.mpr ⟨hc, hname⟩
        rw [hjm.1, hjm.2, hnew] at hsome
        cases hsome
      · rw [hc]
    · intro hc
      have hc' := Option.some.inj hc
      rw [if_pos hc'.symm]
      exact ⟨.inr ⟨hjm.1, hc'.symm⟩, hjm.2.symm⟩
  · rw [show (if j = i ∧ m = n then some a.length else childNamed a j m) = childNamed a j m from
      if_neg hjm, h.childNamed_eq_some]
    constructor
    · rintro ⟨hc | ⟨hj, hc⟩, hname⟩
      · rw [if_neg (Nat.ne_of_lt (h.child_gt hc).2)] at hname
        exact ⟨hc, hname⟩
      · rw [if_pos hc] at hname
        exact absurd ⟨hj, hname.symm⟩ hjm
    · rintro ⟨hc, hname⟩
      rw [if_neg (Nat.ne_of_lt (h.child_gt hc).2)]
      exact ⟨.inl hc, hname⟩

theorem indexed_withChild (hk : Indexed a) (hnew : childNamed a i n = none) :
    Indexed (withChild a i n) := by
  have hkids : ∀ j m, (a.node j).kids.lookup m = childNamed a j m := by
    intro j m
    apply Option.ext
    intro c
    rw [hk j m c, h.childNamed_eq_some]
  intro j m c
  rw [← (isTree_withChild h hi hnew).childNamed_eq_some, childNamed_withChild h hi hnew,
    withChild_kids hi]
  by_cases hj : j = i
  · subst hj
    rw [if_pos rfl, lookup_append, hkids]
    by_cases hm : m = n
    · subst hm
      rw [hnew, Option.none_or, if_pos ⟨rfl, rfl⟩, lookup_cons_self]
    · have hlast : [(n, a.length)].lookup m = none := by
        simp [lookup_cons, beq_eq_false_iff_ne.mpr hm]
      rw [hlast, Option.or_none, if_neg (fun hjm => hm hjm.2)]
  · rw [if_neg hj, if_neg (fun hjm => hj hjm.1), hkids]

/-- One path is new, the others lead where they led. -/
theorem resolve_withChild (hnew : childNamed a i n = none) {p : Path} (hp : resolve a p = some i)
    (q : Path) :
    resolve (withChild a i n) q = if q = p ++ [n] then some a.length else resolve a q := by
  have hchild := childNamed_withChild h hi hnew
  induction q using List.reverseRecOn with
  | nil =>
    rw [if_neg (by simp)]
    rfl
  | append_singleton q m ih =>
    rw [resolve_concat, ih]
    by_cases hq : q = p ++ [n]
    · subst hq
      have hnone : resolve a (p ++ [n] ++ [m]) = none := by
        rw [resolve_concat, resolve_concat, hp, Option.bind_some, hnew]
        rfl
      have hleaf : childNamed a a.length m = none := by
        rw [childNamed, FlameArena.node, getD_eq_getElem?_getD,
          getElem?_eq_none (Nat.le_refl _)]
        rfl
      rw [if_pos rfl, if_neg (by simp), hnone, Option.bind_some, hchild,
        if_neg (by omega), hleaf]
    · rw [if_neg hq, resolve_concat]
      cases hj : resolve a q with
      | none =>
        rw [if_neg]
        · rfl
        · rintro heq
          obtain ⟨rfl, -⟩ := append_inj' heq rfl
          rw [hp] at hj
          cases hj
      | some j =>
        rw [Option.bind_some, Option.bind_some, hchild]
        have hsame : (j = i ∧ m = n) ↔ q ++ [m] = p ++ [n] := by
          constructor
          · rintro ⟨rfl, rfl⟩
            rw [h.resolve_inj hj hp]
          · intro heq
            obtain ⟨rfl, hmn⟩ := append_inj' heq rfl
            rw [hp] at hj
            exact ⟨(Option.some.inj hj).symm, singleton_inj.mp hmn⟩
        by_cases hjm : j = i ∧ m = n
        · rw [if_pos hjm, if_pos (hsame.mp hjm)]
        · rw [if_neg hjm, if_neg (fun heq => hjm (hsame.mpr heq))]

end WithChild

/-! ## Statistics along paths -/

/-- Total, self and count of a node. -/
abbrev Weight := Int × Int × Nat

/-- The statistics an arena holds along its paths; zero where no path leads. -/
abbrev Profile := Path → WithZero Weight

/-- A node that is there, before any event is folded into it. -/
def bare : WithZero Weight := ((0, 0, 0) : Weight)

/-- Absent nodes weigh nothing. -/
def weight : WithZero Weight →+ Weight where
  toFun := WithZero.recZeroCoe 0 id
  map_zero' := rfl
  map_add' := by
    intro x y
    cases x using WithZero.recZeroCoe with
    | zero => simp
    | coe x =>
      cases y using WithZero.recZeroCoe with
      | zero => simp
      | coe y => rfl

@[simp] theorem weight_coe (w : Weight) : weight (w : WithZero Weight) = w := rfl

@[simp] theorem weight_bare : weight bare = 0 := rfl

variable {w : WithZero Weight} {n : FlameNode}

theorem add_bare (hw : w ≠ 0) : w + bare = w := by
  cases w using WithZero.recZeroCoe with
  | zero => exact absurd rfl hw
  | coe w =>
    have h : (w : WithZero Weight) + bare = ((w + 0 : Weight) : WithZero Weight) := rfl
    rw [h, add_zero]

/-- The double of a node and the integers they hold. -/
inductive Holds : Option FlameNode → WithZero Weight → Prop
  | absent : Holds none 0
  | present (n : FlameNode) (total self : Int) (count : Nat) (htotal : n.total = whole total)
      (hself : n.self = whole self) (hcount : n.count = .ofNat count) :
      Holds (some n) ((total, self, count) : Weight)

/-- Both times are integers a double tells apart. -/
def Exact (w : Weight) : Prop := w.1.natAbs < 2 ^ 53 ∧ w.2.1.natAbs < 2 ^ 53

/-- Statistics that can be added without rounding. -/
structure Fits (w v : WithZero Weight) : Prop where
  left : Exact (weight w)
  right : Exact (weight v)
  sum : Exact (weight (w + v))

/-- The arena is a tree whose nodes hold `f`. -/
structure Denotes (a : FlameArena) (f : Profile) : Prop where
  tree : IsTree a
  root : (a.node 0).name = rootName
  holds : ∀ p, Holds ((resolve a p).map a.node) (f p)

theorem Holds.of_some (h : Holds (some n) w) :
    ∃ total self count, w = ((total, self, count) : Weight) ∧ n.total = whole total ∧
      n.self = whole self ∧ n.count = .ofNat count := by
  cases h with
  | present _ total self count htotal hself hcount =>
    exact ⟨total, self, count, rfl, htotal, hself, hcount⟩

theorem Holds.ne_zero (h : Holds (some n) w) : w ≠ 0 := by
  obtain ⟨t, s, c, rfl, -⟩ := h.of_some
  exact WithZero.coe_ne_zero

theorem Holds.eq_zero (h : Holds none w) : w = 0 := by
  cases h
  rfl

/-- Adding the statistics of one node to another. -/
theorem Holds.addStats {s : FlameNode} {v : WithZero Weight} (hn : Holds (some n) w)
    (hs : Holds (some s) v) (fits : Fits w v) : Holds (some (s.addStats n)) (w + v) := by
  obtain ⟨t, f, c, rfl, ht, hf, hc⟩ := hn.of_some
  obtain ⟨t', f', c', rfl, ht', hf', hc'⟩ := hs.of_some
  apply Holds.present _ (t + t') (f + f') (c + c')
  · change n.total + s.total = _
    rw [ht, ht']
    exact whole_add fits.left.1 fits.right.1 fits.sum.1
  · change n.self + s.self = _
    rw [hf, hf']
    exact whole_add fits.left.2 fits.right.2 fits.sum.2
  · change n.count + s.count = _
    rw [hc, hc', UInt64.ofNat_add]

namespace Denotes

variable {a : FlameArena} {f : Profile}

variable {p : Path} {i : Nat}

theorem node_holds (h : Denotes a f) (hp : resolve a p = some i) :
    Holds (some (a.node i)) (f p) := by
  have hholds := h.holds p
  rw [hp] at hholds
  exact hholds

theorem ne_zero (h : Denotes a f) (hp : resolve a p = some i) : f p ≠ 0 :=
  (h.node_holds hp).ne_zero

theorem resolve_of_ne_zero (h : Denotes a f) (hp : f p ≠ 0) : ∃ i, resolve a p = some i := by
  have hholds := h.holds p
  cases hr : resolve a p with
  | some i => exact ⟨i, rfl⟩
  | none =>
    rw [hr] at hholds
    exact absurd hholds.eq_zero hp

/-- Adding to the statistics of one node adds to the profile at its path. -/
theorem modify (h : Denotes a f) (hp : resolve a p = some i)
    {g : FlameNode → FlameNode} {d : WithZero Weight}
    (hg : ∀ n, (g n).name = n.name ∧ (g n).kids = n.kids ∧ (g n).children = n.children)
    (hd : Holds (some (g (a.node i))) (f p + d)) :
    Denotes (a.modify i g) (f + Pi.single p d) where
  tree := (sameShape_modify a i g (h.tree.resolve_lt hp) hg).isTree h.tree
  root := ((sameShape_modify a i g (h.tree.resolve_lt hp) hg).name 0).trans h.root
  holds := by
    have hi := h.tree.resolve_lt hp
    intro q
    rw [(sameShape_modify a i g hi hg).resolve, Pi.add_apply]
    by_cases hq : q = p
    · subst hq
      rw [Pi.single_eq_same, hp, Option.map_some, node_modify _ _ _ _ hi, if_pos rfl]
      exact hd
    · rw [Pi.single_eq_of_ne hq, add_zero]
      have hholds := h.holds q
      cases hj : resolve a q with
      | none =>
        rw [hj] at hholds
        exact hholds
      | some j =>
        rw [hj] at hholds
        rw [Option.map_some, node_modify _ _ _ _ hi, if_neg]
        · exact hholds
        · rintro rfl
          exact hq (h.tree.resolve_inj hj hp)

end Denotes

/-- What `findOrCreateChild` does: the profile gains a bare node, and paths that
led somewhere still lead there. -/
structure ChildAdded (a : FlameArena) (f : Profile) (p : Path) (n : Bytes)
    (r : FlameArena × Nat) : Prop where
  denotes : Denotes r.1 (f + Pi.single (p ++ [n]) bare)
  indexed : Indexed r.1
  resolve_child : resolve r.1 (p ++ [n]) = some r.2
  keeps : ∀ q j, resolve a q = some j → resolve r.1 q = some j

theorem findOrCreateChild_spec {a : FlameArena} {f : Profile} (h : Denotes a f) (hk : Indexed a)
    {p : Path} {i : Nat} (hp : resolve a p = some i) (n : Bytes) :
    ChildAdded a f p n (findOrCreateChild a i n) := by
  have hi := h.tree.resolve_lt hp
  have hchild : resolve a (p ++ [n]) = childNamed a i n := by
    rw [resolve_concat, hp, Option.bind_some]
  have hlookup : (a.node i).kids.lookup n = childNamed a i n := by
    apply Option.ext
    intro c
    rw [hk i n c, h.tree.childNamed_eq_some]
  unfold findOrCreateChild
  rw [hlookup]
  cases hc : childNamed a i n with
  | some c =>
    rw [hc] at hchild
    refine ⟨?_, hk, hchild, fun q j hq => hq⟩
    have hsame : f + Pi.single (p ++ [n]) bare = f := by
      funext q
      rw [Pi.add_apply]
      by_cases hq : q = p ++ [n]
      · subst hq
        rw [Pi.single_eq_same, add_bare (h.ne_zero hchild)]
      · rw [Pi.single_eq_of_ne hq, add_zero]
    rw [hsame]
    exact h
  | none =>
    rw [hc] at hchild
    have hresolve := resolve_withChild h.tree hi hc hp
    change ChildAdded a f p n (withChild a i n, a.length)
    refine ⟨⟨isTree_withChild h.tree hi hc, ?_, ?_⟩, indexed_withChild h.tree hi hk hc, ?_, ?_⟩
    · rw [withChild_name hi, if_neg (Nat.ne_of_lt h.tree.nonempty)]
      exact h.root
    · intro q
      have hholds := h.holds q
      rw [hresolve, Pi.add_apply]
      by_cases hq : q = p ++ [n]
      · subst hq
        have hzero : f (p ++ [n]) = 0 := by
          by_contra hne
          obtain ⟨j, hj⟩ := h.resolve_of_ne_zero hne
          rw [hchild] at hj
          cases hj
        rw [if_pos rfl, Pi.single_eq_same, hzero]
        exact Holds.present _ 0 0 0 (withChild_new hi).1 (withChild_new hi).2.1
          (withChild_new hi).2.2
      · rw [if_neg hq, Pi.single_eq_of_ne hq, add_zero]
        cases hj : resolve a q with
        | none =>
          rw [hj] at hholds
          exact hholds
        | some j =>
          rw [hj] at hholds
          obtain ⟨t, s, c, hw, ht, hs, hcount⟩ := Holds.of_some hholds
          have hstats := @withChild_stats a i hi n j (h.tree.resolve_lt hj)
          rw [hw]
          exact Holds.present _ t s c (hstats.1.trans ht) (hstats.2.1.trans hs)
            (hstats.2.2.trans hcount)
    · rw [hresolve, if_pos rfl]
    · intro q j hq
      rw [hresolve, if_neg]
      · exact hq
      · rintro rfl
        rw [hchild] at hq
        cases hq

end DFTracer.Flame
