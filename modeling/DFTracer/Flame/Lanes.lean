/-
# Merging the lanes of a shard

With no group key the lanes' profiles are added at the root; with one, each is
moved below its group's node, which then gets the inclusive statistics of its
children. Either way the arena denotes a sum with one term for each lane, so it
does not show in which order the lanes came.
-/

import DFTracer.Flame.Lane

namespace DFTracer.Flame

open Math.Float64 Math.PathProfile List

/-- Total and count, the parts of the statistics that are rolled up. -/
def inclusive : Weight →+ Weight where
  toFun w := (w.1, 0, w.2.2)
  map_zero' := rfl
  map_add' := fun _ _ => rfl

/-- The inclusive statistics of the named children below `p`. -/
def rolled (f : Profile) (p : Path) (names : List Bytes) : Weight :=
  (names.map fun n => inclusive (weight (f (p ++ [n])))).sum

theorem rolled_add (f g : Profile) (p : Path) (names : List Bytes) :
    rolled (f + g) p names = rolled f p names + rolled g p names := by
  simp only [rolled, Pi.add_apply, map_add]
  exact sum_map_add

theorem rolled_sum (fs : List Profile) (p : Path) (names : List Bytes) :
    rolled fs.sum p names = (fs.map fun f => rolled f p names).sum := by
  induction fs with
  | nil =>
    rw [sum_nil]
    apply sum_eq_zero
    intro x hx
    obtain ⟨n, -, rfl⟩ := mem_map.mp hx
    rw [Pi.zero_apply, map_zero, map_zero]
  | cons f fs ih => rw [sum_cons, rolled_add, ih, map_cons, sum_cons]

variable {p : Path} {f : Profile} {names : List Bytes} {a : FlameArena} {g : Nat}

theorem rolled_congr {g : Profile} {q : Path}
    (h : ∀ n ∈ names, weight (f (p ++ [n])) = weight (g (q ++ [n]))) :
    rolled f p names = rolled g q names := by
  unfold rolled
  congr 1
  apply map_congr_left
  intro n hn
  rw [h n hn]

theorem rolled_eq_zero
    (h : ∀ n ∈ names, inclusive (weight (f (p ++ [n]))) = 0) : rolled f p names = 0 := by
  apply sum_eq_zero
  intro x hx
  obtain ⟨n, hn, rfl⟩ := mem_map.mp hx
  exact h n hn

theorem rolled_single_bare (p q : Path) (names : List Bytes) :
    rolled (Pi.single p bare) q names = 0 := by
  apply rolled_eq_zero
  intro n hn
  rw [Pi.single_apply]
  split
  · rw [weight_bare, map_zero]
  · rw [map_zero, map_zero]

/-- Of the children of `q`, an event reaches the one it is, if its parent is `q`. -/
theorem rolled_eventProfile (p q : Path) (n : Bytes) (d : Int)
    (distinct : names.Nodup) (covers : p = q → n ∈ names) :
    rolled (eventProfile p n d) q names = if p = q then (d, 0, 1) else 0 := by
  have hparent : ∀ m, inclusive (weight ((if p = [] then 0 else
      Pi.single p (((0, -d, 0) : Weight) : WithZero Weight) : Profile) (q ++ [m]))) = 0 := by
    intro m
    split
    · rw [Pi.zero_apply, map_zero, map_zero]
    · rw [Pi.single_apply]
      split
      · rfl
      · rw [map_zero, map_zero]
  have hchild : ∀ m, inclusive (weight (eventProfile p n d (q ++ [m])))
      = if q ++ [m] = p ++ [n] then (d, 0, 1) else 0 := by
    intro m
    rw [eventProfile, Pi.add_apply, map_add, map_add, hparent, add_zero, Pi.single_apply]
    split
    · rfl
    · rw [map_zero, map_zero]
  unfold rolled
  by_cases hpq : p = q
  · subst hpq
    have hother : ∀ m, m ≠ n → inclusive (weight (eventProfile p n d (p ++ [m]))) = 0 := by
      intro m hm
      rw [hchild, if_neg]
      intro heq
      exact hm (singleton_inj.mp (append_inj' heq rfl).2)
    rw [if_pos rfl, sum_map_unique distinct (covers rfl) hother, hchild, if_pos rfl]
  · rw [if_neg hpq]
    apply sum_eq_zero
    intro x hx
    obtain ⟨m, -, rfl⟩ := mem_map.mp hx
    rw [hchild, if_neg]
    intro heq
    exact hpq (append_inj' heq rfl).1.symm

/-! ## Rolling up a node -/

/-- The inclusive statistics of one child are added. -/
theorem Holds.addInclusive {n c : FlameNode} {w v : WithZero Weight}
    (hn : Holds (some n) w) (hc : Holds (some c) v)
    (fits : Fits w (inclusive (weight v) : Weight)) :
    Holds (some (c.addInclusive n)) (w + (inclusive (weight v) : Weight)) := by
  obtain ⟨t, s, k, rfl, ht, hs, hk⟩ := hn.of_some
  obtain ⟨t', s', k', rfl, ht', hs', hk'⟩ := hc.of_some
  have hval : (((t, s, k) : Weight) : WithZero Weight)
      + ((inclusive (weight ((t', s', k') : Weight)) : Weight) : WithZero Weight)
      = ((t + t', s, k + k') : Weight) := by
    change (((t + t', s + 0, k + k') : Weight) : WithZero Weight) = _
    rw [Int.add_zero]
  rw [hval]
  apply Holds.present (c.addInclusive n) (t + t') s (k + k')
  · change n.total + c.total = _
    rw [ht, ht']
    exact whole_add fits.left.1 fits.right.1 fits.sum.1
  · exact hs
  · change n.count + c.count = _
    rw [hk, hk', UInt64.ofNat_add]

/-- A node's own total and its children's, all not negative and small together. -/
structure RollsUp (f : Profile) (p : Path) (names : List Bytes) : Prop where
  total_nonneg : 0 ≤ (weight (f p)).1
  children_nonneg : ∀ n ∈ names, 0 ≤ (weight (f (p ++ [n]))).1
  small : (weight (f p)).1 + (rolled f p names).1 < 2 ^ 53
  self : (weight (f p)).2.1.natAbs < 2 ^ 53

theorem rollUp_loop (cs : List Nat) (h : Denotes a f) (hk : Indexed a) (hp : resolve a p = some g)
    (hcs : ∀ c ∈ cs, c ∈ (a.node g).children)
    (hroll : RollsUp f p (cs.map fun c => (a.node c).name)) :
    Extends a (cs.foldl (fun merged c => merged.modify g (merged.node c).addInclusive) a)
      (f + Pi.single p ((rolled f p (cs.map fun c => (a.node c).name) : Weight))) := by
  induction cs generalizing a f with
  | nil =>
    refine ⟨?_, hk, fun q j hq => hq⟩
    have hsame : f + Pi.single p (((0 : Weight)) : WithZero Weight) = f := by
      funext q
      rw [Pi.add_apply, Pi.single_apply]
      split
      · subst q
        exact add_bare (h.ne_zero hp)
      · rw [add_zero]
    change Denotes a (f + Pi.single p (((0 : Weight)) : WithZero Weight))
    rw [hsame]
    exact h
  | cons c cs ih =>
    have hc := hcs c mem_cons_self
    have hi := h.tree.resolve_lt hp
    generalize hn : (a.node c).name = n at *
    have hpc : resolve a (p ++ [n]) = some c := by
      rw [resolve_concat, hp]
      exact h.tree.childNamed_eq_some.mpr ⟨hc, hn⟩
    have hne : ∀ m, p ++ [m] ≠ p := fun m heq => by simpa using congrArg List.length heq
    have hshape : ∀ n : FlameNode, ((a.node c).addInclusive n).name = n.name ∧
        ((a.node c).addInclusive n).kids = n.kids ∧
        ((a.node c).addInclusive n).children = n.children := fun n => ⟨rfl, rfl, rfl⟩
    obtain ⟨hnonneg, hchildren, hsmall, hself⟩ := hroll
    rw [map_cons, hn] at hchildren hsmall
    have hsplit : rolled f p (n :: cs.map fun c => (a.node c).name)
        = inclusive (weight (f (p ++ [n]))) + rolled f p (cs.map fun c => (a.node c).name) := by
      rfl
    have hfirst : ∀ w v : Weight, (w + v).1 = w.1 + v.1 := fun _ _ => rfl
    have hsum : (rolled f p (n :: cs.map fun c => (a.node c).name)).1
        = (weight (f (p ++ [n]))).1 + (rolled f p (cs.map fun c => (a.node c).name)).1 := by
      rfl
    have hrest : 0 ≤ (rolled f p (cs.map fun c => (a.node c).name)).1 := by
      have hmono : ∀ names : List Bytes, (∀ m ∈ names, 0 ≤ (weight (f (p ++ [m]))).1) →
          0 ≤ (rolled f p names).1 := by
        intro names hnames
        induction names with
        | nil => exact Int.le_refl 0
        | cons m names ih =>
          have h1 := hnames m mem_cons_self
          have h2 := ih fun k hk => hnames k (mem_cons_of_mem _ hk)
          have h3 : (rolled f p (m :: names)).1
              = (weight (f (p ++ [m]))).1 + (rolled f p names).1 := by
            rfl
          omega
      exact hmono _ fun m hm => hchildren m (mem_cons_of_mem _ hm)
    have hpos := hchildren n mem_cons_self
    have hstep : Extends a (a.modify g (a.node c).addInclusive)
        (f + Pi.single p ((inclusive (weight (f (p ++ [n]))) : Weight))) := by
      apply Extends.modify h hk hp hshape
      apply (h.node_holds hp).addInclusive (h.node_holds hpc)
      refine ⟨⟨by omega, hself⟩, ⟨?_, ?_⟩, ?_⟩
      · change (weight (f (p ++ [n]))).1.natAbs < _
        omega
      · change (0 : Int).natAbs < _
        decide
      · rw [map_add]
        refine ⟨?_, ?_⟩
        · change ((weight (f p)).1 + (weight (f (p ++ [n]))).1).natAbs < _
          omega
        · change ((weight (f p)).2.1 + 0).natAbs < _
          rw [Int.add_zero]
          exact hself
    have hmodified := sameShape_modify a g (a.node c).addInclusive hi hshape
    have hname : ∀ d, (FlameArena.node (a.modify g (a.node c).addInclusive) d).name
        = (a.node d).name := hmodified.name
    have hbelow : ∀ m, (f + Pi.single p (((inclusive (weight (f (p ++ [n]))) : Weight)) :
        WithZero Weight) : Profile) (p ++ [m]) = f (p ++ [m]) := by
      intro m
      rw [Pi.add_apply, Pi.single_eq_of_ne (hne m), add_zero]
    have hsame : rolled (f + Pi.single p (((inclusive (weight (f (p ++ [n]))) : Weight)) :
        WithZero Weight)) p (cs.map fun c => (a.node c).name)
        = rolled f p (cs.map fun c => (a.node c).name) :=
      rolled_congr fun m _ => by rw [hbelow]
    have hat : weight ((f + Pi.single p (((inclusive (weight (f (p ++ [n]))) : Weight)) :
        WithZero Weight) : Profile) p) = weight (f p) + inclusive (weight (f (p ++ [n]))) := by
      rw [Pi.add_apply, Pi.single_eq_same, map_add, weight_coe]
    have hloop := ih hstep.denotes hstep.indexed (hstep.keeps p g hp)
      (fun d hd => by
        rw [hmodified.children]
        exact hcs d (mem_cons_of_mem _ hd))
      (by
        simp only [hname]
        refine ⟨?_, ?_, ?_, ?_⟩
        · rw [hat]
          exact Int.add_nonneg hnonneg hpos
        · intro m hm
          rw [hbelow]
          exact hchildren m (mem_cons_of_mem _ hm)
        · rw [hat, hsame]
          change (weight (f p)).1 + (weight (f (p ++ [n]))).1 + _ < _
          omega
        · rw [hat]
          change ((weight (f p)).2.1 + 0).natAbs < _
          rw [Int.add_zero]
          exact hself)
    simp only [hname] at hloop
    rw [hsame] at hloop
    have hjoin : f + Pi.single p (((inclusive (weight (f (p ++ [n]))) : Weight)) : WithZero Weight)
        + Pi.single p ((rolled f p (cs.map fun c => (a.node c).name) : Weight))
        = f + Pi.single p ((rolled f p (n :: cs.map fun c => (a.node c).name) : Weight)) := by
      rw [add_assoc, ← Pi.single_add]
      rfl
    rw [hjoin] at hloop
    rw [map_cons, hn]
    exact hstep.trans hloop

/-- Rolling up a node adds its children's inclusive statistics to it. -/
theorem rollUp_spec (h : Denotes a f) (hk : Indexed a) (hp : resolve a p = some g) (hroll : RollsUp f p (childNames a g)) :
    Extends a (rollUp a g) (f + Pi.single p ((rolled f p (childNames a g) : Weight))) :=
  rollUp_loop _ h hk hp (fun _ hc => hc) hroll

/-! ## Merging lanes -/

/-- Where a lane is merged: its group's node, or the root. -/
def baseOf (lane : List Span) : Path := (lane.head?.bind Span.group).elim [] fun g => [g]

/-- What a lane adds before any roll-up. -/
def laneProfile (d : Int64 → Int) (lane : List Span) : Profile :=
  plant (baseOf lane) (eventsProfile d (lanePaths lane))

/-- The sum of a lane's scaled durations. -/
def laneSum (d : Int64 → Int) (lane : List Span) : Int := (lane.map fun s => d s.dur).sum

theorem durationSum_lanePaths (d : Int64 → Int) (lane : List Span) :
    durationSum d (lanePaths lane) = laneSum d lane := by
  have h := pathWalk_spans [] [] lane
  have hmap : durationSum d (lanePaths lane)
      = (((lanePaths lane).map Prod.snd).map fun s => d s.dur).sum := by
    rw [map_map]
    rfl
  rw [hmap, lanePaths, h]
  rfl

theorem mem_lanePaths {lane : List Span} {e : Path × Span} (he : e ∈ lanePaths lane) :
    e.2 ∈ lane := by
  have h := mem_map_of_mem (f := Prod.snd) he
  rw [lanePaths, pathWalk_spans] at h
  exact h

section Lanes

variable {d : Int64 → Int} {lane : List Span} {lanes : List (List Span)} {w v : WithZero Weight}

theorem within_plant {B : Int} {h : Profile} (hB : 0 ≤ B) (hh : ∀ q, Within B (weight (h q)))
    (p q : Path) : Within B (weight (plant p h q)) := by
  unfold plant
  split
  · exact hh _
  · exact .zero hB

theorem laneSum_nonneg (hd : ∀ s ∈ lane, 0 ≤ d s.dur) : 0 ≤ laneSum d lane :=
  sum_nonneg fun x hx => by
    obtain ⟨s, hs, rfl⟩ := mem_map.mp hx
    exact hd s hs

theorem within_eventsProfile_lane (hd : ∀ s ∈ lane, 0 ≤ d s.dur) (q : Path) :
    Within (laneSum d lane) (weight (eventsProfile d (lanePaths lane) q)) := by
  rw [← durationSum_lanePaths]
  exact within_eventsProfile _ (fun e he => hd e.2 (mem_lanePaths he)) q

theorem within_laneProfile (hd : ∀ s ∈ lane, 0 ≤ d s.dur) (q : Path) :
    Within (laneSum d lane) (weight (laneProfile d lane q)) :=
  within_plant (laneSum_nonneg hd) (within_eventsProfile_lane hd) _ q

/-- The sum over several lanes. -/
def lanesSum (d : Int64 → Int) (lanes : List (List Span)) : Int := (lanes.map (laneSum d)).sum

/-- What an arena denotes to which these lanes were added. -/
def lanesProfile (F : List Span → Profile) (lanes : List (List Span)) : Profile :=
  Pi.single [] bare + (lanes.map F).sum

theorem lanesProfile_concat (F : List Span → Profile) (lanes : List (List Span))
    (lane : List Span) : lanesProfile F (lanes ++ [lane]) = lanesProfile F lanes + F lane := by
  rw [lanesProfile, map_append, sum_append, ← add_assoc]
  congr 1
  exact sum_singleton

theorem lanesSum_concat (lanes : List (List Span)) (lane : List Span) :
    lanesSum d (lanes ++ [lane]) = lanesSum d lanes + laneSum d lane := by
  rw [lanesSum, map_append, sum_append]
  congr 1
  exact sum_singleton

theorem lanesSum_nonneg (hd : ∀ l ∈ lanes, ∀ s ∈ l, 0 ≤ d s.dur) :
    0 ≤ lanesSum d lanes :=
  sum_nonneg fun x hx => by
    obtain ⟨l, hl, rfl⟩ := mem_map.mp hx
    exact laneSum_nonneg (hd l hl)

theorem weight_single_bare (p q : Path) : weight ((Pi.single p bare : Profile) q) = 0 := by
  rw [Pi.single_apply]
  split
  · exact weight_bare
  · exact map_zero weight

theorem within_lanesProfile {F : List Span → Profile} (q : Path)
    (hF : ∀ l ∈ lanes, Within (laneSum d l) (weight (F l q))) :
    Within (lanesSum d lanes) (weight (lanesProfile F lanes q)) := by
  rw [lanesProfile, Pi.add_apply, map_add, weight_single_bare, zero_add]
  exact within_sum lanes F (laneSum d) q hF

/-- A sum is absent only where every part is. -/
theorem add_ne_zero_left (hw : w ≠ 0) : w + v ≠ 0 := by
  cases w using WithZero.recZeroCoe with
  | zero => exact absurd rfl hw
  | coe w =>
    cases v using WithZero.recZeroCoe with
    | zero =>
      exact WithZero.coe_ne_zero
    | coe v =>
      exact WithZero.coe_ne_zero

theorem add_ne_zero_right (hv : v ≠ 0) : w + v ≠ 0 := by
  rw [add_comm]
  exact add_ne_zero_left hv

/-- A shard's lanes all carry a group, or none does. -/
def Grouped (grouped : Bool) (lane : List Span) : Prop :=
  ∀ s ∈ lane, s.group.isSome = grouped

variable {intern : StringIntern} {timeScale : Float}

/-- The state after some lanes were merged. -/
structure Folded (d : Int64 → Int) (grouped : Bool) (done : List (List Span))
    (state : FlameArena × List (intern.Id × Nat)) : Prop where
  denotes : Denotes state.1 (lanesProfile (laneProfile d) done)
  indexed : Indexed state.1
  targets : ∀ gid t, state.2.lookup gid = some t →
    resolve state.1 [intern.resolve gid] = some t
  groups : grouped = true → ∀ n t, resolve state.1 [n] = some t →
    ∃ gid, intern.resolve gid = n ∧ state.2.lookup gid = some t

theorem StringIntern.resolve_inj {a b : intern.Id} (h : intern.resolve a = intern.resolve b) :
    a = b :=
  nodup_iff_injective_get.mp intern.distinct h

/-- The node a lane is merged into, found or made. -/
structure Targeted (d : Int64 → Int) (done : List (List Span)) (base : Path)
    (state : FlameArena × List (intern.Id × Nat)) (r : FlameArena × List (intern.Id × Nat) × Nat) :
    Prop where
  extends_ : Extends state.1 r.1 (lanesProfile (laneProfile d) done + Pi.single base bare)
  target : resolve r.1 base = some r.2.2
  targets : ∀ gid t, r.2.1.lookup gid = some t → resolve r.1 [intern.resolve gid] = some t
  groups : ∀ n t, resolve r.1 [n] = some t → (∃ gid, intern.resolve gid = n ∧
    r.2.1.lookup gid = some t) ∨ resolve state.1 [n] = some t
  keepsGroups : ∀ gid t, state.2.lookup gid = some t → r.2.1.lookup gid = some t

theorem add_single_bare {a : FlameArena} {f : Profile} (h : Denotes a f) {p : Path} {i : Nat}
    (hp : resolve a p = some i) : f + Pi.single p bare = f := by
  funext q
  rw [Pi.add_apply, Pi.single_apply]
  split
  · subst q
    exact add_bare (h.ne_zero hp)
  · rw [add_zero]

variable {done : List (List Span)} {state : FlameArena × List (intern.Id × Nat)} {grouped : Bool}

theorem groupTarget_none (h : Folded d grouped done state) :
    Targeted d done [] state (groupTarget state.1 state.2 none) := by
  refine ⟨⟨?_, h.indexed, fun q j hq => hq⟩, rfl, h.targets, fun n t ht => .inr ht,
    fun gid t ht => ht⟩
  rw [add_single_bare h.denotes (resolve_nil state.1)]
  exact h.denotes

theorem groupTarget_some (h : Folded d true done state) (gid : intern.Id) :
    Targeted d done [intern.resolve gid] state (groupTarget state.1 state.2 (some gid)) := by
  cases hl : state.2.lookup gid with
  | some t =>
    have ht := h.targets gid t hl
    have hfound : groupTarget state.1 state.2 (some gid) = (state.1, state.2, t) := by
      simp only [groupTarget, hl]
    rw [hfound]
    refine ⟨⟨?_, h.indexed, fun q j hq => hq⟩, ht, h.targets, fun n t ht => .inr ht,
      fun gid t ht => ht⟩
    rw [add_single_bare h.denotes ht]
    exact h.denotes
  | none =>
    have hchild : childNamed state.1 0 (intern.resolve gid) = none := by
      cases hc : childNamed state.1 0 (intern.resolve gid) with
      | none => rfl
      | some t =>
        have ht : resolve state.1 ([] ++ [intern.resolve gid]) = some t := by
          rw [resolve_concat, resolve_nil, Option.bind_some, hc]
        obtain ⟨gid', hname, hlookup⟩ := h.groups rfl _ t ht
        rw [StringIntern.resolve_inj hname, hl] at hlookup
        cases hlookup
    have hkids : (state.1.node 0).kids.lookup (intern.resolve gid) = none := by
      cases hc : (state.1.node 0).kids.lookup (intern.resolve gid) with
      | none => rfl
      | some t =>
        have ht := h.denotes.tree.childNamed_eq_some.mpr ((h.indexed _ _ _).mp hc)
        rw [hchild] at ht
        cases ht
    have hadded := findOrCreateChild_spec h.denotes h.indexed (resolve_nil state.1)
      (intern.resolve gid)
    have hmade : findOrCreateChild state.1 0 (intern.resolve gid)
        = (withChild state.1 0 (intern.resolve gid), state.1.length) := by
      unfold findOrCreateChild
      rw [hkids]
      rfl
    rw [hmade] at hadded
    have hresolve := resolve_withChild h.denotes.tree h.denotes.tree.nonempty hchild
      (resolve_nil state.1)
    have hnew : groupTarget state.1 state.2 (some gid)
        = (withChild state.1 0 (intern.resolve gid), state.2 ++ [(gid, state.1.length)],
          state.1.length) := by
      simp only [groupTarget, hl]
      rfl
    rw [hnew]
    have hlookup : ∀ gid' t, (state.2 ++ [(gid, state.1.length)]).lookup gid' = some t ↔
        state.2.lookup gid' = some t ∨ (gid' = gid ∧ t = state.1.length) := by
      intro gid' t
      rw [lookup_append]
      by_cases hg : gid' = gid
      · subst hg
        rw [hl]
        simp [eq_comm]
      · have hlast : [(gid, state.1.length)].lookup gid' = none := by
          simp [lookup_cons, beq_eq_false_iff_ne.mpr hg]
        rw [hlast]
        simp [hg]
    refine ⟨hadded.extends, hadded.resolve_child, ?_, ?_, ?_⟩
    · intro gid' t ht
      rcases (hlookup gid' t).mp ht with ht | ⟨rfl, rfl⟩
      · exact hadded.keeps _ _ (h.targets gid' t ht)
      · exact hadded.resolve_child
    · intro n t ht
      rw [hresolve] at ht
      split at ht
      · rename_i hn
        refine .inl ⟨gid, (singleton_inj.mp hn).symm, ?_⟩
        rw [← Option.some.inj ht]
        exact (hlookup _ _).mpr (.inr ⟨rfl, rfl⟩)
      · exact .inr ht
    · intro gid' t ht
      exact (hlookup gid' t).mpr (.inl ht)

theorem mergeLane_cons (state : FlameArena × List (intern.Id × Nat))
    (r : ContainmentRow intern) (rest : List (ContainmentRow intern)) :
    mergeLane timeScale state (r :: rest) =
      (mergeFlameArena (foldLane timeScale (r :: rest)).length
        (groupTarget state.1 state.2 r.groupId).1 (groupTarget state.1 state.2 r.groupId).2.2
        (foldLane timeScale (r :: rest)) 0, (groupTarget state.1 state.2 r.groupId).2.1) := rfl

/-- Merging one lane adds its profile. -/
theorem mergeLane_spec (h : Folded d grouped done state)
    (lane : List (ContainmentRow intern)) (hne : lane ≠ [])
    (hlane : ∀ r ∈ lane, WholeDurations timeScale d r.dur)
    (hgrouped : Grouped grouped (lane.map ContainmentRow.span))
    (hdone : ∀ l ∈ done, ∀ s ∈ l, 0 ≤ d s.dur)
    (hsmall : lanesSum d done + laneSum d (lane.map ContainmentRow.span) < 2 ^ 53) :
    Folded d grouped (done ++ [lane.map ContainmentRow.span]) (mergeLane timeScale state lane) := by
  have hspans : ∀ s ∈ lane.map ContainmentRow.span, 0 ≤ d s.dur := by
    intro s hs
    obtain ⟨r, hr, rfl⟩ := mem_map.mp hs
    exact (hlane r hr).nonneg
  have hdoneSum := lanesSum_nonneg hdone
  have hfold := foldLane_denotes lane hlane (by
    rw [durationSum_lanePaths]
    omega)
  cases lane with
  | nil => exact absurd rfl hne
  | cons r rest =>
    rw [mergeLane_cons]
    have htarget : Targeted d done (baseOf ((r :: rest).map ContainmentRow.span)) state
        (groupTarget state.1 state.2 r.groupId) := by
      have hr : (r.groupId.map intern.resolve).isSome = grouped :=
        hgrouped r.span (mem_map_of_mem mem_cons_self)
      cases hg : r.groupId with
      | none =>
        have hbase : baseOf ((r :: rest).map ContainmentRow.span) = [] := by
          simp [baseOf, ContainmentRow.span, hg]
        rw [hbase]
        exact groupTarget_none h
      | some gid =>
        have hbase : baseOf ((r :: rest).map ContainmentRow.span) = [intern.resolve gid] := by
          simp [baseOf, ContainmentRow.span, hg]
        rw [hg] at hr
        obtain rfl : true = grouped := hr
        rw [hbase]
        exact groupTarget_some h gid
    generalize hlaneSpans : (r :: rest).map ContainmentRow.span = spans at *
    generalize groupTarget state.1 state.2 r.groupId = t at htarget ⊢
    obtain ⟨merged, groupOf, target⟩ := t
    generalize foldLane timeScale (r :: rest) = a at hfold ⊢
    have hbound : ∀ q, Within (lanesSum d done) (weight ((lanesProfile (laneProfile d) done
        + Pi.single (baseOf spans) bare : Profile) q)) := by
      intro q
      rw [Pi.add_apply, map_add, weight_single_bare, add_zero]
      exact within_lanesProfile q fun l hl => within_laneProfile (hdone l hl) q
    have hmerge := mergeFlameArena_spec hfold a.length htarget.extends_.denotes
      htarget.extends_.indexed htarget.target (resolve_nil a) (Nat.le_refl _)
      (fun q => .of_within (hbound _) (within_eventsProfile_lane hspans _) hsmall)
    have hsum : lanesProfile (laneProfile d) done + Pi.single (baseOf spans) bare
          + plant (baseOf spans) (below (eventsProfile d (lanePaths spans)) [])
        = lanesProfile (laneProfile d) (done ++ [spans]) := by
      rw [lanesProfile_concat, add_assoc, below_nil]
      congr 1
      rw [laneProfile, eventsProfile, plant_add, plant_single, append_nil, ← add_assoc,
        ← Pi.single_add]
      rfl
    rw [hsum] at hmerge
    refine ⟨hmerge.denotes, hmerge.indexed, ?_, ?_⟩
    · intro gid t ht
      exact hmerge.keeps _ _ (htarget.targets gid t ht)
    · intro htrue n t ht
      have hback : ∃ t', resolve merged [n] = some t' := by
        by_contra hnone
        have hzero : (lanesProfile (laneProfile d) done + Pi.single (baseOf spans) bare : Profile) [n]
            = 0 := by
          by_contra hne'
          exact hnone (htarget.extends_.denotes.resolve_of_ne_zero hne')
        have hnotBase : [n] ≠ baseOf spans := by
          intro heq
          exact hnone ⟨target, heq ▸ htarget.target⟩
        have hgroup : baseOf spans ≠ [] := by
          have hhead := hgrouped
          cases spans with
          | nil => simp at hlaneSpans
          | cons s spans =>
            have hs := hhead s mem_cons_self
            rw [htrue] at hs
            obtain ⟨g, hg⟩ := Option.isSome_iff_exists.mp hs
            simp [baseOf, hg]
        have hplant : laneProfile d spans [n] = 0 := by
          apply plant_apply_of_not
          intro hpre
          rcases prefix_cons_iff.mp hpre with hnil | ⟨l, hl, hpre'⟩
          · exact hgroup hnil
          · rw [prefix_nil.mp hpre'] at hl
            exact hnotBase hl.symm
        have hdone0 : lanesProfile (laneProfile d) done [n] = 0 := by
          by_contra hne'
          exact add_ne_zero_left hne' hzero
        apply hmerge.denotes.ne_zero ht
        rw [lanesProfile_concat, Pi.add_apply, hdone0, hplant, add_zero]
      obtain ⟨t', ht'⟩ := hback
      have hsame := hmerge.keeps _ _ ht'
      rw [ht] at hsame
      obtain rfl := Option.some.inj hsame
      rcases htarget.groups n t ht' with hgid | hold
      · exact hgid
      · obtain ⟨gid, hname, hlookup⟩ := h.groups htrue n t hold
        exact ⟨gid, hname, htarget.keepsGroups gid t hlookup⟩

/-- What the lanes of a shard must be like. -/
structure ExactLanes (timeScale : Float) (d : Int64 → Int) (grouped : Bool)
    (lanes : List (List (ContainmentRow intern))) : Prop where
  nonempty : ∀ l ∈ lanes, l ≠ []
  whole : ∀ l ∈ lanes, ∀ r ∈ l, WholeDurations timeScale d r.dur
  grouped : ∀ l ∈ lanes, Grouped grouped (l.map ContainmentRow.span)
  sorted : ∀ l ∈ lanes, (l.map ContainmentRow.span).Pairwise fun s t => s.start ≤ t.start
  small : lanesSum d (lanes.map fun l => l.map ContainmentRow.span) < 2 ^ 53

theorem mergeLanes_spec (lanes : List (List (ContainmentRow intern)))
    (h : Folded d grouped done state) (hne : ∀ l ∈ lanes, l ≠ [])
    (hwhole : ∀ l ∈ lanes, ∀ r ∈ l, WholeDurations timeScale d r.dur)
    (hgrouped : ∀ l ∈ lanes, Grouped grouped (l.map ContainmentRow.span))
    (hdone : ∀ l ∈ done, ∀ s ∈ l, 0 ≤ d s.dur)
    (hsmall : lanesSum d done + lanesSum d (lanes.map fun l => l.map ContainmentRow.span) < 2 ^ 53) :
    Folded d grouped (done ++ lanes.map fun l => l.map ContainmentRow.span)
      (lanes.foldl (mergeLane timeScale) state) := by
  induction lanes generalizing done state with
  | nil =>
    rw [map_nil, append_nil]
    exact h
  | cons l lanes ih =>
    have hl := hwhole l mem_cons_self
    have hspans : ∀ s ∈ l.map ContainmentRow.span, 0 ≤ d s.dur := by
      intro s hs
      obtain ⟨r, hr, rfl⟩ := mem_map.mp hs
      exact (hl r hr).nonneg
    have hrest : 0 ≤ lanesSum d (lanes.map fun l => l.map ContainmentRow.span) := by
      apply lanesSum_nonneg
      intro k hk s hs
      obtain ⟨l', hl', rfl⟩ := mem_map.mp hk
      obtain ⟨r, hr, rfl⟩ := mem_map.mp hs
      exact (hwhole l' (mem_cons_of_mem _ hl') r hr).nonneg
    have hsplit : lanesSum d ((l :: lanes).map fun l => l.map ContainmentRow.span)
        = laneSum d (l.map ContainmentRow.span)
          + lanesSum d (lanes.map fun l => l.map ContainmentRow.span) := by
      rfl
    have hone := mergeLane_spec h l (hne l mem_cons_self) hl
      (hgrouped l mem_cons_self) hdone (by omega)
    have hall := ih hone (fun k hk => hne k (mem_cons_of_mem _ hk))
      (fun k hk => hwhole k (mem_cons_of_mem _ hk))
      (fun k hk => hgrouped k (mem_cons_of_mem _ hk))
      (by
        intro k hk
        rcases mem_append.mp hk with hk | hk
        · exact hdone k hk
        · rw [mem_singleton.mp hk]
          exact hspans)
      (by
        rw [lanesSum_concat]
        omega)
    rw [append_assoc] at hall
    exact hall

/-- Before the roll-up the arena denotes the sum of the lanes' profiles. -/
theorem mergeLanes_denotes {lanes : List (List (ContainmentRow intern))}
    (h : ExactLanes timeScale d grouped lanes) :
    Denotes (lanes.foldl (mergeLane timeScale) (rootArena, [])).1
        (lanesProfile (laneProfile d) (lanes.map fun l => l.map ContainmentRow.span)) ∧
      Indexed (lanes.foldl (mergeLane timeScale) (rootArena, [])).1 := by
  have hroot : Folded d grouped [] (rootArena, ([] : List (intern.Id × Nat))) := by
    refine ⟨?_, indexed_rootArena, ?_, ?_⟩
    · rw [lanesProfile, map_nil, sum_nil, add_zero]
      exact denotes_rootArena
    · intro gid t ht
      cases ht
    · intro _ n t ht
      cases ht
  have hfolded := mergeLanes_spec lanes hroot h.nonempty h.whole h.grouped
    (fun l hl => by cases hl) (by
      have := h.small
      change 0 + _ < _
      omega)
  exact ⟨hfolded.denotes, hfolded.indexed⟩

end Lanes

end DFTracer.Flame
