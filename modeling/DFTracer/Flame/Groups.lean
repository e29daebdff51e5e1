/-
# Rolling up the groups

After the lanes are merged every node below the root that has no total yet gets the
inclusive statistics of its children. Those are the group nodes. With no group key
the loop finds nothing to do: a node with children holds an event of positive
duration, so its total is not zero.
-/

import DFTracer.Flame.Lanes

namespace DFTracer.Flame

open Math.Float64 Math.PathProfile List

variable {d : Int64 → Int} {intern : StringIntern} {timeScale : Float} {ws : List (WithZero Weight)}
  {w : WithZero Weight} {p q : Path} {n : Bytes} {names : List Bytes} {lanes : List (List Span)}
  {b : FlameArena} {f : Profile} {grouped : Bool}

/-! ## What a lane adds to its group -/

/-- The inclusive statistics of a lane's outermost events. -/
def laneTop (d : Int64 → Int) (lane : List Span) : Weight :=
  ((lanePaths lane).map fun e => if e.1 = [] then (d e.2.dur, 0, 1) else 0).sum

/-- What a lane adds to a flamegraph. -/
def laneSpec (d : Int64 → Int) (lane : List Span) : Profile :=
  laneProfile d lane
    + if baseOf lane = [] then 0 else Pi.single (baseOf lane) ((laneTop d lane : Weight))

theorem sum_ne_zero (hw : w ∈ ws) (hne : w ≠ 0) : ws.sum ≠ 0 := by
  induction ws with
  | nil => cases hw
  | cons v ws ih =>
    rcases mem_cons.mp hw with rfl | hw
    · exact add_ne_zero_left hne
    · exact add_ne_zero_right (ih hw)

theorem exists_ne_zero (h : ws.sum ≠ 0) : ∃ w ∈ ws, w ≠ 0 := by
  by_contra hall
  apply h
  apply sum_eq_zero
  intro w hw
  by_contra hne
  exact hall ⟨w, hw, hne⟩

theorem sum_apply {ι : Type} (xs : List ι) (F : ι → Profile) (q : Path) :
    (xs.map F).sum q = (xs.map fun x => F x q).sum := by
  rw [Pi.list_sum_apply, map_map]
  rfl

theorem eventProfile_child_ne_zero (p : Path) (n : Bytes) (k : Int) :
    eventProfile p n k (p ++ [n]) ≠ 0 := by
  rw [eventProfile, Pi.add_apply, Pi.single_eq_same]
  exact add_ne_zero_left WithZero.coe_ne_zero

/-- Where an event leaves a trace. -/
theorem eventProfile_ne_zero {k : Int} (h : eventProfile p n k q ≠ 0) :
    q = p ++ [n] ∨ (q = p ∧ p ≠ []) := by
  by_contra hnot
  rw [not_or] at hnot
  apply h
  rw [eventProfile, Pi.add_apply, Pi.single_eq_of_ne hnot.1, zero_add]
  split
  · rfl
  · rename_i hp
    exact Pi.single_eq_of_ne (fun hq => hnot.2 ⟨hq, hp⟩) _

theorem eventsProfile_child_ne_zero {events : List (Path × Span)} {e : Path × Span}
    (he : e ∈ events) : eventsProfile d events (e.1 ++ [e.2.name]) ≠ 0 := by
  rw [eventsProfile, Pi.add_apply, sum_apply]
  apply add_ne_zero_right
  exact sum_ne_zero (mem_map_of_mem he) (eventProfile_child_ne_zero _ _ _)

theorem eventsProfile_nil_ne_zero (events : List (Path × Span)) : eventsProfile d events [] ≠ 0 := by
  exact add_ne_zero_left WithZero.coe_ne_zero

/-- At the root of a lane no time is spent. -/
theorem weight_eventsProfile_nil (events : List (Path × Span)) :
    weight (eventsProfile d events []) = 0 := by
  rw [eventsProfile, Pi.add_apply, map_add, weight_single_bare, zero_add, sum_apply, map_list_sum,
    map_map]
  apply sum_eq_zero
  intro w hw
  obtain ⟨e, -, rfl⟩ := mem_map.mp hw
  have hzero : eventProfile e.1 e.2.name (d e.2.dur) [] = 0 := by
    by_contra hne
    rcases eventProfile_ne_zero hne with h | ⟨h, hp⟩
    · simp at h
    · exact hp h.symm
  change weight (eventProfile e.1 e.2.name (d e.2.dur) []) = 0
  rw [hzero, map_zero]

/-- The children of a lane's root, rolled up. -/
theorem rolled_eventsProfile (lane : List Span) (distinct : names.Nodup)
    (covers : ∀ e ∈ lanePaths lane, e.1 = [] → e.2.name ∈ names) :
    rolled (eventsProfile d (lanePaths lane)) [] names = laneTop d lane := by
  rw [eventsProfile, rolled_add, rolled_single_bare, zero_add, rolled_sum, map_map]
  congr 1
  apply map_congr_left
  intro e he
  exact rolled_eventProfile _ _ _ _ distinct (covers e he)

theorem laneProfile_base_ne_zero (lane : List Span) : laneProfile d lane (baseOf lane) ≠ 0 := by
  have h := plant_append_apply (baseOf lane) [] (eventsProfile d (lanePaths lane))
  rw [append_nil] at h
  rw [laneProfile, h]
  exact eventsProfile_nil_ne_zero _

theorem weight_laneProfile_base (lane : List Span) : weight (laneProfile d lane (baseOf lane)) = 0 := by
  have h := plant_append_apply (baseOf lane) [] (eventsProfile d (lanePaths lane))
  rw [append_nil] at h
  rw [laneProfile, h]
  exact weight_eventsProfile_nil _

variable {lane : List Span}

theorem lanesProfile_ne_zero {F : List Span → Profile}
    (hl : lane ∈ lanes) (hq : F lane q ≠ 0) : lanesProfile F lanes q ≠ 0 := by
  rw [lanesProfile, Pi.add_apply, sum_apply]
  exact add_ne_zero_right (sum_ne_zero (mem_map_of_mem hl) hq)

theorem weight_lanesProfile (F : List Span → Profile) (lanes : List (List Span)) (q : Path) :
    weight (lanesProfile F lanes q) = (lanes.map fun l => weight (F l q)).sum := by
  rw [lanesProfile, Pi.add_apply, map_add, weight_single_bare, zero_add, sum_apply, map_list_sum,
    map_map]
  rfl

/-- A base is the root or one group. -/
theorem baseOf_cases (lane : List Span) : baseOf lane = [] ∨ ∃ g, baseOf lane = [g] := by
  unfold baseOf
  cases lane.head?.bind Span.group with
  | none => exact .inl rfl
  | some g => exact .inr ⟨g, rfl⟩

/-- The children of a group, rolled up: only the lanes of the group count. -/
theorem rolled_laneProfile (lane : List Span) (n : Bytes)
    (hbase : baseOf lane ≠ []) (distinct : names.Nodup)
    (covers : baseOf lane = [n] → ∀ e ∈ lanePaths lane, e.1 = [] → e.2.name ∈ names) :
    rolled (laneProfile d lane) [n] names = if baseOf lane = [n] then laneTop d lane else 0 := by
  by_cases hn : baseOf lane = [n]
  · rw [if_pos hn, ← rolled_eventsProfile lane distinct (covers hn)]
    apply rolled_congr
    intro m hm
    rw [laneProfile, hn, plant_append_apply]
    rfl
  · rw [if_neg hn]
    apply rolled_eq_zero
    intro m hm
    obtain ⟨g, hg⟩ := (baseOf_cases lane).resolve_left hbase
    rw [laneProfile, hg, plant_apply_of_not, map_zero, map_zero]
    intro hpre
    rw [hg] at hn
    have := prefix_cons_iff.mp hpre
    rcases this with h | ⟨l, hl, -⟩
    · cases h
    · injection hl with hgn
      exact hn (by rw [hgn])

theorem within_laneTop (hd : ∀ s ∈ lane, 0 ≤ d s.dur) :
    Within (laneSum d lane) (laneTop d lane) := by
  rw [← durationSum_lanePaths, laneTop, durationSum]
  have hnonneg : ∀ e ∈ lanePaths lane, 0 ≤ d e.2.dur := fun e he => hd e.2 (mem_lanePaths he)
  generalize lanePaths lane = events at hnonneg
  induction events with
  | nil => exact .zero (Int.le_refl 0)
  | cons e events ih =>
    rw [map_cons, map_cons]
    have he := hnonneg e mem_cons_self
    apply Within.add
    · split
      · exact ⟨he, Int.le_refl _, Int.neg_nonpos_of_nonneg he, he⟩
      · exact .zero he
    · exact ih fun e' he' => hnonneg e' (mem_cons_of_mem _ he')

/-- The outermost events of one group's lanes. -/
theorem within_tops (hd : ∀ l ∈ lanes, ∀ s ∈ l, 0 ≤ d s.dur) (n : Bytes) : Within (lanesSum d lanes)
      ((lanes.map fun l => if baseOf l = [n] then laneTop d l else 0).sum) := by
  unfold lanesSum
  induction lanes with
  | nil => exact .zero (Int.le_refl 0)
  | cons l lanes ih =>
    have hl := hd l mem_cons_self
    rw [map_cons, map_cons]
    apply Within.add
    · split
      · exact within_laneTop hl
      · exact .zero (laneSum_nonneg hl)
    · exact ih fun k hk => hd k (mem_cons_of_mem _ hk)

theorem within_laneSpec (hd : ∀ s ∈ lane, 0 ≤ d s.dur) (q : Path) :
    Within (laneSum d lane) (weight (laneSpec d lane q)) := by
  rw [laneSpec, Pi.add_apply]
  split
  · rw [Pi.zero_apply, add_zero]
    exact within_laneProfile hd q
  · by_cases hq : q = baseOf lane
    · subst hq
      rw [map_add, weight_laneProfile_base, zero_add, Pi.single_eq_same]
      exact within_laneTop hd
    · rw [Pi.single_eq_of_ne hq, add_zero]
      exact within_laneProfile hd q

/-! ## The loop over the nodes below the root -/

/-- One step of the loop. -/
def rollStep (merged : FlameArena) (g : Nat) : FlameArena :=
  if (merged.node g).total != 0 || (merged.node g).children.isEmpty then merged
  else rollUp merged g

theorem foldFlameArena_eq (lanes : List (List (ContainmentRow intern))) :
    foldFlameArena timeScale lanes =
      let merged := (lanes.foldl (mergeLane timeScale) (rootArena, [])).1
      (merged.node 0).children.foldl rollStep merged := rfl

theorem SameShape.refl (a : FlameArena) : SameShape a a := ⟨rfl, fun _ => rfl, fun _ => rfl⟩

variable {a : FlameArena}

theorem SameShape.trans {c : FlameArena} (hab : SameShape a b) (hbc : SameShape b c) :
    SameShape a c :=
  ⟨hbc.length.trans hab.length, fun i => (hbc.name i).trans (hab.name i),
    fun i => (hbc.children i).trans (hab.children i)⟩

theorem sameShape_rollUp (a : FlameArena) (g : Nat) (hg : g < a.length) :
    SameShape a (rollUp a g) := by
  unfold rollUp
  generalize (a.node g).children = cs
  induction cs generalizing a with
  | nil => exact .refl a
  | cons c cs ih =>
    have hone := sameShape_modify a g (a.node c).addInclusive hg fun n => ⟨rfl, rfl, rfl⟩
    exact hone.trans (ih _ (by rw [hone.length]; exact hg))

theorem sameShape_rollStep (a : FlameArena) (g : Nat) (hg : g < a.length) :
    SameShape a (rollStep a g) := by
  unfold rollStep
  split
  · exact .refl a
  · exact sameShape_rollUp a g hg

theorem SameShape.childNames (h : SameShape a b) (i : Nat) :
    childNames b i = Flame.childNames a i := by
  simp only [Flame.childNames, h.children, h.name]

/-- A node whose total is zero gets its children's statistics. -/
theorem rollStep_spec (h : Denotes a f) (hk : Indexed a) {g : Nat} (hp : resolve a p = some g) (hzero : (weight (f p)).1 = 0)
    (hroll : RollsUp f p (childNames a g)) :
    Extends a (rollStep a g) (f + Pi.single p ((rolled f p (childNames a g) : Weight))) := by
  obtain ⟨t, s, k, hw, ht, -, -⟩ := (h.node_holds hp).of_some
  have htotal : (a.node g).total = 0 := by
    rw [hw] at hzero
    obtain rfl : t = 0 := hzero
    exact ht
  have hsame : ((a.node g).total != 0) = false := by
    rw [htotal]
    decide +kernel
  unfold rollStep
  rw [hsame]
  cases hc : (a.node g).children with
  | nil =>
    refine ⟨?_, hk, fun q j hq => hq⟩
    have hnames : childNames a g = [] := by rw [childNames, hc, map_nil]
    have hf : f + Pi.single p ((rolled f p (childNames a g) : Weight)) = f := by
      rw [hnames]
      funext q
      rw [Pi.add_apply, Pi.single_apply]
      split
      · subst q
        exact add_bare (h.ne_zero hp)
      · rw [add_zero]
    rw [hf]
    exact h
  | cons c cs => exact rollUp_spec h hk hp hroll

/-- The loop over nodes below the root whose totals are zero. -/
theorem rollLoop_spec (gs : List Nat) (hnodup : gs.Nodup)
    (h : Denotes a f) (hk : Indexed a) (hgs : ∀ g ∈ gs, g ∈ (a.node 0).children)
    (hzero : ∀ g ∈ gs, (weight (f [(a.node g).name])).1 = 0)
    (hroll : ∀ g ∈ gs, RollsUp f [(a.node g).name] (childNames a g)) :
    Extends a (gs.foldl rollStep a) (f + (gs.map fun g => Pi.single [(a.node g).name]
      (((rolled f [(a.node g).name] (childNames a g) : Weight)) : WithZero Weight)).sum) := by
  induction gs generalizing a f with
  | nil =>
    rw [map_nil, sum_nil, add_zero]
    exact ⟨h, hk, fun q j hq => hq⟩
  | cons g gs ih =>
    have hg := hgs g mem_cons_self
    have hp : resolve a [(a.node g).name] = some g := by
      have hr := resolve_concat a [] (a.node g).name
      rw [nil_append] at hr
      rw [hr]
      exact h.tree.childNamed_eq_some.mpr ⟨hg, rfl⟩
    have hone := rollStep_spec h hk hp (hzero g mem_cons_self) (hroll g mem_cons_self)
    have hshape := sameShape_rollStep a g (h.tree.resolve_lt hp)
    have hother : ∀ g' ∈ gs, (a.node g').name ≠ (a.node g).name := by
      intro g' hg' hname
      have := h.tree.name_inj (hgs g' (mem_cons_of_mem _ hg')) hg hname
      rw [this] at hg'
      exact (nodup_cons.mp hnodup).1 hg'
    have hkeep : ∀ g' ∈ gs, ∀ r : Path, (f + Pi.single [(a.node g).name]
        (((rolled f [(a.node g).name] (childNames a g) : Weight)) : WithZero Weight) : Profile)
        ((a.node g').name :: r) = f ((a.node g').name :: r) := by
      intro g' hg' r
      rw [Pi.add_apply, Pi.single_eq_of_ne, add_zero]
      intro heq
      injection heq with hname
      exact hother g' hg' hname
    have hrolled : ∀ g' ∈ gs, rolled (f + Pi.single [(a.node g).name]
        (((rolled f [(a.node g).name] (childNames a g) : Weight)) : WithZero Weight) : Profile)
        [(a.node g').name] (childNames a g') = rolled f [(a.node g').name] (childNames a g') := by
      intro g' hg'
      apply rolled_congr
      intro m hm
      rw [singleton_append, hkeep g' hg']
    have hrest := ih (nodup_cons.mp hnodup).2 hone.denotes hone.indexed
      (fun g' hg' => by
        rw [hshape.children]
        exact hgs g' (mem_cons_of_mem _ hg'))
      (fun g' hg' => by
        rw [hshape.name, hkeep g' hg']
        exact hzero g' (mem_cons_of_mem _ hg'))
      (fun g' hg' => by
        rw [hshape.name, hshape.childNames]
        obtain ⟨h1, h2, h3, h4⟩ := hroll g' (mem_cons_of_mem _ hg')
        refine ⟨?_, ?_, ?_, ?_⟩
        · rw [hkeep g' hg']
          exact h1
        · intro m hm
          rw [singleton_append, hkeep g' hg']
          exact h2 m hm
        · rw [hkeep g' hg', hrolled g' hg']
          exact h3
        · rw [hkeep g' hg']
          exact h4)
    have hsum : (gs.map fun g' => Pi.single [((rollStep a g).node g').name]
        (((rolled (f + Pi.single [(a.node g).name]
          (((rolled f [(a.node g).name] (childNames a g) : Weight)) : WithZero Weight) : Profile)
          [((rollStep a g).node g').name] (childNames (rollStep a g) g') : Weight)) :
          WithZero Weight)).sum
        = (gs.map fun g' => (Pi.single [(a.node g').name]
          (((rolled f [(a.node g').name] (childNames a g') : Weight)) : WithZero Weight) :
          Profile)).sum := by
      congr 1
      apply map_congr_left
      intro g' hg'
      rw [hshape.name, hshape.childNames, hrolled g' hg']
    rw [hsum, add_assoc] at hrest
    exact hone.trans hrest

/-! ## The arena of a shard -/

/-- Values that are present together and weigh the same are equal. -/
theorem eq_of_weight {v : WithZero Weight} (hpresent : w = 0 ↔ v = 0)
    (hweight : weight w = weight v) : w = v := by
  cases w using WithZero.recZeroCoe with
  | zero => exact (hpresent.mp rfl).symm
  | coe w =>
    cases v using WithZero.recZeroCoe with
    | zero => exact hpresent.mpr rfl
    | coe v => exact congrArg _ hweight

theorem Grouped.baseOf_ne_nil (h : Grouped true lane) (hne : lane ≠ []) : baseOf lane ≠ [] := by
  cases lane with
  | nil => exact absurd rfl hne
  | cons s lane =>
    obtain ⟨g, hg⟩ := Option.isSome_iff_exists.mp (h s mem_cons_self)
    simp [baseOf, hg]

theorem Grouped.baseOf_eq_nil (h : Grouped false lane) : baseOf lane = [] := by
  cases lane with
  | nil => rfl
  | cons s lane =>
    have hs := h s mem_cons_self
    rw [Option.isSome_eq_false_iff, Option.isNone_iff_eq_none] at hs
    simp [baseOf, hs]

/-- Conditions on the spans of a shard's lanes. -/
structure ExactSpans (d : Int64 → Int) (grouped : Bool) (lanes : List (List Span)) : Prop where
  nonempty : ∀ l ∈ lanes, l ≠ []
  nonneg : ∀ l ∈ lanes, ∀ s ∈ l, 0 ≤ d s.dur
  nested : ∀ l ∈ lanes, Nested (lanePaths l)
  positive : ∀ l ∈ lanes, ∀ s ∈ l, 0 < s.dur → 0 < d s.dur
  grouped : ∀ l ∈ lanes, Grouped grouped l
  small : lanesSum d lanes < 2 ^ 53

theorem ExactLanes.spans {lanes : List (List (ContainmentRow intern))}
    (h : ExactLanes timeScale d grouped lanes) :
    ExactSpans d grouped (lanes.map fun l => l.map ContainmentRow.span) := by
  have hrow : ∀ l ∈ lanes.map (fun l => l.map ContainmentRow.span), ∀ s ∈ l,
      WholeDurations timeScale d s.dur := by
    intro l hl s hs
    obtain ⟨l', hl', rfl⟩ := mem_map.mp hl
    obtain ⟨r, hr, rfl⟩ := mem_map.mp hs
    exact h.whole l' hl' r hr
  refine ⟨?_, fun l hl s hs => (hrow l hl s hs).nonneg, ?_,
    fun l hl s hs => (hrow l hl s hs).positive, ?_, h.small⟩
  · intro l hl
    obtain ⟨l', hl', rfl⟩ := mem_map.mp hl
    rw [Ne, map_eq_nil_iff]
    exact h.nonempty l' hl'
  · intro l hl
    apply nested_lanePaths _ fun s hs => (hrow l hl s hs).dur_nonneg
    obtain ⟨l', hl', rfl⟩ := mem_map.mp hl
    exact h.sorted l' hl'
  · intro l hl
    obtain ⟨l', hl', rfl⟩ := mem_map.mp hl
    exact h.grouped l' hl'

/-- Without a group key a node with children has a positive total. -/
theorem total_pos (h : ExactSpans d false lanes) {m : Bytes}
    {r : Path} (hne : lanesProfile (laneProfile d) lanes (n :: m :: r) ≠ 0) :
    0 < (weight (lanesProfile (laneProfile d) lanes [n])).1 := by
  have hplain : ∀ l ∈ lanes, ∀ q, laneProfile d l q = eventsProfile d (lanePaths l) q := by
    intro l hl q
    rw [laneProfile, (h.grouped l hl).baseOf_eq_nil, plant_nil]
  -- some lane has an event nested in one called `n`
  rw [lanesProfile, Pi.add_apply, Pi.single_eq_of_ne (by simp), zero_add, sum_apply] at hne
  obtain ⟨w, hw, hwne⟩ := exists_ne_zero hne
  obtain ⟨l, hl, rfl⟩ := mem_map.mp hw
  rw [hplain l hl, eventsProfile, Pi.add_apply, Pi.single_eq_of_ne (by simp), zero_add,
    sum_apply] at hwne
  obtain ⟨v, hv, hvne⟩ := exists_ne_zero hwne
  obtain ⟨e, he, rfl⟩ := mem_map.mp hv
  have houter : ∀ k : Nat, ∀ p s, p.length = k → (p, s) ∈ lanePaths l →
      (∃ q, p = n :: q) → ∃ t, ([], t) ∈ lanePaths l ∧ t.name = n ∧ 0 < t.dur := by
    intro k
    induction k with
    | zero =>
      rintro p s hp - ⟨q, rfl⟩
      cases hp
    | succ k ih =>
      rintro p s hp hmem ⟨q, rfl⟩
      obtain ⟨p', t, ht, heq, hpos⟩ := h.nested l hl _ hmem (cons_ne_nil n q)
      cases p' with
      | nil =>
        injection heq with hname
        exact ⟨t, ht, hname.symm, hpos⟩
      | cons x p' =>
        have hlen := congrArg List.length heq
        simp only [length_append, length_cons, length_nil] at hlen hp
        injection heq with hx _
        subst hx
        exact ih (n :: p') t (by rw [length_cons]; omega) ht ⟨p', rfl⟩
  obtain ⟨t, ht, hname, hpos⟩ : ∃ t, ([], t) ∈ lanePaths l ∧ t.name = n ∧ 0 < t.dur := by
    rcases eventProfile_ne_zero hvne with hq | ⟨hq, -⟩
    · cases hp : e.1 with
      | nil =>
        rw [hp] at hq
        simp at hq
      | cons x p =>
        rw [hp] at hq
        injection hq with hx _
        exact houter _ e.1 e.2 rfl he ⟨p, by rw [hp, hx]⟩
    · exact houter _ e.1 e.2 rfl he ⟨m :: r, hq.symm⟩
  -- its duration is part of the total
  have hmono : ∀ (ws : List Weight) (w : Weight), w ∈ ws → (∀ v ∈ ws, 0 ≤ v.1) → w.1 ≤ ws.sum.1 := by
    intro ws w hw hall
    induction ws with
    | nil => cases hw
    | cons v ws ih =>
      have hv := hall v mem_cons_self
      have hsum : 0 ≤ ws.sum.1 := by
        have htail : ∀ v ∈ ws, 0 ≤ v.1 := fun v hv => hall v (mem_cons_of_mem _ hv)
        clear ih hall hw
        induction ws with
        | nil => exact Int.le_refl 0
        | cons u ws ihs =>
          have hu := htail u mem_cons_self
          have := ihs fun v hv => htail v (mem_cons_of_mem _ hv)
          exact Int.add_nonneg hu this
      change w.1 ≤ v.1 + ws.sum.1
      rcases mem_cons.mp hw with rfl | hw
      · omega
      · have := ih hw fun v hv => hall v (mem_cons_of_mem _ hv)
        omega
  have hevent : d t.dur ≤ (weight (eventsProfile d (lanePaths l) [n])).1 := by
    rw [eventsProfile, Pi.add_apply, map_add, weight_single_bare, zero_add, sum_apply, map_list_sum,
      map_map]
    have hw : (weight (eventProfile [] t.name (d t.dur) [n])).1 = d t.dur := by
      rw [eventProfile, if_pos rfl, add_zero, hname, nil_append, Pi.single_eq_same]
      rfl
    rw [← hw]
    apply hmono
    · exact mem_map.mpr ⟨([], t), ht, rfl⟩
    · intro v hv
      obtain ⟨e', he', rfl⟩ := mem_map.mp hv
      exact (within_eventProfile _ _ _ (h.nonneg l hl e'.2 (mem_lanePaths he'))).total_nonneg
  have hlane : (weight (eventsProfile d (lanePaths l) [n])).1
      ≤ (weight (lanesProfile (laneProfile d) lanes [n])).1 := by
    rw [weight_lanesProfile]
    apply hmono
    · exact mem_map.mpr ⟨l, hl, by rw [hplain l hl]⟩
    · intro v hv
      obtain ⟨l', hl', rfl⟩ := mem_map.mp hv
      exact (within_laneProfile (h.nonneg l' hl') _).total_nonneg
  have hd := h.positive l hl t (mem_lanePaths ht) hpos
  omega

/-- Without a group key the loop changes nothing. -/
theorem rollLoop_ungrouped
    (h : ExactSpans d false lanes) (ha : Denotes a (lanesProfile (laneProfile d) lanes))
    (gs : List Nat) (hgs : ∀ g ∈ gs, g ∈ (a.node 0).children) : gs.foldl rollStep a = a := by
  induction gs with
  | nil => rfl
  | cons g gs ih =>
    have hskip : rollStep a g = a := by
      unfold rollStep
      cases hc : (a.node g).children with
      | nil => simp
      | cons c cs =>
        have hg := ha.tree.childNamed_eq_some.mpr ⟨hgs g mem_cons_self, rfl⟩
        have hp : resolve a [(a.node g).name] = some g := by
          have hr := resolve_concat a [] (a.node g).name
          rw [nil_append, resolve_nil, Option.bind_some] at hr
          rw [hr, hg]
        have hchild : childNamed a g (a.node c).name = some c :=
          ha.tree.childNamed_eq_some.mpr ⟨by rw [hc]; exact mem_cons_self, rfl⟩
        have hpc : resolve a ([(a.node g).name] ++ [(a.node c).name]) = some c := by
          rw [resolve_concat, hp, Option.bind_some, hchild]
        have hpos := total_pos h (ha.ne_zero hpc)
        have hbound := (within_lanesProfile [(a.node g).name] fun l hl =>
          within_laneProfile (h.nonneg l hl) _).total_le
        obtain ⟨t, s, k, hw, ht, -, -⟩ := (ha.node_holds hp).of_some
        rw [hw] at hpos hbound
        have hsmall := h.small
        have hbne : ((a.node g).total != 0) = true := by
          rw [bne, Bool.not_eq_true', ht]
          rw [← Bool.not_eq_true]
          intro heq
          have hzero := (whole_beq_iff (a := t) (b := 0) (by
            change t ≤ _ at hbound
            change 0 < t at hpos
            omega) (by decide) (.inr (by decide))).mp heq
          change 0 < t at hpos
          omega
        rw [hbne]
        rfl
    rw [foldl_cons, hskip]
    exact ih fun g' hg' => hgs g' (mem_cons_of_mem _ hg')

/-- The loop below the root of a grouped arena, as a sum over the lanes. -/
theorem groups_eq
    (h : ExactSpans d true lanes) (ha : Denotes a (lanesProfile (laneProfile d) lanes)) :
    lanesProfile (laneProfile d) lanes + ((a.node 0).children.map fun g =>
        Pi.single [(a.node g).name] (((rolled (lanesProfile (laneProfile d) lanes)
          [(a.node g).name] (childNames a g) : Weight)) : WithZero Weight)).sum
      = lanesProfile (laneSpec d) lanes ∧
      ∀ g ∈ (a.node 0).children, rolled (lanesProfile (laneProfile d) lanes) [(a.node g).name]
        (childNames a g)
        = (lanes.map fun l => if baseOf l = [(a.node g).name] then laneTop d l else 0).sum := by
  have hbases : ∀ l ∈ lanes, baseOf l ≠ [] := fun l hl =>
    (h.grouped l hl).baseOf_ne_nil (h.nonempty l hl)
  have hresolve : ∀ g ∈ (a.node 0).children, resolve a [(a.node g).name] = some g := by
    intro g hg
    have hr := resolve_concat a [] (a.node g).name
    rw [nil_append] at hr
    rw [hr]
    exact ha.tree.childNamed_eq_some.mpr ⟨hg, rfl⟩
  have hrolled : ∀ g ∈ (a.node 0).children, rolled (lanesProfile (laneProfile d) lanes)
      [(a.node g).name] (childNames a g)
      = (lanes.map fun l => if baseOf l = [(a.node g).name] then laneTop d l else 0).sum := by
    intro g hg
    rw [lanesProfile, rolled_add, rolled_single_bare, zero_add, rolled_sum, map_map]
    congr 1
    apply map_congr_left
    intro l hl
    apply rolled_laneProfile l _ (hbases l hl) (childNames_nodup ha.tree g)
    intro hbase e he hnil
    apply ha.mem_childNames (hresolve g hg) (r := [])
    apply lanesProfile_ne_zero hl
    rw [laneProfile, hbase, plant_append_apply]
    have hne := eventsProfile_child_ne_zero (d := d) he
    rw [hnil] at hne
    exact hne
  refine ⟨?_, hrolled⟩
  have hspec : lanesProfile (laneSpec d) lanes = lanesProfile (laneProfile d) lanes
      + (lanes.map fun l => (Pi.single (baseOf l) (((laneTop d l : Weight)) : WithZero Weight) :
        Profile)).sum := by
    rw [lanesProfile, lanesProfile, add_assoc, ← sum_map_add]
    congr 2
    apply map_congr_left
    intro l hl
    rw [laneSpec, if_neg (hbases l hl)]
  rw [hspec]
  funext q
  rw [Pi.add_apply, Pi.add_apply, sum_apply, sum_apply]
  by_cases hq : ∃ g ∈ (a.node 0).children, q = [(a.node g).name]
  · obtain ⟨g, hg, rfl⟩ := hq
    have hne := ha.ne_zero (hresolve g hg)
    apply eq_of_weight
    · exact ⟨fun h => absurd h (add_ne_zero_left hne), fun h => absurd h (add_ne_zero_left hne)⟩
    · rw [map_add, map_add, map_list_sum, map_list_sum, map_map, map_map]
      congr 1
      have hother : ∀ g', g' ∈ (a.node 0).children → g' ≠ g →
          (Pi.single [(a.node g').name] (((rolled (lanesProfile (laneProfile d) lanes)
            [(a.node g').name] (childNames a g') : Weight)) : WithZero Weight) : Profile)
            [(a.node g).name] = 0 := by
        intro g' hg' hne'
        apply Pi.single_eq_of_ne
        intro heq
        injection heq with hname
        exact hne' (ha.tree.name_inj hg' hg hname.symm)
      have hleft := sum_map_eq_nsmul_single (l := (a.node 0).children) g
        (fun g' => weight ((Pi.single [(a.node g').name]
          (((rolled (lanesProfile (laneProfile d) lanes) [(a.node g').name]
            (childNames a g') : Weight)) : WithZero Weight) : Profile) [(a.node g).name]))
        (fun g' hne' hg' => by rw [hother g' hg' hne', map_zero])
      rw [count_eq_one_of_mem (ha.tree.nodup 0) hg, one_nsmul, Pi.single_eq_same, weight_coe,
        hrolled g hg] at hleft
      refine hleft.trans ?_
      congr 1
      apply map_congr_left
      intro l hl
      change _ = weight ((Pi.single (baseOf l) (((laneTop d l : Weight)) : WithZero Weight) :
        Profile) [(a.node g).name])
      rw [Pi.single_apply]
      by_cases hb : baseOf l = [(a.node g).name]
      · rw [if_pos hb, if_pos hb.symm, weight_coe]
      · rw [if_neg hb, if_neg (Ne.symm hb), map_zero]
  · have hleft : ((a.node 0).children.map fun g => (Pi.single [(a.node g).name]
        (((rolled (lanesProfile (laneProfile d) lanes) [(a.node g).name] (childNames a g) :
          Weight)) : WithZero Weight) : Profile) q).sum = 0 := by
      apply sum_eq_zero
      intro w hw
      obtain ⟨g, hg, rfl⟩ := mem_map.mp hw
      exact Pi.single_eq_of_ne (fun heq => hq ⟨g, hg, heq⟩) _
    have hright : (lanes.map fun l => (Pi.single (baseOf l)
        (((laneTop d l : Weight)) : WithZero Weight) : Profile) q).sum = 0 := by
      apply sum_eq_zero
      intro w hw
      obtain ⟨l, hl, rfl⟩ := mem_map.mp hw
      apply Pi.single_eq_of_ne
      rintro rfl
      have hne := lanesProfile_ne_zero hl (laneProfile_base_ne_zero (d := d) l)
      obtain ⟨n, hn⟩ := (baseOf_cases l).resolve_left (hbases l hl)
      rw [hn] at hne hq
      obtain ⟨g, hg⟩ := ha.resolve_of_ne_zero hne
      have hr := resolve_concat a [] n
      rw [nil_append, hg] at hr
      have hin := ha.tree.childNamed_eq_some.mp hr.symm
      exact hq ⟨g, hin.1, by rw [hin.2]⟩
    rw [hleft, hright]

/-- The arena of a shard denotes the sum of its lanes. -/
theorem foldFlameArena_denotes {lanes : List (List (ContainmentRow intern))}
    (h : ExactLanes timeScale d grouped lanes) :
    Denotes (foldFlameArena timeScale lanes)
        (lanesProfile (laneSpec d) (lanes.map fun l => l.map ContainmentRow.span)) ∧
      Indexed (foldFlameArena timeScale lanes) := by
  obtain ⟨ha, hk⟩ := mergeLanes_denotes h
  have hspans := h.spans
  rw [foldFlameArena_eq]
  generalize lanes.map (fun l => l.map ContainmentRow.span) = spans at *
  generalize (lanes.foldl (mergeLane timeScale) (rootArena, [])).1 = a at ha hk ⊢
  cases grouped with
  | false =>
    rw [rollLoop_ungrouped hspans ha _ fun g hg => hg]
    have hsame : lanesProfile (laneSpec d) spans = lanesProfile (laneProfile d) spans := by
      rw [lanesProfile]
      congr 2
      apply map_congr_left
      intro l hl
      rw [laneSpec, if_pos (hspans.grouped l hl).baseOf_eq_nil, add_zero]
    rw [hsame]
    exact ⟨ha, hk⟩
  | true =>
    obtain ⟨hsum, hrolled⟩ := groups_eq hspans ha
    have hbases : ∀ l ∈ spans, baseOf l ≠ [] := fun l hl =>
      (hspans.grouped l hl).baseOf_ne_nil (hspans.nonempty l hl)
    -- before the roll-up a group's own statistics are zero
    have hzero : ∀ n, weight (lanesProfile (laneProfile d) spans [n]) = 0 := by
      intro n
      rw [weight_lanesProfile]
      apply sum_eq_zero
      intro w hw
      obtain ⟨l, hl, rfl⟩ := mem_map.mp hw
      obtain ⟨g, hg⟩ := (baseOf_cases l).resolve_left (hbases l hl)
      by_cases hn : n = g
      · rw [hn, ← hg]
        exact weight_laneProfile_base l
      · rw [laneProfile, hg, plant_apply_of_not, map_zero]
        intro hpre
        rcases prefix_cons_iff.mp hpre with h | ⟨r, hr, -⟩
        · cases h
        · injection hr with hgn
          exact hn hgn.symm
    have hwithin : ∀ q, Within (lanesSum d spans)
        (weight (lanesProfile (laneProfile d) spans q)) := fun q =>
      within_lanesProfile q fun l hl => within_laneProfile (hspans.nonneg l hl) q
    have hloop := rollLoop_spec (a.node 0).children (ha.tree.nodup 0) ha hk (fun g hg => hg)
      (fun g hg => by rw [hzero]; rfl)
      (fun g hg => by
        refine ⟨?_, ?_, ?_, ?_⟩
        · rw [hzero]
          exact Int.le_refl 0
        · intro m hm
          exact (hwithin _).total_nonneg
        · rw [hzero, hrolled g hg]
          have hle := (within_tops hspans.nonneg (a.node g).name).total_le
          have hsmall := hspans.small
          change 0 + _ < _
          omega
        · rw [hzero]
          decide)
    rw [hsum] at hloop
    exact ⟨hloop.denotes, hloop.indexed⟩

end DFTracer.Flame
