/-
# The node frame of an arena

The parent column names the node whose children list holds a row's node, so a path
of names leads through the frame as it leads through the arena. The root's row has
the inclusive statistics of the nodes below it; every other row has its node's own,
with a negative self time shown as zero.
-/

import DFTracer.Flame.Transport

namespace DFTracer.Flame

open Math.Float64 Math.PathProfile List

/-- The row a path of names leads to from the first row, by the parent column. -/
def findRow (rows : List FlameRow) (p : Path) : Option FlameRow :=
  rows.head?.bind fun root =>
    p.foldlM (fun r n => rows.find? fun q => q.parent = r.nodeId ∧ q.name = n) root

/-- Entering one node at its children. -/
theorem set_children (cs : List Nat) (par level : List Int64) (i : Nat) (x : Int64) :
    let r := cs.foldl (fun (pl : List Int64 × List Int64) c =>
      (pl.1.set c x, pl.2.set c (pl.2.getD i 0 + 1))) (par, level)
    r.1.length = par.length ∧ ∀ c, c < par.length →
      r.1.getD c 0 = if c ∈ cs then x else par.getD c 0 := by
  induction cs generalizing par level with
  | nil =>
    refine ⟨rfl, fun c hc => ?_⟩
    rfl
  | cons k cs ih =>
    have h := ih (par.set k x) (level.set k (level.getD i 0 + 1))
    rw [foldl_cons]
    refine ⟨h.1.trans length_set, fun c hc => ?_⟩
    rw [h.2 c (by rw [length_set]; exact hc)]
    by_cases hmem : c ∈ cs
    · rw [if_pos hmem, if_pos (mem_cons_of_mem _ hmem)]
    · rw [if_neg hmem, getD_eq_getElem?_getD, getElem?_set]
      by_cases hck : k = c
      · subst hck
        rw [if_pos rfl, if_pos hc, if_pos mem_cons_self]
        rfl
      · rw [if_neg hck, if_neg, getD_eq_getElem?_getD]
        intro hin
        rcases mem_cons.mp hin with heq | hin
        · exact hck heq.symm
        · exact hmem hin

variable {a : FlameArena} {i : Nat} {q : Path} {lanes : List (List Span)}

/-- The parent column holds a child's parent, and -1 at the root. -/
theorem parentLevels_spec (h : IsTree a) {c : Nat} (hc : c < a.length) :
    (∀ i, c ∈ (a.node i).children → (parentLevels a).1.getD c 0 = .ofNat i) ∧
      ((∀ i, c ∉ (a.node i).children) → (parentLevels a).1.getD c 0 = -1) := by
  have hloop : ∀ k, k ≤ a.length →
      let r := (List.range k).foldl (fun (pl : List Int64 × List Int64) i =>
        (a.node i).children.foldl (fun (pl : List Int64 × List Int64) c =>
          (pl.1.set c (.ofNat i), pl.2.set c (pl.2.getD i 0 + 1))) pl)
        (List.replicate a.length (-1), List.replicate a.length 0)
      r.1.length = a.length ∧
        (∀ i < k, c ∈ (a.node i).children → r.1.getD c 0 = .ofNat i) ∧
        ((∀ i < k, c ∉ (a.node i).children) → r.1.getD c 0 = -1) := by
    intro k hk
    induction k with
    | zero =>
      refine ⟨length_replicate, fun i hi => by omega, fun _ => ?_⟩
      rw [range_zero, foldl_nil, getD_eq_getElem?_getD, getElem?_replicate,
        if_pos hc]
      rfl
    | succ k ih =>
      obtain ⟨hlen, hin, hout⟩ := ih (by omega)
      rw [range_succ, foldl_append, foldl_cons, foldl_nil]
      generalize (List.range k).foldl (fun (pl : List Int64 × List Int64) i =>
        (a.node i).children.foldl (fun (pl : List Int64 × List Int64) c =>
          (pl.1.set c (.ofNat i), pl.2.set c (pl.2.getD i 0 + 1))) pl)
        (List.replicate a.length (-1), List.replicate a.length 0) = r at hlen hin hout ⊢
      obtain ⟨par, level⟩ := r
      have hset := set_children (a.node k).children par level k (.ofNat k)
      have hcpar : c < par.length := hlen ▸ hc
      refine ⟨hset.1.trans hlen, fun i hi hci => ?_, fun hnone => ?_⟩
      · rw [hset.2 c hcpar]
        by_cases hck : c ∈ (a.node k).children
        · rw [if_pos hck, h.parent_unique hci hck]
        · rw [if_neg hck]
          have hik : i ≠ k := by
            rintro rfl
            exact hck hci
          exact hin i (by omega) hci
      · rw [hset.2 c hcpar, if_neg (hnone k (by omega))]
        exact hout fun i hi => hnone i (by omega)
  obtain ⟨-, hin, hout⟩ := hloop a.length (Nat.le_refl _)
  refine ⟨fun i hi => hin i (Nat.lt_trans (h.child_gt hi).1 hc) hi, fun hnone => ?_⟩
  exact hout fun i _ => hnone i

/-- The row of a node. -/
def rowOf (a : FlameArena) (i : Nat) : FlameRow :=
  let nd := a.node i
  { nodeId := .ofNat i, parent := (parentLevels a).1.getD i 0, name := nd.name,
    level := (parentLevels a).2.getD i 0, total := nd.total,
    self := if nd.self < 0 then 0 else nd.self, count := nd.count.toInt64 }

theorem flameArenaToFrame_eq (h : a ≠ []) :
    flameArenaToFrame a = (List.range (rollUp a 0).length).map (rowOf (rollUp a 0)) := by
  have hempty : a.isEmpty = false := by
    cases a with
    | nil => exact absurd rfl h
    | cons n a => rfl
  unfold flameArenaToFrame
  rw [hempty]
  rfl

theorem ofNat_inj {j : Nat} (hi : i < 2 ^ 63) (hj : j < 2 ^ 63)
    (h : Int64.ofNat i = Int64.ofNat j) : i = j := by
  have h' := congrArg Int64.toInt h
  rw [Int64.toInt_ofNat_of_lt hi, Int64.toInt_ofNat_of_lt hj] at h'
  exact Int.ofNat.inj h'

theorem ofNat_ne_neg_one (hi : i < 2 ^ 63) : Int64.ofNat i ≠ -1 := by
  intro h
  have h' := congrArg Int64.toInt h
  rw [Int64.toInt_ofNat_of_lt hi] at h'
  have hneg : (-1 : Int64).toInt = -1 := by decide
  omega

section

variable {a : FlameArena} (h : IsTree a) (small : a.length < 2 ^ 63)

include h small

/-- A row's parent is the row of a node exactly when the node lists it. -/
theorem rowOf_parent {i j : Nat} (hi : i < a.length) (hj : j < a.length) :
    (rowOf a j).parent = (rowOf a i).nodeId ↔ j ∈ (a.node i).children := by
  have hspec := parentLevels_spec h hj
  change (parentLevels a).1.getD j 0 = Int64.ofNat i ↔ _
  constructor
  · intro heq
    by_cases hparent : ∃ k, j ∈ (a.node k).children
    · obtain ⟨k, hk⟩ := hparent
      rw [hspec.1 k hk] at heq
      have hlt := (h.child_gt hk).1
      rw [← ofNat_inj (by omega) (by omega) heq]
      exact hk
    · have hnone : ∀ k, j ∉ (a.node k).children := fun k hk => hparent ⟨k, hk⟩
      rw [hspec.2 hnone] at heq
      exact absurd heq.symm (ofNat_ne_neg_one (by omega))
  · intro hmem
    exact hspec.1 i hmem

theorem find_row {i : Nat} (hi : i < a.length) (n : Bytes) :
    ((List.range a.length).map (rowOf a)).find? (fun q => q.parent = (rowOf a i).nodeId ∧ q.name = n)
      = (childNamed a i n).map (rowOf a) := by
  rw [find?_map]
  congr 1
  apply Option.ext
  intro c
  rw [h.childNamed_eq_some]
  constructor
  · intro hfind
    have hmem := mem_range.mp (mem_of_find?_eq_some hfind)
    have hc := find?_some hfind
    simp only [Function.comp_apply, decide_eq_true_eq] at hc
    exact ⟨(rowOf_parent h small hi hmem).mp hc.1, hc.2⟩
  · rintro ⟨hmem, hname⟩
    have hc := (h.child_gt hmem).2
    cases hfind : (List.range a.length).find? ((fun q : FlameRow =>
        decide (q.parent = (rowOf a i).nodeId ∧ q.name = n)) ∘ rowOf a) with
    | none =>
      have hnot := find?_eq_none.mp hfind c (mem_range.mpr hc)
      simp only [Function.comp_apply, decide_eq_true_eq] at hnot
      exact absurd ⟨(rowOf_parent h small hi hc).mpr hmem, hname⟩ hnot
    | some k =>
      have hk := mem_range.mp (mem_of_find?_eq_some hfind)
      have hfound := find?_some hfind
      simp only [Function.comp_apply, decide_eq_true_eq] at hfound
      have hkmem := (rowOf_parent h small hi hk).mp hfound.1
      have hkname : (a.node k).name = n := hfound.2
      rw [h.name_inj hkmem hmem (by rw [hkname, hname])]

/-- A path leads through the frame as through the arena. -/
theorem findRow_eq (p : Path) :
    findRow ((List.range a.length).map (rowOf a)) p = (resolve a p).map (rowOf a) := by
  have hhead : ((List.range a.length).map (rowOf a)).head? = some (rowOf a 0) := by
    rw [head?_map, head?_range, if_neg (Nat.ne_of_gt h.nonempty)]
    rfl
  rw [findRow, hhead, Option.bind_some]
  induction p using List.reverseRecOn with
  | nil => rfl
  | append_singleton p n ih =>
    rw [foldlM_append, ih, resolve_concat]
    cases hr : resolve a p with
    | none => rfl
    | some i =>
      have hi := h.resolve_lt hr
      have hfind := find_row h small hi n
      simp only [Option.map_some, Option.bind_eq_bind, Option.bind_some, foldlM_cons, hfind]
      cases childNamed a i n <;> rfl

end

/-! ## Totals and self times -/

variable {d : Int64 → Int} {grouped : Bool}

/-- At the root a lane spends nothing. -/
theorem weight_laneSpec_nil (lane : List Span) : weight (laneSpec d lane []) = 0 := by
  rw [laneSpec, Pi.add_apply]
  by_cases hb : baseOf lane = []
  · rw [if_pos hb, Pi.zero_apply, add_zero]
    have h := weight_laneProfile_base (d := d) lane
    rwa [hb] at h
  · rw [if_neg hb, Pi.single_eq_of_ne (Ne.symm hb), add_zero, laneProfile, plant_apply_of_not,
      map_zero]
    intro hpre
    exact hb (prefix_nil.mp hpre)

theorem weight_lanesProfile_nil (lanes : List (List Span)) :
    weight (lanesProfile (laneSpec d) lanes []) = 0 := by
  rw [weight_lanesProfile]
  apply sum_eq_zero
  intro w hw
  obtain ⟨l, -, rfl⟩ := mem_map.mp hw
  exact weight_laneSpec_nil l

/-- What lies below a lane's base, apart from the statistics of a group. -/
theorem laneSpec_below (lane : List Span) {r : Path} (hr : r ≠ []) :
    laneSpec d lane (baseOf lane ++ r) = eventsProfile d (lanePaths lane) r := by
  rw [laneSpec, Pi.add_apply, laneProfile, plant_append_apply]
  have hzero : (if baseOf lane = [] then 0 else
      Pi.single (baseOf lane) (((laneTop d lane : Weight)) : WithZero Weight) : Profile)
      (baseOf lane ++ r) = 0 := by
    split
    · rfl
    · apply Pi.single_eq_of_ne
      intro heq
      exact hr (append_right_eq_self.mp heq)
  rw [hzero, add_zero]

/-- An event takes from its parent what it is seen to take. -/
theorem eventProfile_self (p q : Path) (n : Bytes) (k : Int) (hq : q ≠ []) :
    (weight (eventProfile p n k q)).1 - (weight (eventProfile p n k q)).2.1
      = if p = q then k else 0 := by
  have hne : p ++ [n] ≠ p := fun heq => by simpa using congrArg List.length heq
  rw [eventProfile, Pi.add_apply]
  by_cases hchild : q = p ++ [n]
  · subst hchild
    have hzero : (if p = [] then 0 else Pi.single p (((0, -k, 0) : Weight) : WithZero Weight)
        : Profile) (p ++ [n]) = 0 := by
      split
      · rfl
      · exact Pi.single_eq_of_ne hne _
    rw [hzero, Pi.single_eq_same, if_neg (Ne.symm hne)]
    change k - k = 0
    omega
  · rw [Pi.single_eq_of_ne hchild]
    by_cases hpq : p = q
    · subst hpq
      rw [if_neg hq, if_pos rfl, Pi.single_eq_same]
      change 0 - -k = k
      omega
    · split
      · rfl
      · rw [Pi.single_eq_of_ne (Ne.symm hpq)]
        rfl

theorem sub_sum (ws : List Weight) :
    ws.sum.1 - ws.sum.2.1 = (ws.map fun w => w.1 - w.2.1).sum := by
  induction ws with
  | nil => rfl
  | cons w ws ih =>
    rw [sum_cons, map_cons, sum_cons]
    change w.1 + ws.sum.1 - (w.2.1 + ws.sum.2.1) = _
    omega

theorem sum_fst (ws : List Weight) : ws.sum.1 = (ws.map fun w => w.1).sum := by
  induction ws with
  | nil => rfl
  | cons w ws ih =>
    rw [sum_cons, map_cons, sum_cons, ← ih]
    rfl

theorem sum_snd (ws : List Weight) : ws.sum.2.1 = (ws.map fun w => w.2.1).sum := by
  induction ws with
  | nil => rfl
  | cons w ws ih =>
    rw [sum_cons, map_cons, sum_cons, ← ih]
    rfl

variable {names : List Bytes}

/-- Below its root a lane's totals are self times and children's totals. -/
theorem eventsProfile_self (lane : List Span) (hq : q ≠ [])
    (distinct : names.Nodup) (covers : ∀ e ∈ lanePaths lane, e.1 = q → e.2.name ∈ names) :
    (weight (eventsProfile d (lanePaths lane) q)).1
        - (weight (eventsProfile d (lanePaths lane) q)).2.1
      = (rolled (eventsProfile d (lanePaths lane)) q names).1 := by
  have hroll : rolled (eventsProfile d (lanePaths lane)) q names
      = ((lanePaths lane).map fun e => if e.1 = q then (d e.2.dur, 0, 1) else 0).sum := by
    rw [eventsProfile, rolled_add, rolled_single_bare, zero_add, rolled_sum, map_map]
    congr 1
    apply map_congr_left
    intro e he
    exact rolled_eventProfile _ _ _ _ distinct (covers e he)
  have hweight : weight (eventsProfile d (lanePaths lane) q)
      = ((lanePaths lane).map fun e => weight (eventProfile e.1 e.2.name (d e.2.dur) q)).sum := by
    rw [eventsProfile, Pi.add_apply, map_add, weight_single_bare, zero_add, sum_apply,
      map_list_sum, map_map]
    rfl
  rw [hroll, hweight, sub_sum, sum_fst, map_map, map_map]
  congr 1
  apply map_congr_left
  intro e he
  change _ - _ = (if e.1 = q then ((d e.2.dur, 0, 1) : Weight) else 0).1
  rw [eventProfile_self _ _ _ _ hq]
  split <;> rfl

/-- A lane's outermost events bring no self time to the node above them. -/
theorem laneTop_self (lane : List Span) : (laneTop d lane).2.1 = 0 := by
  unfold laneTop
  induction lanePaths lane with
  | nil => rfl
  | cons e events ih =>
    rw [map_cons, sum_cons]
    change (if e.1 = [] then ((d e.2.dur, 0, 1) : Weight) else 0).2.1 + _ = 0
    rw [ih]
    split <;> rfl

/-- The same for a lane below its group's node, and for that node. -/
theorem laneSpec_self (lane : List Span) (hq : q ≠ []) (distinct : names.Nodup)
    (covers : ∀ e ∈ lanePaths lane, baseOf lane ++ e.1 = q → e.2.name ∈ names) :
    (weight (laneSpec d lane q)).1 - (weight (laneSpec d lane q)).2.1
      = (rolled (laneSpec d lane) q names).1 := by
  by_cases hpre : baseOf lane <+: q
  · obtain ⟨r, rfl⟩ := hpre
    have hbelow : rolled (laneSpec d lane) (baseOf lane ++ r) names
        = rolled (eventsProfile d (lanePaths lane)) r names := by
      apply rolled_congr
      intro n _
      rw [append_assoc, laneSpec_below lane (by simp)]
    rw [hbelow]
    by_cases hr : r = []
    · subst hr
      rw [append_nil] at hq covers ⊢
      rw [rolled_eventsProfile lane distinct fun e he hnil => covers e he (by
        rw [hnil, append_nil]), laneSpec, Pi.add_apply, map_add, weight_laneProfile_base,
        zero_add, if_neg hq, Pi.single_eq_same, weight_coe]
      rw [laneTop_self, Int.sub_zero]
    · rw [laneSpec_below lane hr]
      exact eventsProfile_self lane hr distinct fun e he heq => covers e he (by rw [heq])
  · obtain ⟨g, hg⟩ := (baseOf_cases lane).resolve_left (by
      intro hnil
      exact hpre (hnil ▸ nil_prefix))
    have hzero : ∀ x : Path, ¬ baseOf lane <+: x → laneSpec d lane x = 0 := by
      intro x hx
      rw [laneSpec, Pi.add_apply, laneProfile, plant_apply_of_not _ _ _ hx, zero_add]
      split
      · rfl
      · apply Pi.single_eq_of_ne
        rintro rfl
        exact hx prefix_rfl
    rw [hzero q hpre, rolled_eq_zero]
    · rfl
    · intro n _
      rw [hzero, map_zero, map_zero]
      intro hlong
      apply hpre
      cases q with
      | nil => exact absurd rfl hq
      | cons x q =>
        rw [hg] at hlong ⊢
        rw [cons_append, cons_prefix_cons] at hlong
        rw [cons_prefix_cons]
        exact ⟨hlong.1, nil_prefix⟩

/-- The statistics a lane brings to the root. -/
theorem rolled_laneSpec_nil (lane : List Span) (distinct : names.Nodup)
    (coversGroup : ∀ g, baseOf lane = [g] → g ∈ names)
    (covers : baseOf lane = [] → ∀ e ∈ lanePaths lane, e.1 = [] → e.2.name ∈ names) :
    rolled (laneSpec d lane) [] names = laneTop d lane := by
  rcases baseOf_cases lane with hb | ⟨g, hg⟩
  · rw [← rolled_eventsProfile lane distinct (covers hb)]
    apply rolled_congr
    intro n _
    have h := laneSpec_below (d := d) lane (r := [n]) (cons_ne_nil n [])
    rw [hb] at h
    exact congrArg weight h
  · have hgroup : weight (laneSpec d lane [g]) = laneTop d lane := by
      have hbase := weight_laneProfile_base (d := d) lane
      rw [hg] at hbase
      rw [laneSpec, Pi.add_apply, map_add, hbase, zero_add, hg, if_neg (cons_ne_nil g []),
        Pi.single_eq_same, weight_coe]
    have hother : ∀ n, n ≠ g → inclusive (weight (laneSpec d lane ([] ++ [n]))) = 0 := by
      intro n hn
      rw [nil_append, laneSpec, Pi.add_apply, laneProfile, hg, plant_apply_of_not, zero_add,
        if_neg (cons_ne_nil g []), Pi.single_eq_of_ne, map_zero, map_zero]
      · intro heq
        injection heq with hng
        exact hn hng
      · intro hpre
        rw [cons_prefix_cons] at hpre
        exact hn hpre.1.symm
    have hincl : inclusive (laneTop d lane) = laneTop d lane := by
      unfold laneTop
      rw [map_list_sum, map_map]
      congr 1
      apply map_congr_left
      intro e _
      change inclusive (if e.1 = [] then ((d e.2.dur, 0, 1) : Weight) else 0) = _
      split
      · rfl
      · rfl
    unfold rolled
    rw [sum_map_unique distinct (coversGroup g hg) hother, nil_append, hgroup, hincl]

/-! ## The frame of some lanes -/

/-- The inclusive statistics of the outermost events of some lanes. -/
def lanesTop (d : Int64 → Int) (lanes : List (List Span)) : Weight :=
  (lanes.map (laneTop d)).sum

/-- The lanes' profile after the totals were rolled up into the root. -/
def rootedProfile (d : Int64 → Int) (lanes : List (List Span)) : Profile :=
  lanesProfile (laneSpec d) lanes + Pi.single [] ((lanesTop d lanes : Weight))

theorem within_lanesTop (hd : ∀ l ∈ lanes, ∀ s ∈ l, 0 ≤ d s.dur) :
    Within (lanesSum d lanes) (lanesTop d lanes) := by
  unfold lanesSum lanesTop
  induction lanes with
  | nil => exact .zero (Int.le_refl 0)
  | cons l lanes ih =>
    exact (within_laneTop (hd l mem_cons_self)).add
      (ih fun k hk => hd k (mem_cons_of_mem _ hk))

/-- A lane reaches the path of each of its events. -/
theorem laneSpec_event_ne_zero {lane : List Span} {e : Path × Span} (he : e ∈ lanePaths lane) :
    laneSpec d lane (baseOf lane ++ (e.1 ++ [e.2.name])) ≠ 0 := by
  rw [laneSpec_below lane (by simp)]
  exact eventsProfile_child_ne_zero he

theorem laneSpec_base_ne_zero (lane : List Span) : laneSpec d lane (baseOf lane) ≠ 0 := by
  exact add_ne_zero_left (laneProfile_base_ne_zero lane)

/-- The root's children roll up to the lanes' outermost events. -/
theorem rolled_root (distinct : names.Nodup)
    (covers : ∀ n, lanesProfile (laneSpec d) lanes [n] ≠ 0 → n ∈ names) :
    rolled (lanesProfile (laneSpec d) lanes) [] names = lanesTop d lanes := by
  have hsum := rolled_sum (lanes.map (laneSpec d)) [] names
  rw [lanesProfile, rolled_add, rolled_single_bare, zero_add, hsum, map_map]
  congr 1
  apply map_congr_left
  intro l hl
  apply rolled_laneSpec_nil l distinct
  · intro g hg
    apply covers
    apply lanesProfile_ne_zero hl
    have hne := laneSpec_base_ne_zero (d := d) l
    rwa [hg] at hne
  · intro hb e he hnil
    apply covers
    apply lanesProfile_ne_zero hl
    have hne := laneSpec_event_ne_zero (d := d) he
    rwa [hb, hnil] at hne

/-- The arena whose nodes the frame lists. -/
theorem rollUp_root (h : Denotes a (lanesProfile (laneSpec d) lanes)) (hk : Indexed a)
    (hlanes : ExactSpans d grouped lanes) :
    Denotes (rollUp a 0) (rootedProfile d lanes) := by
  have hzero := weight_lanesProfile_nil (d := d) lanes
  have hroot : rolled (lanesProfile (laneSpec d) lanes) [] (childNames a 0) = lanesTop d lanes :=
    rolled_root (childNames_nodup h.tree 0) fun n hn => h.mem_childNames (resolve_nil a) hn
  have hroll : RollsUp (lanesProfile (laneSpec d) lanes) [] (childNames a 0) := by
    refine ⟨?_, ?_, ?_, ?_⟩
    · rw [hzero]
      exact Int.le_refl 0
    · intro n _
      exact (within_lanesProfile _ fun l hl => within_laneSpec (hlanes.nonneg l hl) _).total_nonneg
    · rw [hzero, hroot]
      have hle := (within_lanesTop hlanes.nonneg).total_le
      have hsmall := hlanes.small
      change 0 + _ < _
      omega
    · rw [hzero]
      decide
  have hspec := (rollUp_spec h hk (resolve_nil a) hroll).denotes
  rwa [hroot] at hspec

/-- Below the root nothing changes, and the root gets the lanes' outermost events. -/
theorem weight_rootedProfile (lanes : List (List Span)) (p : Path) :
    weight (rootedProfile d lanes p)
      = if p = [] then lanesTop d lanes else weight (lanesProfile (laneSpec d) lanes p) := by
  rw [rootedProfile, Pi.add_apply, map_add]
  by_cases hp : p = []
  · rw [hp, if_pos rfl, weight_lanesProfile_nil, zero_add, Pi.single_eq_same, weight_coe]
  · rw [if_neg hp, Pi.single_eq_of_ne hp, map_zero, add_zero]

theorem within_rootedProfile (hd : ∀ l ∈ lanes, ∀ s ∈ l, 0 ≤ d s.dur)
    (p : Path) : Within (lanesSum d lanes) (weight (rootedProfile d lanes p)) := by
  rw [weight_rootedProfile]
  split
  · exact within_lanesTop hd
  · exact within_lanesProfile p fun l hl => within_laneSpec (hd l hl) p

/-- A node's self time is what its children's totals leave of its own. -/
theorem rootedProfile_self {b : FlameArena}
    (h : Denotes b (rootedProfile d lanes)) {p : Path} (hp : resolve b p = some i) :
    (weight (rootedProfile d lanes p)).2.1
      = (weight (rootedProfile d lanes p)).1 - (rolled (rootedProfile d lanes) p (childNames b i)).1 := by
  have hbelow : ∀ n, rootedProfile d lanes (p ++ [n]) = lanesProfile (laneSpec d) lanes (p ++ [n]) := by
    intro n
    rw [rootedProfile, Pi.add_apply, Pi.single_eq_of_ne (by simp), add_zero]
  have hcovers : ∀ n, lanesProfile (laneSpec d) lanes (p ++ [n]) ≠ 0 → n ∈ childNames b i := by
    intro n hn
    rw [← hbelow] at hn
    exact h.mem_childNames hp hn
  have hdistinct := childNames_nodup h.tree i
  have hrolled : rolled (rootedProfile d lanes) p (childNames b i)
      = rolled (lanesProfile (laneSpec d) lanes) p (childNames b i) :=
    rolled_congr fun n _ => by rw [hbelow]
  rw [hrolled, weight_rootedProfile]
  by_cases hroot : p = []
  · subst hroot
    have hself : (lanesTop d lanes).2.1 = 0 := by
      rw [lanesTop, sum_snd, map_map]
      apply sum_eq_zero
      intro x hx
      obtain ⟨l, -, rfl⟩ := mem_map.mp hx
      exact laneTop_self l
    rw [if_pos rfl, rolled_root hdistinct hcovers]
    omega
  · rw [if_neg hroot]
    have hsum := rolled_sum (lanes.map (laneSpec d)) p (childNames b i)
    have hlanes : (weight (lanesProfile (laneSpec d) lanes p)).1
        - (weight (lanesProfile (laneSpec d) lanes p)).2.1
        = (rolled (lanesProfile (laneSpec d) lanes) p (childNames b i)).1 := by
      rw [weight_lanesProfile, sub_sum, lanesProfile, rolled_add, rolled_single_bare, zero_add,
        hsum,
        sum_fst, map_map, map_map, map_map]
      congr 1
      apply map_congr_left
      intro l hl
      apply laneSpec_self l hroot hdistinct
      intro e he heq
      apply hcovers
      apply lanesProfile_ne_zero hl
      have hne := laneSpec_event_ne_zero (d := d) he
      rwa [← append_assoc, heq] at hne
    omega

/-- The statistics of a row. -/
def FlameRow.stats (r : FlameRow) : Float × Float × Int64 := (r.total, r.self, r.count)

/-- How a frame reports a node's statistics. -/
def reported (w : Weight) : Float × Float × Int64 :=
  (whole w.1, whole (max 0 w.2.1), (UInt64.ofNat w.2.2).toInt64)

/-- The self time of every row is its total less its children's totals, or zero
where these are more; all totals are whole numbers a double tells apart. -/
def SelfTimes (rows : List FlameRow) : Prop :=
  ∀ r ∈ rows, ∃ (total : Int) (children : List Int),
    0 ≤ total ∧ total < 2 ^ 53 ∧ (∀ c ∈ children, 0 ≤ c ∧ c < 2 ^ 53) ∧
    r.total = whole total ∧
    (rows.filter fun q => q.parent = r.nodeId).map FlameRow.total = children.map whole ∧
    r.self = whole (max 0 (total - children.sum))

/-- Cutting a whole self time at zero. -/
theorem clamp_whole (s : Int) (small : s.natAbs < 2 ^ 53) :
    (if whole s < 0 then 0 else whole s) = whole (max 0 s) := by
  have hiff : whole s < whole 0 ↔ s < 0 := whole_lt_iff (by omega) (by decide) (.inl small)
  change (if whole s < whole 0 then whole 0 else whole s) = _
  by_cases hneg : s < 0
  · rw [if_pos (hiff.mpr hneg), max_eq_left (Int.le_of_lt hneg)]
  · rw [if_neg fun h => hneg (hiff.mp h), max_eq_right (Int.not_lt.mp hneg)]

section

variable {a : FlameArena} {lanes : List (List Span)}

theorem rowOf_stats {b : FlameArena} (h : Denotes b (rootedProfile d lanes))
    (hlanes : ExactSpans d grouped lanes) {p : Path} {i : Nat} (hp : resolve b p = some i) :
    (rowOf b i).stats = reported (weight (rootedProfile d lanes p)) := by
  obtain ⟨t, s, k, hw, ht, hs, hk⟩ := (h.node_holds hp).of_some
  have hexact := (within_rootedProfile hlanes.nonneg p).exact hlanes.small
  rw [hw] at hexact ⊢
  have hself : (if (b.node i).self < 0 then 0 else (b.node i).self) = whole (max 0 s) := by
    rw [hs]
    exact clamp_whole s hexact.2
  change ((b.node i).total, (if (b.node i).self < 0 then 0 else (b.node i).self),
    (b.node i).count.toInt64) = _
  rw [ht, hself, hk]
  rfl

variable (h : Denotes a (lanesProfile (laneSpec d) lanes)) (hk : Indexed a)
  (hlanes : ExactSpans d grouped lanes) (small : a.length < 2 ^ 63)

include h hk hlanes small

/-- What the frame reports along the paths depends on the lanes alone. -/
theorem frame_stats (p : Path) :
    (findRow (flameArenaToFrame a) p).map FlameRow.stats =
      if rootedProfile d lanes p = 0 then none
      else some (reported (weight (rootedProfile d lanes p))) := by
  have hroll := rollUp_root h hk hlanes
  have hlen := (sameShape_rollUp a 0 h.tree.nonempty).length
  rw [flameArenaToFrame_eq (ne_nil_of_length_pos h.tree.nonempty),
    findRow_eq hroll.tree (hlen ▸ small)]
  cases hp : resolve (rollUp a 0) p with
  | none =>
    have hholds := hroll.holds p
    rw [hp] at hholds
    rw [if_pos hholds.eq_zero]
    rfl
  | some i =>
    rw [if_neg (hroll.ne_zero hp), ← rowOf_stats hroll hlanes hp]
    rfl

theorem frame_selfTimes : SelfTimes (flameArenaToFrame a) := by
  have hroll := rollUp_root h hk hlanes
  have hlen := (sameShape_rollUp a 0 h.tree.nonempty).length
  rw [flameArenaToFrame_eq (ne_nil_of_length_pos h.tree.nonempty)]
  generalize rollUp a 0 = b at hroll hlen ⊢
  have hb : b.length < 2 ^ 63 := hlen ▸ small
  intro r hr
  obtain ⟨i, hi, rfl⟩ := mem_map.mp hr
  rw [mem_range] at hi
  obtain ⟨p, hp⟩ := hroll.tree.exists_path hi
  have hbounds : ∀ q, Within (lanesSum d lanes) (weight (rootedProfile d lanes q)) :=
    within_rootedProfile hlanes.nonneg
  have hsmall := hlanes.small
  have hself := rootedProfile_self hroll hp
  have hstats := rowOf_stats hroll hlanes hp
  -- the rows of the node's children, in the order of the frame
  let kids := (List.range b.length).filter fun j => decide (j ∈ (b.node i).children)
  have hkids : (((List.range b.length).map (rowOf b)).filter fun q =>
      q.parent = (rowOf b i).nodeId) = kids.map (rowOf b) := by
    rw [filter_map]
    congr 1
    apply filter_congr
    intro j hj
    have hiff := rowOf_parent hroll.tree hb hi (mem_range.mp hj)
    simp only [Function.comp_apply, hiff]
  have hperm : kids.Perm (b.node i).children := by
    apply (perm_ext_iff_of_nodup (nodup_range.filter _) (hroll.tree.nodup i)).mpr
    intro j
    rw [mem_filter, mem_range, decide_eq_true_eq]
    exact ⟨fun hj => hj.2, fun hj => ⟨(hroll.tree.child_gt hj).2, hj⟩⟩
  have hchild : ∀ j ∈ kids, resolve b (p ++ [(b.node j).name]) = some j := by
    intro j hj
    rw [resolve_concat, hp]
    exact hroll.tree.childNamed_eq_some.mpr ⟨hperm.mem_iff.mp hj, rfl⟩
  have hsum : (kids.map fun j => (weight (rootedProfile d lanes (p ++ [(b.node j).name]))).1).sum
      = (rolled (rootedProfile d lanes) p (childNames b i)).1 := by
    rw [(hperm.map _).sum_eq, rolled, childNames, sum_fst, map_map, map_map]
    rfl
  have htotal := (hbounds p).total_le
  refine ⟨(weight (rootedProfile d lanes p)).1,
    kids.map fun j => (weight (rootedProfile d lanes (p ++ [(b.node j).name]))).1,
    (hbounds p).total_nonneg, by omega, ?_, congrArg (fun x => x.1) hstats, ?_, ?_⟩
  · intro c hc
    obtain ⟨j, -, rfl⟩ := mem_map.mp hc
    exact ⟨(hbounds _).total_nonneg, Int.lt_of_le_of_lt (hbounds _).total_le hsmall⟩
  · rw [hkids, map_map, map_map]
    apply map_congr_left
    intro j hj
    exact congrArg (fun x => x.1) (rowOf_stats hroll hlanes (hchild j hj))
  · rw [hsum, ← hself]
    exact congrArg (fun x => x.2.1) hstats

end

end DFTracer.Flame
