/-
# Folding and merging add profiles

Folding an event adds its duration at its path and takes it from the self time of
its parent. Merging a subtree adds the source's profile below the target node. The
recursion of the merge follows the source tree, whose children come after their
parents, so as much fuel as the source has nodes is enough.
-/

import DFTracer.Flame.Tree

namespace DFTracer.Flame

open Math.Float64 Math.PathProfile List

/-! ## Folding an event -/

/-- What an event with path `p ++ [n]` and duration `d` adds. -/
def eventProfile (p : Path) (n : Bytes) (d : Int) : Profile :=
  Pi.single (p ++ [n]) ((d, d, 1) : Weight)
    + if p = [] then 0 else Pi.single p ((0, -d, 0) : Weight)

/-- An arena that denotes `f`, reached without moving a node of `a`. -/
structure Extends (a : FlameArena) (b : FlameArena) (f : Profile) : Prop where
  denotes : Denotes b f
  indexed : Indexed b
  keeps : ∀ q j, resolve a q = some j → resolve b q = some j

variable {a : FlameArena} {f : Profile} {g : Profile} {n : FlameNode} {w : WithZero Weight}
  {d : Int} {src : FlameArena} {P S : Path} {di si : Nat} {dst : FlameArena}

theorem Extends.trans {b c : FlameArena} (hab : Extends a b f)
    (hbc : Extends b c g) : Extends a c g :=
  ⟨hbc.denotes, hbc.indexed, fun q j hq => hbc.keeps q j (hab.keeps q j hq)⟩

variable {p : Path}

theorem ChildAdded.extends {n : Bytes} {r : FlameArena × Nat} (h : ChildAdded a f p n r) :
    Extends a r.1 (f + Pi.single (p ++ [n]) bare) :=
  ⟨h.denotes, h.indexed, h.keeps⟩

variable {i : Nat}

/-- Changing statistics moves no node. -/
theorem Extends.modify (h : Denotes a f) (hk : Indexed a) (hp : resolve a p = some i)
    {g : FlameNode → FlameNode}
    {d : WithZero Weight}
    (hg : ∀ n, (g n).name = n.name ∧ (g n).kids = n.kids ∧ (g n).children = n.children)
    (hd : Holds (some (g (a.node i))) (f p + d)) :
    Extends a (a.modify i g) (f + Pi.single p d) := by
  have hshape := sameShape_modify a i g (h.tree.resolve_lt hp) hg
  have hkids := kids_modify a i g (h.tree.resolve_lt hp) hg
  refine ⟨h.modify hp hg hd, hshape.indexed hkids hk, ?_⟩
  intro q j hq
  rw [hshape.resolve, hq]

theorem Holds.addEvent (h : Holds (some n) w) (fits : Fits w ((d, d, 1) : Weight)) :
    Holds (some (n.addEvent (whole d))) (w + ((d, d, 1) : Weight)) := by
  obtain ⟨t, s, k, rfl, ht, hs, hc⟩ := h.of_some
  apply Holds.present _ (t + d) (s + d) (k + 1)
  · change n.total + whole d = _
    rw [ht]
    exact whole_add fits.left.1 fits.right.1 fits.sum.1
  · change n.self + whole d = _
    rw [hs]
    exact whole_add fits.left.2 fits.right.2 fits.sum.2
  · change n.count + 1 = _
    rw [hc, UInt64.ofNat_add]
    rfl

theorem Holds.subSelf
    (h : Holds (some n) w) (small : d.natAbs < 2 ^ 53) (fits : Fits w ((0, -d, 0) : Weight)) :
    Holds (some (n.subSelf (whole d))) (w + ((0, -d, 0) : Weight)) := by
  obtain ⟨t, s, k, rfl, ht, hs, hc⟩ := h.of_some
  have hval : (((t, s, k) : Weight) : WithZero Weight) + (((0, -d, 0) : Weight) : WithZero Weight)
      = ((t, s - d, k) : Weight) := by
    rw [← WithZero.coe_add]
    simp [Int.sub_eq_add_neg]
  have hsum := fits.sum.2
  rw [hval] at hsum ⊢
  apply Holds.present (n.subSelf (whole d)) t (s - d) k ht
  · change n.self - whole d = _
    rw [hs]
    exact whole_sub fits.left.2 small hsum
  · exact hc

/-- One event: the child is found or made, and both nodes are updated. -/
theorem foldFlameNode_spec (h : Denotes a f) (hk : Indexed a) (hp : resolve a p = some i)
    (n : Bytes) (d : Int)
    (small : d.natAbs < 2 ^ 53) (fitsChild : Fits (f (p ++ [n])) ((d, d, 1) : Weight))
    (fitsParent : Fits (f p) ((0, -d, 0) : Weight)) :
    Extends a (foldFlameNode a n (whole d) i).1 (f + eventProfile p n d) ∧
      resolve (foldFlameNode a n (whole d) i).1 (p ++ [n])
        = some (foldFlameNode a n (whole d) i).2 := by
  have hadded := findOrCreateChild_spec h hk hp n
  unfold foldFlameNode eventProfile
  generalize findOrCreateChild a i n = r at hadded ⊢
  obtain ⟨b, c⟩ := r
  have hne : p ≠ p ++ [n] := fun heq => by simpa using congrArg List.length heq
  have hbare : f (p ++ [n]) + bare + (((d, d, 1) : Weight) : WithZero Weight)
      = f (p ++ [n]) + ((d, d, 1) : Weight) := by
    rw [add_assoc, add_comm bare, add_bare WithZero.coe_ne_zero]
  -- the child's statistics
  have hupdated : Extends b (b.modify c (FlameNode.addEvent (whole d)))
      (f + Pi.single (p ++ [n]) bare + Pi.single (p ++ [n]) ((d, d, 1) : Weight)) := by
    apply Extends.modify hadded.denotes hadded.indexed hadded.resolve_child
    · intro n
      exact ⟨rfl, rfl, rfl⟩
    · apply (hadded.denotes.node_holds hadded.resolve_child).addEvent
      rw [Pi.add_apply, Pi.single_eq_same]
      refine ⟨?_, fitsChild.right, ?_⟩
      · rw [map_add, weight_bare, add_zero]
        exact fitsChild.left
      · rw [hbare]
        exact fitsChild.sum
  have hsum : f + Pi.single (p ++ [n]) bare + Pi.single (p ++ [n]) ((d, d, 1) : Weight)
      = f + Pi.single (p ++ [n]) (((d, d, 1) : Weight) : WithZero Weight) := by
    rw [add_assoc, ← Pi.single_add, add_comm bare, add_bare WithZero.coe_ne_zero]
  rw [hsum] at hupdated
  have hreached := hadded.extends.trans hupdated
  have hresolve := hupdated.keeps _ _ hadded.resolve_child
  dsimp only
  by_cases hroot : i = 0
  · have hpnil : p = [] := h.tree.resolve_inj hp (by rw [hroot]; rfl)
    rw [if_neg (fun hi => hi hroot), if_pos hpnil, add_zero]
    exact ⟨hreached, hresolve⟩
  · -- the parent's own time
    have hpne : p ≠ [] := by
      rintro rfl
      exact hroot (Option.some.inj hp).symm
    have hparent := hreached.keeps p i hp
    have hatParent :
        (f + Pi.single (p ++ [n]) (((d, d, 1) : Weight) : WithZero Weight) : Profile) p = f p := by
      rw [Pi.add_apply, Pi.single_eq_of_ne hne, add_zero]
    rw [if_pos hroot, if_neg hpne, ← add_assoc]
    have hless : Extends (b.modify c (FlameNode.addEvent (whole d)))
        ((b.modify c (FlameNode.addEvent (whole d))).modify i (FlameNode.subSelf (whole d)))
        (f + Pi.single (p ++ [n]) (((d, d, 1) : Weight) : WithZero Weight)
          + Pi.single p ((0, -d, 0) : Weight)) := by
      apply Extends.modify hreached.denotes hreached.indexed hparent
      · intro n
        exact ⟨rfl, rfl, rfl⟩
      · have hholds := hreached.denotes.node_holds hparent
        rw [hatParent] at hholds ⊢
        exact hholds.subSelf small fitsParent
    exact ⟨hreached.trans hless, hless.keeps _ _ hresolve⟩

/-! ## Merging a subtree -/

/-- The names of a node's children. -/
def childNames (a : FlameArena) (i : Nat) : List Bytes :=
  (a.node i).children.map fun c => (a.node c).name

theorem childNames_nodup (h : IsTree a) (i : Nat) : (childNames a i).Nodup := by
  apply List.Nodup.map_on _ (h.nodup i)
  intro c hc d hd hname
  exact h.name_inj hc hd hname

/-- What is not zero below a node starts with the name of a child. -/
theorem Denotes.mem_childNames (h : Denotes a f) (hp : resolve a p = some i) {n : Bytes} {r : Path}
    (hne : f (p ++ n :: r) ≠ 0) :
    n ∈ childNames a i := by
  obtain ⟨j, hj⟩ := h.resolve_of_ne_zero hne
  have hsplit : resolve a (p ++ n :: r)
      = (resolve a (p ++ [n])).bind fun k => r.foldlM (childNamed a) k := by
    rw [← singleton_append, ← append_assoc, resolve, foldlM_append]
    rfl
  rw [hsplit, resolve_concat, hp, Option.bind_eq_some_iff] at hj
  obtain ⟨c, hc, -⟩ := hj
  have hin := h.tree.childNamed_eq_some.mp hc
  exact mem_map.mpr ⟨c, hin.1, hin.2⟩

/-- The profile below a node is its own statistics and its children's profiles. -/
theorem Denotes.below_eq (h : Denotes a f) (hp : resolve a p = some i) :
    below f p = Pi.single [] (f p) + ((a.node i).children.map fun c =>
      plant [(a.node c).name] (below f (p ++ [(a.node c).name]))).sum := by
  rw [below_eq_children f p (childNames a i) (childNames_nodup h.tree i)
    (fun n r hne => h.mem_childNames hp hne), childNames, map_map]
  rfl

/-- The children loop of a merge, given what merging one child does. -/
theorem mergeChildren (hs : Denotes src g) (hS : resolve src S = some si) (merge : FlameArena → Nat → Nat → FlameArena)
    (hmerge : ∀ (dst : FlameArena) (f : Profile) (n : Bytes) (dc sc : Nat), Denotes dst f →
      Indexed dst → resolve dst (P ++ [n]) = some dc → resolve src (S ++ [n]) = some sc →
      (∀ r, Fits (f (P ++ n :: r)) (g (S ++ n :: r))) →
      sc ∈ (src.node si).children →
      Extends dst (merge dst dc sc) (f + plant (P ++ [n]) (below g (S ++ [n]))))
    (cs : List Nat) (hcs : ∀ c ∈ cs, c ∈ (src.node si).children) (hnodup : cs.Nodup) (hd : Denotes dst f) (hk : Indexed dst)
    (hP : resolve dst P = some di)
    (hfits : ∀ c ∈ cs, ∀ r, Fits (f (P ++ (src.node c).name :: r)) (g (S ++ (src.node c).name :: r))) :
    Extends dst (cs.foldl (fun dst sc =>
        let (dst, dc) := findOrCreateChild dst di (src.node sc).name
        merge dst dc sc) dst)
      (f + (cs.map fun c => plant P (plant [(src.node c).name]
        (below g (S ++ [(src.node c).name])))).sum) := by
  induction cs generalizing dst f with
  | nil =>
    rw [map_nil, sum_nil, add_zero]
    exact ⟨hd, hk, fun q j hq => hq⟩
  | cons c cs ih =>
    have hc := hcs c mem_cons_self
    generalize hn : (src.node c).name = n at *
    have hSc : resolve src (S ++ [n]) = some c := by
      rw [resolve_concat, hS]
      exact hs.tree.childNamed_eq_some.mpr ⟨hc, hn⟩
    have hadded := findOrCreateChild_spec hd hk hP n
    generalize hr : findOrCreateChild dst di n = r at hadded
    obtain ⟨b, dc⟩ := r
    have hfitsc : ∀ r, Fits (f (P ++ n :: r)) (g (S ++ n :: r)) := by
      intro r
      have h := hfits c mem_cons_self r
      rwa [hn] at h
    have hone := hmerge b _ n dc c hadded.denotes hadded.indexed hadded.resolve_child hSc
      (fun r => by
        have h := hfitsc r
        have hw : weight ((f + Pi.single (P ++ [n]) bare : Profile) (P ++ n :: r))
            = weight (f (P ++ n :: r)) := by
          rw [Pi.add_apply, map_add]
          by_cases hr : P ++ n :: r = P ++ [n]
          · rw [hr, Pi.single_eq_same, weight_bare, add_zero]
          · rw [Pi.single_eq_of_ne hr, map_zero, add_zero]
        refine ⟨?_, h.right, ?_⟩
        · rw [hw]
          exact h.left
        · rw [map_add, hw, ← map_add]
          exact h.sum) hc
    -- the bare node is covered by what the child brings
    have habsorb : f + Pi.single (P ++ [n]) bare + plant (P ++ [n]) (below g (S ++ [n]))
        = f + plant P (plant [n] (below g (S ++ [n]))) := by
      rw [plant_plant, add_assoc]
      congr 1
      funext q
      rw [Pi.add_apply]
      by_cases hq : q = P ++ [n]
      · subst hq
        have hself : plant (P ++ [n]) (below g (S ++ [n])) (P ++ [n]) = g (S ++ [n]) := by
          have h := plant_append_apply (P ++ [n]) [] (below g (S ++ [n]))
          rw [append_nil] at h
          rw [h, below, append_nil]
        rw [Pi.single_eq_same, hself, add_comm, add_bare (hs.ne_zero hSc)]
      · rw [Pi.single_eq_of_ne hq, zero_add]
    rw [habsorb] at hone
    have hreached := hadded.extends.trans hone
    have hrest := ih (fun d hd => hcs d (mem_cons_of_mem _ hd)) (nodup_cons.mp hnodup).2
      hreached.denotes hreached.indexed (hreached.keeps P di hP) (by
        intro d hd r
        have h := hfits d (mem_cons_of_mem _ hd) r
        have hother : (src.node d).name ≠ n := by
          intro hsame
          have hdc := hs.tree.name_inj (hcs d (mem_cons_of_mem _ hd)) hc
            (by rw [hsame, hn])
          rw [hdc] at hd
          exact (nodup_cons.mp hnodup).1 hd
        rw [Pi.add_apply, plant_plant, plant_apply_of_not, add_zero]
        · exact h
        · simpa using fun heq => hother heq.symm)
    rw [map_cons, sum_cons, ← add_assoc, foldl_cons, hn]
    simp only [hr]
    exact hreached.trans hrest

/-- Merging the subtree of `src` at `S` into the node of `dst` at `P`. -/
theorem mergeFlameArena_spec (hs : Denotes src g) (fuel : Nat) (hd : Denotes dst f) (hk : Indexed dst) (hP : resolve dst P = some di) (hS : resolve src S = some si)
    (hfuel : src.length ≤ fuel + si) (hfits : ∀ r, Fits (f (P ++ r)) (g (S ++ r))) :
    Extends dst (mergeFlameArena fuel dst di src si) (f + plant P (below g S)) := by
  induction fuel generalizing dst f P S di si with
  | zero =>
    have := hs.tree.resolve_lt hS
    omega
  | succ fuel ih =>
    have hfitsNil := hfits []
    rw [append_nil, append_nil] at hfitsNil
    have hroot : Extends dst (dst.modify di (src.node si).addStats) (f + Pi.single P (g S)) := by
      apply Extends.modify hd hk hP
      · intro n
        exact ⟨rfl, rfl, rfl⟩
      · exact (hd.node_holds hP).addStats (hs.node_holds hS) hfitsNil
    have hchildren := mergeChildren hs hS (fun dst dc sc => mergeFlameArena fuel dst dc src sc)
      (fun dst f n dc sc hd hk hP' hS' hf hmem => by
        apply ih hd hk hP' hS'
        · have := (hs.tree.child_gt hmem).1
          omega
        · intro r
          rw [append_assoc, append_assoc]
          exact hf r)
      (src.node si).children (fun c hc => hc) (hs.tree.nodup si) hroot.denotes hroot.indexed
      (hroot.keeps P di hP)
      (fun c hc r => by
        rw [Pi.add_apply, Pi.single_eq_of_ne, add_zero]
        · exact hfits _
        · intro heq
          simpa using congrArg List.length heq)
    have hsum : f + Pi.single P (g S) + ((src.node si).children.map fun c =>
        plant P (plant [(src.node c).name] (below g (S ++ [(src.node c).name])))).sum
        = f + plant P (below g S) := by
      rw [hs.below_eq hS, plant_add, plant_single, append_nil, plant_sum, map_map, add_assoc]
      rfl
    rw [hsum] at hchildren
    exact hroot.trans hchildren

end DFTracer.Flame
