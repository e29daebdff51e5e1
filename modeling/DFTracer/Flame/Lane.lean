/-
# The profile of a lane

What a lane contributes to a flamegraph is the sum of its events' profiles, at the paths the
containment walk gives them, whatever the intern table of its shard. Every bound comes from the
sum of the scaled durations, which every total and every self time stays within. An event nested
in another gives that other a positive duration.
-/

import DFTracer.Flame.Merge

namespace DFTracer.Flame

open Math.Float64 Math.PathProfile List

/-- A row with its strings looked up. -/
structure Span where
  start : Int64
  dur : Int64
  name : Bytes
  group : Option Bytes
deriving DecidableEq

def Span.stop (s : Span) : Int64 := s.start + s.dur

def ContainmentRow.span {intern : StringIntern} (r : ContainmentRow intern) : Span where
  start := r.start
  dur := r.dur
  name := r.name
  group := r.groupId.map intern.resolve

/-- The walk with paths for handles. -/
def pathWalk (acc : List (Path × Span)) (stack : List (Int64 × Path)) (lane : List Span) :
    List (Path × Span) :=
  containmentWalk Span.start Span.stop ([] : Path)
    (fun acc s _ par => (acc ++ [(par, s)], par ++ [s.name])) acc stack lane

/-- Every event of a lane with the path of its parent. -/
def lanePaths (lane : List Span) : List (Path × Span) := pathWalk [] [] lane

/-- The parent a stack offers to an event. -/
def parentOf (stack : List (Int64 × Path)) (s : Span) : Path :=
  (stack.dropWhile fun top => top.1 ≤ s.start).head?.elim [] Prod.snd

section

variable (acc : List (Path × Span)) (stack : List (Int64 × Path))

include acc stack

theorem pathWalk_cons (s : Span)
    (lane : List Span) :
    pathWalk acc stack (s :: lane) =
      pathWalk (acc ++ [(parentOf stack s, s)])
        ((s.stop, parentOf stack s ++ [s.name]) ::
          stack.dropWhile fun top => top.1 ≤ s.start) lane := rfl

/-- The walk only appends. -/
theorem pathWalk_extends
    (lane : List Span) : acc <+: pathWalk acc stack lane := by
  induction lane generalizing acc stack with
  | nil => exact prefix_rfl
  | cons s lane ih =>
    exact (List.prefix_append _ _).trans (ih _ _)

theorem pathWalk_spans
    (lane : List Span) : (pathWalk acc stack lane).map Prod.snd = acc.map Prod.snd ++ lane := by
  induction lane generalizing acc stack with
  | nil => exact (append_nil _).symm
  | cons s lane ih =>
    rw [pathWalk_cons, ih, map_append, append_assoc]
    rfl

end

/-- Totals up to `B`, self times between `-B` and `B`. -/
structure Within (B : Int) (w : Weight) : Prop where
  total_nonneg : 0 ≤ w.1
  total_le : w.1 ≤ B
  self_ge : -B ≤ w.2.1
  self_le : w.2.1 ≤ B

namespace Within

variable {B C : Int} {w v : Weight}

theorem zero (hB : 0 ≤ B) : Within B 0 :=
  ⟨Int.le_refl 0, hB, Int.neg_nonpos_of_nonneg hB, hB⟩

theorem add (hw : Within B w) (hv : Within C v) : Within (B + C) (w + v) := by
  have ht : (w + v).1 = w.1 + v.1 := rfl
  have hs : (w + v).2.1 = w.2.1 + v.2.1 := rfl
  obtain ⟨h1, h2, h3, h4⟩ := hw
  obtain ⟨g1, g2, g3, g4⟩ := hv
  constructor
  · omega
  · omega
  · omega
  · omega

theorem exact (hw : Within B w) (hB : B < 2 ^ 53) : Exact w := by
  obtain ⟨h1, h2, h3, h4⟩ := hw
  constructor
  · omega
  · omega

end Within

/-- Values within bounds whose sum is small are added without rounding. -/
theorem Fits.of_within {B C : Int} {w v : WithZero Weight} (hw : Within B (weight w))
    (hv : Within C (weight v)) (small : B + C < 2 ^ 53) : Fits w v := by
  have hB := hw.total_nonneg
  have hC := hv.total_nonneg
  have hB' := hw.total_le
  have hC' := hv.total_le
  refine ⟨hw.exact (by omega), hv.exact (by omega), ?_⟩
  rw [map_add]
  exact (hw.add hv).exact small

/-- A sum of profiles is within the sum of their bounds. -/
theorem within_sum {ι : Type} (xs : List ι) (F : ι → Profile) (b : ι → Int) (q : Path)
    (h : ∀ x ∈ xs, Within (b x) (weight (F x q))) :
    Within (xs.map b).sum (weight ((xs.map F).sum q)) := by
  induction xs with
  | nil => exact .zero (Int.le_refl 0)
  | cons x xs ih =>
    rw [map_cons, sum_cons, map_cons, sum_cons, Pi.add_apply, map_add]
    exact (h x mem_cons_self).add (ih fun y hy => h y (mem_cons_of_mem _ hy))

theorem within_single {B : Int} (hB : 0 ≤ B) (p q : Path) (w : Weight) (hw : Within B w) :
    Within B (weight ((Pi.single p (w : WithZero Weight) : Profile) q)) := by
  rw [Pi.single_apply]
  split
  · exact hw
  · exact .zero hB

/-- One event stays within its duration. -/
theorem within_eventProfile (p q : Path) (n : Bytes) {d : Int} (hd : 0 ≤ d) :
    Within d (weight (eventProfile p n d q)) := by
  have hne : p ++ [n] ≠ p := fun heq => by simpa using congrArg List.length heq
  have hchild : Within d ((d, d, 1) : Weight) :=
    ⟨hd, Int.le_refl d, Int.le_trans (Int.neg_nonpos_of_nonneg hd) hd, Int.le_refl d⟩
  have hparent : Within d ((0, -d, 0) : Weight) :=
    ⟨Int.le_refl 0, hd, Int.le_refl _, Int.le_trans (Int.neg_nonpos_of_nonneg hd) hd⟩
  rw [eventProfile, Pi.add_apply]
  by_cases hq : q = p ++ [n]
  · have hzero : (if p = [] then 0 else Pi.single p (((0, -d, 0) : Weight) : WithZero Weight)
        : Profile) q = 0 := by
      split
      · rfl
      · rw [hq, Pi.single_eq_of_ne hne]
    rw [hzero, add_zero]
    exact within_single hd _ _ _ hchild
  · rw [Pi.single_eq_of_ne hq, zero_add]
    split
    · exact .zero hd
    · exact within_single hd _ _ _ hparent

/-! ## Folding a lane -/

/-- How durations scale to whole numbers: `d` is the integer the double is. -/
structure WholeDurations (timeScale : Float) (d : Int64 → Int) (dur : Int64) : Prop where
  scaled : Float.ofModel (.ofInt dur.toInt) * timeScale = whole (d dur)
  nonneg : 0 ≤ d dur
  dur_nonneg : 0 ≤ dur
  positive : 0 < dur → 0 < d dur

/-- The sum of the scaled durations. -/
def durationSum (d : Int64 → Int) (events : List (Path × Span)) : Int :=
  (events.map fun e => d e.2.dur).sum

/-- What the events of one lane add to the lane's own arena. -/
def eventsProfile (d : Int64 → Int) (events : List (Path × Span)) : Profile :=
  Pi.single [] bare + (events.map fun e => eventProfile e.1 e.2.name (d e.2.dur)).sum

section

variable {d : Int64 → Int}

section

variable (events : List (Path × Span))

include events

theorem within_eventsProfile (hd : ∀ e ∈ events, 0 ≤ d e.2.dur)
    (q : Path) : Within (durationSum d events) (weight (eventsProfile d events q)) := by
  have hbare : weight ((Pi.single [] bare : Profile) q) = 0 := by
    rw [Pi.single_apply]
    split
    · exact weight_bare
    · exact map_zero weight
  rw [eventsProfile, Pi.add_apply, map_add, hbare, zero_add]
  exact within_sum events _ (fun e => d e.2.dur) q
    fun e he => within_eventProfile _ _ _ (hd e he)

theorem eventsProfile_concat (p : Path) (s : Span) :
    eventsProfile d (events ++ [(p, s)])
      = eventsProfile d events + eventProfile p s.name (d s.dur) := by
  rw [eventsProfile, map_append, sum_append, ← add_assoc]
  congr 1
  exact sum_singleton

theorem durationSum_concat (p : Path) (s : Span) :
    durationSum d (events ++ [(p, s)]) = durationSum d events + d s.dur := by
  rw [durationSum, map_append, sum_append]
  congr 1
  exact sum_singleton

end

/-- A part of the events takes no longer than all of them. -/
theorem durationSum_le {a b : List (Path × Span)} (hab : a <+: b)
    (hb : ∀ e ∈ b, 0 ≤ d e.2.dur) : durationSum d a ≤ durationSum d b := by
  obtain ⟨c, rfl⟩ := hab
  rw [durationSum, durationSum, map_append, sum_append]
  have hc : 0 ≤ (c.map fun e => d e.2.dur).sum := by
    apply sum_nonneg
    intro x hx
    obtain ⟨e, he, rfl⟩ := mem_map.mp hx
    exact hb e (mem_append_right _ he)
  omega

variable {intern : StringIntern} {timeScale : Float} {a : FlameArena} {stack : List (Int64 × Nat)}
  {paths : List (Int64 × Path)}

/-- The handles on the stack are the nodes of their paths. -/
def StackAt (a : FlameArena) (stack : List (Int64 × Nat)) (paths : List (Int64 × Path)) :
    Prop :=
  List.Forall₂ (fun x y => x.1 = y.1 ∧ resolve a y.2 = some x.2) stack paths

theorem StackAt.dropWhile (h : StackAt a stack paths) (t : Int64) :
    StackAt a (stack.dropWhile fun top => top.1 ≤ t) (paths.dropWhile fun top => top.1 ≤ t) := by
  induction h with
  | nil => exact .nil
  | @cons x y xs ys hxy hrest ih =>
    rw [dropWhile_cons, dropWhile_cons, hxy.1]
    split
    · exact ih
    · exact .cons hxy hrest

theorem StackAt.parent (h : StackAt a stack paths) :
    resolve a (paths.head?.elim [] Prod.snd) = some (stack.head?.elim 0 Prod.snd) := by
  cases h with
  | nil => rfl
  | cons hxy hrest => exact hxy.2

/-- The walk with arena indices for handles. -/
def arenaWalk (timeScale : Float) (a : FlameArena) (stack : List (Int64 × Nat))
    (lane : List (ContainmentRow intern)) : FlameArena :=
  containmentWalk ContainmentRow.start ContainmentRow.stop 0
    (fun arena r _ par => foldFlameNode arena r.name (r.scaled timeScale) par) a stack lane

/-- The walk over the arena does what the walk over paths records. -/
theorem walk_denotes (lane : List (ContainmentRow intern)) {acc : List (Path × Span)}
    (ha : Denotes a (eventsProfile d acc)) (hk : Indexed a) (hstack : StackAt a stack paths)
    (hacc : ∀ e ∈ acc, 0 ≤ d e.2.dur) (hlane : ∀ r ∈ lane, WholeDurations timeScale d r.dur)
    (hsmall : durationSum d (pathWalk acc paths (lane.map ContainmentRow.span)) < 2 ^ 53) :
    Denotes (arenaWalk timeScale a stack lane)
      (eventsProfile d (pathWalk acc paths (lane.map ContainmentRow.span))) := by
  induction lane generalizing a acc stack paths with
  | nil => exact ha
  | cons r lane ih =>
    have hr := hlane r mem_cons_self
    rw [map_cons, pathWalk_cons] at hsmall ⊢
    have hdropped := hstack.dropWhile r.start
    have hparent := hdropped.parent
    generalize hp : parentOf paths r.span = p at hsmall ⊢
    have hp' : (paths.dropWhile fun top => top.1 ≤ r.start).head?.elim [] Prod.snd = p := hp
    rw [hp'] at hparent
    have hall : ∀ e ∈ acc ++ [(p, r.span)], 0 ≤ d e.2.dur := by
      intro e he
      rcases mem_append.mp he with he | he
      · exact hacc e he
      · rw [mem_singleton.mp he]
        exact hr.nonneg
    have hwalked : ∀ e ∈ pathWalk (acc ++ [(p, r.span)])
        ((r.span.stop, p ++ [r.span.name]) :: paths.dropWhile fun top => top.1 ≤ r.span.start)
        (lane.map ContainmentRow.span), 0 ≤ d e.2.dur := by
      intro e he
      have hspan := mem_map_of_mem (f := Prod.snd) he
      rw [pathWalk_spans, mem_append] at hspan
      rcases hspan with hspan | hspan
      · obtain ⟨e', he', heq⟩ := mem_map.mp hspan
        rw [← heq]
        exact hall e' he'
      · obtain ⟨r', hr', heq⟩ := mem_map.mp hspan
        rw [← heq]
        exact (hlane r' (mem_cons_of_mem _ hr')).nonneg
    have hsum := durationSum_le (pathWalk_extends _ _ _) hwalked
    rw [durationSum_concat] at hsum
    have hdur : durationSum d acc + d r.dur < 2 ^ 53 := Int.lt_of_le_of_lt hsum hsmall
    have hnonneg : 0 ≤ durationSum d acc :=
      sum_nonneg fun x hx => by
        obtain ⟨e, he, rfl⟩ := mem_map.mp hx
        exact hacc e he
    have hbound := within_eventsProfile acc hacc
    have hevent : Within (d r.dur) ((d r.dur, d r.dur, 1) : Weight) :=
      ⟨hr.nonneg, Int.le_refl _, Int.le_trans (Int.neg_nonpos_of_nonneg hr.nonneg) hr.nonneg,
        Int.le_refl _⟩
    have hless : Within (d r.dur) ((0, -d r.dur, 0) : Weight) :=
      ⟨Int.le_refl 0, hr.nonneg, Int.le_refl _,
        Int.le_trans (Int.neg_nonpos_of_nonneg hr.nonneg) hr.nonneg⟩
    have hfold := foldFlameNode_spec ha hk hparent r.name (d r.dur)
      (by have := hr.nonneg; omega) (.of_within (hbound _) hevent hdur)
      (.of_within (hbound _) hless hdur)
    rw [← hr.scaled] at hfold
    have hspec := eventsProfile_concat (d := d) acc p r.span
    rw [show eventProfile p r.span.name (d r.span.dur) = eventProfile p r.name (d r.dur) from rfl]
      at hspec
    rw [← hspec] at hfold
    refine ih hfold.1.denotes hfold.1.indexed ?_ hall
      (fun r' hr' => hlane r' (mem_cons_of_mem _ hr')) hsmall
    exact .cons ⟨rfl, hfold.2⟩ (hdropped.imp fun x y hxy => ⟨hxy.1, hfold.1.keeps _ _ hxy.2⟩)

theorem denotes_rootArena : Denotes rootArena (Pi.single [] bare) where
  tree := {
    nonempty := by decide
    child_gt := by
      intro i c hc
      rcases i with _ | i <;> exact absurd hc not_mem_nil
    nodup := by
      intro i
      rcases i with _ | i <;> exact nodup_nil
    name_inj := by
      intro i c d hc
      rcases i with _ | i <;> exact absurd hc not_mem_nil
    parent_unique := by
      intro i j c hc
      rcases i with _ | i <;> exact absurd hc not_mem_nil
    has_parent := by
      intro c hpos hlt
      have : rootArena.length = 1 := rfl
      omega }
  root := rfl
  holds := by
    intro p
    cases p with
    | nil => exact Holds.present _ 0 0 0 rfl rfl rfl
    | cons n p =>
      exact Holds.absent

theorem indexed_rootArena : Indexed rootArena := by
  intro i n c
  rcases i with _ | i
  · constructor
    · intro h
      cases h
    · rintro ⟨h, -⟩
      exact absurd h not_mem_nil
  · constructor
    · intro h
      cases h
    · rintro ⟨h, -⟩
      exact absurd h not_mem_nil

/-- The arena of a lane denotes the sum of its events. -/
theorem foldLane_denotes (lane : List (ContainmentRow intern))
    (hlane : ∀ r ∈ lane, WholeDurations timeScale d r.dur)
    (hsmall : durationSum d (lanePaths (lane.map ContainmentRow.span)) < 2 ^ 53) :
    Denotes (foldLane timeScale lane)
      (eventsProfile d (lanePaths (lane.map ContainmentRow.span))) := by
  have hroot : Denotes rootArena (eventsProfile d []) := by
    rw [eventsProfile, map_nil, sum_nil, add_zero]
    exact denotes_rootArena
  exact walk_denotes lane hroot indexed_rootArena .nil (fun e he => by cases he) hlane hsmall

end

/-- An event that has a parent is nested in an event of positive duration. -/
def Nested (events : List (Path × Span)) : Prop :=
  ∀ e ∈ events, e.1 ≠ [] → ∃ p s, (p, s) ∈ events ∧ e.1 = p ++ [s.name] ∧ 0 < s.dur

theorem dur_pos {s t : Span} (hd : 0 ≤ s.dur) (hst : s.start ≤ t.start)
    (hopen : ¬ s.stop ≤ t.start) : 0 < s.dur := by
  rw [Int64.lt_iff_le_and_ne]
  refine ⟨hd, fun hzero => hopen ?_⟩
  rw [Span.stop, ← hzero, Int64.add_zero]
  exact hst

theorem nested_pathWalk (lane : List Span) {acc : List (Path × Span)}
    {stack : List (Int64 × Path)} (hacc : Nested acc)
    (hsorted : lane.Pairwise fun s t => s.start ≤ t.start)
    (hstack : ∀ x ∈ stack, ∃ p s, (p, s) ∈ acc ∧ x = (s.stop, p ++ [s.name]) ∧ 0 ≤ s.dur ∧
      ∀ t ∈ lane, s.start ≤ t.start)
    (hdur : ∀ s ∈ lane, 0 ≤ s.dur) : Nested (pathWalk acc stack lane) := by
  induction lane generalizing acc stack with
  | nil => exact hacc
  | cons s lane ih =>
    rw [pathWalk_cons]
    have hrest := pairwise_cons.mp hsorted
    have hin : ∀ x ∈ stack.dropWhile (fun top => decide (top.1 ≤ s.start)), x ∈ stack := fun x hx =>
      (dropWhile_sublist _).subset hx
    apply ih
    · intro e he hne
      rcases mem_append.mp he with he | he
      · obtain ⟨p, t, hmem, heq, hpos⟩ := hacc e he hne
        exact ⟨p, t, mem_append_left _ hmem, heq, hpos⟩
      · obtain rfl := mem_singleton.mp he
        unfold parentOf at hne ⊢
        cases hdrop : stack.dropWhile (fun top => decide (top.1 ≤ s.start)) with
        | nil =>
          rw [hdrop] at hne
          exact absurd rfl hne
        | cons x rest =>
          have hx : x ∈ stack := hin x (by rw [hdrop]; exact mem_cons_self)
          obtain ⟨p, t, hmem, rfl, hd, hbefore⟩ := hstack x hx
          have hopen := head?_dropWhile_not (fun top => decide (top.1 ≤ s.start)) stack
          rw [hdrop] at hopen
          refine ⟨p, t, mem_append_left _ hmem, rfl, ?_⟩
          apply dur_pos hd (hbefore s mem_cons_self)
          simpa using hopen
    · exact hrest.2
    · intro x hx
      rcases mem_cons.mp hx with rfl | hx
      · exact ⟨_, s, mem_append_right _ (mem_singleton_self _), rfl,
          hdur s mem_cons_self, hrest.1⟩
      · obtain ⟨p, t, hmem, heq, hd, hbefore⟩ := hstack x (hin x hx)
        exact ⟨p, t, mem_append_left _ hmem, heq, hd,
          fun u hu => hbefore u (mem_cons_of_mem _ hu)⟩
    · intro t ht
      exact hdur t (mem_cons_of_mem _ ht)

theorem nested_lanePaths {lane : List Span} (hsorted : lane.Pairwise fun s t => s.start ≤ t.start)
    (hdur : ∀ s ∈ lane, 0 ≤ s.dur) : Nested (lanePaths lane) :=
  nested_pathWalk lane (fun e he => by cases he) hsorted (fun x hx => by cases hx) hdur

/-- The order of a lane, on spans. -/
def Span.sortsBefore (a b : Span) : Bool :=
  !(if b.start ≠ a.start then b.start < a.start else b.stop > a.stop)

theorem Span.sortsBefore_iff (a b : Span) :
    a.sortsBefore b = true ↔ a.start < b.start ∨ (a.start = b.start ∧ b.stop ≤ a.stop) := by
  unfold Span.sortsBefore
  by_cases h : b.start = a.start
  · simp [h]
  · rw [if_pos h]
    simp only [Bool.not_eq_true', decide_eq_false_iff_not, Int64.lt_iff_toInt_lt]
    have hne : b.start.toInt ≠ a.start.toInt := fun heq => h (Int64.toInt_inj.mp heq)
    constructor
    · intro hle
      exact .inl (by omega)
    · rintro (hlt | ⟨heq, -⟩)
      · omega
      · exact absurd heq.symm h

theorem Span.sortsBefore_trans {a b c : Span} (hab : a.sortsBefore b = true)
    (hbc : b.sortsBefore c = true) : a.sortsBefore c = true := by
  rw [Span.sortsBefore_iff] at *
  simp only [Int64.lt_iff_toInt_lt, Int64.le_iff_toInt_le, ← Int64.toInt_inj] at *
  omega

theorem Span.sortsBefore_total (a b : Span) : (a.sortsBefore b || b.sortsBefore a) = true := by
  rw [Bool.or_eq_true, Span.sortsBefore_iff, Span.sortsBefore_iff]
  simp only [Int64.lt_iff_toInt_lt, Int64.le_iff_toInt_le, ← Int64.toInt_inj]
  omega

/-- The spans of a lane, sorted stably. -/
def sortedSpans (spans : List Span) : List Span := spans.mergeSort Span.sortsBefore

theorem sortedLane_span {intern : StringIntern} (rows : List (ContainmentRow intern))
    (key : UInt64) :
    (sortedLane rows key).map ContainmentRow.span
      = sortedSpans ((rows.filter fun r => r.lane = key).map ContainmentRow.span) :=
  map_mergeSort fun _ _ _ _ => rfl

theorem sortedSpans_sorted (spans : List Span) :
    (sortedSpans spans).Pairwise fun s t => s.start ≤ t.start := by
  apply (pairwise_mergeSort _ _ spans).imp
  · intro a b hab
    rcases (Span.sortsBefore_iff a b).mp hab with hlt | ⟨heq, -⟩
    · exact Int64.le_of_lt hlt
    · exact heq ▸ Int64.le_refl _
  · exact fun a b c => Span.sortsBefore_trans
  · exact Span.sortsBefore_total

theorem mem_sortedSpans {spans : List Span} {s : Span} : s ∈ sortedSpans spans ↔ s ∈ spans :=
  (mergeSort_perm spans _).mem_iff

end DFTracer.Flame
