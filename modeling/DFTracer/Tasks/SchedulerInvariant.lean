/-
# The invariant of a run

Counting off removes one edge from what is left of the tasks' turns and one from the child's
counter, so the counter of a task is the number of edges into it that are left. Hence a child is
found ready once, with all its parents through. A task that will be marked is out of reach of any
submission: its counter is spent already or a parent that never runs keeps it up.
-/

import Mathlib.Algebra.BigOperators.Group.Finset.Basic
import Mathlib.Algebra.Order.BigOperators.Group.Finset
import Mathlib.Tactic.Ring
import DFTracer.Tasks.SchedulerStep

namespace DFTracer.Tasks

variable {ι α : Type} [DecidableEq ι] [Fintype ι] {f : ι → Int}

/-- Edges into `c` from a task in this phase that are not counted off. -/
def Phase.left (g : PipelineGraph ι α) (t c : ι) (phase : Phase ι α) : Int :=
  (phase.undone g t).count c

/-- What an open call contributes to the pending count: the task, and the child that
is being prepared. -/
def Phase.weight (phase : Phase ι α) : Int :=
  (if phase.isOpen then 1 else 0) + (if phase.counted.isSome then 1 else 0)

/-- Task `x` will not be found ready any more: its counter is spent, or a parent has
an exception without having been submitted. -/
def Blocked (g : PipelineGraph ι α) (s : State ι α) (x : ι) : Prop :=
  s.pendingParents x = 0 ∨
    ∃ y ∈ (g.task x).parents, s.phase y = .idle ∧ s.status y = some false

/-- The result a task has in each phase. -/
def PhaseStatus (g : PipelineGraph ι α) (policy : ErrorPolicy) (t : ι) (status : Option Bool) :
    Phase ι α → Prop
  | .idle => status ≠ some true
  | .running _ => status = none
  | .completed => status ≠ none
  | .failing => status = some false
  | .loop failed _ _ => status = some (!failed) ∧ (policy = .failFast → failed = false)
  | .finished left =>
    status = some true ∧ left = [] ∨
      status = some false ∧ left = if policy = .failFast then g.children t else []

/-- A task the record says failed by itself. -/
def Failed (s : State ι α) (t : ι) : Prop :=
  Event.threw t ∈ s.log ∨ Event.refused t ∈ s.log

def Event.submittedTask : Event ι α → Option ι
  | .submitted t _ => some t
  | _ => none

/-- The tasks submitted so far, in order. -/
def State.submissions (s : State ι α) : List ι := s.log.filterMap Event.submittedTask

structure Inv (g : PipelineGraph ι α) (policy : ErrorPolicy) (source : ι) (s : State ι α) :
    Prop where
  inPlay : ∀ t, s.phase t ≠ .idle → g.Reachable source t
  edges : ∀ t, g.Reachable source t →
    s.pendingParents t = ∑ p, (s.phase p).left g p t
  rest : ∀ t, (s.phase t).undone g t ⊆ g.children t
  hand : ∀ q c, (s.phase q).hand = some c →
    s.pendingParents c = 0 ∧ s.phase c = .idle ∧ c ∈ g.children q
  alone : ∀ q q' c, (s.phase q).hand = some c → (s.phase q').hand = some c → q = q'
  held : ∀ q c, (s.phase q).hand = some c → s.status c = none ∨
    ∃ failed rest, s.phase q = .loop failed rest (.account c)
  accounting : ∀ q failed rest c, s.phase q = .loop failed rest (.account c) →
    s.status c = some false
  played : ∀ t, s.phase t ≠ .idle → t ≠ source → s.pendingParents t = 0
  phases : ∀ t, PhaseStatus g policy t (s.status t) (s.phase t)
  scanned : ∀ q failed rest parents c, s.phase q = .loop failed rest (.scan parents c) →
    parents ⊆ (g.task c).parents ∧
      ∀ p ∈ (g.task c).parents, p ∈ parents ∨ s.status p = some true
  ready : ∀ q c, (s.phase q).ready = some c → ∀ p ∈ (g.task c).parents, s.status p = some true
  valued : ∀ t, s.phase t ≠ .idle → t ≠ source →
    ∀ p ∈ (g.task t).parents, s.status p = some true
  stack : ∀ q, ∀ x ∈ (s.phase q).stack, g.Reachable source x ∧ s.phase x = .idle ∧
    (∀ q', (s.phase q').hand ≠ some x) ∧ Blocked g s x ∧
    ∃ y ∈ (g.task x).parents, s.status y = some false
  out : ∀ x, g.Reachable source x → s.phase x = .idle → s.status x = some false → Blocked g s x
  resolved : ∀ t, g.Reachable source t → s.pendingParents t = 0 → s.phase t ≠ .idle ∨
    s.status t ≠ none ∨ ∃ q, (s.phase q).hand = some t ∨ t ∈ (s.phase q).stack
  nodup : s.submissions.Nodup
  submitted : ∀ t, t ∈ s.submissions ↔ s.phase t ≠ .idle
  cause : ∀ t, s.status t = some false → Failed s t ∨
    ∃ p ∈ (g.task t).parents, s.status p = some false
  failed : ∀ t, Failed s t → s.status t = some false
  counted : s.pendingCount = ∑ t, (s.phase t).weight

section Effect

variable {g : PipelineGraph ι α} {policy : ErrorPolicy} {s s' : State ι α} {t : ι}

omit [Fintype ι] in
theorem Effect.active (e : Effect g policy s s' t) : s.phase t ≠ .idle := by
  cases e <;> simp [*]

omit [Fintype ι] in
/-- A child comes into a call's hand when its counter is spent. -/
theorem Effect.hand (e : Effect g policy s s' t) (q c : ι) (h : (s'.phase q).hand = some c) :
    (s.phase q).hand = some c ∨
      (q = t ∧ s.pendingParents c = 1 ∧ c ∈ (s.phase t).undone g t ∧ s'.pendingParents c = 0 ∧
        ∀ u, s'.status u = s.status u) := by
  cases e <;> obtain ⟨hp, hpp, hc, hs, hl⟩ := (‹Changes _ _ _ _ _ _›).apply <;>
    simp only [Function.update_apply] at hp hpp hs <;> grind [Phase.hand, Action.hand, Phase.undone]

omit [Fintype ι] in
/-- A result is published by the task's own function, for a refused child, or by
marking. -/
theorem Effect.status (e : Effect g policy s s' t) (q : ι) :
    s'.status q = s.status q ∨
      (q = t ∧ ∃ input, s.phase t = .running input) ∨
      (s'.status q = some false ∧ ∃ failed rest, s.phase t = .loop failed rest (.refuse q) ∧
        s'.phase t = .loop failed rest (.account q)) ∨
      (s'.status q = some false ∧ q ∈ (s.phase t).stack) := by
  cases e <;> obtain ⟨hp, hpp, hc, hs, hl⟩ := (‹Changes _ _ _ _ _ _›).apply <;>
    simp only [Function.update_apply] at hp hpp hs <;> grind [Phase.stack, Action.stack]

omit [Fintype ι] in
/-- A task becomes active when it is submitted, by the call that has it in hand. -/
theorem Effect.activated (e : Effect g policy s s' t) (q : ι) (h : s'.phase q ≠ .idle) :
    s.phase q ≠ .idle ∨ ((s.phase t).hand = some q ∧ (s.phase t).ready = some q ∧
      (q ≠ t → (s'.phase t).hand = none)) := by
  cases e <;> obtain ⟨hp, hpp, hc, hs, hl⟩ := (‹Changes _ _ _ _ _ _›).apply <;>
    simp only [Function.update_apply] at hp hpp hs <;>
    grind [Phase.hand, Action.hand, Phase.ready, Action.ready]

omit [Fintype ι] in
theorem Effect.stays_active (e : Effect g policy s s' t) (q : ι) (h : s.phase q ≠ .idle) :
    s'.phase q ≠ .idle := by
  cases e <;> obtain ⟨hp, hpp, hc, hs, hl⟩ := (‹Changes _ _ _ _ _ _›).apply <;>
    simp only [Function.update_apply] at hp hpp hs <;> grind

omit [Fintype ι] in
theorem Effect.others (e : Effect g policy s s' t) (q : ι) (h : q ≠ t) :
    s'.phase q = s.phase q ∨ (s.phase t).hand = some q := by
  cases e <;> obtain ⟨hp, hpp, hc, hs, hl⟩ := (‹Changes _ _ _ _ _ _›).apply <;>
    simp only [Function.update_apply] at hp hpp hs <;> grind [Phase.hand, Action.hand]

omit [Fintype ι] in
/-- A step counts a task off at one child or at none; at the last count the child
comes into the call's hand. -/
theorem Effect.undone (e : Effect g policy s s' t)
    (idle : ∀ c, (s.phase t).hand = some c → s.phase c = .idle) :
    ((∀ q, (s'.phase q).undone g q = (s.phase q).undone g q) ∧
        ∀ q, s'.pendingParents q = s.pendingParents q) ∨
      ∃ c, (s.phase t).undone g t = c :: (s'.phase t).undone g t ∧
        (∀ q, q ≠ t → (s'.phase q).undone g q = (s.phase q).undone g q) ∧
        (∀ q, s'.pendingParents q =
          if q = c then s.pendingParents c - 1 else s.pendingParents q) ∧
        (s.pendingParents c = 1 → (s'.phase t).hand = some c) := by
  cases e <;> obtain ⟨hp, hpp, hc, hs, hl⟩ := (‹Changes _ _ _ _ _ _›).apply <;>
    simp only [Function.update_apply] at hp hpp hs <;> grind [Phase.undone, Phase.hand, Action.hand]

omit [Fintype ι] in
/-- A task comes on a stack with a child in hand that has a failed parent, or as the
child of a task just marked. -/
theorem Effect.stack (e : Effect g policy s s' t) (q x : ι) (h : x ∈ (s'.phase q).stack) :
    x ∈ (s.phase q).stack ∨
      (q = t ∧ ((∃ failed rest parent parents,
          s.phase t = .loop failed rest (.scan (parent :: parents) x) ∧
          s.status parent = some false ∧ (s'.phase t).hand = none) ∨
        ∃ y, x ∈ g.children y ∧ y ∈ (s.phase t).stack ∧ s'.status y = some false)) := by
  cases e <;> obtain ⟨hp, hpp, hc, hs, hl⟩ := (‹Changes _ _ _ _ _ _›).apply <;>
    simp only [Function.update_apply] at hp hpp hs <;>
    grind [Phase.stack, Action.stack, Phase.hand, Action.hand]

end Effect

/-! ## Edges and counters -/

section Graph

variable (g : PipelineGraph ι α)

variable {p c : ι}

omit [Fintype ι] in
theorem mem_children_iff : c ∈ g.children p ↔ p ∈ (g.task c).parents := by
  rw [← List.count_pos_iff, ← List.count_pos_iff, g.edges p c]

omit [Fintype ι] in
theorem ne_of_mem_children (h : c ∈ g.children p) : c ≠ p := by
  rintro rfl
  exact absurd (g.acyclic c c ((mem_children_iff g).mp h)) (lt_irrefl _)

omit [Fintype ι] in
theorem PipelineGraph.Reachable.child {source : ι} (h : g.Reachable source p)
    (hc : c ∈ g.children p) : g.Reachable source c :=
  h.tail hc

omit [Fintype ι] in
variable {g} in
theorem PipelineGraph.Reachable.rank_le (h : g.Reachable p c) : g.rank p ≤ g.rank c := by
  induction h with
  | refl => rfl
  | tail _ edge ih => exact ih.trans (g.acyclic _ _ ((mem_children_iff g).mp edge)).le

omit [Fintype ι] in
/-- No task below the source has the source as a child. -/
theorem PipelineGraph.Reachable.ne_source {source : ι} (h : g.Reachable source p)
    (hc : c ∈ g.children p) : c ≠ source := by
  rintro rfl
  have := h.rank_le
  have := g.acyclic c p ((mem_children_iff g).mp hc)
  omega

end Graph

theorem sum_change (f f' : ι → Int) (t : ι) (h : ∀ q, q ≠ t → f' q = f q) :
    ∑ q, f' q = ∑ q, f q - f t + f' t := by
  rw [← Finset.add_sum_erase _ f (Finset.mem_univ t),
    ← Finset.add_sum_erase _ f' (Finset.mem_univ t),
    Finset.sum_congr rfl fun q hq => h q (Finset.ne_of_mem_erase hq)]
  ring

omit [DecidableEq ι] in
theorem le_sum_of_pos (nonneg : ∀ q, 0 ≤ f q) (t : ι) : f t ≤ ∑ q, f q :=
  Finset.single_le_sum (fun q _ => nonneg q) (Finset.mem_univ t)

theorem add_le_sum_of_ne (nonneg : ∀ q, 0 ≤ f q) {t u : ι} (h : t ≠ u) :
    f t + f u ≤ ∑ q, f q := by
  rw [← Finset.sum_pair h]
  exact Finset.sum_le_sum_of_subset_of_nonneg (Finset.subset_univ _) fun q _ _ => nonneg q

section Step

variable {g : PipelineGraph ι α} {policy : ErrorPolicy} {source : ι} {s s' : State ι α} {t : ι}

omit [Fintype ι] in
theorem left_pos {p c : ι} {phase : Phase ι α} (h : c ∈ phase.undone g p) :
    1 ≤ phase.left g p c := by
  have := List.count_pos_iff.mpr h
  unfold Phase.left
  omega

omit [Fintype ι] in
theorem left_nonneg (g : PipelineGraph ι α) (p c : ι) (phase : Phase ι α) :
    0 ≤ phase.left g p c := by
  unfold Phase.left
  omega

namespace Inv

variable (h : Inv g policy source s)
include h

variable {c : ι} {p q x : ι}

/-- A task with an edge left keeps its counter up. -/
theorem waits (hc : g.Reachable source c) (edge : c ∈ (s.phase p).undone g p) :
    1 ≤ s.pendingParents c := by
  rw [h.edges c hc]
  exact (left_pos edge).trans (le_sum_of_pos (fun q => left_nonneg g q c _) p)

/-- Edges from two tasks keep it up by two. -/
theorem waits_twice {p' : ι} (hc : g.Reachable source c) (ne : p ≠ p')
    (edge : c ∈ (s.phase p).undone g p) (edge' : c ∈ (s.phase p').undone g p') :
    2 ≤ s.pendingParents c := by
  rw [h.edges c hc]
  have := add_le_sum_of_ne (fun q => left_nonneg g q c (s.phase q)) ne
  have := left_pos edge
  have := left_pos edge'
  omega

/-- The parents of a task whose counter is spent all have a result. -/
theorem through (hp : p ∈ (g.task c).parents)
    (spent : c ∉ (s.phase p).undone g p) : ∃ value, s.status p = some value := by
  have child := (mem_children_iff g).mpr hp
  have status := h.phases p
  cases phase : s.phase p with
  | loop failed rest action =>
    rw [phase] at status
    exact ⟨_, status.1⟩
  | finished left =>
    rw [phase] at status
    rcases status with ⟨value, _⟩ | ⟨value, _⟩
    · exact ⟨_, value⟩
    · exact ⟨_, value⟩
  | idle | running input | completed | failing => exact absurd child (by rwa [phase] at spent)

theorem reachable_of_hand (hand : (s.phase q).hand = some c) : g.Reachable source c := by
  have active : s.phase q ≠ .idle := fun idle => by simp [idle, Phase.hand] at hand
  exact (h.inPlay q active).child g (h.hand q c hand).2.2

/-- A task whose parent never runs is neither in play nor in a call's hand. -/
theorem unreached {y : ι} (hy : g.Reachable source y) (child : x ∈ g.children y)
    (idle : s.phase y = .idle) : s.phase x = .idle ∧ ∀ q, (s.phase q).hand ≠ some x := by
  have edge : x ∈ (s.phase y).undone g y := by rw [idle]; exact child
  have waiting := h.waits (hy.child g child) edge
  refine ⟨?_, fun q hand => ?_⟩
  · by_contra active
    have := h.played x active (hy.ne_source g child)
    omega
  · have := (h.hand q x hand).1
    omega

/-- A blocked task is not the one a call finds ready. -/
theorem not_ready_of_blocked (hx : g.Reachable source x) (blocked : Blocked g s x)
    (active : s.phase t ≠ .idle) (edge : x ∈ (s.phase t).undone g t) :
    s.pendingParents x ≠ 1 := by
  rcases blocked with spent | ⟨y, hy, idle, _⟩
  · omega
  · have ne : t ≠ y := fun same => active (same ▸ idle)
    have := h.waits_twice hx ne edge
      (show x ∈ (s.phase y).undone g y by rw [idle]; exact (mem_children_iff g).mpr hy)
    omega

theorem child_idle : ∀ c, (s.phase t).hand = some c → s.phase c = .idle :=
  fun c hand => (h.hand t c hand).2.1

variable (e : Effect g policy s s' t)
include e

theorem spent (hc : g.Reachable source c) (zero : s.pendingParents c = 0) :
    s'.pendingParents c = 0 := by
  rcases e.undone (h.child_idle) with ⟨_, same⟩ | ⟨d, edge, _, counters, _⟩
  · rw [same c, zero]
  · have ne : c ≠ d := by
      rintro rfl
      have := h.waits hc (show c ∈ (s.phase t).undone g t by rw [edge]; simp)
      omega
    rw [counters c, if_neg ne, zero]

/-- A result is never taken back or replaced by one of the other sort. -/
theorem status_mono {value : Bool} (status : s.status q = some value) :
    s'.status q = some value := by
  rcases e.status q with same | ⟨rfl, input, running⟩ | ⟨_, failed, rest, refuse, _⟩ |
    ⟨exception, marked⟩
  · rw [same, status]
  · have := h.phases q
    rw [running] at this
    rw [show s.status q = none from this] at status
    cases status
  · have hand : (s.phase t).hand = some q := by rw [refuse]; rfl
    rcases h.held t q hand with none | ⟨failed', rest', account⟩
    · rw [none] at status
      cases status
    · rw [refuse] at account
      cases account
  · have idle := (h.stack t q marked).2.1
    have := h.phases q
    rw [idle] at this
    cases value with
    | true => exact absurd status this
    | false => exact exception

/-- A blocked task stays blocked. -/
theorem blocked_mono (hx : g.Reachable source x) (blocked : Blocked g s x) :
    Blocked g s' x := by
  rcases blocked with zero | ⟨y, hy, idle, exception⟩
  · exact .inl (h.spent e hx zero)
  · refine .inr ⟨y, hy, ?_, h.status_mono e exception⟩
    by_contra active
    rcases e.activated y active with before | ⟨hand, ready, _⟩
    · exact before idle
    · rcases h.held t y hand with none | ⟨failed, rest, account⟩
      · rw [none] at exception
        cases exception
      · rw [account] at ready
        cases ready

end Inv

end Step

end DFTracer.Tasks
