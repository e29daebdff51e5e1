/-
# What a run promises

Over any run each task is submitted at most once and after its parents, and the pending count
never goes below zero, so a run that has not finished can go on. Two promises need more. Under
CONTINUE a task whose input cannot be prepared gets an exception, but its descendants are left
without a result. Under FAIL_FAST the end of a failed task keeps its own children from being
submitted and those of no other task. `Careful` rules the two out step by step.
-/

import Mathlib.Algebra.BigOperators.Ring.Finset
import DFTracer.Tasks.SchedulerRun

namespace DFTracer.Tasks

variable {ι α : Type} [DecidableEq ι]

/-- Every parent of a task that depends on the source does so, too. -/
def SourceClosed (g : PipelineGraph ι α) (source : ι) : Prop :=
  ∀ t, g.Reachable source t → ∀ p ∈ (g.task t).parents, g.Reachable source p

/-- The call can still submit the child it has found ready. -/
def Action.submitting : Action ι α → Bool
  | .take _ | .read _ _ _ | .release _ _ _ _ | .combine _ _ => true
  | _ => false

def Phase.submitting : Phase ι α → Bool
  | .loop _ _ action => action.submitting
  | _ => false

/-- A call of `on_task_completed` is under way. -/
def Phase.processing : Phase ι α → Bool
  | .completed | .failing | .loop _ _ _ => true
  | _ => false

def Event.isProcessed : Event ι α → Bool
  | .processed _ => true
  | _ => false

/-- The tasks counted in and not yet out: submitted ones, and children that a call has
counted in and is about to submit or to count out. -/
def State.unaccounted [Fintype ι] (s : State ι α) : Finset ι :=
  Finset.univ.filter fun t => (s.phase t).isOpen ∨ ∃ q, (s.phase q).counted = some t

/-- What a run promises of the state it has come to. -/
structure Finishes [Fintype ι] (g : PipelineGraph ι α) (policy : ErrorPolicy) (source : ι)
    (s : State ι α) : Prop where
  once : s.submissions.Nodup
  afterParents : ∀ t ∈ s.submissions, ∀ p ∈ (g.task t).parents, ∃ v, s.result p = some (.value v)
  count : s.pendingCount = s.unaccounted.card
  goesOn : s.pendingCount ≠ 0 → ∃ t s', step g policy s t = some s'
  resolved : policy ≠ .failFast → s.pendingCount = 0 →
    (∀ t, (s.phase t).processing = false) → ∀ t, g.Reachable source t →
      ∃ outcome, s.result t = some outcome ∧
        (outcome.isValue = true ↔ ∀ a, g.Reachable a t → ¬ Failed s a)
  stops : policy = .failFast →
    s.log.Pairwise fun e e' => e.isProcessed = true → e'.submittedTask = none

/-- Under CONTINUE, no task with children is refused for its input. Under FAIL_FAST,
when a failed task is handled no other call is about to submit a child, and from then
on no task is the last one a child waited for. -/
def Careful (g : PipelineGraph ι α) (policy : ErrorPolicy) (s : State ι α) (t : ι) : Prop :=
  match s.phase t with
  | .failing => policy = .failFast → ∀ q, (s.phase q).submitting = false
  | .loop _ (child :: _) .next =>
    policy = .failFast → s.log.any Event.isProcessed = true → s.pendingParents child ≠ 1
  | .loop _ _ (.refuse child) => policy ≠ .failFast → g.children child = []
  | _ => True

/-! ## The start of a run -/

section Start

variable {g : PipelineGraph ι α} {source : ι}

/-- The source depends on nothing. -/
theorem SourceClosed.source_parents (closed : SourceClosed g source) :
    (g.task source).parents = [] := by
  apply List.eq_nil_iff_forall_not_mem.mpr
  intro p hp
  have := (closed source .refl p hp).rank_le
  have := g.acyclic source p hp
  omega

/-- Any other task that depends on it has a parent. -/
theorem parents_ne_nil {t : ι} (h : g.Reachable source t) (ne : t ≠ source) :
    (g.task t).parents ≠ [] := by
  rcases h.cases_tail with same | ⟨p, _, edge⟩
  · exact absurd same.symm (Ne.symm ne)
  · exact List.ne_nil_of_mem ((mem_children_iff g).mp edge)

namespace Initial

variable {input : Value α} {s : State ι α} (i : Initial g source input s)
include i

theorem phase_source : s.phase source = .running ((g.task source).initialInput.getD input) := by
  rw [i.phase, Function.update_self]

theorem phase_other {t : ι} (ne : t ≠ source) : s.phase t = .idle := by
  rw [i.phase, Function.update_of_ne ne]

theorem hand_none (q : ι) : (s.phase q).hand = none := by
  by_cases same : q = source
  · rw [same, i.phase_source]
    rfl
  · rw [i.phase_other same]
    rfl

theorem stack_nil (q : ι) : (s.phase q).stack = [] := by
  by_cases same : q = source
  · rw [same, i.phase_source]
    rfl
  · rw [i.phase_other same]
    rfl

theorem undone_eq (q : ι) : (s.phase q).undone g q = g.children q := by
  by_cases same : q = source
  · rw [same, i.phase_source]
    rfl
  · rw [i.phase_other same]
    rfl

theorem not_loop {q : ι} {failed : Bool} {rest : List ι} {action : Action ι α} :
    s.phase q ≠ .loop failed rest action := by
  by_cases same : q = source
  · rw [same, i.phase_source]
    simp
  · rw [i.phase_other same]
    simp

theorem active_iff {t : ι} : s.phase t ≠ .idle ↔ t = source := by
  by_cases same : t = source
  · simp [same, i.phase_source]
  · simp [same, i.phase_other same]

theorem status_none (t : ι) : s.status t = none := by
  rw [State.status, i.result]
  rfl

theorem not_failed (t : ι) : ¬ Failed s t := by
  simp [Failed, i.log]
end Initial

end Start

section Run

variable [Fintype ι] {g : PipelineGraph ι α} {policy : ErrorPolicy} {source : ι}
  {input : Value α} {condition : State ι α → ι → Prop} {s s' : State ι α}

theorem sum_count (l : List ι) : ∑ c, (l.count c : Int) = l.length := by
  rw [← List.sum_toFinset_count_eq_length, Nat.cast_sum]
  symm
  apply Finset.sum_subset (Finset.subset_univ _)
  intro c _ outside
  rw [List.mem_toFinset] at outside
  rw [List.count_eq_zero_of_not_mem outside, Nat.cast_zero]

theorem Initial.inv (i : Initial g source input s) : Inv g policy source s where
  inPlay t active := by
    rw [i.active_iff.mp active]
    exact .refl
  edges t ht := by
    rw [i.pendingParents t ht, ← sum_count]
    exact Finset.sum_congr rfl fun p _ => by rw [Phase.left, i.undone_eq p, g.edges p t]
  rest t := by rw [i.undone_eq t]; exact List.Subset.refl _
  hand q c hand := by rw [i.hand_none q] at hand; cases hand
  alone q q' c hand := by rw [i.hand_none q] at hand; cases hand
  held q c hand := by rw [i.hand_none q] at hand; cases hand
  accounting q failed rest c account := absurd account i.not_loop
  played t active ne := absurd (i.active_iff.mp active) ne
  phases t := by
    rw [i.status_none t]
    by_cases same : t = source
    · rw [same, i.phase_source]
      rfl
    · rw [i.phase_other same]
      simp [PhaseStatus]
  scanned q failed rest parents c scan := absurd scan i.not_loop
  ready q c ready := by
    by_cases same : q = source
    · rw [same, i.phase_source] at ready
      cases ready
    · rw [i.phase_other same] at ready
      cases ready
  valued t active ne := absurd (i.active_iff.mp active) ne
  stack q x hx := by rw [i.stack_nil q] at hx; cases hx
  out x _ _ exception := by rw [i.status_none x] at exception; cases exception
  resolved t ht zero := by
    left
    rw [i.active_iff]
    by_contra ne
    rw [i.pendingParents t ht, Nat.cast_eq_zero, List.length_eq_zero_iff] at zero
    exact parents_ne_nil ht ne zero
  nodup := by simp [State.submissions, i.log, Event.submittedTask]
  submitted t := by
    rw [i.active_iff]
    simp [State.submissions, i.log, Event.submittedTask]
  cause t exception := by rw [i.status_none t] at exception; cases exception
  failed t failed := absurd failed (i.not_failed t)
  counted := by
    rw [i.pendingCount, Finset.sum_eq_single source]
    · rw [i.phase_source]
      rfl
    · intro q _ ne
      rw [i.phase_other ne]
      rfl
    · simp

/-- The invariant holds in every run, whatever its steps. -/
theorem Reach.inv (run : Reach g policy source input condition s) : Inv g policy source s := by
  induction run with
  | init i => exact i.inv
  | step _ taken _ ih => exact ih.step (step_effect taken)

/-! ## The pending count -/

omit [DecidableEq ι] [Fintype ι] in
theorem Phase.hand_of_counted {phase : Phase ι α} {c : ι} (h : phase.counted = some c) :
    phase.hand = some c := by
  cases phase with
  | loop failed rest action => cases action <;> simp_all [Phase.counted, Phase.hand,
      Action.counted, Action.hand]
  | _ => cases h

namespace Inv

variable (h : Inv g policy source s)
include h

/-- A task is being counted in by one call at most. -/
theorem sum_counted (t : ι) :
    ∑ q, (if (s.phase q).counted = some t then (1 : Int) else 0) =
      if ∃ q, (s.phase q).counted = some t then 1 else 0 := by
  by_cases some : ∃ q, (s.phase q).counted = some t
  · obtain ⟨q, hq⟩ := some
    rw [Finset.sum_eq_single q, if_pos hq, if_pos ⟨q, hq⟩]
    · intro q' _ ne
      apply if_neg
      intro other
      exact ne (h.alone q' q t (Phase.hand_of_counted other) (Phase.hand_of_counted hq))
    · simp
  · rw [if_neg some]
    exact Finset.sum_eq_zero fun q _ => if_neg fun hq => some ⟨q, hq⟩

theorem count_eq : s.pendingCount = s.unaccounted.card := by
  have whole : ∀ q, (if (s.phase q).counted.isSome then (1 : Int) else 0) =
      ∑ t, if (s.phase q).counted = some t then 1 else 0 := by
    intro q
    cases (s.phase q).counted <;> simp
  calc s.pendingCount
      = ∑ t, (if (s.phase t).isOpen then (1 : Int) else 0) +
          ∑ q, ∑ t, if (s.phase q).counted = some t then (1 : Int) else 0 := by
        rw [h.counted, ← Finset.sum_congr rfl fun q _ => whole q, ← Finset.sum_add_distrib]
        rfl
    _ = ∑ t, ((if (s.phase t).isOpen then (1 : Int) else 0) +
          if ∃ q, (s.phase q).counted = some t then 1 else 0) := by
        rw [Finset.sum_comm, Finset.sum_add_distrib]
        exact congrArg _ (Finset.sum_congr rfl fun t _ => h.sum_counted t)
    _ = ∑ t, if (s.phase t).isOpen ∨ ∃ q, (s.phase q).counted = some t then (1 : Int) else 0 := by
        apply Finset.sum_congr rfl
        intro t _
        by_cases counted : ∃ q, (s.phase q).counted = some t
        · obtain ⟨q, hq⟩ := counted
          have idle := (h.hand q t (Phase.hand_of_counted hq)).2.1
          have isOpen : (s.phase t).isOpen = false := by rw [idle]; rfl
          simp [isOpen]
        · simp [counted]
    _ = s.unaccounted.card := by
        rw [State.unaccounted, Finset.card_filter, Nat.cast_sum]
        exact Finset.sum_congr rfl fun t _ => by split <;> rfl

end Inv

section

variable (h : Inv g policy source s)

include h

/-- While something is pending, some task can take a step. -/
theorem Inv.goes_on (pending : s.pendingCount ≠ 0) :
    ∃ t s', DFTracer.Tasks.step g policy s t = some s' := by
  obtain ⟨t, member⟩ : s.unaccounted.Nonempty := by
    rw [← Finset.card_ne_zero]
    intro none
    rw [h.count_eq, none] at pending
    exact pending rfl
  have active : ∃ u, (s.phase u).isOpen ∨ (s.phase u).counted = some t := by
    rcases (Finset.mem_filter.mp member).2 with isOpen | ⟨q, counted⟩
    · exact ⟨t, .inl isOpen⟩
    · exact ⟨q, .inr counted⟩
  obtain ⟨u, active⟩ := active
  refine ⟨u, ?_⟩
  rw [DFTracer.Tasks.step]
  cases phase : s.phase u with
  | idle | finished left =>
    rw [phase] at active
    rcases active with isOpen | counted
    · cases isOpen
    · cases counted
  | running input =>
    dsimp only
    cases (g.task u).func input <;> exact ⟨_, rfl⟩
  | completed =>
    by_cases bad : s.hasException u = true
    · exact ⟨_, if_pos bad⟩
    · exact ⟨_, if_neg bad⟩
  | failing =>
    by_cases fast : policy = .failFast
    · exact ⟨_, if_pos fast⟩
    · exact ⟨_, if_neg fast⟩
  | loop failed rest action => exact ⟨_, rfl⟩

theorem Inv.not_open (none : s.pendingCount = 0) (t : ι) :
    (s.phase t).isOpen = false := by
  have empty : s.unaccounted = ∅ := by
    rw [← Finset.card_eq_zero, ← Int.natCast_eq_zero, ← h.count_eq, none]
  by_contra isOpen
  have member : t ∈ s.unaccounted :=
    Finset.mem_filter.mpr ⟨Finset.mem_univ t, .inl (by simpa using isOpen)⟩
  rw [empty] at member
  exact absurd member (Finset.notMem_empty t)

/-- With nothing pending and no call under way, every task is idle or through. -/
theorem Inv.quiet (none : s.pendingCount = 0)
    (still : ∀ t, (s.phase t).processing = false) (t : ι) :
    s.phase t = .idle ∨ ∃ left, s.phase t = .finished left := by
  have closed := h.not_open none t
  have quiet := still t
  cases phase : s.phase t with
  | idle => exact .inl rfl
  | finished left => exact .inr ⟨left, rfl⟩
  | running input => rw [phase] at closed; cases closed
  | completed | failing | loop failed rest action => rw [phase] at quiet; cases quiet

/-- A task all of whose parents are through with their children has a result then. -/
theorem Inv.settled
    (quiet : ∀ t, s.phase t = .idle ∨ ∃ left, s.phase t = .finished left) {t : ι}
    (ht : g.Reachable source t)
    (parents : ∀ p ∈ (g.task t).parents, s.phase p = .finished []) : s.status t ≠ none := by
  have done : ∀ p, (s.phase p).left g p t = 0 := fun p => by
    rw [Phase.left, Nat.cast_eq_zero, List.count_eq_zero]
    intro edge
    rw [parents p ((mem_children_iff g).mp (h.rest p edge))] at edge
    cases edge
  have zero : s.pendingParents t = 0 := by
    rw [h.edges t ht]
    exact Finset.sum_eq_zero fun p _ => done p
  rcases h.resolved t ht zero with active | status | ⟨q, hand | onStack⟩
  · have status := h.phases t
    rcases quiet t with idle | ⟨left, finished⟩
    · exact absurd idle active
    · rw [finished] at status
      rcases status with ⟨value, _⟩ | ⟨exception, _⟩
      · simp [value]
      · simp [exception]
  · exact status
  · rcases quiet q with idle | ⟨left, finished⟩ <;> simp_all [Phase.hand]
  · rcases quiet q with idle | ⟨left, finished⟩ <;> simp_all [Phase.stack]

/-- A task with an exception is below a failed one, or is one. -/
theorem Inv.failed_above (t : ι) (bad : s.status t = some false) :
    ∃ a, g.Reachable a t ∧ Failed s a := by
  induction hr : g.rank t using Nat.strong_induction_on generalizing t with
  | _ r ih =>
  subst hr
  rcases h.cause t bad with failed | ⟨p, hp, exception⟩
  · exact ⟨t, .refl, failed⟩
  · obtain ⟨a, above, failed⟩ := ih (g.rank p) (g.acyclic t p hp) p exception rfl
    exact ⟨a, above.child g ((mem_children_iff g).mpr hp), failed⟩

end

end Run

end DFTracer.Tasks
