/-
# What a pipeline puts out

`execute` reads the destination, or every leaf, after the run. It is no counted
reader, so a destination whose children have all read it is empty by then. Every
other reader gets what was returned: a result that some task has still to read holds
the value, and so does one without children.
-/

import DFTracer.Tasks.SchedulerResults
import DFTracer.Tasks.SchedulerValueRun

namespace DFTracer.Tasks

variable {ι α : Type} [DecidableEq ι]

/-- The task is the source, or it depends on it and so do all its parents. Every other
task waits for a parent that nobody submits. -/
inductive Runnable (g : PipelineGraph ι α) (source : ι) : ι → Prop
  | source : Runnable g source source
  | task {t : ι} (reachable : g.Reachable source t) (ne : t ≠ source)
      (parents : ∀ p ∈ (g.task t).parents, Runnable g source p) : Runnable g source t

/-- The tasks whose results `execute` puts out: the destination, or the leaves among
the tasks collected from the source. -/
def IsOutput (g : PipelineGraph ι α) (source : ι) (destination : Option ι) (t : ι) : Prop :=
  match destination with
  | some d => t = d
  | none => g.Reachable source t ∧ g.children t = []

/-- What readers are promised in a state of a run: each input was built from what the
parents returned, a result that is still to be read holds what was returned, and with
nothing pending each output is there. -/
structure Delivers (g : PipelineGraph ι α) (source : ι) (destination : Option ι)
    (s : State ι α) : Prop where
  inputs : ∀ c input, .submitted c input ∈ s.log → c ≠ source → BuiltFrom g s c input
  once : ∀ t v v', HasReturned s t v → HasReturned s t v' → v = v'
  kept : ∀ p v, HasReturned s p v → IsOutput g source destination p ∨ (∃ c, p ∈ s.unread c) →
    s.result p = some (.value v)
  output : s.pendingCount = 0 → ∀ t, IsOutput g source destination t →
    ∃ v, HasReturned s t v ∧ s.result t = some (.value v)

/-- Each output is run at all, and either it has no child that reads it away, or some
child of it is never run, or it returned nothing. -/
def Undropped (g : PipelineGraph ι α) (source : ι) (destination : Option ι) (s : State ι α) :
    Prop :=
  ∀ t, IsOutput g source destination t → Runnable g source t ∧
    (g.children t = [] ∨ (∃ c ∈ g.children t, ¬ Runnable g source c) ∨
      ∀ v, HasReturned s t v → v = .empty)

section Run

variable [Fintype ι] {g : PipelineGraph ι α} {policy : ErrorPolicy} {source : ι}
  {input : Value α} {destination : Option ι} {s : State ι α}

theorem Initial.flows (i : Initial g source input s) : Flows g source s where
  ran t v returned := by simp [HasReturned, i.log] at returned
  made t v returned := by simp [HasReturned, i.log] at returned
  once t v v' returned := by simp [HasReturned, i.log] at returned
  result t w result := by rw [i.result] at result; cases result
  readers p := by
    rw [i.pendingReaders, i.unread, PipelineGraph.readers, ← sum_count]
    exact Finset.sum_congr rfl fun c _ => by rw [g.edges p c]
  prepared q failed rest action loop := absurd loop i.not_loop
  fresh c _ _ := by rw [i.unread]
  spent c active ne := absurd (i.active_iff.mp active) ne
  inputs c input submitted ne := by
    rw [i.log, List.mem_singleton] at submitted
    cases submitted
    exact absurd rfl ne

/-- The invariant of values holds in every run in which nothing has failed. -/
theorem Reach.flows (run : Reach g policy source input (fun _ _ => True) s)
    (clean : ∀ u, ¬ Failed s u) : Flows g source s := by
  induction run with
  | init i => exact i.flows
  | step before taken _ ih =>
    have e := step_effect taken
    have earlier : ∀ u, ¬ Failed _ u := fun u failed => clean u (Inv.failed_mono e failed)
    exact (ih earlier).step (step_flow taken) clean (before.inv.fine earlier) before.inv e

omit [Fintype ι] in
theorem Reach.source_active (run : Reach g policy source input (fun _ _ => True) s) :
    s.phase source ≠ .idle := by
  induction run with
  | init i => exact i.active_iff.mpr rfl
  | step _ taken _ ih => exact (step_effect taken).stays_active _ ih

section

variable (h : Inv g policy source s)

include h

theorem Inv.active_of_value {t : ι} (value : s.status t = some true) :
    s.phase t ≠ .idle := by
  intro idle
  have status := h.phases t
  rw [idle] at status
  exact status value

/-- Only tasks all of whose parents are submitted are submitted. -/
theorem Inv.runnable_of_active (t : ι) (active : s.phase t ≠ .idle) :
    Runnable g source t := by
  induction hr : g.rank t using Nat.strong_induction_on generalizing t with
  | _ r ih =>
  subst hr
  by_cases isSource : t = source
  · rw [isSource]
    exact .source
  · refine .task (h.inPlay t active) isSource fun p hp => ?_
    exact ih (g.rank p) (g.acyclic t p hp) p (h.active_of_value (h.valued t active isSource p hp))
      rfl

theorem Inv.runnable_of_preparing {q c : ι}
    (preparing : (s.phase q).preparing = some c) : Runnable g source c := by
  obtain ⟨ready, hand⟩ := Phase.ready_of_preparing preparing
  have active : s.phase q ≠ .idle := fun idle => by rw [idle] at hand; cases hand
  refine .task (h.reachable_of_hand hand) ?_ fun p hp => ?_
  · exact (h.inPlay q active).ne_source g (h.hand q c hand).2.2
  · exact h.runnable_of_active p (h.active_of_value (h.ready q c ready p hp))

/-- With nothing pending a clean run is over. -/
theorem Inv.over (fine : Fine s) (none : s.pendingCount = 0) (t : ι) :
    s.phase t = .idle ∨ s.phase t = .finished [] := by
  have closed := h.not_open none t
  have status := h.phases t
  have good := fine.status t
  cases phase : s.phase t with
  | idle => exact .inl rfl
  | finished left =>
    rw [phase] at status
    rcases status with ⟨_, done⟩ | ⟨bad, _⟩
    · rw [done]
      exact .inr rfl
    · exact absurd bad good
  | loop failed rest action =>
    rw [phase] at status closed
    cases failed with
    | false => cases closed
    | true => exact absurd status.1 good
  | running input | completed | failing => rw [phase] at closed; cases closed

/-- Every task that can run has run then. -/
theorem Inv.finished_of_runnable (fine : Fine s)
    (none : s.pendingCount = 0) (started : s.phase source ≠ .idle) {t : ι}
    (fed : Runnable g source t) : s.phase t = .finished [] := by
  induction fed with
  | source => exact (h.over fine none source).resolve_left started
  | task reachable ne parents ih =>
    rename_i t
    refine (h.over fine none t).resolve_left (h.active_of_value ?_)
    have settled := h.settled (fun u => (h.over fine none u).imp_right fun done => ⟨[], done⟩)
      reachable ih
    obtain ⟨value, hv⟩ := Option.ne_none_iff_exists'.mp settled
    cases value with
    | true => exact hv
    | false => exact absurd hv (fine.status t)

end

namespace Flows

variable (v : Flows g source s)
include v

section

variable (h : Inv g policy source s)

include h

/-- A task that has returned has a value, the one it returned or an empty one. -/
theorem value_of_returned (fine : Fine s) {p : ι} {w : Value α}
    (returned : HasReturned s p w) : s.result p = some (.value
      (if s.pendingReaders p = 0 ∧ g.children p ≠ [] then .empty else w)) := by
  have status := h.phases p
  have ran := v.ran p w returned
  have some : s.status p ≠ none := by
    cases phase : s.phase p with
    | idle | running input => rw [phase] at ran; cases ran
    | completed => rw [phase] at status; exact status
    | failing => rw [phase] at status; rw [show s.status p = _ from status]; simp
    | loop failed rest action => rw [phase] at status; rw [status.1]; simp
    | finished left =>
      rw [phase] at status
      rcases status with ⟨value, _⟩ | ⟨value, _⟩
      · rw [value]; simp
      · rw [value]; simp
  obtain ⟨value, hv⟩ := Option.ne_none_iff_exists'.mp some
  cases value with
  | false => exact absurd hv (fine.status p)
  | true =>
    obtain ⟨x, result⟩ := value_of_status hv
    obtain ⟨w', returned', same⟩ := v.result p x result
    rw [result, same, v.once p w w' returned returned']

/-- A child that is never run reads nothing. -/
theorem readers_of_unrunnable {p c : ι} (child : c ∈ g.children p)
    (unfed : ¬ Runnable g source c) : s.pendingReaders p ≠ 0 := by
  have fresh := v.fresh c
    (.inl (by
      by_contra active
      exact unfed (h.runnable_of_active c active)))
    fun q preparing => unfed (h.runnable_of_preparing preparing)
  refine v.readers_pos (c := c) ?_
  rw [fresh]
  exact (mem_children_iff g).mp child

/-- At the end every child that is run has read a parent with an output. -/
theorem no_readers (fine : Fine s) (none : s.pendingCount = 0)
    (started : s.phase source ≠ .idle) {p : ι} (ran : g.Reachable source p)
    (all : ∀ c ∈ g.children p, Runnable g source c) (output : (g.task p).outputType ≠ .void) :
    s.pendingReaders p = 0 := by
  rw [v.readers p]
  refine Finset.sum_eq_zero fun c _ => ?_
  rw [Nat.cast_eq_zero, List.count_eq_zero]
  by_cases child : c ∈ g.children p
  · have done := h.finished_of_runnable fine none started (all c child)
    have reads : g.readsParents c = true := by
      by_contra not
      exact output ((not_readsParents (by simpa using not)).2.2 p ((mem_children_iff g).mp child))
    rw [v.spent c (by rw [done]; simp) (ran.ne_source g child), if_pos reads]
    simp
  · have within : s.unread c ⊆ (g.task c).parents := by
      by_cases idle : s.phase c = .idle ∨ c = source
      · rw [v.fresh c idle fun q preparing => ?_]
        · exact List.Subset.refl _
        · rcases h.over fine none q with idle | done <;> simp_all [Phase.preparing]
      · rw [not_or] at idle
        rw [v.spent c idle.1 idle.2]
        by_cases reads : g.readsParents c = true
        · rw [if_pos reads]
          exact List.nil_subset _
        · rw [if_neg reads]
          exact List.Subset.refl _
    exact fun member => child ((mem_children_iff g).mpr (within member))

end

end Flows

/-- In every run in which nothing fails, each state keeps the promises if the outputs
are undropped, and the last one keeps them only if they are. -/
theorem delivers_iff_undropped (run : Reach g policy source input (fun _ _ => True) s)
    (clean : ∀ t, ¬ Failed s t) :
    (Undropped g source destination s → Delivers g source destination s) ∧
      (s.pendingCount = 0 → Delivers g source destination s →
        Undropped g source destination s) := by
  have h := run.inv
  have v := run.flows clean
  have fine := h.fine clean
  have started := run.source_active
  constructor
  · intro undropped
    have kept : ∀ p w, HasReturned s p w → IsOutput g source destination p ∨ (∃ c, p ∈ s.unread c) →
        s.result p = some (.value w) := by
      intro p w returned reader
      rw [v.value_of_returned h fine returned]
      by_cases gone : s.pendingReaders p = 0 ∧ g.children p ≠ []
      · rcases reader with output | ⟨c, unread⟩
        · rcases (undropped p output).2 with none | ⟨c, child, unfed⟩ | empty
          · exact absurd none gone.2
          · exact absurd gone.1 (v.readers_of_unrunnable h child unfed)
          · rw [if_pos gone, empty w returned]
        · exact absurd gone.1 (v.readers_pos unread)
      · rw [if_neg gone]
    refine ⟨v.inputs, v.once, kept, fun none t output => ?_⟩
    have finished := h.finished_of_runnable fine none started (undropped t output).1
    have status := h.phases t
    rw [finished] at status
    rcases status with ⟨value, _⟩ | ⟨bad, _⟩
    · obtain ⟨x, result⟩ := value_of_status value
      obtain ⟨w, returned, _⟩ := v.result t x result
      exact ⟨w, returned, kept t w returned (.inl output)⟩
    · exact absurd bad (fine.status t)
  · intro none delivers t output
    obtain ⟨w, returned, result⟩ := delivers.output none t output
    have active : s.phase t ≠ .idle := fun idle => by
      have ran := v.ran t w returned
      rw [idle] at ran
      cases ran
    refine ⟨h.runnable_of_active t active, ?_⟩
    by_contra dropped
    rw [not_or, not_or] at dropped
    obtain ⟨children, all, nonempty⟩ := dropped
    have fed : ∀ c ∈ g.children t, Runnable g source c := fun c child => by
      by_contra unfed
      exact all ⟨c, child, unfed⟩
    apply nonempty
    intro w' returned'
    rw [v.once t w' w returned' returned]
    by_cases void : (g.task t).outputType = .void
    · obtain ⟨input, out⟩ := v.made t w returned
      exact g.void_returns t input w void out
    · have zero := v.no_readers h fine none started (h.inPlay t active) fed void
      have held := v.value_of_returned h fine returned
      rw [if_pos ⟨zero, children⟩, result] at held
      cases held
      rfl

end Run

section Examples

/-- The chain run to its end from the number seven. -/
theorem chain_run : (run (chain (some .empty)) .continue (fun _ _ => true)
      ((chain (some .empty)).scheduled .first (.plain 0 7))
      (List.replicate 11 .first ++ List.replicate 11 .second ++ List.replicate 3 .third)).map
        (fun s => (s.result .first, s.log, s.pendingCount)) =
    some (some (.value .empty),
      [.submitted .first (.plain 0 7), .returned .first (.plain 0 7), .submitted .second .empty,
        .returned .second .empty, .submitted .third .empty, .returned .third .empty], 0) := by
  rfl

/-- The state it ends in. -/
theorem chain_end :
    ∃ s, Reach (chain (some .empty)) .continue .first (.plain 0 7) (fun _ _ => True) s ∧
      s.result .first = some (.value .empty) ∧ HasReturned s .first (.plain 0 7) ∧
      s.pendingCount = 0 ∧ ∀ t, ¬ Failed s t := by
  obtain ⟨s, taken, facts⟩ := Option.map_eq_some_iff.mp chain_run
  simp only [Prod.mk.injEq] at facts
  obtain ⟨result, log, none⟩ := facts
  refine ⟨s, reach_of_run (fun _ _ _ => trivial) (.init (scheduled_initial _ _ _)) taken, result,
    ?_, none, ?_⟩
  · simp [HasReturned, log]
  · simp [Failed, log]

/-- With the source as the destination its value is gone when `execute` reads it. -/
theorem source_not_delivered :
    ∃ s, Reach (chain (some .empty)) .continue .first (.plain 0 7) (fun _ _ => True) s ∧
      (∀ t, ¬ Failed s t) ∧ ¬ Delivers (chain (some .empty)) .first (some .first) s := by
  obtain ⟨s, reach, result, returned, _, clean⟩ := chain_end
  refine ⟨s, reach, clean, fun delivers => ?_⟩
  have kept := delivers.kept .first _ returned (.inl rfl)
  rw [result] at kept
  cases kept

theorem chain_runnable (t : Link) : Runnable (chain (some .empty)) .first t := by
  have first : Runnable (chain (some .empty)) .first .first := .source
  have second : Runnable (chain (some .empty)) .first .second := by
    refine .task (Relation.ReflTransGen.refl.tail List.mem_cons_self) Link.noConfusion fun p hp => ?_
    rw [List.mem_singleton.mp hp]
    exact first
  cases t with
  | first => exact first
  | second => exact second
  | third =>
    refine .task (chain_reachable _) Link.noConfusion fun p hp => ?_
    rw [List.mem_singleton.mp hp]
    exact second

/-- The leaf is delivered, and the source as a destination is not. -/
theorem chain_delivered :
    ∃ s, Delivers (chain (some .empty)) .first (some .third) s ∧
      ¬ Undropped (chain (some .empty)) .first (some .first) s ∧ s.pendingCount = 0 := by
  obtain ⟨s, reach, result, returned, none, clean⟩ := chain_end
  refine ⟨s, (delivers_iff_undropped reach clean).1 ?_, fun undropped => ?_, none⟩
  · rintro t rfl
    exact ⟨chain_runnable _, .inl rfl⟩
  · have delivers := (delivers_iff_undropped reach clean).1 undropped
    have kept := delivers.kept .first _ returned (.inl rfl)
    rw [result] at kept
    cases kept

end Examples

end DFTracer.Tasks
