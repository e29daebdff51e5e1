/-
# Runs that finish

Two more invariants hold where every step is careful. Under CONTINUE an exception
spreads: the children of a task that never ran have a result or are on a stack.
Under FAIL_FAST nothing is submitted once a failed task is processed. Without care
neither holds, and two runs of three and of four tasks show it.
-/

import DFTracer.Tasks.SchedulerFinish

namespace DFTracer.Tasks

open List

variable {ι α : Type} [DecidableEq ι]

/-- The children of a task that has an exception and never ran are marked or on a
stack. -/
def Spread (g : PipelineGraph ι α) (s : State ι α) : Prop :=
  ∀ y, s.phase y = .idle → s.status y = some false → ∀ d ∈ g.children y,
    s.status d ≠ none ∨ ∃ q, d ∈ (s.phase q).stack

/-- Nothing is submitted after a failed task was processed, and nothing will be. -/
structure Halted (s : State ι α) : Prop where
  scans : ∀ q failed rest parents child, s.phase q ≠ .loop failed rest (.scan parents child)
  halted : s.log.any Event.isProcessed = true → ∀ q, (s.phase q).submitting = false
  order : s.log.Pairwise fun e e' => e.isProcessed = true → e'.submittedTask = none

section Step

variable {g : PipelineGraph ι α} {policy : ErrorPolicy} {source : ι} {s s' : State ι α} {t : ι}

/-- Where an exception of a task comes from: from before, from its own function, from
a refusal, or from marking, which puts the children on the stack. -/
theorem Effect.exception (e : Effect g policy s s' t) (y : ι) (bad : s'.status y = some false) :
    s.status y = some false ∨ y = t ∨
      (∃ failed rest, s.phase t = .loop failed rest (.refuse y)) ∨
      g.children y ⊆ (s'.phase t).stack := by
  cases e <;> obtain ⟨hp, hpp, hc, hs, hl⟩ := (‹Changes _ _ _ _ _ _›).apply <;>
    simp only [Function.update_apply] at hp hpp hs <;>
    grind [Phase.stack, Action.stack, subset_append_left]

section

variable (careful : Careful g policy s t)

include careful

theorem Careful.refuse (slow : policy ≠ .failFast)
    {failed : Bool} {rest : List ι} {child : ι}
    (h : s.phase t = .loop failed rest (.refuse child)) : g.children child = [] := by
  rw [Careful, h] at careful
  cases rest with
  | nil | cons next rest => exact careful slow

theorem Careful.failing (fast : policy = .failFast)
    (h : s.phase t = .failing) : ∀ q, (s.phase q).submitting = false := by
  rw [Careful, h] at careful
  exact careful fast

theorem Careful.last (fast : policy = .failFast)
    {failed : Bool} {rest : List ι} {child : ι}
    (h : s.phase t = .loop failed (child :: rest) .next)
    (processed : s.log.any Event.isProcessed = true) : s.pendingParents child ≠ 1 := by
  rw [Careful, h] at careful
  exact careful fast processed

end

theorem spread_step [Fintype ι] (h : Inv g policy source s) (e : Effect g policy s s' t)
    (careful : Careful g policy s t) (slow : policy ≠ .failFast) (spread : Spread g s) :
    Spread g s' := by
  intro y idle bad d hd
  have was : s.phase y = .idle := by
    by_contra active
    exact e.stays_active y active idle
  rcases e.exception y bad with before | rfl | ⟨failed, rest, refuse⟩ | marked
  · rcases spread y was before d hd with status | ⟨q, onStack⟩
    · obtain ⟨value, hv⟩ := Option.ne_none_iff_exists'.mp status
      left
      rw [h.status_mono e hv]
      simp
    · rcases h.stack_next e onStack with onStack | status
      · exact .inr ⟨q, onStack⟩
      · exact .inl status
  · exact absurd was e.active
  · rw [careful.refuse slow refuse] at hd
    cases hd
  · exact .inr ⟨t, marked hd⟩

section

variable (e : Effect g policy s s' t)

include e

/-- The record grows by one event at most; a submission comes from a call that could
submit. -/
theorem Effect.log : s'.log = s.log ∨
    ∃ event, s'.log = s.log ++ [event] ∧
      (event.submittedTask ≠ none → (s.phase t).submitting = true) ∧
      (event.isProcessed = true → s.phase t = .failing ∨
        ∃ rest action, s.phase t = .loop true rest action) := by
  cases e <;> obtain ⟨hp, hpp, hc, hs, hl⟩ := (‹Changes _ _ _ _ _ _›).apply
  case ran input value event before recorded changes =>
    refine .inr ⟨event, hl, ?_⟩
    cases value with
    | true =>
      obtain ⟨v, rfl⟩ := recorded
      simp [Event.submittedTask, Event.isProcessed]
    | false =>
      rw [recorded]
      simp [Event.submittedTask, Event.isProcessed]
  case stopped => exact .inr ⟨_, hl, by simp [Event.submittedTask], fun _ => .inl ‹_›⟩
  case finishedFailed =>
    exact .inr ⟨_, hl, by simp [Event.submittedTask], fun _ => .inr ⟨_, _, ‹_›⟩⟩
  case submitted before changes =>
    exact .inr ⟨_, hl, fun _ => by rw [before]; rfl, by simp [Event.isProcessed]⟩
  case refused =>
    exact .inr ⟨_, hl, by simp [Event.submittedTask], by simp [Event.isProcessed]⟩
  all_goals exact .inl hl

/-- A call comes to submit by finding a child ready, or by the scan of one. -/
theorem Effect.submitting (q : ι)
    (h : (s'.phase q).submitting = true) : (s.phase q).submitting = true ∨
      (∃ failed rest child, s.phase q = .loop failed rest (.scan [] child)) ∨
      (q = t ∧ ∃ failed child rest, s.phase t = .loop failed (child :: rest) .next ∧
        s.pendingParents child = 1) := by
  cases e
  case prepared failed child rest action action' before going hand counted ready stack hand'
      counted' ready' stack' changes =>
    left
    by_cases same : q = t
    · cases action <;> simp_all [Action.hand, Action.counted, Action.ready, Phase.submitting,
        Action.submitting]
    · rw [changes.phase, Function.update_of_ne same] at h
      exact h
  all_goals
    obtain ⟨hp, hpp, hc, hs, hl⟩ := (‹Changes _ _ _ _ _ _›).apply
    grind [Phase.submitting, Action.submitting, Action.ready]

theorem Effect.scans (fast : policy = .failFast)
    (none : ∀ q failed rest parents child, s.phase q ≠ .loop failed rest (.scan parents child)) :
    ∀ q failed rest parents child, s'.phase q ≠ .loop failed rest (.scan parents child) := by
  intro q
  by_cases same : q = t
  · cases e <;> obtain ⟨hp, hpp, hc, hs, hl⟩ := (‹Changes _ _ _ _ _ _›).apply <;>
      simp only [Function.update_apply] at hp hpp hs <;> grind [Action.ready]
  · cases e <;> obtain ⟨hp, hpp, hc, hs, hl⟩ := (‹Changes _ _ _ _ _ _›).apply <;>
      simp only [Function.update_apply] at hp hpp hs <;> grind

end

theorem halted_step [Fintype ι] (h : Inv g policy source s) (e : Effect g policy s s' t)
    (careful : Careful g policy s t) (fast : policy = .failFast) (halted : Halted s) :
    Halted s' := by
  have notFailed : ∀ rest action, s.phase t ≠ .loop true rest action := by
    intro rest action loop
    have status := h.phases t
    rw [loop] at status
    cases status.2 fast
  -- when a failed task is processed, or was before, no call can submit
  have still : s'.log.any Event.isProcessed = true → ∀ q, (s.phase q).submitting = false := by
    intro processed
    rcases e.log with same | ⟨event, grown, _, source⟩
    · exact halted.halted (same ▸ processed)
    · rw [grown, any_append, Bool.or_eq_true] at processed
      rcases processed with before | now
      · exact halted.halted before
      · rcases source (by simpa using now) with failing | ⟨rest, action, loop⟩
        · exact careful.failing fast failing
        · exact absurd loop (notFailed rest action)
  refine ⟨e.scans fast halted.scans, fun processed q => ?_, ?_⟩
  · by_contra submits
    rcases e.submitting q (by simpa using submits) with before | ⟨failed, rest, child, scan⟩ |
      ⟨rfl, failed, child, rest, next, last⟩
    · rw [still processed q] at before
      cases before
    · exact halted.scans q failed rest [] child scan
    · refine careful.last fast next ?_ last
      rcases e.log with same | ⟨event, grown, _, source⟩
      · exact same ▸ processed
      · rw [grown, any_append, Bool.or_eq_true] at processed
        rcases processed with before | now
        · exact before
        · rcases source (by simpa using now) with failing | ⟨rest', action, loop⟩
          · rw [failing] at next
            cases next
          · exact absurd loop (notFailed rest' action)
  · rcases e.log with same | ⟨event, grown, submission, _⟩
    · rw [same]
      exact halted.order
    · rw [grown, pairwise_append]
      refine ⟨halted.order, pairwise_singleton _ _, ?_⟩
      intro earlier member later only processed
      rw [mem_singleton] at only
      subst only
      by_contra submitted
      have := halted.halted (any_eq_true.mpr ⟨earlier, member, processed⟩) t
      rw [submission submitted] at this
      cases this

end Step

section Run

variable [Fintype ι] {g : PipelineGraph ι α} {policy : ErrorPolicy} {source : ι}
  {input : Value α} {s : State ι α}

theorem Reach.spread (slow : policy ≠ .failFast)
    (run : Reach g policy source input (Careful g policy) s) : Spread g s := by
  induction run with
  | init i =>
    intro y _ bad
    rw [i.status_none y] at bad
    cases bad
  | step before taken careful ih =>
    exact spread_step (before.inv) (step_effect taken) careful slow ih

theorem Reach.halted (fast : policy = .failFast)
    (run : Reach g policy source input (Careful g policy) s) : Halted s := by
  induction run with
  | init i =>
    refine ⟨fun q failed rest parents child => i.not_loop, ?_, ?_⟩
    · simp [i.log, Event.isProcessed]
    · rw [i.log]
      exact pairwise_singleton _ _
  | step before taken careful ih =>
    exact halted_step (before.inv) (step_effect taken) careful fast ih

/-- At the end every task that depends on the source has a result. The induction goes
along the rank: all the parents have one, and either all of them ran and the counter
of the task is spent, or one never ran and its exception has spread. -/
theorem Inv.all_resolved (h : Inv g policy source s) (closed : SourceClosed g source)
    (slow : policy ≠ .failFast) (spread : Spread g s)
    (quiet : ∀ t, s.phase t = .idle ∨ ∃ left, s.phase t = .finished left) (t : ι)
    (ht : g.Reachable source t) : s.status t ≠ none := by
  induction hr : g.rank t using Nat.strong_induction_on generalizing t with
  | _ r ih =>
  subst hr
  have parents : ∀ p ∈ (g.task t).parents, s.status p ≠ none := fun p hp =>
    ih (g.rank p) (g.acyclic t p hp) p (closed t ht p hp) rfl
  by_cases all : ∀ p ∈ (g.task t).parents, s.phase p ≠ .idle
  · refine h.settled quiet ht fun p hp => ?_
    rcases quiet p with idle | ⟨left, finished⟩
    · exact absurd idle (all p hp)
    · have status := h.phases p
      rw [finished] at status
      rcases status with ⟨_, none⟩ | ⟨_, kept⟩
      · rw [finished, none]
      · rw [finished, kept, if_neg slow]
  · push Not at all
    obtain ⟨p, hp, idle⟩ := all
    have bad : s.status p = some false := by
      obtain ⟨value, hv⟩ := Option.ne_none_iff_exists'.mp (parents p hp)
      cases value with
      | false => exact hv
      | true =>
        have status := h.phases p
        rw [idle] at status
        exact absurd hv status
    rcases spread p idle bad t ((mem_children_iff g).mpr hp) with status | ⟨q, onStack⟩
    · exact status
    · rcases quiet q with idle | ⟨left, finished⟩ <;> simp_all [Phase.stack]

omit [DecidableEq ι] [Fintype ι] in
theorem status_eq_some {s : State ι α} {t : ι} {value : Bool} :
    s.status t = some value ↔ ∃ outcome, s.result t = some outcome ∧ outcome.isValue = value := by
  rw [State.status, Option.map_eq_some_iff]

/-- A task below a failed one does not get a value. -/
theorem Inv.not_value (h : Inv g policy source s) (closed : SourceClosed g source) {a t : ι}
    (below : g.Reachable a t)
    (failed : Failed s a) : s.status t ≠ some true := by
  induction below with
  | refl =>
    rw [h.failed a failed]
    simp
  | tail _ edge ih =>
    rename_i p c _
    intro value
    have active : s.phase c ≠ .idle := fun idle => by
      have status := h.phases c
      rw [idle] at status
      exact status value
    have parent := (mem_children_iff g).mp edge
    have ne : c ≠ source := by
      rintro rfl
      rw [closed.source_parents] at parent
      cases parent
    exact ih (h.valued c active ne p parent)

/-- In a run of careful steps every promise is kept in every state. -/
theorem finishes_of_careful (closed : SourceClosed g source)
    (run : Reach g policy source input (Careful g policy) s) : Finishes g policy source s := by
  have h := run.inv
  refine ⟨h.nodup, ?_, h.count_eq, h.goes_on, ?_, fun fast => (run.halted fast).order⟩
  · intro t ht p hp
    have ne : t ≠ source := by
      rintro rfl
      rw [closed.source_parents] at hp
      cases hp
    obtain ⟨outcome, result, value⟩ :=
      status_eq_some.mp (h.valued t ((h.submitted t).mp ht) ne p hp)
    cases outcome with
    | value v => exact ⟨v, result⟩
    | exception => cases value
  · intro slow nothing still t ht
    have status := h.all_resolved closed slow (run.spread slow)
      (h.quiet nothing still) t ht
    obtain ⟨value, hv⟩ := Option.ne_none_iff_exists'.mp status
    obtain ⟨outcome, result, sort⟩ := status_eq_some.mp hv
    refine ⟨outcome, result, ?_, ?_⟩
    · intro good a above failed
      rw [good] at sort
      exact h.not_value closed above failed (sort ▸ hv)
    · intro clean
      by_contra bad
      rw [Bool.not_eq_true] at bad
      rw [bad] at sort
      obtain ⟨a, above, failed⟩ := h.failed_above t (sort ▸ hv)
      exact clean a above failed

end Run

/-! ## Two runs that do not -/

section Examples

/-- The state in which `schedule` hands the source to the executor. -/
def PipelineGraph.scheduled (g : PipelineGraph ι α) (source : ι) (input : Value α) : State ι α where
  result := fun _ => none
  pendingParents := fun t => (g.task t).parents.length
  pendingReaders := g.readers
  pendingCount := 1
  hasError := false
  phase := Function.update (fun _ => .idle) source
    (.running ((g.task source).initialInput.getD input))
  unread := fun t => (g.task t).parents
  log := [.submitted source ((g.task source).initialInput.getD input)]

theorem scheduled_initial (g : PipelineGraph ι α) (source : ι) (input : Value α) :
    Initial g source input (g.scheduled source input) :=
  ⟨rfl, fun _ _ => rfl, rfl, rfl, rfl, rfl, rfl, rfl⟩

/-- Steps of these tasks, one after the other, where the condition is met. -/
def run (g : PipelineGraph ι α) (policy : ErrorPolicy) (condition : State ι α → ι → Bool) :
    State ι α → List ι → Option (State ι α)
  | s, [] => some s
  | s, t :: ts =>
    if condition s t then (step g policy s t).bind fun s' => run g policy condition s' ts
    else none

variable {g : PipelineGraph ι α}

theorem reach_of_run {policy : ErrorPolicy} {source : ι} {input : Value α}
    {condition : State ι α → ι → Prop} {check : State ι α → ι → Bool}
    (sound : ∀ s t, check s t = true → condition s t) {ts : List ι} {s s' : State ι α}
    (reach : Reach g policy source input condition s) (h : run g policy check s ts = some s') :
    Reach g policy source input condition s' := by
  induction ts generalizing s with
  | nil =>
    rw [run, Option.some.injEq] at h
    exact h ▸ reach
  | cons t ts ih =>
    rw [run] at h
    by_cases meets : check s t = true
    · rw [if_pos meets] at h
      obtain ⟨next, taken, rest⟩ := Option.bind_eq_some_iff.mp h
      exact ih (reach.step taken (sound s t meets)) rest
    · rw [if_neg meets] at h
      cases h

/-- A task that hands its input on. -/
def relay (parents : List ι) (inputCombiner : Option (List (Value α) → Option (Value α))) :
    Task ι α where
  parents := parents
  inputType := .any
  outputType := .any
  inputCombiner := inputCombiner
  func := some

/-- Three tasks one after the other; the combiner of the second may throw. -/
inductive Link
  | first
  | second
  | third
deriving DecidableEq

theorem Link.mem_all (t : Link) : t ∈ [Link.first, .second, .third] := by
  cases t <;> simp

instance : Fintype Link := Fintype.ofList [.first, .second, .third] Link.mem_all

def Link.task (combined : Option (Value Nat)) : Link → Task Link Nat
  | .first => relay [] none
  | .second => relay [.first] (some fun _ => combined)
  | .third => relay [.second] none

def Link.children : Link → List Link
  | .first => [.second]
  | .second => [.third]
  | .third => []

def Link.rank : Link → Nat
  | .first => 0
  | .second => 1
  | .third => 2

section

variable (combined : Option (Value Nat))

include combined

theorem Link.edges (p c : Link) :
    p.children.count c = (c.task combined).parents.count p := by
  cases p <;> cases c <;> rfl

theorem Link.acyclic (c p : Link)
    (parent : p ∈ (c.task combined).parents) : p.rank < c.rank := by
  cases c with
  | first => cases parent
  | second =>
    rw [mem_singleton.mp parent]
    exact Nat.zero_lt_one
  | third =>
    rw [mem_singleton.mp parent]
    exact Nat.one_lt_two

theorem Link.outputType (t : Link) :
    (t.task combined).outputType ≠ .void := by
  cases t <;> exact TypeIndex.noConfusion

end

def chain (combined : Option (Value Nat)) : PipelineGraph Link Nat where
  task := Link.task combined
  children := Link.children
  edges := Link.edges combined
  rank := Link.rank
  acyclic := Link.acyclic combined
  void_returns t _ _ void := absurd void (Link.outputType combined t)

/-- Two children of the source, of which one throws and the other has a child. -/
inductive Prong
  | source
  | throws
  | works
  | last
deriving DecidableEq

theorem Prong.mem_all (t : Prong) : t ∈ [Prong.source, .throws, .works, .last] := by
  cases t <;> simp

instance : Fintype Prong := Fintype.ofList [.source, .throws, .works, .last] Prong.mem_all

def Prong.task : Prong → Task Prong Nat
  | .source => relay [] none
  | .throws => { relay [.source] none with func := fun _ => none }
  | .works => relay [.source] none
  | .last => relay [.works] none

def Prong.children : Prong → List Prong
  | .source => [.throws, .works]
  | .throws => []
  | .works => [.last]
  | .last => []

def Prong.rank : Prong → Nat
  | .source => 0
  | .throws => 1
  | .works => 1
  | .last => 2

theorem Prong.edges (p c : Prong) : p.children.count c = c.task.parents.count p := by
  cases p <;> cases c <;> rfl

theorem Prong.acyclic (c p : Prong) (parent : p ∈ c.task.parents) : p.rank < c.rank := by
  cases c with
  | source => cases parent
  | throws | works =>
    rw [mem_singleton.mp parent]
    exact Nat.zero_lt_one
  | last =>
    rw [mem_singleton.mp parent]
    exact Nat.one_lt_two

theorem Prong.outputType (t : Prong) : t.task.outputType ≠ .void := by
  cases t <;> exact TypeIndex.noConfusion

def fork : PipelineGraph Prong Nat where
  task := Prong.task
  children := Prong.children
  edges := Prong.edges
  rank := Prong.rank
  acyclic := Prong.acyclic
  void_returns t _ _ void := absurd void t.outputType

theorem chain_reachable (combined : Option (Value Nat)) :
    (chain combined).Reachable .first .third := by
  have second : (chain combined).Reachable .first .second :=
    Relation.ReflTransGen.refl.tail mem_cons_self
  exact second.tail mem_cons_self

theorem chain_closed (combined : Option (Value Nat)) : SourceClosed (chain combined) .first := by
  have first : (chain combined).Reachable .first .first := .refl
  have second : (chain combined).Reachable .first .second := first.tail mem_cons_self
  intro t _ p hp
  cases t with
  | first => cases hp
  | second =>
    rw [mem_singleton.mp hp]
    exact first
  | third =>
    rw [mem_singleton.mp hp]
    exact second

/-- A promise broken in a run of the second task refused, and one in a run of one child
failed before the other is through. -/
theorem runs_not_finishing :
    (∃ s, Reach (chain none) .continue .first .empty (fun _ _ => True) s ∧
      ¬ Finishes (chain none) .continue .first s) ∧
    ∃ s, Reach fork .failFast .source .empty (fun _ _ => True) s ∧
      ¬ Finishes fork .failFast .source s := by
  constructor
  · have outcome : (run (chain none) .continue (fun _ _ => true)
        ((chain none).scheduled .first .empty) (List.replicate 13 .first)).any (fun s =>
          s.pendingCount = 0 ∧ (∀ t, (s.phase t).processing = false) ∧
            (s.result .third).isNone) = true := by
      decide +kernel
    obtain ⟨s, taken, facts⟩ := (Option.any_eq_true _ _).mp outcome
    rw [decide_eq_true_eq] at facts
    obtain ⟨nothing, still, none⟩ := facts
    refine ⟨s, reach_of_run (fun _ _ _ => trivial) (.init (scheduled_initial _ _ _)) taken, ?_⟩
    intro finishes
    obtain ⟨outcome, result, _⟩ :=
      finishes.resolved ErrorPolicy.noConfusion nothing still .third (chain_reachable _)
    rw [result] at none
    cases none
  · have outcome : (run fork .failFast (fun _ _ => true) (fork.scheduled .source .empty)
        (List.replicate 15 .source ++ List.replicate 3 .throws ++ List.replicate 8 .works)).any
          (fun s => ¬ s.log.Pairwise fun e e' =>
            e.isProcessed = true → e'.submittedTask = none) = true := by
      decide +kernel
    obtain ⟨s, taken, broken⟩ := (Option.any_eq_true _ _).mp outcome
    rw [decide_eq_true_eq] at broken
    exact ⟨s, reach_of_run (fun _ _ _ => trivial) (.init (scheduled_initial _ _ _)) taken,
      fun finishes => broken (finishes.stops rfl)⟩

/-- A call that is about to record a refusal. -/
def Phase.refusing : Phase ι α → Bool
  | .loop _ _ (.refuse _) => true
  | _ => false

theorem careful_of_not_refusing (s : State ι α) (t : ι)
    (h : (!(s.phase t).refusing) = true) : Careful g .continue s t := by
  rw [Careful]
  split
  · intro fast
    cases fast
  · intro fast
    cases fast
  · rename_i refusing
    rw [refusing] at h
    cases h
  · trivial

/-- The chain with a combiner that returns, run to its end. -/
theorem chain_finishes : ∃ s, Reach (chain (some .empty)) .continue .first .empty
      (Careful (chain (some .empty)) .continue) s ∧
    s.submissions = [.first, .second, .third] ∧ s.pendingCount = 0 ∧
    Finishes (chain (some .empty)) .continue .first s := by
  have outcome : (run (chain (some .empty)) .continue (fun s t => !(s.phase t).refusing)
      ((chain (some .empty)).scheduled .first .empty)
      (List.replicate 11 .first ++ List.replicate 11 .second ++ List.replicate 3 .third)).any
        (fun s => s.submissions = [.first, .second, .third] ∧ s.pendingCount = 0) = true := by
    decide +kernel
  obtain ⟨s, taken, facts⟩ := (Option.any_eq_true _ _).mp outcome
  rw [decide_eq_true_eq] at facts
  have reach : Reach (chain (some .empty)) .continue .first .empty
      (Careful (chain (some .empty)) .continue) s :=
    reach_of_run careful_of_not_refusing (.init (scheduled_initial _ _ _)) taken
  exact ⟨s, reach, facts.1, facts.2, finishes_of_careful (chain_closed _) reach⟩

end Examples

end DFTracer.Tasks
