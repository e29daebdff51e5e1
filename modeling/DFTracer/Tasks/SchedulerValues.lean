/-
# Where values go

A result counts its readers, one for each edge, and drops its value with the last of them. While
nothing fails, the counter of a result is the number of edges over which it has not been read and
released. Hence whoever still has a parent to read finds the value the parent's function returned,
and a call that has read some parents holds just what these returned.
-/

import DFTracer.Tasks.SchedulerFinish

namespace DFTracer.Tasks

variable {ι α : Type} [DecidableEq ι] {g : PipelineGraph ι α} {policy : ErrorPolicy} {s : State ι α}
  {t : ι}

/-- The child whose input a call is preparing. -/
def Action.preparing : Action ι α → Option ι
  | .read _ _ child | .release _ _ _ child | .combine _ child | .refuse child => some child
  | _ => none

def Phase.preparing : Phase ι α → Option ι
  | .loop _ _ action => action.preparing
  | _ => none

/-- The function of the task has returned or thrown. -/
def Phase.hasRun : Phase ι α → Bool
  | .idle | .running _ => false
  | _ => true

/-- The results and what is counted for them stay as they are. -/
structure SameValues (s s' : State ι α) : Prop where
  result : s'.result = s.result
  readers : s'.pendingReaders = s.pendingReaders
  unread : s'.unread = s.unread

/-- What a step of task `t` does to values. -/
inductive Flow (g : PipelineGraph ι α) (s s' : State ι α) (t : ι) : Prop
  | returned (input v : Value α) (before : s.phase t = .running input)
      (out : (g.task t).func input = some v)
      (phase : s'.phase = Function.update s.phase t .completed)
      (result : s'.result = Function.update s.result t (some (.value v)))
      (readers : s'.pendingReaders = s.pendingReaders) (unread : s'.unread = s.unread)
      (log : s'.log = s.log ++ [.returned t v])
  /-- Something fails, or something has. -/
  | failed (u : ι) (bad : Failed s' u)
  | marked (x : ι) (onStack : x ∈ (s.phase t).stack)
  /-- The preparation begins, goes on, or is given up. -/
  | started (failed : Bool) (rest : List ι) (child : ι)
      (before : s.phase t = .loop failed rest (.take child))
      (phase : s'.phase = Function.update s.phase t (.loop failed rest
        (if g.readsParents child then .read (g.task child).parents [] child
          else .combine [] child)))
      (same : SameValues s s') (log : s'.log = s.log)
  | gathered (failed : Bool) (rest : List ι) (values : List (Value α)) (child : ι)
      (before : s.phase t = .loop failed rest (.read [] values child))
      (phase : s'.phase = Function.update s.phase t (.loop failed rest (.combine values child)))
      (same : SameValues s s') (log : s'.log = s.log)
  | read (failed : Bool) (rest : List ι) (parent : ι) (parents : List ι)
      (values : List (Value α)) (child : ι) (v : Value α)
      (before : s.phase t = .loop failed rest (.read (parent :: parents) values child))
      (found : s.getReady parent = some v)
      (phase : s'.phase = Function.update s.phase t
        (.loop failed rest (.release parent parents (values ++ [v]) child)))
      (same : SameValues s s') (log : s'.log = s.log)
  | gaveUp (failed : Bool) (rest : List ι) (action : Action ι α) (child : ι)
      (before : s.phase t = .loop failed rest action) (preparing : action.preparing = some child)
      (phase : s'.phase = Function.update s.phase t (.loop failed rest (.refuse child)))
      (same : SameValues s s') (log : s'.log = s.log)
  | released (failed : Bool) (rest : List ι) (parent : ι) (parents : List ι)
      (values : List (Value α)) (child : ι)
      (before : s.phase t = .loop failed rest (.release parent parents values child))
      (after : s' = (s.release parent child parents).setPhase t
        (.loop failed rest (.read parents values child)))
  | submitted (failed : Bool) (rest : List ι) (values : List (Value α)) (child : ι)
      (input : Value α) (before : s.phase t = .loop failed rest (.combine values child))
      (built : g.inputFrom child values = some input)
      (phase : s'.phase = Function.update
        (Function.update s.phase t (.loop failed rest .next)) child (.running input))
      (same : SameValues s s') (log : s'.log = s.log ++ [.submitted child input])
  /-- Any other step. -/
  | other (phase : Phase ι α) (before : (s.phase t).preparing = none)
      (after : phase.preparing = none) (ran : (s.phase t).hasRun = true)
      (runs : phase.hasRun = true) (phases : s'.phase = Function.update s.phase t phase)
      (same : SameValues s s') (log : s'.log = s.log ∨ ∃ u, s'.log = s.log ++ [.processed u])

theorem loopStep_flow {failed : Bool} {rest : List ι} {action : Action ι α}
    (before : s.phase t = .loop failed rest action) :
    Flow g s (loopStep g policy s t failed rest action) t := by
  have ran : (s.phase t).hasRun = true := by rw [before]; rfl
  cases action with
  | next =>
    have none : (s.phase t).preparing = none := by rw [before]; rfl
    cases rest with
    | nil =>
      cases failed with
      | true => exact .other _ none rfl ran rfl rfl ⟨rfl, rfl, rfl⟩ (.inr ⟨t, rfl⟩)
      | false => exact .other _ none rfl ran rfl rfl ⟨rfl, rfl, rfl⟩ (.inl rfl)
    | cons child rest =>
      rw [loopStep]
      by_cases last : s.pendingParents child = 1
      · rw [if_pos last]
        by_cases fast : policy = .failFast
        · rw [if_pos fast]
          exact .other (.loop failed rest (.take child)) none rfl ran rfl rfl ⟨rfl, rfl, rfl⟩
            (.inl rfl)
        · rw [if_neg fast]
          exact .other (.loop failed rest (.scan (g.task child).parents child)) none rfl ran
            rfl rfl ⟨rfl, rfl, rfl⟩ (.inl rfl)
      · rw [if_neg last]
        exact .other (.loop failed rest .next) none rfl ran rfl rfl ⟨rfl, rfl, rfl⟩ (.inl rfl)
  | scan parents child =>
    have none : (s.phase t).preparing = none := by rw [before]; rfl
    cases parents with
    | nil =>
      exact .other (.loop failed rest (.take child)) none rfl ran rfl rfl ⟨rfl, rfl, rfl⟩
        (.inl rfl)
    | cons parent parents =>
      rw [loopStep]
      by_cases bad : s.hasException parent = true
      · rw [if_pos bad]
        exact .other (.loop failed rest (.skip [child])) none rfl ran rfl rfl ⟨rfl, rfl, rfl⟩
          (.inl rfl)
      · rw [if_neg bad]
        exact .other (.loop failed rest (.scan parents child)) none rfl ran rfl rfl
          ⟨rfl, rfl, rfl⟩ (.inl rfl)
  | take child => exact .started failed rest child before rfl ⟨rfl, rfl, rfl⟩ rfl
  | read parents values child =>
    cases parents with
    | nil => exact .gathered failed rest values child before rfl ⟨rfl, rfl, rfl⟩ rfl
    | cons parent parents =>
      rw [loopStep]
      cases found : s.getReady parent with
      | some v =>
        exact .read failed rest parent parents values child v before found rfl
          ⟨rfl, rfl, rfl⟩ rfl
      | none => exact .gaveUp failed rest _ child before rfl rfl ⟨rfl, rfl, rfl⟩ rfl
  | release parent parents values child =>
    exact .released failed rest parent parents values child before rfl
  | combine values child =>
    rw [loopStep]
    cases built : g.inputFrom child values with
    | some input =>
      exact .submitted failed rest values child input before built rfl ⟨rfl, rfl, rfl⟩ rfl
    | none => exact .gaveUp failed rest _ child before rfl rfl ⟨rfl, rfl, rfl⟩ rfl
  | refuse child =>
    exact .failed child (.inr (List.mem_append_right s.log List.mem_cons_self))
  | account child =>
    exact .other (.loop failed rest .next) (by rw [before]; rfl) rfl ran rfl rfl ⟨rfl, rfl, rfl⟩
      (.inl rfl)
  | skip stack =>
    have none : (s.phase t).preparing = none := by rw [before]; rfl
    cases stack with
    | nil =>
      exact .other (.loop failed rest .next) none rfl ran rfl rfl ⟨rfl, rfl, rfl⟩ (.inl rfl)
    | cons x stack => exact .marked x (by rw [before]; exact List.mem_cons_self)
  | mark x stack => exact .marked x (by rw [before]; exact List.mem_cons_self)

theorem step_flow {s' : State ι α} (h : step g policy s t = some s') : Flow g s s' t := by
  rw [step] at h
  cases before : s.phase t with
  | idle | finished left => simp [before] at h
  | running input =>
    rw [before] at h
    dsimp only at h
    cases out : (g.task t).func input with
    | some v =>
      rw [out, Option.some.injEq] at h
      subst h
      exact .returned input v before out rfl rfl rfl rfl rfl
    | none =>
      rw [out, Option.some.injEq] at h
      subst h
      exact .failed t (.inl (List.mem_append_right s.log List.mem_cons_self))
  | completed =>
    have ran : (s.phase t).hasRun = true := by rw [before]; rfl
    have none : (s.phase t).preparing = none := by rw [before]; rfl
    rw [before] at h
    by_cases bad : s.hasException t = true
    · rw [if_pos bad, Option.some.injEq] at h
      subst h
      exact .other .failing none rfl ran rfl rfl ⟨rfl, rfl, rfl⟩ (.inl rfl)
    · rw [if_neg bad, Option.some.injEq] at h
      subst h
      exact .other (.loop false (g.children t) .next) none rfl ran rfl rfl ⟨rfl, rfl, rfl⟩
        (.inl rfl)
  | failing =>
    have ran : (s.phase t).hasRun = true := by rw [before]; rfl
    have none : (s.phase t).preparing = none := by rw [before]; rfl
    rw [before] at h
    by_cases fast : policy = .failFast
    · rw [if_pos fast, Option.some.injEq] at h
      subst h
      exact .other (.finished (g.children t)) none rfl ran rfl rfl ⟨rfl, rfl, rfl⟩
        (.inr ⟨t, rfl⟩)
    · rw [if_neg fast, Option.some.injEq] at h
      subst h
      exact .other (.loop true (g.children t) .next) none rfl ran rfl rfl ⟨rfl, rfl, rfl⟩
        (.inl rfl)
  | loop failed rest action =>
    rw [before, Option.some.injEq] at h
    subst h
    exact loopStep_flow before

/-- The function of the task returned this value. -/
def HasReturned (s : State ι α) (t : ι) (v : Value α) : Prop := Event.returned t v ∈ s.log

/-- What a call has in hand while it prepares a child: the parents still to read are
on the child's list, and those read returned what was read. -/
def Prepared (g : PipelineGraph ι α) (s : State ι α) : Action ι α → Prop
  | .read parents values child => g.readsParents child = true ∧ s.unread child = parents ∧
      ∃ done, (g.task child).parents = done ++ parents ∧ List.Forall₂ (HasReturned s) done values
  | .release parent parents values child =>
    g.readsParents child = true ∧ s.unread child = parent :: parents ∧
    parent ∈ (g.task child).parents ∧
    ∃ done, (g.task child).parents = done ++ parents ∧ List.Forall₂ (HasReturned s) done values
  | .combine values child =>
    if g.readsParents child then
      s.unread child = [] ∧ List.Forall₂ (HasReturned s) (g.task child).parents values
    else s.unread child = (g.task child).parents
  | _ => True

/-- The input is made of the values the parents returned, in their order. -/
def BuiltFrom (g : PipelineGraph ι α) (s : State ι α) (child : ι) (input : Value α) : Prop :=
  ∃ values, List.Forall₂ (HasReturned s) (g.task child).parents values ∧
    prepareInputForTask (g.task child)
      (((g.task child).parents.map fun p => (g.task p).outputType).zip values) = some input

structure Flows [Fintype ι] (g : PipelineGraph ι α) (source : ι) (s : State ι α) : Prop where
  ran : ∀ t v, HasReturned s t v → (s.phase t).hasRun = true
  made : ∀ t v, HasReturned s t v → ∃ input, (g.task t).func input = some v
  once : ∀ t v v', HasReturned s t v → HasReturned s t v' → v = v'
  result : ∀ t w, s.result t = some (.value w) → ∃ v, HasReturned s t v ∧
    w = if s.pendingReaders t = 0 ∧ g.children t ≠ [] then .empty else v
  readers : ∀ p, s.pendingReaders p = ∑ c, ((s.unread c).count p : Int)
  prepared : ∀ q failed rest action, s.phase q = .loop failed rest action → Prepared g s action
  fresh : ∀ c, s.phase c = .idle ∨ c = source → (∀ q, (s.phase q).preparing ≠ some c) →
    s.unread c = (g.task c).parents
  spent : ∀ c, s.phase c ≠ .idle → c ≠ source →
    s.unread c = if g.readsParents c then [] else (g.task c).parents
  inputs : ∀ c input, .submitted c input ∈ s.log → c ≠ source → BuiltFrom g s c input

section Step

variable [Fintype ι] {g : PipelineGraph ι α} {policy : ErrorPolicy} {source : ι}
  {s s' : State ι α} {t : ι}

omit [DecidableEq ι] [Fintype ι] in
theorem Phase.ready_of_preparing {phase : Phase ι α} {c : ι} (h : phase.preparing = some c) :
    phase.ready = some c ∧ phase.hand = some c := by
  cases phase with
  | loop failed rest action => cases action <;> simp_all [Phase.preparing, Phase.ready,
      Phase.hand, Action.preparing, Action.ready, Action.hand]
  | _ => cases h

omit [Fintype ι] in
theorem Effect.hasRun_mono (e : Effect g policy s s' t)
    (idle : ∀ c, (s.phase t).hand = some c → s.phase c = .idle) (q : ι)
    (h : (s.phase q).hasRun = true) : (s'.phase q).hasRun = true := by
  cases e <;> obtain ⟨hp, hpp, hc, hs, hl⟩ := (‹Changes _ _ _ _ _ _›).apply <;>
    simp only [Function.update_apply] at hp hpp hs <;>
    grind [Phase.hasRun, Phase.hand, Action.hand]

omit [Fintype ι] in
theorem Effect.returned_mono (e : Effect g policy s s' t) {p : ι} {v : Value α}
    (h : HasReturned s p v) : HasReturned s' p v := by
  obtain ⟨more, hl⟩ := Inv.log_grows e
  rw [HasReturned, hl]
  exact List.mem_append_left more h

omit [Fintype ι] in
theorem Prepared.mono {action : Action ι α} (h : Prepared g s action)
    (log : ∀ p v, HasReturned s p v → HasReturned s' p v)
    (unread : ∀ c, action.preparing = some c → s'.unread c = s.unread c) :
    Prepared g s' action := by
  cases action with
  | read parents values child =>
    obtain ⟨reads, left, done, cut, values⟩ := h
    exact ⟨reads, (unread child rfl).trans left, done, cut, values.imp log⟩
  | release parent parents values child =>
    obtain ⟨reads, left, member, done, cut, values⟩ := h
    exact ⟨reads, (unread child rfl).trans left, member, done, cut, values.imp log⟩
  | combine values child =>
    rw [Prepared] at h ⊢
    rw [unread child rfl]
    by_cases reads : g.readsParents child = true
    · rw [if_pos reads] at h ⊢
      exact ⟨h.1, h.2.imp log⟩
    · rw [if_neg reads] at h ⊢
      exact h
  | _ => trivial

/-- While nothing has failed no task has an exception and nothing is to be marked. -/
structure Fine (s : State ι α) : Prop where
  status : ∀ u, s.status u ≠ some false
  stack : ∀ q, (s.phase q).stack = []

theorem Inv.fine (h : Inv g policy source s) (clean : ∀ u, ¬ Failed s u) : Fine s := by
  have status : ∀ u, s.status u ≠ some false := fun u bad => by
    obtain ⟨a, _, failed⟩ := h.failed_above u bad
    exact clean a failed
  refine ⟨status, fun q => List.eq_nil_iff_forall_not_mem.mpr fun x hx => ?_⟩
  obtain ⟨y, _, bad⟩ := (h.stack q x hx).2.2.2.2
  exact status y bad

end Step

end DFTracer.Tasks
