/-
# What one step can do

The steps of a run fall into a few kinds. For each kind this module says what it
does to the phases, to the two counters, to whether a task has a result and of
which sort, and to the record. The invariants of a run are derived from these
effects; none of them looks at `step` again.
-/

import DFTracer.Tasks.Scheduler

namespace DFTracer.Tasks

variable {ι α : Type} [DecidableEq ι] {s' : State ι α} {g : PipelineGraph ι α}
  {policy : ErrorPolicy} {s : State ι α} {t : ι}

/-- Whether a task has a result, and if so whether it is a value. -/
def Outcome.isValue : Outcome α → Bool
  | .value _ => true
  | .exception => false

def State.status (s : State ι α) (t : ι) : Option Bool := (s.result t).map Outcome.isValue

/-- The child a call has found ready and not yet let go of. -/
def Action.hand : Action ι α → Option ι
  | .scan _ child | .take child | .read _ _ child | .release _ _ _ child | .combine _ child
  | .refuse child | .account child => some child
  | _ => none

/-- The child a call has counted in and may still submit or has to count out. -/
def Action.counted : Action ι α → Option ι
  | .read _ _ child | .release _ _ _ child | .combine _ child | .refuse child
  | .account child => some child
  | _ => none

/-- The child that all the parents of have been found to have a value. -/
def Action.ready : Action ι α → Option ι
  | .take child | .read _ _ child | .release _ _ _ child | .combine _ child
  | .refuse child => some child
  | _ => none

/-- The tasks that are still to be marked. -/
def Action.stack : Action ι α → List ι
  | .skip stack => stack
  | .mark x stack => x :: stack
  | _ => []

namespace Phase

def hand : Phase ι α → Option ι
  | .loop _ _ action => action.hand
  | _ => none

def counted : Phase ι α → Option ι
  | .loop _ _ action => action.counted
  | _ => none

def ready : Phase ι α → Option ι
  | .loop _ _ action => action.ready
  | _ => none

def stack : Phase ι α → List ι
  | .loop _ _ action => action.stack
  | _ => []

/-- The children at which task `t` has not been counted off. -/
def undone (g : PipelineGraph ι α) (t : ι) : Phase ι α → List ι
  | .loop _ rest _ => rest
  | .finished left => left
  | _ => g.children t

/-- The task is submitted, and its own count has not been taken back. -/
def isOpen : Phase ι α → Bool
  | .running _ | .completed | .failing => true
  | .loop failed _ _ => !failed
  | .idle | .finished _ => false

end Phase

/-- The parts of the state the invariants of a run are about. -/
structure Changes (s' : State ι α) (phase : ι → Phase ι α) (pendingParents : ι → Int)
    (pendingCount : Int) (status : ι → Option Bool) (log : List (Event ι α)) : Prop where
  phase : s'.phase = phase
  pendingParents : s'.pendingParents = pendingParents
  pendingCount : s'.pendingCount = pendingCount
  status : s'.status = status
  log : s'.log = log

omit [DecidableEq ι] in
theorem Changes.apply {phase : ι → Phase ι α} {pendingParents : ι → Int}
    {pendingCount : Int} {status : ι → Option Bool} {log : List (Event ι α)}
    (changes : Changes s' phase pendingParents pendingCount status log) :
    (∀ q, s'.phase q = phase q) ∧ (∀ q, s'.pendingParents q = pendingParents q) ∧
      s'.pendingCount = pendingCount ∧ (∀ q, s'.status q = status q) ∧ s'.log = log :=
  ⟨congrFun changes.phase, congrFun changes.pendingParents, changes.pendingCount,
    congrFun changes.status, changes.log⟩

/-- The kinds of steps, of task `t`. -/
inductive Effect (g : PipelineGraph ι α) (policy : ErrorPolicy) (s s' : State ι α) (t : ι) : Prop
  /-- The function of the task has returned or thrown. -/
  | ran (input : Value α) (value : Bool) (event : Event ι α)
      (before : s.phase t = .running input)
      (recorded : if value then ∃ v, event = .returned t v else event = .threw t)
      (changes : Changes s' (Function.update s.phase t .completed) s.pendingParents
        s.pendingCount (Function.update s.status t (some value)) (s.log ++ [event]))
  /-- The call looks at the result: a failed task is handled first. -/
  | enteredFailed (before : s.phase t = .completed) (failed : s.status t = some false)
      (changes : Changes s' (Function.update s.phase t .failing) s.pendingParents
        s.pendingCount s.status s.log)
  | entered (before : s.phase t = .completed) (fine : s.status t ≠ some false)
      (changes : Changes s' (Function.update s.phase t (.loop false (g.children t) .next))
        s.pendingParents s.pendingCount s.status s.log)
  /-- `handle_task_error` of the failed task. -/
  | stopped (before : s.phase t = .failing) (fast : policy = .failFast)
      (changes : Changes s' (Function.update s.phase t (.finished (g.children t)))
        s.pendingParents (s.pendingCount - 1) s.status (s.log ++ [.processed t]))
  | handled (before : s.phase t = .failing) (slow : policy ≠ .failFast)
      (changes : Changes s' (Function.update s.phase t (.loop true (g.children t) .next))
        s.pendingParents (s.pendingCount - 1) s.status s.log)
  /-- The end of the call. -/
  | finishedFailed (before : s.phase t = .loop true [] .next)
      (changes : Changes s' (Function.update s.phase t (.finished [])) s.pendingParents
        s.pendingCount s.status (s.log ++ [.processed t]))
  | finished (before : s.phase t = .loop false [] .next)
      (changes : Changes s' (Function.update s.phase t (.finished [])) s.pendingParents
        (s.pendingCount - 1) s.status s.log)
  /-- The task is counted off at a child that waits for others. -/
  | countedOff (failed : Bool) (child : ι) (rest : List ι)
      (before : s.phase t = .loop failed (child :: rest) .next)
      (waits : s.pendingParents child ≠ 1)
      (changes : Changes s' (Function.update s.phase t (.loop failed rest .next))
        (Function.update s.pendingParents child (s.pendingParents child - 1))
        s.pendingCount s.status s.log)
  /-- The task is the last one a child waited for. -/
  | foundReady (failed : Bool) (child : ι) (rest : List ι) (action : Action ι α)
      (before : s.phase t = .loop failed (child :: rest) .next)
      (last : s.pendingParents child = 1)
      (next : if policy = .failFast then action = .take child
        else action = .scan (g.task child).parents child)
      (changes : Changes s' (Function.update s.phase t (.loop failed rest action))
        (Function.update s.pendingParents child (s.pendingParents child - 1))
        s.pendingCount s.status s.log)
  /-- The parents of the child are looked through for a failed one. -/
  | scanned (failed : Bool) (parent : ι) (parents : List ι) (child : ι) (rest : List ι)
      (before : s.phase t = .loop failed rest (.scan (parent :: parents) child))
      (fine : s.status parent ≠ some false)
      (changes : Changes s' (Function.update s.phase t (.loop failed rest (.scan parents child)))
        s.pendingParents s.pendingCount s.status s.log)
  | cleared (failed : Bool) (child : ι) (rest : List ι)
      (before : s.phase t = .loop failed rest (.scan [] child))
      (changes : Changes s' (Function.update s.phase t (.loop failed rest (.take child)))
        s.pendingParents s.pendingCount s.status s.log)
  | dropped (failed : Bool) (parent : ι) (parents : List ι) (child : ι) (rest : List ι)
      (before : s.phase t = .loop failed rest (.scan (parent :: parents) child))
      (bad : s.status parent = some false)
      (changes : Changes s' (Function.update s.phase t (.loop failed rest (.skip [child])))
        s.pendingParents s.pendingCount s.status s.log)
  /-- The child is counted in. -/
  | took (failed : Bool) (child : ι) (rest : List ι) (action : Action ι α)
      (before : s.phase t = .loop failed rest (.take child))
      (hand : action.hand = some child) (counted : action.counted = some child)
      (ready : action.ready = some child) (stack : action.stack = [])
      (changes : Changes s' (Function.update s.phase t (.loop failed rest action))
        s.pendingParents (s.pendingCount + 1) s.status s.log)
  /-- A step inside the preparation of the child's input. -/
  | prepared (failed : Bool) (child : ι) (rest : List ι) (action action' : Action ι α)
      (before : s.phase t = .loop failed rest action) (going : action ≠ .refuse child)
      (hand : action.hand = some child) (counted : action.counted = some child)
      (ready : action.ready = some child) (stack : action.stack = [])
      (hand' : action'.hand = some child) (counted' : action'.counted = some child)
      (ready' : action'.ready = some child) (stack' : action'.stack = [])
      (changes : Changes s' (Function.update s.phase t (.loop failed rest action'))
        s.pendingParents s.pendingCount s.status s.log)
  /-- The child is handed to the executor. -/
  | submitted (failed : Bool) (child : ι) (rest : List ι) (values : List (Value α))
      (input : Value α)
      (before : s.phase t = .loop failed rest (.combine values child))
      (changes : Changes s'
        (Function.update (Function.update s.phase t (.loop failed rest .next)) child
          (.running input))
        s.pendingParents s.pendingCount s.status (s.log ++ [.submitted child input]))
  /-- The preparation threw. -/
  | refused (failed : Bool) (child : ι) (rest : List ι)
      (before : s.phase t = .loop failed rest (.refuse child))
      (changes : Changes s' (Function.update s.phase t (.loop failed rest (.account child)))
        s.pendingParents s.pendingCount (Function.update s.status child (some false))
        (s.log ++ [.refused child]))
  | accounted (failed : Bool) (child : ι) (rest : List ι)
      (before : s.phase t = .loop failed rest (.account child))
      (changes : Changes s' (Function.update s.phase t (.loop failed rest .next))
        s.pendingParents (s.pendingCount - 1) s.status s.log)
  /-- The descendants of a failed task are gone through. -/
  | skippedAll (failed : Bool) (rest : List ι)
      (before : s.phase t = .loop failed rest (.skip []))
      (changes : Changes s' (Function.update s.phase t (.loop failed rest .next))
        s.pendingParents s.pendingCount s.status s.log)
  | skippedOver (failed : Bool) (x : ι) (stack rest : List ι)
      (before : s.phase t = .loop failed rest (.skip (x :: stack)))
      (done : s.status x ≠ none)
      (changes : Changes s' (Function.update s.phase t (.loop failed rest (.skip stack)))
        s.pendingParents s.pendingCount s.status s.log)
  | marking (failed : Bool) (x : ι) (stack rest : List ι)
      (before : s.phase t = .loop failed rest (.skip (x :: stack)))
      (changes : Changes s' (Function.update s.phase t (.loop failed rest (.mark x stack)))
        s.pendingParents s.pendingCount s.status s.log)
  | marked (failed : Bool) (x : ι) (stack rest : List ι)
      (before : s.phase t = .loop failed rest (.mark x stack))
      (changes : Changes s'
        (Function.update s.phase t (.loop failed rest (.skip (g.children x ++ stack))))
        s.pendingParents s.pendingCount (Function.update s.status x (some false)) s.log)

/-! ## The status after a change of the results -/

section Parts

variable (s : State ι α) (t : ι)

theorem status_setResult (outcome : Outcome α) :
    (s.setResult t outcome).status = Function.update s.status t (some outcome.isValue) := by
  funext q
  by_cases h : q = t <;> simp [State.status, State.setResult, h]

/-- Dropping a value does not change whether there is a result. -/
theorem status_release (parent child : ι) (parents : List ι) :
    (s.release parent child parents).status = s.status := by
  funext q
  by_cases h : q = parent
  · subst h
    simp only [State.status, State.release, Function.update_self]
    match s.result q with
    | some (.value v) => simp [droppedIf, Outcome.isValue]
    | some .exception => rfl
    | none => rfl
  · simp [State.status, State.release, h]

omit [DecidableEq ι] in
theorem hasException_iff : s.hasException t = true ↔ s.status t = some false := by
  unfold State.hasException State.status
  match s.result t with
  | some (.value v) => simp [Outcome.isValue]
  | some .exception => simp [Outcome.isValue]
  | none => simp

end Parts

/-- One action of the loop has one of these effects. -/
theorem loopStep_effect {failed : Bool} {rest : List ι} {action : Action ι α}
    (before : s.phase t = .loop failed rest action) :
    Effect g policy s (loopStep g policy s t failed rest action) t := by
  cases action with
  | next =>
    cases rest with
    | nil =>
      cases failed with
      | true => exact .finishedFailed before ⟨rfl, rfl, rfl, rfl, rfl⟩
      | false => exact .finished before ⟨rfl, rfl, rfl, rfl, rfl⟩
    | cons child rest =>
      rw [loopStep]
      by_cases last : s.pendingParents child = 1
      · rw [if_pos last]
        by_cases fast : policy = .failFast
        · rw [if_pos fast]
          exact .foundReady failed child rest (.take child) before last (by simp [fast])
            ⟨rfl, rfl, rfl, rfl, rfl⟩
        · rw [if_neg fast]
          exact .foundReady failed child rest (.scan (g.task child).parents child) before
            last (by simp [fast]) ⟨rfl, rfl, rfl, rfl, rfl⟩
      · rw [if_neg last]
        exact .countedOff failed child rest before last ⟨rfl, rfl, rfl, rfl, rfl⟩
  | scan parents child =>
    cases parents with
    | nil => exact .cleared failed child rest before ⟨rfl, rfl, rfl, rfl, rfl⟩
    | cons parent parents =>
      rw [loopStep]
      by_cases bad : s.hasException parent = true
      · rw [if_pos bad]
        exact .dropped failed parent parents child rest before
          ((hasException_iff s parent).mp bad) ⟨rfl, rfl, rfl, rfl, rfl⟩
      · rw [if_neg bad]
        exact .scanned failed parent parents child rest before
          (fun h => bad ((hasException_iff s parent).mpr h)) ⟨rfl, rfl, rfl, rfl, rfl⟩
  | take child =>
    rw [loopStep]
    by_cases reads : g.readsParents child = true
    · rw [if_pos reads]
      exact .took failed child rest (.read (g.task child).parents [] child) before rfl rfl rfl
        rfl ⟨rfl, rfl, rfl, rfl, rfl⟩
    · rw [if_neg reads]
      exact .took failed child rest (.combine [] child) before rfl rfl rfl rfl
        ⟨rfl, rfl, rfl, rfl, rfl⟩
  | read parents values child =>
    cases parents with
    | nil =>
      exact .prepared failed child rest (.read [] values child) (.combine values child) before
        (by simp) rfl rfl rfl rfl rfl rfl rfl rfl ⟨rfl, rfl, rfl, rfl, rfl⟩
    | cons parent parents =>
      rw [loopStep]
      cases s.getReady parent with
      | some v =>
        exact .prepared failed child rest (.read (parent :: parents) values child)
          (.release parent parents (values ++ [v]) child) before (by simp) rfl rfl rfl rfl rfl
          rfl rfl rfl
          ⟨rfl, rfl, rfl, rfl, rfl⟩
      | none =>
        exact .prepared failed child rest (.read (parent :: parents) values child)
          (.refuse child) before (by simp) rfl rfl rfl rfl rfl rfl rfl rfl
          ⟨rfl, rfl, rfl, rfl, rfl⟩
  | release parent parents values child =>
    exact .prepared failed child rest (.release parent parents values child)
      (.read parents values child) before (by simp) rfl rfl rfl rfl rfl rfl rfl rfl
      ⟨rfl, rfl, rfl, status_release s parent child parents, rfl⟩
  | combine values child =>
    rw [loopStep]
    cases g.inputFrom child values with
    | some input =>
      exact .submitted failed child rest values input before ⟨rfl, rfl, rfl, rfl, rfl⟩
    | none =>
      exact .prepared failed child rest (.combine values child) (.refuse child) before (by simp)
        rfl rfl rfl rfl rfl rfl rfl rfl ⟨rfl, rfl, rfl, rfl, rfl⟩
  | refuse child =>
    exact .refused failed child rest before
      ⟨rfl, rfl, rfl, status_setResult s child .exception, rfl⟩
  | account child => exact .accounted failed child rest before ⟨rfl, rfl, rfl, rfl, rfl⟩
  | skip stack =>
    cases stack with
    | nil => exact .skippedAll failed rest before ⟨rfl, rfl, rfl, rfl, rfl⟩
    | cons x stack =>
      rw [loopStep]
      by_cases done : (s.result x).isSome = true
      · rw [if_pos done]
        refine .skippedOver failed x stack rest before ?_ ⟨rfl, rfl, rfl, rfl, rfl⟩
        simpa [State.status, Option.isSome_iff_ne_none] using done
      · rw [if_neg done]
        exact .marking failed x stack rest before ⟨rfl, rfl, rfl, rfl, rfl⟩
  | mark x stack =>
    exact .marked failed x stack rest before
      ⟨rfl, rfl, rfl, status_setResult s x .exception, rfl⟩

theorem step_effect (h : step g policy s t = some s') : Effect g policy s s' t := by
  rw [step] at h
  cases before : s.phase t with
  | idle | finished left => simp [before] at h
  | running input =>
    rw [before] at h
    dsimp only at h
    cases out : (g.task t).func input with
    | some v =>
      rw [out, Option.some.injEq] at h
      subst h
      exact .ran input true (.returned t v) before (by simp)
        ⟨rfl, rfl, rfl, status_setResult s t (.value v), rfl⟩
    | none =>
      rw [out, Option.some.injEq] at h
      subst h
      exact .ran input false (.threw t) before (by simp)
        ⟨rfl, rfl, rfl, status_setResult s t .exception, rfl⟩
  | completed =>
    rw [before] at h
    by_cases bad : s.hasException t = true
    · rw [if_pos bad, Option.some.injEq] at h
      subst h
      exact .enteredFailed before ((hasException_iff s t).mp bad) ⟨rfl, rfl, rfl, rfl, rfl⟩
    · rw [if_neg bad, Option.some.injEq] at h
      subst h
      exact .entered before (fun h => bad ((hasException_iff s t).mpr h))
        ⟨rfl, rfl, rfl, rfl, rfl⟩
  | failing =>
    rw [before] at h
    by_cases fast : policy = .failFast
    · rw [if_pos fast, Option.some.injEq] at h
      subst h
      exact .stopped before fast ⟨rfl, rfl, rfl, rfl, rfl⟩
    · rw [if_neg fast, Option.some.injEq] at h
      subst h
      exact .handled before fast ⟨rfl, rfl, rfl, rfl, rfl⟩
  | loop failed rest action =>
    rw [before, Option.some.injEq] at h
    subst h
    exact loopStep_effect before

end DFTracer.Tasks
