/-
# The scheduler

A run hands the source to the executor. Whenever the executor has run a task it calls
`on_task_completed` on the thread that ran it, and several of these calls are under way at a time.
Each counts the task off at its children, takes up the ones that became ready, and marks the
descendants of a failed task. The model steps one call at a time from one atomic action to the
next.

Shutdown, timeouts, the watchdog, the callbacks and the error handler are left out. Reading a
parent's result and releasing it are separate steps; dropping the value with the last release is
part of that release.
-/

import DFTracer.Tasks.Task

namespace DFTracer.Tasks

variable {ι α : Type}

/-- A finite graph of tasks as `depends_on` wires it: an edge is one entry among the
parents of the child and one among the children of the parent. No task is its own
ancestor, and a function without an output leaves an empty `std::any`. -/
structure PipelineGraph (ι α : Type) [DecidableEq ι] where
  task : ι → Task ι α
  children : ι → List ι
  edges : ∀ p c, (children p).count c = (task c).parents.count p
  rank : ι → Nat
  acyclic : ∀ c, ∀ p ∈ (task c).parents, rank p < rank c
  void_returns : ∀ t input v, (task t).outputType = .void → (task t).func input = some v →
    v = .empty

inductive ErrorPolicy
  | failFast
  | continue
  | custom
deriving DecidableEq

/-- A published result. Its value is dropped with the last reader. -/
inductive Outcome (α : Type)
  | value (v : Value α)
  | exception

/-- Where a call of `on_task_completed` is in its turn for a child: about to look at
the next child; looking for a failed parent; counting the child in; reading its
parents and releasing them; combining what was read and submitting; catching what
was thrown meanwhile and counting the child out; or marking descendants, the next
ones first. -/
inductive Action (ι α : Type)
  | next
  | scan (parents : List ι) (child : ι)
  | take (child : ι)
  | read (parents : List ι) (values : List (Value α)) (child : ι)
  | release (parent : ι) (parents : List ι) (values : List (Value α)) (child : ι)
  | combine (values : List (Value α)) (child : ι)
  | refuse (child : ι)
  | account (child : ι)
  | skip (stack : List ι)
  | mark (task : ι) (stack : List ι)

/-- What is happening to a task. From `completed` on, its call of
`on_task_completed` is under way: `failing` is inside `handle_task_error`, `loop` in
the loop over the children with those left, and `finished` keeps the children never
reached. -/
inductive Phase (ι α : Type)
  | idle
  | running (input : Value α)
  | completed
  | failing
  | loop (failed : Bool) (rest : List ι) (action : Action ι α)
  | finished (left : List ι)

/-- What happened, for the record: a task was submitted, its function returned or
threw, its input could not be prepared, the call for a failed task ended. -/
inductive Event (ι α : Type)
  | submitted (task : ι) (input : Value α)
  | returned (task : ι) (v : Value α)
  | threw (task : ι)
  | refused (task : ι)
  | processed (task : ι)

structure State (ι α : Type) where
  result : ι → Option (Outcome α)
  pendingParents : ι → Int
  pendingReaders : ι → Int
  pendingCount : Int
  hasError : Bool
  phase : ι → Phase ι α
  /-- For each task, the parents its preparation has not released. -/
  unread : ι → List ι
  log : List (Event ι α)

section Step

variable [DecidableEq ι]

/-- `prepare_input_for_task` reads its parents unless all of several have no output
and there is no combiner. -/
def PipelineGraph.readsParents (g : PipelineGraph ι α) (child : ι) : Bool :=
  (g.task child).inputCombiner.isSome || (g.task child).parents.length = 1 ||
    !(g.task child).parents.all fun p => (g.task p).outputType = .void

/-- The input made of the values read. -/
def PipelineGraph.inputFrom (g : PipelineGraph ι α) (child : ι) (values : List (Value α)) :
    Option (Value α) :=
  if g.readsParents child then
    prepareInputForTask (g.task child)
      (((g.task child).parents.map fun p => (g.task p).outputType).zip values)
  else some .empty

/-- `has_exception`. -/
def State.hasException (s : State ι α) (t : ι) : Bool :=
  match s.result t with
  | some .exception => true
  | _ => false

/-- `get_ready`: throws for an exception; nothing else is checked. -/
def State.getReady (s : State ι α) (t : ι) : Option (Value α) :=
  match s.result t with
  | some .exception => none
  | some (.value v) => some v
  | none => some .empty

def State.setPhase (s : State ι α) (t : ι) (phase : Phase ι α) : State ι α :=
  { s with phase := Function.update s.phase t phase }

def State.setResult (s : State ι α) (t : ι) (outcome : Outcome α) : State ι α :=
  { s with result := Function.update s.result t (some outcome) }

def State.note (s : State ι α) (event : Event ι α) : State ι α :=
  { s with log := s.log ++ [event] }

def State.count (s : State ι α) (change : Int) : State ι α :=
  { s with pendingCount := s.pendingCount + change }

/-- The value that is left after the last reader, or before. -/
def droppedIf (last : Bool) : Option (Outcome α) → Option (Outcome α)
  | some (.value v) => some (.value (if last then .empty else v))
  | other => other

/-- `release_reader`, by the preparation of `child` with these parents still to read. -/
def State.release (s : State ι α) (parent child : ι) (parents : List ι) : State ι α :=
  { s with
    pendingReaders := Function.update s.pendingReaders parent (s.pendingReaders parent - 1)
    result := Function.update s.result parent
      (droppedIf (s.pendingReaders parent = 1) (s.result parent))
    unread := Function.update s.unread child parents }

/-- One action of the loop over the children of task `t`. -/
def loopStep (g : PipelineGraph ι α) (policy : ErrorPolicy) (s : State ι α) (t : ι)
    (failed : Bool) (rest : List ι) (action : Action ι α) : State ι α :=
  match action with
  | .next =>
    match rest with
    | [] =>
      -- a failed task was counted out by `handle_task_error`
      if failed then (s.note (.processed t)).setPhase t (.finished [])
      else (s.count (-1)).setPhase t (.finished [])
    | child :: rest =>
      let s' := { s with
        pendingParents :=
          Function.update s.pendingParents child (s.pendingParents child - 1) }
      if s.pendingParents child = 1 then
        if policy = .failFast then s'.setPhase t (.loop failed rest (.take child))
        else s'.setPhase t (.loop failed rest (.scan (g.task child).parents child))
      else s'.setPhase t (.loop failed rest .next)
  | .scan [] child => s.setPhase t (.loop failed rest (.take child))
  | .scan (parent :: parents) child =>
    if s.hasException parent then s.setPhase t (.loop failed rest (.skip [child]))
    else s.setPhase t (.loop failed rest (.scan parents child))
  | .take child =>
    (s.count 1).setPhase t (.loop failed rest
      (if g.readsParents child then .read (g.task child).parents [] child
       else .combine [] child))
  | .read [] values child => s.setPhase t (.loop failed rest (.combine values child))
  | .read (parent :: parents) values child =>
    match s.getReady parent with
    | some v => s.setPhase t (.loop failed rest (.release parent parents (values ++ [v]) child))
    | none => s.setPhase t (.loop failed rest (.refuse child))
  | .release parent parents values child =>
    (s.release parent child parents).setPhase t (.loop failed rest (.read parents values child))
  | .combine values child =>
    match g.inputFrom child values with
    | some input =>
      ((s.note (.submitted child input)).setPhase t (.loop failed rest .next)).setPhase child
        (.running input)
    | none => s.setPhase t (.loop failed rest (.refuse child))
  | .refuse child =>
    ((s.setResult child .exception).note (.refused child)).setPhase t
      (.loop failed rest (.account child))
  | .account _ => { s.count (-1) with hasError := true }.setPhase t (.loop failed rest .next)
  | .skip [] => s.setPhase t (.loop failed rest .next)
  | .skip (x :: stack) =>
    if (s.result x).isSome then s.setPhase t (.loop failed rest (.skip stack))
    else s.setPhase t (.loop failed rest (.mark x stack))
  | .mark x stack =>
    (s.setResult x .exception).setPhase t (.loop failed rest (.skip (g.children x ++ stack)))

/-- One atomic step of the executor or of `on_task_completed` for task `t`. -/
def step (g : PipelineGraph ι α) (policy : ErrorPolicy) (s : State ι α) (t : ι) :
    Option (State ι α) :=
  match s.phase t with
  | .idle | .finished _ => none
  | .running input =>
    match (g.task t).func input with
    | some v => some (((s.setResult t (.value v)).note (.returned t v)).setPhase t .completed)
    | none => some (((s.setResult t .exception).note (.threw t)).setPhase t .completed)
  | .completed =>
    if s.hasException t then some ({ s with hasError := true }.setPhase t .failing)
    else some (s.setPhase t (.loop false (g.children t) .next))
  | .failing =>
    let s' := { s.count (-1) with hasError := true }
    if policy = .failFast then
      some ((s'.note (.processed t)).setPhase t (.finished (g.children t)))
    else some (s'.setPhase t (.loop true (g.children t) .next))
  | .loop failed rest action => some (loopStep g policy s t failed rest action)

/-- `depends_on` counts a reader for each edge. -/
def PipelineGraph.readers (g : PipelineGraph ι α) (t : ι) : Int := (g.children t).length

/-- Task `t` depends on the source, directly or through others, or is the source. -/
def PipelineGraph.Reachable (g : PipelineGraph ι α) (source t : ι) : Prop :=
  Relation.ReflTransGen (fun p c => c ∈ g.children p) source t

/-- `schedule` has set the counters of the reachable tasks and submitted the source;
the results are fresh. -/
structure Initial (g : PipelineGraph ι α) (source : ι) (input : Value α) (s : State ι α) :
    Prop where
  result : s.result = fun _ => none
  pendingParents : ∀ t, g.Reachable source t → s.pendingParents t = (g.task t).parents.length
  pendingReaders : s.pendingReaders = g.readers
  pendingCount : s.pendingCount = 1
  hasError : s.hasError = false
  phase : s.phase = Function.update (fun _ => .idle) source
    (.running ((g.task source).initialInput.getD input))
  unread : s.unread = fun t => (g.task t).parents
  log : s.log = [.submitted source ((g.task source).initialInput.getD input)]

/-- The states of runs whose steps all meet a condition on the state before the step
and the task it is of. -/
inductive Reach (g : PipelineGraph ι α) (policy : ErrorPolicy) (source : ι) (input : Value α)
    (condition : State ι α → ι → Prop) : State ι α → Prop
  | init {s : State ι α} (h : Initial g source input s) : Reach g policy source input condition s
  | step {s s' : State ι α} {t : ι} (h : Reach g policy source input condition s)
      (hs : step g policy s t = some s') (meets : condition s t) :
      Reach g policy source input condition s'

end Step

end DFTracer.Tasks
