/-
# Building task graphs

A builder appends tasks and wires them to tasks that exist already, so every parent stands before
its children. `parallel`, `fan_out` and `map` add one task for each index and, under a bound on
the tasks in flight, make task `i` depend on task `i - max_concurrency` by an ordinary edge.
`reduce`, `fold` and `concat_partitions` combine a group level by level until one task is left.
-/

import DFTracer.Tasks.Task
import Mathlib.Data.List.Perm.Subperm

namespace DFTracer.Tasks

open List

variable {α : Type}

/-- The tasks made so far, those of the caller included, and the bound that holds
where a method is given none. -/
structure TaskGraph (α : Type) where
  maxConcurrency : Nat := 0
  tasks : List (Task Nat α) := []

/-- The override of a method wins over the graph's bound; 0 is no bound. -/
def TaskGraph.resolveMaxConcurrency (g : TaskGraph α) (methodOverride : Nat) : Nat :=
  if 0 < methodOverride then methodOverride else g.maxConcurrency

/-- Add a task and the name it goes by to a group. -/
def addTask (state : TaskGraph α × List Nat) (task : Task Nat α) : TaskGraph α × List Nat :=
  ({ state.1 with tasks := state.1.tasks ++ [task] }, state.2 ++ [state.1.tasks.length])

/-- The edge that keeps task `i` of a group waiting for task `i - maxConc`. -/
def windowEdge (maxConc i : Nat) (group : List Nat) : List Nat :=
  if 0 < maxConc ∧ maxConc ≤ i then (group[i - maxConc]?).toList else []

/-- The loop `parallel`, `fan_out` and `map` share: `make i window` is task `i`
given its window edge. -/
def slidingWindow (g : TaskGraph α) (maxConc count : Nat) (make : Nat → List Nat → Task Nat α) :
    TaskGraph α × List Nat :=
  (List.range count).foldl
    (fun state i => addTask state (make i (windowEdge maxConc i state.2))) (g, [])

/-- `count` tasks of output type `T`, each called with its index. -/
def parallel (g : TaskGraph α) (T : TypeIndex) (count : Nat) (func : Nat → Option (Value α))
    (maxConcurrency : Nat) : TaskGraph α × List Nat :=
  slidingWindow g (g.resolveMaxConcurrency maxConcurrency) count fun i window =>
    { parents := window, inputType := .void, outputType := T, func := fun _ => func i }

/-- What a builder method refuses. -/
inductive BuildError
  | invalidArgument
  | internal
deriving DecidableEq

/-- One source of type `T` into `count` tasks of type `U`, each called with the
source's output and its index. -/
def fanOut (g : TaskGraph α) (U T : TypeIndex) (source : List Nat) (count : Nat)
    (mapper : Value α → Nat → Option (Value α)) (maxConcurrency : Nat) :
    Except BuildError (TaskGraph α × List Nat) :=
  match source with
  | [sourceTask] =>
    .ok (slidingWindow g (g.resolveMaxConcurrency maxConcurrency) count fun i window =>
      { parents := sourceTask :: window, inputType := T, outputType := U,
        func := fun input => mapper input i })
  | _ => .error .invalidArgument

/-- One task for each task of the group; the mapper declares its own input type. -/
def map (g : TaskGraph α) (U input : TypeIndex) (group : List Nat)
    (mapper : Value α → Option (Value α)) (maxConcurrency : Nat) : TaskGraph α × List Nat :=
  slidingWindow g (g.resolveMaxConcurrency maxConcurrency) group.length fun i window =>
    { parents := (group[i]?).toList ++ window, inputType := input, outputType := U,
      func := mapper }

/-! ## Tree reductions -/

/-- Contiguous groups of `n`, the last one of what is left. -/
def partitionAll {β : Type} (n : Nat) (items : List β) : Except BuildError (List (List β)) :=
  if n = 0 then .error .invalidArgument
  else .ok ((List.range ((items.length + n - 1) / n)).map fun k => (items.drop (k * n)).take n)

/-- The wrapped function of a node that combines a vector of `T`. -/
def onVector (combine : List (Value α) → Option (Value α)) : Value α → Option (Value α)
  | .vector _ items => combine items
  | _ => none

/-- A node of the tree over some parents. -/
def reducerTask (U T : TypeIndex) (combine : List (Value α) → Option (Value α))
    (parents : List Nat) : Task Nat α :=
  { parents, inputType := .vector T, outputType := U, func := onVector combine }

/-- One level of the tree: a group of one passes through, any other gets a node. -/
def reduceLevel (node : List Nat → Task Nat α) (g : TaskGraph α) (groups : List (List Nat)) :
    TaskGraph α × List Nat :=
  groups.foldl
    (fun state group =>
      match group with
      | [single] => (state.1, state.2 ++ [single])
      | parents => addTask state (node parents)) (g, [])

/-- The loop over the levels, while more than one task is left; `none` says that
it still runs after this many turns. -/
def reduceLevels (node : List Nat → Task Nat α) (n : Nat) :
    Nat → TaskGraph α → List Nat → Option (Except BuildError (TaskGraph α × List Nat))
  | 0, _, _ => none
  | turns + 1, g, level =>
    if 1 < level.length then
      match partitionAll n level with
      | .error e => some (.error e)
      | .ok groups =>
        let next := reduceLevel node g groups
        reduceLevels node n turns next.1 next.2
    else some (.ok (g, level))

/-- The reducer over a group of one: its combiner wraps the only output, so that the
reducer finds a vector. -/
def wrappedReducer (U T : TypeIndex) (reducer : List (Value α) → Option (Value α))
    (single : Nat) : Task Nat α :=
  { reducerTask U T reducer [single] with
    inputCombiner := some fun inputs => some (.vector .any inputs) }

/-- A tree of reducers over a group. -/
def reduce (turns : Nat) (g : TaskGraph α) (U T : TypeIndex) (group : List Nat) (n : Nat)
    (reducer : List (Value α) → Option (Value α)) :
    Option (Except BuildError (TaskGraph α × List Nat)) :=
  match group with
  | [] => some (.error .invalidArgument)
  | [single] => some (.ok (addTask (g, []) (wrappedReducer U T reducer single)))
  | group => reduceLevels (reducerTask U T reducer) n turns g group

/-- Fold the items of a node, from the initial value. -/
def foldItems (op : Value α → Value α → Value α) (initial : Value α) (items : List (Value α)) :
    Option (Value α) :=
  some (items.foldl op initial)

/-- A tree of nodes that each fold their inputs; a group of one is its own result. -/
def fold (turns : Nat) (g : TaskGraph α) (T : TypeIndex) (group : List Nat) (initial : Value α)
    (n : Nat) (op : Value α → Value α → Value α) :
    Option (Except BuildError (TaskGraph α × List Nat)) :=
  match group with
  | [] => some (.error .invalidArgument)
  | [single] => some (.ok (g, [single]))
  | group => reduceLevels (reducerTask T T (foldItems op initial)) n turns g group

/-- The items of a chunk. -/
def Value.items : Value α → List (Value α)
  | .vector _ items => items
  | _ => []

/-- Append the items of all chunks. -/
def concatItems (T : TypeIndex) (chunks : List (Value α)) : Option (Value α) :=
  some (.vector T (chunks.flatMap Value.items))

/-- A tree of nodes that append vectors of `T`; a group of one is its own result. -/
def concatPartitions (turns : Nat) (g : TaskGraph α) (T : TypeIndex) (group : List Nat)
    (n : Nat) : Option (Except BuildError (TaskGraph α × List Nat)) :=
  match group with
  | [] => some (.error .invalidArgument)
  | [single] => some (.ok (g, [single]))
  | group =>
    reduceLevels (reducerTask (.vector T) (.vector T) (concatItems T)) n turns g group

/-! ## Runs of a task graph

A run in the order of creation leaves one output for each task, and a later task
changes none of them. So the output of a task whose parents stand before it can be
read off the outputs of the finished run. -/

theorem runTasks_concat (tasks : List (Task Nat α)) (task : Task Nat α) :
    runTasks (tasks ++ [task]) =
      runTasks tasks ++ [(task.outputType, (task.received (runTasks tasks)).bind task.func)] := by
  simp [runTasks]

@[simp]
theorem length_runTasks (tasks : List (Task Nat α)) : (runTasks tasks).length = tasks.length := by
  induction tasks using List.reverseRecOn with
  | nil => rfl
  | append_singleton tasks task ih => simp [runTasks_concat, ih]

/-- Later tasks leave the outputs of earlier ones alone. -/
theorem runTasks_append (tasks more : List (Task Nat α)) :
    ∃ outputs, runTasks (tasks ++ more) = runTasks tasks ++ outputs := by
  induction more using List.reverseRecOn with
  | nil => exact ⟨[], by simp⟩
  | append_singleton more task ih =>
    obtain ⟨outputs, h⟩ := ih
    rw [← append_assoc, runTasks_concat, h, append_assoc]
    exact ⟨_, rfl⟩

variable {i : Nat} {tasks : List (Task Nat α)} {g : TaskGraph α} {T : TypeIndex} {v : Value α}

theorem runTasks_append_getElem? (tasks more : List (Task Nat α)) (h : i < tasks.length) :
    (runTasks (tasks ++ more))[i]? = (runTasks tasks)[i]? := by
  obtain ⟨outputs, eq⟩ := runTasks_append tasks more
  rw [eq, getElem?_append_left (by simpa using h)]

theorem mapM_congr_mem {β γ : Type} {f g : β → Option γ} {items : List β}
    (h : ∀ x ∈ items, f x = g x) : items.mapM f = items.mapM g := by
  induction items with
  | nil => rfl
  | cons x items ih =>
    rw [mapM_cons, mapM_cons, h x (by simp), ih fun y hy => h y (by simp [hy])]

/-- What a task receives depends on the outputs of its parents only. -/
theorem Task.received_congr (task : Task Nat α) {outputs outputs' : Outputs α}
    (h : ∀ p ∈ task.parents, outputs[p]? = outputs'[p]?) :
    task.received outputs = task.received outputs' := by
  have : task.parentOutputs outputs = task.parentOutputs outputs' := by
    exact mapM_congr_mem fun p hp => by rw [h p hp]
  rw [Task.received, Task.received, this]

/-- The output of a task whose parents stand before it. -/
theorem runTasks_getElem? {task : Task Nat α}
    (h : tasks[i]? = some task) (before : ∀ p ∈ task.parents, p < i) :
    (runTasks tasks)[i]? =
      some (task.outputType, (task.received (runTasks tasks)).bind task.func) := by
  obtain ⟨hi, rfl⟩ := List.getElem?_eq_some_iff.mp h
  have split : tasks = tasks.take i ++ [tasks[i]] ++ tasks.drop (i + 1) := by simp
  have length : (tasks.take i).length = i := by simp; omega
  have here : (runTasks tasks)[i]? = (runTasks (tasks.take i ++ [tasks[i]]))[i]? := by
    conv_lhs => rw [split]
    exact runTasks_append_getElem? _ _ (by simp; omega)
  have same : tasks[i].received (runTasks (tasks.take i)) = tasks[i].received (runTasks tasks) := by
    refine Task.received_congr _ fun p hp => ?_
    conv_rhs => rw [split, append_assoc]
    exact (runTasks_append_getElem? _ _ (by rw [length]; exact before p hp)).symm
  rw [here, runTasks_concat, ← same]
  have : (runTasks (tasks.take i)).length = i := by rw [length_runTasks, length]
  rw [getElem?_append_right (by omega), this]
  simp

/-- The argument the function of a task is called with in the run. -/
def TaskGraph.received (g : TaskGraph α) (id : Nat) : Option (Value α) :=
  (g.tasks[id]?).bind fun task => task.received (runTasks g.tasks)

/-- A task of output type `T` that returns `v` in the run. -/
def Returned (g : TaskGraph α) (T : TypeIndex) (id : Nat) (v : Value α) : Prop :=
  (runTasks g.tasks)[id]? = some (T, some v) ∧ v.HasType T

/-- The tasks of a group of type `T` return these values. -/
def GroupReturns (g : TaskGraph α) (T : TypeIndex) (group : List Nat)
    (values : List (Value α)) : Prop :=
  List.Forall₂ (Returned g T) group values

variable {id : Nat}

theorem Returned.lt (h : Returned g T id v) : id < g.tasks.length := by
  have := (List.getElem?_eq_some_iff.mp h.1).1
  simpa using this

theorem runTasks_types (tasks : List (Task Nat α)) :
    (runTasks tasks).map (·.1) = tasks.map (·.outputType) := by
  induction tasks using List.reverseRecOn with
  | nil => rfl
  | append_singleton tasks task ih => simp [runTasks_concat, ih]

theorem Returned.outputType
    (h : Returned g T id v) : ∃ task, g.tasks[id]? = some task ∧ task.outputType = T := by
  have types := congrArg (·[id]?) (runTasks_types g.tasks)
  simp only [getElem?_map, h.1] at types
  obtain ⟨task, ht, rfl⟩ := Option.map_eq_some_iff.mp types.symm
  exact ⟨task, ht, rfl⟩

/-- A group returns the same values once more tasks are there. -/
theorem Returned.append (h : Returned g T id v) (more : List (Task Nat α)) (maxConc : Nat) :
    Returned { maxConcurrency := maxConc, tasks := g.tasks ++ more } T id v := by
  refine ⟨?_, h.2⟩
  rw [runTasks_append_getElem? _ _ h.lt]
  exact h.1

/-- The check accepts the graph whichever task it starts from. -/
def PassesValidation (g : TaskGraph α) : Prop :=
  ∀ source < g.tasks.length, validateTaskTypes g.tasks source = some (.ok ())

/-- Every parent was made before its children. -/
def ParentsFirst (tasks : List (Task Nat α)) : Prop :=
  ∀ (i : Nat) (task : Task Nat α), tasks[i]? = some task → ∀ p ∈ task.parents, p < i

theorem mem_children {c : Nat} (h : c ∈ children tasks id) :
    c < tasks.length :=
  mem_range.mp (mem_filter.mp h).1

theorem nodup_children (tasks : List (Task Nat α)) (id : Nat) : (children tasks id).Nodup :=
  nodup_range.filter _

/-- Where no edge is refused the walk ends well before its turns run out: each turn
takes a task off the queue that is never put there again. -/
theorem validateQueue_ok (ok : ∀ i < tasks.length, (tasks[i]?).bind (refusedParent tasks) = none)
    (turns : Nat) (visited queue : List Nat) (nodup : visited.Nodup)
    (inside : ∀ i ∈ visited, i < tasks.length) (queued : ∀ i ∈ queue, i < tasks.length)
    (enough : queue.length + (tasks.length - visited.length) < turns) :
    validateQueue tasks turns visited queue = some (.ok ()) := by
  induction turns generalizing visited queue with
  | zero => omega
  | succ turns ih =>
    cases queue with
    | nil => rfl
    | cons current queue =>
      rw [validateQueue, ok current (queued current (by simp))]
      have fresh_mem : ∀ i ∈ (children tasks current).filter (· ∉ visited),
          i < tasks.length ∧ i ∉ visited := fun i hi =>
        ⟨mem_children (mem_filter.mp hi).1, by simpa using (mem_filter.mp hi).2⟩
      generalize hf : (children tasks current).filter (· ∉ visited) = fresh at fresh_mem
      have nodup' : (visited ++ fresh).Nodup := by
        refine nodup_append.mpr ⟨nodup, hf ▸ (nodup_children _ _).filter _, ?_⟩
        intro a ha b hb e
        exact (fresh_mem b hb).2 (e ▸ ha)
      have inside' : ∀ i ∈ visited ++ fresh, i < tasks.length := by
        intro i hi
        rcases mem_append.mp hi with hi | hi
        · exact inside i hi
        · exact (fresh_mem i hi).1
      have bound : (visited ++ fresh).length ≤ tasks.length := by
        have subset : visited ++ fresh ⊆ List.range tasks.length := fun i hi =>
          mem_range.mpr (inside' i hi)
        simpa using (subperm_of_subset nodup' subset).length_le
      refine ih _ _ nodup' inside' ?_ ?_
      · intro i hi
        rcases mem_append.mp hi with hi | hi
        · exact queued i (by simp [hi])
        · exact (fresh_mem i hi).1
      · simp only [length_append, length_cons] at *
        omega

/-- A graph passes the check exactly when no task of it has a refused edge. -/
theorem passesValidation_iff (g : TaskGraph α) :
    PassesValidation g ↔
      ∀ (i : Nat) (task : Task Nat α), g.tasks[i]? = some task →
        refusedParent g.tasks task = none := by
  constructor
  · intro h i task hi
    have := h i (List.getElem?_eq_some_iff.mp hi).1
    rw [validateTaskTypes, validateQueue, hi, Option.bind_some] at this
    cases hr : refusedParent g.tasks task with
    | none => rfl
    | some parent =>
      rw [hr] at this
      simp at this
  · intro h source hs
    refine validateQueue_ok ?_ _ _ _ (by simp) (by simpa) (by simpa) ?_
    · intro i hi
      rw [getElem?_eq_getElem hi]
      exact h i _ (getElem?_eq_getElem hi)
    · simp only [length_cons, length_nil]
      omega

/-- Adding tasks to a graph that passes leaves only the new ones to look at. -/
theorem passesValidation_append (pass : PassesValidation g)
    (first : ParentsFirst g.tasks) (more : List (Task Nat α)) (maxConc : Nat) :
    PassesValidation { maxConcurrency := maxConc, tasks := g.tasks ++ more } ↔
      ∀ task ∈ more, refusedParent (g.tasks ++ more) task = none := by
  rw [passesValidation_iff] at pass ⊢
  have old : ∀ (i : Nat) (task : Task Nat α), g.tasks[i]? = some task →
      refusedParent (g.tasks ++ more) task = none := by
    intro i task hi
    have hlt := (List.getElem?_eq_some_iff.mp hi).1
    have none := find?_eq_none.mp (pass i task hi)
    refine find?_eq_none.mpr fun p hp => ?_
    rw [getElem?_append_left (lt_trans (first i task hi p hp) hlt)]
    exact none p hp
  constructor
  · intro h task ht
    obtain ⟨k, hk⟩ := mem_iff_getElem?.mp ht
    refine h (g.tasks.length + k) task ?_
    rw [getElem?_append_right (by omega)]
    simpa using hk
  · intro h i task hi
    by_cases hlt : i < g.tasks.length
    · rw [getElem?_append_left hlt] at hi
      exact old i task hi
    · rw [getElem?_append_right (by omega)] at hi
      exact h task (mem_iff_getElem?.mpr ⟨_, hi⟩)

end DFTracer.Tasks
