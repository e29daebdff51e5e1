/-
# Tasks of a pipeline

A task is a node of a graph: it names its parents, and its function is wrapped so that it takes a
`std::any`. The scheduler builds that input out of the outputs of the parents, and the wrapper
decodes it to the type the function declares. These two steps and the type check made before a run
decide what is promised about a task's input.
-/

import Mathlib.Data.List.Range

namespace DFTracer.Tasks

mutual

/-- What a `std::type_index` tells apart. A function that takes several arguments
takes a tuple of at least two; a shorter tuple is a type like any other. -/
inductive TypeIndex
  | void
  | any
  | vector (element : TypeIndex)
  | tuple (first second : TypeIndex) (rest : TypeList)
  | named (id : Nat)
  deriving DecidableEq

/-- The components of a tuple after the second. -/
inductive TypeList
  | nil
  | cons (head : TypeIndex) (tail : TypeList)
  deriving DecidableEq

end

def TypeList.toList : TypeList → List TypeIndex
  | .nil => []
  | .cons head tail => head :: tail.toList

/-- The content of a `std::any`, with `empty` for none. The items of a
`std::vector<std::any>` are contents again. -/
inductive Value (α : Type)
  | empty
  | plain (id : Nat) (value : α)
  | vector (element : TypeIndex) (items : List (Value α))
  | tuple (first second : TypeIndex) (rest : TypeList) (items : List (Value α))

variable {ι α : Type}

/-- `std::any::type`; an empty one holds no type. -/
def Value.type : Value α → Option TypeIndex
  | .empty => none
  | .plain id _ => some (.named id)
  | .vector element _ => some (.vector element)
  | .tuple first second rest _ => some (.tuple first second rest)

/-- What a function with this output type leaves in its task's result. -/
def Value.HasType : TypeIndex → Value α → Prop
  | .any, _ => True
  | .void, v => v = .empty
  | type, v => v.type = some type

/-- `std::any_cast`: the held type has to be the one asked for. No `std::any`
holds a `std::any`, so a cast to that type always throws. -/
def anyCast (type : TypeIndex) (v : Value α) : Option (Value α) :=
  if v.type = some type then some v else none

def vectorAnyToTyped (element : TypeIndex) (items : List (Value α)) : Option (Value α) :=
  (items.mapM (anyCast element)).map (.vector element)

/-- Components are cast one by one; items past the last component are not read.
Reading past the last item is not defined in the source, and counts as a throw. -/
def vectorToTuple (first second : TypeIndex) (rest : TypeList) (items : List (Value α)) :
    Option (Value α) :=
  let components := first :: second :: rest.toList
  if items.length < components.length then none
  else ((components.zip items).mapM fun component => anyCast component.1 component.2).map
    (.tuple first second rest)

/-- Convert the input of a task to the type its function takes. A tuple or a
vector is first sought in the packed outputs of several parents. -/
def decodeInput (type : TypeIndex) (input : Value α) : Option (Value α) :=
  match type, input with
  | .any, input => some input
  | .tuple first second rest, .vector .any items =>
    (vectorToTuple first second rest items).or (anyCast type input)
  | .vector element, .vector .any items =>
    (vectorAnyToTyped element items).or (anyCast type input)
  | type, input => anyCast type input

/-- The argument the wrapped function is called with; a function without one is
called whatever the input is. -/
def functionInput (type : TypeIndex) (input : Value α) : Option (Value α) :=
  if type = .void then some .empty else decodeInput type input

/-- A task of the graph, and the names of its parents. A function or a combiner that
throws gives `none`. -/
structure Task (ι α : Type) where
  parents : List ι
  inputType : TypeIndex
  outputType : TypeIndex
  inputCombiner : Option (List (Value α) → Option (Value α)) := none
  initialInput : Option (Value α) := none
  func : Value α → Option (Value α)

/-- Build a task's input from the output types and values of its parents, in the
order of `depends_on`. -/
def prepareInputForTask (task : Task ι α) (parents : List (TypeIndex × Value α)) :
    Option (Value α) :=
  match parents with
  | [] => some (task.initialInput.getD .empty)
  | parent :: others =>
    match task.inputCombiner with
    | some combiner => combiner (parents.map (·.2))
    | none =>
      if others = [] then some parent.2
      else if parents.all (·.1 = .void) then some .empty
      else some (.vector .any (parents.map (·.2)))

/-- Output type and result of each task run so far. -/
abbrev Outputs (α : Type) := List (TypeIndex × Option (Value α))

/-- The outputs of a task's parents, if all of them returned. -/
def Task.parentOutputs (task : Task Nat α) (outputs : Outputs α) :
    Option (List (TypeIndex × Value α)) :=
  task.parents.mapM fun p => (outputs[p]?).bind fun output => output.2.map (output.1, ·)

/-- What the function of a task is called with, `none` when it is not called. -/
def Task.received (task : Task Nat α) (outputs : Outputs α) : Option (Value α) :=
  ((task.parentOutputs outputs).bind (prepareInputForTask task)).bind
    (functionInput task.inputType)

/-- The tasks run one after the other, parents before children. -/
def runTasks (tasks : List (Task Nat α)) : Outputs α :=
  tasks.foldl
    (fun outputs task => outputs ++ [(task.outputType, (task.received outputs).bind task.func)]) []

/-- The task whose input type does not match, and its parent. -/
structure TypeMismatch where
  current : Nat
  parent : Nat
deriving DecidableEq

/-- `std::any` is a wildcard in both directions. -/
def typesMatch (output input : TypeIndex) : Bool :=
  output = input || input = .any || output = .any

/-- Whether the edge to a parent that outputs `output` is refused: only a sole
parent with an output is looked at, and only where there is no combiner. -/
def Task.edgeRefused (task : Task ι α) (output : TypeIndex) : Bool :=
  output != .void && task.parents.length = 1 && task.inputCombiner.isNone &&
    !typesMatch output task.inputType

/-- The first refused edge of a task. -/
def refusedParent (tasks : List (Task Nat α)) (task : Task Nat α) : Option Nat :=
  task.parents.find? fun p => (tasks[p]?).any fun parent => task.edgeRefused parent.outputType

/-- The tasks that depend on this one. -/
def children (tasks : List (Task Nat α)) (id : Nat) : List Nat :=
  (List.range tasks.length).filter fun c => (tasks[c]?).any fun task => id ∈ task.parents

/-- The breadth-first walk of the check. Each turn takes one task off the queue,
and `none` says that the turns given were too few. -/
def validateQueue (tasks : List (Task Nat α)) :
    Nat → List Nat → List Nat → Option (Except TypeMismatch Unit)
  | 0, _, _ => none
  | _ + 1, _, [] => some (.ok ())
  | turns + 1, visited, current :: queue =>
    match (tasks[current]?).bind (refusedParent tasks) with
    | some parent => some (.error ⟨current, parent⟩)
    | none =>
      let fresh := (children tasks current).filter (· ∉ visited)
      validateQueue tasks turns (visited ++ fresh) (queue ++ fresh)

/-- Check the edges of a task and of all its descendants. No task enters the queue
twice, so one turn for each is enough. -/
def validateTaskTypes (tasks : List (Task Nat α)) (source : Nat) :
    Option (Except TypeMismatch Unit) :=
  validateQueue tasks (tasks.length + 1) [source] [source]

end DFTracer.Tasks
