/-
# The window edges of a throttled stage

`parallel`, `fan_out` and `map` add a stage: one task for each index, fed by at
most one task from outside and, from the bound on, by the task one window before.
The second edge keeps the number of unfinished tasks of the stage at the bound. It
is also an input: the function of such a task is handed the outputs of both
parents, or the output of the wrong one.
-/

import DFTracer.Tasks.TaskGraph
import Mathlib.Data.Finset.Card

namespace DFTracer.Tasks

open List

variable {α : Type} {I : TypeIndex}

/-- Where the window edge of task `i` leads when the stage starts at `base`. -/
def windowIds (base maxConc i : Nat) : List Nat :=
  if 0 < maxConc ∧ maxConc ≤ i then [base + (i - maxConc)] else []

theorem slidingWindow_eq (g : TaskGraph α) (maxConc count : Nat)
    (make : Nat → List Nat → Task Nat α) :
    slidingWindow g maxConc count make =
      ({ g with
          tasks := g.tasks ++
            (List.range count).map fun i => make i (windowIds g.tasks.length maxConc i) },
        (List.range count).map (g.tasks.length + ·)) := by
  unfold slidingWindow
  induction count with
  | zero => simp
  | succ count ih =>
    have edge : windowEdge maxConc count ((List.range count).map (g.tasks.length + ·)) =
        windowIds g.tasks.length maxConc count := by
      unfold windowEdge windowIds
      split
      · rename_i h
        have : count - maxConc < count := by omega
        simp [this]
      · rfl
    rw [range_succ, foldl_append, ih]
    simp [addTask, edge]

/-- A stage: task `i` is fed by `feed i` and by its window edge. -/
def stage (g : TaskGraph α) (feed : Nat → List Nat) (I U : TypeIndex)
    (func : Nat → Value α → Option (Value α)) (maxConc count : Nat) : TaskGraph α :=
  (slidingWindow g maxConc count fun i window =>
    { parents := feed i ++ window, inputType := I, outputType := U, func := func i }).1

section Stage

variable {g : TaskGraph α} {feed : Nat → List Nat} {T I U : TypeIndex}
variable {func : Nat → Value α → Option (Value α)} {maxConc count i p : Nat} {v : Value α}

theorem stage_tasks :
    (stage g feed I U func maxConc count).tasks =
      g.tasks ++ (List.range count).map fun i =>
        { parents := feed i ++ windowIds g.tasks.length maxConc i, inputType := I,
          outputType := U, func := func i } := by
  rw [stage, slidingWindow_eq]

theorem stage_getElem? (h : i < count) :
    (stage g feed I U func maxConc count).tasks[g.tasks.length + i]? =
      some { parents := feed i ++ windowIds g.tasks.length maxConc i, inputType := I,
             outputType := U, func := func i } := by
  rw [stage_tasks]
  simp [h]

theorem windowIds_lt {base q : Nat} (h : q ∈ windowIds base maxConc i) : q < base + i := by
  unfold windowIds at h
  split at h
  · simp only [mem_singleton] at h
    omega
  · cases h

variable (g feed I U func maxConc) in
theorem stage_output (h : i < count) (fed : ∀ q ∈ feed i, q < g.tasks.length) :
    (runTasks (stage g feed I U func maxConc count).tasks)[g.tasks.length + i]? =
      some (U, ((stage g feed I U func maxConc count).received (g.tasks.length + i)).bind
        (func i)) := by
  rw [runTasks_getElem? (stage_getElem? h), TaskGraph.received, stage_getElem? h,
    Option.bind_some]
  intro q hq
  rcases mem_append.mp hq with hq | hq
  · have := fed q hq
    omega
  · exact windowIds_lt hq

theorem Returned.stage {q : Nat} (h : Returned g T q v) :
    Returned (stage g feed I U func maxConc count) T q v := by
  have same := h.append ((List.range count).map fun i =>
    { parents := feed i ++ windowIds g.tasks.length maxConc i, inputType := I,
      outputType := U, func := func i }) (Tasks.stage g feed I U func maxConc count).maxConcurrency
  rwa [← stage_tasks] at same

/-- Outside the window a fed task gets the output of the task that feeds it. -/
theorem fed_received_free (h : i < count) (hp : feed i = [p]) (hv : Returned g T p v)
    (free : ¬ (0 < maxConc ∧ maxConc ≤ i)) :
    (stage g feed I U func maxConc count).received (g.tasks.length + i) =
      functionInput I v := by
  have out : (runTasks (stage g feed I U func maxConc count).tasks)[p]? = some (T, some v) :=
    hv.stage.1
  rw [TaskGraph.received, stage_getElem? h]
  simp [Task.received, Task.parentOutputs, hp, windowIds, free, out, prepareInputForTask]

/-- Inside the window it gets that output packed with the one of a sibling, and
nothing where the sibling did not return. -/
theorem fed_received_window (h : i < count) (hp : feed i = [p]) (hv : Returned g T p v)
    (fed : ∀ q ∈ feed (i - maxConc), q < g.tasks.length) (pos : 0 < maxConc)
    (window : maxConc ≤ i) :
    (stage g feed I U func maxConc count).received (g.tasks.length + i) =
      (((stage g feed I U func maxConc count).received
          (g.tasks.length + (i - maxConc))).bind (func (i - maxConc))).bind fun r =>
        functionInput I (if T = .void ∧ U = .void then .empty else .vector .any [v, r]) := by
  have out : (runTasks (stage g feed I U func maxConc count).tasks)[p]? = some (T, some v) :=
    hv.stage.1
  have sibling := stage_output g feed I U func maxConc
    (show i - maxConc < count by omega) fed
  generalize ((stage g feed I U func maxConc count).received
    (g.tasks.length + (i - maxConc))).bind (func (i - maxConc)) = result at sibling ⊢
  rw [TaskGraph.received, stage_getElem? h]
  cases result with
  | none =>
    simp [Task.received, Task.parentOutputs, windowIds, pos, window, sibling]
  | some r =>
    by_cases void : T = .void ∧ U = .void
    · obtain ⟨rfl, rfl⟩ := void
      simp [Task.received, Task.parentOutputs, hp, windowIds, pos, window, out, sibling,
        prepareInputForTask]
    · simp [Task.received, Task.parentOutputs, hp, windowIds, pos, window, out, sibling,
        prepareInputForTask, void]

end Stage

/-! ## When throttling keeps a stage

A throttled stage is compared with the same stage without a bound: it has to pass
the type check, call each function with the same argument, and keep its unfinished
tasks within the bound. The last always holds. The first two fail as soon as a
window edge exists, unless the types are such that nothing is read through it. -/

/-- The functions of a stage return values of type `U`. -/
def Returns (U : TypeIndex) (func : Nat → Value α → Option (Value α)) : Prop :=
  ∀ i x, ∃ v, func i x = some v ∧ v.HasType U

/-- A moment of a run: a task is started once its parents have finished. -/
structure Moment (tasks : List (Task Nat α)) where
  started : Finset Nat
  finished : Finset Nat
  started_of_finished : finished ⊆ started
  parents_finished : ∀ (id : Nat) (task : Task Nat α), id ∈ started → tasks[id]? = some task →
    ∀ p ∈ task.parents, p ∈ finished

/-- What a bound on the tasks in flight promises about a stage, compared with the
stage built without it. -/
structure Throttled (throttled free : TaskGraph α × List Nat) (maxConc : Nat) : Prop where
  passes : PassesValidation throttled.1
  same : throttled.2.map throttled.1.received = free.2.map free.1.received
  bounded : 0 < maxConc → ∀ moment : Moment throttled.1.tasks,
    (throttled.2.toFinset ∩ (moment.started \ moment.finished)).card ≤ maxConc

section Stage

variable {g : TaskGraph α} {feed : Nat → List Nat} {T I U : TypeIndex}
variable {func : Nat → Value α → Option (Value α)} {maxConc count : Nat} {values : Nat → Value α}
  {i : Nat}

section

variable (moment : Moment (stage g feed I U func maxConc count).tasks) (pos : 0 < maxConc)

include moment pos

/-- Along the window edges a started task drags the finished ones behind it. -/
theorem finished_before {j : Nat} (hj : j < count) (started : g.tasks.length + j ∈ moment.started)
    (k : Nat) (hk : (k + 1) * maxConc ≤ j) :
    g.tasks.length + (j - (k + 1) * maxConc) ∈ moment.finished := by
  have step : ∀ j, j < count → maxConc ≤ j → g.tasks.length + j ∈ moment.started →
      g.tasks.length + (j - maxConc) ∈ moment.finished := fun j hj window started =>
    moment.parents_finished _ _ started (stage_getElem? hj) _ (by simp [windowIds, pos, window])
  induction k with
  | zero => simpa using step j hj (by simpa using hk) started
  | succ k ih =>
    have hk' : (k + 1) * maxConc + maxConc ≤ j := by
      rw [← Nat.succ_mul]
      exact hk
    have earlier := moment.started_of_finished (ih (by omega))
    have := step (j - (k + 1) * maxConc) (by omega) (by omega) earlier
    rwa [Nat.sub_sub, ← Nat.succ_mul] at this

/-- At most `maxConc` tasks of a stage are started and unfinished: two of them in
one residue class would be a chain of window edges apart. -/
theorem stage_bounded :
    (((List.range count).map (g.tasks.length + ·)).toFinset ∩
      (moment.started \ moment.finished)).card ≤ maxConc := by
  have apart : ∀ i j, i < j → j < count → i % maxConc = j % maxConc →
      g.tasks.length + j ∈ moment.started → g.tasks.length + i ∈ moment.finished := by
    intro i j hij hj residue started
    have hi : maxConc * (i / maxConc) + i % maxConc = i := Nat.div_add_mod i maxConc
    have hj' : maxConc * (j / maxConc) + j % maxConc = j := Nat.div_add_mod j maxConc
    have quotients : i / maxConc < j / maxConc := by
      by_contra le
      have := Nat.mul_le_mul_left maxConc (not_lt.mp le)
      omega
    obtain ⟨k, hk⟩ := Nat.exists_eq_add_of_lt quotients
    have expand : maxConc * (j / maxConc) = maxConc * (i / maxConc) + (k + 1) * maxConc := by
      rw [hk, Nat.add_assoc, Nat.mul_add, Nat.mul_comm maxConc (k + 1)]
    have := finished_before moment pos hj started k (by omega)
    rwa [show j - (k + 1) * maxConc = i by omega] at this
  have inRange : Set.MapsTo (fun id => (id - g.tasks.length) % maxConc)
      ((((List.range count).map (g.tasks.length + ·)).toFinset ∩
        (moment.started \ moment.finished) : Finset Nat) : Set Nat)
      (Finset.range maxConc : Set Nat) := by
    intro id _
    simpa using Nat.mod_lt _ pos
  have injective : Set.InjOn (fun id => (id - g.tasks.length) % maxConc)
      ((((List.range count).map (g.tasks.length + ·)).toFinset ∩
        (moment.started \ moment.finished) : Finset Nat) : Set Nat) := by
    intro a ha b hb residue
    simp only [Finset.coe_inter, Finset.coe_sdiff, Set.mem_inter_iff, Finset.mem_coe, mem_toFinset,
      mem_map, mem_range] at ha hb
    obtain ⟨⟨i, hi, rfl⟩, si, fi⟩ := ha
    obtain ⟨⟨j, hj, rfl⟩, sj, fj⟩ := hb
    simp only [Nat.add_sub_cancel_left] at residue
    rcases lt_trichotomy i j with lt | eq | gt
    · exact absurd (apart i j lt hj residue sj) fi
    · rw [eq]
    · exact absurd (apart j i gt hi residue.symm si) fj
  simpa using Finset.card_le_card_of_injOn _ inRange injective

end

/-- Nothing decodes from an empty `std::any` but a `std::any`. -/
theorem functionInput_empty (hv : I ≠ .void) (ha : I ≠ .any) :
    functionInput I (.empty : Value α) = none := by
  cases I <;> simp_all [functionInput, decodeInput, anyCast, Value.type]

/-- Each task of the stage is fed by one task of type `T` that returned. -/
def Fed (g : TaskGraph α) (feed : Nat → List Nat) (T : TypeIndex) (values : Nat → Value α)
    (count : Nat) : Prop :=
  ∀ i < count, ∃ p, feed i = [p] ∧ Returned g T p (values i)

theorem Fed.lt (fed : Fed g feed T values count)
    (h : i < count) : ∀ q ∈ feed i, q < g.tasks.length := by
  obtain ⟨p, hp, returned⟩ := fed i h
  intro q hq
  rw [hp, mem_singleton] at hq
  exact hq ▸ returned.lt

theorem Fed.received_free (fed : Fed g feed T values count)
    (h : i < count) (free : ¬ (0 < maxConc ∧ maxConc ≤ i)) :
    (stage g feed I U func maxConc count).received (g.tasks.length + i) =
      functionInput I (values i) := by
  obtain ⟨p, hp, returned⟩ := fed i h
  exact fed_received_free h hp returned free

/-- Where the stage's functions take nothing, or the tasks that feed it return
nothing that could be read, the window edges change no argument. -/
theorem Fed.received_same (fed : Fed g feed T values count) (returns : Returns U func)
    (blind : I = .void ∨ T = .void ∧ (U = .void ∨ I ≠ .any)) (h : i < count) :
    (stage g feed I U func maxConc count).received (g.tasks.length + i) =
      functionInput I (values i) := by
  induction i using Nat.strong_induction_on with
  | _ i ih =>
    by_cases window : 0 < maxConc ∧ maxConc ≤ i
    · obtain ⟨p, hp, returned⟩ := fed i h
      have earlier : i - maxConc < count := by omega
      rw [fed_received_window h hp returned (fed.lt earlier) window.1 window.2,
        ih (i - maxConc) (by omega) earlier]
      obtain ⟨q, _, sibling⟩ := fed _ earlier
      by_cases noInput : I = .void
      · obtain ⟨r, hr, _⟩ := returns (i - maxConc) .empty
        simp [functionInput, noInput, hr]
      · obtain ⟨void, quiet⟩ := blind.resolve_left noInput
        have here : values i = .empty := by simpa [void, Value.HasType] using returned.2
        have there : values (i - maxConc) = .empty := by
          simpa [void, Value.HasType] using sibling.2
        rw [here, there]
        rcases quiet with silent | typed
        · cases hx : functionInput I (.empty : Value α) with
          | none => rfl
          | some x =>
            obtain ⟨r, hr, _⟩ := returns (i - maxConc) x
            simp [hr, void, silent, hx]
        · rw [functionInput_empty noInput typed]
          rfl
    · exact fed.received_free h window

end Stage

/-- Some value of each type. -/
def sample [Inhabited α] : TypeIndex → Value α
  | .void => .empty
  | .any => .empty
  | .vector element => .vector element []
  | .tuple first second rest => .tuple first second rest []
  | .named id => .plain id default

theorem sample_hasType [Inhabited α] (T : TypeIndex) : (sample T : Value α).HasType T := by
  cases T <;> simp [sample, Value.HasType, Value.type]

theorem functionInput_sample [Inhabited α] (hv : I ≠ .void) :
    functionInput I (sample I : Value α) = some (sample I) := by
  cases I with
  | void => exact absurd rfl hv
  | any => rfl
  | vector element =>
    cases element <;> simp [functionInput, decodeInput, sample, vectorAnyToTyped, anyCast,
      Value.type]
  | tuple first second rest | named id =>
    simp [functionInput, decodeInput, sample, anyCast, Value.type]

/-- The outputs of two parents never decode to what the first of them does. -/
theorem functionInput_packed_ne [Inhabited α] (hv : I ≠ .void) (ha : I ≠ .any) (r : Value α) :
    functionInput I (.vector .any [sample I, r]) ≠ some (sample I) := by
  cases I with
  | void => exact absurd rfl hv
  | any => exact absurd rfl ha
  | vector element =>
    have : .vector element ≠ element := fun h => by
      have := congrArg sizeOf h
      simp at this
    cases element <;>
      simp_all [functionInput, decodeInput, sample, vectorAnyToTyped, anyCast, Value.type]
  | tuple first second rest =>
    have : .tuple first second rest ≠ first := fun h => by
      have := congrArg sizeOf h
      simp at this
      omega
    simp [functionInput, decodeInput, sample, vectorToTuple, anyCast, Value.type, this]
  | named id => simp [functionInput, decodeInput, anyCast, Value.type]

section Check

variable {g : TaskGraph α} {feed : Nat → List Nat} {T I U : TypeIndex}
variable {func : Nat → Value α → Option (Value α)} {maxConc count : Nat}

theorem stage_passes_iff (pass : PassesValidation g) (first : ParentsFirst g.tasks) :
    PassesValidation (stage g feed I U func maxConc count) ↔
      ∀ i < count, ∀ p ∈ feed i ++ windowIds g.tasks.length maxConc i, ∀ parent : Task Nat α,
        (stage g feed I U func maxConc count).tasks[p]? = some parent →
        (feed i ++ windowIds g.tasks.length maxConc i).length = 1 →
        parent.outputType = .void ∨ typesMatch parent.outputType I := by
  have append := passesValidation_append pass first ((List.range count).map fun i =>
    ({ parents := feed i ++ windowIds g.tasks.length maxConc i, inputType := I,
       outputType := U, func := func i } : Task Nat α)) (stage g feed I U func maxConc count).maxConcurrency
  rw [← stage_tasks] at append
  refine append.trans ?_
  simp only [forall_mem_map, mem_range, refusedParent, find?_eq_none]
  refine forall₂_congr fun i _ => forall₂_congr fun p _ => ?_
  cases (stage g feed I U func maxConc count).tasks[p]? with
  | none => simp
  | some parent =>
    simp only [Task.edgeRefused]
    generalize (feed i ++ windowIds g.tasks.length maxConc i).length = edges
    by_cases void : parent.outputType = .void
    · simp [void]
    · by_cases one : edges = 1
      · simp [void]
      · simp [one]

/-- A fed stage passes when the types of its one data edge match. -/
theorem Fed.passes_iff {values : Nat → Value α} (fed : Fed g feed T values count)
    (pass : PassesValidation g) (first : ParentsFirst g.tasks) :
    PassesValidation (stage g feed I U func maxConc count) ↔
      count = 0 ∨ T = .void ∨ typesMatch T I := by
  rw [stage_passes_iff pass first]
  constructor
  · intro h
    rcases Nat.eq_zero_or_pos count with zero | some
    · exact .inl zero
    · obtain ⟨p, hp, returned⟩ := fed 0 some
      have kept : Returned (stage g feed I U func maxConc count) T p (values 0) := returned.stage
      obtain ⟨parent, hparent, rfl⟩ := kept.outputType
      have noWindow : windowIds g.tasks.length maxConc 0 = [] := by
        unfold windowIds
        rw [if_neg (by omega)]
      refine .inr (h 0 some p (by simp [hp]) parent hparent ?_)
      rw [noWindow, hp]
      rfl
  · rintro h i hi p hmem parent hparent one
    rcases h with zero | typed
    · omega
    · obtain ⟨q, hq, returned⟩ := fed i hi
      have kept : Returned (stage g feed I U func maxConc count) T q (values i) := returned.stage
      obtain ⟨task, htask, rfl⟩ := kept.outputType
      have alone : windowIds g.tasks.length maxConc i = [] := by
        rw [hq] at one
        exact eq_nil_of_length_eq_zero (by simpa using one)
      rw [alone, hq, append_nil, mem_singleton] at hmem
      rw [hmem, htask, Option.some.injEq] at hparent
      rwa [← hparent]

/-- A stage fed by nothing passes when no window edge exists or its own output may
flow into a function without input. -/
theorem parallel_passes_iff (pass : PassesValidation g) (first : ParentsFirst g.tasks) :
    PassesValidation (stage g (fun _ => []) .void T func maxConc count) ↔
      (maxConc = 0 ∨ count ≤ maxConc) ∨ T = .void ∨ T = .any := by
  rw [stage_passes_iff pass first]
  constructor
  · intro h
    by_cases window : maxConc = 0 ∨ count ≤ maxConc
    · exact .inl window
    · have hpos : 0 < maxConc := by omega
      have hlt : maxConc < count := by omega
      have edge : windowIds g.tasks.length maxConc maxConc = [g.tasks.length + 0] := by
        simp [windowIds, hpos]
      have := h maxConc hlt (g.tasks.length + 0) (by simp [edge]) _
        (stage_getElem? (show 0 < count by omega)) (by simp [edge])
      right
      simpa [typesMatch] using this
  · rintro h i hi p hmem parent hparent _
    have member : p ∈ windowIds g.tasks.length maxConc i := by simpa using hmem
    unfold windowIds at member
    split at member
    · rename_i window
      rw [mem_singleton] at member
      rw [member, stage_getElem? (by omega), Option.some.injEq] at hparent
      rw [← hparent]
      rcases h with free | typed
      · omega
      · simpa [typesMatch] using typed
    · cases member

end Check

section Stages

variable {g : TaskGraph α} {T I U : TypeIndex} {maxConc count : Nat}

/-- Throttled and free stage side by side, task for task. -/
theorem stage_same_iff {feed : Nat → List Nat} {func : Nat → Value α → Option (Value α)} :
    (slidingWindow g maxConc count fun i window =>
        { parents := feed i ++ window, inputType := I, outputType := U, func := func i }).2.map
        (stage g feed I U func maxConc count).received =
      (slidingWindow { g with maxConcurrency := 0 } 0 count fun i window =>
        { parents := feed i ++ window, inputType := I, outputType := U, func := func i }).2.map
        (stage { g with maxConcurrency := 0 } feed I U func 0 count).received ↔
      ∀ i < count, (stage g feed I U func maxConc count).received (g.tasks.length + i) =
        (stage { g with maxConcurrency := 0 } feed I U func 0 count).received
          (g.tasks.length + i) := by
  simp only [slidingWindow_eq]
  simp

/-- The names a stage gives its tasks are those the bound is about. -/
theorem stage_ids {make : Nat → List Nat → Task Nat α} :
    (slidingWindow g maxConc count make).2 = (List.range count).map (g.tasks.length + ·) := by
  rw [slidingWindow_eq]

/-- A throttled stage keeps its promises once it passes the check and calls its
functions with the same arguments; the bound is kept in any case. -/
theorem throttled_iff (feed : Nat → List Nat) (func : Nat → Value α → Option (Value α)) :
    Throttled
      (slidingWindow g maxConc count fun i window =>
        { parents := feed i ++ window, inputType := I, outputType := U, func := func i })
      (slidingWindow { g with maxConcurrency := 0 } 0 count fun i window =>
        { parents := feed i ++ window, inputType := I, outputType := U, func := func i })
      maxConc ↔
      PassesValidation (stage g feed I U func maxConc count) ∧
        ∀ i < count, (stage g feed I U func maxConc count).received (g.tasks.length + i) =
          (stage { g with maxConcurrency := 0 } feed I U func 0 count).received
            (g.tasks.length + i) := by
  constructor
  · rintro ⟨passes, same, _⟩
    exact ⟨passes, stage_same_iff.mp same⟩
  · rintro ⟨passes, same⟩
    refine ⟨passes, stage_same_iff.mpr same, fun pos moment => ?_⟩
    rw [stage_ids]
    exact stage_bounded moment pos

end Stages

end DFTracer.Tasks
