/-
# The parameters of a task graph and its results

Two parameters of the builder should not show in a graph's results: the bound on the tasks in
flight, and the number of tasks a reduction combines at a time. The first shows as soon as it
binds, unless the types hide it. The second never shows, except that a reduction in groups of one
is never built.
-/

import DFTracer.Tasks.TreeReduce

namespace DFTracer.Tasks

open List

variable {α : Type} {T : TypeIndex}

/-- The task is a tree of nodes that apply `R`, over the tasks of the group. -/
def CombinesWith (g : TaskGraph α) (R : List (Value α) → Option (Value α)) (final : Nat)
    (group : List Nat) : Prop :=
  Combines g.tasks (fun _ task => task.func = onVector R) [final] group

/-- `reduce` in groups of `n` is built over a group of `k`, and an associative
reducer gives what it gives for the whole group at once. No vector is one of
`void`. -/
def ReduceCombines (α : Type) (n k : Nat) : Prop :=
  ∀ (g : TaskGraph α) (U T : TypeIndex) (group : List Nat)
    (R : List (Value α) → Option (Value α)),
    group.length = k → (∀ id ∈ group, id < g.tasks.length) →
    ∃ turns g' final, reduce turns g U T group n R = some (.ok (g', [final])) ∧
      CombinesWith g' R final group ∧
      (U = T → T ≠ .void → AssociativeReducer T R → ∀ values, GroupReturns g T group values →
        ∃ w, R values = some w ∧ Returned g' T final w)

/-- `fold` in groups of `n` is built over a group of `k`, and an associative operation
with a neutral initial value gives what it gives from left to right. -/
def FoldCombines (α : Type) (n k : Nat) : Prop :=
  ∀ (g : TaskGraph α) (T : TypeIndex) (group : List Nat) (initial : Value α)
    (op : Value α → Value α → Value α),
    group.length = k → (∀ id ∈ group, id < g.tasks.length) →
    ∃ turns g' final, fold turns g T group initial n op = some (.ok (g', [final])) ∧
      CombinesWith g' (foldItems op initial) final group ∧
      (T ≠ .void → (∀ a b, a.HasType T → b.HasType T → (op a b).HasType T) →
        (∀ a b v, a.HasType T → b.HasType T → v.HasType T → op (op a b) v = op a (op b v)) →
        (∀ a, a.HasType T → op initial a = a) → ∀ values, GroupReturns g T group values →
        Returned g' T final (values.foldl op initial))

/-- `concat_partitions` in groups of `n` is built over a group of `k` and gives the
items of the whole group in order. -/
def ConcatCombines (α : Type) (n k : Nat) : Prop :=
  ∀ (g : TaskGraph α) (T : TypeIndex) (group : List Nat),
    group.length = k → (∀ id ∈ group, id < g.tasks.length) →
    ∃ turns g' final, concatPartitions turns g T group n = some (.ok (g', [final])) ∧
      CombinesWith g' (concatItems T) final group ∧
      ∀ values, GroupReturns g (.vector T) group values →
        Returned g' (.vector T) final (.vector T (values.flatMap Value.items))

section Tree

variable {g : TaskGraph α} {U T : TypeIndex} {R : List (Value α) → Option (Value α)}
variable {group : List Nat} {n : Nat}

theorem reduceLevels_tree (two : 2 ≤ n) (many : 2 ≤ group.length)
    (inside : ∀ id ∈ group, id < g.tasks.length) :
    ∃ g' final, reduceLevels (reducerTask U T R) n group.length g group =
        some (.ok (g', [final])) ∧
      CombinesWith g' R final group ∧
      (U = T → T ≠ .void → AssociativeReducer T R → ∀ values, GroupReturns g T group values →
        ∃ w, R values = some w ∧ Returned g' T final w) := by
  obtain ⟨g', more, final, built, tasks, combines⟩ := reduceLevels_spec
    (reducerTask U T R) (fun _ => rfl) two group.length g
    (by intro h; simp [h] at many) le_rfl inside (Combines.refl group)
  refine ⟨g', final, built, ?_, ?_⟩
  · have := (combines.mono fun _ task made => by rw [made.1]; rfl :
      Combines (g'.tasks ++ []) (fun _ task => task.func = onVector R) [final] group)
    rwa [append_nil] at this
  · rintro rfl hT assoc values returned
    have kept : GroupReturns g' U group values := by
      refine returned.imp fun id v h => ?_
      have := h.append more g'.maxConcurrency
      rwa [← tasks] at this
    obtain ⟨ws, one, alike⟩ := combines.values hT assoc kept
    cases one with
    | cons final rest =>
      cases rest
      rename_i w
      have typed := final.2
      rcases alike with ⟨empty, _⟩ | ⟨_, _, _, _, same⟩
      · cases empty
      · exact ⟨w, by rw [← same, assoc.single w typed], final⟩

/-- Tasks to build a tree over. -/
theorem constantGraph_inside (k : Nat) :
    ∀ id ∈ List.range k,
      id < (constantGraph 0 .void (.empty : Value α) k).tasks.length := by
  intro id h
  simpa [constantGraph, stage_tasks] using h

/-- A builder that refuses the empty group and makes a tree over two tasks or more
returns for groups of one, and otherwise only in groups of two or more. -/
theorem sizes_of_built {node : List Nat → Task Nat α} {turns : Nat}
    {f : List Nat → Option (Except BuildError (TaskGraph α × List Nat))}
    (empty : ∀ result, f [] ≠ some (.ok result))
    (tree : ∀ a b rest, f (a :: b :: rest) = reduceLevels node n turns g (a :: b :: rest))
    {result : TaskGraph α × List Nat} (built : f group = some (.ok result)) :
    group.length ≠ 0 ∧ (group.length = 1 ∨ 2 ≤ n) := by
  match group, built with
  | [], built => exact absurd built (empty result)
  | [_], _ => exact ⟨by simp, .inl rfl⟩
  | a :: b :: rest, built =>
    rw [tree] at built
    exact ⟨by simp, .inr (two_le_of_reduceLevels (by simp) built)⟩

end Tree

theorem reduce_single {g : TaskGraph α} {R : List (Value α) → Option (Value α)}
    {id : Nat} {v : Value α} (hT : T ≠ .void) (assoc : AssociativeReducer T R)
    (returned : Returned g T id v) :
    Returned (addTask (g, []) (wrappedReducer T T R id)).1 T g.tasks.length v := by
  have received : (wrappedReducer T T R id).received (runTasks g.tasks) =
      some (.vector T [v]) := by
    have typed : ∀ w ∈ [v], w.HasType T := by simpa using returned.2
    have := functionInput_vector hT typed
    simpa [Task.received, Task.parentOutputs, wrappedReducer, reducerTask, returned.1,
      prepareInputForTask] using this
  refine ⟨?_, returned.2⟩
  rw [addTask, runTasks_concat, received]
  have := assoc.single v returned.2
  simpa [wrappedReducer, reducerTask, onVector] using this

theorem combinesWith_wrapped (g : TaskGraph α) (U T : TypeIndex)
    (R : List (Value α) → Option (Value α)) (id : Nat) :
    CombinesWith (addTask (g, []) (wrappedReducer U T R id)).1 R g.tasks.length [id] := by
  have found : (g.tasks ++ [wrappedReducer U T R id])[g.tasks.length]? =
      some (wrappedReducer U T R id) := getElem?_concat_length
  have below : Combines (g.tasks ++ [wrappedReducer U T R id])
      (fun _ task => task.func = onVector R) [id] [id] := .refl [id]
  exact .node found rfl below .nil

theorem reduceCombines_iff (n k : Nat) :
    ReduceCombines α n k ↔ k ≠ 0 ∧ (k = 1 ∨ 2 ≤ n) := by
  constructor
  · intro combines
    obtain ⟨turns, g', final, built, _⟩ := combines _ .any .any (List.range k) (fun _ => none)
      (by simp) (constantGraph_inside k)
    have := sizes_of_built
      (f := fun group => reduce turns (constantGraph 0 .void (.empty : Value α) k) .any .any group n
        fun _ => none)
      (by simp [reduce]) (fun _ _ _ => rfl) built
    rwa [length_range] at this
  · rintro ⟨nonzero, size⟩ g U T group R length inside
    match group, length with
    | [], length => exact absurd length.symm nonzero
    | [id], _ =>
      refine ⟨0, _, _, rfl, combinesWith_wrapped g U T R id, ?_⟩
      rintro rfl hT assoc values (_ | ⟨one, _ | _⟩)
      exact ⟨_, assoc.single _ one.2, reduce_single hT assoc one⟩
    | a :: b :: rest, length =>
      have two : 2 ≤ n := size.resolve_left fun one => by
        rw [length_cons, length_cons] at length
        omega
      exact ⟨_, reduceLevels_tree two (by simp) inside⟩

/-- Folding from a neutral value is an associative reducer. -/
theorem foldItems_associative {op : Value α → Value α → Value α}
    {initial : Value α} (closed : ∀ a b, a.HasType T → b.HasType T → (op a b).HasType T)
    (assoc : ∀ a b v, a.HasType T → b.HasType T → v.HasType T → op (op a b) v = op a (op b v))
    (neutral : ∀ a, a.HasType T → op initial a = a) :
    AssociativeReducer T (foldItems op initial) := by
  have from_first : ∀ (v : Value α) vs, v.HasType T → (v :: vs).foldl op initial = vs.foldl op v :=
    fun v vs hv => by rw [foldl_cons, neutral v hv]
  have typed : ∀ (vs : List (Value α)) v, v.HasType T → (∀ w ∈ vs, w.HasType T) →
      (vs.foldl op v).HasType T := by
    intro vs
    induction vs with
    | nil => exact fun v hv _ => hv
    | cons w vs ih =>
      exact fun v hv h => ih _ (closed v w hv (h w (by simp))) fun u hu => h u (by simp [hu])
  have shift : ∀ (vs : List (Value α)) a b, a.HasType T → b.HasType T →
      (∀ w ∈ vs, w.HasType T) → vs.foldl op (op a b) = op a (vs.foldl op b) := by
    intro vs
    induction vs with
    | nil => exact fun _ _ _ _ _ => rfl
    | cons w vs ih =>
      intro a b ha hb h
      rw [foldl_cons, foldl_cons, assoc a b w ha hb (h w (by simp)),
        ih a (op b w) ha (closed b w hb (h w (by simp))) fun u hu => h u (by simp [hu])]
  refine ⟨fun v hv => ?_, fun vs nonempty h => ?_, fun xs ys x y nx ny hx hy ex ey => ?_⟩
  · rw [foldItems, from_first v [] hv]
    rfl
  · match vs, nonempty with
    | v :: vs, _ =>
      have hv := h v (by simp)
      refine ⟨_, rfl, ?_⟩
      rw [from_first v vs hv]
      exact typed vs v hv fun w hw => h w (by simp [hw])
  · match xs, ys, nx, ny with
    | a :: xs, b :: ys, _, _ =>
      have ha := hx a (by simp)
      have hb := hy b (by simp)
      have txs : ∀ w ∈ xs, w.HasType T := fun w hw => hx w (by simp [hw])
      have tys : ∀ w ∈ ys, w.HasType T := fun w hw => hy w (by simp [hw])
      rw [foldItems, from_first _ _ ha, Option.some.injEq] at ex
      rw [foldItems, from_first _ _ hb, Option.some.injEq] at ey
      have tx := typed xs a ha txs
      rw [foldItems, foldItems, cons_append, from_first _ _ ha, foldl_append,
        foldl_cons, shift ys _ b tx hb tys, ey, ex, from_first x [y] (ex ▸ tx)]
      rfl

theorem foldCombines_iff (n k : Nat) :
    FoldCombines α n k ↔ k ≠ 0 ∧ (k = 1 ∨ 2 ≤ n) := by
  constructor
  · intro combines
    obtain ⟨turns, g', final, built, _⟩ := combines _ .any (List.range k) .empty (fun a _ => a)
      (by simp) (constantGraph_inside k)
    have := sizes_of_built
      (f := fun group => fold turns (constantGraph 0 .void (.empty : Value α) k) .any group .empty n
        fun a _ => a)
      (by simp [fold]) (fun _ _ _ => rfl) built
    rwa [length_range] at this
  · rintro ⟨nonzero, size⟩ g T group initial op length inside
    match group, length with
    | [], length => exact absurd length.symm nonzero
    | [id], _ =>
      refine ⟨0, g, id, rfl, Combines.refl [id], ?_⟩
      rintro _ _ _ neutral values (_ | ⟨one, _ | _⟩)
      rw [foldl_cons, neutral _ one.2]
      exact one
    | a :: b :: rest, length =>
      have two : 2 ≤ n := size.resolve_left fun one => by
        rw [length_cons, length_cons] at length
        omega
      obtain ⟨g', final, built, shape, value⟩ := reduceLevels_tree (U := T) (T := T)
        (R := foldItems op initial) two (by simp) inside
      refine ⟨(a :: b :: rest).length, g', final, built, shape, ?_⟩
      intro hT closed assoc neutral values returned
      obtain ⟨w, hw, h⟩ := value rfl hT (foldItems_associative closed assoc neutral) values
        returned
      rw [foldItems, Option.some.injEq] at hw
      rwa [hw]

theorem concatItems_associative (T : TypeIndex) :
    AssociativeReducer (.vector T) (concatItems T : List (Value α) → Option (Value α)) := by
  refine ⟨fun v hv => ?_, fun vs _ _ => ⟨_, rfl, rfl⟩, fun xs ys x y _ _ _ _ ex ey => ?_⟩
  · cases v <;> simp_all [Value.HasType, Value.type, concatItems, Value.items]
  · rw [concatItems, Option.some.injEq] at ex ey
    rw [← ex, ← ey]
    simp [concatItems, Value.items]

theorem concatCombines_iff (n k : Nat) :
    ConcatCombines α n k ↔ k ≠ 0 ∧ (k = 1 ∨ 2 ≤ n) := by
  constructor
  · intro combines
    obtain ⟨turns, g', final, built, _⟩ := combines _ .any (List.range k) (by simp)
      (constantGraph_inside k)
    have := sizes_of_built
      (f := fun group => concatPartitions turns (constantGraph 0 .void (.empty : Value α) k) .any group n)
      (by simp [concatPartitions]) (fun _ _ _ => rfl) built
    rwa [length_range] at this
  · rintro ⟨nonzero, size⟩ g T group length inside
    match group, length with
    | [], length => exact absurd length.symm nonzero
    | [id], _ =>
      refine ⟨0, g, id, rfl, Combines.refl [id], ?_⟩
      rintro values (_ | ⟨one, _ | _⟩)
      rename_i v
      have typed := one.2
      cases v <;> simp_all [Value.HasType, Value.type, Value.items]
    | a :: b :: rest, length =>
      have two : 2 ≤ n := size.resolve_left fun one => by
        rw [length_cons, length_cons] at length
        omega
      obtain ⟨g', final, built, shape, value⟩ := reduceLevels_tree (U := .vector T)
        (T := .vector T) (R := concatItems T) two (by simp) inside
      refine ⟨(a :: b :: rest).length, g', final, built, shape, fun values returned => ?_⟩
      obtain ⟨w, hw, h⟩ := value rfl (by simp) (concatItems_associative T) values returned
      rw [concatItems, Option.some.injEq] at hw
      rwa [hw]

/-- Exactly when the parameters do not show. A bound is invisible where it never
binds; where it does, `parallel` needs an output that any task may take, `fan_out`
cannot do without the source's output, and `map` needs a mapper that reads nothing
through the window edge. A reduction is built and right for every group but the
empty one, which is refused, and groups of one over two tasks or more. -/
theorem graph_parameters_invisible_iff [Inhabited α] :
    (∀ T maxConc count, ParallelKeeps α T maxConc count ↔
      (maxConc = 0 ∨ count ≤ maxConc) ∨ T = .void ∨ T = .any) ∧
    (∀ U T maxConc count, FanOutKeeps α U T maxConc count ↔
      (maxConc = 0 ∨ count ≤ maxConc) ∨ T = .void) ∧
    (∀ U T I maxConc count, MapKeeps α U T I maxConc count ↔
      count = 0 ∨ (T = .void ∨ typesMatch T I) ∧
        ((maxConc = 0 ∨ count ≤ maxConc) ∨ I = .void ∨
          T = .void ∧ (U = .void ∨ I ≠ .any))) ∧
    (∀ n k, ReduceCombines α n k ↔ k ≠ 0 ∧ (k = 1 ∨ 2 ≤ n)) ∧
    (∀ n k, FoldCombines α n k ↔ k ≠ 0 ∧ (k = 1 ∨ 2 ≤ n)) ∧
    (∀ n k, ConcatCombines α n k ↔ k ≠ 0 ∧ (k = 1 ∨ 2 ≤ n)) :=
  ⟨parallelKeeps_iff, fanOutKeeps_iff, mapKeeps_iff, reduceCombines_iff, foldCombines_iff,
    concatCombines_iff⟩

/-- Two tasks of a plain type under a bound of one, and a reduction of two tasks in
groups of one. -/
theorem graph_parameters_visible :
    ¬ ParallelKeeps Nat (.named 0) 1 2 ∧ ¬ FanOutKeeps Nat (.named 0) (.named 0) 1 2 ∧
      ¬ MapKeeps Nat (.named 0) (.named 0) (.named 0) 1 2 ∧ ¬ ReduceCombines Nat 1 2 ∧
      ¬ FoldCombines Nat 1 2 ∧ ¬ ConcatCombines Nat 1 2 := by
  refine ⟨?_, ?_, ?_, ?_, ?_, ?_⟩
  · rw [parallelKeeps_iff]
    decide
  · rw [fanOutKeeps_iff]
    decide
  · rw [mapKeeps_iff]
    decide
  · rw [reduceCombines_iff]
    decide
  · rw [foldCombines_iff]
    decide
  · rw [concatCombines_iff]
    decide

end DFTracer.Tasks
