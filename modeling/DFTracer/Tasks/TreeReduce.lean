/-
# Tree reductions

A level of the tree partitions the tasks that are left into contiguous groups and
puts a node over each group of two or more. So what a level combines is what the
level before it combined, in the same order, and from groups of at least two the
levels get shorter until one task is left. Groups of one pass through a level
unchanged, which for `split_every` 1 is every group of every level.
-/

import DFTracer.Tasks.TaskGraph
import DFTracer.Tasks.ThrottleStages
import Mathlib.Tactic.Linarith

namespace DFTracer.Tasks

open List

variable {α : Type} {β : Type} {n : Nat} {T : TypeIndex} {vs : List (Value α)}

theorem range_flatMap_take (items : List β) (n m : Nat) :
    ((List.range m).map fun k => (items.drop (k * n)).take n).flatten = items.take (m * n) := by
  induction m with
  | zero => simp
  | succ m ih =>
    rw [range_succ, map_append, flatten_append, ih, Nat.succ_mul,
      take_add]
    simp

theorem partitionAll_eq (h : 0 < n) (items : List β) :
    partitionAll n items =
      .ok ((List.range ((items.length + n - 1) / n)).map fun k => (items.drop (k * n)).take n) :=
  if_neg (by omega)

/-- The groups of a partition are contiguous, in order, nonempty, and together the
whole; in groups of two or more there are fewer of them than items. -/
theorem partitionAll_spec (h : 0 < n) (items : List β) :
    ∃ groups, partitionAll n items = .ok groups ∧ groups.flatten = items ∧
      (∀ group ∈ groups, group ≠ []) ∧
      (2 ≤ n → 2 ≤ items.length → 0 < groups.length ∧ groups.length < items.length) := by
  refine ⟨_, partitionAll_eq h items, ?_, ?_, ?_⟩
  · rw [range_flatMap_take]
    refine take_of_length_le ?_
    have := Nat.div_add_mod (items.length + n - 1) n
    have := Nat.mod_lt (items.length + n - 1) h
    rw [Nat.mul_comm]
    omega
  · intro group hg
    obtain ⟨k, hk, rfl⟩ := mem_map.mp hg
    have inside : k * n < items.length := by
      have := Nat.mul_le_mul_right n (Nat.succ_le_of_lt (mem_range.mp hk))
      have := Nat.div_mul_le_self (items.length + n - 1) n
      rw [Nat.succ_mul] at *
      omega
    intro empty
    have := congrArg List.length empty
    simp at this
    omega
  · intro two many
    rw [length_map, length_range]
    constructor
    · exact Nat.div_pos (by omega) h
    · rw [Nat.div_lt_iff_lt_mul h]
      have : items.length + n ≤ items.length * n := by nlinarith
      omega

/-- Each of these tasks is one of the leaves, or a node over tasks that combine some
of them; read from left to right, these are all the leaves. -/
inductive Combines (tasks : List (Task Nat α)) (isNode : Nat → Task Nat α → Prop) :
    List Nat → List Nat → Prop
  | nil : Combines tasks isNode [] []
  | leaf {id : Nat} {ids leaves : List Nat} :
      Combines tasks isNode ids leaves → Combines tasks isNode (id :: ids) (id :: leaves)
  | node {id : Nat} {task : Task Nat α} {ids inner leaves : List Nat} :
      tasks[id]? = some task → isNode id task → Combines tasks isNode task.parents inner →
      Combines tasks isNode ids leaves → Combines tasks isNode (id :: ids) (inner ++ leaves)

section Combines

variable {tasks : List (Task Nat α)} {isNode : Nat → Task Nat α → Prop} {ids ids' leaves : List Nat}

theorem Combines.refl (ids : List Nat) : Combines tasks isNode ids ids := by
  induction ids with
  | nil => exact .nil
  | cons id ids ih => exact .leaf ih

theorem Combines.append {leaves' : List Nat}
    (h : Combines tasks isNode ids leaves) (h' : Combines tasks isNode ids' leaves') :
    Combines tasks isNode (ids ++ ids') (leaves ++ leaves') := by
  induction h with
  | nil => exact h'
  | leaf _ ih => exact .leaf ih
  | node found ok inner _ _ ih =>
    rw [append_assoc]
    exact .node found ok inner ih

theorem Combines.split (h : Combines tasks isNode (ids ++ ids') leaves) :
    ∃ l l', leaves = l ++ l' ∧ Combines tasks isNode ids l ∧ Combines tasks isNode ids' l' := by
  induction ids generalizing leaves with
  | nil => exact ⟨[], leaves, rfl, .nil, h⟩
  | cons id ids ih =>
    cases h with
    | leaf h =>
      obtain ⟨l, l', rfl, first, second⟩ := ih h
      exact ⟨id :: l, l', rfl, .leaf first, second⟩
    | @node _ _ _ inner _ found ok below h =>
      obtain ⟨l, l', rfl, first, second⟩ := ih h
      exact ⟨inner ++ l, l', (append_assoc ..).symm, .node found ok below first, second⟩

theorem Combines.mono {more : List (Task Nat α)} {isNode' : Nat → Task Nat α → Prop} (weaker : ∀ id task, isNode id task → isNode' id task)
    (h : Combines tasks isNode ids leaves) : Combines (tasks ++ more) isNode' ids leaves := by
  induction h with
  | nil => exact .nil
  | leaf _ ih => exact .leaf ih
  | node found ok _ _ below ih =>
    have := (List.getElem?_eq_some_iff.mp found).1
    exact .node (by rw [getElem?_append_left this, found]) (weaker _ _ ok) below ih

end Combines

/-! ## One level and all levels -/

section Levels

variable {node : List Nat → Task Nat α} {leaves : List Nat} {n : Nat} {level : List Nat}

/-- A node that a level adds: made over at least two tasks that stand before it. -/
def MadeBy (node : List Nat → Task Nat α) (id : Nat) (task : Task Nat α) : Prop :=
  task = node task.parents ∧ 2 ≤ task.parents.length ∧ ∀ p ∈ task.parents, p < id

/-- The turn of a level for one group. -/
def reduceGroup (node : List Nat → Task Nat α) (state : TaskGraph α × List Nat)
    (group : List Nat) : TaskGraph α × List Nat :=
  match group with
  | [single] => (state.1, state.2 ++ [single])
  | parents => addTask state (node parents)

theorem reduceLevel_eq (g : TaskGraph α) (groups : List (List Nat)) :
    reduceLevel node g groups = groups.foldl (reduceGroup node) (g, []) := rfl

/-- One group of a level: what it combines is combined by the one task it leaves. -/
theorem reduceGroup_spec (parents_node : ∀ ps, (node ps).parents = ps)
    (state : TaskGraph α × List Nat) {group : List Nat} (nonempty : group ≠ [])
    (inside : ∀ id ∈ group, id < state.1.tasks.length)
    (combines : Combines state.1.tasks (MadeBy node) group leaves) :
    ∃ more id, (reduceGroup node state group).1.tasks = state.1.tasks ++ more ∧
      (reduceGroup node state group).2 = state.2 ++ [id] ∧
      id < (reduceGroup node state group).1.tasks.length ∧
      Combines (state.1.tasks ++ more) (MadeBy node) [id] leaves := by
  match group, nonempty with
  | [single], _ =>
    refine ⟨[], single, by simp [reduceGroup], rfl, inside single (by simp), ?_⟩
    exact combines.mono fun _ _ h => h
  | first :: second :: rest, _ =>
    refine ⟨[node (first :: second :: rest)], state.1.tasks.length, rfl, rfl,
      by simp [reduceGroup, addTask], ?_⟩
    rw [← append_nil leaves]
    have made : MadeBy node state.1.tasks.length (node (first :: second :: rest)) := by
      refine ⟨by rw [parents_node], by simp [parents_node], ?_⟩
      rw [parents_node]
      exact inside
    refine .node getElem?_concat_length made ?_ .nil
    rw [parents_node]
    exact combines.mono fun _ _ h => h

/-- A level leaves one task for each group and combines what its groups combine. -/
theorem reduceLevel_spec (parents_node : ∀ ps, (node ps).parents = ps)
    (groups : List (List Nat)) (state : TaskGraph α × List Nat)
    (nonempty : ∀ group ∈ groups, group ≠ [])
    (inside : ∀ id ∈ groups.flatten, id < state.1.tasks.length)
    (combines : Combines state.1.tasks (MadeBy node) groups.flatten leaves) :
    ∃ more next, (groups.foldl (reduceGroup node) state).1.tasks = state.1.tasks ++ more ∧
      (groups.foldl (reduceGroup node) state).2 = state.2 ++ next ∧
      next.length = groups.length ∧
      (∀ id ∈ next, id < (groups.foldl (reduceGroup node) state).1.tasks.length) ∧
      Combines (state.1.tasks ++ more) (MadeBy node) next leaves := by
  induction groups generalizing state leaves with
  | nil => exact ⟨[], [], by simp, by simp, rfl, by simp, combines.mono fun _ _ h => h⟩
  | cons group groups ih =>
    obtain ⟨l, l', rfl, here, there⟩ := combines.split
    obtain ⟨more, id, tasks, ids, lt, one⟩ := reduceGroup_spec parents_node state
      (nonempty group (by simp)) (fun id h => inside id (by simp [h])) here
    have there' : Combines (reduceGroup node state group).1.tasks (MadeBy node)
        groups.flatten l' := by
      rw [tasks]
      exact there.mono fun _ _ h => h
    obtain ⟨more', next, tasks', ids', length, lt', rest⟩ := ih (reduceGroup node state group)
      (fun g hg => nonempty g (by simp [hg]))
      (fun id h => by
        have := inside id (mem_append_right _ h)
        rw [tasks, length_append]
        omega) there'
    refine ⟨more ++ more', id :: next, ?_, ?_, by simp [length], ?_, ?_⟩
    · rw [foldl_cons, tasks', tasks, append_assoc]
    · rw [foldl_cons, ids', ids, append_assoc]
      rfl
    · intro i hi
      rw [foldl_cons]
      rcases mem_cons.mp hi with rfl | hi
      · rw [tasks', length_append]
        omega
      · exact lt' i hi
    · rw [← append_assoc]
      rw [tasks] at rest
      have here : Combines (state.1.tasks ++ more ++ more') (MadeBy node) [id] l :=
        one.mono fun _ _ h => h
      exact here.append rest

variable (node) in
/-- The levels end, with one task that combines the group. -/
theorem reduceLevels_spec (parents_node : ∀ ps, (node ps).parents = ps) (two : 2 ≤ n)
    (turns : Nat) (g : TaskGraph α) (nonempty : level ≠ [])
    (enough : level.length ≤ turns) (inside : ∀ id ∈ level, id < g.tasks.length)
    (combines : Combines g.tasks (MadeBy node) level leaves) :
    ∃ g' more final, reduceLevels node n turns g level = some (.ok (g', [final])) ∧
      g'.tasks = g.tasks ++ more ∧ Combines g'.tasks (MadeBy node) [final] leaves := by
  induction turns generalizing g level with
  | zero =>
    have := length_pos_iff.mpr nonempty
    omega
  | succ turns ih =>
    rw [reduceLevels]
    by_cases many : 1 < level.length
    · obtain ⟨groups, ok, flatten, full, count⟩ := partitionAll_spec (by omega : 0 < n) level
      rw [if_pos many, ok]
      dsimp only
      obtain ⟨more, next, tasks, ids, length, lt, combined⟩ := reduceLevel_spec parents_node
        groups (g, []) full (by rw [flatten]; exact inside) (by rw [flatten]; exact combines)
      rw [reduceLevel_eq]
      rw [nil_append] at ids
      have nonempty' : next ≠ [] := by
        intro h
        rw [h, length_nil] at length
        omega
      obtain ⟨g', more', final, done, tasks', single⟩ := ih
        (groups.foldl (reduceGroup node) (g, [])).1 nonempty' (by omega) lt
        (by rw [tasks]; exact combined)
      rw [ids, done]
      exact ⟨g', more ++ more', final, rfl, by rw [tasks', tasks, append_assoc], single⟩
    · match level, nonempty with
      | [final], _ => exact ⟨g, [], final, rfl, by simp, combines⟩
      | _ :: _ :: _, _ => simp at many

variable (node) in
/-- Groups of one all pass through, so a level of `split_every` 1 changes nothing. -/
theorem reduceLevel_one (g : TaskGraph α) (level : List Nat) :
    ∃ groups, partitionAll 1 level = .ok groups ∧ reduceLevel node g groups = (g, level) := by
  refine ⟨_, partitionAll_eq Nat.one_pos level, ?_⟩
  have singles : ((List.range ((level.length + 1 - 1) / 1)).map fun k =>
      (level.drop (k * 1)).take 1) = level.map fun id => [id] := by
    refine ext_getElem (by simp) fun k hk _ => ?_
    simp [take_one]
  rw [singles, reduceLevel_eq, foldl_map]
  clear singles
  have pass : ∀ acc : List Nat,
      level.foldl (fun state id => reduceGroup node state [id]) (g, acc) = (g, acc ++ level) := by
    induction level with
    | nil => simp
    | cons id level ih =>
      intro acc
      rw [foldl_cons, show reduceGroup node (g, acc) [id] = (g, acc ++ [id]) from rfl, ih]
      simp
  simpa using pass []

/-- With `split_every` 1 the loop over two tasks or more never ends. -/
theorem reduceLevels_one (turns : Nat) (g : TaskGraph α)
    (many : 1 < level.length) : reduceLevels node 1 turns g level = none := by
  induction turns with
  | zero => rfl
  | succ turns ih =>
    obtain ⟨groups, ok, same⟩ := reduceLevel_one node g level
    rw [reduceLevels, if_pos many, ok]
    dsimp only
    rw [same]
    exact ih

theorem reduceLevels_zero (turns : Nat) (g : TaskGraph α)
    (many : 1 < level.length) (result : TaskGraph α × List Nat) :
    reduceLevels node 0 turns g level ≠ some (.ok result) := by
  cases turns with
  | zero => simp [reduceLevels]
  | succ turns => simp [reduceLevels, many, partitionAll]

/-- Where the loop over two tasks or more returns a tree, groups have two or more. -/
theorem two_le_of_reduceLevels {turns : Nat} {g : TaskGraph α}
    (many : 1 < level.length) {result : TaskGraph α × List Nat}
    (h : reduceLevels node n turns g level = some (.ok result)) : 2 ≤ n := by
  by_contra small
  obtain rfl | rfl : n = 0 ∨ n = 1 := by omega
  · exact reduceLevels_zero turns g many result h
  · rw [reduceLevels_one turns g many] at h
    cases h

end Levels

/-! ## What a tree reduction returns

A reducer is associative when reducing two nonempty parts first changes nothing.
Then every task of the tree returns the reduction of the leaves it combines, so
the last one returns the reduction of the group, whatever the shape of the tree. -/

/-- A reducer on values of type `T` that does not see how its input was grouped. -/
structure AssociativeReducer (T : TypeIndex) (R : List (Value α) → Option (Value α)) : Prop where
  single : ∀ v, v.HasType T → R [v] = some v
  closed : ∀ vs, vs ≠ [] → (∀ v ∈ vs, v.HasType T) → ∃ w, R vs = some w ∧ w.HasType T
  append : ∀ xs ys x y, xs ≠ [] → ys ≠ [] → (∀ v ∈ xs, v.HasType T) → (∀ v ∈ ys, v.HasType T) →
    R xs = some x → R ys = some y → R (xs ++ ys) = R [x, y]

section Reducer

variable {T : TypeIndex} {R : List (Value α) → Option (Value α)}

/-- Both empty, or both nonempty, of type `T`, and reduced to the same value. -/
def Alike (T : TypeIndex) (R : List (Value α) → Option (Value α)) (xs ys : List (Value α)) :
    Prop :=
  (xs = [] ∧ ys = []) ∨
    (xs ≠ [] ∧ ys ≠ [] ∧ (∀ v ∈ xs, v.HasType T) ∧ (∀ v ∈ ys, v.HasType T) ∧ R xs = R ys)

theorem Alike.append (assoc : AssociativeReducer T R) {xs ys xs' ys' : List (Value α)}
    (h : Alike T R xs ys) (h' : Alike T R xs' ys') : Alike T R (xs ++ xs') (ys ++ ys') := by
  rcases h with ⟨rfl, rfl⟩ | ⟨nx, ny, tx, ty, same⟩
  · exact h'
  · rcases h' with ⟨rfl, rfl⟩ | ⟨nx', ny', tx', ty', same'⟩
    · rw [append_nil, append_nil]
      exact .inr ⟨nx, ny, tx, ty, same⟩
    · obtain ⟨x, hx, _⟩ := assoc.closed xs nx tx
      obtain ⟨x', hx', _⟩ := assoc.closed xs' nx' tx'
      refine .inr ⟨by simp [nx], by simp [ny], ?_, ?_, ?_⟩
      · exact fun v hv => (mem_append.mp hv).elim (tx v) (tx' v)
      · exact fun v hv => (mem_append.mp hv).elim (ty v) (ty' v)
      · rw [assoc.append xs xs' x x' nx nx' tx tx' hx hx',
          assoc.append ys ys' x x' ny ny' ty ty' (same ▸ hx) (same' ▸ hx')]

theorem Alike.single (v : Value α) (h : v.HasType T) : Alike T R [v] [v] := by
  refine .inr ⟨by simp, by simp, ?_, ?_, rfl⟩
  · simpa using h
  · simpa using h

end Reducer

/-! ### Values of nodes -/

theorem mapM_anyCast (hT : T ≠ .void) (ha : T ≠ .any)
    (typed : ∀ v ∈ vs, v.HasType T) : vs.mapM (anyCast T) = some vs := by
  induction vs with
  | nil => rfl
  | cons v vs ih =>
    have hv : v.type = some T := by
      cases T <;> simp_all [Value.HasType]
    rw [mapM_cons, anyCast, if_pos hv, ih fun w hw => typed w (by simp [hw])]
    rfl

/-- The packed outputs of tasks of type `T` decode to a vector of `T`. -/
theorem functionInput_vector (hT : T ≠ .void) (typed : ∀ v ∈ vs, v.HasType T) :
    functionInput (.vector T) (.vector .any vs) = some (.vector T vs) := by
  rw [functionInput, decodeInput]
  by_cases any : T = .any
  · subst any
    cases vs with
    | nil => simp [vectorAnyToTyped]
    | cons v vs =>
      have : anyCast .any v = none := by cases v <;> simp [anyCast, Value.type]
      rw [vectorAnyToTyped, mapM_cons, this]
      simp [anyCast, Value.type]
  · rw [vectorAnyToTyped, mapM_anyCast hT any typed]
    rfl

section Values

variable {g : TaskGraph α} {T : TypeIndex} {parents : List Nat} {vs : List (Value α)}
  {ids : List Nat} {R : List (Value α) → Option (Value α)}

theorem parentOutputs_of_returned (h : GroupReturns g T parents vs) :
    (parents.mapM fun p => ((runTasks g.tasks)[p]?).bind fun output =>
      output.2.map (output.1, ·)) = some (vs.map (T, ·)) := by
  induction h with
  | nil => rfl
  | cons returned _ ih =>
    rw [mapM_cons, returned.1, ih]
    rfl

theorem GroupReturns.typed {group : List Nat}
    (h : GroupReturns g T group vs) : ∀ v ∈ vs, v.HasType T := by
  induction h with
  | nil => simp
  | cons returned _ ih =>
    intro v hv
    rcases mem_cons.mp hv with rfl | hv
    · exact returned.2
    · exact ih v hv

theorem GroupReturns.split {ids' : List Nat} (h : GroupReturns g T (ids ++ ids') vs) :
    ∃ vs₁ vs₂, vs = vs₁ ++ vs₂ ∧ GroupReturns g T ids vs₁ ∧ GroupReturns g T ids' vs₂ := by
  induction ids generalizing vs with
  | nil => exact ⟨[], vs, rfl, .nil, h⟩
  | cons id ids ih =>
    cases h with
    | cons one rest =>
      obtain ⟨vs₁, vs₂, rfl, here, there⟩ := ih rest
      exact ⟨_ :: vs₁, vs₂, rfl, .cons one here, there⟩

/-- A node is called with the vector of what its parents returned. -/
theorem received_reducerTask {U : TypeIndex} (hT : T ≠ .void) (two : 2 ≤ parents.length)
    (h : GroupReturns g T parents vs) :
    (reducerTask U T R parents).received (runTasks g.tasks) = some (.vector T vs) := by
  have outputs : (reducerTask U T R parents).parentOutputs (runTasks g.tasks) =
      some (vs.map (T, ·)) := parentOutputs_of_returned h
  have length := List.Forall₂.length_eq h
  rw [Task.received, outputs, Option.bind_some]
  have typed := h.typed
  cases vs with
  | nil =>
    rw [length_nil] at length
    omega
  | cons first others =>
    cases others with
    | nil =>
      rw [length_singleton] at length
      omega
    | cons second rest =>
      have packed : prepareInputForTask (reducerTask U T R parents)
          ((first :: second :: rest).map (T, ·)) =
          some (.vector .any (first :: second :: rest)) := by
        simp [prepareInputForTask, reducerTask, hT]
      rw [packed]
      exact functionInput_vector hT typed

/-- Every task of a tree returns the reduction of the leaves it combines. -/
theorem Combines.values (hT : T ≠ .void) (assoc : AssociativeReducer T R) {leaves : List Nat}
    (h : Combines g.tasks (MadeBy (reducerTask T T R)) ids leaves)
    (returned : GroupReturns g T leaves vs) :
    ∃ ws, GroupReturns g T ids ws ∧ Alike T R ws vs := by
  induction h generalizing vs with
  | nil =>
    cases returned
    exact ⟨[], .nil, .inl ⟨rfl, rfl⟩⟩
  | leaf _ ih =>
    cases returned with
    | cons one rest =>
      obtain ⟨ws, hws, alike⟩ := ih rest
      exact ⟨_ :: ws, .cons one hws,
        (Alike.single (R := R) _ one.2).append assoc alike⟩
  | @node id task ids inner leaves found made _ _ ihInner ih =>
    obtain ⟨same, two, before⟩ := made
    obtain ⟨vs₁, vs₂, rfl, here, there⟩ := returned.split
    obtain ⟨ws, hws, alike⟩ := ihInner here
    obtain ⟨rest, hrest, alike'⟩ := ih there
    rcases alike with ⟨empty, _⟩ | ⟨nw, nv, tw, tv, eq⟩
    · have := List.Forall₂.length_eq hws
      rw [empty, length_nil] at this
      omega
    · obtain ⟨w, hw, typed⟩ := assoc.closed ws nw tw
      have received : task.received (runTasks g.tasks) = some (.vector T ws) := by
        rw [same]
        exact received_reducerTask hT two hws
      have run := runTasks_getElem? found before
      have out : task.outputType = T := by rw [same]; rfl
      have func : task.func (.vector T ws) = R ws := by rw [same]; rfl
      rw [received, Option.bind_some, out, func, hw] at run
      have first : Alike T R [w] vs₁ := by
        refine .inr ⟨by simp, nv, by simpa using typed, tv, ?_⟩
        rw [assoc.single w typed, ← eq, hw]
      exact ⟨w :: rest, .cons ⟨run, typed⟩ hrest, first.append assoc alike'⟩

end Values

end DFTracer.Tasks
