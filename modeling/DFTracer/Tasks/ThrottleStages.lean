/-
# Throttled `parallel`, `fan_out` and `map`

For each method the types, the size and the bound decide whether throttling is
invisible, whatever the graph around it, the functions and the values. A bound that
never binds is always invisible. Otherwise the stage must not be able to read its
siblings' outputs.
-/

import DFTracer.Tasks.Throttle

namespace DFTracer.Tasks

variable {α : Type} {g : TaskGraph α} {T : TypeIndex}

/-- `parallel` with a bound does what it does without. -/
def ParallelKeeps (α : Type) (T : TypeIndex) (maxConc count : Nat) : Prop :=
  ∀ (g : TaskGraph α) (func : Nat → Option (Value α)) (methodOverride : Nat),
    PassesValidation g → ParentsFirst g.tasks → (∀ i, ∃ v, func i = some v ∧ v.HasType T) →
    g.resolveMaxConcurrency methodOverride = maxConc →
    Throttled (parallel g T count func methodOverride)
      (parallel { g with maxConcurrency := 0 } T count func 0) maxConc

/-- `fan_out` with a bound does what it does without. -/
def FanOutKeeps (α : Type) (U T : TypeIndex) (maxConc count : Nat) : Prop :=
  ∀ (g : TaskGraph α) (source : Nat) (v : Value α) (mapper : Value α → Nat → Option (Value α))
    (methodOverride : Nat),
    PassesValidation g → ParentsFirst g.tasks → Returned g T source v →
    (∀ x i, ∃ w, mapper x i = some w ∧ w.HasType U) →
    g.resolveMaxConcurrency methodOverride = maxConc →
    ∃ throttled free, fanOut g U T [source] count mapper methodOverride = .ok throttled ∧
      fanOut { g with maxConcurrency := 0 } U T [source] count mapper 0 = .ok free ∧
      Throttled throttled free maxConc

/-- `map` with a bound does what it does without. -/
def MapKeeps (α : Type) (U T I : TypeIndex) (maxConc count : Nat) : Prop :=
  ∀ (g : TaskGraph α) (group : List Nat) (values : List (Value α))
    (mapper : Value α → Option (Value α)) (methodOverride : Nat),
    PassesValidation g → ParentsFirst g.tasks → GroupReturns g T group values →
    group.length = count → (∀ x, ∃ w, mapper x = some w ∧ w.HasType U) →
    g.resolveMaxConcurrency methodOverride = maxConc →
    Throttled (map g U I group mapper methodOverride)
      (map { g with maxConcurrency := 0 } U I group mapper 0) maxConc

/-- `count` tasks of type `T` that all return `v`. -/
def constantGraph (maxConc : Nat) (T : TypeIndex) (v : Value α) (count : Nat) : TaskGraph α :=
  { stage {} (fun _ => []) .void T (fun _ _ => some v) 0 count with maxConcurrency := maxConc }

section Constant

variable {T : TypeIndex} {v : Value α} {maxConc count : Nat}

theorem empty_passes : PassesValidation ({} : TaskGraph α) := by
  intro source h
  cases h

theorem empty_parentsFirst : ParentsFirst ({} : TaskGraph α).tasks := by
  intro i task h
  cases h

theorem constantGraph_resolve :
    (constantGraph maxConc T v count).resolveMaxConcurrency 0 = maxConc := rfl

theorem constantGraph_passes : PassesValidation (constantGraph maxConc T v count) := by
  have pass : PassesValidation
      (stage ({} : TaskGraph α) (fun _ => []) .void T (fun _ _ => some v) 0 count) :=
    (parallel_passes_iff empty_passes empty_parentsFirst).mpr (.inl (.inl rfl))
  exact pass

theorem constantGraph_parentsFirst : ParentsFirst (constantGraph maxConc T v count).tasks := by
  intro i task h p hp
  simp only [constantGraph, stage_tasks] at h
  obtain ⟨k, _, rfl⟩ := List.mem_map.mp (List.mem_of_getElem? h)
  simp [windowIds] at hp

theorem constantGraph_returned (typed : v.HasType T) {i : Nat} (h : i < count) :
    Returned (constantGraph maxConc T v count) T i v := by
  refine ⟨?_, typed⟩
  have := stage_output ({} : TaskGraph α) (fun _ => []) .void T (fun _ _ => some v) 0 h (by simp)
  rw [TaskGraph.received, stage_getElem? h] at this
  simpa [constantGraph, Task.received, Task.parentOutputs, windowIds, prepareInputForTask,
    functionInput] using this

variable (maxConc count) in
theorem constantGraph_group (typed : v.HasType T) :
    GroupReturns (constantGraph maxConc T v count) T (List.range count)
      (List.replicate count v) := by
  refine List.forall₂_iff_get.mpr ⟨by simp, fun i h _ => ?_⟩
  simpa using constantGraph_returned typed (by simpa using h)

end Constant

/-- The functions of `parallel` take no input, so they are called in any case. -/
theorem parallel_received {func : Nat → Option (Value α)}
    {maxConc count : Nat} (returns : ∀ i, ∃ v, func i = some v ∧ v.HasType T) {i : Nat}
    (h : i < count) :
    (stage g (fun _ => []) .void T (fun i _ => func i) maxConc count).received
      (g.tasks.length + i) = some .empty := by
  induction i using Nat.strong_induction_on with
  | _ i ih =>
    rw [TaskGraph.received, stage_getElem? h]
    by_cases window : 0 < maxConc ∧ maxConc ≤ i
    · have earlier : i - maxConc < count := by omega
      obtain ⟨v, hv, _⟩ := returns (i - maxConc)
      have sibling := stage_output g (fun _ => []) .void T (fun i _ => func i) maxConc earlier
        (by simp)
      rw [ih (i - maxConc) (by omega) earlier, hv] at sibling
      simp [Task.received, Task.parentOutputs, windowIds, window, sibling,
        prepareInputForTask, functionInput]
    · simp [Task.received, Task.parentOutputs, windowIds, window, prepareInputForTask,
        functionInput]

/-- A bound on `parallel` is invisible when it never binds or when the tasks return
nothing or a `std::any`. Any other output is refused as the input of a sibling. -/
theorem parallelKeeps_iff [Inhabited α] (T : TypeIndex) (maxConc count : Nat) :
    ParallelKeeps α T maxConc count ↔
      (maxConc = 0 ∨ count ≤ maxConc) ∨ T = .void ∨ T = .any := by
  constructor
  · intro keeps
    have typed : (sample T : Value α).HasType T := sample_hasType T
    have := (keeps { maxConcurrency := maxConc } (fun _ => some (sample T)) 0 empty_passes
      empty_parentsFirst (fun _ => ⟨_, rfl, typed⟩) rfl).passes
    exact (parallel_passes_iff (g := { maxConcurrency := maxConc }) empty_passes
      empty_parentsFirst).mp this
  · intro h g func methodOverride pass first returns resolved
    unfold parallel
    rw [resolved]
    refine (throttled_iff (fun _ => []) fun i _ => func i).mpr ⟨(parallel_passes_iff pass first).mpr h, fun i hi => ?_⟩
    rw [parallel_received returns hi]
    exact (parallel_received (g := { g with maxConcurrency := 0 }) returns hi).symm

section Fed

variable {g : TaskGraph α} {feed : Nat → List Nat} {T I U : TypeIndex}
variable {func : Nat → Value α → Option (Value α)} {maxConc count : Nat}

/-- When throttling leaves every argument of a fed stage alone. -/
theorem Fed.same {values : Nat → Value α} (fed : Fed g feed T values count)
    (returns : Returns U func)
    (h : (maxConc = 0 ∨ count ≤ maxConc) ∨ I = .void ∨ T = .void ∧ (U = .void ∨ I ≠ .any))
    {i : Nat} (hi : i < count) :
    (stage g feed I U func maxConc count).received (g.tasks.length + i) =
      (stage { g with maxConcurrency := 0 } feed I U func 0 count).received
        (g.tasks.length + i) := by
  have free : (stage { g with maxConcurrency := 0 } feed I U func 0 count).received
      (g.tasks.length + i) = functionInput I (values i) :=
    Fed.received_free (g := { g with maxConcurrency := 0 }) fed hi (by omega)
  rw [free]
  rcases h with noWindow | blind
  · exact fed.received_free hi (by omega)
  · exact fed.received_same returns blind hi

/-- The first task of a binding window does not get what it gets without. -/
theorem Fed.differs [Inhabited α] {v r : Value α} (fed : Fed g feed T (fun _ => v) count)
    (hv : v = if I = .any then sample T else sample I) (returns : ∀ x, func 0 x = some r)
    (typed : T = .void → I = .any) (hI : I ≠ .void) (loud : ¬ (T = .void ∧ U = .void))
    (pos : 0 < maxConc) (hlt : maxConc < count) :
    (stage g feed I U func maxConc count).received (g.tasks.length + maxConc) ≠
      (stage { g with maxConcurrency := 0 } feed I U func 0 count).received
        (g.tasks.length + maxConc) := by
  have free : (stage { g with maxConcurrency := 0 } feed I U func 0 count).received
      (g.tasks.length + maxConc) = functionInput I v :=
    Fed.received_free (g := { g with maxConcurrency := 0 }) fed hlt (by omega)
  have here : functionInput I v = some v := by
    by_cases any : I = .any
    · simp [any, functionInput, decodeInput]
    · rw [hv, if_neg any]
      exact functionInput_sample hI
  obtain ⟨p, hp, returned⟩ := fed maxConc hlt
  have first : (stage g feed I U func maxConc count).received
      (g.tasks.length + (maxConc - maxConc)) = some v := by
    rw [fed.received_free (by omega) (by omega), here]
  rw [free, here, fed_received_window hlt hp returned (fed.lt (by omega)) pos le_rfl, first,
    Option.bind_some, Nat.sub_self, returns, Option.bind_some, if_neg loud]
  by_cases any : I = .any
  · rw [hv, any]
    cases T <;> simp [functionInput, decodeInput, sample]
  · rw [hv, if_neg any]
    exact functionInput_packed_ne hI any r

end Fed

/-- A bound on `fan_out` is invisible when it never binds. Otherwise the mapper is
handed the source's output packed with a sibling's, which is never what it takes. -/
theorem fanOutKeeps_iff [Inhabited α] (U T : TypeIndex) (maxConc count : Nat) :
    FanOutKeeps α U T maxConc count ↔ (maxConc = 0 ∨ count ≤ maxConc) ∨ T = .void := by
  constructor
  · intro keeps
    by_contra h
    obtain ⟨binds, hT⟩ := not_or.mp h
    have returned : Returned (constantGraph maxConc T (sample T : Value α) 1) T 0 (sample T) :=
      constantGraph_returned (sample_hasType T) Nat.one_pos
    obtain ⟨throttled, free, h₁, h₂, same⟩ := keeps _ 0 _ (fun _ _ => some (sample U)) 0
      constantGraph_passes constantGraph_parentsFirst returned
      (fun _ _ => ⟨_, rfl, sample_hasType U⟩) rfl
    rw [fanOut, Except.ok.injEq] at h₁ h₂
    rw [constantGraph_resolve] at h₁
    rw [← h₁, ← h₂] at same
    have arguments := (throttled_iff (fun _ => [0]) fun _ _ => some (sample U)).mp same
    exact Fed.differs (fun _ _ => ⟨0, rfl, returned⟩) (by cases T <;> rfl) (fun _ => rfl)
      (fun h => absurd h hT) hT (fun h => hT h.1) (by omega) (by omega)
      (arguments.2 maxConc (by omega))
  · intro h g source v mapper methodOverride pass first returned returns resolved
    refine ⟨_, _, rfl, rfl, ?_⟩
    rw [resolved]
    have fed : Fed g (fun _ => [source]) T (fun _ => v) count := fun _ _ => ⟨source, rfl, returned⟩
    refine (throttled_iff (fun _ => [source]) fun i x => mapper x i).mpr
      ⟨(fed.passes_iff pass first).mpr (.inr (.inr (by simp [typesMatch]))), fun i hi => ?_⟩
    refine fed.same (fun i x => returns x i) ?_ hi
    rcases h with free | void
    · exact .inl free
    · exact .inr (.inl void)

theorem GroupReturns.fed {group : List Nat}
    {values : List (Value α)} (h : GroupReturns g T group values) :
    Fed g (fun i => (group[i]?).toList) T (fun i => values.getD i .empty) group.length := by
  intro i hi
  obtain ⟨same, each⟩ := List.forall₂_iff_get.mp h
  refine ⟨group[i], by simp, ?_⟩
  have := each i hi (same ▸ hi)
  simpa [same ▸ hi] using this

/-- A value of type `T`, and one a function of input type `I` can take if there is any. -/
def probe [Inhabited α] (T I : TypeIndex) : Value α :=
  if I ≠ .any ∧ (T = .any ∨ T = I) then sample I else sample T

theorem probe_hasType [Inhabited α] (T I : TypeIndex) : (probe T I : Value α).HasType T := by
  unfold probe
  split
  · rename_i h
    rcases h.2 with any | same
    · simp [any, Value.HasType]
    · rw [same]
      exact sample_hasType I
  · exact sample_hasType T

/-- A bound on `map` is invisible exactly when the mapper fits the group and either
the bound never binds, or the mapper takes no input, or the group returns nothing
and the mapper returns nothing as well or takes what nothing can be decoded to. -/
theorem mapKeeps_iff [Inhabited α] (U T I : TypeIndex) (maxConc count : Nat) :
    MapKeeps α U T I maxConc count ↔
      count = 0 ∨ (T = .void ∨ typesMatch T I) ∧
        ((maxConc = 0 ∨ count ≤ maxConc) ∨ I = .void ∨
          T = .void ∧ (U = .void ∨ I ≠ .any)) := by
  constructor
  · intro keeps
    by_contra h
    obtain ⟨hcount, h⟩ := not_or.mp h
    have typed : (probe T I : Value α).HasType T := probe_hasType T I
    have group := constantGraph_group maxConc count typed
    have promises := keeps _ _ _ (fun _ => some (sample U)) 0 constantGraph_passes
      constantGraph_parentsFirst group (by simp) (fun _ => ⟨_, rfl, sample_hasType U⟩) rfl
    have fed : Fed (constantGraph maxConc T (probe T I : Value α) count) (fun i => ((List.range count)[i]?).toList) T
        (fun _ => probe T I) count := fun i hi =>
      ⟨i, by simp [hi], constantGraph_returned typed hi⟩
    unfold map at promises
    rw [List.length_range, constantGraph_resolve] at promises
    obtain ⟨passes, same⟩ := (throttled_iff (fun i => ((List.range count)[i]?).toList)
      fun _ _ => some (sample U)).mp promises
    have match' := (fed.passes_iff constantGraph_passes constantGraph_parentsFirst).mp passes
    have fits := match'.resolve_left hcount
    obtain ⟨binds, rest⟩ := not_or.mp fun h' => h ⟨fits, h'⟩
    obtain ⟨hI, quiet⟩ := not_or.mp rest
    have typed' : T = .void → I = .any := fun void => by
      by_contra other
      exact quiet ⟨void, .inr other⟩
    have chosen : (probe T I : Value α) = if I = .any then sample T else sample I := by
      by_cases any : I = .any
      · simp [probe, any]
      · have : T = .any ∨ T = I := by
          have notVoid : T ≠ .void := fun void => any (typed' void)
          have := fits.resolve_left notVoid
          simp only [typesMatch, Bool.or_eq_true, decide_eq_true_eq] at this
          tauto
        simp [probe, this]
    exact Fed.differs fed chosen (fun _ => rfl) typed' hI
      (fun both => quiet ⟨both.1, .inl both.2⟩) (by omega) (by omega)
      (same maxConc (by omega))
  · intro h g group values mapper methodOverride pass first returned length returns resolved
    subst length
    unfold map
    rw [resolved]
    have fed := returned.fed
    refine (throttled_iff (fun i => (group[i]?).toList) fun _ x => mapper x).mpr ⟨?_, fun i hi => ?_⟩
    · rw [fed.passes_iff pass first]
      exact h.imp_right And.left
    · have := h.resolve_left (by omega)
      exact fed.same (fun _ x => returns x) this.2 hi

end DFTracer.Tasks
