/-
# Values along a run

Each step of a run in which nothing has failed keeps the invariant of values, one
lemma for each part.
-/

import DFTracer.Tasks.SchedulerValues

namespace DFTracer.Tasks

open List Function

variable {ι α : Type} [DecidableEq ι]

section Step

variable {g : PipelineGraph ι α} {policy : ErrorPolicy} {source : ι} {s s' : State ι α} {t : ι}

section

variable (f : Flow g s s' t) (clean : ∀ u, ¬ Failed s' u) (fine : Fine s)

include f clean fine

/-- What a step of a clean run does to the counters and lists: nothing, or it releases
one parent for the child in preparation. -/
theorem Flow.counts :
    (s'.pendingReaders = s.pendingReaders ∧ s'.unread = s.unread) ∨
      ∃ failed rest parent parents values child,
        s.phase t = .loop failed rest (.release parent parents values child) ∧
        s' = (s.release parent child parents).setPhase t
          (.loop failed rest (.read parents values child)) := by
  cases f with
  | returned _ _ _ _ _ _ readers unread _ => exact .inl ⟨readers, unread⟩
  | failed u bad => exact absurd bad (clean u)
  | marked x onStack =>
    rw [fine.stack t] at onStack
    cases onStack
  | started _ _ _ _ _ same _ | gathered _ _ _ _ _ _ same _ | read _ _ _ _ _ _ _ _ _ _ same _
  | gaveUp _ _ _ _ _ _ _ same _ => exact .inl ⟨same.readers, same.unread⟩
  | released failed rest parent parents values child before after =>
    exact .inr ⟨failed, rest, parent, parents, values, child, before, after⟩
  | submitted _ _ _ _ _ _ _ _ same _ | other _ _ _ _ _ _ same _ =>
    exact .inl ⟨same.readers, same.unread⟩

/-- The record of what was returned grows with the function of the task itself. -/
theorem Flow.returned_back
    {u : ι} {v : Value α} (h : HasReturned s' u v) : HasReturned s u v ∨
      (u = t ∧ s'.phase t = .completed ∧
        ∃ input, s.phase t = .running input ∧ (g.task t).func input = some v) := by
  cases f with
  | returned input w before out phase _ _ _ log =>
    rw [HasReturned, log, mem_append, mem_singleton] at h
    rcases h with old | new
    · exact .inl old
    · cases new
      exact .inr ⟨rfl, by rw [phase, update_self], input, before, out⟩
  | failed u bad => exact absurd bad (clean u)
  | marked x onStack =>
    rw [fine.stack t] at onStack
    cases onStack
  | started _ _ _ _ _ _ log | gathered _ _ _ _ _ _ _ log | read _ _ _ _ _ _ _ _ _ _ _ log
  | gaveUp _ _ _ _ _ _ _ _ log => exact .inl (by rwa [HasReturned, log] at h)
  | released _ _ _ _ _ _ _ after =>
    subst after
    exact .inl h
  | submitted _ _ _ _ _ _ _ _ _ log =>
    left
    rw [HasReturned, log, mem_append, mem_singleton] at h
    rcases h with old | new
    · exact old
    · cases new
  | other _ _ _ _ _ _ _ log =>
    left
    rcases log with log | ⟨w, log⟩
    · rwa [HasReturned, log] at h
    · rw [HasReturned, log, mem_append, mem_singleton] at h
      rcases h with old | new
      · exact old
      · cases new

end

variable {c : ι}

section

variable (f : Flow g s s' t) (clean : ∀ u, ¬ Failed s' u) (fine : Fine s)

include f clean fine

/-- A call that prepares a child goes on with it unless it submits the child. -/
theorem Flow.keeps_preparing
    (h : (s.phase t).preparing = some c) : (s'.phase t).preparing = some c ∨
      ∃ input, s'.phase c = .running input := by
  cases f with
  | returned _ _ before => rw [before] at h; cases h
  | failed u bad => exact absurd bad (clean u)
  | marked x onStack =>
    rw [fine.stack t] at onStack
    cases onStack
  | started _ _ _ before => rw [before] at h; cases h
  | gathered _ _ _ _ before phase | read _ _ _ _ _ _ _ before _ phase =>
    left
    rw [before] at h
    rwa [phase, update_self]
  | gaveUp _ _ action _ before preparing phase =>
    left
    rw [before] at h
    rw [phase, update_self]
    exact preparing.symm.trans h
  | released _ _ _ _ _ _ before after =>
    left
    rw [before] at h
    subst after
    change Phase.preparing (Function.update s.phase t _ t) = some c
    rwa [update_self]
  | submitted _ _ _ _ input before _ phase =>
    right
    rw [before] at h
    cases h
    exact ⟨input, by rw [phase, update_self]⟩
  | other _ before => rw [before] at h; cases h

/-- The list of a child changes only while a call prepares it. -/
theorem Flow.unread_kept
    (free : (s'.phase t).preparing ≠ some c) :
    s'.unread c = s.unread c := by
  rcases f.counts clean fine with ⟨_, unread⟩ |
    ⟨failed, rest, parent, parents, values, child, before, rfl⟩
  · rw [unread]
  · apply update_of_ne
    rintro rfl
    apply free
    change Phase.preparing (Function.update s.phase t _ t) = some c
    rw [update_self]
    rfl

/-- A task becomes active by being submitted, with an input made of what was read. -/
theorem Flow.activated
    (busy : s.phase t ≠ .idle) (idle : s.phase c = .idle) (active : s'.phase c ≠ .idle) :
    s'.unread = s.unread ∧
      ∃ failed rest values, s.phase t = .loop failed rest (.combine values c) := by
  have ne : c ≠ t := fun same => busy (same ▸ idle)
  cases f with
  | failed x bad => exact absurd bad (clean x)
  | marked x onStack =>
    rw [fine.stack t] at onStack
    cases onStack
  | released _ _ _ _ _ _ _ after =>
    subst after
    exact absurd ((update_of_ne ne _ _).trans idle) active
  | submitted failed rest values child input before built phase same log =>
    have mine : c = child := by
      by_contra other
      rw [phase, update_of_ne other, update_of_ne ne] at active
      exact active idle
    subst mine
    exact ⟨same.unread, failed, rest, values, before⟩
  | returned _ _ _ _ phase | started _ _ _ _ phase | gathered _ _ _ _ _ phase
  | read _ _ _ _ _ _ _ _ _ phase | gaveUp _ _ _ _ _ _ phase | other _ _ _ _ _ phase =>
    rw [phase, update_of_ne ne] at active
    exact absurd idle active

/-- A submission goes on record with the input built of what was read. -/
theorem Flow.submitted_back
    {input : Value α} (h : .submitted c input ∈ s'.log) : .submitted c input ∈ s.log ∨
      ∃ failed rest values, s.phase t = .loop failed rest (.combine values c) ∧
        g.inputFrom c values = some input := by
  cases f with
  | returned _ _ _ _ _ _ _ _ log =>
    rw [log, mem_append, mem_singleton] at h
    rcases h with old | new
    · exact .inl old
    · cases new
  | failed u bad => exact absurd bad (clean u)
  | marked x onStack =>
    rw [fine.stack t] at onStack
    cases onStack
  | started _ _ _ _ _ _ log | gathered _ _ _ _ _ _ _ log | read _ _ _ _ _ _ _ _ _ _ _ log
  | gaveUp _ _ _ _ _ _ _ _ log => exact .inl (log ▸ h)
  | released _ _ _ _ _ _ _ after =>
    subst after
    exact .inl h
  | submitted failed rest values child input' before built phase same log =>
    rw [log, mem_append, mem_singleton] at h
    rcases h with old | new
    · exact .inl old
    · cases new
      exact .inr ⟨failed, rest, values, before, built⟩
  | other _ _ _ _ _ _ _ log =>
    left
    rcases log with log | ⟨w, log⟩
    · rwa [log] at h
    · rw [log, mem_append, mem_singleton] at h
      rcases h with old | new
      · exact old
      · cases new

end

omit [DecidableEq ι] in
theorem value_of_status {s : State ι α} {p : ι} (h : s.status p = some true) :
    ∃ w, s.result p = some (.value w) := by
  rw [State.status, Option.map_eq_some_iff] at h
  obtain ⟨outcome, result, value⟩ := h
  cases outcome with
  | value w => exact ⟨w, result⟩
  | exception => cases value

/-- A child of a task that has not run is idle and in nobody's hand. -/
theorem waiting_child [Fintype ι] (h : Inv g policy source s) (ht : g.Reachable source t)
    (waiting : (s.phase t).hasRun = false) (child : c ∈ g.children t) :
    s.phase c = .idle ∧ ∀ q, (s.phase q).hand ≠ some c := by
  have edge : c ∈ (s.phase t).undone g t := by
    cases phase : s.phase t with
    | idle | running input => exact child
    | _ => rw [phase] at waiting; cases waiting
  have up := h.waits (ht.child g child) edge
  refine ⟨?_, fun q hand => ?_⟩
  · by_contra active
    have := h.played c active (ht.ne_source g child)
    omega
  · have := (h.hand q c hand).1
    omega

/-- A parent of a child in preparation has a value. -/
theorem Inv.parent_value [Fintype ι] (h : Inv g policy source s) {q p : ι}
    (ready : (s.phase q).ready = some c) (parent : p ∈ (g.task c).parents) :
    ∃ w, s.result p = some (.value w) :=
  value_of_status (h.ready q c ready p parent)

/-- A preparation reads nothing where several parents have no output and there is no
combiner. -/
theorem not_readsParents (h : g.readsParents c = false) :
    (g.task c).inputCombiner = none ∧ (g.task c).parents.length ≠ 1 ∧
      ∀ p ∈ (g.task c).parents, (g.task p).outputType = .void := by
  simp only [PipelineGraph.readsParents, Bool.or_eq_false_iff] at h
  obtain ⟨⟨combiner, several⟩, void⟩ := h
  refine ⟨by simpa using combiner, by simpa using several, ?_⟩
  simpa using void

/-- The input is empty then, whatever the values. -/
theorem prepare_of_void (combiner : (g.task c).inputCombiner = none)
    (several : (g.task c).parents.length ≠ 1)
    (void : ∀ p ∈ (g.task c).parents, (g.task p).outputType = .void)
    (some : (g.task c).parents ≠ []) :
    prepareInputForTask (g.task c)
      (((g.task c).parents.map fun p => (g.task p).outputType).zip
        ((g.task c).parents.map fun _ => (.empty : Value α))) = Option.some .empty := by
  generalize (g.task c).parents = parents at several void some
  match parents, several with
  | [_], several => exact absurd rfl several
  | a :: b :: rest, _ =>
    simp only [map_cons, zip_cons_cons, prepareInputForTask, combiner]
    rw [if_neg (by simp), if_pos]
    rw [all_eq_true]
    rintro ⟨type, value⟩ member
    have member : type ∈ (a :: b :: rest).map fun p => (g.task p).outputType := by
      rw [← zip_cons_cons, ← zip_cons_cons] at member
      exact (of_mem_zip member).1
    obtain ⟨p, hp, rfl⟩ := mem_map.mp member
    simpa using void p hp

namespace Flows

variable [Fintype ι] (v : Flows g source s)
include v

/-- A parent that a child has still to read keeps its counter up. -/
theorem readers_pos {p c : ι} (unread : p ∈ s.unread c) : s.pendingReaders p ≠ 0 := by
  rw [v.readers p]
  have one := count_pos_iff.mpr unread
  have := le_sum_of_pos (f := fun c => ((s.unread c).count p : Int)) (fun c => by simp) c
  omega

/-- Such a parent, once through, has the value its function returned. -/
theorem value_of_unread {p c : ι} (unread : p ∈ s.unread c) {w : Value α}
    (result : s.result p = some (.value w)) : HasReturned s p w := by
  obtain ⟨w', returned, same⟩ := v.result p w result
  rw [if_neg fun dropped => v.readers_pos unread dropped.1] at same
  exact same ▸ returned

variable (f : Flow g s s' t) (clean : ∀ u, ¬ Failed s' u) (fine : Fine s)
include f clean fine

theorem made_step (u : ι) (w : Value α) (returned : HasReturned s' u w) :
    ∃ input, (g.task u).func input = some w := by
  rcases f.returned_back clean fine returned with old | ⟨rfl, _, input, _, out⟩
  · exact v.made u w old
  · exact ⟨input, out⟩

theorem once_step (u : ι) (w w' : Value α) (returned : HasReturned s' u w)
    (returned' : HasReturned s' u w') : w = w' := by
  rcases f.returned_back clean fine returned with old | ⟨rfl, _, input, running, out⟩
  · rcases f.returned_back clean fine returned' with old' | ⟨rfl, _, input, running, _⟩
    · exact v.once u w w' old old'
    · have := v.ran u w old
      rw [running] at this
      cases this
  · rcases f.returned_back clean fine returned' with old' | ⟨_, _, input', running', out'⟩
    · have := v.ran u w' old'
      rw [running] at this
      cases this
    · rw [running] at running'
      cases running'
      exact Option.some.inj (out.symm.trans out')

theorem readers_step (p : ι) :
    s'.pendingReaders p = ∑ c, ((s'.unread c).count p : Int) := by
  rcases f.counts clean fine with ⟨readers, unread⟩ |
    ⟨failed, rest, parent, parents, values, child, before, rfl⟩
  · rw [readers, unread]
    exact v.readers p
  · have prepared := v.prepared t failed rest _ before
    have change := sum_change (fun c => ((s.unread c).count p : Int))
      (fun c => ((Function.update s.unread child parents c).count p : Int)) child
      fun q ne => by rw [update_of_ne ne]
    simp only [prepared.2.1] at change
    change Function.update s.pendingReaders parent (s.pendingReaders parent - 1) p =
      ∑ c, ((Function.update s.unread child parents c).count p : Int)
    rw [change, ← v.readers p]
    by_cases same : p = parent
    · rw [same]
      simp
      ring
    · rw [update_of_ne same]
      simp [Ne.symm same]

variable (h : Inv g policy source s) (e : Effect g policy s s' t)
include h e

theorem ran_step (u : ι) (w : Value α) (returned : HasReturned s' u w) :
    (s'.phase u).hasRun = true := by
  rcases f.returned_back clean fine returned with old | ⟨rfl, completed, _⟩
  · exact e.hasRun_mono h.child_idle u (v.ran u w old)
  · rw [completed]
    rfl

theorem result_step (u : ι) (w : Value α) (result : s'.result u = some (.value w)) :
    ∃ x, HasReturned s' u x ∧
      w = if s'.pendingReaders u = 0 ∧ g.children u ≠ [] then .empty else x := by
  have same (results : s'.result u = s.result u) (readers : s'.pendingReaders = s.pendingReaders) :
      ∃ x, HasReturned s' u x ∧
        w = if s'.pendingReaders u = 0 ∧ g.children u ≠ [] then .empty else x := by
    obtain ⟨x, returned, value⟩ := v.result u w (results ▸ result)
    exact ⟨x, e.returned_mono returned, readers ▸ value⟩
  cases f with
  | returned input x before out phase results readers unread log =>
    by_cases mine : u = t
    · subst mine
      rw [results, update_self] at result
      cases result
      refine ⟨w, by simp [HasReturned, log], ?_⟩
      -- no child has read anything of it yet
      rw [if_neg]
      rintro ⟨none, children⟩
      obtain ⟨c, child⟩ := exists_mem_of_ne_nil _ children
      have waiting : (s.phase u).hasRun = false := by rw [before]; rfl
      obtain ⟨idle, free⟩ := waiting_child h (h.inPlay u e.active) waiting child
      have fresh := v.fresh c (.inl idle) fun q preparing =>
        free q (Phase.ready_of_preparing preparing).2
      refine v.readers_pos (p := u) (c := c) ?_ (readers ▸ none)
      rw [fresh]
      exact (mem_children_iff g).mp child
    · exact same (by rw [results, update_of_ne mine]) readers
  | failed x bad => exact absurd bad (clean x)
  | marked x onStack =>
    rw [fine.stack t] at onStack
    cases onStack
  | started _ _ _ _ _ kept _ | gathered _ _ _ _ _ _ kept _ | read _ _ _ _ _ _ _ _ _ _ kept _
  | gaveUp _ _ _ _ _ _ _ kept _ | submitted _ _ _ _ _ _ _ _ kept _ | other _ _ _ _ _ _ kept _ =>
    exact same (congrFun kept.result u) kept.readers
  | released failed rest parent parents values child before after =>
    subst after
    change Function.update s.result parent
      (droppedIf (s.pendingReaders parent = 1) (s.result parent)) u = _ at result
    change ∃ x, HasReturned s u x ∧ w = if
      Function.update s.pendingReaders parent (s.pendingReaders parent - 1) u = 0 ∧ _
      then .empty else x
    by_cases mine : u = parent
    · subst mine
      rw [update_self] at result ⊢
      obtain ⟨_, unread, member, _⟩ := v.prepared t failed rest _ before
      have onList : u ∈ s.unread child := by rw [unread]; exact mem_cons_self
      obtain ⟨x, value⟩ : ∃ x, s.result u = some (.value x) := by
        cases old : s.result u with
        | none => rw [old] at result; cases result
        | some outcome =>
          cases outcome with
          | value x => exact ⟨x, rfl⟩
          | exception => rw [old] at result; cases result
      have returned := v.value_of_unread onList value
      rw [value] at result
      refine ⟨x, returned, ?_⟩
      by_cases last : s.pendingReaders u = 1
      · rw [droppedIf, if_pos (by simpa using last)] at result
        cases result
        have children := ne_nil_of_mem ((mem_children_iff g).mpr member)
        rw [if_pos ⟨by omega, children⟩]
      · rw [droppedIf, if_neg (by simpa using last)] at result
        cases result
        rw [if_neg]
        rintro ⟨zero, _⟩
        omega
    · rw [update_of_ne mine] at result ⊢
      exact v.result u w result

theorem prepared_step (q : ι) (failed : Bool) (rest : List ι) (action : Action ι α)
    (loop : s'.phase q = .loop failed rest action) : Prepared g s' action := by
  -- calls of other tasks keep what they have in hand
  have keep (unread : s'.unread = s.unread) (before : s.phase q = .loop failed rest action) :
      Prepared g s' action :=
    (v.prepared q failed rest action before).mono (fun _ _ => e.returned_mono)
      fun c _ => congrFun unread c
  cases f with
  | returned input w before out phase results readers unread log =>
    by_cases mine : q = t
    · rw [phase, mine, update_self] at loop
      cases loop
    · rw [phase, update_of_ne mine] at loop
      exact keep unread loop
  | failed x bad => exact absurd bad (clean x)
  | marked x onStack =>
    rw [fine.stack t] at onStack
    cases onStack
  | started failed' rest' child before phase same log =>
    by_cases mine : q = t
    · rw [phase, mine, update_self] at loop
      cases loop
      have hand : (s.phase t).hand = some child := by rw [before]; rfl
      have fresh := v.fresh child (.inl (h.hand t child hand).2.1) fun q' preparing => by
        have other := h.alone q' t child (Phase.ready_of_preparing preparing).2 hand
        rw [other, before] at preparing
        cases preparing
      by_cases reads : g.readsParents child = true
      · rw [if_pos reads]
        exact ⟨reads, (congrFun same.unread child).trans fresh, [], rfl, .nil⟩
      · rw [if_neg reads, Prepared, if_neg reads]
        exact (congrFun same.unread child).trans fresh
    · rw [phase, update_of_ne mine] at loop
      exact keep same.unread loop
  | gathered failed' rest' values child before phase same log =>
    by_cases mine : q = t
    · rw [phase, mine, update_self] at loop
      cases loop
      obtain ⟨reads, unread, done, cut, gathered⟩ := v.prepared t failed rest _ before
      rw [Prepared, if_pos reads, same.unread, cut, append_nil]
      exact ⟨unread, gathered.imp fun _ _ => e.returned_mono⟩
    · rw [phase, update_of_ne mine] at loop
      exact keep same.unread loop
  | read failed' rest' parent parents values child w before found phase same log =>
    by_cases mine : q = t
    · rw [phase, mine, update_self] at loop
      cases loop
      obtain ⟨reads, unread, done, cut, gathered⟩ := v.prepared t failed rest _ before
      have member : parent ∈ (g.task child).parents := by rw [cut]; simp
      obtain ⟨x, value⟩ := h.parent_value (by rw [before]; rfl) member
      have returned := v.value_of_unread (by rw [unread]; exact mem_cons_self) value
      rw [State.getReady, value, Option.some.injEq] at found
      subst found
      refine ⟨reads, (congrFun same.unread child).trans unread, member, done ++ [parent], ?_, ?_⟩
      · rw [cut, append_assoc]
        rfl
      · exact rel_append (gathered.imp fun _ _ => e.returned_mono)
          (.cons (e.returned_mono returned) .nil)
    · rw [phase, update_of_ne mine] at loop
      exact keep same.unread loop
  | gaveUp failed' rest' action' child before preparing phase same log =>
    by_cases mine : q = t
    · rw [phase, mine, update_self] at loop
      cases loop
      trivial
    · rw [phase, update_of_ne mine] at loop
      exact keep same.unread loop
  | released failed' rest' parent parents values child before after =>
    subst after
    by_cases mine : q = t
    · change Function.update s.phase t _ q = _ at loop
      rw [mine, update_self] at loop
      cases loop
      obtain ⟨reads, _, _, done, cut, gathered⟩ := v.prepared t failed rest _ before
      refine ⟨reads, ?_, done, cut, gathered⟩
      change Function.update s.unread child parents child = parents
      rw [update_self]
    · change Function.update s.phase t _ q = _ at loop
      rw [update_of_ne mine] at loop
      refine (v.prepared q failed rest action loop).mono (fun _ _ => e.returned_mono) ?_
      intro c preparing
      apply update_of_ne
      rintro rfl
      have hand : (s.phase q).preparing = some c := by rw [loop]; exact preparing
      exact mine (h.alone q t c (Phase.ready_of_preparing hand).2 (by rw [before]; rfl))
  | submitted failed' rest' values child input before built phase same log =>
    by_cases submitted : q = child
    · rw [phase, submitted, update_self] at loop
      cases loop
    · rw [phase, update_of_ne submitted] at loop
      by_cases mine : q = t
      · rw [mine, update_self] at loop
        cases loop
        trivial
      · rw [update_of_ne mine] at loop
        exact keep same.unread loop
  | other phase before after ran runs phases same log =>
    by_cases mine : q = t
    · rw [phases, mine, update_self] at loop
      subst loop
      cases action with
      | read | release | combine => cases after
      | _ => trivial
    · rw [phases, update_of_ne mine] at loop
      exact keep same.unread loop

theorem fresh_step (c : ι) (idle : s'.phase c = .idle ∨ c = source)
    (free : ∀ q, (s'.phase q).preparing ≠ some c) : s'.unread c = (g.task c).parents := by
  rw [f.unread_kept clean fine (free t)]
  apply v.fresh c
  · rcases idle with idle | isSource
    · left
      by_contra active
      exact e.stays_active c active idle
    · exact .inr isSource
  · intro q preparing
    have hand := (Phase.ready_of_preparing preparing).2
    by_cases mine : q = t
    · subst mine
      rcases f.keeps_preparing clean fine preparing with keeps | ⟨input, running⟩
      · exact free q keeps
      · rcases idle with idle | isSource
        · rw [running] at idle
          cases idle
        · exact (h.inPlay q e.active).ne_source g (h.hand q c hand).2.2 isSource
    · rcases e.others q mine with same | taken
      · exact free q (same ▸ preparing)
      · rw [(h.hand t q taken).2.1] at preparing
        cases preparing

theorem spent_step (c : ι) (active : s'.phase c ≠ .idle) (ne : c ≠ source) :
    s'.unread c = if g.readsParents c then [] else (g.task c).parents := by
  by_cases was : s.phase c = .idle
  · -- the child has just been submitted
    obtain ⟨unread, failed, rest, values, before⟩ := f.activated clean fine e.active was active
    have prepared := v.prepared t failed rest _ before
    rw [Prepared] at prepared
    rw [unread]
    by_cases reads : g.readsParents c = true
    · rw [if_pos reads] at prepared ⊢
      exact prepared.1
    · rw [if_neg reads] at prepared ⊢
      exact prepared
  · rw [f.unread_kept clean fine, v.spent c was ne]
    intro preparing
    exact active (h.hand_step e t c (Phase.ready_of_preparing preparing).2).2.1

theorem inputs_step (c : ι) (input : Value α) (submitted : .submitted c input ∈ s'.log)
    (ne : c ≠ source) : BuiltFrom g s' c input := by
  have later : BuiltFrom g s c input → BuiltFrom g s' c input := fun ⟨values, returned, built⟩ =>
    ⟨values, returned.imp fun _ _ => e.returned_mono, built⟩
  apply later
  rcases f.submitted_back clean fine submitted with old | ⟨failed, rest, values, before, built⟩
  · exact v.inputs c input old ne
  · have prepared := v.prepared t failed rest _ before
    rw [Prepared] at prepared
    rw [PipelineGraph.inputFrom] at built
    by_cases reads : g.readsParents c = true
    · rw [if_pos reads] at prepared built
      exact ⟨values, prepared.2, built⟩
    · -- several parents without an output, whose results are empty unread
      rw [if_neg reads, Option.some.injEq] at built
      subst built
      have ready : (s.phase t).ready = some c := by rw [before]; rfl
      have hand : (s.phase t).hand = some c := by rw [before]; rfl
      have parents := (mem_children_iff g).mp (h.hand t c hand).2.2
      obtain ⟨combiner, several, void⟩ := not_readsParents (by simpa using reads) 
      refine ⟨(g.task c).parents.map fun _ => .empty, ?_, ?_⟩
      · rw [forall₂_map_right_iff, forall₂_same]
        intro p hp
        obtain ⟨w, value⟩ := h.parent_value ready hp
        obtain ⟨x, returned, _⟩ := v.result p w value
        obtain ⟨input, out⟩ := v.made p x returned
        exact g.void_returns p input x (void p hp) out ▸ returned
      · exact prepare_of_void combiner several void (ne_nil_of_mem parents)

/-- A step of a clean run keeps the invariant of values. -/
theorem step : Flows g source s' where
  ran := ran_step v f clean fine h e
  made := made_step v f clean fine
  once := once_step v f clean fine
  result := result_step v f clean fine h e
  readers := readers_step v f clean fine
  prepared := prepared_step v f clean fine h e
  fresh := fresh_step v f clean fine h e
  spent := spent_step v f clean fine h e
  inputs := inputs_step v f clean fine h e

end Flows

end Step

end DFTracer.Tasks
