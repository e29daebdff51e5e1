/-
# Every step keeps the invariant

One lemma for each part of the invariant. What a step does is taken from its effect;
what the parts of the invariant say about each other is taken from the state before.
-/

import DFTracer.Tasks.SchedulerInvariant

namespace DFTracer.Tasks

open List Function

variable {ι α : Type} [DecidableEq ι] [Fintype ι]

section Step

variable {g : PipelineGraph ι α} {policy : ErrorPolicy} {source : ι} {s s' : State ι α} {t : ι}

namespace Inv

variable (h : Inv g policy source s) (e : Effect g policy s s' t)
include h e

theorem inPlay_step (q : ι) (active : s'.phase q ≠ .idle) : g.Reachable source q := by
  rcases e.activated q active with before | ⟨hand, _, _⟩
  · exact h.inPlay q before
  · exact h.reachable_of_hand hand

theorem edges_step (u : ι) (hu : g.Reachable source u) :
    s'.pendingParents u = ∑ p, (s'.phase p).left g p u := by
  rcases e.undone (h.child_idle) with ⟨undone, same⟩ | ⟨c, edge, others, counters, _⟩
  · rw [same u, h.edges u hu]
    exact Finset.sum_congr rfl fun p _ => by rw [Phase.left, Phase.left, undone p]
  · have change := sum_change (fun p => (s.phase p).left g p u)
      (fun p => (s'.phase p).left g p u) t fun q hq => by rw [Phase.left, Phase.left, others q hq]
    rw [counters u, change]
    have turn : (s.phase t).left g t u =
        (s'.phase t).left g t u + if u = c then 1 else 0 := by
      rw [Phase.left, edge, Phase.left]
      by_cases same : u = c
      · simp [same]
      · simp [same, Ne.symm same]
    rw [turn]
    by_cases same : u = c
    · rw [if_pos same, if_pos same, same, h.edges c (same ▸ hu)]
      ring
    · rw [if_neg same, if_neg same, h.edges u hu]
      ring

theorem rest_step (q : ι) : (s'.phase q).undone g q ⊆ g.children q := by
  rcases e.undone (h.child_idle) with ⟨undone, _⟩ | ⟨c, edge, others, _, _⟩
  · rw [undone q]
    exact h.rest q
  · by_cases same : q = t
    · subst same
      have := h.rest q
      rw [edge] at this
      exact fun x hx => this (mem_cons_of_mem c hx)
    · rw [others q same]
      exact h.rest q

theorem hand_step (q c : ι) (hand : (s'.phase q).hand = some c) :
    s'.pendingParents c = 0 ∧ s'.phase c = .idle ∧ c ∈ g.children q := by
  rcases e.hand q c hand with before | ⟨rfl, last, edge, zero, _⟩
  · obtain ⟨zero, idle, child⟩ := h.hand q c before
    refine ⟨h.spent e (h.reachable_of_hand before) zero, ?_, child⟩
    by_contra active
    rcases e.activated c active with was | ⟨mine, _, gone⟩
    · exact was idle
    · have same := h.alone q t c before mine
      rw [same, gone fun loop => ne_of_mem_children g child (loop.trans same.symm)] at hand
      cases hand
  · have child := h.rest q edge
    refine ⟨zero, ?_, child⟩
    by_contra active
    rcases e.activated c active with was | ⟨mine, _, _⟩
    · have := h.played c was ((h.inPlay q e.active).ne_source g child)
      omega
    · have := (h.hand q c mine).1
      omega

theorem alone_step (q q' c : ι) (hand : (s'.phase q).hand = some c)
    (hand' : (s'.phase q').hand = some c) : q = q' := by
  rcases e.hand q c hand with before | ⟨rfl, last, _⟩
  · rcases e.hand q' c hand' with before' | ⟨_, last, _⟩
    · exact h.alone q q' c before before'
    · have := (h.hand q c before).1
      omega
  · rcases e.hand q' c hand' with before' | ⟨rfl, _⟩
    · have := (h.hand q' c before').1
      omega
    · rfl

theorem held_step (q c : ι) (hand : (s'.phase q).hand = some c) :
    s'.status c = none ∨ ∃ failed rest, s'.phase q = .loop failed rest (.account c) := by
  rcases e.hand q c hand with before | ⟨rfl, last, edge, _, same⟩
  · obtain ⟨_, idle, child⟩ := h.hand q c before
    rcases h.held q c before with none | ⟨failed, rest, account⟩
    · rcases e.status c with same | ⟨rfl, input, running⟩ | ⟨_, failed, rest, refuse, after⟩ |
        ⟨_, marked⟩
      · exact .inl (same.trans none)
      · rw [running] at idle
        cases idle
      · have mine : (s.phase t).hand = some c := by rw [refuse]; rfl
        rw [h.alone q t c before mine]
        exact .inr ⟨failed, rest, after⟩
      · exact absurd before ((h.stack t c marked).2.2.1 q)
    · have same : s'.phase q = s.phase q := by
        by_cases mine : q = t
        · cases e <;> obtain ⟨hp, hpp, hc, hs, hl⟩ := (‹Changes _ _ _ _ _ _›).apply <;>
            simp only [update_apply] at hp hpp hs <;>
              grind [Phase.hand, Action.hand, Action.ready]
        · rcases e.others q mine with stays | hand'
          · exact stays
          · have := (h.hand t q hand').2.1
            rw [account] at this
            cases this
      exact .inr ⟨failed, rest, same.trans account⟩
  · left
    rw [same c]
    have hc := (h.inPlay q e.active).child g (h.rest q edge)
    have idle : s.phase c = .idle := by
      by_contra active
      have := h.played c active ((h.inPlay q e.active).ne_source g (h.rest q edge))
      omega
    cases status : s.status c with
    | none => rfl
    | some value =>
      cases value with
      | true =>
        have := h.phases c
        rw [idle] at this
        exact absurd status this
      | false =>
        exact absurd last (h.not_ready_of_blocked hc (h.out c hc idle status) e.active edge)

theorem accounting_step (q : ι) (failed : Bool) (rest : List ι) (c : ι)
    (account : s'.phase q = .loop failed rest (.account c)) : s'.status c = some false := by
  have before : s.phase q = .loop failed rest (.account c) ∨ s'.status c = some false := by
    by_cases mine : q = t
    · cases e <;> obtain ⟨hp, hpp, hc, hs, hl⟩ := (‹Changes _ _ _ _ _ _›).apply <;>
        simp only [update_apply] at hp hpp hs <;> grind [Action.hand, Action.ready]
    · rcases e.others q mine with stays | hand
      · exact .inl (stays ▸ account)
      · by_cases stays : s'.phase q = s.phase q
        · exact .inl (stays ▸ account)
        · cases e <;> obtain ⟨hp, hpp, hc, hs, hl⟩ := (‹Changes _ _ _ _ _ _›).apply <;>
            simp only [update_apply] at hp hpp hs <;> grind
  rcases before with before | after
  · exact h.status_mono e (h.accounting q failed rest c before)
  · exact after

theorem played_step (u : ι) (active : s'.phase u ≠ .idle) (ne : u ≠ source) :
    s'.pendingParents u = 0 := by
  rcases e.activated u active with before | ⟨hand, _, _⟩
  · exact h.spent e (h.inPlay u before) (h.played u before ne)
  · exact h.spent e (h.reachable_of_hand hand) (h.hand t u hand).1

theorem valued_step (u : ι) (active : s'.phase u ≠ .idle) (ne : u ≠ source) :
    ∀ p ∈ (g.task u).parents, s'.status p = some true := by
  intro p hp
  rcases e.activated u active with before | ⟨_, ready, _⟩
  · exact h.status_mono e (h.valued u before ne p hp)
  · exact h.status_mono e (h.ready t u ready p hp)

/-- A task whose own call is not concerned keeps its result, or it is idle and gets an
exception. -/
theorem status_other (q : ι) (ne : q ≠ t) :
    s'.status q = s.status q ∨ (s.phase q = .idle ∧ s'.status q = some false) := by
  rcases e.status q with same | ⟨mine, _⟩ | ⟨exception, failed, rest, refuse, _⟩ |
    ⟨exception, marked⟩
  · exact .inl same
  · exact absurd mine ne
  · exact .inr ⟨(h.hand t q (by rw [refuse]; rfl)).2.1, exception⟩
  · exact .inr ⟨(h.stack t q marked).2.1, exception⟩

theorem phases_step (q : ι) : PhaseStatus g policy q (s'.status q) (s'.phase q) := by
  by_cases mine : q = t
  · subst mine
    have before := h.phases q
    have own : s'.status q = s.status q ∨ ∃ input, s.phase q = .running input := by
      rcases e.status q with same | ⟨_, running⟩ | ⟨_, failed, rest, refuse, _⟩ | ⟨_, marked⟩
      · exact .inl same
      · exact .inr running
      · have := ne_of_mem_children g (h.hand q q (by rw [refuse]; rfl)).2.2
        exact absurd rfl this
      · exact absurd (h.stack q q marked).2.1 e.active
    have child : ∀ c, (s.phase q).hand = some c → c ≠ q := fun c hand =>
      ne_of_mem_children g (h.hand q c hand).2.2
    have sorts : s.status q = none ∨ s.status q = some false ∨ s.status q = some true := by
      rcases s.status q with _ | _ | _ <;> simp
    cases e <;> obtain ⟨hp, hpp, hc, hs, hl⟩ := (‹Changes _ _ _ _ _ _›).apply <;>
      simp only [update_apply] at hp hpp hs <;>
      grind [PhaseStatus, Phase.hand, Action.hand]
  · rcases e.others q mine with stays | hand
    · rw [stays]
      rcases h.status_other e q mine with same | ⟨idle, exception⟩
      · rw [same]
        exact h.phases q
      · rw [idle]
        exact fun value => by rw [exception] at value; cases value
    · have idle := (h.hand t q hand).2.1
      have before := h.phases q
      rw [idle] at before
      have status : s.phase q = s'.phase q ∨ ∃ input, s'.phase q = .running input ∧
          s'.status q = s.status q ∧ (s.phase t).ready = some q ∧
          ∀ failed rest, s.phase t ≠ .loop failed rest (.account q) := by
        cases e <;> obtain ⟨hp, hpp, hc, hs, hl⟩ := (‹Changes _ _ _ _ _ _›).apply <;>
          simp only [update_apply] at hp hpp hs <;> grind [Phase.ready, Action.ready]
      rcases status with stays | ⟨input, running, same, _, notAccount⟩
      · rw [← stays, idle]
        intro value
        rcases h.status_other e q mine with same | ⟨_, exception⟩
        · exact before (same ▸ value)
        · rw [exception] at value
          cases value
      · rw [running]
        rcases h.held t q hand with none | ⟨failed, rest, account⟩
        · exact same.trans none
        · exact absurd account (notAccount failed rest)

theorem scanned_step (q : ι) (failed : Bool) (rest parents : List ι) (c : ι)
    (scan : s'.phase q = .loop failed rest (.scan parents c)) :
    parents ⊆ (g.task c).parents ∧
      ∀ p ∈ (g.task c).parents, p ∈ parents ∨ s'.status p = some true := by
  -- the scan went on, it started with this step, or nothing happened to it
  have before : s.phase q = .loop failed rest (.scan parents c) ∨
      parents = (g.task c).parents ∨
      ∃ p, s.phase q = .loop failed rest (.scan (p :: parents) c) ∧ s.status p ≠ some false := by
    cases e <;> obtain ⟨hp, hpp, hc, hs, hl⟩ := (‹Changes _ _ _ _ _ _›).apply <;>
      simp only [update_apply] at hp hpp hs <;> grind [Action.hand, Action.ready]
  rcases before with same | start | ⟨p₀, scan₀, fine⟩
  · obtain ⟨inside, valued⟩ := h.scanned q failed rest parents c same
    exact ⟨inside, fun p hp => (valued p hp).imp_right (h.status_mono e)⟩
  · rw [start]
    exact ⟨fun p hp => hp, fun p hp => .inl hp⟩
  · obtain ⟨inside, valued⟩ := h.scanned q failed rest (p₀ :: parents) c scan₀
    refine ⟨fun p hp => inside (mem_cons_of_mem p₀ hp), fun p hp => ?_⟩
    rcases valued p hp with member | value
    · rcases mem_cons.mp member with rfl | member
      · have hand : (s.phase q).hand = some c := by rw [scan₀]; rfl
        have zero := (h.hand q c hand).1
        obtain ⟨value, status⟩ := h.through hp fun edge => by
          have := h.waits (h.reachable_of_hand hand) edge
          omega
        cases value with
        | true => exact .inr (h.status_mono e status)
        | false => exact absurd status fine
      · exact .inl member
    · exact .inr (h.status_mono e value)

omit e in
/-- Under fail-fast only tasks with a value count off at their children. -/
theorem value_of_counted (fast : policy = .failFast) {p c : ι} (hp : p ∈ (g.task c).parents)
    (gone : c ∉ (s.phase p).undone g p) : s.status p = some true := by
  have child := (mem_children_iff g).mpr hp
  have status := h.phases p
  cases phase : s.phase p with
  | loop failed rest action =>
    rw [phase] at status
    rw [status.1, status.2 fast]
    rfl
  | finished left =>
    rw [phase] at status gone
    rcases status with ⟨value, _⟩ | ⟨_, kept⟩
    · exact value
    · rw [if_pos fast] at kept
      exact absurd (kept ▸ child) gone
  | idle | running input | completed | failing => exact absurd child (by rwa [phase] at gone)

theorem ready_step (q c : ι) (ready : (s'.phase q).ready = some c) :
    ∀ p ∈ (g.task c).parents, s'.status p = some true := by
  have before : (s.phase q).ready = some c ∨
      (∃ failed rest, s.phase q = .loop failed rest (.scan [] c)) ∨
      (q = t ∧ policy = .failFast ∧ s.pendingParents c = 1 ∧ c ∈ (s.phase t).undone g t ∧
        ∃ failed rest action, s.phase t = .loop failed rest action) := by
    cases e <;> obtain ⟨hp, hpp, hc, hs, hl⟩ := (‹Changes _ _ _ _ _ _›).apply <;>
      simp only [update_apply] at hp hpp hs <;>
      grind [Phase.ready, Action.ready, Phase.undone]
  intro p hp
  refine h.status_mono e ?_
  rcases before with same | ⟨failed, rest, scan⟩ |
    ⟨rfl, fast, last, edge, failed, rest, action, turn⟩
  · exact h.ready q c same p hp
  · rcases (h.scanned q failed rest [] c scan).2 p hp with none | value
    · cases none
    · exact value
  · by_cases mine : p = q
    · subst mine
      have := h.phases p
      rw [turn] at this
      rw [this.1, this.2 fast]
      rfl
    · have hc := (h.inPlay q e.active).child g (h.rest q edge)
      refine h.value_of_counted fast hp fun other => ?_
      have := h.waits_twice hc mine other edge
      omega

theorem stack_step (q : ι) : ∀ x ∈ (s'.phase q).stack, g.Reachable source x ∧
    s'.phase x = .idle ∧ (∀ q', (s'.phase q').hand ≠ some x) ∧ Blocked g s' x ∧
    ∃ y ∈ (g.task x).parents, s'.status y = some false := by
  intro x hx
  rcases e.stack q x hx with before | ⟨rfl, dropped | marked⟩
  · obtain ⟨reach, idle, free, blocked, y, hy, exception⟩ := h.stack q x before
    refine ⟨reach, ?_, fun q' hand => ?_, h.blocked_mono e reach blocked, y, hy,
      h.status_mono e exception⟩
    · by_contra active
      rcases e.activated x active with was | ⟨hand, _⟩
      · exact was idle
      · exact free t hand
    · rcases e.hand q' x hand with was | ⟨rfl, last, edge, _⟩
      · exact free q' was
      · exact h.not_ready_of_blocked reach blocked e.active edge last
  · obtain ⟨failed, rest, parent, parents, scan, bad, gone⟩ := dropped
    have hand : (s.phase q).hand = some x := by rw [scan]; rfl
    obtain ⟨zero, idle, child⟩ := h.hand q x hand
    have reach := h.reachable_of_hand hand
    have member := (h.scanned q failed rest (parent :: parents) x scan).1 mem_cons_self
    refine ⟨reach, ?_, fun q' hand' => ?_, .inl (h.spent e reach zero), parent, member,
      h.status_mono e bad⟩
    · by_contra active
      rcases e.activated x active with was | ⟨_, ready, _⟩
      · exact was idle
      · rw [scan] at ready
        cases ready
    · rcases e.hand q' x hand' with was | ⟨_, last, _⟩
      · rw [h.alone q' q x was hand, gone] at hand'
        cases hand'
      · omega
  · obtain ⟨y, child, onStack, exception⟩ := marked
    obtain ⟨reachY, idleY, freeY, _⟩ := h.stack q y onStack
    have reach := reachY.child g child
    obtain ⟨idle, free⟩ := h.unreached reachY child idleY
    have stillY : s'.phase y = .idle := by
      by_contra active
      rcases e.activated y active with was | ⟨hand, _⟩
      · exact was idleY
      · exact freeY q hand
    have member := (mem_children_iff g).mp child
    refine ⟨reach, ?_, fun q' hand => ?_, .inr ⟨y, member, stillY, exception⟩, y, member,
      exception⟩
    · by_contra active
      rcases e.activated x active with was | ⟨hand, _⟩
      · exact was idle
      · exact free q hand
    · rcases e.hand q' x hand with was | ⟨rfl, last, edge, _⟩
      · exact free q' was
      · have ne : q' ≠ y := fun same => e.active (same ▸ idleY)
        have := h.waits_twice reach ne edge
          (show x ∈ (s.phase y).undone g y by rw [idleY]; exact child)
        omega

theorem out_step (x : ι) (hx : g.Reachable source x) (idle : s'.phase x = .idle)
    (exception : s'.status x = some false) : Blocked g s' x := by
  have was : s.phase x = .idle := by
    by_contra active
    exact e.stays_active x active idle
  rcases e.status x with same | ⟨rfl, input, running⟩ | ⟨_, failed, rest, refuse, _⟩ | ⟨_, marked⟩
  · exact h.blocked_mono e hx (h.out x hx was (same ▸ exception))
  · rw [running] at was
    cases was
  · exact .inl (h.spent e hx (h.hand t x (by rw [refuse]; rfl)).1)
  · exact h.blocked_mono e hx (h.stack t x marked).2.2.2.1

/-- A task on a stack stays there until it has a result. -/
theorem stack_next {q u : ι} (onStack : u ∈ (s.phase q).stack) :
    u ∈ (s'.phase q).stack ∨ s'.status u ≠ none := by
  by_cases mine : q = t
  · cases e <;> obtain ⟨hp, hpp, hc, hs, hl⟩ := (‹Changes _ _ _ _ _ _›).apply <;>
      simp only [update_apply] at hp hpp hs <;>
      grind [Phase.stack, Action.stack]
  · rcases e.others q mine with stays | taken
    · exact .inl (stays ▸ onStack)
    · have := (h.hand t q taken).2.1
      rw [this] at onStack
      cases onStack

theorem resolved_step (u : ι) (hu : g.Reachable source u) (zero : s'.pendingParents u = 0) :
    s'.phase u ≠ .idle ∨ s'.status u ≠ none ∨
      ∃ q, (s'.phase q).hand = some u ∨ u ∈ (s'.phase q).stack := by
  by_cases before : s.pendingParents u = 0
  · rcases h.resolved u hu before with active | status | ⟨q, hand | onStack⟩
    · exact .inl (e.stays_active u active)
    · obtain ⟨value, hv⟩ := Option.ne_none_iff_exists'.mp status
      exact .inr (.inl (by rw [h.status_mono e hv]; simp))
    · -- the call that had it keeps it, submits it, refuses it or puts it on its stack
      have next : (s'.phase q).hand = some u ∨ s'.phase u ≠ .idle ∨ u ∈ (s'.phase q).stack ∨
          ∃ failed rest, s.phase q = .loop failed rest (.account u) := by
        by_cases mine : q = t
        · cases e <;> obtain ⟨hp, hpp, hc, hs, hl⟩ := (‹Changes _ _ _ _ _ _›).apply <;>
            simp only [update_apply] at hp hpp hs <;>
            grind [Phase.hand, Action.hand, Phase.stack, Action.stack]
        · rcases e.others q mine with stays | taken
          · exact .inl (stays ▸ hand)
          · have := (h.hand t q taken).2.1
            rw [this] at hand
            cases hand
      rcases next with hand | active | onStack | ⟨failed, rest, account⟩
      · exact .inr (.inr ⟨q, .inl hand⟩)
      · exact .inl active
      · exact .inr (.inr ⟨q, .inr onStack⟩)
      · have := h.status_mono e (h.accounting q failed rest u account)
        exact .inr (.inl (by rw [this]; simp))
    · rcases h.stack_next e onStack with onStack | status
      · exact .inr (.inr ⟨q, .inr onStack⟩)
      · exact .inr (.inl status)
  · rcases e.undone h.child_idle with ⟨_, same⟩ | ⟨c, _, _, counters, found⟩
    · rw [same u] at zero
      exact absurd zero before
    · rw [counters u] at zero
      by_cases same : u = c
      · exact .inr (.inr ⟨t, .inl (same ▸ found (by omega))⟩)
      · rw [if_neg same] at zero
        exact absurd zero before

/-- The record grows by the submission of a child in hand, or by something else. -/
theorem submissions_step : (s'.submissions = s.submissions ∧
      ∀ q, s'.phase q = .idle ↔ s.phase q = .idle) ∨
    ∃ c, s.phase c = .idle ∧ s'.submissions = s.submissions ++ [c] ∧
      ∀ q, s'.phase q = .idle ↔ q ≠ c ∧ s.phase q = .idle := by
  have idle := h.child_idle (t := t)
  cases e <;> obtain ⟨hp, hpp, hc, hs, hl⟩ := (‹Changes _ _ _ _ _ _›).apply <;>
    simp only [update_apply] at hp hpp hs <;>
    simp only [State.submissions, hl, filterMap_append]
  case submitted failed child rest values input before changes =>
    right
    have hc := idle child (by rw [before]; rfl)
    refine ⟨child, hc, by simp [Event.submittedTask], ?_⟩
    grind
  case ran input value event before recorded changes =>
    left
    have : event.submittedTask = none := by
      cases value with
      | true =>
        obtain ⟨v, rfl⟩ := recorded
        rfl
      | false =>
        rw [recorded]
        rfl
    refine ⟨by simp [this], ?_⟩
    grind
  all_goals
    left
    refine ⟨by simp [Event.submittedTask], ?_⟩
    grind

theorem nodup_step : s'.submissions.Nodup := by
  rcases h.submissions_step e with ⟨same, _⟩ | ⟨c, idle, grown, _⟩
  · rw [same]
    exact h.nodup
  · rw [grown]
    refine nodup_append.mpr ⟨h.nodup, nodup_singleton c, ?_⟩
    intro a ha b hb same
    rw [mem_singleton] at hb
    exact (h.submitted a).mp ha (by rw [same, hb, idle])

theorem submitted_step (q : ι) : q ∈ s'.submissions ↔ s'.phase q ≠ .idle := by
  rcases h.submissions_step e with ⟨same, phases⟩ | ⟨c, _, grown, phases⟩
  · rw [same, h.submitted q, ne_eq, ne_eq, phases q]
  · rw [grown, mem_append, mem_singleton, h.submitted q, ne_eq, ne_eq, phases q]
    tauto

omit [Fintype ι] h in
theorem log_grows : ∃ more, s'.log = s.log ++ more := by
  cases e <;> obtain ⟨hp, hpp, hc, hs, hl⟩ := (‹Changes _ _ _ _ _ _›).apply <;>
    first
    | exact ⟨_, hl⟩
    | exact ⟨[], by rw [hl, append_nil]⟩

omit [Fintype ι] h in
theorem failed_mono {q : ι} (failed : Failed s q) : Failed s' q := by
  obtain ⟨more, hl⟩ := log_grows e
  unfold Failed
  rw [hl]
  exact failed.imp (mem_append_left more) (mem_append_left more)

theorem cause_step (u : ι) (exception : s'.status u = some false) :
    Failed s' u ∨ ∃ p ∈ (g.task u).parents, s'.status p = some false := by
  have before : s.status u = some false ∨ Failed s' u ∨ u ∈ (s.phase t).stack := by
    cases e <;> obtain ⟨hp, hpp, hc, hs, hl⟩ := (‹Changes _ _ _ _ _ _›).apply <;>
      simp only [update_apply] at hp hpp hs <;>
      grind [Failed, Phase.stack, Action.stack]
  rcases before with same | failed | marked
  · rcases h.cause u same with failed | ⟨p, hp, bad⟩
    · exact .inl (failed_mono e failed)
    · exact .inr ⟨p, hp, h.status_mono e bad⟩
  · exact .inl failed
  · obtain ⟨p, hp, bad⟩ := (h.stack t u marked).2.2.2.2
    exact .inr ⟨p, hp, h.status_mono e bad⟩

theorem failed_step (u : ι) (failed : Failed s' u) : s'.status u = some false := by
  have before : Failed s u ∨ s'.status u = some false := by
    unfold Failed at failed ⊢
    cases e <;> obtain ⟨hp, hpp, hc, hs, hl⟩ := (‹Changes _ _ _ _ _ _›).apply <;>
      simp only [update_apply] at hp hpp hs <;> grind
  rcases before with before | after
  · exact h.status_mono e (h.failed u before)
  · exact after

theorem counted_step : s'.pendingCount = ∑ q, (s'.phase q).weight := by
  have own : ∀ c, (s.phase t).hand = some c → c ≠ t := fun c hand =>
    ne_of_mem_children g (h.hand t c hand).2.2
  have idle := h.child_idle (t := t)
  -- the step changes the weight of its own call, and of a child when it is submitted
  have change : ((∀ q, q ≠ t → (s'.phase q).weight = (s.phase q).weight) ∧
        s'.pendingCount = s.pendingCount - (s.phase t).weight + (s'.phase t).weight) ∨
      ∃ c, c ≠ t ∧ (∀ q, q ≠ t → q ≠ c → (s'.phase q).weight = (s.phase q).weight) ∧
        s'.pendingCount = s.pendingCount ∧
        (s'.phase t).weight + (s'.phase c).weight = (s.phase t).weight + (s.phase c).weight := by
    cases e <;> obtain ⟨hp, hpp, hc, hs, hl⟩ := (‹Changes _ _ _ _ _ _›).apply <;>
      simp only [update_apply] at hp hpp hs
    case submitted failed child rest values input before changes =>
      right
      have hand : (s.phase t).hand = some child := by rw [before]; rfl
      have ne := own child hand
      refine ⟨child, ne, fun q h₁ h₂ => by rw [hp q, if_neg h₂, if_neg h₁], hc, ?_⟩
      rw [hp t, hp child, before, idle child hand, if_neg (Ne.symm ne)]
      cases failed <;> simp [Phase.weight, Phase.isOpen, Phase.counted, Action.counted]
    all_goals
      left
      refine ⟨fun q hq => by rw [hp q, if_neg hq], ?_⟩
      grind [Phase.weight, Phase.isOpen, Phase.counted, Action.counted]
  rcases change with ⟨others, count⟩ | ⟨c, ne, others, count, together⟩
  · rw [count, h.counted]
    exact (sum_change _ _ t others).symm
  · rw [count, h.counted]
    have first := sum_change (fun q => (s.phase q).weight)
      (Function.update (fun q => (s'.phase q).weight) c (s.phase c).weight) t fun q hq => by
        by_cases same : q = c
        · rw [same, update_self]
        · rw [update_of_ne same]
          exact others q hq same
    have second := sum_change (Function.update (fun q => (s'.phase q).weight) c (s.phase c).weight)
      (fun q => (s'.phase q).weight) c fun q hq => by rw [update_of_ne hq]
    rw [update_of_ne (Ne.symm ne)] at first
    rw [update_self] at second
    omega

theorem step : Inv g policy source s' where
  inPlay := h.inPlay_step e
  edges := h.edges_step e
  rest := h.rest_step e
  hand := h.hand_step e
  alone := h.alone_step e
  held := h.held_step e
  accounting := h.accounting_step e
  played := h.played_step e
  phases := h.phases_step e
  scanned := h.scanned_step e
  ready := h.ready_step e
  valued := h.valued_step e
  stack := h.stack_step e
  out := h.out_step e
  resolved := h.resolved_step e
  nodup := h.nodup_step e
  submitted := h.submitted_step e
  cause := h.cause_step e
  failed := h.failed_step e
  counted := h.counted_step e

end Inv

end Step

end DFTracer.Tasks
