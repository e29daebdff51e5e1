/-
# The mutex excludes and forgets nobody

At most one coroutine holds the mutex. Whoever waits is in exactly one of the stack and the
holder's list, an unlock always gets done, and while somebody waits it resumes the operation that
was pushed first of those that were not resumed yet.
-/

import DFTracer.Coro.MutexQueue

namespace DFTracer.Coro

set_option linter.unusedSectionVars false

variable {α γ : Type} [DecidableEq α] [DecidableEq γ]

/-- An unlock of a coroutine gets done in a step. -/
structure Unlocks (c : γ) (s s' : Locking α γ) : Prop where
  step : Locking.Step s s'
  held : (s.status c).holds = true
  released : (s'.status c).holds = false

/-- What holds between the steps: of the coroutines that wait, in the order in which they pushed,
the ones whose operations are in the list of the holder come before those on the stack. -/
structure Fair (s : Locking α γ) : Prop where
  exclusive : ∀ c c', (s.status c).holds = true → (s.status c').holds = true → c = c'
  /-- A holder can unlock, at once or in the step after the next one of its own. -/
  unlocks : ∀ c, (s.status c).holds = true →
    ∃ s', Unlocks c s s' ∨ s.status c = .holding ∧ Locking.Step s s' ∧ s'.status c = .detaching
  queue : ∃ (stack fifo : List α) (waiting : List γ),
    Linked s.next s.state.pointer stack ∧ Linked s.next s.waiters fifo ∧
      (fifo ++ stack).Nodup ∧
      (∀ op, op ∈ fifo ++ stack ↔ ∃ c, s.status c = .queued op) ∧
      (fifo ++ stack.reverse).map s.awaiter = waiting.map some ∧
      s.pushed = s.resumed ++ waiting ∧
      ∀ c s', Unlocks c s s' → ∀ first ∈ waiting.head?,
        s'.resumed = s.resumed ++ [first] ∧ s'.status first = .holding

variable {s s' : Locking α γ} {stack fifo : List α} {waiting : List γ} {c : γ}

theorem Queue.handOver_shows {head : α} (queue : Queue s stack (head :: fifo) waiting)
    (holds : (s.status c).holds = true) :
    ((s.handOver c head s.next).status c).holds = false ∧
      ∃ first, waiting.head? = some first ∧
        (s.handOver c head s.next).resumed = s.resumed ++ [first] ∧
        (s.handOver c head s.next).status first = .holding := by
  obtain ⟨c', rest, rfl, own, there⟩ := queue.first
  have apart : c ≠ c' := by
    rintro rfl
    rw [there] at holds
    cases holds
  rw [handOver_eq own]
  refine ⟨?_, c', rfl, rfl, Function.update_self ..⟩
  dsimp only
  rw [Function.update_of_ne apart, Function.update_self]
  rfl

/-- A coroutine that holds the mutex in both states is not the one that unlocks. -/
theorem not_unlocks_of_update {status : γ → Status α} {c' : γ} {new : Status α}
    (held : (status c).holds = true) (there : (status c').holds = false ∨ new.holds = true) :
    (Function.update status c' new c).holds ≠ false := by
  by_cases same : c = c'
  · rw [same, Function.update_self]
    rcases there with there | there
    · rw [same, there] at held
      cases held
    · rw [there]
      intro released
      cases released
  · rw [Function.update_of_ne same, held]
    intro released
    cases released

theorem Waiting.unlocks_first (h : Waiting s stack fifo waiting) (unlocks : Unlocks c s s')
    {first : γ} (waits : waiting.head? = some first) :
    s'.resumed = s.resumed ++ [first] ∧ s'.status first = .holding := by
  have held := unlocks.held
  have released := unlocks.released
  cases unlocks.step with
  | load c' op idle unused =>
    exact absurd released (not_unlocks_of_update held (.inl (by rw [idle]; rfl)))
  | acquire c' op there free => exact absurd released (not_unlocks_of_update held (.inr rfl))
  | retryAcquire c' op there | push c' op old there locked same
  | retryPush c' op old there locked =>
    exact absurd released (not_unlocks_of_update held (.inl (by rw [there]; rfl)))
  | unlockNext c' head holds top =>
    have listed := h.listed
    rw [top] at listed
    obtain ⟨fifo', rfl, -⟩ := listed.eq_cons
    obtain ⟨-, first', waits', shows⟩ := h.toQueue.handOver_shows (by rw [holds]; rfl)
    rw [waits] at waits'
    rwa [Option.some.inj waits']
  | unlockFree c' holds none alone =>
    -- nobody waits where the word and the list are empty
    have listed := h.listed
    rw [none] at listed
    have stacked := h.stacked
    rw [alone] at stacked
    have none := h.waits
    rw [listed.eq_nil, stacked.eq_nil] at none
    have empty : waiting = [] := List.map_eq_nil_iff.mp none.symm
    rw [empty] at waits
    cases waits
  | unlockContended c' holds none contended =>
    exact absurd released (not_unlocks_of_update held (.inr rfl))
  | detach c' op head next fuel there top reversed =>
    obtain ⟨fifo', queue⟩ := h.reversed there top reversed
    obtain ⟨-, first', waits', shows⟩ := queue.handOver_shows (c := c')
      (by rw [there]; rfl)
    rw [waits] at waits'
    rwa [Option.some.inj waits']

/-- The holder goes on. -/
theorem Waiting.can_unlock (h : Waiting s stack fifo waiting) (held : (s.status c).holds = true) :
    ∃ s', Unlocks c s s' ∨
      s.status c = .holding ∧ Locking.Step s s' ∧ s'.status c = .detaching := by
  cases there : s.status c with
  | idle | loaded op old | queued op =>
    rw [there] at held
    cases held
  | holding =>
    cases first : s.waiters with
    | some head =>
      have listed := h.listed
      rw [first] at listed
      obtain ⟨fifo', rfl, -⟩ := listed.eq_cons
      exact ⟨_, .inl ⟨.unlockNext c head there first, held, (h.toQueue.handOver_shows held).1⟩⟩
    | none =>
      by_cases alone : s.state = .lockedNoWaiters
      · refine ⟨_, .inl ⟨.unlockFree c there first alone, held, ?_⟩⟩
        dsimp only
        rw [Function.update_self]
        rfl
      · exact ⟨_, .inr ⟨rfl, .unlockContended c there first alone, Function.update_self ..⟩⟩
  | detaching =>
    obtain ⟨-, op, top⟩ := h.detaches c there
    have stacked := h.stacked
    rw [top] at stacked
    obtain ⟨rest, rfl, linked⟩ := stacked.eq_cons
    have distinct : (op :: rest).Nodup := List.Nodup.of_append_right h.distinct
    obtain ⟨fuel, next, head, reversed⟩ := reverseLoop_ends linked distinct none
    obtain ⟨fifo', queue⟩ := h.reversed there top reversed
    have shows := queue.handOver_shows (c := c) (by rw [there]; rfl)
    exact ⟨_, .inl ⟨.detach c op head next fuel there top reversed, held, shows.1⟩⟩

/-- For every number of coroutines, and whatever the interleaving of their steps. -/
theorem fair_of_reachable (s : { s : Locking α γ // s.Reachable }) : Fair s.1 := by
  obtain ⟨stack, fifo, waiting, h⟩ := s.2.waiting
  exact {
    exclusive := h.alone
    unlocks := fun c held => h.can_unlock held
    queue := ⟨stack, fifo, waiting, h.stacked, h.listed, h.distinct, h.queued, h.waits, h.order,
      fun c s' unlocks first waits => h.unlocks_first unlocks waits⟩ }

theorem pushed_handOver (head : α) (next : α → Option α) :
    (s.handOver c head next).pushed = s.pushed := by
  unfold Locking.handOver
  cases s.awaiter head <;> rfl

theorem Waiting.detach (h : Waiting s stack fifo waiting) (there : s.status c = .detaching) :
    ∃ s', Locking.Step s s' ∧ s'.pushed = s.pushed ∧
      ∃ stack fifo, Waiting s' stack fifo waiting.tail := by
  obtain ⟨-, op, top⟩ := h.detaches c there
  have stacked := h.stacked
  rw [top] at stacked
  obtain ⟨rest, rfl, linked⟩ := stacked.eq_cons
  have distinct := List.Nodup.of_append_right h.distinct
  obtain ⟨fuel, next, head, reversed⟩ := reverseLoop_ends linked distinct none
  obtain ⟨fifo', queue⟩ := h.reversed there top reversed
  exact ⟨_, .detach c op head next fuel there top reversed, pushed_handOver .., _, _,
    queue.handOver (by rw [there]; rfl)⟩

/-- Somebody holds the mutex while somebody waits, and can hand it over. -/
theorem Waiting.resumes {first : γ} (h : Waiting s stack fifo (first :: waiting)) :
    ∃ s', Relation.ReflTransGen Locking.Step s s' ∧ s'.pushed = s.pushed ∧
      ∃ stack fifo, Waiting s' stack fifo waiting := by
  have some : stack = [] → fifo ≠ [] := by
    rintro rfl rfl
    cases h.waits
  have stacked := h.stacked
  have listed := h.listed
  obtain ⟨c, held⟩ := h.held.mp fun free => by
    rw [free] at stacked
    exact some stacked.eq_nil (h.free free)
  cases there : s.status c with
  | idle | loaded op old | queued op =>
    rw [there] at held
    cases held
  | detaching =>
    obtain ⟨s', step, rest⟩ := h.detach there
    exact ⟨s', .single step, rest⟩
  | holding =>
    cases top : s.waiters with
    | some head =>
      rw [top] at listed
      obtain ⟨fifo', rfl, -⟩ := listed.eq_cons
      exact ⟨_, .single (.unlockNext c head there top), pushed_handOver .., _, _,
        h.toQueue.handOver held⟩
    | none =>
      have contended : s.state ≠ .lockedNoWaiters := fun alone => by
        rw [alone] at stacked
        rw [top] at listed
        exact some stacked.eq_nil listed.eq_nil
      have turn := Locking.Step.unlockContended c there top contended
      obtain ⟨s', step, rest⟩ :=
        (h.unlockContended there top contended).detach (Function.update_self ..)
      exact ⟨s', .head turn (.single step), rest⟩

/-- Whatever has happened, all that wait can be resumed, and nobody else need do anything. -/
theorem drains_of_reachable (s : { s : Locking α γ // s.Reachable }) :
    ∃ s', Relation.ReflTransGen Locking.Step s.1 s' ∧ s'.pushed = s.1.pushed ∧
      s'.resumed = s.1.pushed := by
  obtain ⟨stack, fifo, waiting, h⟩ := s.2.waiting
  generalize s.1 = s at h ⊢
  induction waiting generalizing s stack fifo with
  | nil => exact ⟨s, .refl, rfl, (h.order.trans (List.append_nil _)).symm⟩
  | cons first waiting ih =>
    obtain ⟨s', run, same, stack, fifo, h⟩ := h.resumes
    obtain ⟨s'', more, pushed, all⟩ := ih _ _ _ h
    exact ⟨s'', run.trans more, pushed.trans same, all.trans same⟩

end DFTracer.Coro
