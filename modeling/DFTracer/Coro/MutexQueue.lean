/-
# Who waits for the mutex

The stack in the word and the list of the holder are linked through the operations in memory. In
every reachable state they are disjoint, hold exactly the operations of the coroutines that are
queued, and the coroutines resumed so far followed by those that wait are the ones that pushed,
in order.
-/

import DFTracer.Coro.AsyncMutex
import Mathlib.Data.List.Nodup

namespace DFTracer.Coro

open List Function

set_option linter.unusedSectionVars false

variable {α γ : Type} [DecidableEq α] [DecidableEq γ]

/-- The operations that are linked from a pointer on. -/
inductive Linked (next : α → Option α) : Option α → List α → Prop
  | nil : Linked next none []
  | cons {op : α} {ops : List α} (rest : Linked next (next op) ops) :
      Linked next (some op) (op :: ops)

section Linked

variable {next next' : α → Option α} {pointer : Option α} {op op' head : α} {ops done : List α}

theorem Linked.congr (linked : Linked next pointer ops) (same : ∀ op ∈ ops, next' op = next op) :
    Linked next' pointer ops := by
  induction linked with
  | nil => exact .nil
  | cons rest ih =>
    apply Linked.cons
    rw [same _ mem_cons_self]
    exact ih fun op h => same op (mem_cons_of_mem _ h)

/-- An operation outside the links may be linked elsewhere. -/
theorem Linked.update (linked : Linked next pointer ops) (outside : op ∉ ops)
    (target : Option α) : Linked (Function.update next op target) pointer ops := by
  apply linked.congr
  intro op' h
  apply update_of_ne
  rintro rfl
  exact outside h

theorem Linked.eq_nil (linked : Linked next none ops) : ops = [] := by
  cases linked
  rfl

theorem Linked.eq_cons (linked : Linked next (some op) ops) :
    ∃ rest, ops = op :: rest ∧ Linked next (next op) rest := by
  cases linked with
  | cons rest => exact ⟨_, rfl, rest⟩

/-- The loop links the operations the other way round, before those that it began with. -/
theorem reverseLoop_linked {fuel : Nat} (h : reverseLoop fuel next pointer op = some (next', head))
    (linked : Linked next (next op) ops) (behind : Linked next pointer done)
    (distinct : (op :: ops ++ done).Nodup) :
    Linked next' (some head) ((op :: ops).reverse ++ done) := by
  induction ops generalizing fuel next pointer op done with
  | nil =>
    cases fuel with
    | zero => cases h
    | succ fuel =>
      have last : next op = none := by
        cases hn : next op with
        | none => rfl
        | some op' =>
          rw [hn] at linked
          cases linked
      rw [reverseLoop, last] at h
      obtain ⟨rfl, rfl⟩ := Prod.mk.inj (Option.some.inj h)
      apply Linked.cons
      rw [update_self]
      exact behind.update (nodup_cons.mp distinct).1 pointer
  | cons op' ops ih =>
    cases fuel with
    | zero => cases h
    | succ fuel =>
      have there : next op = some op' := by
        cases hn : next op with
        | none =>
          rw [hn] at linked
          cases linked
        | some first =>
          rw [hn] at linked
          obtain ⟨rest, same, -⟩ := linked.eq_cons
          rw [(List.cons.inj same).1]
      rw [there] at linked
      obtain ⟨rest, same, linked⟩ := linked.eq_cons
      obtain rfl := (List.cons.inj same).2
      rw [reverseLoop, there] at h
      have outside := (nodup_cons.mp distinct).1
      have apart : op ≠ op' := fun same => outside (by rw [same]; exact mem_cons_self)
      have result := @ih (Function.update next op pointer) (some op) op' (op :: done) fuel h
        (by
          rw [update_of_ne apart.symm]
          exact linked.update (fun h => outside (mem_append_left _
            (mem_cons_of_mem _ h))) pointer)
        (by
          apply Linked.cons
          rw [update_self]
          exact behind.update (fun h => outside (mem_append_right _ h)) pointer)
        (by
          have moved : (op' :: ops ++ op :: done).Perm (op :: (op' :: ops) ++ done) :=
            perm_middle
          exact moved.nodup_iff.mpr distinct)
      rw [reverse_cons, append_assoc]
      exact result

/-- The loop comes to an end. -/
theorem reverseLoop_ends (linked : Linked next (next op) ops) (distinct : (op :: ops).Nodup)
    (pointer : Option α) :
    ∃ fuel next' head, reverseLoop fuel next pointer op = some (next', head) := by
  induction ops generalizing next pointer op with
  | nil =>
    cases hn : next op with
    | none => exact ⟨1, _, op, by rw [reverseLoop, hn]⟩
    | some op' =>
      rw [hn] at linked
      cases linked
  | cons op' ops ih =>
    cases hn : next op with
    | none =>
      rw [hn] at linked
      cases linked
    | some first =>
      rw [hn] at linked
      obtain ⟨rest, same, linked⟩ := linked.eq_cons
      obtain ⟨rfl, rfl⟩ := List.cons.inj same
      obtain ⟨outside, distinct⟩ := nodup_cons.mp distinct
      have apart : op' ≠ op := fun same => outside (by rw [same]; exact mem_cons_self)
      obtain ⟨fuel, next', head, h⟩ := @ih (Function.update next op pointer) op'
        (by
          rw [update_of_ne apart]
          exact linked.update (fun h => outside (mem_cons_of_mem _ h)) pointer)
        distinct (some op)
      exact ⟨fuel + 1, next', head, by rw [reverseLoop, hn]; exact h⟩

end Linked

/-! ## What every step keeps -/

/-- What links the queue, the coroutines and the log. -/
structure Queue (s : Locking α γ) (stack fifo : List α) (waiting : List γ) : Prop where
  stacked : Linked s.next s.state.pointer stack
  listed : Linked s.next s.waiters fifo
  distinct : (fifo ++ stack).Nodup
  queued : ∀ op, op ∈ fifo ++ stack ↔ ∃ c, s.status c = .queued op
  owner : ∀ c op, (s.status c).op = some op → s.awaiter op = some c
  alone : ∀ c c', (s.status c).holds = true → (s.status c').holds = true → c = c'
  held : s.state ≠ .notLocked ↔ ∃ c, (s.status c).holds = true
  free : s.state = .notLocked → fifo = []
  waits : (fifo ++ stack.reverse).map s.awaiter = waiting.map some
  order : s.pushed = s.resumed ++ waiting

/-- The queue, with a stack for whoever is about to detach it. -/
structure Waiting (s : Locking α γ) (stack fifo : List α) (waiting : List γ) : Prop
    extends Queue s stack fifo waiting where
  detaches : ∀ c, s.status c = .detaching → s.waiters = none ∧ ∃ op, s.state = .waiter op

theorem waiting_start : Waiting (Locking.start : Locking α γ) [] [] [] where
  stacked := .nil
  listed := .nil
  distinct := nodup_nil
  queued := by
    intro op
    constructor
    · intro h
      cases h
    · rintro ⟨c, h⟩
      cases h
  owner := by
    intro c op h
    cases h
  alone := by
    intro c c' h
    cases h
  held := by
    constructor
    · intro h
      exact absurd rfl h
    · rintro ⟨c, h⟩
      cases h
  free := fun _ => rfl
  waits := rfl
  order := rfl
  detaches := by
    intro c h
    cases h

section Steps

variable {s : Locking α γ} {stack fifo : List α} {waiting : List γ} {c : γ} {op : α}

/-- An operation that is not pushed yet is in neither list. -/
theorem Queue.outside (queue : Queue s stack fifo waiting) {old : Word α}
    (there : s.status c = .loaded op old) : op ∉ fifo ++ stack := by
  intro h
  obtain ⟨c', h'⟩ := (queue.queued op).mp h
  have own := queue.owner c op (by rw [there]; rfl)
  have other := queue.owner c' op (by rw [h']; rfl)
  rw [own] at other
  obtain rfl := Option.some.inj other
  rw [there] at h'
  cases h'

variable {new : Status α}

variable {status : γ → Status α}

/-- Whether some coroutine is in a kind of places, when one of them moves within or outside. -/
theorem exists_update_iff (kind : Status α → Prop) (same : kind new ↔ kind (status c)) :
    (∃ c', kind (Function.update status c new c')) ↔ ∃ c', kind (status c') := by
  apply exists_congr
  intro c'
  by_cases moved : c' = c
  · rw [moved, update_self]
    exact same
  · rw [update_of_ne moved]

theorem holds_update (same : new.holds = (status c).holds) (c' : γ) :
    (Function.update status c new c').holds = (status c').holds := by
  by_cases moved : c' = c
  · rw [moved, update_self, same]
  · rw [update_of_ne moved]

/-- A coroutine moves without being queued, resumed or getting the mutex, and writes at most to an
operation that is in neither list. -/
theorem Queue.quiet (queue : Queue s stack fifo waiting) {next : α → Option α}
    {awaiter : α → Option γ} (sameNext : ∀ op ∈ fifo ++ stack, next op = s.next op)
    (sameAwaiter : ∀ op ∈ fifo ++ stack, awaiter op = s.awaiter op)
    (owner : ∀ c' op', (Function.update s.status c new c').op = some op' →
      awaiter op' = some c')
    (sameQueued : ∀ op, new = .queued op ↔ s.status c = .queued op)
    (sameHolds : new.holds = (s.status c).holds) :
    Queue { s with next, awaiter, status := Function.update s.status c new }
      stack fifo waiting where
  stacked := queue.stacked.congr fun op h => sameNext op (mem_append_right _ h)
  listed := queue.listed.congr fun op h => sameNext op (mem_append_left _ h)
  __ := queue
  queued := by
    intro op
    rw [queue.queued op]
    exact (exists_update_iff (· = .queued op) (sameQueued op)).symm
  owner
  alone := by
    intro c₁ c₂
    rw [holds_update sameHolds, holds_update sameHolds]
    exact queue.alone c₁ c₂
  held := by
    rw [exists_update_iff (fun there => there.holds = true) (by rw [sameHolds])]
    exact queue.held
  waits := by
    rw [← queue.waits]
    apply map_congr_left
    intro op h
    apply sameAwaiter
    rcases mem_append.mp h with h | h
    · exact mem_append_left _ h
    · exact mem_append_right _ (mem_reverse.mp h)

/-- The operations keep their owners when a coroutine stays with its own or leaves it. -/
theorem Queue.owner_update (queue : Queue s stack fifo waiting)
    (own : ∀ op, new.op = some op → (s.status c).op = some op) (c' : γ) (op : α)
    (h : (Function.update s.status c new c').op = some op) : s.awaiter op = some c' := by
  by_cases moved : c' = c
  · rw [moved, update_self] at h
    rw [moved]
    exact queue.owner c op (own op h)
  · rw [update_of_ne moved] at h
    exact queue.owner c' op h

/-- Who detaches is as before when a coroutine moves elsewhere. -/
theorem Waiting.detaches_update (waiting' : Waiting s stack fifo waiting)
    (other : new ≠ .detaching) (c' : γ)
    (h : Function.update s.status c new c' = .detaching) :
    s.waiters = none ∧ ∃ op, s.state = .waiter op := by
  by_cases moved : c' = c
  · rw [moved, update_self] at h
    exact absurd h other
  · rw [update_of_ne moved] at h
    exact waiting'.detaches c' h

section

variable (h : Waiting s stack fifo waiting)

include h

theorem Waiting.load (idle : s.status c = .idle)
    (unused : ∀ c', (s.status c').op ≠ some op) :
    Waiting { s with
      next := Function.update s.next op none
      awaiter := Function.update s.awaiter op (some c)
      status := Function.update s.status c (.loaded op s.state) } stack fifo waiting := by
  have outside : ∀ op' ∈ fifo ++ stack, op' ≠ op := by
    rintro op' listed rfl
    obtain ⟨c', there⟩ := (h.queued op').mp listed
    exact unused c' (by rw [there]; rfl)
  exact {
    toQueue := by
      apply h.toQueue.quiet
      · exact fun op' listed => update_of_ne (outside op' listed) _ _
      · exact fun op' listed => update_of_ne (outside op' listed) _ _
      · intro c' op' own
        by_cases moved : c' = c
        · rw [moved, update_self] at own
          rw [moved, ← Option.some.inj own, update_self]
        · rw [update_of_ne moved] at own
          rw [update_of_ne (by rintro rfl; exact unused c' own)]
          exact h.owner c' op' own
      · intro op'
        simp [idle]
      · rw [idle]
        rfl
    detaches := h.detaches_update (by intro h; cases h) }

theorem Waiting.acquire
    (there : s.status c = .loaded op .notLocked) (free : s.state = .notLocked) :
    Waiting { s with
      state := .lockedNoWaiters, status := Function.update s.status c .holding }
      stack fifo waiting := by
  have nobody : ∀ c', (s.status c').holds ≠ true := by
    intro c' holds
    exact h.held.mpr ⟨c', holds⟩ free
  have holder : ∀ c', (Function.update s.status c Status.holding c').holds = true → c' = c := by
    intro c' holds
    by_contra moved
    rw [update_of_ne moved] at holds
    exact nobody c' holds
  exact {
    stacked := by
      have stacked := h.stacked
      rw [free] at stacked
      exact stacked
    __ := h
    queued := by
      intro op'
      rw [h.queued op']
      apply (exists_update_iff (· = .queued op') _).symm
      simp [there]
    owner := h.owner_update (fun op h => by cases h)
    alone := fun c₁ c₂ h₁ h₂ => (holder c₁ h₁).trans (holder c₂ h₂).symm
    held := by
      constructor
      · exact fun _ => ⟨c, by dsimp only; rw [update_self]; rfl⟩
      · intro _ h
        cases h
    free := by
      intro h
      cases h
    detaches := by
      intro c' detaching
      exfalso
      dsimp only at detaching
      by_cases moved : c' = c
      · rw [moved, update_self] at detaching
        cases detaching
      · rw [update_of_ne moved] at detaching
        exact nobody c' (by rw [detaching]; rfl) }

theorem Waiting.retryAcquire
    (there : s.status c = .loaded op .notLocked) :
    Waiting { s with status := Function.update s.status c (.loaded op s.state) }
      stack fifo waiting where
  toQueue := by
    apply h.toQueue.quiet (fun _ _ => rfl) (fun _ _ => rfl)
    · apply h.owner_update
      intro op' own
      rw [there]
      exact own
    · intro op'
      simp [there]
    · rw [there]
      rfl
  detaches := h.detaches_update (by intro h; cases h)

theorem Waiting.retryPush {old : Word α}
    (there : s.status c = .loaded op old) :
    Waiting { s with
      next := Function.update s.next op old.pointer
      status := Function.update s.status c (.loaded op s.state) } stack fifo waiting := by
  have outside := h.outside there
  exact {
    toQueue := by
      apply h.toQueue.quiet _ (fun _ _ => rfl)
      · apply h.owner_update
        intro op' own
        rw [there]
        exact own
      · intro op'
        simp [there]
      · rw [there]
        rfl
      · intro op' listed
        apply update_of_ne
        rintro rfl
        exact outside listed
    detaches := h.detaches_update (by intro h; cases h) }

theorem Waiting.push {old : Word α}
    (there : s.status c = .loaded op old) (locked : old ≠ .notLocked) (same : s.state = old) :
    Waiting { s with
      next := Function.update s.next op old.pointer
      state := .waiter op
      status := Function.update s.status c (.queued op)
      pushed := s.pushed ++ [c] } (op :: stack) fifo (waiting ++ [c]) := by
  have outside := h.outside there
  have own := h.owner c op (by rw [there]; rfl)
  have apart : op ∉ fifo ∧ op ∉ stack :=
    ⟨fun listed => outside (mem_append_left _ listed),
      fun listed => outside (mem_append_right _ listed)⟩
  exact {
    stacked := by
      apply Linked.cons
      dsimp only
      rw [update_self, ← same]
      exact h.stacked.update apart.2 _
    listed := h.listed.update apart.1 _
    distinct := perm_middle.nodup_iff.mpr (nodup_cons.mpr ⟨outside, h.distinct⟩)
    queued := by
      intro op'
      rw [perm_middle.mem_iff, mem_cons, h.queued op']
      constructor
      · rintro (rfl | ⟨c', queued⟩)
        · exact ⟨c, update_self ..⟩
        · refine ⟨c', ?_⟩
          have moved : c' ≠ c := by
            rintro rfl
            rw [there] at queued
            cases queued
          exact (update_of_ne moved _ _).trans queued
      · rintro ⟨c', queued⟩
        by_cases moved : c' = c
        · dsimp only at queued
          rw [moved, update_self] at queued
          exact .inl (Status.queued.inj queued).symm
        · dsimp only at queued
          rw [update_of_ne moved] at queued
          exact .inr ⟨c', queued⟩
    owner := by
      apply h.owner_update
      intro op' own
      rw [there]
      exact own
    alone := by
      intro c₁ c₂
      rw [holds_update (by rw [there]; rfl), holds_update (by rw [there]; rfl)]
      exact h.alone c₁ c₂
    held := by
      have held : s.state ≠ .notLocked := by rwa [same]
      rw [exists_update_iff (fun there => there.holds = true) (by rw [there]; rfl)]
      exact ⟨fun _ => h.held.mp held, fun _ h => by cases h⟩
    free := by
      intro h
      cases h
    waits := by
      rw [reverse_cons, ← append_assoc, map_append, h.waits, map_append]
      congr 1
      rw [map_singleton, own, map_singleton]
    order := by
      rw [h.order, append_assoc]
    detaches := by
      intro c' detaching
      obtain ⟨none, -⟩ := h.detaches_update (by intro h; cases h) c' detaching
      exact ⟨none, op, rfl⟩ }

end

/-- The coroutine at the head of the list. -/
theorem Queue.first {head : α} (queue : Queue s stack (head :: fifo) waiting) :
    ∃ c' rest, waiting = c' :: rest ∧ s.awaiter head = some c' ∧ s.status c' = .queued head := by
  obtain ⟨c', there⟩ := (queue.queued head).mp mem_cons_self
  have own := queue.owner c' head (by rw [there]; rfl)
  have waits := queue.waits
  rw [cons_append, map_cons, own] at waits
  cases waiting with
  | nil => cases waits
  | cons first rest =>
    obtain ⟨same, -⟩ := List.cons.inj waits
    obtain rfl := Option.some.inj same
    exact ⟨c', rest, rfl, own, there⟩

theorem handOver_eq {head : α} {c' : γ} (own : s.awaiter head = some c') (next : α → Option α) :
    s.handOver c head next =
      { s with
        next, waiters := next head
        status := Function.update (Function.update s.status c .idle) c' .holding
        resumed := s.resumed ++ [c'] } := by
  unfold Locking.handOver
  rw [own]

/-- The head of the list gets the mutex from its holder. -/
theorem Queue.handOver {head : α} (queue : Queue s stack (head :: fifo) waiting)
    (holds : (s.status c).holds = true) :
    Waiting (s.handOver c head s.next) stack fifo waiting.tail := by
  obtain ⟨c', rest, rfl, own, there⟩ := queue.first
  have locked : s.state ≠ .notLocked := queue.held.mpr ⟨c, holds⟩
  obtain ⟨ops, same, listed⟩ : ∃ ops, head :: fifo = head :: ops ∧
      Linked s.next (s.next head) ops := by
    have listed := queue.listed
    cases hw : s.waiters with
    | none =>
      rw [hw] at listed
      cases listed.eq_nil
    | some first =>
      rw [hw] at listed
      obtain ⟨ops, same, listed⟩ := listed.eq_cons
      obtain ⟨rfl, -⟩ := List.cons.inj same
      exact ⟨ops, same, listed⟩
  obtain rfl := (List.cons.inj same).2
  obtain ⟨outside, distinct⟩ := nodup_cons.mp queue.distinct
  -- where everybody is afterwards
  have status (c₁ : γ) : Function.update (Function.update s.status c .idle) c' .holding c₁ =
      if c₁ = c' then .holding else if c₁ = c then .idle else s.status c₁ := by
    rw [update_apply, update_apply]
  have holder : ∀ c₁, (Function.update (Function.update s.status c .idle) c' .holding c₁).holds =
      true → c₁ = c' := by
    intro c₁ h
    by_contra other
    rw [status, if_neg other] at h
    by_cases former : c₁ = c
    · rw [if_pos former] at h
      cases h
    · rw [if_neg former] at h
      exact former (queue.alone c₁ c h holds)
  rw [handOver_eq own]
  exact {
    stacked := queue.stacked
    listed := listed
    distinct := distinct
    queued := by
      intro op
      dsimp only
      constructor
      · intro h
        obtain ⟨c₁, queued⟩ := (queue.queued op).mp (mem_cons_of_mem _ h)
        refine ⟨c₁, ?_⟩
        have other : c₁ ≠ c' := by
          rintro rfl
          rw [there] at queued
          obtain rfl := Status.queued.inj queued
          exact outside h
        have former : c₁ ≠ c := by
          rintro rfl
          rw [queued] at holds
          cases holds
        rw [status, if_neg other, if_neg former, queued]
      · rintro ⟨c₁, queued⟩
        rw [status] at queued
        by_cases other : c₁ = c'
        · rw [if_pos other] at queued
          cases queued
        rw [if_neg other] at queued
        by_cases former : c₁ = c
        · rw [if_pos former] at queued
          cases queued
        rw [if_neg former] at queued
        rcases mem_cons.mp ((queue.queued op).mpr ⟨c₁, queued⟩) with rfl | h
        · have second := queue.owner c₁ op (by rw [queued]; rfl)
          rw [own] at second
          exact absurd (Option.some.inj second).symm other
        · exact h
    owner := by
      intro c₁ op h
      dsimp only at h
      rw [status] at h
      by_cases other : c₁ = c'
      · rw [if_pos other] at h
        cases h
      rw [if_neg other] at h
      by_cases former : c₁ = c
      · rw [if_pos former] at h
        cases h
      rw [if_neg former] at h
      exact queue.owner c₁ op h
    alone := fun c₁ c₂ h₁ h₂ => (holder c₁ h₁).trans (holder c₂ h₂).symm
    held := by
      constructor
      · exact fun _ => ⟨c', by dsimp only; rw [update_self]; rfl⟩
      · exact fun _ => locked
    free := fun free => absurd free locked
    waits := by
      have waits := queue.waits
      exact (List.cons.inj waits).2
    order := by
      rw [queue.order, append_assoc]
      rfl
    detaches := by
      intro c₁ detaching
      dsimp only at detaching
      have h := holder c₁ (by rw [detaching]; rfl)
      rw [h, update_self] at detaching
      cases detaching }

section

variable (h : Waiting s stack fifo waiting)

include h

section

variable (holds : s.status c = .holding) (none : s.waiters = Option.none)

include holds none

theorem Waiting.unlockFree (alone : s.state = .lockedNoWaiters) :
    Waiting { s with state := .notLocked, status := Function.update s.status c .idle }
      stack fifo waiting := by
  have nobody : ∀ c', (Function.update s.status c .idle c').holds ≠ true := by
    intro c' held
    by_cases moved : c' = c
    · rw [moved, update_self] at held
      cases held
    · rw [update_of_ne moved] at held
      exact moved (h.alone c' c held (by rw [holds]; rfl))
  exact {
    stacked := by
      have stacked := h.stacked
      rw [alone] at stacked
      exact stacked
    __ := h
    queued := by
      intro op'
      rw [h.queued op']
      apply (exists_update_iff (· = .queued op') _).symm
      simp [holds]
    owner := h.owner_update (fun op h => by cases h)
    alone := fun c₁ c₂ h₁ => absurd h₁ (nobody c₁)
    held := by
      constructor
      · intro locked
        exact absurd rfl locked
      · rintro ⟨c', held⟩
        exact absurd held (nobody c')
    free := by
      intro _
      have listed := h.listed
      rw [none] at listed
      exact listed.eq_nil
    detaches := by
      intro c' detaching
      dsimp only at detaching
      exact absurd (by rw [detaching]; rfl) (nobody c') }

theorem Waiting.unlockContended (contended : s.state ≠ .lockedNoWaiters) :
    Waiting { s with status := Function.update s.status c .detaching } stack fifo waiting where
  toQueue := by
    apply h.toQueue.quiet (fun _ _ => rfl) (fun _ _ => rfl)
    · exact h.owner_update fun op h => by cases h
    · simp [holds]
    · rw [holds]
      rfl
  detaches := by
    intro _ _
    refine ⟨none, ?_⟩
    cases hs : s.state with
    | notLocked => exact absurd hs (h.held.mpr ⟨c, by rw [holds]; rfl⟩)
    | lockedNoWaiters => exact absurd hs contended
    | waiter op => exact ⟨op, rfl⟩

end

/-- The detached stack, reversed, is the list. -/
theorem Waiting.reversed (there : s.status c = .detaching)
    {head : α} {next : α → Option α} {fuel : Nat} (top : s.state = .waiter op)
    (reversed : reverseLoop fuel s.next Option.none op = some (next, head)) :
    ∃ fifo', Queue { s with state := .lockedNoWaiters, next, waiters := some head } []
      (head :: fifo') waiting := by
  obtain ⟨none, -⟩ := h.detaches c there
  have listed := h.listed
  rw [none] at listed
  obtain rfl := listed.eq_nil
  have stacked := h.stacked
  rw [top] at stacked
  obtain ⟨rest, rfl, linked⟩ := stacked.eq_cons
  have distinct := h.distinct
  have result := reverseLoop_linked reversed linked .nil (by rwa [append_nil])
  rw [append_nil] at result
  obtain ⟨fifo', same, -⟩ := result.eq_cons
  refine ⟨fifo', ?_⟩
  rw [← same]
  exact {
    stacked := .nil
    listed := result
    distinct := by
      rw [append_nil]
      exact nodup_reverse.mpr distinct
    queued := by
      intro op'
      rw [append_nil, mem_reverse]
      exact h.queued op'
    owner := h.owner
    alone := h.alone
    held := by
      constructor
      · exact fun _ => ⟨c, by rw [there]; rfl⟩
      · intro _ h
        cases h
    free := by
      intro h
      cases h
    waits := by
      rw [reverse_nil, append_nil]
      exact h.waits
    order := h.order }

theorem Waiting.step {s' : Locking α γ}
    (step : Locking.Step s s') : ∃ stack' fifo' waiting', Waiting s' stack' fifo' waiting' := by
  cases step with
  | load c op idle unused => exact ⟨_, _, _, h.load idle unused⟩
  | acquire c op there free => exact ⟨_, _, _, h.acquire there free⟩
  | retryAcquire c op there => exact ⟨_, _, _, h.retryAcquire there⟩
  | push c op old there locked same => exact ⟨_, _, _, h.push there locked same⟩
  | retryPush c op old there locked => exact ⟨_, _, _, h.retryPush there⟩
  | unlockNext c head holds first =>
    have listed := h.listed
    rw [first] at listed
    obtain ⟨fifo', rfl, -⟩ := listed.eq_cons
    exact ⟨_, _, _, h.toQueue.handOver (by rw [holds]; rfl)⟩
  | unlockFree c holds none alone => exact ⟨_, _, _, h.unlockFree holds none alone⟩
  | unlockContended c holds none contended =>
    exact ⟨_, _, _, h.unlockContended holds none contended⟩
  | detach c op head next fuel there stack reversed =>
    obtain ⟨fifo', queue⟩ := h.reversed there stack reversed
    exact ⟨_, _, _, queue.handOver (c := c) (by rw [there]; rfl)⟩

end

end Steps

theorem Locking.Reachable.waiting {s : Locking α γ} (reachable : s.Reachable) :
    ∃ stack fifo waiting, Waiting s stack fifo waiting := by
  induction reachable with
  | refl => exact ⟨_, _, _, waiting_start⟩
  | tail _ step ih =>
    obtain ⟨stack, fifo, waiting, h⟩ := ih
    exact h.step step

end DFTracer.Coro
