/-
# The async mutex

One word says whether the mutex is free, held, or held with a stack of lock operations that wait
for it. The holder keeps a list of its own: when that is empty, unlocking detaches the stack and
reverses it, so that the operations are resumed in the order in which they were pushed.

Coroutines take the atomic steps of the word in any interleaving. What a coroutine does between
two of them is part of the step before.
-/

import Mathlib.Logic.Function.Basic
import Mathlib.Logic.Relation

namespace DFTracer.Coro

variable {α γ : Type} [DecidableEq α] [DecidableEq γ]

/-- What the word says: no more than the address of the last pushed operation. -/
inductive Word (α : Type)
  | notLocked
  | lockedNoWaiters
  | waiter (op : α)
  deriving DecidableEq, Repr

/-- The word taken for an address. -/
def Word.pointer : Word α → Option α
  | .waiter op => some op
  | _ => none

/-- The mutex and the lock operations in memory, which are at the addresses `α` and belong to the
coroutines `γ`. -/
structure AsyncMutex (α γ : Type) where
  state : Word α
  waiters : Option α
  next : α → Option α
  awaiter : α → Option γ

/-- Where a coroutine is. -/
inductive Status (α : Type)
  | idle
  /-- In `await_suspend` of an operation, with the word as it was read. -/
  | loaded (op : α) (old : Word α)
  /-- Suspended until the operation is resumed. -/
  | queued (op : α)
  | holding
  /-- In `unlock`, where the exchange of the word comes next. -/
  | detaching
  deriving DecidableEq, Repr

/-- The operation of a coroutine that is locking. -/
def Status.op : Status α → Option α
  | .loaded op _ => some op
  | .queued op => some op
  | _ => none

/-- The mutex is held in these places. -/
def Status.holds : Status α → Bool
  | .holding => true
  | .detaching => true
  | _ => false

/-- The mutex with the coroutines that use it, and what happened so far. -/
structure Locking (α γ : Type) extends AsyncMutex α γ where
  status : γ → Status α
  /-- The operations that were pushed, in this order, by their coroutines. -/
  pushed : List γ
  /-- Those that were resumed. -/
  resumed : List γ

/-- A free mutex. -/
def Locking.start : Locking α γ where
  state := .notLocked
  waiters := none
  next := fun _ => none
  awaiter := fun _ => none
  status := fun _ => .idle
  pushed := []
  resumed := []

/-- The loop that reverses a detached stack, with the last address that it comes to. -/
def reverseLoop : Nat → (α → Option α) → Option α → α → Option ((α → Option α) × α)
  | 0, _, _, _ => none
  | fuel + 1, next, head, op =>
    let temp := next op
    let next := Function.update next op head
    match temp with
    | none => some (next, op)
    | some op' => reverseLoop fuel next (some op) op'

/-- Resume the operation at the head of the holder's list. -/
def Locking.handOver (s : Locking α γ) (c : γ) (head : α) (next : α → Option α) : Locking α γ :=
  let status := Function.update s.status c .idle
  match s.awaiter head with
  | none => { s with next, waiters := next head, status }
  | some c' =>
    { s with
      next, waiters := next head, status := Function.update status c' .holding
      resumed := s.resumed ++ [c'] }

/-- The atomic steps. -/
inductive Locking.Step : Locking α γ → Locking α γ → Prop
  /-- A coroutine comes to `lock` and reads the word. -/
  | load {s : Locking α γ} (c : γ) (op : α) (idle : s.status c = .idle)
      (unused : ∀ c', (s.status c').op ≠ some op) :
      Step s { s with
        next := Function.update s.next op none
        awaiter := Function.update s.awaiter op (some c)
        status := Function.update s.status c (.loaded op s.state) }
  /-- The word was free and still is. -/
  | acquire {s : Locking α γ} (c : γ) (op : α) (there : s.status c = .loaded op .notLocked)
      (free : s.state = .notLocked) :
      Step s { s with
        state := .lockedNoWaiters, status := Function.update s.status c .holding }
  /-- The exchange fails, which it may even where the word is still the same. -/
  | retryAcquire {s : Locking α γ} (c : γ) (op : α) (there : s.status c = .loaded op .notLocked) :
      Step s { s with status := Function.update s.status c (.loaded op s.state) }
  /-- The mutex was held and the word is still the same. -/
  | push {s : Locking α γ} (c : γ) (op : α) (old : Word α) (there : s.status c = .loaded op old)
      (locked : old ≠ .notLocked) (same : s.state = old) :
      Step s { s with
        next := Function.update s.next op old.pointer
        state := .waiter op
        status := Function.update s.status c (.queued op)
        pushed := s.pushed ++ [c] }
  | retryPush {s : Locking α γ} (c : γ) (op : α) (old : Word α)
      (there : s.status c = .loaded op old) (locked : old ≠ .notLocked) :
      Step s { s with
        next := Function.update s.next op old.pointer
        status := Function.update s.status c (.loaded op s.state) }
  /-- The holder resumes the first of its list. -/
  | unlockNext {s : Locking α γ} (c : γ) (head : α) (holds : s.status c = .holding)
      (first : s.waiters = some head) : Step s (s.handOver c head s.next)
  /-- Nobody waits. -/
  | unlockFree {s : Locking α γ} (c : γ) (holds : s.status c = .holding)
      (none : s.waiters = Option.none) (alone : s.state = .lockedNoWaiters) :
      Step s { s with state := .notLocked, status := Function.update s.status c .idle }
  /-- The exchange with the free word fails. -/
  | unlockContended {s : Locking α γ} (c : γ) (holds : s.status c = .holding)
      (none : s.waiters = Option.none) (contended : s.state ≠ .lockedNoWaiters) :
      Step s { s with status := Function.update s.status c .detaching }
  /-- The stack is detached and reversed, and the first operation resumed. -/
  | detach {s : Locking α γ} (c : γ) (op head : α) (next : α → Option α) (fuel : Nat)
      (there : s.status c = .detaching) (stack : s.state = .waiter op)
      (reversed : reverseLoop fuel s.next Option.none op = some (next, head)) :
      Step s ({ s with state := .lockedNoWaiters }.handOver c head next)

/-- The states that interleavings of atomic steps lead to. -/
def Locking.Reachable (s : Locking α γ) : Prop := Relation.ReflTransGen Locking.Step .start s

end DFTracer.Coro
