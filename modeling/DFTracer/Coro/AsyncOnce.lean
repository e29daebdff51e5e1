/-
# The asynchronous once

One word says whether the value was not asked for yet, is in progress, possibly with a stack of
calls that wait for it, or is ready. The call that moves the word away from the first of these
runs the producer. Every other call pushes itself on the stack, unless the value is ready. A call
of `get` takes the atomic steps of the word in any interleaving with the others, and its waiter is
gone when it has returned.
-/

import DFTracer.Math.Runs

namespace DFTracer.Coro

variable {γ T : Type} [DecidableEq γ]

/-- What the word says. A waiter is named by its call. -/
inductive OnceWord (γ : Type)
  | notStarted
  | inProgress
  | ready
  | waiter (w : γ)
  deriving DecidableEq, Repr

/-- The top of the stack. -/
def OnceWord.toStack : OnceWord γ → Option γ
  | .waiter w => some w
  | _ => none

structure AsyncOnce (γ T : Type) where
  state : OnceWord γ
  value : T
  next : γ → Option γ

/-- Where a call of `get` is. -/
inductive GetCall (γ T : Type)
  | outside
  /-- The word was not started when it was read. The exchange comes next. -/
  | claiming
  | producing
  /-- The value is stored, and the word is not ready yet. -/
  | publishing
  /-- In the loop that resumes the waiters, with the one that comes next. -/
  | waking (w : Option γ)
  /-- Before `await_ready`. -/
  | awaiting
  /-- Before the read in `await_suspend`. -/
  | suspending
  /-- In the loop of `await_suspend`, with the word as it was read. -/
  | pushing (old : OnceWord γ)
  | suspended
  /-- Where the value is read and returned. -/
  | returning
  | returned (v : T)
  /-- The exception of the producer left the call. -/
  | failed
  deriving Repr

/-- The once with the calls of `get`, and what happened so far. -/
structure Flight (γ T : Type) extends AsyncOnce γ T where
  call : γ → GetCall γ T
  /-- The calls that ran the producer. -/
  leaders : List γ
  /-- What producers returned. -/
  produced : List T

/-- An atomic step of a call. -/
inductive FlightStep (γ T : Type)
  | load (c : γ)
  | claim (c : γ)
  | produce (c : γ) (v : T)
  | throw (c : γ)
  | publish (c : γ)
  | wake (c : γ)
  | check (c : γ)
  | reload (c : γ)
  /-- The exchange, which may fail where the word is still the same. -/
  | push (c : γ) (spurious : Bool)
  /-- The call returns, and something else is written to where its frame was. -/
  | finish (c : γ) (garbage : Option γ)

namespace Flight

/-- No call so far. The value is the default one. -/
def start (value : T) : Flight γ T where
  state := .notStarted
  value
  next := fun _ => none
  call := fun _ => .outside
  leaders := []
  produced := []

def moveTo (s : Flight γ T) (c : γ) (place : GetCall γ T) : Flight γ T :=
  { s with call := Function.update s.call c place }

/-- Where a call is when it has read the word in `await_suspend`. -/
def afterReload : OnceWord γ → GetCall γ T
  | .ready => .returning
  | old => .pushing old

/-- A step of a call, where the call is at that step. -/
def step (s : Flight γ T) : FlightStep γ T → Option (Flight γ T)
  | .load c =>
    match s.call c with
    | .outside =>
      some (s.moveTo c (match s.state with
        | .ready => .returning
        | .notStarted => .claiming
        | _ => .awaiting))
    | _ => none
  | .claim c =>
    match s.call c with
    | .claiming =>
      if s.state = .notStarted then
        some { s.moveTo c .producing with state := .inProgress, leaders := s.leaders ++ [c] }
      else some (s.moveTo c .awaiting)
    | _ => none
  | .produce c v =>
    match s.call c with
    | .producing => some { s.moveTo c .publishing with value := v, produced := s.produced ++ [v] }
    | _ => none
  | .throw c =>
    match s.call c with
    | .producing => some (s.moveTo c .failed)
    | _ => none
  | .publish c =>
    match s.call c with
    | .publishing => some { s.moveTo c (.waking s.state.toStack) with state := .ready }
    | _ => none
  | .wake c =>
    match s.call c with
    | .waking none => some (s.moveTo c .returning)
    | .waking (some w) => some ((s.moveTo c (.waking (s.next w))).moveTo w .returning)
    | _ => none
  | .check c =>
    match s.call c with
    | .awaiting => some (s.moveTo c (if s.state = .ready then .returning else .suspending))
    | _ => none
  | .reload c =>
    match s.call c with
    | .suspending => some (s.moveTo c (afterReload s.state))
    | _ => none
  | .push c spurious =>
    match s.call c with
    | .pushing old =>
      let linked := { s with next := Function.update s.next c old.toStack }
      if s.state = old ∧ spurious = false then
        some { linked.moveTo c .suspended with state := .waiter c }
      else some (linked.moveTo c (afterReload s.state))
    | _ => none
  | .finish c garbage =>
    match s.call c with
    | .returning =>
      some { s.moveTo c (.returned s.value) with next := Function.update s.next c garbage }
    | _ => none

end Flight

end DFTracer.Coro
