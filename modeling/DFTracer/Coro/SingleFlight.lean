/-
# One flight for everyone

At most one call runs the producer. The others come before the value is ready and wait, or come
later and return it. As long as the call that leads has not resumed everyone, the waiters that are
linked from the word, or from where its loop stands, are exactly the suspended calls.
-/

import DFTracer.Coro.AsyncOnce
import DFTracer.Coro.MutexQueue

namespace DFTracer.Coro

open Math List Function

set_option linter.unusedSectionVars false

variable {γ T : Type} [DecidableEq γ]

/-- A producer was started, and the value is not ready. -/
def OnceWord.InFlight : OnceWord γ → Prop
  | .inProgress => True
  | .waiter _ => True
  | _ => False

namespace Flight

/-- Where the call that leads is, with the calls that still wait for it. -/
inductive Leads (s : Flight γ T) (stack : List γ) : GetCall γ T → Prop
  | producing (inFlight : s.state.InFlight) (linked : Linked s.next s.state.toStack stack)
      (none : s.produced = []) : Leads s stack .producing
  | failed (inFlight : s.state.InFlight) (linked : Linked s.next s.state.toStack stack)
      (none : s.produced = []) : Leads s stack .failed
  | publishing (inFlight : s.state.InFlight) (linked : Linked s.next s.state.toStack stack)
      (one : s.produced = [s.value]) : Leads s stack .publishing
  | waking (w : Option γ) (ready : s.state = .ready) (linked : Linked s.next w stack)
      (one : s.produced = [s.value]) : Leads s stack (.waking w)
  | returning (ready : s.state = .ready) (empty : stack = []) (one : s.produced = [s.value]) :
      Leads s stack .returning
  | returned (ready : s.state = .ready) (empty : stack = []) (one : s.produced = [s.value]) :
      Leads s stack (.returned s.value)

/-- Where any other call is. -/
def Follows (s : Flight γ T) : GetCall γ T → Prop
  | .outside => True
  | .claiming => True
  | .awaiting => True
  | .suspending => True
  | .suspended => True
  | .pushing old => old.InFlight
  | .returning => s.state = .ready
  | .returned v => s.state = .ready ∧ v = s.value
  | _ => False

/-- Before and after a call has become the one that leads. -/
inductive Phase (s : Flight γ T) (stack : List γ) : Prop
  | notStarted (state : s.state = .notStarted) (nobody : s.leaders = []) (none : s.produced = [])
      (calls : ∀ c, s.call c = .outside ∨ s.call c = .claiming)
  | started (l : γ) (one : s.leaders = [l]) (leads : Leads s stack (s.call l))
      (follow : ∀ c, c ≠ l → Follows s (s.call c))

/-- What every step keeps. -/
structure Waits (s : Flight γ T) (stack : List γ) : Prop where
  distinct : stack.Nodup
  suspended : ∀ c, s.call c = .suspended ↔ c ∈ stack
  phase : Phase s stack

variable {s s' : Flight γ T} {stack : List γ} {c l : γ} {place : GetCall γ T}
  {call : γ → GetCall γ T}

theorem moveTo_call (s : Flight γ T) (c : γ) (place : GetCall γ T) :
    (s.moveTo c place).call = Function.update s.call c place := rfl

theorem waits_start (value : T) : Waits (start value : Flight γ T) [] where
  distinct := nodup_nil
  suspended := fun _ => ⟨nofun, nofun⟩
  phase := .notStarted rfl rfl rfl fun _ => .inl rfl

/-! ## Steps of the calls that follow -/

section

variable (leads : Leads s stack place)

include leads

/-- The word of a call that leads is in flight or ready. -/
theorem Leads.state : s.state.InFlight ∨ s.state = .ready := by
  cases leads with
  | producing inFlight | failed inFlight | publishing inFlight => exact .inl inFlight
  | waking w ready | returning ready | returned ready => exact .inr ready

theorem Leads.state_ne : s.state ≠ .notStarted := by
  intro none
  rcases leads.state with inFlight | ready
  · rw [none] at inFlight
    exact inFlight
  · rw [none] at ready
    cases ready

/-- Links outside the stack may change. -/
theorem Leads.congr {next : γ → Option γ} {call : γ → GetCall γ T}
    (same : ∀ c ∈ stack, next c = s.next c) :
    Leads { s with next, call } stack place := by
  cases leads with
  | producing inFlight linked none => exact .producing inFlight (linked.congr same) none
  | failed inFlight linked none => exact .failed inFlight (linked.congr same) none
  | publishing inFlight linked one => exact .publishing inFlight (linked.congr same) one
  | waking w ready linked one => exact .waking w ready (linked.congr same) one
  | returning ready empty one => exact .returning ready empty one
  | returned ready empty one => exact .returned (s := { s with next, call }) ready empty one

end

theorem follows_congr (same : s'.state = s.state) (value : s'.value = s.value) :
    Follows s' place ↔ Follows s place := by
  cases place <;> simp only [Follows, same, value]

/-- Which calls are suspended, when one moves that was not and is not. -/
theorem suspended_update (place : GetCall γ T)
    (before : call c ≠ .suspended) (after : place ≠ .suspended) (c' : γ) :
    Function.update call c place c' = .suspended ↔ call c' = .suspended := by
  by_cases moved : c' = c
  · rw [moved, update_self]
    exact iff_of_false after before
  · rw [update_of_ne moved]

section

variable (h : Waits s stack) {p : GetCall γ T} {next : γ → Option γ}

include h

/-- A call that does not lead moves, and writes at most to its own waiter. -/
theorem Waits.follow (there : s.call c = p)
    (notLeads : ¬ Leads s stack p) (before : p ≠ .suspended) (place : GetCall γ T)
    (after : place ≠ .suspended) (same : ∀ c', c' ≠ c → next c' = s.next c')
    (started : s.state ≠ .notStarted) (follows : Follows s place) :
    Waits { s with next, call := Function.update s.call c place } stack where
  distinct := h.distinct
  suspended := fun c' =>
    (suspended_update place (there ▸ before) after c').trans (h.suspended c')
  phase := by
    rcases h.phase with ⟨state, -, -, -⟩ | ⟨l, one, leads, follow⟩
    · exact absurd state started
    · have apart : c ≠ l := by
        rintro rfl
        exact notLeads (there ▸ leads)
      refine .started l one ?_ fun c' other => ?_
      · change Leads _ stack (Function.update s.call c place l)
        rw [update_of_ne apart.symm]
        refine leads.congr fun c' waits => same c' ?_
        rintro rfl
        exact before (there ▸ (h.suspended c').mpr waits)
      · change Follows _ (Function.update s.call c place c')
        by_cases moved : c' = c
        · rw [moved, update_self]
          exact follows
        · rw [update_of_ne moved]
          exact follow c' other

/-- What is not one of the places of the call that leads. -/
theorem Waits.started (there : s.call c ≠ .outside)
    (nor : s.call c ≠ .claiming) : s.state ≠ .notStarted := by
  rcases h.phase with ⟨-, -, -, calls⟩ | ⟨l, -, leads, -⟩
  · exact absurd (calls c) (not_or_intro there nor)
  · exact leads.state_ne

theorem Waits.load (there : s.call c = .outside) :
    Waits (s.moveTo c (match s.state with
      | .ready => .returning
      | .notStarted => .claiming
      | _ => .awaiting)) stack := by
  cases word : s.state with
  | notStarted =>
    refine ⟨h.distinct, fun c' => ?_, ?_⟩
    · rw [moveTo_call, suspended_update .claiming (by rw [there]; nofun) nofun, h.suspended c']
    · rcases h.phase with ⟨-, nobody, none, calls⟩ | ⟨l, -, leads, -⟩
      · refine .notStarted word nobody none fun c' => ?_
        rw [moveTo_call]
        by_cases moved : c' = c
        · rw [moved, update_self]
          exact .inr rfl
        · rw [update_of_ne moved]
          exact calls c'
      · exact absurd word leads.state_ne
  | ready =>
    exact h.follow there nofun nofun .returning nofun (fun _ _ => rfl) (by rw [word]; nofun) word
  | inProgress | waiter w =>
    exact h.follow there nofun nofun .awaiting nofun (fun _ _ => rfl) (by rw [word]; nofun) trivial

/-- The exchange of the word makes a call the one that leads. -/
theorem Waits.claim (there : s.call c = .claiming)
    (free : s.state = .notStarted) :
    Waits { s.moveTo c .producing with state := .inProgress, leaders := s.leaders ++ [c] }
      stack := by
  rcases h.phase with ⟨-, nobody, none, calls⟩ | ⟨l, -, leads, -⟩
  · have before : s.call c ≠ .suspended := by
      rw [there]
      nofun
    have empty : stack = [] := eq_nil_iff_forall_not_mem.mpr fun c' waits => by
      have suspended := (h.suspended c').mpr waits
      rcases calls c' with outside | claiming
      · rw [outside] at suspended
        cases suspended
      · rw [claiming] at suspended
        cases suspended
    refine ⟨h.distinct, fun c' => ?_, .started c (by rw [nobody]; rfl) ?_ fun c' other => ?_⟩
    · rw [moveTo_call, suspended_update .producing before nofun, h.suspended c']
    · rw [moveTo_call, update_self, empty]
      exact .producing trivial .nil none
    · rw [moveTo_call, update_of_ne other]
      rcases calls c' with outside | claiming
      · rw [outside]
        trivial
      · rw [claiming]
        trivial
  · exact absurd free leads.state_ne

/-- A call comes to a place where it only looks at the word. -/
theorem Waits.claimFails (there : s.call c = .claiming)
    (taken : s.state ≠ .notStarted) : Waits (s.moveTo c .awaiting) stack :=
  h.follow there nofun nofun .awaiting nofun (fun _ _ => rfl) taken trivial

theorem Waits.check (there : s.call c = .awaiting) :
    Waits (s.moveTo c (if s.state = .ready then .returning else .suspending)) stack := by
  have started := h.started (c := c) (by rw [there]; nofun) (by rw [there]; nofun)
  split_ifs with ready
  · exact h.follow there nofun nofun .returning nofun (fun _ _ => rfl) started ready
  · exact h.follow there nofun nofun .suspending nofun (fun _ _ => rfl) started trivial

/-- A call that reads the word in `await_suspend`, or reads it again after its exchange. -/
theorem Waits.afterReload (notLeads : ¬ Leads s stack (s.call c)) (before : s.call c ≠ .suspended)
    (same : ∀ c', c' ≠ c → next c' = s.next c') (started : s.state ≠ .notStarted) :
    Waits { s with next, call := Function.update s.call c (afterReload s.state) } stack := by
  cases word : s.state with
  | notStarted => exact absurd word started
  | ready =>
    have moved := h.follow rfl notLeads before .returning nofun same started word
    rwa [word] at moved
  | inProgress =>
    have moved := h.follow rfl notLeads before (.pushing .inProgress) nofun same started trivial
    rwa [word] at moved
  | waiter w =>
    have moved := h.follow rfl notLeads before (.pushing (.waiter w)) nofun same started trivial
    rwa [word] at moved

theorem Waits.push (there : s.call c = .pushing s.state) :
    Waits
      { s with
        next := Function.update s.next c s.state.toStack
        call := Function.update s.call c .suspended
        state := .waiter c } (c :: stack) := by
  have outside : c ∉ stack := fun waits => by
    rw [(h.suspended c).mpr waits] at there
    cases there
  refine ⟨nodup_cons.mpr ⟨outside, h.distinct⟩, fun c' => ?_, ?_⟩
  · dsimp only
    by_cases moved : c' = c
    · rw [moved, update_self]
      exact iff_of_true rfl mem_cons_self
    · rw [update_of_ne moved, h.suspended c', mem_cons, or_iff_right moved]
  · rcases h.phase with ⟨-, -, -, calls⟩ | ⟨l, one, leads, follow⟩
    · rcases calls c with outside | claiming
      · rw [outside] at there
        cases there
      · rw [claiming] at there
        cases there
    · have apart : c ≠ l := by
        rintro rfl
        rw [there] at leads
        cases leads
      have inFlight : s.state.InFlight := by
        have follows := follow c apart
        rwa [there] at follows
      have push (linked : Linked s.next s.state.toStack stack) :
          Linked (Function.update s.next c s.state.toStack) (some c) (c :: stack) := by
        apply Linked.cons
        rw [update_self]
        exact linked.update outside _
      have busy (ready : s.state = .ready) : False := by
        rw [ready] at inFlight
        exact inFlight
      refine .started l one ?_ fun c' other => ?_
      · dsimp only
        rw [update_of_ne apart.symm]
        revert leads
        generalize s.call l = place
        intro leads
        cases leads with
        | producing inFlight linked none => exact .producing trivial (push linked) none
        | failed inFlight linked none => exact .failed trivial (push linked) none
        | publishing inFlight linked one => exact .publishing trivial (push linked) one
        | waking w ready | returning ready | returned ready => exact (busy ready).elim
      · dsimp only
        by_cases moved : c' = c
        · rw [moved, update_self]
          trivial
        · rw [update_of_ne moved]
          have follows := follow c' other
          revert follows
          cases s.call c' with
          | returning => exact fun ready => (busy ready).elim
          | returned v => exact fun ready => (busy ready.1).elim
          | _ => exact id

/-! ## Steps of the call that leads -/

/-- A call in a place that no other comes to is the one that leads. -/
theorem Waits.leads (there : s.call c = p) (own : ¬ Follows s p) :
    s.leaders = [c] ∧ Leads s stack p ∧ ∀ c', c' ≠ c → Follows s (s.call c') := by
  subst there
  rcases h.phase with ⟨-, -, -, calls⟩ | ⟨l, one, leads, follow⟩
  · rcases calls c with there | there
    · rw [there] at own
      exact absurd trivial own
    · rw [there] at own
      exact absurd trivial own
  · obtain rfl : c = l := by
      by_contra other
      exact own (follow c other)
    exact ⟨one, leads, follow⟩

theorem Waits.lead (there : s.call c = p)
    (own : ¬ Follows s p) (before : p ≠ .suspended) (place : GetCall γ T)
    (after : place ≠ .suspended)
    (call : s'.call = Function.update s.call c place) (leaders : s'.leaders = s.leaders)
    (leads : Leads s' stack place) (follow : ∀ p, Follows s p → Follows s' p) :
    Waits s' stack := by
  obtain ⟨one, -, others⟩ := h.leads there own
  refine ⟨h.distinct, fun c' => ?_, .started c (leaders.trans one) ?_ fun c' other => ?_⟩
  · rw [call, suspended_update place (there ▸ before) after, h.suspended c']
  · rwa [call, update_self]
  · rw [call, update_of_ne other]
    exact follow _ (others c' other)

end

/-- While the value is not ready, no other call depends on it. -/
theorem follows_of_inFlight (inFlight : s.state.InFlight) (p : GetCall γ T)
    (follows : Follows s p) : Follows s' p := by
  have busy (ready : s.state = .ready) : False := by
    rw [ready] at inFlight
    exact inFlight
  cases p with
  | returning => exact (busy follows).elim
  | returned v => exact (busy follows.1).elim
  | _ => exact follows

section

variable (h : Waits s stack)

include h

theorem Waits.produce (there : s.call c = .producing) (v : T) :
    Waits { s.moveTo c .publishing with value := v, produced := s.produced ++ [v] } stack := by
  obtain ⟨-, leads, -⟩ := h.leads there id
  cases leads with
  | producing inFlight linked none =>
    refine h.lead there id nofun .publishing nofun rfl rfl ?_
      (follows_of_inFlight inFlight)
    exact .publishing inFlight linked (by rw [none]; rfl)

theorem Waits.throw (there : s.call c = .producing) :
    Waits (s.moveTo c .failed) stack := by
  obtain ⟨-, leads, -⟩ := h.leads there id
  cases leads with
  | producing inFlight linked none =>
    refine h.lead there id nofun .failed nofun rfl rfl ?_
      (follows_of_inFlight inFlight)
    exact .failed inFlight linked none

theorem Waits.publish (there : s.call c = .publishing) :
    Waits { s.moveTo c (.waking s.state.toStack) with state := .ready } stack := by
  obtain ⟨-, leads, -⟩ := h.leads there id
  cases leads with
  | publishing inFlight linked one =>
    refine h.lead there id nofun (.waking s.state.toStack) nofun rfl rfl ?_
      (follows_of_inFlight inFlight)
    exact .waking _ rfl linked one

/-- Nobody is left to be resumed. -/
theorem Waits.wakeNone (there : s.call c = .waking none) :
    Waits (s.moveTo c .returning) stack := by
  obtain ⟨-, leads, -⟩ := h.leads there id
  cases leads with
  | waking w ready linked one =>
    refine h.lead there id nofun .returning nofun rfl rfl ?_ fun p follows => ?_
    · exact .returning ready linked.eq_nil one
    · exact (follows_congr rfl rfl).mpr follows

/-- The next waiter is the top of what is left of the stack, and is suspended. -/
theorem Waits.wakeSome {w : γ} (there : s.call c = .waking (some w)) :
    s.call w = .suspended ∧ ∃ rest, stack = w :: rest ∧
      Waits ((s.moveTo c (.waking (s.next w))).moveTo w .returning) rest := by
  obtain ⟨one, leads, others⟩ := h.leads there id
  cases leads with
  | waking w' ready linked once =>
    obtain ⟨rest, rfl, behind⟩ := linked.eq_cons
    have waits : s.call w = .suspended := (h.suspended w).mpr mem_cons_self
    have apart : c ≠ w := by
      rintro rfl
      rw [there] at waits
      cases waits
    obtain ⟨outside, distinct⟩ := nodup_cons.mp h.distinct
    refine ⟨waits, rest, rfl, distinct, fun c' => ?_, .started c one ?_ fun c' other => ?_⟩
    · rw [moveTo_call, moveTo_call]
      by_cases woken : c' = w
      · rw [woken, update_self]
        exact iff_of_false nofun outside
      · rw [update_of_ne woken,
          suspended_update (.waking (s.next w)) (by rw [there]; nofun) nofun, h.suspended c',
          mem_cons, or_iff_right woken]
    · rw [moveTo_call, moveTo_call, update_of_ne apart, update_self]
      exact .waking (s.next w) ready behind once
    · rw [moveTo_call, moveTo_call]
      by_cases woken : c' = w
      · rw [woken, update_self]
        exact ready
      · rw [update_of_ne woken, update_of_ne other]
        exact (follows_congr rfl rfl).mpr (others c' other)

/-- A call returns, and its frame is gone. -/
theorem Waits.finish (there : s.call c = .returning) (garbage : Option γ) :
    s.state = .ready ∧ Waits
      { s.moveTo c (.returned s.value) with next := Function.update s.next c garbage } stack := by
  have before : s.call c ≠ .suspended := by
    rw [there]
    nofun
  have outside : c ∉ stack := fun waits => before ((h.suspended c).mpr waits)
  rcases h.phase with ⟨-, -, -, calls⟩ | ⟨l, one, leads, follow⟩
  · rcases calls c with other | other
    · rw [other] at there
      cases there
    · rw [other] at there
      cases there
  · have ready : s.state = .ready := by
      by_cases own : c = l
      · subst own
        rw [there] at leads
        cases leads with
        | returning ready => exact ready
      · have follows := follow c own
        rwa [there] at follows
    refine ⟨ready, h.distinct, fun c' => ?_, .started l one ?_ fun c' other => ?_⟩
    · rw [moveTo_call, suspended_update (.returned s.value) before nofun, h.suspended c']
    · rw [moveTo_call]
      by_cases own : c = l
      · subst own
        rw [update_self]
        rw [there] at leads
        cases leads with
        | returning ready empty one => exact .returned (s := { s.moveTo c _ with
            next := Function.update s.next c garbage }) ready empty one
      · rw [update_of_ne (Ne.symm own)]
        refine leads.congr fun c' waits => update_of_ne ?_ _ _
        rintro rfl
        exact outside waits
    · rw [moveTo_call]
      by_cases moved : c' = c
      · rw [moved, update_self]
        exact ⟨ready, rfl⟩
      · rw [update_of_ne moved]
        exact follow c' other

end

/-! ## Runs -/

/-- What the steps can do. -/
inductive Taken (s : Flight γ T) : FlightStep γ T → Flight γ T → Prop
  | load {c : γ} (there : s.call c = .outside) :
      Taken s (.load c) (s.moveTo c (match s.state with
        | .ready => .returning
        | .notStarted => .claiming
        | _ => .awaiting))
  | claim {c : γ} (there : s.call c = .claiming) (free : s.state = .notStarted) :
      Taken s (.claim c)
        { s.moveTo c .producing with state := .inProgress, leaders := s.leaders ++ [c] }
  | claimFails {c : γ} (there : s.call c = .claiming) (busy : s.state ≠ .notStarted) :
      Taken s (.claim c) (s.moveTo c .awaiting)
  | produce {c : γ} (v : T) (there : s.call c = .producing) :
      Taken s (.produce c v)
        { s.moveTo c .publishing with value := v, produced := s.produced ++ [v] }
  | throw {c : γ} (there : s.call c = .producing) : Taken s (.throw c) (s.moveTo c .failed)
  | publish {c : γ} (there : s.call c = .publishing) :
      Taken s (.publish c) { s.moveTo c (.waking s.state.toStack) with state := .ready }
  | wakeNone {c : γ} (there : s.call c = .waking none) :
      Taken s (.wake c) (s.moveTo c .returning)
  | wakeSome {c w : γ} (there : s.call c = .waking (some w)) :
      Taken s (.wake c) ((s.moveTo c (.waking (s.next w))).moveTo w .returning)
  | check {c : γ} (there : s.call c = .awaiting) :
      Taken s (.check c) (s.moveTo c (if s.state = .ready then .returning else .suspending))
  | reload {c : γ} (there : s.call c = .suspending) :
      Taken s (.reload c) (s.moveTo c (Flight.afterReload s.state))
  | push {c : γ} {spurious : Bool} (there : s.call c = .pushing s.state) :
      Taken s (.push c spurious)
        { s with
          next := Function.update s.next c s.state.toStack
          call := Function.update s.call c .suspended
          state := .waiter c }
  | retry {c : γ} {spurious : Bool} {old : OnceWord γ} (there : s.call c = .pushing old) :
      Taken s (.push c spurious)
        { s with
          next := Function.update s.next c old.toStack
          call := Function.update s.call c (Flight.afterReload s.state) }
  | finish {c : γ} (garbage : Option γ) (there : s.call c = .returning) :
      Taken s (.finish c garbage)
        { s.moveTo c (.returned s.value) with next := Function.update s.next c garbage }

variable {a : FlightStep γ T}

theorem taken_of_step (h : step s a = some s') : Taken s a s' := by
  unfold Flight.step at h
  cases a with
  | load c =>
    dsimp only at h
    split at h
    · next there => cases h; exact .load there
    · cases h
  | claim c =>
    dsimp only at h
    split at h
    · next there =>
        split at h
        · next free => cases h; exact .claim there free
        · next busy => cases h; exact .claimFails there busy
    · cases h
  | produce c v =>
    dsimp only at h
    split at h
    · next there => cases h; exact .produce v there
    · cases h
  | throw c =>
    dsimp only at h
    split at h
    · next there => cases h; exact .throw there
    · cases h
  | publish c =>
    dsimp only at h
    split at h
    · next there => cases h; exact .publish there
    · cases h
  | wake c =>
    dsimp only at h
    split at h
    · next there => cases h; exact .wakeNone there
    · next w there => cases h; exact .wakeSome there
    · cases h
  | check c =>
    dsimp only at h
    split at h
    · next there => cases h; exact .check there
    · cases h
  | reload c =>
    dsimp only at h
    split at h
    · next there => cases h; exact .reload there
    · cases h
  | push c spurious =>
    dsimp only at h
    split at h
    · next old there =>
        split at h
        · next same =>
            cases h
            rw [← same.1] at there ⊢
            exact .push there
        · cases h
          exact .retry there
    · cases h
  | finish c garbage =>
    dsimp only at h
    split at h
    · next there => cases h; exact .finish garbage there
    · cases h

/-- Every step keeps what the calls wait for. -/
theorem Waits.step (h : Waits s stack) (taken : Taken s a s') : ∃ stack', Waits s' stack' := by
  cases taken with
  | load there => exact ⟨stack, h.load there⟩
  | claim there free => exact ⟨stack, h.claim there free⟩
  | claimFails there busy => exact ⟨stack, h.claimFails there busy⟩
  | produce v there => exact ⟨stack, h.produce there v⟩
  | throw there => exact ⟨stack, h.throw there⟩
  | publish there => exact ⟨stack, h.publish there⟩
  | wakeNone there => exact ⟨stack, h.wakeNone there⟩
  | wakeSome there =>
    obtain ⟨-, rest, -, waits⟩ := h.wakeSome there
    exact ⟨rest, waits⟩
  | check there => exact ⟨stack, h.check there⟩
  | @reload c there =>
    have started := h.started (c := c) (by rw [there]; nofun) (by rw [there]; nofun)
    exact ⟨stack, h.afterReload (by rw [there]; nofun) (by rw [there]; nofun)
      (fun _ _ => rfl) started⟩
  | @push c _ there => exact ⟨c :: stack, h.push there⟩
  | @retry c _ _ there =>
    have started := h.started (c := c) (by rw [there]; nofun) (by rw [there]; nofun)
    exact ⟨stack, h.afterReload (by rw [there]; nofun) (by rw [there]; nofun)
      (fun c' other => update_of_ne other _ _) started⟩
  | finish garbage there => exact ⟨stack, (h.finish there garbage).2⟩

variable {value : T} {steps : List (FlightStep γ T)}

theorem waits_of_run (run : runActions step (start value) steps = some s) :
    ∃ stack, Waits s stack :=
  runActions_invariant (motive := fun _ s => ∃ stack, Waits s stack) ⟨[], waits_start value⟩
    (fun _ _ _ _ ⟨_, waits⟩ taken => waits.step (taken_of_step taken)) run

theorem of_update {p : GetCall γ T} {c' : γ}
    (moved : Function.update call c place c' = p) (other : place ≠ p) : call c' = p := by
  by_cases same : c' = c
  · rw [same, update_self] at moved
    exact absurd moved other
  · rwa [update_of_ne same] at moved

theorem afterReload_ne_failed (old : OnceWord γ) :
    afterReload old ≠ (.failed : GetCall γ T) := by
  cases old <;> nofun

theorem Taken.failed (taken : Taken s a s') (failed : s'.call c = .failed) :
    s.call c = .failed ∨ a = .throw c := by
  cases taken with
  | load there =>
    refine .inl (of_update failed ?_)
    cases s.state <;> nofun
  | claim there free | claimFails there busy | produce v there =>
    exact .inl (of_update failed nofun)
  | @throw c' there =>
    by_cases same : c = c'
    · exact .inr (by rw [same])
    · rw [moveTo_call, update_of_ne same] at failed
      exact .inl failed
  | publish there | wakeNone there => exact .inl (of_update failed nofun)
  | wakeSome there => exact .inl (of_update (of_update failed nofun) nofun)
  | check there =>
    refine .inl (of_update failed ?_)
    split <;> nofun
  | reload there => exact .inl (of_update failed (afterReload_ne_failed _))
  | push there => exact .inl (of_update failed nofun)
  | retry there => exact .inl (of_update failed (afterReload_ne_failed _))
  | finish garbage there => exact .inl (of_update failed nofun)

theorem thrown_of_failed (run : runActions step (start value) steps = some s)
    (failed : s.call c = .failed) : .throw c ∈ steps := by
  refine runActions_invariant (motive := fun steps s => ∀ c, s.call c = .failed → .throw c ∈ steps)
    (fun c failed => ?_) (fun steps s a s' ih taken c failed => ?_) run c failed
  · cases failed
  · rcases (taken_of_step taken).failed failed with before | rfl
    · exact mem_append_left _ (ih c before)
    · exact mem_append_right _ mem_cons_self

/-! ## What the calls come to -/

/-- The call is over, with a value or an exception. -/
def Ended : GetCall γ T → Prop
  | .returned _ => True
  | .failed => True
  | _ => False

/-- What holds of the calls at any time. -/
structure SingleFlight (s : Flight γ T) : Prop where
  alone : ∀ c c', s.call c = .producing → s.call c' = .producing → c = c'
  once : s.produced.length ≤ 1
  stored : ∀ c v, s.call c = .returned v → s.produced = [v] ∧ s.value = v

/-- One producer at a time, and one value for every call that returns. Where no producer throws,
nobody waits any more once the call that leads is over. -/
theorem Leads.produced_of_ready (leads : Leads s stack place) (ready : s.state = .ready) :
    s.produced = [s.value] := by
  have busy (inFlight : s.state.InFlight) : False := by
    rw [ready] at inFlight
    exact inFlight
  cases leads with
  | producing inFlight | failed inFlight | publishing inFlight => exact (busy inFlight).elim
  | waking w ready linked one | returning ready empty one | returned ready empty one => exact one

theorem Leads.produced_le (leads : Leads s stack place) : s.produced.length ≤ 1 := by
  cases leads with
  | producing inFlight linked none | failed inFlight linked none => exact none ▸ Nat.zero_le 1
  | publishing inFlight linked one | waking w ready linked one | returning ready empty one
  | returned ready empty one => exact one ▸ Nat.le_refl 1

theorem Waits.singleFlight (h : Waits s stack) : SingleFlight s := by
  rcases h.phase with ⟨-, -, none, calls⟩ | ⟨l, -, leads, follow⟩
  · have early {p : GetCall γ T} {c : γ} (there : s.call c = p) (outside : p ≠ .outside)
        (claiming : p ≠ .claiming) : False := by
      rcases calls c with other | other
      · exact outside (there.symm.trans other)
      · exact claiming (there.symm.trans other)
    exact {
      alone := fun c c' there => (early there nofun nofun).elim
      once := by rw [none]; exact Nat.zero_le 1
      stored := fun c v there => (early there nofun nofun).elim }
  · have producing (c : γ) (there : s.call c = .producing) : c = l := by
      by_contra other
      have follows := follow c other
      rw [there] at follows
      exact follows
    exact {
      alone := fun c c' there there' => (producing c there).trans (producing c' there').symm
      once := leads.produced_le
      stored := fun c v there => by
        by_cases own : c = l
        · subst own
          rw [there] at leads
          cases leads with
          | returned ready empty one => exact ⟨one, rfl⟩
        · have follows := follow c own
          rw [there] at follows
          exact ⟨follows.2 ▸ leads.produced_of_ready follows.1, follows.2.symm⟩ }

/-- Nobody is suspended any more when the call that leads has returned. -/
theorem Waits.none_suspended (h : Waits s stack) {v : T} (led : l ∈ s.leaders)
    (there : s.call l = .returned v) : s.call c ≠ .suspended := by
  intro suspended
  have waits := (h.suspended c).mp suspended
  rcases h.phase with ⟨-, nobody, -, -⟩ | ⟨l', one, leads, -⟩
  · rw [nobody] at led
    cases led
  · rw [one] at led
    obtain rfl := mem_singleton.mp led
    rw [there] at leads
    cases leads with
    | returned ready empty => exact not_mem_nil (empty ▸ waits)

/-- One producer at a time, and one value for every call that returns. Where no producer throws,
nobody waits any more once the call that leads is over. -/
theorem singleFlight_of_run (run : runActions step (start value) steps = some s) :
    SingleFlight s ∧ ((∀ c, .throw c ∉ steps) →
      ∀ l ∈ s.leaders, Ended (s.call l) → ∀ c, s.call c ≠ .suspended) := by
  obtain ⟨stack, waits⟩ := waits_of_run run
  refine ⟨waits.singleFlight, fun careful l led ended c => ?_⟩
  cases there : s.call l with
  | returned v => exact waits.none_suspended led there
  | failed => exact absurd (thrown_of_failed run there) (careful l)
  | _ =>
    rw [there] at ended
    exact ended.elim

/-- A step that neither starts the producer nor resumes a waiter moves one call, which was neither
suspended nor failed. -/
theorem Taken.mover (taken : Taken s a s') (started : s.state ≠ .notStarted)
    (asleep : ∀ c w, s.call c ≠ .waking (some w)) :
    ∃ m, s.call m ≠ .suspended ∧ s.call m ≠ .failed ∧
      ∀ c, c ≠ m → s'.call c = s.call c := by
  have mover {m : γ} {p q : GetCall γ T} (there : s.call m = p) (suspended : p ≠ .suspended)
      (failed : p ≠ .failed) (moved : s'.call = Function.update s.call m q) :
      ∃ m, s.call m ≠ .suspended ∧ s.call m ≠ .failed ∧ ∀ c, c ≠ m → s'.call c = s.call c := by
    refine ⟨m, there ▸ suspended, there ▸ failed, fun c other => ?_⟩
    rw [moved, update_of_ne other]
  cases taken with
  | load there => exact mover there nofun nofun rfl
  | claim there free => exact absurd free started
  | claimFails there busy | produce v there | throw there | publish there | wakeNone there =>
    exact mover there nofun nofun rfl
  | @wakeSome c w there => exact absurd there (asleep c w)
  | check there | reload there | push there | retry there | finish garbage there =>
    exact mover there nofun nofun rfl

/-- Where the call that leads has failed, whoever is suspended stays suspended. -/
theorem Waits.stuck (h : Waits s stack) (failed : s.call l = .failed)
    (suspended : s.call c = .suspended) (taken : Taken s a s') :
    s'.call l = .failed ∧ s'.call c = .suspended := by
  obtain ⟨-, leads, others⟩ := h.leads failed id
  have asleep (c w : γ) : s.call c ≠ .waking (some w) := by
    intro there
    by_cases same : c = l
    · rw [same, failed] at there
      cases there
    · have follows := others c same
      rw [there] at follows
      exact follows
  obtain ⟨m, awake, alive, same⟩ := taken.mover leads.state_ne asleep
  constructor
  · rw [same l (by rintro rfl; exact alive failed), failed]
  · rw [same c (by rintro rfl; exact awake suspended), suspended]

theorem stuck_forever (waits : Waits s stack) (failed : s.call l = .failed)
    (suspended : s.call c = .suspended) (run : runActions step s steps = some s') :
    s'.call c = .suspended := by
  have kept := runActions_invariant
    (motive := fun _ s => (∃ stack, Waits s stack) ∧ s.call l = .failed ∧ s.call c = .suspended)
    ⟨⟨stack, waits⟩, failed, suspended⟩ (fun _ _ _ _ ⟨⟨_, waits⟩, failed, suspended⟩ taken =>
      ⟨waits.step (taken_of_step taken), waits.stuck failed suspended (taken_of_step taken)⟩) run
  exact kept.2.2

/-- The second call waits for the value of the first. -/
def sharedRun : List (FlightStep ℕ ℕ) :=
  [.load 0, .claim 0, .load 1, .check 1, .reload 1, .push 1 true, .push 1 false, .produce 0 7,
    .publish 0, .wake 0, .wake 0, .finish 0 none, .finish 1 (some 5)]

theorem singleFlight_sharedRun :
    ∃ s, runActions step (start 0) sharedRun = some s ∧ s.call 0 = .returned 7 ∧
      s.call 1 = .returned 7 ∧ SingleFlight s ∧ ∀ c, s.call c ≠ .suspended := by
  have flight := singleFlight_of_run
    (show runActions step (start (0 : ℕ)) sharedRun = some _ from rfl)
  have careful (c : ℕ) : .throw c ∉ sharedRun := nofun
  exact ⟨_, rfl, rfl, rfl, flight.1, flight.2 careful 0 mem_cons_self trivial⟩

/-- The second call waits for the first, whose producer throws. -/
def thrownRun : List (FlightStep ℕ ℕ) :=
  [.load 0, .claim 0, .load 1, .check 1, .reload 1, .push 1 false, .throw 0]

/-- The second call waits forever. -/
theorem suspended_thrownRun :
    ∃ s, runActions step (start 0) thrownRun = some s ∧ 0 ∈ s.leaders ∧ Ended (s.call 0) ∧
      ∀ more s', runActions step s more = some s' → s'.call 1 = .suspended := by
  refine ⟨_, rfl, mem_cons_self, trivial, fun more s' run => ?_⟩
  obtain ⟨stack, waits⟩ := waits_of_run
    (show runActions step (start (0 : ℕ)) thrownRun = some _ from rfl)
  exact stuck_forever (l := 0) waits rfl rfl run

end Flight

end DFTracer.Coro
