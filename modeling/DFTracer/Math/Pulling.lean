/-
# Operators that are pulled

An operator takes batches from upstream and gives batches out. A pull asks for the next batch
and waits for what is upstream, or takes only what upstream has ready and may be refused. An
operator that is pulled in any mix of these gives the same batches, as long as it keeps what it
has taken.
-/

import Mathlib

namespace DFTracer.Math

/-- What an operator does with a batch and at the end of its input. -/
structure Puller (σ μ ω ε : Type) where
  stopped : σ → Bool
  absorb : σ → μ → Except ε (σ × Option ω)
  finish : σ → Except ε (σ × Option ω)
  tries : Bool

/-- A pull that waits, or one that may be refused. -/
inductive Pull
  | next
  | tryNext
  deriving DecidableEq

namespace Puller

variable {σ μ ω ε : Type} (op : Puller σ μ ω ε)

/-- The next batch, and what is left. No batch is the end. -/
def next : σ → List μ → Except ε (Option ω × σ × List μ)
  | s, [] =>
    if op.stopped s then .ok (none, s, [])
    else (op.finish s).map fun (s', o) => (o, s', [])
  | s, m :: ms =>
    if op.stopped s then .ok (none, s, m :: ms)
    else
      match op.absorb s m with
      | .error e => .error e
      | .ok (s', some o) => .ok (some o, s', ms)
      | .ok (s', none) => next s' ms

/-- The next batch from what upstream has ready. Every answer of upstream is used once, and a
pull is refused when upstream is not ready. -/
def tryNext : List Bool → σ → List μ → Except ε (Option (Option ω) × σ × List μ × List Bool)
  | ready, s, ms =>
    if op.stopped s then .ok (some none, s, ms, ready)
    else
      match ready, ms with
      | [], ms => .ok (none, s, ms, [])
      | false :: ready, ms => .ok (none, s, ms, ready)
      | true :: ready, [] => (op.finish s).map fun (s', o) => (some o, s', [], ready)
      | true :: ready, m :: ms =>
        match op.absorb s m with
        | .error e => .error e
        | .ok (s', some o) => .ok (some (some o), s', ms, ready)
        | .ok (s', none) => tryNext ready s' ms

/-- A pull by an operator that may never be refused is refused at once. -/
def pull (op : Puller σ μ ω ε) (ready : List Bool) (s : σ) (ms : List μ) :
    Pull → Except ε (Option (Option ω) × σ × List μ × List Bool)
  | .next => (op.next s ms).map fun (o, s', ms') => (some o, s', ms', ready)
  | .tryNext => if op.tries then op.tryNext ready s ms else .ok (none, s, ms, ready)

/-- The batches of some pulls, and whether the last of them was told the end. -/
def drive : List Pull → List Bool → σ → List μ → Except ε (List ω × Bool)
  | [], _, _, _ => .ok ([], false)
  | p :: ps, ready, s, ms =>
    match op.pull ready s ms p with
    | .error e => .error e
    | .ok (none, s', ms', ready') => drive ps ready' s' ms'
    | .ok (some none, _) => .ok ([], true)
    | .ok (some (some o), s', ms', ready') =>
      (drive ps ready' s' ms').map fun (os, ended) => (o :: os, ended)

/-- All batches that are given out. -/
def outputs : σ → List μ → Except ε (List ω)
  | s, [] => if op.stopped s then .ok [] else (op.finish s).map fun (_, o) => o.toList
  | s, m :: ms =>
    if op.stopped s then .ok []
    else
      match op.absorb s m with
      | .error e => .error e
      | .ok (s', o) => (outputs s' ms).map fun os => o.toList ++ os

/-- An operator that has given its last batch gives no other. -/
def Settles : Prop := ∀ s s' o, op.finish s = .ok (s', some o) → op.outputs s' [] = .ok []

/-- What a pull says about all batches that are given out. -/
def Accounts (s : σ) (ms : List μ) : Option (Option ω) → σ → List μ → Prop
  | none, s', ms' => op.outputs s ms = op.outputs s' ms'
  | some none, _, _ => op.outputs s ms = .ok []
  | some (some o), s', ms' => op.outputs s ms = (op.outputs s' ms').map fun os => o :: os

variable {op}

variable {s : σ}

theorem outputs_stopped (h : op.stopped s = true) (ms : List μ) : op.outputs s ms = .ok [] := by
  cases ms <;> exact if_pos h

variable {s' : σ} {ms : List μ} {m : μ} {o : Option ω} {ms' : List μ} {ready' : List Bool}
  {p : Pull}

theorem outputs_cons (h : ¬ op.stopped s = true) (ho : op.absorb s m = .ok (s', o)) :
    op.outputs s (m :: ms) = (op.outputs s' ms).map fun os => o.toList ++ os := by
  rw [outputs, if_neg h, ho]

theorem outputs_skip (h : ¬ op.stopped s = true)
    (ho : op.absorb s m = .ok (s', none)) : op.outputs s (m :: ms) = op.outputs s' ms := by
  rw [outputs_cons h ho]
  cases op.outputs s' ms <;> rfl

/-- The end of the input accounts for the last batch. -/
theorem accounts_finish (settles : op.Settles)
    (h : ¬ op.stopped s = true) (ho : op.finish s = .ok (s', o)) :
    op.Accounts s [] (some o) s' [] := by
  have all : op.outputs s [] = .ok o.toList := by
    rw [outputs, if_neg h, ho]
    rfl
  cases o with
  | none => exact all
  | some o =>
    change op.outputs s [] = (op.outputs s' []).map _
    rw [settles s s' o ho]
    exact all

theorem next_accounts (settles : op.Settles)
    (h : op.next s ms = .ok (o, s', ms')) : op.Accounts s ms (some o) s' ms' := by
  induction ms generalizing s with
  | nil =>
    rw [next] at h
    split at h
    · cases h
      exact outputs_stopped (by assumption) _
    · rename_i running
      cases ho : op.finish s with
      | error e =>
        rw [ho] at h
        cases h
      | ok r =>
        rw [ho] at h
        cases h
        exact accounts_finish settles running ho
  | cons m ms ih =>
    rw [next] at h
    split at h
    · cases h
      exact outputs_stopped (by assumption) _
    · rename_i running
      split at h
      · cases h
      · rename_i s₁ o₁ ho
        cases h
        exact outputs_cons running ho
      · rename_i s₁ ho
        have rest := ih h
        unfold Accounts at rest ⊢
        rwa [outputs_skip running ho]

variable {ready : List Bool}

theorem tryNext_accounts (settles : op.Settles) {o : Option (Option ω)}
    (h : op.tryNext ready s ms = .ok (o, s', ms', ready')) : op.Accounts s ms o s' ms' := by
  induction ready generalizing s ms with
  | nil =>
    unfold tryNext at h
    split at h
    · cases h
      exact outputs_stopped (by assumption) _
    · cases h
      rfl
  | cons answer ready ih =>
    unfold tryNext at h
    split at h
    · cases h
      exact outputs_stopped (by assumption) _
    · rename_i running
      cases answer with
      | false =>
        cases h
        rfl
      | true =>
        cases ms with
        | nil =>
          cases ho : op.finish s with
          | error e =>
            rw [ho] at h
            cases h
          | ok r =>
            rw [ho] at h
            cases h
            exact accounts_finish settles running ho
        | cons m ms =>
          dsimp only at h
          split at h
          · cases h
          · rename_i s₁ o₁ ho
            cases h
            exact outputs_cons running ho
          · rename_i s₁ ho
            have rest := ih h
            unfold Accounts at rest ⊢
            rwa [outputs_skip running ho]

theorem pull_accounts (settles : op.Settles) {o : Option (Option ω)}
    (h : op.pull ready s ms p = .ok (o, s', ms', ready')) : op.Accounts s ms o s' ms' := by
  cases p with
  | next =>
    unfold pull at h
    cases ho : op.next s ms with
    | error e =>
      rw [ho] at h
      cases h
    | ok r =>
      rw [ho] at h
      cases h
      exact next_accounts settles ho
  | tryNext =>
    unfold pull at h
    dsimp only at h
    split at h
    · exact tryNext_accounts settles h
    · cases h
      rfl

/-! ## Failures -/

variable {e : ε}

theorem next_error (h : op.next s ms = .error e) : op.outputs s ms = .error e := by
  induction ms generalizing s with
  | nil =>
    rw [next] at h
    split at h
    · cases h
    · rename_i running
      rw [outputs, if_neg running]
      cases ho : op.finish s with
      | error e' =>
        rw [ho] at h
        cases h
        rfl
      | ok r =>
        rw [ho] at h
        cases h
  | cons m ms ih =>
    rw [next] at h
    split at h
    · cases h
    · rename_i running
      split at h
      · rename_i e' ho
        cases h
        rw [outputs, if_neg running, ho]
      · cases h
      · rename_i s₁ ho
        rw [outputs_skip running ho]
        exact ih h

theorem tryNext_error (h : op.tryNext ready s ms = .error e) : op.outputs s ms = .error e := by
  induction ready generalizing s ms with
  | nil =>
    unfold tryNext at h
    split at h <;> cases h
  | cons answer ready ih =>
    unfold tryNext at h
    split at h
    · cases h
    · rename_i running
      cases answer with
      | false => cases h
      | true =>
        cases ms with
        | nil =>
          rw [outputs, if_neg running]
          cases ho : op.finish s with
          | error e' =>
            rw [ho] at h
            cases h
            rfl
          | ok r =>
            rw [ho] at h
            cases h
        | cons m ms =>
          dsimp only at h
          split at h
          · rename_i e' ho
            cases h
            rw [outputs, if_neg running, ho]
          · cases h
          · rename_i s₁ ho
            rw [outputs_skip running ho]
            exact ih h

theorem pull_error (h : op.pull ready s ms p = .error e) : op.outputs s ms = .error e := by
  cases p with
  | next =>
    unfold pull at h
    cases ho : op.next s ms with
    | error e' =>
      rw [ho] at h
      cases h
      exact next_error ho
    | ok r =>
      rw [ho] at h
      cases h
  | tryNext =>
    unfold pull at h
    dsimp only at h
    split at h
    · exact tryNext_error h
    · cases h

/-- An operator that gives nothing out before the end of its input fails at the first pull that
waits. -/
theorem next_of_outputs_error (gathers : ∀ s m s' o, op.absorb s m = .ok (s', o) → o = none)
    (h : op.outputs s ms = .error e) : op.next s ms = .error e := by
  induction ms generalizing s with
  | nil =>
    rw [outputs] at h
    rw [next]
    split at h
    · cases h
    · rename_i running
      rw [if_neg running]
      cases ho : op.finish s with
      | error e' =>
        rw [ho] at h
        cases h
        rfl
      | ok r =>
        rw [ho] at h
        cases h
  | cons m ms ih =>
    by_cases running : op.stopped s = true
    · rw [outputs_stopped running] at h
      cases h
    · rw [next, if_neg running]
      cases ho : op.absorb s m with
      | error e' =>
        rw [outputs, if_neg running, ho] at h
        cases h
        rfl
      | ok r =>
        obtain ⟨s', o⟩ := r
        obtain rfl := gathers s m s' o ho
        rw [outputs_skip running ho] at h
        exact ih h

/-- Pulls give the first batches, all of them when the end is told, and the end is told when
there are more pulls that wait than batches. -/
theorem drive_spec (settles : op.Settles) {all : List ω}
    (h : op.outputs s ms = .ok all) (pulls : List Pull) (ready : List Bool) :
    ∃ outs ended, op.drive pulls ready s ms = .ok (outs, ended) ∧ outs <+: all ∧
      (ended = true → outs = all) ∧ (all.length < pulls.count .next → ended = true) := by
  induction pulls generalizing s ms all ready with
  | nil =>
    refine ⟨[], false, rfl, List.nil_prefix, ?_, ?_⟩
    · rintro ⟨⟩
    · intro more
      cases more
  | cons p pulls ih =>
    unfold drive
    cases ho : op.pull ready s ms p with
    | error e =>
      rw [pull_error ho] at h
      cases h
    | ok r =>
      obtain ⟨o, s', ms', ready'⟩ := r
      have accounts := pull_accounts settles ho
      cases o with
      | none =>
        obtain ⟨outs, ended, driven, first, whole, enough⟩ :=
          ih (accounts.symm.trans h) ready'
        refine ⟨outs, ended, driven, first, whole, fun more => enough ?_⟩
        cases p with
        | next =>
          unfold pull at ho
          cases hn : op.next s ms with
          | error e | ok r =>
            rw [hn] at ho
            cases ho
        | tryNext => rwa [List.count_cons_of_ne (by decide)] at more
      | some o =>
        cases o with
        | none =>
          have none := accounts.symm.trans h
          cases none
          exact ⟨[], true, rfl, List.nil_prefix, fun _ => rfl, fun _ => rfl⟩
        | some o =>
          have split := accounts.symm.trans h
          cases rest : op.outputs s' ms' with
          | error e =>
            rw [rest] at split
            cases split
          | ok all' =>
            rw [rest] at split
            cases split
            obtain ⟨outs, ended, driven, first, whole, enough⟩ := ih rest ready'
            refine ⟨o :: outs, ended, ?_, (List.prefix_cons_inj o).mpr first,
              fun done => congrArg (o :: ·) (whole done), fun more => enough ?_⟩
            · simp only [driven]
              rfl
            · rw [List.count_cons, List.length_cons] at more
              split at more <;> omega

/-- Pulls of an operator that fails. -/
theorem drive_error (gathers : ∀ s m s' o, op.absorb s m = .ok (s', o) → o = none)
    (h : op.outputs s ms = .error e) (ready : List Bool) :
    op.drive [.next] ready s ms = .error e := by
  unfold drive pull
  rw [next_of_outputs_error gathers h]
  rfl

end Puller

end DFTracer.Math
