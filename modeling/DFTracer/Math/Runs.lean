/-
# Runs of a system

A system that takes one action after the other, each of them where it is possible. What holds at
the start together with the empty history, and is kept by every action, holds of every run and
its history.
-/

import Mathlib.Data.List.Induction

namespace DFTracer.Math

variable {σ ℓ : Type} {step : σ → ℓ → Option σ} {start s s' : σ} {actions : List ℓ} {a : ℓ}

/-- The state after some actions, all of which were possible. -/
def runActions (step : σ → ℓ → Option σ) (start : σ) (actions : List ℓ) : Option σ :=
  actions.foldlM step start

theorem runActions_concat :
    runActions step start (actions ++ [a]) = (runActions step start actions).bind (step · a) := by
  unfold runActions
  rw [List.foldlM_append]
  cases actions.foldlM step start with
  | none => rfl
  | some s =>
    change (step s a).bind some = step s a
    cases step s a <;> rfl

/-- A run that goes one action further. -/
theorem runActions_concat_eq_some :
    runActions step start (actions ++ [a]) = some s' ↔
      ∃ s, runActions step start actions = some s ∧ step s a = some s' := by
  rw [runActions_concat, Option.bind_eq_some_iff]

/-- An invariant of states and the histories that lead to them. -/
theorem runActions_invariant {motive : List ℓ → σ → Prop} (initial : motive [] start)
    (kept : ∀ actions s a s', motive actions s → step s a = some s' → motive (actions ++ [a]) s')
    (run : runActions step start actions = some s) : motive actions s := by
  induction actions using List.reverseRecOn generalizing s with
  | nil =>
    cases run
    exact initial
  | append_singleton actions a ih =>
    obtain ⟨r, before, last⟩ := runActions_concat_eq_some.mp run
    exact kept actions r a s (ih before) last

/-- A prefix of a possible history is possible. -/
theorem runActions_prefix {earlier : List ℓ} (before : earlier <+: actions)
    (run : runActions step start actions = some s) :
    ∃ r, runActions step start earlier = some r := by
  obtain ⟨later, rfl⟩ := before
  unfold runActions at run ⊢
  rw [List.foldlM_append] at run
  obtain ⟨r, first, -⟩ := Option.bind_eq_some_iff.mp run
  exact ⟨r, first⟩

end DFTracer.Math
