import Mathlib.Logic.Relation

/-!
# Runs of a transition system

A system takes one event at a time, and a guard says which events a run may take in
which states. An invariant needs to hold at the start and to survive one guarded step.
-/

set_option autoImplicit false

namespace Transition

variable {σ ε : Type}

/-- What the admitted events lead to, one after the other. -/
inductive GuardedRun (step : σ → ε → Option σ) (guard : σ → ε → Prop) : σ → σ → Prop where
  | refl (s : σ) : GuardedRun step guard s s
  | tail {s t u : σ} (e : ε) : GuardedRun step guard s t → guard t e → step t e = some u →
      GuardedRun step guard s u

/-- A run that may take every event. -/
abbrev Run (step : σ → ε → Option σ) : σ → σ → Prop := GuardedRun step fun _ _ => True

section
variable {step : σ → ε → Option σ} {guard guard' : σ → ε → Prop} {s t u : σ}

theorem GuardedRun.trans (h : GuardedRun step guard s t) (h' : GuardedRun step guard t u) :
    GuardedRun step guard s u := by
  induction h' with
  | refl => exact h
  | tail e _ hg hstep ih => exact .tail e ih hg hstep

theorem GuardedRun.mono (h : GuardedRun step guard s t) (hle : ∀ x e, guard x e → guard' x e) :
    GuardedRun step guard' s t := by
  induction h with
  | refl => exact .refl _
  | tail e _ hg hstep ih => exact .tail e ih (hle _ _ hg) hstep

theorem GuardedRun.run (h : GuardedRun step guard s t) : Run step s t :=
  h.mono fun _ _ _ => trivial

/-- Run lemma: what the start has and every admitted step keeps holds wherever the run
arrives. -/
theorem GuardedRun.invariant {I : σ → Prop} (h : GuardedRun step guard s t) (hs : I s)
    (hkeep : ∀ x e y, I x → guard x e → step x e = some y → I y) : I t := by
  induction h with
  | refl => exact hs
  | tail e _ hg hstep ih => exact hkeep _ e _ ih hg hstep

end

/-- The events one after the other, as long as the guard admits them. -/
def exec (step : σ → ε → Option σ) (admits : σ → ε → Bool) : σ → List ε → Option σ
  | s, [] => some s
  | s, e :: es => if admits s e then (step s e).bind fun t => exec step admits t es else none

theorem guardedRun_of_exec {step : σ → ε → Option σ} {admits : σ → ε → Bool} {s t : σ}
    {es : List ε} (h : exec step admits s es = some t) :
    GuardedRun step (fun x e => admits x e = true) s t := by
  induction es generalizing s with
  | nil =>
    cases h
    exact .refl _
  | cons e es ih =>
    rw [exec] at h
    split at h
    · next hg =>
      obtain ⟨u, hu, hrest⟩ := Option.bind_eq_some_iff.mp h
      exact (GuardedRun.tail e (.refl s) hg hu).trans (ih hrest)
    · cases h

end Transition
