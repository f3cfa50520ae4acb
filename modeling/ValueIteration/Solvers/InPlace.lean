import Mathlib.Data.List.Infix
import ValueIteration.Lib.ActiveSet
import ValueIteration.Displacement
import ValueIteration.Solvers.Observe

/-!
# Rounds of an in-place frontier solver

The raw solvers share one loop: while the frontier is not empty, expand it to groups
of states, update every group in place with `value_iteration_raw`, and mark the
groups in which a value moved. They differ in their `Schedule`. A run also records
the states it evaluated, in order, and the fields its observer saw.
-/

set_option autoImplicit false

namespace ValueIteration

/-- `value_iteration_raw(..) > 0`. -/
def rawEval (vi : ValueIterator) (s : Pos) : ValueIterator × Bool :=
  let r := vi.valueIterationRaw s
  (r.1, decide (0 < r.2))

/-- The field after evaluating a list of states in order. -/
def evalSeq (vi : ValueIterator) (ps : List Pos) : ValueIterator :=
  (ActiveSet.evalAll rawEval ps vi).1

structure Schedule (F κ : Type) where
  isEmpty : F → Bool
  groups : F → Option (List (κ × List Pos))
  mark : List κ → F

structure LoopState (F : Type) where
  vi : ValueIterator
  frontier : F
  iters : Nat
  updates : Nat
  pacer : BoundaryPacer
  evals : List Pos
  seen : List ValueIterator

structure InPlaceRun where
  vi : ValueIterator
  outcome : SolveOutcome
  evals : List Pos
  seen : List ValueIterator

namespace LoopState

variable {F κ : Type}

def start (vi : ValueIterator) (frontier : F) (obs : SolveObserver) : LoopState F :=
  ⟨vi, frontier, 0, 0, BoundaryPacer.new obs, [], []⟩

def round (sch : Schedule F κ) (gs : List (κ × List Pos)) (st : LoopState F) : LoopState F :=
  let r := ActiveSet.sweepGroups rawEval gs st.vi
  { st with
    vi := r.1
    frontier := sch.mark r.2.2
    iters := st.iters + 1
    updates := st.updates + r.2.1
    evals := st.evals ++ gs.flatMap (·.2) }

def observed (st : LoopState F) : LoopState F :=
  { st with pacer := st.pacer.reserve st.iters, seen := st.seen ++ [st.vi] }

def finish (st : LoopState F) (outcome : SolveOutcome) : InPlaceRun :=
  ⟨st.vi, outcome, st.evals, st.seen⟩

end LoopState

variable {F κ : Type}

/-- The shared loop; the first argument is `max_iter - iters`. A schedule that
panics gives `none`. -/
def frontierLoop (sch : Schedule F κ) (obs : SolveObserver) :
    Nat → LoopState F → Option InPlaceRun
  | 0, st => some (st.finish (.running st.iters st.updates (sch.isEmpty st.frontier)))
  | fuel + 1, st =>
    if sch.isEmpty st.frontier then
      some (st.finish (.running st.iters st.updates true))
    else
      match sch.groups st.frontier with
      | none => none
      | some gs =>
        let st := st.round sch gs
        if !sch.isEmpty st.frontier && st.pacer.isDue st.iters then
          match obs.boundary st.iters st.updates st.vi with
          | .proceed => frontierLoop sch obs fuel st.observed
          | .stop => some (st.observed.finish (.mkStopped st.iters st.updates))
          | .cancel => some (st.observed.finish (.mkCancelled st.iters st.updates))
        else frontierLoop sch obs fuel st

/-- A property that rounds and observations keep holds where the loop ends; a
converged loop ends with an empty frontier. -/
theorem frontierLoop_induct {sch : Schedule F κ} {obs : SolveObserver} (P : LoopState F → Prop)
    (hround : ∀ st gs, P st → sch.groups st.frontier = some gs → P (st.round sch gs))
    (hseen : ∀ st, P st → P st.observed) (fuel : Nat) :
    ∀ {st : LoopState F} {r : InPlaceRun}, P st → frontierLoop sch obs fuel st = some r →
      ∃ st', P st' ∧ r = st'.finish r.outcome ∧
        (r.outcome.converged = true → sch.isEmpty st'.frontier = true) := by
  induction fuel with
  | zero =>
    intro st r h hr
    cases hr
    exact ⟨st, h, rfl, id⟩
  | succ fuel ih =>
    intro st r h hr
    unfold frontierLoop at hr
    by_cases hempty : sch.isEmpty st.frontier = true
    · rw [if_pos hempty] at hr
      cases hr
      exact ⟨st, h, rfl, fun _ => hempty⟩
    rw [if_neg hempty] at hr
    cases hgs : sch.groups st.frontier with
    | none => rw [hgs] at hr; cases hr
    | some gs =>
      rw [hgs] at hr
      have hst := hround st gs h hgs
      simp only at hr
      split at hr
      · split at hr
        · exact ih (hseen _ hst) hr
        · cases hr
          exact ⟨_, hseen _ hst, rfl, fun hc => by cases hc⟩
        · cases hr
          exact ⟨_, hseen _ hst, rfl, fun hc => by cases hc⟩
      · exact ih hst hr

end ValueIteration
