import ValueIteration.Solvers.InPlaceSound

/-!
# The reference sweep

`original_solve_observed` sweeps all states in the storage order until no state that
ends below `REACH_THRESH` moved in a sweep. StreamMimic delegates to it.
-/

set_option autoImplicit false

namespace ValueIteration

namespace ValueIterator

/-- `sweep_orders[0]`: by `y`, `x` and heading. -/
def sweepOrder (vi : ValueIterator) : List Pos := vi.dims.all

/-- `value_iteration_worker(1, 0)`. -/
def valueIterationWorker (vi : ValueIterator) : ValueIterator := evalSeq vi vi.sweepOrder

/-- The comparison after a sweep: did a state now below `REACH_THRESH` move? -/
def changedBelowReach (prev vi : ValueIterator) : Bool :=
  vi.dims.all.any fun p => decide (vi.costs p < reachThresh) && vi.costs p != prev.costs p

end ValueIterator

/-- One sweep; the frontier slot keeps the field before it (`prev`). -/
def LoopState.sweep (st : LoopState ValueIterator) : LoopState ValueIterator :=
  { st with
    vi := st.vi.valueIterationWorker
    frontier := st.vi
    iters := st.iters + 1
    evals := st.evals ++ st.vi.sweepOrder }

/-- The sweep loop; the first argument is the number of sweeps that may follow this
one. `max_iter` is compared after the sweep, so at least one is made. -/
def originalLoop (obs : SolveObserver) : Nat → LoopState ValueIterator → InPlaceRun
  | fuel, st =>
    let st := st.sweep
    if !ValueIterator.changedBelowReach st.frontier st.vi then
      st.finish (.running st.iters 0 true)
    else
      match fuel with
      | 0 => st.finish (.running st.iters 0 false)
      | fuel + 1 =>
        if st.pacer.isDue st.iters then
          match obs.boundary st.iters 0 st.vi with
          | .proceed => originalLoop obs fuel st.observed
          | .stop => st.observed.finish (.mkStopped st.iters 0)
          | .cancel => st.observed.finish (.mkCancelled st.iters 0)
        else originalLoop obs fuel st

/-- `original_solve_observed`. -/
def ValueIterator.originalSolve (vi : ValueIterator) (maxIter : Nat) (obs : SolveObserver) :
    InPlaceRun :=
  originalLoop obs (maxIter - 1) (LoopState.start vi vi obs)

/-- `stream_mimic_solve_observed`. -/
def ValueIterator.streamMimic (vi : ValueIterator) (maxIter : Nat) (obs : SolveObserver) :
    InPlaceRun :=
  vi.originalSolve maxIter obs

/-- What sweeps and observations keep holds at the end; a converged run ends with a
sweep that moved no state below the threshold. -/
theorem originalLoop_induct {obs : SolveObserver} (P : LoopState ValueIterator → Prop)
    (hsweep : ∀ st, P st → P st.sweep) (hseen : ∀ st, P st → P st.observed) (fuel : Nat) :
    ∀ {st : LoopState ValueIterator}, P st →
      ∃ st', P st' ∧ originalLoop obs fuel st = st'.finish (originalLoop obs fuel st).outcome ∧
        ((originalLoop obs fuel st).outcome.converged = true → ∃ st₀, P st₀ ∧ st' = st₀.sweep ∧
          ValueIterator.changedBelowReach st₀.vi st'.vi = false) := by
  induction fuel with
  | zero =>
    intro st h
    unfold originalLoop
    by_cases hch : ValueIterator.changedBelowReach st.sweep.frontier st.sweep.vi = true
    · simp only [hch, Bool.not_true, Bool.false_eq_true, if_false]
      exact ⟨st.sweep, hsweep st h, rfl, fun hc => by cases hc⟩
    · rw [Bool.not_eq_true] at hch
      simp only [hch, Bool.not_false, if_true]
      exact ⟨st.sweep, hsweep st h, rfl, fun _ => ⟨st, h, rfl, hch⟩⟩
  | succ fuel ih =>
    intro st h
    have hs := hsweep st h
    unfold originalLoop
    by_cases hch : ValueIterator.changedBelowReach st.sweep.frontier st.sweep.vi = true
    · simp only [hch, Bool.not_true, Bool.false_eq_true, if_false]
      split
      · split
        · exact ih (hseen _ hs)
        · exact ⟨_, hseen _ hs, rfl, fun hc => by cases hc⟩
        · exact ⟨_, hseen _ hs, rfl, fun hc => by cases hc⟩
      · exact ih hs
    · rw [Bool.not_eq_true] at hch
      simp only [hch, Bool.not_false, if_true]
      exact ⟨st.sweep, hs, rfl, fun _ => ⟨st, h, rfl, hch⟩⟩

end ValueIteration
