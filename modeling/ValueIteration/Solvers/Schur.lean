import ValueIteration.Solvers.Frontier

/-!
# SchurPortal around its pre-pass

On a pristine field the solver first writes values and actions taken from the
precomputed tiles, which is one iteration, and then sweeps on from every reached cell
as Frontier2D does. Any other field goes to Frontier2D at once. The pre-pass is a
parameter here: whatever it writes, the sweep starts from it.
-/

set_option autoImplicit false

namespace ValueIteration

/-- What the pre-pass leaves at every state, and its number of updates. -/
abbrev PrePass := ValueIterator → (Pos → Nat × Option Nat) × Nat

namespace ValueIterator

variable (vi : ValueIterator)

def isPristine : Bool :=
  vi.states.cells.all fun s => s.localPenalty == 0 && (s.finalState || s.totalCost == maxCost)

/-- `schur_solve_with`; the sweep after the pre-pass is `exactify`. -/
def schurSolve (prep : PrePass) (maxIter : Nat) (obs : SolveObserver) : Option InPlaceRun :=
  if !vi.isPristine then vi.frontier2d maxIter obs
  else
    let v := vi.withField (prep vi).1
    let st : LoopState Bitboard2D :=
      ⟨v, v.seedFrontier2d, 1, (prep vi).2, BoundaryPacer.new obs, [], []⟩
    if st.pacer.isDue st.iters then
      match obs.boundary st.iters st.updates st.vi with
      | .proceed => frontierLoop v.frontier2dSchedule obs (maxIter - 1) st.observed
      | .stop => some (st.observed.finish (.mkStopped st.iters st.updates))
      | .cancel => some (st.observed.finish (.mkCancelled st.iters st.updates))
    else frontierLoop v.frontier2dSchedule obs (maxIter - 1) st

variable {vi} {prep : PrePass} {maxIter : Nat} {obs : SolveObserver} {r : InPlaceRun}

/-- Whatever the pre-pass wrote, a converged solve has settled every state. -/
theorem schurSolve_settled (h : vi.schurSolve prep maxIter obs = some r)
    (hconv : r.outcome.converged = true) :
    vi.SameInputs r.vi ∧ ∀ s, vi.world.evaluable s = true → Settled vi.world r.vi s := by
  have hloop : ∀ {v : ValueIterator} {st : LoopState Bitboard2D} {fuel : Nat}, vi.SameInputs v →
      st.vi = v → st.frontier = v.seedFrontier2d →
      frontierLoop v.frontier2dSchedule obs fuel st = some r →
        vi.SameInputs r.vi ∧ ∀ s, vi.world.evaluable s = true → Settled vi.world r.vi s := by
    intro v st fuel hv hst hfront hrun
    have hstart : LoopInv v (Planar v) PlanarMarked (LoopState.start v v.seedFrontier2d obs) :=
      LoopInv.start seedFrontier2d_spec.1 seedFrontier2d_spec.2
    have hinv : LoopInv v (Planar v) PlanarMarked st := by
      refine ⟨?_, ?_, ?_⟩
      · rw [hst]
        exact hstart.inputs
      · rw [hfront]
        exact hstart.wf
      · rw [hst, hfront]
        exact hstart.covered
    obtain ⟨hin, hset⟩ := hinv.settled frontier2d_lawful hrun hconv
    rw [hv.world] at hset
    exact ⟨hv.trans hin, hset⟩
  unfold schurSolve at h
  split at h
  · exact hloop (SameInputs.refl vi) rfl rfl h
  · have hv : vi.SameInputs (vi.withField (prep vi).1) := withField_sameInputs _
    simp only at h
    split at h
    · split at h
      · exact hloop hv rfl rfl h
      · cases h
        cases hconv
      · cases h
        cases hconv
    · exact hloop hv rfl rfl h

end ValueIterator

end ValueIteration
