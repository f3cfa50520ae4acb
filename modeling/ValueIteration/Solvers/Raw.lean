import ValueIteration.Solvers.Block
import ValueIteration.Solvers.Caps

/-!
# The raw in-place frontier solvers

Frontier2D, Frontier3D, FrontierStack and BlockRefine as one family: what a
converged run settles, and how its fields arise from the states it evaluated.
-/

set_option autoImplicit false

namespace ValueIteration

/-- The solvers that run `value_iteration_raw` on a frontier. -/
inductive RawFrontier where
  | frontier2d
  | frontier3d
  | stack
  | block
  deriving DecidableEq, Repr

namespace RawFrontier

def solver : RawFrontier → U64Solver
  | frontier2d => .frontier2D
  | frontier3d => .frontier3D
  | stack => .frontierStack
  | block => .blockRefine

/-- The arm of `solve_observed` for this solver. -/
def run (k : RawFrontier) (vi : ValueIterator) (maxIter : Nat) (obs : SolveObserver) :
    Option InPlaceRun :=
  match k with
  | frontier2d => vi.frontier2d maxIter obs
  | frontier3d => vi.frontier3d maxIter obs
  | stack => vi.frontierStack maxIter obs
  | block => vi.blockRefine maxIter obs

end RawFrontier

/-- How the fields of a run arise from the states it evaluated. -/
structure Traced (vi : ValueIterator) (r : InPlaceRun) : Prop where
  legal : ∀ s ∈ r.evals, vi.dims.Contains s
  final : r.vi = evalSeq vi r.evals
  seen : ∀ v ∈ r.seen, ∃ pre, pre <+: r.evals ∧ v = evalSeq vi pre

theorem evalAll_append {σ ι : Type} (eval : σ → ι → σ × Bool) (ps qs : List ι) : ∀ v,
    (ActiveSet.evalAll eval (ps ++ qs) v).1 =
      (ActiveSet.evalAll eval qs (ActiveSet.evalAll eval ps v).1).1 := by
  induction ps with
  | nil => intro v; rfl
  | cons s ps ih => intro v; exact ih _

theorem sweepGroups_fst {σ ι κ : Type} (eval : σ → ι → σ × Bool) (gs : List (κ × List ι)) : ∀ v,
    (ActiveSet.sweepGroups eval gs v).1 = (ActiveSet.evalAll eval (gs.flatMap (·.2)) v).1 := by
  induction gs with
  | nil => intro v; rfl
  | cons g gs ih =>
    intro v
    rw [List.flatMap_cons, evalAll_append]
    exact ih _

theorem evalSeq_append (vi : ValueIterator) (ps qs : List Pos) :
    evalSeq vi (ps ++ qs) = evalSeq (evalSeq vi ps) qs :=
  evalAll_append rawEval ps qs vi

theorem evalSeq_sameInputs (ps : List Pos) : ∀ v : ValueIterator, v.SameInputs (evalSeq v ps) := by
  induction ps with
  | nil => intro v; exact ValueIterator.SameInputs.refl v
  | cons s ps ih => intro v; exact (rawEval_sameInputs s).trans (ih _)

section
variable {F κ : Type} {sch : Schedule F κ} {vi : ValueIterator} {wf : F → Prop}
  {Marked : F → Pos → Prop} {obs : SolveObserver}

/-- Every field of a loop is the start after a prefix of the evaluated states. -/
theorem frontierLoop_traced (law : sch.Lawful vi wf Marked) {f : F} (hf : wf f) {fuel : Nat}
    {r : InPlaceRun} (hrun : frontierLoop sch obs fuel (LoopState.start vi f obs) = some r) :
    Traced vi r := by
  have hstart : wf (LoopState.start vi f obs).frontier ∧
      Traced vi ((LoopState.start vi f obs).finish r.outcome) :=
    ⟨hf, by simp [LoopState.start, LoopState.finish], rfl,
      by simp [LoopState.start, LoopState.finish]⟩
  have hround : ∀ (st : LoopState F) (gs : List (κ × List Pos)),
      wf st.frontier ∧ Traced vi (st.finish r.outcome) → sch.groups st.frontier = some gs →
        wf (st.round sch gs).frontier ∧ Traced vi ((st.round sch gs).finish r.outcome) := by
    rintro st gs ⟨hwf, hst⟩ hgs
    refine ⟨law.mark_wf _ _ _ hwf hgs (sweepGroups_keys rawEval gs st.vi), ?_, ?_, ?_⟩
    · intro s hs
      rcases List.mem_append.mp hs with hs | hs
      · exact hst.legal s hs
      · obtain ⟨g, hg, hs⟩ := List.mem_flatMap.mp hs
        exact law.groups_legal _ _ hwf hgs g hg s hs
    · have hfin : st.vi = evalSeq vi st.evals := hst.final
      simp only [LoopState.finish, LoopState.round, sweepGroups_fst, evalSeq_append, ← hfin]
      rfl
    · intro v hv
      obtain ⟨pre, hpre, hv⟩ := hst.seen v hv
      exact ⟨pre, hpre.trans (List.prefix_append _ _), hv⟩
  have hseen : ∀ st : LoopState F, wf st.frontier ∧ Traced vi (st.finish r.outcome) →
      wf st.observed.frontier ∧ Traced vi (st.observed.finish r.outcome) := by
    rintro st ⟨hwf, hst⟩
    refine ⟨hwf, hst.legal, hst.final, ?_⟩
    intro v hv
    rcases List.mem_append.mp hv with hv | hv
    · exact hst.seen v hv
    · rw [List.mem_singleton] at hv
      exact ⟨st.evals, List.prefix_refl _, hv.trans hst.final⟩
  obtain ⟨st, ⟨_, hst⟩, hr, _⟩ := frontierLoop_induct _ hround hseen fuel hstart hrun
  rw [hr]
  exact hst

end

namespace RawFrontier

open ValueIterator in
/-- Every raw solver is the shared loop under a lawful schedule seeded with the
reached states. -/
theorem exists_schedule (k : RawFrontier) (vi : ValueIterator) (obs : SolveObserver) :
    ∃ (F κ : Type) (sch : Schedule F κ) (wf : F → Prop) (Marked : F → Pos → Prop) (f : F),
      sch.Lawful vi wf Marked ∧ wf f ∧
        (∀ t, vi.dims.Contains t → vi.costs t < maxCost → Marked f t) ∧
        ∀ maxIter, k.run vi maxIter obs =
          frontierLoop sch obs maxIter (LoopState.start vi f obs) := by
  cases k with
  | frontier2d =>
    exact ⟨_, _, _, _, _, _, frontier2d_lawful, seedFrontier2d_spec.1, seedFrontier2d_spec.2,
      fun _ => rfl⟩
  | frontier3d =>
    exact ⟨_, _, _, _, _, _, frontier3d_lawful, seedFrontier_spec.1, seedFrontier_spec.2,
      fun _ => rfl⟩
  | stack =>
    exact ⟨_, _, _, _, _, _, frontierStack_lawful, seedFrontier_spec.1, seedFrontier_spec.2,
      fun _ => rfl⟩
  | block =>
    refine ⟨_, _, _, _, _, _, block_lawful (show 0 < 8 by decide) (show 0 < 2 by decide), trivial,
      ?_, fun _ => rfl⟩
    intro t ht hlt
    exact blockFlags_marked (by decide) ht (decide_eq_true hlt)

variable {k : RawFrontier} {vi : ValueIterator} {obs : SolveObserver} {maxIter : Nat}
  {r : InPlaceRun}

theorem settled (h : k.run vi maxIter obs = some r) (hconv : r.outcome.converged = true) :
    vi.SameInputs r.vi ∧ ∀ s, vi.world.evaluable s = true → Settled vi.world r.vi s := by
  obtain ⟨F, κ, sch, wf, Marked, f, law, hf, hseed, hrun⟩ := k.exists_schedule vi obs
  rw [hrun] at h
  exact frontierLoop_settled law hf hseed h hconv

theorem traced (h : k.run vi maxIter obs = some r) : Traced vi r := by
  obtain ⟨F, κ, sch, wf, Marked, f, law, hf, _, hrun⟩ := k.exists_schedule vi obs
  rw [hrun] at h
  exact frontierLoop_traced law hf h

end RawFrontier

/-- A level leaves its states settled when it converged; the next one starts over. -/
theorem pyramidLevels_settled {vi : ValueIterator} {obs : SolveObserver} {maxIter : Nat}
    (levels : List Nat) : (∀ block ∈ levels, 0 < block) →
      ∀ {done r : InPlaceRun}, vi.SameInputs done.vi →
      (done.outcome.converged = true →
        ∀ s, vi.world.evaluable s = true → Settled vi.world done.vi s) →
      pyramidLevels obs maxIter levels done = some r → r.outcome.converged = true →
        vi.SameInputs r.vi ∧ ∀ s, vi.world.evaluable s = true → Settled vi.world r.vi s := by
  induction levels with
  | nil =>
    intro _ done r hin hset h hconv
    cases h
    exact ⟨hin, hset hconv⟩
  | cons block rest ih =>
    intro hpos done r hin hset h hconv
    have hblock := hpos block List.mem_cons_self
    unfold pyramidLevels at h
    simp only at h
    cases hrun : done.vi.blockRefineSized block 2
        (if rest.isEmpty then maxIter - done.outcome.iters else 4)
        (obs.offset done.outcome.iters done.outcome.updates) with
    | none =>
      rw [hrun] at h
      cases h
    | some q =>
      rw [hrun] at h
      simp only at h
      have hq : q.outcome.converged = true → vi.SameInputs q.vi ∧
          ∀ s, vi.world.evaluable s = true → Settled vi.world q.vi s := by
        intro hc
        obtain ⟨hqin, hqset⟩ := frontierLoop_settled
          (ValueIterator.block_lawful hblock (show 0 < 2 by decide)) trivial
          (fun t ht hlt => ValueIterator.blockFlags_marked hblock ht (decide_eq_true hlt)) hrun hc
        rw [hin.world] at hqset
        exact ⟨hin.trans hqin, hqset⟩
      have hqin : vi.SameInputs q.vi := by
        obtain ⟨st, hst, hfin, _⟩ := frontierLoop_induct
          (LoopInv done.vi (fun _ => True) (ValueIterator.BlockMarked done.vi block))
          (fun st gs hst hgs => hst.round (ValueIterator.block_lawful hblock
            (show 0 < 2 by decide)) hgs) (fun st hst => ⟨hst.inputs, hst.wf, hst.covered⟩) _
          (LoopInv.start trivial fun t ht hlt =>
            ValueIterator.blockFlags_marked hblock ht (decide_eq_true hlt)) hrun
        have hvi : q.vi = st.vi := by rw [hfin]; rfl
        rw [hvi]
        exact hin.trans hst.inputs
      split at h
      · cases h
        exact hq hconv
      · split at h
        · cases h
          exact hq hconv
        · refine ih (fun b hb => hpos b (List.mem_cons_of_mem _ hb)) ?_ ?_ h hconv
          · exact hqin
          · intro hc
            exact (hq hc).2

theorem pyramidSweep_settled {vi : ValueIterator} {obs : SolveObserver} {maxIter : Nat}
    {r : InPlaceRun} (h : vi.pyramidSweep maxIter obs = some r)
    (hconv : r.outcome.converged = true) :
    vi.SameInputs r.vi ∧ ∀ s, vi.world.evaluable s = true → Settled vi.world r.vi s := by
  refine pyramidLevels_settled _ ?_ (ValueIterator.SameInputs.refl vi) (fun hc => by cases hc) h
    hconv
  intro block hblock
  rcases List.mem_append.mp hblock with hb | hb
  · have := (List.mem_filter.mp hb).2
    simp only [Bool.and_eq_true, decide_eq_true_eq] at this
    omega
  · rw [List.mem_singleton.mp hb]
    decide

end ValueIteration
