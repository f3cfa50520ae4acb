import ValueIteration.Solvers.Parallel
import ValueIteration.Solvers.SparseMasks
import ValueIteration.Solvers.Words

/-!
# The sparse solver misses no dependency

A converged solve of `frontier2d_sparse` holds the clamped update of its own field at
every evaluated state, whatever the penalties. It returns the field of the full
evaluation as long as no reached value plus its penalty comes to the product limit.
-/

set_option autoImplicit false

namespace ValueIteration

open Async ValueIterator CellModel

variable {vi : ValueIterator}

/-- The fused layout on words that stand for values, whatever the field. -/
def fusedWords (vi : ValueIterator) : Regime vi := { fusedRegime vi with Good := fun _ => True }

section Words
variable {mem : Int → Nat}

/-- Where every state is at rest the words stand for the clamped update's fixed point. -/
theorem fusedWords_sound (hblank : vi.Blank)
    (hrest : (Fused.buildDirect vi).cells.RestsOff vi ∅ mem) (hmem : FoundedWords vi mem) :
    (fusedWords vi).Sound mem ∅ := by
  let m := (Fused.buildDirect vi).cells
  have hproper : ∀ i, FusedProper vi i (mem i) := by
    rintro i p hpad rfl
    by_cases hun : mem (vi.padIdx p) = unreached
    · exact Or.inl hun
    · have hfound := hmem.founded p hpad hun
      obtain ⟨hp, hfree⟩ := hfound.free
      have hne := (hfound.reached hblank hrest hmem).2
      rw [fused_before hp, if_neg hun] at hne
      exact Or.inr ⟨hp, hfree, hne⟩
  refine ⟨hproper, trivial, ?_⟩
  intro s hev _
  have hs := (evaluable_iff.mp hev).1
  have hkeeps := CellModel.thetaCost_keeps mem Fused.models (P := fun i h => h = mem i)
    (Q := fun t v => v = m.field vi mem t) (fun i h heq => heq ▸ hproper i)
    (by
      rintro t ht _ h rfl
      exact (CellModel.field_of_contains ht).symm) hs
  obtain ⟨r, hr, hval⟩ := hkeeps.peek (fun _ => rfl) (thetaCost_readOnly _ _ _)
  have hback := hr.eq fun t _ v hv => hv
  simp only [clampedUpdate, World.operator, hev, if_true]
  change m.field vi mem s = (vi.world.backup vi.world.clampedCost (m.field vi mem) s).1
  rw [← hback, hval, hrest s hev (Set.notMem_empty s)]
  exact CellModel.field_of_contains hs

end Words

section Loop
variable {S : Type} {sw : Sweep S} {nthreads : Nat} {sched : Nat → List (Nat × Bool)}
  {boundary : Nat → Nat → (Int → Nat) → SolveFlow}

/-- A converged run of a lawful sweep leaves every state at rest. -/
theorem gsLoop_rests (hsw : sw.cells = (Fused.buildDirect vi).cells) {own₀ : S}
    {Marks : S → List CellMoves → Prop} (law : sw.Lawful vi own₀ Marks) (hn : 0 < nthreads)
    (hblank : vi.Blank) {obs : SolveObserver} {cand₀ : List (Nat × Nat)} {fuel : Nat} {r : GsRun}
    (hcand : vi.seedCands = some cand₀)
    (hrun : gsLoop vi sw nthreads sched boundary fuel cand₀
      (GsState.start (Fused.buildDirect vi).words own₀ obs) = some r)
    (hconv : r.outcome.converged = true) :
    (Fused.buildDirect vi).cells.RestsOff vi ∅ r.mem ∧ FoundedWords vi r.mem ∧
      r.outcome.cancelled = false := by
  let m := (Fused.buildDirect vi).cells
  let P : List (Nat × Nat) → GsState S → Prop := fun cand st =>
    Candidates vi cand (sw.headings st.own) ∧ (∃ old, Marks st.own old) ∧
      m.RestsOff vi (activeSet cand (sw.headings st.own)) st.mem ∧ FoundedWords vi st.mem
  let M : GsState S → List CellMoves → Prop := fun st changed =>
    WellMoved vi changed ∧ Marks st.own changed ∧ m.RestsOff vi (boxOf vi changed) st.mem ∧
      FoundedWords vi st.mem
  have hround : ∀ cand st st' changed, P cand st →
      gsRound vi sw nthreads sched cand st = some (st', changed) → M st' changed := by
    rintro cand st st' changed ⟨hcd, ⟨old, hold⟩, hrest, hfounded⟩ hrd
    obtain ⟨logs, hmach, hch, hown, _, _⟩ := gsRound_eq hrd
    rw [hsw] at hmach
    have hwell := wellMoved_of_run Fused.models hcd hn hmach
    rw [← hch] at hwell
    refine ⟨hwell, ?_, ?_, Fused.round_founded hcd hn hmach hfounded⟩
    · rw [hown]
      exact law.mark _ _ _ hold hwell
    · intro s hev hnot
      apply round_rests Fused.models hcd hn hmach hrest s hev
      rintro ⟨t, hbox, hmoved⟩
      apply hnot
      rw [hch]
      exact ⟨t, hbox, moved_movers.mpr hmoved⟩
  have hnext : ∀ st changed cand, M st changed →
      nextCands vi st.iters changed = some cand → P cand st := by
    rintro st changed cand ⟨hwell, hmarks, hrest, hfounded⟩ hcand
    obtain ⟨hnodup, hin, hcov⟩ := nextCands_spec hwell hcand
    refine ⟨⟨hnodup, hin, fun c hc => law.legal _ _ hmarks hwell c (hin c hc)⟩, ⟨_, hmarks⟩,
      ?_, hfounded⟩
    intro s hev hnot
    apply hrest s hev
    rintro ⟨t, hbox, hmoved⟩
    have hs := (evaluable_iff.mp hev).1
    exact hnot (mem_activeSet hs (hcov s t hs hbox hmoved)
      (law.covers _ _ hmarks hwell s t hs hbox hmoved))
  obtain ⟨hnodup, hin, hseed⟩ := seedCands_spec hcand
  have hstart : P cand₀ (GsState.start (Fused.buildDirect vi).words own₀ obs) := by
    refine ⟨⟨hnodup, hin, fun c hc => law.legal _ _ law.start wellMoved_nil c (hin c hc)⟩,
      ⟨_, law.start⟩, ?_, foundedWords_start hblank⟩
    apply rests_start fun p hp => hblank.le_maxCost hp
    intro s t hs ht hbox hlt
    exact mem_activeSet hs (hseed s t hs ht hbox hlt) (law.first _ _ (eq_thetaPos hs).2.2)
  obtain ⟨st, changed, ⟨_, _, hrest, hfounded⟩, hr, hend⟩ :=
    gsLoop_induct P M hround hnext (fun _ _ h => h) fuel hstart hrun
  obtain ⟨rfl, hcancel⟩ := hend hconv
  have hmem : r.mem = st.mem := by rw [hr]; rfl
  rw [hmem]
  refine ⟨?_, hfounded, hcancel⟩
  intro s hev _
  apply hrest s hev
  rintro ⟨t, _, c, moves, hc, _⟩
  cases hc

end Loop

section Solve
variable {nthreads maxIter : Nat} {sched : Nat → List (Nat × Bool)} {obs : SolveObserver}
  {r : ParRun}

theorem frontier2dSparse_elim (h : vi.frontier2dSparse nthreads maxIter sched obs = some r) :
    vi.dims.nt ≤ 64 ∧ ∃ cand run, vi.seedCands = some cand ∧
      gsLoop vi (vi.sparseSweep (Fused.buildDirect vi).cells) nthreads sched
        (fun iters updates mem => obs.boundary iters updates
          (vi.materialize (Fused.buildDirect vi).cells mem)) (maxIter - 1) cand
        (GsState.start (Fused.buildDirect vi).words vi.sparseStart obs) = some run ∧
      r = vi.endSolve (Fused.buildDirect vi).cells (fusedSkip (Fused.buildDirect vi).cells run)
        run := by
  unfold frontier2dSparse at h
  split at h
  · next hnt =>
    obtain ⟨cand, hcand, hmap⟩ := Option.bind_eq_some_iff.mp h
    obtain ⟨run, hrun, hend⟩ := Option.map_eq_some_iff.mp hmap
    exact ⟨hnt, cand, run, hcand, hrun, hend.symm⟩
  · cases h

/-- A converged sparse solve from a blank field, with no condition on the penalties. -/
theorem frontier2dSparse_solved (hblank : vi.Blank) (hn : 0 < nthreads)
    (h : vi.frontier2dSparse nthreads maxIter sched obs = some r)
    (hconv : r.outcome.converged = true) : Solved vi r.field := by
  obtain ⟨hnt, cand, run, hcand, hrun, rfl⟩ := frontier2dSparse_elim h
  obtain ⟨hrest, hfounded, hc⟩ :=
    gsLoop_rests rfl (sparseSweep_lawful hnt _) hn hblank hcand hrun hconv
  exact (fused_end (R := fusedWords vi) rfl (fusedWords_sound hblank hrest hfounded) hc).1

theorem frontier2dSparse_sound {R : Regime vi} (hR : R.cells = (Fused.buildDirect vi).cells)
    (hstable : R.Stable) (hn : 0 < nthreads) (hstart : R.Starts (Fused.buildDirect vi).words)
    (h : vi.frontier2dSparse nthreads maxIter sched obs = some r) (hallow : R.Allows r.writes)
    (hconv : r.outcome.converged = true) : Solved vi r.field ∧ R.Good (vi.onMap r.field.costs) := by
  obtain ⟨hnt, cand, run, hcand, hrun, rfl⟩ := frontier2dSparse_elim h
  have law := sparseSweep_lawful hnt (Fused.buildDirect vi).cells
  obtain ⟨⟨E, hs, hend⟩, _⟩ := gsLoop_sound R hR.symm hstable law hn hcand
    (hstart.sound hcand fun c it hit => law.first c it hit) hrun hallow
  obtain ⟨rfl, hc⟩ := hend hconv
  exact fused_end hR hs hc

/-- In range a converged sparse solve did not leave the descent either. -/
theorem frontier2dSparse_descent (hgoal : GoalSet vi) (hn : 0 < nthreads)
    (h : vi.frontier2dSparse nthreads maxIter sched obs = some r)
    (hconv : r.outcome.converged = true) (hrange : r.InRange vi) :
    Descent vi (vi.onMap r.field.costs) := by
  have hs := frontier2dSparse_sound rfl (fusedRegime_stable.descending hgoal) hn
    (hgoal.fused_starts hrange.finals) h
    (fun w hw _ _ => ⟨InRange.unmistaken (hrange.writes w hw), hrange.writes w hw⟩) hconv
  exact hs.2.2

/-- Every state with a moved outcome is scheduled: its heading by the masks, its cell by
the dilation. A converged solve from a blank field therefore holds the clamped update
of its own field, and in range its field is that of the full evaluation. -/
theorem frontier2dSparse_exact (hblank : vi.Blank) (hn : 0 < nthreads)
    (h : vi.frontier2dSparse nthreads maxIter sched obs = some r)
    (hconv : r.outcome.converged = true) :
    (∀ masks changed, MarkRun vi masks changed → ∀ s t, vi.dims.Contains s →
      vi.world.Reads s t → Moved changed t →
        s.it.toNat ∈ vi.sparseHeadings masks (s.ix.toNat, s.iy.toNat) ∧
        ∀ iters cand, nextCands vi iters changed = some cand →
          (s.ix.toNat, s.iy.toNat) ∈ cand) ∧
    (∀ s, vi.world.evaluable s = true → (r.field.costs s, r.field.policy s) =
      vi.world.backup vi.world.clampedCost r.field.costs s) ∧
    ∀ {nthreads' maxIter' : Nat} {sched' : Nat → List (Nat × Bool)} {obs' : SolveObserver}
      {r' : ParRun}, GoalSet vi → 0 < nthreads' →
      vi.frontier2dParUnsafe nthreads' maxIter' sched' obs' = some r' →
      r'.outcome.converged = true → r.InRange vi → r'.InRange vi → r.field = r'.field := by
  have hsolved := frontier2dSparse_solved hblank hn h hconv
  have hnt := (frontier2dSparse_elim h).1
  refine ⟨?_, hsolved.fixed, ?_⟩
  · intro masks changed hrun s t hs hreads hmoved
    have hbox := (reads_inBox hs hreads).2
    have law := sparseSweep_lawful hnt (Fused.buildDirect vi).cells
    refine ⟨law.covers masks changed hrun.masked hrun.wellMoved s t hs hbox hmoved, ?_⟩
    intro iters cand hcand
    exact (nextCands_spec hrun.wellMoved hcand).2.2 s t hs hbox hmoved
  · intro nthreads' maxIter' sched' obs' r' hgoal hn' h' hconv' hrange hrange'
    have hd := frontier2dSparse_descent hgoal hn h hconv hrange
    obtain ⟨hs', hd'⟩ := ParSolver.solved (k := .parUnsafe) hgoal hn' h' hconv' hrange'
    exact hs'.unique hgoal hd' hsolved hd

end Solve

/-- On the row, whose moves change the heading, the sparse and the full evaluation return one
field. -/
theorem slipRow_sparse_exact : ∃ r r',
    slipRow.frontier2dSparse 2 10 inTurn nullObserver = some r ∧
    slipRow.frontier2dParUnsafe 2 10 inTurn nullObserver = some r' ∧
    slipRow.dims.all.map r.field.costs = slipRowValues ∧
    (r.field.costs ⟨2, 0, 1⟩, r.field.policy ⟨2, 0, 1⟩) =
      slipRow.world.backup slipRow.world.clampedCost r.field.costs ⟨2, 0, 1⟩ ∧
    r.field = r'.field := by
  have hrun : ((slipRow.frontier2dSparse 2 10 inTurn nullObserver).map fun r =>
      (r.outcome.converged, slipRow.dims.all.map r.field.costs,
        r.writes.all fun w => decide (w.2 + slipRow.world.pen w.1 < productLimit))) =
      some (true, slipRowValues, true) := by
    decide +kernel
  obtain ⟨r, hr, hends⟩ := Option.map_eq_some_iff.mp hrun
  simp only [Prod.mk.injEq] at hends
  obtain ⟨hconv, hvalues, hwrites⟩ := hends
  obtain ⟨r', hr', hconv', _, hrange'⟩ := slipRow_converged .parUnsafe
  have hfull : slipRow.frontier2dParUnsafe 2 10 inTurn nullObserver = some r' := hr'
  have hmain := frontier2dSparse_exact slipRow_blank (by decide) hr hconv
  exact ⟨r, r', hr, hfull, hvalues, hmain.2.1 _ (by decide +kernel), hmain.2.2 slipRow_goalSet
    (by decide) hfull hconv' (slipRow_inRange hwrites) hrange'⟩

/-- A free state with penalty `pen`. -/
def penState (pen : Nat) : State := { freeState with penalty := pen }

/-- Two states more than a block apart, each beside a goal and reading the other, with
penalties that bring sums past the product limit. -/
def twoEnds : ValueIterator :=
  ⟨⟨⟨18, 1, 1⟩, [penState 35184372350976, goalState 70368743915520] ++
      List.replicate 14 wallState ++ [penState 35184371826688, goalState 70368743653376],
      by decide⟩,
    [stepAction 16 0, stepAction (-16) 0, stepAction 1 0], by decide⟩

/-- The first worker evaluates everything. -/
def firstBlockFirst : Nat → List (Nat × Bool) := fun _ =>
  List.replicate 120 (0, false) ++ [(1, false)]

/-- The first worker claims the first block and waits for the second one's. -/
def secondBlockFirst : Nat → List (Nat × Bool) := fun _ =>
  (0, false) :: List.replicate 60 (1, false) ++ List.replicate 120 (0, false)

theorem twoEnds_goalSet : GoalSet twoEnds := by
  have hall : ∀ p ∈ twoEnds.dims.all,
      (twoEnds.costs p = if (twoEnds.stateAt p).finalState then 0 else maxCost) ∧
        ((twoEnds.stateAt p).finalState = true → (twoEnds.stateAt p).free = true) := by
    decide +kernel
  exact ⟨fun p hp => (hall p (Dims.mem_all.mpr hp)).1, fun p hp => (hall p (Dims.mem_all.mpr hp)).2⟩

/-- Out of range the order of evaluation decides. -/
theorem twoEnds_differs : GoalSet twoEnds ∧ ∃ r r',
    twoEnds.frontier2dSparse 2 10 firstBlockFirst nullObserver = some r ∧
    twoEnds.frontier2dParUnsafe 2 10 secondBlockFirst nullObserver = some r' ∧
    r.outcome.converged = true ∧ r'.outcome.converged = true ∧ r.field ≠ r'.field := by
  have hrun : ((twoEnds.frontier2dSparse 2 10 firstBlockFirst nullObserver).map fun r =>
      (r.outcome.converged, r.field.costs ⟨0, 0, 0⟩)) = some (true, 70368743915520) := by
    decide +kernel
  have hrun' : ((twoEnds.frontier2dParUnsafe 2 10 secondBlockFirst nullObserver).map fun r =>
      (r.outcome.converged, r.field.costs ⟨0, 0, 0⟩)) = some (true, 35184371302400) := by
    decide +kernel
  obtain ⟨r, hr, hval⟩ := Option.map_eq_some_iff.mp hrun
  obtain ⟨r', hr', hval'⟩ := Option.map_eq_some_iff.mp hrun'
  simp only [Prod.mk.injEq] at hval hval'
  refine ⟨twoEnds_goalSet, r, r', hr, hr', hval.1, hval'.1, ?_⟩
  intro heq
  rw [heq, hval'.2] at hval
  exact absurd hval.2 (by decide)

end ValueIteration
