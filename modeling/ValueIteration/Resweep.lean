import ValueIteration.Conformance
import ValueIteration.Solvers.Schur
import ValueIteration.Solvers.Sparse

/-!
# Sweeping a converged field again

After a change of the local penalties a solver that declares `resweep` is run from
the field it had converged to. Values may rise as well as fall, so nothing is known
but that every state outside the frontier holds its update.
-/

set_option autoImplicit false

namespace ValueIteration

open ValueIterator

/-- The solvers that can sweep a converged field again. -/
inductive Resweeper where
  | reference
  | streamMimic
  | raw (k : RawFrontier)
  | pyramid
  | schur (tile portalThetas : Nat)
  | parallel (k : ParSolver)
  | sparse
  deriving DecidableEq, Repr

def ParSolver.solver : ParSolver → U64Solver
  | fused => .frontier2DFused
  | parUnsafe => .frontier2DParUnsafe
  | par => .frontier2DPar

namespace Resweeper

def solver : Resweeper → U64Solver
  | reference => .reference
  | streamMimic => .streamMimic
  | raw k => k.solver
  | pyramid => .pyramidSweep
  | schur tile portalThetas => .schurPortal tile portalThetas
  | parallel k => k.solver
  | sparse => .frontier2DSparse

/-- They are the solvers that declare the capability. -/
theorem resweep_iff (s : U64Solver) : s.caps.resweep = true ↔ ∃ k : Resweeper, k.solver = s := by
  constructor
  · intro h
    cases s with
    | reference => exact ⟨.reference, rfl⟩
    | frontier3D => exact ⟨.raw .frontier3d, rfl⟩
    | frontier2D => exact ⟨.raw .frontier2d, rfl⟩
    | frontier2DPar => exact ⟨.parallel .par, rfl⟩
    | frontier2DParUnsafe => exact ⟨.parallel .parUnsafe, rfl⟩
    | frontier2DFused => exact ⟨.parallel .fused, rfl⟩
    | frontier2DSparse => exact ⟨.sparse, rfl⟩
    | frontier2DSparseCompact band => cases h
    | frontierStack => exact ⟨.raw .stack, rfl⟩
    | blockRefine => exact ⟨.raw .block, rfl⟩
    | pyramidSweep => exact ⟨.pyramid, rfl⟩
    | streamMimic => exact ⟨.streamMimic, rfl⟩
    | priorityLabelSetting => cases h
    | priorityLabelCorrecting => cases h
    | schurPortal tile portalThetas => exact ⟨.schur tile portalThetas, rfl⟩
  · rintro ⟨k, rfl⟩
    cases k with
    | raw k => cases k <;> rfl
    | parallel k => cases k <;> rfl
    | _ => rfl

/-- The action cost of the solver's own update. -/
def cost (k : Resweeper) (w : World Pos) : World.Cost Pos :=
  match k with
  | parallel _ | sparse => w.clampedCost
  | _ => w.rawCost

/-- Solvers on the fused layout. -/
def onWords : Resweeper → Bool
  | parallel .fused | sparse => true
  | _ => false

/-- Solvers that stop when no state below `REACH_THRESH` moved. -/
def belowReach : Resweeper → Bool
  | reference | streamMimic => true
  | _ => false

/-- The arm of `solve_observed`, with the pre-pass of SchurPortal and the schedule of
the workers as parameters. -/
def run (k : Resweeper) (vi : ValueIterator) (prep : Nat → Nat → PrePass) (nthreads maxIter : Nat)
    (sched : Nat → List (Nat × Bool)) (obs : SolveObserver) :
    Option (ValueIterator × SolveOutcome) :=
  match k with
  | reference => let r := vi.originalSolve maxIter obs; some (r.vi, r.outcome)
  | streamMimic => let r := vi.streamMimic maxIter obs; some (r.vi, r.outcome)
  | raw k => (k.run vi maxIter obs).map fun r => (r.vi, r.outcome)
  | pyramid => (vi.pyramidSweep maxIter obs).map fun r => (r.vi, r.outcome)
  | schur tile portalThetas =>
    (vi.schurSolve (prep tile portalThetas) maxIter obs).map fun r => (r.vi, r.outcome)
  | parallel k => (k.run vi nthreads maxIter sched obs).map fun r => (r.field, r.outcome)
  | sparse => (vi.frontier2dSparse nthreads maxIter sched obs).map fun r => (r.field, r.outcome)

end Resweeper

/-- `vi'` is `vi` with other local penalties. -/
structure LocalChange (vi vi' : ValueIterator) : Prop where
  dims : vi'.dims = vi.dims
  actions : vi'.actions = vi.actions
  states : ∀ p, vi'.stateAt p = { vi.stateAt p with localPenalty := (vi'.stateAt p).localPenalty }

/-- Every evaluated state holds its update; finals and obstacles hold values of the
solver's range. -/
structure FixedField (k : Resweeper) (vi : ValueIterator) : Prop where
  fixed : ∀ s, vi.world.evaluable s = true →
    vi.costs s = (vi.world.backup (k.cost vi.world) vi.costs s).1
  rest : ∀ p, vi.dims.Contains p → vi.world.evaluable p = false → CostValue (vi.costs p)

/-- What sweeping again promises: under the new penalties every reached state holds
its own update. -/
def ResweepSound (k : Resweeper) : Prop :=
  ∀ {vi vi' v : ValueIterator} {prep : Nat → Nat → PrePass} {nthreads maxIter : Nat}
    {sched : Nat → List (Nat × Bool)} {obs : SolveObserver} {o : SolveOutcome},
    FixedField k vi → LocalChange vi vi' → 0 < nthreads →
    k.run vi' prep nthreads maxIter sched obs = some (v, o) → o.converged = true →
      ∀ s, vi'.world.evaluable s = true → v.costs s < maxCost →
        (v.costs s, v.policy s) = vi'.world.backup (k.cost vi'.world) v.costs s

section
variable {vi vi' : ValueIterator}

theorem LocalChange.costs (h : LocalChange vi vi') (p : Pos) : vi'.costs p = vi.costs p := by
  rw [ValueIterator.costs, h.states p]
  rfl

theorem LocalChange.free (h : LocalChange vi vi') (p : Pos) :
    (vi'.stateAt p).free = (vi.stateAt p).free := by
  rw [h.states p]

theorem LocalChange.evaluable (h : LocalChange vi vi') (p : Pos) :
    vi'.world.evaluable p = vi.world.evaluable p := by
  simp only [ValueIterator.world, State.evaluable, h.dims]
  rw [h.states p]

theorem LocalChange.choices (h : LocalChange vi vi') (s : Pos) :
    vi'.world.choices s = vi.world.choices s := by
  have hpos (tr : StateTransition) : vi'.outcomePos s tr = vi.outcomePos s tr := by
    simp only [outcomePos, h.dims]
  have harea : vi'.inMapArea = vi.inMapArea := by
    funext ix iy
    simp only [inMapArea, h.dims]
  have hrow (a : Action) : vi'.legalRow s a = vi.legalRow s a := by
    simp only [legalRow, harea, h.free, hpos]
  simp only [ValueIterator.world, h.actions]
  exact List.map_congr_left fun a _ => hrow a

end

/-- No free state's penalty reaches the sentinel when a value is added. -/
def ClearOfSentinel (vi : ValueIterator) : Prop :=
  ∀ p, vi.dims.Contains p → (vi.stateAt p).free = true →
    vi.world.pen p + productLimit ≤ unreached

theorem ClearOfSentinel.unmistaken {vi : ValueIterator} (h : ClearOfSentinel vi) {p : Pos}
    (hp : vi.dims.Contains p) (hfree : (vi.stateAt p).free = true) {v : Nat} (hv : CostValue v) :
    v = maxCost ∨ wrappingAdd v (vi.world.pen p) ≠ unreached := by
  rcases hv with rfl | hlt
  · exact Or.inl rfl
  · right
    have hpen := h p hp hfree
    have hsum : v + vi.world.pen p < unreached := by omega
    rw [wrappingAdd, Nat.mod_eq_of_lt (hsum.trans (by decide))]
    exact hsum.ne

section Start
variable {k : Resweeper} {vi vi' : ValueIterator}

theorem FixedField.value (hfix : FixedField k vi) (hclamped : k.cost vi.world = vi.world.clampedCost)
    {p : Pos} (hp : vi.dims.Contains p) : CostValue (vi.costs p) := by
  by_cases hev : vi.world.evaluable p = true
  · rw [hfix.fixed p hev, hclamped]
    exact World.backup_clamped_value _ _
  · exact hfix.rest p hp (Bool.not_eq_true _ ▸ hev)

/-- A fixed field under other local penalties is a start the padded layout can take. -/
theorem padded_warm (hfix : FixedField k vi) (hclamped : k.cost vi.world = vi.world.clampedCost)
    (hlocal : LocalChange vi vi') : (paddedRegime vi').Starts (Padded.build vi').words := by
  have hfield : (paddedRegime vi').cells.field vi' (Padded.build vi').words = vi'.costs :=
    Padded.field_words
  refine ⟨?_, fun _ => trivial, trivial, fun p _ hmax => (congrFun hfield p).trans hmax⟩
  intro p hp
  rw [hlocal.costs]
  exact (hfix.value hclamped (hlocal.dims ▸ hp)).le

/-- Reached states keep an action with reached outcomes, so the fused layout can take it
when no word is mistaken for the sentinel. -/
theorem fused_warm (hfix : FixedField k vi) (hclamped : k.cost vi.world = vi.world.clampedCost)
    (hlocal : LocalChange vi vi') (hclear : ClearOfSentinel vi') :
    (fusedRegime vi').Starts (Fused.buildDirect vi').words := by
  have hvalue : ∀ p, vi'.dims.Contains p → CostValue (vi'.costs p) := by
    intro p hp
    rw [hlocal.costs]
    exact hfix.value hclamped (hlocal.dims ▸ hp)
  have hword : ∀ p, vi'.dims.Contains p → vi'.costs p < word := fun p hp => (hvalue p hp).lt_word
  have hfree : ∀ p, vi'.dims.Contains p → (vi'.stateAt p).free = true →
      (fusedRegime vi').cells.field vi' (Fused.buildDirect vi').words p = vi'.costs p :=
    fun p hp hf => Fused.field_words hp (hword p hp)
      (hclear.unmistaken hp hf (hvalue p hp)) (Or.inl hf)
  refine ⟨fun p hp => (hvalue p hp).le, fusedProper_words hword, ?_, ?_⟩
  · have hsupp := World.supported_of_fixed (w := vi.world) (V := vi.costs)
      fun s hs => (hfix.fixed s hs).trans (by rw [hclamped])
    intro s hev hne
    obtain ⟨hs, hsfree, _⟩ := evaluable_iff.mp hev
    rw [hfree s hs hsfree, hlocal.costs] at hne
    obtain ⟨row, hrow, hall⟩ := hsupp s (hlocal.evaluable s ▸ hev) hne
    rw [← hlocal.choices] at hrow
    refine ⟨row, hrow, ?_⟩
    rintro ⟨t, q⟩ ho
    have hreads : vi'.world.Reads s t := ⟨row, hrow, q, ho⟩
    obtain ⟨_, _, _, _, _, htfree, _⟩ := reads_elim hreads
    rw [hfree t (reads_inBox hs hreads).1 htfree, hlocal.costs]
    exact hall _ ho
  · intro p hp hmax
    exact (Fused.field_words hp (hword p hp) (Or.inl hmax) (Or.inr hmax)).trans hmax

end Start

/-- The reference's last sweep leaves its update wherever it reads states that end
below the threshold, or that no sweep changes. -/
theorem originalSolve_reads {vi : ValueIterator} {maxIter : Nat} {obs : SolveObserver}
    (hconv : (vi.originalSolve maxIter obs).outcome.converged = true) {s : Pos}
    (hev : vi.world.evaluable s = true)
    (hreads : ∀ t, vi.world.Reads s t → vi.world.evaluable t = true →
      (vi.originalSolve maxIter obs).vi.costs t < reachThresh) :
    ((vi.originalSolve maxIter obs).vi.costs s, (vi.originalSolve maxIter obs).vi.policy s) =
      vi.world.backup vi.world.rawCost (vi.originalSolve maxIter obs).vi.costs s := by
  obtain ⟨htr, hsweep⟩ := @originalSolve_spec vi obs maxIter
  obtain ⟨pre, hevals, hbelow⟩ := hsweep hconv
  have hpre := evalSeq_sameInputs pre vi
  have hfield : (vi.originalSolve maxIter obs).vi = evalSeq (evalSeq vi pre) vi.dims.all := by
    rw [htr.final, hevals, evalSeq_append]
  have hlegal : ∀ t ∈ vi.dims.all, vi.dims.Contains t := fun t ht => Dims.mem_all.mp ht
  have hs := (evaluable_iff.mp hev).1
  rw [hfield] at hbelow hreads ⊢
  apply sweep_eq_backup hpre Dims.nodup_all hlegal (Dims.mem_all.mpr hs) hev
  intro t ht
  have hct := reads_contains hev ht
  have hdims : (evalSeq (evalSeq vi pre) vi.dims.all).dims = vi.dims :=
    (hpre.trans (evalSeq_sameInputs _ _)).dims
  by_cases hte : vi.world.evaluable t = true
  · refine not_changedBelowReach hbelow ?_ (hreads t ht hte)
    rw [hdims]
    exact hct
  · rw [Bool.not_eq_true] at hte
    -- a state that is not evaluated is skipped by every evaluation
    have hskip : ∀ (ps : List Pos) {v : ValueIterator}, vi.SameInputs v →
        (∀ q ∈ ps, vi.dims.Contains q) → (evalSeq v ps).costs t = v.costs t := by
      intro ps
      induction ps with
      | nil => intro v _ _; rfl
      | cons q ps ih =>
        intro v hv hps
        have hq := hps q List.mem_cons_self
        have hstep : (rawEval v q).1.costs t = v.costs t := by
          by_cases hqe : v.world.evaluable q = true
          · rw [rawEval_costs hqe (hv.dims ▸ hct), if_neg]
            rintro rfl
            rw [hv.world, hte] at hqe
            cases hqe
          · rw [Bool.not_eq_true] at hqe
            rw [rawEval_of_not_evaluable (hv.dims ▸ hq) hqe]
        exact (ih (hv.trans (rawEval_sameInputs q))
          fun p hp => hps p (List.mem_cons_of_mem _ hp)).trans hstep
    exact hskip _ hpre hlegal

section Sound
variable {vi vi' v : ValueIterator} {prep : Nat → Nat → PrePass} {nthreads maxIter : Nat}
  {sched : Nat → List (Nat × Bool)} {obs : SolveObserver} {o : SolveOutcome}

/-- Sweeping again leaves every reached state at its own update under the new
penalties: for the solvers on the fused layout when no word is mistaken for the
sentinel, for the reference where everything read ends below its threshold. -/
theorem resweep_sound (k : Resweeper) (hfix : FixedField k vi) (hlocal : LocalChange vi vi')
    (hn : 0 < nthreads) (hclear : k.onWords = true → ClearOfSentinel vi')
    (h : k.run vi' prep nthreads maxIter sched obs = some (v, o)) (hconv : o.converged = true) :
    ∀ s, vi'.world.evaluable s = true → v.costs s < maxCost →
      (k.belowReach = true → ∀ t, vi'.world.Reads s t → vi'.world.evaluable t = true →
        v.costs t < reachThresh) →
        (v.costs s, v.policy s) = vi'.world.backup (k.cost vi'.world) v.costs s := by
  intro s hev hlt hbelow
  have hsettled : ∀ {r : InPlaceRun}, r.vi = v →
      (vi'.SameInputs r.vi ∧ ∀ s, vi'.world.evaluable s = true → Settled vi'.world r.vi s) →
        (v.costs s, v.policy s) = vi'.world.backup vi'.world.rawCost v.costs s := by
    rintro r rfl ⟨_, hset⟩
    exact (hset s hev).eq_backup hlt
  cases k with
  | reference =>
    cases h
    exact originalSolve_reads hconv hev (hbelow rfl)
  | streamMimic =>
    cases h
    exact originalSolve_reads hconv hev (hbelow rfl)
  | raw k =>
    obtain ⟨r, hr, heq⟩ := Option.map_eq_some_iff.mp h
    cases heq
    exact hsettled rfl (RawFrontier.settled hr hconv)
  | pyramid =>
    obtain ⟨r, hr, heq⟩ := Option.map_eq_some_iff.mp h
    cases heq
    exact hsettled rfl (pyramidSweep_settled hr hconv)
  | schur tile portalThetas =>
    obtain ⟨r, hr, heq⟩ := Option.map_eq_some_iff.mp h
    cases heq
    exact hsettled rfl (schurSolve_settled hr hconv)
  | parallel k =>
    obtain ⟨r, hr, heq⟩ := Option.map_eq_some_iff.mp h
    cases heq
    have hpadded : (paddedRegime vi').Stable :=
      Regime.Carried.stable paddedRegime_carried fun _ _ => trivial
    cases k with
    | fused =>
      have hcl := hclear rfl
      have hs := frontier2dFused_sound rfl fusedRegime_stable hn (fused_warm hfix rfl hlocal hcl) hr
        (fun w _ hw hval => hcl.unmistaken (evaluable_iff.mp hw).1 (evaluable_iff.mp hw).2.1 hval)
        hconv
      exact hs.1.fixed s hev
    | parUnsafe =>
      have hs := frontier2dParUnsafe_sound rfl hpadded hn (padded_warm hfix rfl hlocal) hr
        (fun _ _ _ _ => trivial) hconv
      exact hs.1.fixed s hev
    | par =>
      have hs := frontier2dPar_sound rfl (fun _ _ => trivial) paddedRegime_carried
        (padded_warm hfix rfl hlocal) hr (fun _ _ _ _ => trivial) hconv
      exact hs.1.fixed s hev
  | sparse =>
    obtain ⟨r, hr, heq⟩ := Option.map_eq_some_iff.mp h
    cases heq
    have hcl := hclear rfl
    have hs := frontier2dSparse_sound rfl fusedRegime_stable hn (fused_warm hfix rfl hlocal hcl) hr
      (fun w _ hw hval => hcl.unmistaken (evaluable_iff.mp hw).1 (evaluable_iff.mp hw).2.1 hval)
      hconv
    exact hs.1.fixed s hev

end Sound

/-- A free state that holds a value and an action. -/
def heldState (cost : Nat) (act : Nat) : State :=
  { freeState with totalCost := cost, optimalAction := some act }

theorem stepAction_wellFormed (dix diy : Int) : ∀ a ∈ [stepAction dix diy], a.WellFormed 1 := by
  intro a ha
  rw [List.mem_singleton] at ha
  subst ha
  refine ⟨rfl, ?_⟩
  intro row hrow
  rw [stepAction, List.mem_singleton] at hrow
  subst hrow
  refine ⟨?_, rfl⟩
  intro tr htr
  rw [List.mem_singleton] at htr
  subst htr
  exact ⟨show 0 < probBase by decide, show -((1 : Nat) : Int) ≤ 0 by decide⟩

/-- A line of states towards a goal at its left end, whose local penalty is `lp`. -/
def lineLeft (lp : Nat) : ValueIterator :=
  ⟨⟨⟨3, 1, 1⟩, [{ goalState probBase with localPenalty := lp }, heldState probBase 0,
    heldState (2 * probBase) 0], rfl⟩, [stepAction (-1) 0], stepAction_wellFormed _ _⟩

/-- The same line with the goal at its right end. -/
def lineRight (lp : Nat) : ValueIterator :=
  ⟨⟨⟨3, 1, 1⟩, [heldState (2 * probBase) 0, heldState probBase 0,
    { goalState probBase with localPenalty := lp }], rfl⟩, [stepAction 1 0],
    stepAction_wellFormed _ _⟩

theorem lineLeft_fixed (k : Resweeper) : FixedField k (lineLeft 0) := by
  have hraw : ∀ s ∈ (lineLeft 0).dims.all, (lineLeft 0).world.evaluable s = true →
      (lineLeft 0).costs s =
          ((lineLeft 0).world.backup (lineLeft 0).world.rawCost (lineLeft 0).costs s).1 ∧
        (lineLeft 0).costs s =
          ((lineLeft 0).world.backup (lineLeft 0).world.clampedCost (lineLeft 0).costs s).1 := by
    decide +kernel
  have hrest : ∀ p ∈ (lineLeft 0).dims.all, (lineLeft 0).world.evaluable p = false →
      (lineLeft 0).costs p < productLimit := by decide +kernel
  refine ⟨?_, fun p hp hev => Or.inr (hrest p (Dims.mem_all.mpr hp) hev)⟩
  intro s hev
  have h := hraw s (Dims.mem_all.mpr (evaluable_iff.mp hev).1) hev
  cases k with
  | parallel k => exact h.2
  | sparse => exact h.2
  | _ => exact h.1

theorem lineRight_fixed : FixedField .reference (lineRight 0) := by
  have hraw : ∀ s ∈ (lineRight 0).dims.all, (lineRight 0).world.evaluable s = true →
      (lineRight 0).costs s =
        ((lineRight 0).world.backup (lineRight 0).world.rawCost (lineRight 0).costs s).1 := by
    decide +kernel
  have hrest : ∀ p ∈ (lineRight 0).dims.all, (lineRight 0).world.evaluable p = false →
      (lineRight 0).costs p < productLimit := by decide +kernel
  exact ⟨fun s hev => hraw s (Dims.mem_all.mpr (evaluable_iff.mp hev).1) hev,
    fun p hp hev => Or.inr (hrest p (Dims.mem_all.mpr hp) hev)⟩

theorem lineLeft_local (lp lp' : Nat) : LocalChange (lineLeft lp) (lineLeft lp') := by
  refine ⟨rfl, rfl, ?_⟩
  intro p
  simp only [stateAt, Grid.get, Grid.getFlat, lineLeft]
  generalize (Dims.flat ⟨3, 1, 1⟩ p).toNat = i
  rcases i with _ | _ | _ | i <;> rfl

theorem lineRight_local (lp lp' : Nat) : LocalChange (lineRight lp) (lineRight lp') := by
  refine ⟨rfl, rfl, ?_⟩
  intro p
  simp only [stateAt, Grid.get, Grid.getFlat, lineRight]
  generalize (Dims.flat ⟨3, 1, 1⟩ p).toNat = i
  rcases i with _ | _ | _ | i <;> rfl

/-- After the goal's penalty doubled the fused solver carries the rise to the far end. -/
theorem lineLeft_resweep : ∃ v o,
    (Resweeper.parallel .fused).run (lineLeft probBase) (fun _ _ _ => (fun _ => (0, none), 0)) 2 10
      loneWorker nullObserver = some (v, o) ∧ v.costs ⟨2, 0, 0⟩ = 3 * probBase ∧
    (v.costs ⟨2, 0, 0⟩, v.policy ⟨2, 0, 0⟩) = (lineLeft probBase).world.backup
      (lineLeft probBase).world.clampedCost v.costs ⟨2, 0, 0⟩ := by
  have hrun : ((Resweeper.parallel .fused).run (lineLeft probBase)
      (fun _ _ _ => (fun _ => (0, none), 0)) 2 10 loneWorker nullObserver).map
        (fun r => (r.2.converged, r.1.costs ⟨2, 0, 0⟩)) = some (true, 3 * probBase) := by
    decide +kernel
  obtain ⟨⟨v, o⟩, hr, hval⟩ := Option.map_eq_some_iff.mp hrun
  simp only [Prod.mk.injEq] at hval
  have hclear : ClearOfSentinel (lineLeft probBase) := by
    have hall : ∀ p ∈ (lineLeft probBase).dims.all,
        (lineLeft probBase).world.pen p + productLimit ≤ unreached := by decide +kernel
    exact fun p hp _ => hall p (Dims.mem_all.mpr hp)
  refine ⟨v, o, hr, hval.2, ?_⟩
  apply resweep_sound (.parallel .fused) (lineLeft_fixed _) (lineLeft_local 0 probBase) (by decide)
    (fun _ => hclear) hr hval.1
  · decide +kernel
  · rw [hval.2]
    decide
  · intro h
    cases h

/-- What a run leaves at the state two steps from the goal: whether it converged, and
whether the state is reached and holds its update. -/
def farEnd (k : Resweeper) (vi : ValueIterator) (s : Pos) : Option (Bool × Bool × Bool) :=
  (k.run vi (fun _ _ _ => (fun _ => (0, none), 0)) 2 10 loneWorker nullObserver).map fun r =>
    (r.2.converged, decide (r.1.costs s < maxCost),
      r.1.costs s == (vi.world.backup (k.cost vi.world) r.1.costs s).1)

theorem not_resweepSound_of_farEnd {k : Resweeper} {vi vi' : ValueIterator} {s : Pos}
    (hfix : FixedField k vi) (hlocal : LocalChange vi vi') (hev : vi'.world.evaluable s = true)
    (h : farEnd k vi' s = some (true, true, false)) : ¬ ResweepSound k := by
  intro hsound
  obtain ⟨⟨v, o⟩, hr, hval⟩ := Option.map_eq_some_iff.mp h
  simp only [Prod.mk.injEq, decide_eq_true_eq, beq_eq_false_iff_ne] at hval
  exact hval.2.2 (congrArg Prod.fst (hsound hfix hlocal (by decide) hr hval.1 s hev hval.2.1))

/-- The reference stops while the rise of a state past the threshold has not reached its
neighbour; a goal whose word is the sentinel lets the fused solver settle on a wrapped
cost. -/
theorem not_resweepSound :
    ¬ ResweepSound .reference ∧ ¬ ResweepSound (.parallel .fused) := by
  constructor
  · apply not_resweepSound_of_farEnd lineRight_fixed (lineRight_local 0 (1000000 * probBase))
      (s := ⟨0, 0, 0⟩) <;> decide +kernel
  · apply not_resweepSound_of_farEnd (lineLeft_fixed _) (lineLeft_local 0 (unreached - probBase))
      (s := ⟨2, 0, 0⟩) <;> decide +kernel

end ValueIteration
