import ValueIteration.EarlyStart
import ValueIteration.Planner.Rollout

/-!
# A compact sink read as a policy

A sink keeps a value and an action for every state and nothing else, so a final state is
told by its value 0 and an unreached one by `MAX_COST`. On the fields that the parallel
solvers return this loses nothing.
-/

set_option autoImplicit false

namespace ValueIteration

open ValueIterator

/-- The values tell final, blocked and unreached states from the others. -/
structure Encodable (v : ValueIterator) : Prop where
  final : ∀ p, v.dims.Contains p → (v.stateAt p).finalState = true →
    (v.stateAt p).free = true ∧ v.costs p = 0
  blocked : ∀ p, v.dims.Contains p → (v.stateAt p).free = false → v.costs p = maxCost
  positive : ∀ p, v.world.evaluable p = true → 0 < v.costs p
  unreached : ∀ p, v.world.evaluable p = true → maxCost ≤ v.costs p → v.policy p = none

variable {K : Type} [Field K]

/-- The sink holds the field `v`. -/
structure CompactPolicy.Holds (c : CompactPolicy K) (v : ValueIterator) : Prop where
  cellNum : c.cellNum = v.dims
  tResolution : c.frame.tResolution = ((360 / v.dims.nt : Nat) : K)
  stored : ∀ p, v.dims.Contains p → c.sink (c.orig p) = (v.costs p, sinkAction (v.policy p))

namespace CompactPolicy

variable {c : CompactPolicy K} {v : ValueIterator}

theorem read_of_contains (h : c.Holds v) {p : Pos} (hp : v.dims.Contains p) :
    c.read p = (v.costs p, sinkAction (v.policy p)) := by
  obtain ⟨hx, hy, ht⟩ := hp
  rw [read, if_neg, h.stored p ⟨hx, hy, ht⟩]
  simp only [inMapArea, h.cellNum, Bool.or_eq_true, Bool.not_eq_true', Bool.and_eq_false_iff,
    decide_eq_true_eq, decide_eq_false_iff_not]
  omega

theorem read_of_not_contains (h : c.Holds v) {p : Pos} (hp : ¬ v.dims.Contains p) :
    c.read p = (maxCost, -1) := by
  rw [read, if_pos]
  simp only [inMapArea, h.cellNum, Bool.or_eq_true, Bool.not_eq_true', Bool.and_eq_false_iff,
    decide_eq_true_eq, decide_eq_false_iff_not]
  unfold Dims.Contains at hp
  omega

end CompactPolicy

namespace Encodable

variable {v : ValueIterator} (henc : Encodable v) {p : Pos}
include henc

/-- A position on the map holds a goal, an obstacle or a state to be solved. -/
theorem cases (hp : v.dims.Contains p) :
    ((v.stateAt p).finalState = true ∧ (v.stateAt p).free = true ∧ v.costs p = 0) ∨
    ((v.stateAt p).finalState = false ∧ (v.stateAt p).free = false ∧ v.costs p = maxCost) ∨
    ((v.stateAt p).finalState = false ∧ (v.stateAt p).free = true ∧ 0 < v.costs p ∧
      (maxCost ≤ v.costs p → v.policy p = none)) := by
  cases hfin : (v.stateAt p).finalState with
  | true => exact Or.inl ⟨rfl, henc.final p hp hfin⟩
  | false =>
    cases hfree : (v.stateAt p).free with
    | false => exact Or.inr (Or.inl ⟨rfl, rfl, henc.blocked p hp hfree⟩)
    | true =>
      have hev := evaluable_iff.mpr ⟨hp, hfree, hfin⟩
      exact Or.inr (Or.inr ⟨rfl, rfl, henc.positive p hev, henc.unreached p hev⟩)

end Encodable

namespace CompactPolicy

variable {c : CompactPolicy K} {v : ValueIterator} (h : c.Holds v) (henc : Encodable v)
include h henc

theorem isFinal_eq (p : Pos) : c.policyView.isFinal p = (v.policyView c.frame).isFinal p := by
  rw [Bool.eq_iff_iff, policyView_isFinal]
  show ((c.read p).1 == 0) = true ↔ _
  by_cases hp : v.dims.Contains p
  · rw [read_of_contains h hp]
    rcases henc.cases hp with ⟨hfin, _, hcost⟩ | ⟨hfin, _, hcost⟩ | ⟨hfin, _, hcost, _⟩
    · simp [hp, hfin, hcost]
    · simp [hfin, hcost, maxCost]
    · simp [hfin, hcost.ne']
  · rw [read_of_not_contains h hp]
    simp [hp, maxCost]

theorem actionIndex_eq (p : Pos) :
    c.policyView.actionIndex p = (v.policyView c.frame).actionIndex p := by
  rw [policyView_actionIndex]
  simp only [policyView]
  by_cases hp : v.dims.Contains p
  · rw [read_of_contains h hp]
    rcases henc.cases hp with ⟨hfin, _, hcost⟩ | ⟨hfin, hfree, hcost⟩ | ⟨hfin, hfree, hcost, hnone⟩
    · simp [hfin, hcost]
    · simp [hfree, hcost]
    · have hpol : (v.stateAt p).optimalAction = v.policy p := rfl
      cases hact : v.policy p with
      | none => simp [sinkAction, hpol, hact]
      | some a =>
        have hlt : ¬ maxCost ≤ v.costs p := by
          intro hle
          rw [hnone hle] at hact
          cases hact
        have hneg : ¬ (a : Int) < 0 := by omega
        simp [hp, hfin, hfree, hcost.ne', hlt, sinkAction, hneg, hpol, hact]
  · rw [read_of_not_contains h hp]
    simp [hp]

theorem valueAt_eq (p : Pos) : c.policyView.valueAt p = (v.policyView c.frame).valueAt p := by
  rw [policyView_valueAt]
  simp only [policyView, State.policyInvalidated]
  by_cases hp : v.dims.Contains p
  · rw [read_of_contains h hp]
    rcases henc.cases hp with ⟨hfin, _, hcost⟩ | ⟨hfin, hfree, hcost⟩ | ⟨hfin, hfree, hcost, _⟩
    · simp [hp, hfin, hcost]
    · simp [hp, hfree, hcost]
    · have hval : (v.stateAt p).totalCost = v.costs p := rfl
      have hact : (v.stateAt p).optimalAction = v.policy p := rfl
      cases hpol : v.policy p with
      | none => simp [hp, hfin, hfree, hcost, hval, hact, hpol, sinkAction]
      | some a =>
        have hneg : ¬ (a : Int) < 0 := by omega
        simp [hp, hact, hpol, sinkAction, hneg]
  · rw [read_of_not_contains h hp]
    simp [hp]

/-- A sink that holds an encodable field is read as the field itself. -/
theorem policyView_eq : c.policyView = v.policyView c.frame := by
  have hfinal := funext (isFinal_eq h henc)
  have haction := funext (actionIndex_eq h henc)
  have hvalue := funext (valueAt_eq h henc)
  simp only [policyView, ValueIterator.policyView, PolicyView.mk.injEq, h.cellNum, h.tResolution,
    true_and] at hfinal haction hvalue ⊢
  exact ⟨hfinal, haction, hvalue⟩

end CompactPolicy

section Solved

variable {vi v : ValueIterator}

/-- Outside the states to be solved a descent stands still. -/
theorem Descent.rest (hd : Descent vi (vi.onMap v.costs)) {p : Pos} (hp : vi.dims.Contains p)
    (hev : vi.world.evaluable p = false) : v.costs p = vi.costs p := by
  have hle : vi.onMap v.costs p ≤ vi.costs p := hd.descending.le_start p
  have hge : exactUpdate vi (vi.onMap v.costs) p ≤ vi.onMap v.costs p := hd.descending.update_le p
  rw [onMap_of_contains hp] at hle hge
  simp only [exactUpdate, World.operator, hev, Bool.false_eq_true, if_false] at hge
  omega

theorem Solved.encodable (hgoal : GoalSet vi) (hpen : Penalised vi) (h : Solved vi v)
    (hd : Descent vi (vi.onMap v.costs)) : Encodable v := by
  have hin := h.inputs
  have hevals : ∀ p, v.world.evaluable p = true → vi.world.evaluable p = true := by
    intro p hev
    rwa [hin.world] at hev
  refine ⟨?_, ?_, ?_, ?_⟩
  · intro p hp hfin
    rw [hin.dims] at hp
    rw [hin.finalState] at hfin
    have hfree := hgoal.finals p hp hfin
    refine ⟨by rw [hin.free, hfree], ?_⟩
    have hle : vi.onMap v.costs p ≤ vi.costs p := hd.descending.le_start p
    rw [onMap_of_contains hp, hgoal.blank p hp, if_pos hfin] at hle
    omega
  · intro p hp hfree
    rw [hin.dims] at hp
    rw [hin.free] at hfree
    have hev : vi.world.evaluable p = false := by
      rw [Bool.eq_false_iff]
      intro hev
      rw [(evaluable_iff.mp hev).2.1] at hfree
      cases hfree
    have hfin : ¬ (vi.stateAt p).finalState = true := by
      intro hfin
      rw [hgoal.finals p hp hfin] at hfree
      cases hfree
    rw [hd.rest hp hev, hgoal.blank p hp, if_neg hfin]
  · intro p hev
    have hev' := hevals p hev
    have hp := (evaluable_iff.mp hev').1
    apply Nat.pos_of_ne_zero
    intro hzero
    have hV : vi.onMap v.costs p = 0 := by rw [onMap_of_contains hp, hzero]
    obtain ⟨_, _, _, _, _, o, _, _, hbelow⟩ := hd.improving hpen hev' (hV ▸ by decide)
    omega
  · intro p hev hmax
    have hfix := h.fixed p (hevals p hev)
    have hval : v.costs p = (vi.world.backup vi.world.clampedCost v.costs p).1 := by rw [← hfix]
    have hpol : v.policy p = (vi.world.backup vi.world.clampedCost v.costs p).2 := by rw [← hfix]
    have hle := World.backup_le (w := vi.world) vi.world.clampedCost v.costs p
    rw [hpol]
    exact Argmin.argminBelow_snd (by
      have : (vi.world.backup vi.world.clampedCost v.costs p).1 = maxCost := by omega
      exact this)

/-- A compact sink that holds the field of a converged solve in range is read as that field:
the same final states, the same actions, the same values, and so the same paths. -/
theorem ParSolver.compact_view {k : ParSolver} {nthreads maxIter : Nat}
    {sched : Nat → List (Nat × Bool)} {obs : SolveObserver} {r : ParRun} (hgoal : GoalSet vi)
    (hpen : Penalised vi) (hn : 0 < nthreads) (hrun : k.run vi nthreads maxIter sched obs = some r)
    (hconv : r.outcome.converged = true) (hrange : r.InRange vi) {c : CompactPolicy K}
    (hc : c.Holds r.field) : c.policyView = r.field.policyView c.frame := by
  obtain ⟨hsolved, hd⟩ := ParSolver.solved hgoal hn hrun hconv hrange
  exact CompactPolicy.policyView_eq hc (hsolved.encodable hgoal hpen hd)

/-- A sink filled with the field `v`. -/
def CompactPolicy.ofField (v : ValueIterator) (g : PolicyFrame K) : CompactPolicy K :=
  ⟨fun i => (v.costs (v.dims.unflat i), sinkAction (v.policy (v.dims.unflat i))), v.dims, g⟩

theorem CompactPolicy.ofField_holds (v : ValueIterator) {g : PolicyFrame K}
    (hres : g.tResolution = ((360 / v.dims.nt : Nat) : K)) : (ofField v g).Holds v := by
  refine ⟨rfl, hres, ?_⟩
  intro p hp
  have horig : (ofField v g).orig p = (v.dims.flat p).toNat := by
    have hcell : ((ofField v g).orig p : Int) = v.dims.flat p := by
      simp only [orig, ofField, Dims.flat]
      push_cast
      rw [Int.toNat_of_nonneg hp.1.1, Int.toNat_of_nonneg hp.2.1.1, Int.toNat_of_nonneg hp.2.2.1]
      ring
    omega
  rw [horig]
  show (v.costs (v.dims.unflat _), sinkAction (v.policy (v.dims.unflat _))) = _
  rw [Dims.unflat_flat hp]

/-- The row of two headings in metres and degrees. -/
def halfTurnFrame : PolicyFrame ℚ := ⟨1, (0, 0), (1 / 2, 1 / 2, 0), 180, [(1, 0), (-1, 180)]⟩

/-- A filled sink is read as the solved field. -/
theorem slipRow_compact : ∃ r, ParSolver.par.run slipRow 2 10 inTurn nullObserver = some r ∧
    (CompactPolicy.ofField r.field halfTurnFrame).policyView = r.field.policyView halfTurnFrame := by
  obtain ⟨r, hr, hconv, _, hrange⟩ := slipRow_converged .par
  have hpens : ∀ p ∈ slipRow.dims.all, probBase ≤ slipRow.world.pen p := by decide +kernel
  have hdims := (ParSolver.solved slipRow_goalSet (by decide) hr hconv hrange).1.inputs.dims
  have hres : halfTurnFrame.tResolution = ((360 / r.field.dims.nt : Nat) : ℚ) := by
    rw [hdims]
    decide +kernel
  exact ⟨r, hr, ParSolver.compact_view slipRow_goalSet
    (fun p hp _ => hpens p (Dims.mem_all.mpr hp)) (by decide) hr hconv hrange
    (CompactPolicy.ofField_holds r.field hres)⟩

end Solved

end ValueIteration
