import ValueIteration.Solvers.EngineSound

/-!
# The field a parallel solve writes back

Values come from the words of the layout, actions from the policy pass over them. A
converged solve leaves the clamped update of its own field at every evaluated state.
-/

set_option autoImplicit false

namespace ValueIteration

open Async ValueIterator CellModel

variable {vi : ValueIterator}

theorem writeBack_sameInputs (m : CellModel) (mem : Int → Nat) (opt : Pos → Option Nat) :
    vi.SameInputs (vi.writeBack m mem opt) := withField_sameInputs _

theorem writeBack_get {m : CellModel} {mem : Int → Nat} {opt : Pos → Option Nat} {p : Pos}
    (hp : vi.dims.Contains p) : (vi.writeBack m mem opt).costs p = m.field vi mem p ∧
      (vi.writeBack m mem opt).policy p = opt p := by
  have h : (vi.writeBack m mem opt).stateAt p =
      (vi.stateAt p).withUpdate (m.before (vi.padIdx p) (mem (vi.padIdx p)), opt p) :=
    stateAt_withField_of_contains _ hp
  rw [field_of_contains hp]
  constructor
  · rw [costs, h]
    rfl
  · rw [policy, h]
    rfl

/-- What is written back depends on the map's cells only. -/
theorem writeBack_ext {m m' : CellModel} {mem mem' : Int → Nat} {opt opt' : Pos → Option Nat}
    (h : ∀ p, vi.dims.Contains p →
      (vi.writeBack m mem opt).costs p = (vi.writeBack m' mem' opt').costs p ∧
        (vi.writeBack m mem opt).policy p = (vi.writeBack m' mem' opt').policy p) :
    vi.writeBack m mem opt = vi.writeBack m' mem' opt' := by
  have hcells : Grid.ofFn vi.dims (fun p => (vi.stateAt p).withUpdate
      (m.before (vi.padIdx p) (mem (vi.padIdx p)), opt p)) =
      Grid.ofFn vi.dims (fun p => (vi.stateAt p).withUpdate
        (m'.before (vi.padIdx p) (mem' (vi.padIdx p)), opt' p)) := by
    apply Grid.ofFn_congr
    intro p hp
    obtain ⟨hcost, hpol⟩ := h p hp
    rw [(writeBack_get hp).1, (writeBack_get hp).1, field_of_contains hp, field_of_contains hp]
      at hcost
    rw [(writeBack_get hp).2, (writeBack_get hp).2] at hpol
    rw [hcost, hpol]
  simp only [writeBack, withField, hcells]

/-- The values of another field on the map, the own ones off it. -/
def ValueIterator.onMap (vi : ValueIterator) (V : Pos → Nat) (p : Pos) : Nat :=
  if vi.dims.Contains p then V p else vi.costs p

theorem onMap_of_contains {V : Pos → Nat} {p : Pos} (hp : vi.dims.Contains p) :
    vi.onMap V p = V p := if_pos hp

/-- Values and actions are the clamped update of the values. -/
structure Solved (vi v : ValueIterator) : Prop where
  written : ∃ m mem opt, v = vi.writeBack m mem opt
  fixed : ∀ s, vi.world.evaluable s = true →
    (v.costs s, v.policy s) = vi.world.backup vi.world.clampedCost v.costs s
  rest : ∀ p, vi.dims.Contains p → vi.world.evaluable p = false → v.policy p = none

theorem Solved.inputs {v : ValueIterator} (h : Solved vi v) : vi.SameInputs v := by
  obtain ⟨m, mem, opt, rfl⟩ := h.written
  exact writeBack_sameInputs m mem opt

section
variable {R : Regime vi} {run : GsRun} {skip : Int → Bool}

theorem endSolve_field (hc : run.outcome.cancelled = false) :
    (vi.endSolve R.cells skip run).field =
      vi.writeBack R.cells run.mem (vi.finalPolicy R.cells skip run.mem) := by
  rw [endSolve, hc]
  rfl

theorem endSolve_costs (hc : run.outcome.cancelled = false) {p : Pos} (hp : vi.dims.Contains p) :
    (vi.endSolve R.cells skip run).field.costs p = R.cells.field vi run.mem p := by
  rw [endSolve_field hc]
  exact (writeBack_get hp).1

theorem endSolve_onMap (hc : run.outcome.cancelled = false) :
    vi.onMap (vi.endSolve R.cells skip run).field.costs = R.cells.field vi run.mem := by
  funext p
  by_cases hp : vi.dims.Contains p
  · rw [onMap_of_contains hp, endSolve_costs hc hp]
  · rw [onMap, CellModel.field, if_neg hp, if_neg hp]

/-- A sound memory without uncovered states, written back by a policy pass that skips
only states that have no action. -/
theorem endSolve_solved (hs : R.Sound run.mem ∅) (hc : run.outcome.cancelled = false)
    (hskip : ∀ p, vi.dims.Contains p → vi.world.evaluable p = false → skip (vi.padIdx p) = true)
    (hmax : ∀ p, vi.world.evaluable p = true → skip (vi.padIdx p) = true →
      R.cells.field vi run.mem p = maxCost) :
    Solved vi (vi.endSolve R.cells skip run).field := by
  have hval : ∀ s, vi.world.evaluable s = true → R.cells.field vi run.mem s =
      (vi.world.backup vi.world.clampedCost (R.cells.field vi run.mem) s).1 := by
    intro s hev
    have h := hs.covered s hev (Set.notMem_empty s)
    simp only [clampedUpdate, World.operator, hev, if_true] at h
    exact h
  have hbackup : ∀ s, vi.world.evaluable s = true →
      vi.world.backup vi.world.clampedCost (vi.endSolve R.cells skip run).field.costs s =
        vi.world.backup vi.world.clampedCost (R.cells.field vi run.mem) s := by
    intro s hev
    refine World.backup_congr World.clampedCost_local ?_
    intro t ht
    exact endSolve_costs hc (reads_inBox (evaluable_iff.mp hev).1 ht).1
  have hpolicy : ∀ p, vi.dims.Contains p →
      (vi.endSolve R.cells skip run).field.policy p = vi.finalPolicy R.cells skip run.mem p := by
    intro p hp
    rw [endSolve_field hc]
    exact (writeBack_get hp).2
  refine ⟨?_, ?_, ?_⟩
  · exact ⟨_, _, _, endSolve_field hc⟩
  · intro s hev
    have hcs := (evaluable_iff.mp hev).1
    have hargmin := argmin_eq R.models hs.proper (V := R.cells.field vi run.mem)
      (fun t ht => field_of_contains ht) hcs
    rw [hbackup s hev, endSolve_costs hc hcs, hpolicy s hcs]
    apply Prod.ext
    · exact hval s hev
    · rw [finalPolicy]
      split
      · next hsk =>
        have hb := hval s hev
        rw [hmax s hev hsk] at hb
        exact (Argmin.argminBelow_snd hb.symm).symm
      · rw [hargmin]
  · intro p hp hev
    rw [hpolicy p hp, finalPolicy, if_pos (hskip p hp hev)]

end

end ValueIteration
