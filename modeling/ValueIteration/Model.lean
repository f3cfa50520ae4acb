import Mathlib.Algebra.BigOperators.Group.List.Basic
import ValueIteration.Lib.Argmin
import ValueIteration.Lib.Grid
import ValueIteration.Lib.Loops
import ValueIteration.Params

/-!
# The value iterator: states, actions and the per-cell update

The data model of the solver library and its raw `u64` update. A state's own
coordinates are its position in the grid, so they are not stored again. A
transition's `dit` is an absolute heading; rows have positive probabilities
that sum to `PROB_BASE`, which every `ValueIterator` carries as a field.
-/

set_option autoImplicit false

namespace ValueIteration

structure State where
  totalCost : Nat
  penalty : Nat
  localPenalty : Nat
  free : Bool
  finalState : Bool
  optimalAction : Option Nat
  deriving DecidableEq, Repr

/-- The initial state of an occupied cell. -/
instance : Inhabited State := ⟨{
  totalCost := maxCost
  penalty := probBase
  localPenalty := 0
  free := false
  finalState := false
  optimalAction := none }⟩

namespace State

/-- A discarded policy keeps its last value until repair; goals, unreached and
occupied states do not count. -/
def policyInvalidated (s : State) : Bool :=
  s.free && !s.finalState && decide (s.totalCost < maxCost) && s.optimalAction.isNone

/-- `penalty +ʷ local_penalty`. -/
def pen (s : State) : Nat := wrappingAdd s.penalty s.localPenalty

/-- Free and not final: the states a Bellman update writes. -/
def evaluable (s : State) : Bool := s.free && !s.finalState

def withUpdate (s : State) (u : Nat × Option Nat) : State :=
  { s with totalCost := u.1, optimalAction := u.2 }

@[simp] theorem withUpdate_totalCost (s : State) (u : Nat × Option Nat) :
    (s.withUpdate u).totalCost = u.1 := rfl

@[simp] theorem withUpdate_optimalAction (s : State) (u : Nat × Option Nat) :
    (s.withUpdate u).optimalAction = u.2 := rfl

@[simp] theorem withUpdate_free (s : State) (u : Nat × Option Nat) :
    (s.withUpdate u).free = s.free := rfl

@[simp] theorem withUpdate_finalState (s : State) (u : Nat × Option Nat) :
    (s.withUpdate u).finalState = s.finalState := rfl

@[simp] theorem withUpdate_pen (s : State) (u : Nat × Option Nat) :
    (s.withUpdate u).pen = s.pen := rfl

end State

structure StateTransition where
  dix : Int
  diy : Int
  dit : Int
  prob : Nat
  deriving DecidableEq, Repr

/-- The transition lists of one action, indexed by source heading. -/
structure Action where
  stateTransitions : List (List StateTransition)
  deriving DecidableEq, Repr

/-- One row per heading; probabilities are positive and sum to `PROB_BASE`. -/
def Action.WellFormed (a : Action) (nt : Nat) : Prop :=
  a.stateTransitions.length = nt ∧
    ∀ row ∈ a.stateTransitions,
      (∀ tr ∈ row, 0 < tr.prob ∧ -(nt : Int) ≤ tr.dit) ∧ (row.map (·.prob)).sum = probBase

instance (a : Action) (nt : Nat) : Decidable (a.WellFormed nt) := by
  unfold Action.WellFormed; infer_instance

def Action.row (a : Action) (it : Int) : List StateTransition :=
  a.stateTransitions.getD it.toNat []

structure ValueIterator where
  states : Grid State
  actions : List Action
  wellFormed : ∀ a ∈ actions, a.WellFormed states.dims.nt
  deriving DecidableEq

namespace ValueIterator

variable (vi : ValueIterator)

def dims : Dims := vi.states.dims

def stateAt (p : Pos) : State := vi.states.get p

def inMapArea (ix iy : Int) : Bool :=
  decide (0 ≤ ix) && decide (ix < vi.dims.nx) && decide (0 ≤ iy) && decide (iy < vi.dims.ny)

/-- Where a transition leads: `dit` is absolute and wraps, the cell shifts. -/
def outcomePos (s : Pos) (tr : StateTransition) : Pos :=
  ⟨s.ix + tr.dix, s.iy + tr.diy, (tr.dit + vi.dims.nt).tmod vi.dims.nt⟩

/-- The early returns of `action_cost_raw`: off the map or not free. -/
def rawTerm (s : Pos) (tr : StateTransition) : Option Nat :=
  let ix := s.ix + tr.dix
  if ix < 0 ∨ vi.dims.nx ≤ ix then none else
  let iy := s.iy + tr.diy
  if iy < 0 ∨ vi.dims.ny ≤ iy then none else
  let after := vi.stateAt (vi.outcomePos s tr)
  if !after.free then none else
  some (wrappingMul (wrappingAdd (wrappingAdd after.totalCost after.penalty) after.localPenalty)
    tr.prob)

end ValueIterator

/-- The accumulation shared by the three cost functions: a term that is `none`
returns `MAX_COST` at once, otherwise terms add up and the sum is shifted. -/
def bucketCost {τ : Type} (term : τ → Option Nat) : List τ → Nat → Nat
  | [], cost => cost >>> probBaseBit
  | tr :: rest, cost =>
    match term tr with
    | none => maxCost
    | some c => bucketCost term rest (wrappingAdd cost c)

namespace ValueIterator

variable (vi : ValueIterator)

def actionCostRaw (a : Action) (s : Pos) : Nat :=
  bucketCost (vi.rawTerm s) (a.row s.it) 0

/-- `min_action_cost`: `None` on occupied and final states. -/
def minActionCost (s : Pos) : Option (Nat × Option Nat) :=
  if !(vi.stateAt s).free || (vi.stateAt s).finalState then none
  else some (Argmin.argminBelow maxCost (vi.actions.map fun a => vi.actionCostRaw a s))

def setState (p : Pos) (s : State) : ValueIterator :=
  ⟨vi.states.set p s, vi.actions, vi.wellFormed⟩

/-- `value_iteration_raw`: update one state in place, return `|Δ|`. -/
def valueIterationRaw (s : Pos) : ValueIterator × Nat :=
  match vi.minActionCost s with
  | none => (vi, 0)
  | some u =>
    let old := (vi.stateAt s).totalCost
    (vi.setState s ((vi.stateAt s).withUpdate u), ((u.1 : Int) - (old : Int)).natAbs)

/-- Replace all states, keeping the geometry and the transitions. -/
def withStates (vi : ValueIterator) (g : Pos → State) : ValueIterator :=
  ⟨Grid.ofFn vi.dims g, vi.actions, vi.wellFormed⟩

/-- The dimensions and the transitions. -/
def table (vi : ValueIterator) : Dims × List Action := (vi.dims, vi.actions)

@[simp] theorem table_setState (p : Pos) (s : State) : (vi.setState p s).table = vi.table := rfl

@[simp] theorem table_withStates (g : Pos → State) : (vi.withStates g).table = vi.table := rfl

@[simp] theorem table_valueIterationRaw (p : Pos) : (vi.valueIterationRaw p).1.table = vi.table := by
  unfold valueIterationRaw
  split <;> rfl

end ValueIterator

end ValueIteration
