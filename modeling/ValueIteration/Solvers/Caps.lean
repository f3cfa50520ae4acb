import ValueIteration.Params

/-!
# Solver kinds and their declared capabilities
-/

set_option autoImplicit false

namespace ValueIteration

inductive U64Solver where
  | reference
  | frontier3D
  | frontier2D
  | frontier2DPar
  | frontier2DParUnsafe
  | frontier2DFused
  | frontier2DSparse
  | frontier2DSparseCompact (band : Nat)
  | frontierStack
  | blockRefine
  | pyramidSweep
  | streamMimic
  | priorityLabelSetting
  | priorityLabelCorrecting
  | schurPortal (tile portalThetas : Nat)
  deriving DecidableEq, Repr

/-- What a field is that was cut short: an upper bound everywhere, or exact where
finalised. -/
inductive Partiality where
  | upperBound
  | exactPrefix
  deriving DecidableEq, Repr

structure SolverCaps where
  exact : Bool
  partiality : Partiality
  outOfCore : Bool
  parallel : Bool
  resweep : Bool
  deriving DecidableEq, Repr

namespace U64Solver

def caps (s : U64Solver) : SolverCaps where
  exact := match s with
    | priorityLabelSetting => false
    | _ => true
  partiality := match s with
    | frontier2DSparseCompact _ => .exactPrefix
    | _ => .upperBound
  outOfCore := match s with
    | frontier2DSparseCompact _ => true
    | _ => false
  parallel := match s with
    | frontier2DPar | frontier2DParUnsafe | frontier2DFused | frontier2DSparse
    | frontier2DSparseCompact _ => true
    | _ => false
  resweep := match s with
    | frontier2DSparseCompact _ | priorityLabelSetting | priorityLabelCorrecting => false
    | _ => true

end U64Solver

end ValueIteration
