import ValueIteration.Model

/-!
# Observing a solve

A solver calls the observer at its natural boundaries and obeys the answer. Within
one solve the number of iterations grows from call to call, so a stateful observer
is a function of it.
-/

set_option autoImplicit false

namespace ValueIteration

inductive SolveFlow where
  | proceed
  | stop
  | cancel
  deriving DecidableEq, Repr

structure SolveOutcome where
  iters : Nat
  updates : Nat
  converged : Bool
  stopped : Bool
  cancelled : Bool
  deriving DecidableEq, Repr

namespace SolveOutcome

def running (iters updates : Nat) (converged : Bool) : SolveOutcome :=
  ⟨iters, updates, converged, false, false⟩

def mkStopped (iters updates : Nat) : SolveOutcome := ⟨iters, updates, false, true, false⟩

def mkCancelled (iters updates : Nat) : SolveOutcome := ⟨iters, updates, false, false, true⟩

end SolveOutcome

structure SolveObserver where
  interval : Nat
  boundary : Nat → Nat → ValueIterator → SolveFlow

/-- `NullObserver`: `interval` is `u32::MAX` and every boundary continues. -/
def nullObserver : SolveObserver := ⟨4294967295, fun _ _ _ => .proceed⟩

/-- Schedules the boundary calls of solvers that work in rounds. -/
structure BoundaryPacer where
  next : Nat
  interval : Nat
  deriving DecidableEq, Repr

namespace BoundaryPacer

def new (obs : SolveObserver) : BoundaryPacer :=
  ⟨max obs.interval 1, max obs.interval 1⟩

def isDue (p : BoundaryPacer) (iters : Nat) : Bool := decide (p.next ≤ iters)

/-- The next boundary, with the saturating addition of the code. -/
def reserve (p : BoundaryPacer) (iters : Nat) : BoundaryPacer :=
  { p with next := min (iters + p.interval) (word - 1) }

end BoundaryPacer

end ValueIteration
