import ValueIteration.Planner.Closure

/-!
# Who owns which columns

While a follow thread has claimed the window, its columns belong to the local
loop. Background repair defers them, and gets back what is released before the
window has converged.
-/

set_option autoImplicit false

namespace ValueIteration

variable {K : Type} [Field K] [LinearOrder K] [FloorRing K]

/-- `clear`: no penalty is known. -/
def PenaltyOverlay.clear (o : PenaltyOverlay) : PenaltyOverlay := ⟨o.values.map fun _ => 0⟩

namespace PlannerCore

variable (core : PlannerCore K)

/-- The global cell lies on the map. -/
def onMap (g : Cell) : Bool :=
  decide (0 ≤ g.1) && decide (0 ≤ g.2) && decide (g.1 < core.build.grid.width) &&
    decide (g.2 < core.build.grid.height)

/-- The window's cells on the map, as an ordered set of global cells. -/
def windowCells : List Cell :=
  match core.localVi with
  | none => []
  | some l =>
    let p0 := core.localOrigin
    ((l.windowRows.map fun c => ((c.1 + p0.1, c.2 + p0.2) : Cell)).filter core.onMap).foldl
      (fun owned g => Cell.insert g owned) []

/-- A new set of owned columns; uncertified ones that leave it go to the queue. -/
def setOwned (owned : List Cell) : PlannerCore K :=
  if owned ≠ core.global.owned then
    let released := core.global.owned.filter fun c => c ∉ owned
    let core := if core.global.certified then core else core.enqueueCells released
    { core with global := { core.global with
        localRevision := core.global.localRevision + 1
        certified := false
        owned := owned } }
  else core

/-- Deferred columns that are no longer owned go to the queue. -/
def releaseDeferred : PlannerCore K :=
  let owned := core.global.owned
  let released := core.global.deferred.filter fun c => c ∉ owned
  { core with global := { core.global with
      deferred := core.global.deferred.filter fun c => c ∈ owned } }.enqueueCells released

def updateLocalOwnership : PlannerCore K :=
  (core.setOwned (if core.global.owner.isSome then core.windowCells else [])).releaseDeferred

/-- `claim_local`. The latest claim wins. -/
def claimLocal : PlannerCore K × Nat :=
  let serial := core.global.serial + 1
  let core := { core with global := { core.global with
    serial := serial
    owner := some serial
    localInFlight := none
    certified := false } }
  (core.updateLocalOwnership, serial)

/-- `release_local`. A superseded thread cannot release its successor. -/
def releaseLocal (owner : Nat) : PlannerCore K :=
  if core.global.owner = some owner then
    { core with global := { core.global with
        owner := none
        localInFlight := none } }.updateLocalOwnership
  else core

def invalidateGlobalJobs : PlannerCore K :=
  { core with
    global := { core.global with
      epoch := core.global.epoch + 1
      inFlight := none
      localInFlight := none
      owned := []
      deferred := []
      certified := false
      invalidation := { core.global.invalidation with pending := [] } }
    dirty := false
    sweep := core.sweep.clear
    repair := core.repair.map (·.clear) }

def restartGlobalCheck : PlannerCore K × Bool :=
  if core.cached.isNone ∨ core.global.inFlight.isSome ∨ core.globalQueued = true then (core, false)
  else
    let core := match core.repair with
      | some r => { core with repair := some r.enqueueAll }
      | none => core.seedSweepAll
    ({ core with dirty := true }, true)

def certifyLocal : PlannerCore K :=
  { core with global := { core.global with
      certified := true
      deferred := [] } }

def invalidateLocalWindow : PlannerCore K :=
  { core with global := { core.global with
      localRevision := core.global.localRevision + 1
      certified := false } }

/-- `certified = false`. -/
def voidCertificate : PlannerCore K :=
  { core with global := { core.global with certified := false } }

/-- `local_inputs`: one heading stands for all. -/
def localInputs : List (Bool × Nat × Nat) :=
  match core.localVi with
  | none => []
  | some l => l.windowRows.map fun c =>
      let s := l.base.stateAt ⟨c.1, c.2, 0⟩
      (s.free, s.penalty, s.localPenalty)

/-- The window's cells that were free and have become dearer or occupied. -/
def increasedCells (l : ValueIteratorLocal K) (p0 : Cell) (before : List (Bool × Nat × Nat)) :
    List Cell :=
  (l.windowRows.zip before).filterMap fun e =>
    let s := l.base.stateAt ⟨e.1.1, e.1.2, 0⟩
    if e.2.1 && (!s.free || decide (wrappingAdd e.2.2.1 e.2.2.2 < s.pen)) then
      some (e.1.1 + p0.1, e.1.2 + p0.2)
    else none

def invalidateLocalInputs (before : List (Bool × Nat × Nat)) : PlannerCore K :=
  if before = core.localInputs then core else
  let core := core.invalidateLocalWindow
  match core.localVi with
  | none => core
  | some l =>
    let p0 := core.localOrigin
    let rect := (l.localIxMin + p0.1, l.localIxMax + p0.1, l.localIyMin + p0.2, l.localIyMax + p0.2)
    (core.queueCostIncreases (increasedCells l p0 before)).enqueueGlobal rect

end PlannerCore

end ValueIteration
