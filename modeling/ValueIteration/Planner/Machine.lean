import ValueIteration.Lib.Transition
import ValueIteration.Planner.Jobs

/-!
# Runs of the planner core

The follow loop moves the window, observes scans and refines; workers prepare jobs,
run them and hand them back whenever they are done. All of these take the core's
lock, so a run is a sequence of whole operations in any order. Jobs that are out
wait in two pools.
-/

set_option autoImplicit false

namespace ValueIteration

variable {K : Type} [Field K] [LinearOrder K] [FloorRing K]

namespace ValueIteratorLocal

variable (l : ValueIteratorLocal K)

/-- The cells of one column of the window. -/
def windowColumn (x : Int) : List Cell :=
  (l.windowYs.map fun y => ((x, y) : Cell)).filter fun c => l.inLocalArea c.1 c.2

/-- The refinement of the window, column after column, as long as the clock allows.
Returns whether it was stopped and the readings that are left. -/
def refineColumns : List Int → Nat → ValueIterator × Nat → (ValueIterator × Nat) × Bool × Nat
  | [], ticks, r => (r, false, ticks)
  | _ :: _, 0, r => (r, true, 0)
  | x :: xs, ticks + 1, r =>
    refineColumns xs ticks (r.1.passOver (columnStates l.base.dims.nt (l.windowColumn x)) r.2)

/-- The window and what its transitions reach, within the base. -/
def halo : Int × Int × Int × Int :=
  let reach : Int := transitionReach l.base.actions
  (max (l.localIxMin - reach) 0, min (l.localIxMax + reach) (l.base.dims.nx - 1),
    max (l.localIyMin - reach) 0, min (l.localIyMax + reach) (l.base.dims.ny - 1))

def haloStates : List Pos :=
  let b := l.halo
  columnStates l.base.dims.nt
    ((span b.2.2.1 b.2.2.2).flatMap fun y => (span b.1 b.2.1).map fun x => (x, y))

/-- The discarded policies outside the window, with the values to be restored. -/
def boundary : List (Pos × Nat) :=
  (l.haloStates.filter fun p =>
    (l.base.stateAt p).policyInvalidated && !l.inLocalArea p.ix p.iy).map fun p =>
      (p, (l.base.stateAt p).totalCost)

/-- No discarded policy's value is calculated with. -/
def maskHalo : ValueIterator :=
  l.haloStates.foldl (fun v p => v.setState p (v.stateAt p).repaired) l.base

/-- One pass of `refine_pass_until`. -/
def refinePass (ticks : Nat) : ValueIteratorLocal K × Nat × Bool × Nat :=
  let r := l.refineColumns l.windowXs ticks (l.maskHalo, 0)
  let base := l.boundary.foldl (fun v e =>
    v.setState e.1 { v.stateAt e.1 with totalCost := e.2 }) r.1.1
  ({ l with base := base }, r.1.2, r.2.1, r.2.2)

end ValueIteratorLocal

namespace PlannerCore

def new (build : BuildParams K) (cfg : PlanConfig K) : PlannerCore K where
  build := build
  cfg := cfg
  cached := none
  patch := none
  penalty := if cfg.useCompact then some (.new build.grid.width build.grid.height) else none
  repair := none
  sweep := ⟨none, [], 0, 0, 0, none⟩
  global := ⟨0, 0, none, [], [], false, none, none, 0, 0, ⟨[], []⟩⟩
  dirty := false

variable (core : PlannerCore K)

/-- The patch and the repair tile are made once; `none` stands for their errors. -/
def withTools : Option (PlannerCore K) :=
  if core.cfg.useCompact ∧ core.patch.isNone then
    (newPatch core.build).bind fun p =>
      if core.cfg.globalSweep ∧ core.repair.isNone then
        (newRepair core.build p.reach).map fun r =>
          { core with patch := some p, repair := some r }
      else some { core with patch := some p }
  else some core

/-- Everything that belongs to the previous goal is dropped. -/
def dropGoal : PlannerCore K :=
  let core := core.invalidateGlobalJobs
  { core with
    cached := none
    patch := core.patch.map fun p => { p with hydratedAt := none }
    penalty := core.penalty.map (·.clear)
    dirty := false
    sweep := core.sweep.clear
    repair := core.repair.map (·.clear) }

/-- `prepare_goal_with_progress` for a goal that is not cached. `solved` is what the
solver or the prefetcher returns, `none` for an error. -/
def prepareGoal (solved : Option (CachedGoal K)) : PlannerCore K :=
  match core.dropGoal.withTools, solved with
  | some core, some c =>
    let core := { core with cached := some c }
    if !c.isPartial then core else
    let core := { core with dirty := true }
    match core.repair with
    | some r => { core with repair := some r.enqueueAll }
    | none => core.seedSweepAll
  | none, _ => core.dropGoal
  | some core, none => core

def discardPartial : PlannerCore K :=
  if core.cached.any (·.isPartial) then
    let core := core.invalidateGlobalJobs
    { core with
      cached := none
      patch := core.patch.map fun p => { p with hydratedAt := none } }
  else core

section
variable [Trig K]

/-- Move the window, and put the patch elsewhere if it does not fit any more. -/
def placeWindow (pose : PoseView K) : PlannerCore K :=
  match core.cached with
  | none => core
  | some ⟨.dense l, part⟩ =>
    { core with cached := some ⟨.dense (l.setLocalWindow pose.x pose.y pose.yawRad), part⟩ }
  | some ⟨.compact f, _⟩ =>
    match core.patch with
    | none => core
    | some p =>
      let gx := cellOf pose.x f.origin.1 f.resolution
      let gy := cellOf pose.y f.origin.2 f.resolution
      let p := if p.needsRecenter gx gy then
        p.hydrate f core.build core.penalty (gx - p.half, gy - p.half) else p
      { core with patch := some { p with vi := p.vi.setLocalWindow pose.x pose.y pose.yawRad } }

def setWindow (pose : PoseView K) : PlannerCore K :=
  if core.cached.isNone then core else
  match core.cached, core.patch with
  | some ⟨.compact _, _⟩, none => core
  | _, _ =>
    let core' := core.placeWindow pose
    let core' := if core'.patchAt = core.patchAt then core' else core'.invalidateLocalWindow
    core'.updateLocalOwnership

/-- Change the local iterator (`if let Some(vi) = self.local_mut()`). -/
def mapLocal (f : ValueIteratorLocal K → ValueIteratorLocal K) : PlannerCore K :=
  match core.localVi with
  | none => core
  | some l => core.setLocal (f l)

/-- Sense with the local iterator, then tell the rest of the core. -/
def sense (f : ValueIteratorLocal K → ValueIteratorLocal K) : PlannerCore K :=
  (core.mapLocal f).harvestPenalties.invalidateLocalInputs core.localInputs

/-- `observe_scan_gated`. -/
def observeScan (scan : LaserScan K) (pose : PoseView K) (shift : Nat) : PlannerCore K :=
  core.sense fun l => { l with
    clearMapFromScan := core.cfg.mapClearFromScan
    scanPenaltyRadius := core.cfg.scanPenaltyRadius
    scanPenalty := core.cfg.scanPenalty }.setLocalCostAttenuated scan pose.x pose.y pose.yawRad shift

end

def inflateBySigma (sigma : K) : PlannerCore K :=
  let gain := core.cfg.sigmaMarginGain
  if gain ≤ 0 ∨ sigma ≤ 0 then core else
  let extra := min (sigma * gain) core.build.localShape.minRadiusM
  core.sense fun l => l.inflateBySigma extra

/-- Drain the invalidations; `none` when the clock ran out. -/
def drainInvalidations : Nat → PlannerCore K → PlannerCore K × Option Nat
  | ticks, core =>
    let r := core.advanceInvalidations 512
    if r.2 then (r.1, some ticks) else
    match ticks with
    | 0 => (r.1, none)
    | ticks + 1 => drainInvalidations ticks r.1

/-- One pass over the window of the shared field. -/
def passWindow (ticks : Nat) : PlannerCore K × Nat × Bool × Nat :=
  match core.localVi with
  | none => (core, 0, true, ticks)
  | some l =>
    let p := l.refinePass ticks
    (core.setLocal p.1, p.2)

/-- A pass that moved something voids the certificate; the dense window is seeded. -/
def notePass (delta : Nat) : PlannerCore K :=
  if delta = 0 then core else
  let core := core.voidCertificate
  if core.cfg.useCompact then core else { core with dirty := true }.seedSweepWindow

/-- One round of `refine_for`: a pass, its bookkeeping and, at the end, the write-back. -/
def refineRound (ticks : Nat) : PlannerCore K × Nat × Bool × Nat :=
  let r := core.passWindow ticks
  let core := r.1.notePass r.2.1
  if r.2.2.1 ∨ r.2.1 = 0 then
    let core := core.commitWindow
    (if !r.2.2.1 ∧ r.2.1 = 0 then core.certifyLocal else core, r.2.1, true, r.2.2.2)
  else (core, r.2.1, false, r.2.2.2)

/-- The loop of `refine_for`. Every round but the last uses up a clock reading. -/
def refineRounds : Nat → Nat → PlannerCore K → PlannerCore K × Nat
  | 0, _, core => (core, 0)
  | fuel + 1, ticks, core =>
    let r := core.refineRound ticks
    if r.2.2.1 then (r.1, r.2.1) else refineRounds fuel r.2.2.2 r.1

/-- `refine_for`; the budget is over after `ticks` readings of the clock. -/
def refineFor (ticks : Nat) : PlannerCore K × Nat :=
  let r := drainInvalidations ticks core
  match r.2 with
  | none => (r.1, 0)
  | some left => refineRounds (left + 1) left r.1

end PlannerCore

/-- The core with the jobs that are out. -/
structure Fleet (K : Type) where
  core : PlannerCore K
  globals : List GlobalJob
  locals : List LocalJob

/-- The operations of the core and of its workers; jobs are picked by their place. -/
inductive Op (K : Type) where
  | prepareGoal (solved : Option (CachedGoal K))
  | discardPartial
  | setWindow (pose : PoseView K)
  | observeScan (scan : LaserScan K) (pose : PoseView K) (shift : Nat)
  | inflateBySigma (sigma : K)
  | claimLocal
  | releaseLocal (owner : Nat)
  | advanceInvalidations (budget : Nat)
  | refineFor (ticks : Nat)
  | restartGlobalCheck
  | prepareGlobalJob (maxStates : Nat)
  | runGlobalJob (i : Nat)
  | commitGlobalJob (i : Nat)
  | prepareLocalJob
  | runLocalJob (i : Nat) (threads : Nat)
  | commitLocalJob (i : Nat)

namespace Fleet

variable [Trig K] (w : Fleet K)

/-- An operation of the core alone. -/
def onCore (f : PlannerCore K → PlannerCore K) : Fleet K := { w with core := f w.core }

/-- One operation; `none` is a panic or a job that is not there. -/
def step : Op K → Option (Fleet K)
  | .prepareGoal solved => some (w.onCore (·.prepareGoal solved))
  | .discardPartial => some (w.onCore (·.discardPartial))
  | .setWindow pose => some (w.onCore (·.setWindow pose))
  | .observeScan scan pose shift => some (w.onCore (·.observeScan scan pose shift))
  | .inflateBySigma sigma => some (w.onCore (·.inflateBySigma sigma))
  | .claimLocal => some (w.onCore fun c => c.claimLocal.1)
  | .releaseLocal owner => some (w.onCore (·.releaseLocal owner))
  | .advanceInvalidations budget => some (w.onCore fun c => (c.advanceInvalidations budget).1)
  | .refineFor ticks => some (w.onCore fun c => (c.refineFor ticks).1)
  | .restartGlobalCheck => some (w.onCore fun c => c.restartGlobalCheck.1)
  | .prepareGlobalJob maxStates =>
    (w.core.prepareGlobalJob maxStates).map fun r =>
      { w with core := r.1, globals := w.globals ++ r.2.toList }
  | .runGlobalJob i => w.globals[i]?.map fun job => { w with globals := w.globals.set i job.run }
  | .commitGlobalJob i => w.globals[i]?.map fun job =>
      { w with core := (w.core.commitGlobalJob job).1, globals := w.globals.eraseIdx i }
  | .prepareLocalJob =>
    let r := w.core.prepareLocalJob
    some { w with core := r.1, locals := w.locals ++ r.2.toList }
  | .runLocalJob i threads => w.locals[i]?.map fun job =>
      { w with locals := w.locals.set i (job.runParallel threads) }
  | .commitLocalJob i => w.locals[i]?.map fun job =>
      { w with core := (w.core.commitLocalJob job).1, locals := w.locals.eraseIdx i }

end Fleet

end ValueIteration
