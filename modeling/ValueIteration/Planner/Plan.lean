import ValueIteration.Planner.Closure
import ValueIteration.Planner.Machine
import ValueIteration.Planner.Rollout
import ValueIteration.Solvers.Dispatch
import ValueIteration.StateSource

/-!
# Plans

A plan prepares the field of its goal and rolls it out. With an early start the solve ends
as soon as the field so far rolls out from the start; the field is then cached unfinished
and solved to its end in the background. A cached unfinished field that does not roll out
from a later start is dropped and solved again, this time to its end.
-/

set_option autoImplicit false

namespace ValueIteration

inductive PlanError where
  | cancelled
  | notConverged
  | rollout (status : RolloutStatus)
  deriving DecidableEq, Repr

structure SolveStats where
  solvedNow : Bool
  iters : Nat
  adopted : Bool
  isPartial : Bool
  deriving DecidableEq, Repr

structure PlanStats where
  solvedNow : Bool
  iters : Nat
  adopted : Bool
  isPartial : Bool
  poses : Nat
  deriving DecidableEq, Repr

/-- What `PlanConfig` and `BuildParams` say about solves and rollouts; `deltas` are the
`(delta_fw, delta_rot)` of the actions. -/
structure PlanSettings (K : Type) where
  solver : U64Solver
  maxSolveIter : Nat
  solveChunk : Nat
  maxRolloutSteps : Nat
  startToleranceCells : Int
  pathSpacing : K
  earlyStart : Bool
  goalMarginRadius : K
  goalMarginTheta : Int
  parallelism : Nat
  deltas : List (K × K)

/-- The core with the goal its cached field is for. -/
structure PlanDesk (K : Type) where
  core : PlannerCore K
  goal : K × K × Int

section Plan

variable {K : Type} [Field K] [LinearOrder K] [FloorRing K] [Analytic K]

def yawToGoalThetaDeg (yawRad : K) : Int := truncate (normalizeDeg (Analytic.toDegrees yawRad))

def PoseView.goalKey (pose : PoseView K) : K × K × Int :=
  (pose.x, pose.y, yawToGoalThetaDeg pose.yawRad)

namespace PlanSettings

variable (s : PlanSettings K) (build : BuildParams K)

def frame (goal : K × K × Int) : PolicyFrame K where
  xyResolution := build.grid.resolution
  mapOrigin := (build.grid.originX, build.grid.originY)
  goal := goal
  tResolution := ((360 / build.thetaCellNum : Nat) : K)
  deltas := s.deltas

def reachesGoal (p : PolicyView K) (start : PoseView K) : Bool :=
  (p.rolloutPathOn start s.maxRolloutSteps s.startToleranceCells).reachedGoal

/-- `SolveDirector`; `cancel` is what the flag says after so many iterations. -/
def solveDirector (goal : K × K × Int) (start : Option (PoseView K)) (cancel : Nat → Bool) :
    SolveObserver where
  interval := max s.solveChunk 1
  boundary iters _ vi :=
    if cancel iters then .cancel
    else if start.any fun pose => s.reachesGoal (vi.policyView (s.frame build goal)) pose then .stop
    else .proceed

/-- The iterator with its map and its goal, before the solve. -/
def denseStart (goal : K × K × Int) : ValueIteratorLocal K :=
  let m : MapIterator K := (MapIterator.new.setMapWithOccupancyGrid build.grid build.thetaCellNum
    build.mapPenaltyRadius build.mapPenalty s.goalMarginRadius s.goalMarginTheta
    s.parallelism).setGoal goal.1 goal.2.1 goal.2.2
  let base : ValueIterator := ⟨Grid.ofFn ⟨build.grid.width, build.grid.height, build.thetaCellNum⟩
    fun p => m.states.getD (build.mapDims.flat p).toNat default, build.actions, build.wellFormed⟩
  ValueIteratorLocal.new base build.grid.resolution (build.grid.originX, build.grid.originY)
    build.mapPenaltyRadius build.mapPenalty build.localShape

/-- `solve_dense`, with the iterations it took; `none` is a panic of the solver. -/
def solveDense (e : SolveEnv) (goal : K × K × Int) (start : Option (PoseView K))
    (cancel : Nat → Bool) : Option (Except PlanError (CachedGoal K × Nat)) :=
  if cancel 0 then some (.error .cancelled)
  else
    let l := s.denseStart build goal
    (s.solver.solveObserved e l.base s.maxSolveIter
      (s.solveDirector build goal start cancel)).map fun r =>
        if r.2.cancelled then .error .cancelled
        else if !r.2.converged && !r.2.stopped then .error .notConverged
        else .ok (⟨.dense { l with base := r.1 }, r.2.stopped⟩, r.2.iters)

/-- What a cached field looks like to a rollout. -/
def view (goal : K × K × Int) : GoalField K → PolicyView K
  | .dense l => l.base.policyView (s.frame build goal)
  | .compact f => (CompactPolicy.mk (fun i => f.sink.get (f.sink.dims.unflat i)) f.sink.dims
      (s.frame build goal)).policyView

end PlanSettings

namespace PlanDesk

variable (d : PlanDesk K) (s : PlanSettings K) (e : SolveEnv)

def cacheMatches (goal : K × K × Int) : Bool := d.core.cached.isSome && decide (d.goal = goal)

def isPartial : Bool := d.core.cached.any (·.isPartial)

def discardPartial : PlanDesk K := { d with core := d.core.discardPartial }

/-- `prepare_goal_with_progress`; `adopted` is what the prefetcher hands over. -/
def prepareGoalWithProgress (goal : PoseView K) (start : Option (PoseView K))
    (adopted : Option (CachedGoal K)) (cancel : Nat → Bool) :
    Option (Except PlanError SolveStats × PlanDesk K) :=
  if d.cacheMatches goal.goalKey then some (.ok ⟨false, 0, false, d.isPartial⟩, d)
  else
    match adopted with
    | some c => some (.ok ⟨true, 0, true, false⟩, ⟨d.core.prepareGoal (some c), goal.goalKey⟩)
    | none =>
      (s.solveDense d.core.build e goal.goalKey (if s.earlyStart then start else none) cancel).map
        fun r =>
          match r with
          | .error err => (.error err, ⟨d.core.prepareGoal none, d.goal⟩)
          | .ok c => (.ok ⟨true, c.2, false, c.1.isPartial⟩,
              ⟨d.core.prepareGoal (some c.1), goal.goalKey⟩)

/-- One order of the prefetch worker on its spare core: the field it places for the running
core (`cached.take()`), and the core it keeps. -/
def serve (goal : PoseView K) (cancel : Nat → Bool) :
    Option (Option (CachedGoal K) × PlanDesk K) :=
  (d.prepareGoalWithProgress s e goal none none cancel).map fun r =>
    match r with
    | (.error _, d) => (none, d)
    | (.ok _, d) => (d.core.cached, { d with core := { d.core with cached := none } })

/-- The fields the worker places for its orders, goals with what the cancel flag says; a panic
ends it. -/
def placed : PlanDesk K → List (PoseView K × (Nat → Bool)) → List (CachedGoal K)
  | _, [] => []
  | d, o :: os =>
    match d.serve s e o.1 o.2 with
    | none => []
    | some r => r.1.toList ++ placed r.2 os

def rollout (start : PoseView K) : Rollout K :=
  match d.core.cached with
  | none => ⟨[], .noAction⟩
  | some c => (s.view d.core.build d.goal c.field).rolloutPathOn start s.maxRolloutSteps
      s.startToleranceCells

/-- The end of `plan_with_progress`. -/
def deliver (sqrt : K → K) (start : PoseView K) (stats : SolveStats) :
    Except PlanError (List (PathPose K) × PlanStats) :=
  let r := d.rollout s start
  if !r.reachedGoal then .error (.rollout r.status)
  else
    let poses := if 0 < s.pathSpacing then densify sqrt r.poses s.pathSpacing else r.poses
    .ok (poses, ⟨stats.solvedNow, stats.iters, stats.adopted, stats.isPartial, poses.length⟩)

/-- An error of the preparation is the plan's. -/
def conclude (sqrt : K → K) (start : PoseView K) : Except PlanError SolveStats × PlanDesk K →
    Except PlanError (List (PathPose K) × PlanStats) × PlanDesk K
  | (.error err, d) => (.error err, d)
  | (.ok stats, d) => (d.deliver s sqrt start stats, d)

/-- `plan_with_progress`. What the prefetcher and the cancel flag say during a second solve
is `adopted'` and `cancel'`. -/
def planWithProgress (sqrt : K → K) (start goal : PoseView K) (adopted adopted' : Option (CachedGoal K))
    (cancel cancel' : Nat → Bool) :
    Option (Except PlanError (List (PathPose K) × PlanStats) × PlanDesk K) :=
  (d.prepareGoalWithProgress s e goal (some start) adopted cancel).bind fun r =>
    match r with
    | (.error err, d) => some (.error err, d)
    | (.ok stats, d) =>
      if !(d.rollout s start).reachedGoal && d.isPartial then
        (d.discardPartial.prepareGoalWithProgress s e goal none adopted' cancel').map
          (conclude s sqrt start)
      else some (conclude s sqrt start (.ok stats, d))

end PlanDesk

omit [Analytic K] in
/-- With a dense field the core keeps what it is given, and its parameters. -/
theorem prepareGoal_dense {core : PlannerCore K} (hdense : core.cfg.useCompact = false)
    (solved : Option (CachedGoal K)) : (core.prepareGoal solved).cached = solved ∧
      (core.prepareGoal solved).build = core.build ∧ (core.prepareGoal solved).cfg = core.cfg := by
  have htools : core.dropGoal.withTools = some core.dropGoal := by
    have hcfg : ¬ (core.dropGoal.cfg.useCompact = true ∧ core.dropGoal.patch.isNone = true) := by
      intro h
      exact absurd (hdense.symm.trans h.1) Bool.false_ne_true
    rw [PlannerCore.withTools, if_neg hcfg]
  unfold PlannerCore.prepareGoal
  rw [htools]
  cases solved with
  | none => exact ⟨rfl, rfl, rfl⟩
  | some c =>
    simp only
    split
    · exact ⟨rfl, rfl, rfl⟩
    · split
      · exact ⟨rfl, rfl, rfl⟩
      · rw [PlannerCore.seedSweepAll]
        split
        · exact ⟨rfl, rfl, rfl⟩
        · exact ⟨rfl, rfl, rfl⟩

namespace PlanSettings

variable {s : PlanSettings K} {build : BuildParams K} {e : SolveEnv} {goal : K × K × Int}
  {start : Option (PoseView K)} {cancel : Nat → Bool}

/-- The director stops a solve on a field that rolls out and on no other. -/
theorem solveDirector_stop {iters updates : Nat} {vi : ValueIterator}
    (h : (s.solveDirector build goal start cancel).boundary iters updates vi = .stop) :
    ∃ pose, start = some pose ∧ s.reachesGoal (vi.policyView (s.frame build goal)) pose = true := by
  simp only [solveDirector] at h
  split at h
  · cases h
  · split at h
    · next hany =>
      cases start with
      | none => cases hany
      | some pose => exact ⟨pose, rfl, hany⟩
    · cases h

/-- A field that is cached unfinished rolls out from the start it was solved for. -/
theorem solveDense_partial (hcore : s.solver.caps.outOfCore = false) {c : CachedGoal K × Nat}
    (h : s.solveDense build e goal start cancel = some (.ok c)) (hpart : c.1.isPartial = true) :
    ∃ pose, start = some pose ∧ s.reachesGoal (s.view build goal c.1.field) pose = true := by
  rw [solveDense] at h
  split at h
  · cases h
  · obtain ⟨r, hr, hres⟩ := Option.map_eq_some_iff.mp h
    split at hres
    · cases hres
    · split at hres
      · cases hres
      · cases hres
        have hhonest := s.solver.solveObserved_honest hcore e (s.denseStart build goal).base
          s.maxSolveIter (s.solveDirector build goal start cancel)
        rw [hr] at hhonest
        exact solveDirector_stop (hhonest.2.1 hpart)

end PlanSettings

namespace PlanDesk

variable {d d' : PlanDesk K} {s : PlanSettings K} {e : SolveEnv} {goal start : PoseView K}
  {origin : Option (PoseView K)} {adopted adopted' : Option (CachedGoal K)} {cancel cancel' : Nat → Bool}
  {sqrt : K → K}

/-- What a preparation leaves on the desk: after an error no field at all, else a field of the
goal, which was there before, came finished, or rolls out from the start. -/
theorem prepareGoalWithProgress_spec (hcore : s.solver.caps.outOfCore = false)
    (hdense : d.core.cfg.useCompact = false) (hadopt : ∀ c, adopted = some c → c.isPartial = false)
    {res : Except PlanError SolveStats}
    (h : d.prepareGoalWithProgress s e goal origin adopted cancel = some (res, d')) :
    d'.core.build = d.core.build ∧ d'.core.cfg = d.core.cfg ∧
      match res with
      | .error _ => d.cacheMatches goal.goalKey = false ∧ d'.core.cached = none
      | .ok st => d'.cacheMatches goal.goalKey = true ∧ st.isPartial = d'.isPartial ∧
          (d' = d ∨ d'.isPartial = false ∨
            ∃ pose, origin = some pose ∧ (d'.rollout s pose).reachedGoal = true) := by
  unfold prepareGoalWithProgress at h
  by_cases hmatch : d.cacheMatches goal.goalKey = true
  · rw [if_pos hmatch] at h
    cases h
    exact ⟨rfl, rfl, hmatch, rfl, Or.inl rfl⟩
  rw [if_neg hmatch] at h
  have hmiss : d.cacheMatches goal.goalKey = false := Bool.eq_false_of_not_eq_true hmatch
  have hmatches : ∀ c : CachedGoal K, (d.core.prepareGoal (some c)).cached = some c →
      (⟨d.core.prepareGoal (some c), goal.goalKey⟩ : PlanDesk K).cacheMatches goal.goalKey = true := by
    intro c hc
    simp only [cacheMatches, hc, Option.isSome_some, Bool.true_and, decide_true]
  have hflag : ∀ c : CachedGoal K, (d.core.prepareGoal (some c)).cached = some c →
      (⟨d.core.prepareGoal (some c), goal.goalKey⟩ : PlanDesk K).isPartial = c.isPartial := by
    intro c hc
    simp only [isPartial, hc, Option.any_some]
  cases adopted with
  | some c =>
    cases h
    obtain ⟨hcached, hbuild, hcfg⟩ := prepareGoal_dense hdense (some c)
    have hpart := (hflag c hcached).trans (hadopt c rfl)
    exact ⟨hbuild, hcfg, hmatches c hcached, hpart.symm, Or.inr (Or.inl hpart)⟩
  | none =>
    obtain ⟨r, hr, hres⟩ := Option.map_eq_some_iff.mp h
    cases r with
    | error err =>
      cases hres
      obtain ⟨hcached, hbuild, hcfg⟩ := prepareGoal_dense hdense (none : Option (CachedGoal K))
      exact ⟨hbuild, hcfg, hmiss, hcached⟩
    | ok c =>
      cases hres
      obtain ⟨hcached, hbuild, hcfg⟩ := prepareGoal_dense hdense (some c.1)
      refine ⟨hbuild, hcfg, hmatches c.1 hcached, (hflag c.1 hcached).symm, Or.inr ?_⟩
      rw [hflag c.1 hcached]
      cases hpart : c.1.isPartial with
      | false => exact Or.inl rfl
      | true =>
        obtain ⟨pose, hpose, hreach⟩ := PlanSettings.solveDense_partial hcore hr hpart
        refine Or.inr ⟨pose, ?_, ?_⟩
        · split at hpose
          · exact hpose
          · cases hpose
        · simp only [rollout, hcached, hbuild]
          exact hreach

omit [Field K] [LinearOrder K] [FloorRing K] [Analytic K] in
theorem discardPartial_spec (d : PlanDesk K) (hpart : d.isPartial = true) :
    d.discardPartial.core.cached = none ∧ d.discardPartial.core.cfg = d.core.cfg := by
  rw [isPartial] at hpart
  rw [discardPartial, PlannerCore.discardPartial, if_pos hpart]
  exact ⟨rfl, rfl⟩

/-- What the desk holds when a plan is over: for a path, the field of the goal, which rolls
out along it; after an error, nothing unfinished. -/
def Settles (d : PlanDesk K) (s : PlanSettings K) (sqrt : K → K) (start goal : PoseView K) :
    Except PlanError (List (PathPose K) × PlanStats) → Prop
  | .error _ => d.isPartial = false
  | .ok r => d.cacheMatches goal.goalKey = true ∧ (d.rollout s start).reachedGoal = true ∧
      r.2.isPartial = d.isPartial ∧
      r.1 = if 0 < s.pathSpacing then densify sqrt (d.rollout s start).poses s.pathSpacing
        else (d.rollout s start).poses

theorem deliver_settles {st : SolveStats} (hmatch : d.cacheMatches goal.goalKey = true)
    (hst : st.isPartial = d.isPartial)
    (hgood : d.isPartial = false ∨ (d.rollout s start).reachedGoal = true) :
    d.Settles s sqrt start goal (d.deliver s sqrt start st) := by
  rw [deliver]
  cases hreach : (d.rollout s start).reachedGoal with
  | true => exact ⟨hmatch, hreach, hst, rfl⟩
  | false =>
    rcases hgood with hfull | hreach'
    · exact hfull
    · exact absurd (hreach.symm.trans hreach') Bool.false_ne_true

/-- A field just solved or adopted is finished or rolls out from the start. -/
theorem prepareGoalWithProgress_fresh (hcore : s.solver.caps.outOfCore = false)
    (hdense : d.core.cfg.useCompact = false) (hadopt : ∀ c, adopted = some c → c.isPartial = false)
    (hmiss : d.cacheMatches goal.goalKey = false) {st : SolveStats}
    (h : d.prepareGoalWithProgress s e goal origin adopted cancel = some (.ok st, d')) :
    d'.isPartial = false ∨ ∃ pose, origin = some pose ∧ (d'.rollout s pose).reachedGoal = true := by
  obtain ⟨_, _, hmatch, _, hd⟩ := prepareGoalWithProgress_spec hcore hdense hadopt h
  rcases hd with rfl | hgood
  · exact absurd (hmiss.symm.trans hmatch) Bool.false_ne_true
  · exact hgood

/-- A plan ends with the path of a cached field of its goal, or with an error that leaves no
unfinished field behind. -/
theorem planWithProgress_settles (hcore : s.solver.caps.outOfCore = false)
    (hdense : d.core.cfg.useCompact = false) (hadopt : ∀ c, adopted = some c → c.isPartial = false)
    (hadopt' : ∀ c, adopted' = some c → c.isPartial = false)
    {res : Except PlanError (List (PathPose K) × PlanStats)}
    (h : d.planWithProgress s e sqrt start goal adopted adopted' cancel cancel' = some (res, d')) :
    d'.Settles s sqrt start goal res := by
  have hnone : ∀ d₁ : PlanDesk K, d₁.core.cached = none → d₁.isPartial = false := by
    intro d₁ h₁
    rw [isPartial, h₁]
    rfl
  rw [planWithProgress] at h
  obtain ⟨⟨first, d₁⟩, hfirst, h⟩ := Option.bind_eq_some_iff.mp h
  obtain ⟨_, hcfg, hspec⟩ := prepareGoalWithProgress_spec hcore hdense hadopt hfirst
  cases first with
  | error err =>
    cases h
    exact hnone _ hspec.2
  | ok st =>
    obtain ⟨hmatch, hst, _⟩ := hspec
    simp only at h
    by_cases hagain : (!(d₁.rollout s start).reachedGoal && d₁.isPartial) = true
    · rw [if_pos hagain] at h
      obtain ⟨hnot, hpart⟩ := Bool.and_eq_true_iff.mp hagain
      obtain ⟨hcached, hcfg'⟩ := discardPartial_spec d₁ hpart
      obtain ⟨⟨second, d₂⟩, hsecond, h⟩ := Option.map_eq_some_iff.mp h
      have hdense' : d₁.discardPartial.core.cfg.useCompact = false := by
        rw [hcfg', hcfg]
        exact hdense
      obtain ⟨_, _, hspec'⟩ := prepareGoalWithProgress_spec hcore hdense' hadopt' hsecond
      cases second with
      | error err =>
        cases h
        exact hnone _ hspec'.2
      | ok st' =>
        cases h
        refine deliver_settles hspec'.1 hspec'.2.1 (Or.inl ?_)
        have hmiss : d₁.discardPartial.cacheMatches goal.goalKey = false := by
          rw [cacheMatches, hcached]
          rfl
        rcases prepareGoalWithProgress_fresh hcore hdense' hadopt' hmiss hsecond with
          hfull | ⟨pose, hpose, _⟩
        · exact hfull
        · cases hpose
    · rw [if_neg hagain] at h
      cases h
      refine deliver_settles hmatch hst ?_
      rw [Bool.and_eq_true, not_and_or, Bool.not_eq_true', Bool.not_eq_false,
        Bool.not_eq_true] at hagain
      exact hagain.symm

/-- A core of a worker between two orders: it holds no field. -/
structure Spare (d : PlanDesk K) : Prop where
  dense : d.core.cfg.useCompact = false
  empty : d.core.cached = none

/-- An order is solved without a start to stop at, so its field is finished. -/
theorem Spare.serve (h : d.Spare) (hcore : s.solver.caps.outOfCore = false)
    {r : Option (CachedGoal K) × PlanDesk K} (hr : d.serve s e goal cancel = some r) :
    r.2.Spare ∧ ∀ c, r.1 = some c → c.isPartial = false := by
  obtain ⟨⟨res, d₁⟩, hprep, rfl⟩ := Option.map_eq_some_iff.mp hr
  have hnone : ∀ c, (none : Option (CachedGoal K)) = some c → c.isPartial = false :=
    fun c hc => by cases hc
  obtain ⟨_, hcfg, hspec⟩ := prepareGoalWithProgress_spec hcore h.dense hnone hprep
  have hdense : d₁.core.cfg.useCompact = false := hcfg ▸ h.dense
  cases res with
  | error err => exact ⟨⟨hdense, hspec.2⟩, hnone⟩
  | ok st =>
    refine ⟨⟨hdense, rfl⟩, ?_⟩
    intro c hc
    have hmiss : d.cacheMatches goal.goalKey = false := by
      rw [cacheMatches, h.empty]
      rfl
    rcases prepareGoalWithProgress_fresh hcore h.dense hnone hmiss hprep with
      hfull | ⟨pose, hpose, _⟩
    · rwa [isPartial, show d₁.core.cached = some c from hc] at hfull
    · cases hpose

/-- Whatever the orders, the worker places finished fields only. -/
theorem Spare.placed_finished (hcore : s.solver.caps.outOfCore = false)
    (orders : List (PoseView K × (Nat → Bool))) : ∀ {d : PlanDesk K}, d.Spare →
      ∀ c ∈ d.placed s e orders, c.isPartial = false := by
  induction orders with
  | nil => intro d _ c hc; cases hc
  | cons o orders ih =>
    intro d h c hc
    rw [placed] at hc
    cases hserve : d.serve s e o.1 o.2 with
    | none =>
      rw [hserve] at hc
      cases hc
    | some r =>
      rw [hserve] at hc
      obtain ⟨hnext, hfinished⟩ := h.serve hcore hserve
      rcases List.mem_append.mp hc with hfirst | hlater
      · exact hfinished c (Option.mem_toList.mp hfirst)
      · exact ih hnext c hlater

/-- For a goal that is not cached a plan solves at most once: an unfinished field rolls out
from the start it was solved for, so nothing is solved again, and what a worker has placed is
taken as it is. -/
theorem planWithProgress_once (hcore : s.solver.caps.outOfCore = false)
    (hdense : d.core.cfg.useCompact = false) {spare : PlanDesk K} (hspare : spare.Spare)
    {orders : List (PoseView K × (Nat → Bool))}
    (hadopt : ∀ c, adopted = some c → c ∈ spare.placed s e orders)
    (hmiss : d.cacheMatches goal.goalKey = false) :
    d.planWithProgress s e sqrt start goal adopted adopted' cancel cancel' =
        (d.prepareGoalWithProgress s e goal (some start) adopted cancel).map
          (conclude s sqrt start) ∧
      (∀ st d', d.prepareGoalWithProgress s e goal (some start) adopted cancel = some (.ok st, d') →
        st.isPartial = true → ∃ r, d'.deliver s sqrt start st = .ok r) ∧
      ∀ c, adopted = some c →
        d.prepareGoalWithProgress s e goal (some start) adopted cancel =
          some (.ok ⟨true, 0, true, false⟩, ⟨d.core.prepareGoal (some c), goal.goalKey⟩) := by
  have hfinished : ∀ c, adopted = some c → c.isPartial = false :=
    fun c hc => hspare.placed_finished hcore orders c (hadopt c hc)
  have hfresh : ∀ {st d'},
      d.prepareGoalWithProgress s e goal (some start) adopted cancel = some (.ok st, d') →
        d'.isPartial = false ∨ (d'.rollout s start).reachedGoal = true := by
    intro st d' h
    rcases prepareGoalWithProgress_fresh hcore hdense hfinished hmiss h with hfull | ⟨pose, hpose, hreach⟩
    · exact Or.inl hfull
    · cases hpose
      exact Or.inr hreach
  refine ⟨?_, ?_, ?_⟩
  · rw [planWithProgress]
    cases hprep : d.prepareGoalWithProgress s e goal (some start) adopted cancel with
    | none => rfl
    | some r =>
      obtain ⟨first, d₁⟩ := r
      cases first with
      | error err => rfl
      | ok st =>
        have hagain : ¬ (!(d₁.rollout s start).reachedGoal && d₁.isPartial) = true := by
          rcases hfresh hprep with hfull | hreach
          · rw [hfull, Bool.and_false]
            exact Bool.false_ne_true
          · rw [hreach]
            exact Bool.false_ne_true
        simp only [Option.bind_some, if_neg hagain, Option.map_some]
  · intro st d' h hpart
    obtain ⟨_, _, _, hst, _⟩ := prepareGoalWithProgress_spec hcore hdense hfinished h
    rcases hfresh h with hfull | hreach
    · rw [hst, hfull] at hpart
      cases hpart
    · rw [deliver, hreach]
      exact ⟨_, rfl⟩
  · rintro c rfl
    rw [prepareGoalWithProgress, hmiss, if_neg Bool.false_ne_true]

end PlanDesk

end Plan

/-- The corridor's goal within a metre, in every heading, and a start as soon as there is a
path. -/
def corridorSettings : PlanSettings ℚ where
  solver := .frontier2D
  maxSolveIter := 10
  solveChunk := 1
  maxRolloutSteps := 5
  startToleranceCells := 1
  pathSpacing := 0
  earlyStart := true
  goalMarginRadius := 1
  goalMarginTheta := 360
  parallelism := 1
  deltas := [(1, 0)]

/-- Nothing is cached yet. -/
def corridorDesk : PlanDesk ℚ :=
  ⟨.new PlannerCore.corridorBuild ⟨false, 1, 10000, 0, false, true⟩, (0, 0, 0)⟩

/-- From the middle of the left cell to the middle of the right one. -/
abbrev corridorPlan : Option (Except PlanError (List (PathPose ℚ) × PlanStats) × PlanDesk ℚ) :=
  let _ : Analytic ℚ := Belief.degreeMath
  corridorDesk.planWithProgress corridorSettings plainEnv id ⟨1 / 2, 1 / 2, 0⟩ ⟨3 / 2, 1 / 2, 0⟩
    none none (fun _ => false) fun _ => false

theorem corridorPlan_early : ∃ r d', corridorPlan = some (.ok r, d') ∧ r.2.isPartial = true ∧
    r.1.length = 3 := by
  have hrun : corridorPlan.map (fun r => r.1.toOption.map fun q => (q.2.isPartial, q.1.length)) =
      some (some (true, 3)) := by decide +kernel
  obtain ⟨⟨res, d'⟩, hplan, hres⟩ := Option.map_eq_some_iff.mp hrun
  cases res with
  | error err => cases hres
  | ok r =>
    obtain ⟨hpart, hlength⟩ := Prod.mk.inj (Option.some.inj hres)
    exact ⟨r, d', hplan, hpart, hlength⟩

/-- The path of the early start is the rollout of the unfinished field. -/
theorem corridorPlan_settles : ∃ r d', corridorPlan = some (.ok r, d') ∧ r.2.isPartial = true ∧
    @PlanDesk.Settles ℚ _ _ _ Belief.degreeMath d' corridorSettings id ⟨1 / 2, 1 / 2, 0⟩
      ⟨3 / 2, 1 / 2, 0⟩ (.ok r) := by
  obtain ⟨r, d', hplan, hpart, _⟩ := corridorPlan_early
  refine ⟨r, d', hplan, hpart, ?_⟩
  exact @PlanDesk.planWithProgress_settles ℚ _ _ _ Belief.degreeMath corridorDesk d'
    corridorSettings plainEnv _ _ none none _ _ id rfl rfl (fun _ h => by cases h)
    (fun _ h => by cases h) _ hplan

/-- What the worker places for the corridor's goal. -/
abbrev corridorPlaced : List (CachedGoal ℚ) :=
  let _ : Analytic ℚ := Belief.degreeMath
  corridorDesk.placed corridorSettings plainEnv [(⟨3 / 2, 1 / 2, 0⟩, fun _ => false)]

/-- Without the worker it took one solve, with the field it placed none. -/
theorem corridorPlan_once :
    let _ : Analytic ℚ := Belief.degreeMath
    (∃ st d', corridorDesk.prepareGoalWithProgress corridorSettings plainEnv ⟨3 / 2, 1 / 2, 0⟩
        (some ⟨1 / 2, 1 / 2, 0⟩) none (fun _ => false) = some (.ok st, d') ∧ st.isPartial = true ∧
      corridorPlan = some (PlanDesk.conclude corridorSettings id ⟨1 / 2, 1 / 2, 0⟩ (.ok st, d'))) ∧
    corridorPlaced.length = 1 ∧ ∀ c ∈ corridorPlaced,
      corridorDesk.planWithProgress corridorSettings plainEnv id ⟨1 / 2, 1 / 2, 0⟩ ⟨3 / 2, 1 / 2, 0⟩
          (some c) none (fun _ => false) (fun _ => false) =
        some (PlanDesk.conclude corridorSettings id ⟨1 / 2, 1 / 2, 0⟩
          (.ok ⟨true, 0, true, false⟩,
            ⟨corridorDesk.core.prepareGoal (some c), (3 / 2, 1 / 2, 0)⟩)) := by
  intro _
  have hspare : corridorDesk.Spare := ⟨rfl, rfl⟩
  refine ⟨?_, by decide +kernel, ?_⟩
  · obtain ⟨r, d', hplan, hpart, _⟩ := corridorPlan_early
    have honce := (@PlanDesk.planWithProgress_once ℚ _ _ _ Belief.degreeMath corridorDesk
      corridorSettings plainEnv ⟨3 / 2, 1 / 2, 0⟩ ⟨1 / 2, 1 / 2, 0⟩ none none (fun _ => false)
      (fun _ => false) id rfl rfl _ hspare [] (fun _ h => by cases h) rfl).1
    obtain ⟨⟨first, d₁⟩, hprep, hres⟩ := Option.map_eq_some_iff.mp (honce.symm.trans hplan)
    cases first with
    | error err => cases hres
    | ok st =>
      have hdeliver : d₁.deliver corridorSettings id ⟨1 / 2, 1 / 2, 0⟩ st = .ok r :=
        (Prod.mk.inj hres).1
      refine ⟨st, d₁, hprep, ?_, hplan.trans (congrArg some hres.symm)⟩
      simp only [PlanDesk.deliver] at hdeliver
      split at hdeliver
      · cases hdeliver
      · cases hdeliver
        exact hpart
  · intro c hc
    have honce := @PlanDesk.planWithProgress_once ℚ _ _ _ Belief.degreeMath corridorDesk
      corridorSettings plainEnv ⟨3 / 2, 1 / 2, 0⟩ ⟨1 / 2, 1 / 2, 0⟩ (some c) none (fun _ => false)
      (fun _ => false) id rfl rfl _ hspare _ (fun c' h => by cases h; exact hc) rfl
    rw [honce.1, honce.2.2 c rfl]
    have hkey : (⟨3 / 2, 1 / 2, 0⟩ : PoseView ℚ).goalKey = (3 / 2, 1 / 2, 0) := by decide +kernel
    rw [hkey]
    rfl

end ValueIteration
