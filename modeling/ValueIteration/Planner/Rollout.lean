import Mathlib.Analysis.Real.Sqrt
import ValueIteration.Belief.Discipline
import ValueIteration.Lib.FirstLeast
import ValueIteration.Lib.Walk

/-!
# Paths from a solved field

A policy view is what the planner reads of a solved field: the geometry, the goal and,
state by state, whether it is final and which action it holds. A rollout follows the
actions from a pose in the plane, cell by cell, until it stands in a final state.
Coordinates are exact.
-/

set_option autoImplicit false

namespace ValueIteration

-- the degrees of a full turn
instance instAtLeastTwoTurn : Nat.AtLeastTwo 360 := ⟨Nat.le_add_left 2 358⟩

inductive RolloutStatus where
  | reachedGoal
  | noAction
  | outOfMap
  | loopDetected
  | stepLimit
  deriving DecidableEq, Repr

structure PathPose (K : Type) where
  x : K
  y : K
  yaw : K
  deriving DecidableEq, Repr

structure Rollout (K : Type) where
  poses : List (PathPose K)
  status : RolloutStatus
  deriving DecidableEq, Repr

def Rollout.reachedGoal {K : Type} (r : Rollout K) : Bool := decide (r.status = .reachedGoal)

def revisitLimit : Nat := 8

structure PolicyView (K : Type) where
  cellNum : Dims
  xyResolution : K
  mapOrigin : K × K
  goal : K × K × Int
  tResolution : K
  isFinal : Pos → Bool
  actionIndex : Pos → Option Nat
  actionDelta : Nat → K × K
  valueAt : Pos → Nat

/-- What a view needs besides the states: the geometry of the map, the goal, and
`(delta_fw, delta_rot)` of every action. -/
structure PolicyFrame (K : Type) where
  xyResolution : K
  mapOrigin : K × K
  goal : K × K × Int
  tResolution : K
  deltas : List (K × K)

/-- Where a rollout stands; the heading is kept in degrees. -/
structure Stance (K : Type) where
  x : K
  y : K
  yawDeg : K
  deriving DecidableEq, Repr

section Views

variable {K : Type} [Field K]

/-- `impl PolicyView for ValueIterator`. -/
def ValueIterator.policyView (vi : ValueIterator) (g : PolicyFrame K) : PolicyView K where
  cellNum := vi.dims
  xyResolution := g.xyResolution
  mapOrigin := g.mapOrigin
  goal := g.goal
  tResolution := g.tResolution
  isFinal p := vi.inMapArea p.ix p.iy && decide (0 ≤ p.it) && decide (p.it < vi.dims.nt) &&
    (vi.stateAt p).finalState
  actionIndex p :=
    if !vi.inMapArea p.ix p.iy || decide (p.it < 0) || decide ((vi.dims.nt : Int) ≤ p.it) then none
    else if !(vi.stateAt p).free || (vi.stateAt p).finalState then none
    else (vi.stateAt p).optimalAction
  actionDelta ai := g.deltas.getD ai (0, 0)
  valueAt p :=
    if !vi.inMapArea p.ix p.iy || decide (p.it < 0) || decide ((vi.dims.nt : Int) ≤ p.it) then
      maxCost
    else if (vi.stateAt p).policyInvalidated then maxCost
    else (vi.stateAt p).totalCost

/-- `CompactPolicy`: a sink of `(total_cost, action)` pairs read by `orig` index. -/
structure CompactPolicy (K : Type) where
  sink : Nat → Nat × Int
  cellNum : Dims
  frame : PolicyFrame K

namespace CompactPolicy

variable (c : CompactPolicy K)

def orig (p : Pos) : Nat :=
  p.it.toNat + p.ix.toNat * c.cellNum.nt + p.iy.toNat * c.cellNum.nx * c.cellNum.nt

def inMapArea (ix iy : Int) : Bool :=
  decide (0 ≤ ix) && decide (ix < c.cellNum.nx) && decide (0 ≤ iy) && decide (iy < c.cellNum.ny)

def read (p : Pos) : Nat × Int :=
  if !c.inMapArea p.ix p.iy || decide (p.it < 0) || decide ((c.cellNum.nt : Int) ≤ p.it) then
    (maxCost, -1)
  else c.sink (c.orig p)

/-- `impl PolicyView for CompactPolicy`; the heading resolution is the default one. -/
def policyView : PolicyView K where
  cellNum := c.cellNum
  xyResolution := c.frame.xyResolution
  mapOrigin := c.frame.mapOrigin
  goal := c.frame.goal
  tResolution := ((360 / c.cellNum.nt : Nat) : K)
  isFinal p := (c.read p).1 == 0
  actionIndex p :=
    if (c.read p).1 == 0 || decide (maxCost ≤ (c.read p).1) || decide ((c.read p).2 < 0) then none
    else some (c.read p).2.toNat
  actionDelta ai := c.frame.deltas.getD ai (0, 0)
  valueAt p :=
    if 0 < (c.read p).1 ∧ (c.read p).1 < maxCost ∧ (c.read p).2 < 0 then maxCost
    else (c.read p).1

end CompactPolicy

end Views

section Path

variable {K : Type} [Field K] [LinearOrder K] [FloorRing K] [Analytic K]

def normalizeDeg (d : K) : K := remEuclid d 360

/-- The neighbour at an offset, with the same heading. -/
def beside (c : Pos) (d : Int × Int) : Pos := ⟨c.ix + d.1, c.iy + d.2, c.it⟩

namespace PolicyView

variable (p : PolicyView K)

def inMapArea (ix iy : Int) : Bool :=
  decide (0 ≤ ix) && decide (ix < p.cellNum.nx) && decide (0 ≤ iy) && decide (iy < p.cellNum.ny)

def poseToCellOn (x y yawRad : K) : Pos :=
  let t := truncate (Analytic.toDegrees yawRad)
  ⟨cellOf x p.mapOrigin.1 p.xyResolution, cellOf y p.mapOrigin.2 p.xyResolution,
    ⌊(((t + 360 * 100).tmod 360 : Int) : K) / p.tResolution⌋⟩

/-- `find_plannable_start` tries these offsets, row after row. -/
def offsets (tolerance : Int) : List (Int × Int) :=
  (span (-tolerance) tolerance).flatMap fun dy =>
    (span (-tolerance) tolerance).map fun dx => (dx, dy)

/-- A cell to start from: it holds an action or is final. -/
def plannable (c : Pos) : Bool := (p.actionIndex c).isSome || p.isFinal c

/-- `find_plannable_start`: the first of the nearest cells. -/
def findPlannableStart (x y yawRad : K) (tolerance : Int) : Option (K × K) :=
  let c := p.poseToCellOn x y yawRad
  (Argmin.firstLeast (fun d : Int × Int => d.1 * d.1 + d.2 * d.2)
    ((offsets tolerance).filter fun d => p.plannable (beside c d))).map fun d =>
      ((((c.ix + d.1 : Int) : K) + 1 / 2) * p.xyResolution + p.mapOrigin.1,
        (((c.iy + d.2 : Int) : K) + 1 / 2) * p.xyResolution + p.mapOrigin.2)

/-- Where the rollout begins: at the pose, or moved to a cell with a policy. -/
def startStance (pose : PoseView K) (tolerance : Int) : Stance K :=
  let yawDeg := normalizeDeg (Analytic.toDegrees pose.yawRad)
  let c := p.poseToCellOn pose.x pose.y pose.yawRad
  if !p.isFinal c && (p.actionIndex c).isNone && decide (0 < tolerance) then
    match p.findPlannableStart pose.x pose.y pose.yawRad tolerance with
    | some s => ⟨s.1, s.2, yawDeg⟩
    | none => ⟨pose.x, pose.y, yawDeg⟩
  else ⟨pose.x, pose.y, yawDeg⟩

def cellAt (s : Stance K) : Pos := p.poseToCellOn s.x s.y (Analytic.toRadians s.yawDeg)

/-- The translation along the heading, then the rotation. -/
def advance (s : Stance K) (ai : Nat) : Stance K :=
  let d := p.actionDelta ai
  let ang := Analytic.toRadians s.yawDeg
  ⟨s.x + d.1 * Trig.cos ang, s.y + d.1 * Trig.sin ang, normalizeDeg (s.yawDeg + d.2)⟩

def goalPose : PathPose K := ⟨p.goal.1, p.goal.2.1, Analytic.toRadians (p.goal.2.2 : K)⟩

end PolicyView

def Stance.pose (s : Stance K) : PathPose K := ⟨s.x, s.y, Analytic.toRadians s.yawDeg⟩

namespace PolicyView

variable (p : PolicyView K)

def onMap (c : Pos) : Bool :=
  p.inMapArea c.ix c.iy && decide (0 ≤ c.it) && decide (c.it < p.cellNum.nt)

/-- The loop of `rollout_path_on`, with what is left of `max_steps`. -/
def rolloutLoop : Nat → Stance K → List (PathPose K) → (Pos → Nat) → Rollout K
  | 0, _, poses, _ => ⟨poses, .stepLimit⟩
  | n + 1, s, poses, visits =>
    let c := p.cellAt s
    if !p.onMap c then ⟨poses, .outOfMap⟩
    else if p.isFinal c then ⟨poses ++ [p.goalPose], .reachedGoal⟩
    else
      match p.actionIndex c with
      | none => ⟨poses, .noAction⟩
      | some ai =>
        let visits := Walk.visit visits c
        if revisitLimit < visits c then ⟨poses, .loopDetected⟩
        else rolloutLoop n (p.advance s ai) (poses ++ [(p.advance s ai).pose]) visits

def rolloutPathOn (pose : PoseView K) (maxSteps : Nat) (tolerance : Int) : Rollout K :=
  let s := p.startStance pose tolerance
  p.rolloutLoop maxSteps s [s.pose] fun _ => 0

/-- One step of the policy, where it has one. -/
def stride (s : Stance K) : Option (Stance K) :=
  let c := p.cellAt s
  if p.onMap c && !p.isFinal c then (p.actionIndex c).map (p.advance s) else none

/-- How a rollout ends that has stopped in `s`. -/
def restStatus (s : Stance K) : RolloutStatus :=
  let c := p.cellAt s
  if !p.onMap c then .outOfMap else if p.isFinal c then .reachedGoal else .noAction

def haltStatus (s : Stance K) : Walk.Halt → RolloutStatus
  | .stopped => p.restStatus s
  | .revisited => .loopDetected
  | .exhausted => .stepLimit

/-- The walk that a rollout records. -/
def walk (maxSteps : Nat) (s : Stance K) : Walk.Result (Stance K) :=
  Walk.follow p.cellAt p.stride revisitLimit maxSteps s fun _ => 0

/-- A rollout is a walk along the strides, closed with the goal if it stops in one. -/
theorem rolloutLoop_eq (n : Nat) : ∀ (s : Stance K) (poses : List (PathPose K)) (visits : Pos → Nat),
    p.rolloutLoop n s (poses ++ [s.pose]) visits =
      let w := Walk.follow p.cellAt p.stride revisitLimit n s visits
      let status := p.haltStatus w.last w.halt
      ⟨poses ++ w.track.map Stance.pose ++ (if status = .reachedGoal then [p.goalPose] else []),
        status⟩ := by
  induction n with
  | zero =>
    intro s poses visits
    simp [rolloutLoop, Walk.follow, haltStatus, Walk.Result.track]
  | succ n ih =>
    intro s poses visits
    rw [rolloutLoop, Walk.follow]
    by_cases hmap : p.onMap (p.cellAt s) = true
    · by_cases hfin : p.isFinal (p.cellAt s) = true
      · have hnext : p.stride s = none := by simp [stride, hfin]
        simp [hmap, hfin, hnext, haltStatus, restStatus, Walk.Result.track]
      · cases hact : p.actionIndex (p.cellAt s) with
        | none =>
          have hnext : p.stride s = none := by simp [stride, hact]
          simp [hmap, hfin, hnext, haltStatus, restStatus, Walk.Result.track]
        | some ai =>
          have hnext : p.stride s = some (p.advance s ai) := by simp [stride, hmap, hfin, hact]
          simp only [hmap, hfin, hnext, Bool.not_true, Bool.false_eq_true, if_false]
          by_cases hlim : revisitLimit < Walk.visit visits (p.cellAt s) (p.cellAt s)
          · rw [if_pos hlim, if_pos hlim]
            simp [haltStatus, Walk.Result.track]
          · rw [if_neg hlim, if_neg hlim, ih (p.advance s ai) (poses ++ [s.pose])]
            simp [Walk.Result.track]
    · have hnext : p.stride s = none := by simp [stride, hmap]
      simp [hmap, hnext, haltStatus, restStatus, Walk.Result.track]

theorem rolloutPathOn_eq (pose : PoseView K) (maxSteps : Nat) (tolerance : Int) :
    p.rolloutPathOn pose maxSteps tolerance =
      let w := p.walk maxSteps (p.startStance pose tolerance)
      let status := p.haltStatus w.last w.halt
      ⟨w.track.map Stance.pose ++ (if status = .reachedGoal then [p.goalPose] else []),
        status⟩ :=
  p.rolloutLoop_eq maxSteps _ [] _

/-- What the status says about the stance the rollout ends in. -/
def Rests (maxSteps : Nat) (left : List (Stance K)) (last : Stance K) : RolloutStatus → Prop
  | .reachedGoal => p.onMap (p.cellAt last) = true ∧ p.isFinal (p.cellAt last) = true
  | .noAction => p.onMap (p.cellAt last) = true ∧ p.isFinal (p.cellAt last) = false ∧
      p.actionIndex (p.cellAt last) = none
  | .outOfMap => p.onMap (p.cellAt last) = false
  | .loopDetected => p.stride last ≠ none ∧
      (left.map p.cellAt).count (p.cellAt last) = revisitLimit
  | .stepLimit => left.length = maxSteps

/-- The rollout `r` records the strides from `start` to `last`, which leave `left` behind. -/
structure Records (start : Stance K) (maxSteps : Nat) (r : Rollout K) (left : List (Stance K))
    (last : Stance K) : Prop where
  starts : (left ++ [last]).head? = some start
  strides : List.IsChain (fun s t => p.stride s = some t) (left ++ [last])
  poses : r.poses = (left ++ [last]).map Stance.pose ++
    (if r.status = .reachedGoal then [p.goalPose] else [])
  visits : ∀ c, (left.map p.cellAt).count c ≤ revisitLimit
  steps : left.length ≤ maxSteps
  rests : p.Rests maxSteps left last r.status

variable {p}

theorem stride_eq_some {s t : Stance K} (h : p.stride s = some t) :
    p.onMap (p.cellAt s) = true ∧ p.isFinal (p.cellAt s) = false ∧
      ∃ ai, p.actionIndex (p.cellAt s) = some ai ∧ t = p.advance s ai := by
  rw [stride] at h
  split at h
  · next hc =>
    obtain ⟨ai, hai, rfl⟩ := Option.map_eq_some_iff.mp h
    simp only [Bool.and_eq_true, Bool.not_eq_true'] at hc
    exact ⟨hc.1, hc.2, ai, hai, rfl⟩
  · cases h

theorem restStatus_spec {s : Stance K} (h : p.stride s = none) (maxSteps : Nat)
    (left : List (Stance K)) : p.Rests maxSteps left s (p.restStatus s) := by
  rw [restStatus]
  by_cases hmap : p.onMap (p.cellAt s) = true
  · by_cases hfin : p.isFinal (p.cellAt s) = true
    · simp only [hmap, hfin, Bool.not_true, Bool.false_eq_true, if_false, if_true]
      exact ⟨hmap, hfin⟩
    · simp only [hmap, hfin, Bool.not_true, Bool.false_eq_true, if_false]
      rw [stride] at h
      simp only [hmap, hfin, Bool.not_false, Bool.and_self, if_true, Option.map_eq_none_iff] at h
      exact ⟨hmap, by simpa using hfin, h⟩
  · simp only [hmap, Bool.not_false, if_true]
    simpa [Rests] using hmap

omit [Field K] [LinearOrder K] [FloorRing K] [Analytic K] in
theorem mem_all_of_onMap {c : Pos} (h : p.onMap c = true) : c ∈ p.cellNum.all := by
  simp only [onMap, inMapArea, Bool.and_eq_true, decide_eq_true_eq] at h
  exact Dims.mem_all.mpr ⟨⟨h.1.1.1.1.1, h.1.1.1.1.2⟩, ⟨h.1.1.1.2, h.1.1.2⟩, h.1.2, h.2⟩

/-- The specification of the walk, read off the library's. -/
theorem records_walk (s : Stance K) (maxSteps : Nat) {r : Rollout K}
    (hr : r = ⟨(p.walk maxSteps s).track.map Stance.pose ++
      (if p.haltStatus (p.walk maxSteps s).last (p.walk maxSteps s).halt = .reachedGoal then
        [p.goalPose] else []), p.haltStatus (p.walk maxSteps s).last (p.walk maxSteps s).halt⟩) :
    p.Records s maxSteps r (p.walk maxSteps s).left (p.walk maxSteps s).last := by
  subst hr
  have hvisits : ∀ c, ((p.walk maxSteps s).left.map p.cellAt).count c ≤ revisitLimit := by
    intro c
    have h : 0 + ((p.walk maxSteps s).left.map p.cellAt).count c ≤ revisitLimit :=
      Walk.count_left_follow maxSteps s (fun _ => Nat.zero_le _) c
    omega
  refine ⟨Walk.head_track_follow maxSteps s _, Walk.isChain_follow maxSteps s _, rfl, hvisits,
    Walk.length_left_follow maxSteps s _, ?_⟩
  have hend : (p.walk maxSteps s).Ended p.cellAt p.stride revisitLimit maxSteps _ :=
    Walk.ended_follow maxSteps s _
  rw [Walk.Result.Ended] at hend
  cases hhalt : (p.walk maxSteps s).halt with
  | stopped =>
    rw [hhalt] at hend
    exact restStatus_spec hend _ _
  | revisited =>
    rw [hhalt] at hend
    refine ⟨hend.1, ?_⟩
    have hle := hend.2
    have hge := hvisits (p.cellAt (p.walk maxSteps s).last)
    omega
  | exhausted =>
    rw [hhalt] at hend
    exact hend

/-- Every rollout records the strides of the policy from its start; it leaves no state more
than eight times, so it does not run out of more than eight steps a state. -/
theorem rolloutPathOn_records (p : PolicyView K) (pose : PoseView K) (maxSteps : Nat)
    (tolerance : Int) :
    (∃ left last, p.Records (p.startStance pose tolerance) maxSteps
      (p.rolloutPathOn pose maxSteps tolerance) left last) ∧
    (p.cellNum.count * revisitLimit < maxSteps →
      (p.rolloutPathOn pose maxSteps tolerance).status ≠ .stepLimit) := by
  refine ⟨⟨_, _, records_walk _ maxSteps (p.rolloutPathOn_eq pose maxSteps tolerance)⟩, ?_⟩
  intro hmax hlimit
  rw [rolloutPathOn_eq] at hlimit
  have hkeys : ∀ a, p.stride a ≠ none → p.cellAt a ∈ p.cellNum.all := by
    intro a ha
    obtain ⟨t, ht⟩ := Option.ne_none_iff_exists'.mp ha
    exact mem_all_of_onMap (stride_eq_some ht).1
  have hhalt : (p.walk maxSteps (p.startStance pose tolerance)).halt ≠ .exhausted := by
    apply Walk.not_exhausted_follow _ hkeys
    rw [Dims.length_all]
    exact hmax
  cases h : (p.walk maxSteps (p.startStance pose tolerance)).halt with
  | stopped =>
    simp only [h, haltStatus, restStatus] at hlimit
    split at hlimit
    · cases hlimit
    · split at hlimit <;> cases hlimit
  | revisited =>
    simp only [h, haltStatus] at hlimit
    cases hlimit
  | exhausted => exact hhalt h

/-! ### Moving the start -/

/-- Nothing off the map is final or holds an action. -/
def Bounded (p : PolicyView K) : Prop := ∀ c, p.plannable c = true → p.onMap c = true

theorem mem_offsets {tolerance : Int} {d : Int × Int} : d ∈ offsets tolerance ↔
    (-tolerance ≤ d.1 ∧ d.1 ≤ tolerance) ∧ -tolerance ≤ d.2 ∧ d.2 ≤ tolerance := by
  rw [offsets, List.mem_flatMap]
  constructor
  · rintro ⟨dy, hdy, hd⟩
    obtain ⟨dx, hdx, rfl⟩ := List.mem_map.mp hd
    exact ⟨mem_span.mp hdx, mem_span.mp hdy⟩
  · intro h
    exact ⟨d.2, mem_span.mpr h.2, List.mem_map.mpr ⟨d.1, mem_span.mpr h.1, rfl⟩⟩

variable [IsStrictOrderedRing K]

omit [Analytic K] in
/-- The centre of a cell lies in it. -/
theorem cellOf_center {res : K} (hres : 0 < res) (i : Int) (o : K) :
    cellOf (((i : K) + 1 / 2) * res + o) o res = i := by
  rw [cellOf, add_sub_cancel_right, mul_div_cancel_right₀ _ hres.ne', Int.floor_eq_iff]
  constructor <;> linarith

omit [Analytic K] in
/-- Whole degrees are counted alike before and after the turns are taken off. -/
theorem truncate_remEuclid {d : K} (hd : 0 ≤ d) :
    ((truncate (remEuclid d 360) + 360 * 100).tmod 360) = (truncate d + 360 * 100).tmod 360 := by
  have hpos : (0 : K) < 360 := by norm_num
  have hcast : remEuclid d 360 = d - ((360 * ⌊d / 360⌋ : Int) : K) := by
    rw [remEuclid]
    push_cast
    rfl
  have hrem : 0 ≤ remEuclid d 360 := by
    have hle := Int.floor_le (d / 360)
    rw [le_div_iff₀ hpos] at hle
    rw [remEuclid]
    linarith
  have hfloor : ⌊remEuclid d 360⌋ = ⌊d⌋ - 360 * ⌊d / 360⌋ := by
    rw [hcast, Int.floor_sub_intCast]
  have h1 : 0 ≤ ⌊remEuclid d 360⌋ := Int.floor_nonneg.mpr hrem
  have h2 : 0 ≤ ⌊d⌋ := Int.floor_nonneg.mpr hd
  rw [truncate, truncate, if_pos hrem, if_pos hd, Int.tmod_eq_emod_of_nonneg (by omega),
    Int.tmod_eq_emod_of_nonneg (by omega), hfloor]
  omega

/-- The heading is the one the start is moved with. -/
theorem heading_start (hdeg : ∀ d : K, Analytic.toDegrees (Analytic.toRadians d) = d)
    (p : PolicyView K) {yawRad : K} (hyaw : 0 ≤ Analytic.toDegrees yawRad) (x y : K) :
    p.cellAt ⟨x, y, normalizeDeg (Analytic.toDegrees yawRad)⟩ = p.poseToCellOn x y yawRad := by
  simp only [cellAt, poseToCellOn, hdeg, normalizeDeg, truncate_remEuclid hyaw]

/-- The pose itself, with its heading in degrees. -/
def poseStance (pose : PoseView K) : Stance K :=
  ⟨pose.x, pose.y, normalizeDeg (Analytic.toDegrees pose.yawRad)⟩

/-- The centre of a cell, with the heading of the pose. -/
def centerStance (p : PolicyView K) (pose : PoseView K) (c : Pos) : Stance K :=
  ⟨((c.ix : K) + 1 / 2) * p.xyResolution + p.mapOrigin.1,
    ((c.iy : K) + 1 / 2) * p.xyResolution + p.mapOrigin.2,
    normalizeDeg (Analytic.toDegrees pose.yawRad)⟩

/-- The start is the pose itself where that is plannable, else the centre of a cell; it stands
in a plannable cell of the box that none is nearer than. -/
structure StartsAt (p : PolicyView K) (pose : PoseView K) (tolerance : Int) (d : Int × Int) :
    Prop where
  offset : d ∈ offsets tolerance
  stance : p.startStance pose tolerance =
    if p.plannable (p.poseToCellOn pose.x pose.y pose.yawRad) then poseStance pose
    else p.centerStance pose (beside (p.poseToCellOn pose.x pose.y pose.yawRad) d)
  cell : p.cellAt (p.startStance pose tolerance) =
    beside (p.poseToCellOn pose.x pose.y pose.yawRad) d
  plannable : p.plannable (beside (p.poseToCellOn pose.x pose.y pose.yawRad) d) = true
  nearest : ∀ e ∈ offsets tolerance,
    p.plannable (beside (p.poseToCellOn pose.x pose.y pose.yawRad) e) = true →
      d.1 * d.1 + d.2 * d.2 ≤ e.1 * e.1 + e.2 * e.2

/-- A pose that needs no rescue stays where it is. -/
theorem startsAt_of_plannable
    (hdeg : ∀ d : K, Analytic.toDegrees (Analytic.toRadians d) = d) {p : PolicyView K}
    {pose : PoseView K} (hyaw : 0 ≤ Analytic.toDegrees pose.yawRad) {tolerance : Int}
    (htol : 0 < tolerance) (hown : p.plannable (p.poseToCellOn pose.x pose.y pose.yawRad) = true) :
    p.StartsAt pose tolerance (0, 0) := by
  have hstay : p.startStance pose tolerance = poseStance pose := by
    rw [plannable, Bool.or_eq_true] at hown
    rw [startStance, poseStance]
    rcases hown with hact | hfin
    · simp [Option.isNone_eq_false_iff.mpr hact]
    · simp [hfin]
  have hzero : beside (p.poseToCellOn pose.x pose.y pose.yawRad) (0, 0) =
      p.poseToCellOn pose.x pose.y pose.yawRad := by simp [beside]
  refine ⟨mem_offsets.mpr ⟨⟨by omega, by omega⟩, by omega, by omega⟩, ?_, ?_, ?_, ?_⟩
  · rw [hstay, if_pos hown]
  · rw [hstay, poseStance, heading_start hdeg p hyaw, hzero]
  · rw [hzero]
    exact hown
  · intro e _ _
    have := mul_self_nonneg e.1
    have := mul_self_nonneg e.2
    simpa using by omega

/-- A pose without a policy is moved to the centre of the first of the nearest cells. -/
theorem startsAt_of_rescue
    (hdeg : ∀ d : K, Analytic.toDegrees (Analytic.toRadians d) = d) {p : PolicyView K}
    (hres : 0 < p.xyResolution) {pose : PoseView K}
    (hyaw : 0 ≤ Analytic.toDegrees pose.yawRad) {tolerance : Int} (htol : 0 < tolerance)
    (hown : p.plannable (p.poseToCellOn pose.x pose.y pose.yawRad) = false)
    (hex : ∃ d ∈ offsets tolerance,
      p.plannable (beside (p.poseToCellOn pose.x pose.y pose.yawRad) d) = true) :
    ∃ d, p.StartsAt pose tolerance d := by
  obtain ⟨d₀, hd₀, hp₀⟩ := hex
  rcases Argmin.firstLeast_spec (fun d : Int × Int => d.1 * d.1 + d.2 * d.2)
    ((offsets tolerance).filter fun d =>
      p.plannable (beside (p.poseToCellOn pose.x pose.y pose.yawRad) d)) with
    ⟨_, hnil⟩ | ⟨d, hmin, hmem, hleast⟩
  · rw [List.filter_eq_nil_iff] at hnil
    exact absurd hp₀ (hnil d₀ hd₀)
  · obtain ⟨hd, hpd⟩ := List.mem_filter.mp hmem
    have hmoved : p.startStance pose tolerance =
        p.centerStance pose (beside (p.poseToCellOn pose.x pose.y pose.yawRad) d) := by
      rw [plannable, Bool.or_eq_false_iff] at hown
      rw [startStance, findPlannableStart, hmin, centerStance]
      simp [hown.2, Option.isSome_eq_false_iff.mp hown.1, htol, beside]
    refine ⟨d, hd, ?_, ?_, hpd, ?_⟩
    · rw [hmoved, hown]
      rfl
    · rw [hmoved, centerStance, heading_start hdeg p hyaw]
      simp only [poseToCellOn, cellOf_center hres, beside]
    · intro e he hpe
      exact hleast e (List.mem_filter.mpr ⟨he, hpe⟩)

omit [IsStrictOrderedRing K] in
/-- A rollout that may begin takes a step or is at the goal. -/
theorem two_le_poses {p : PolicyView K} (hbounded : p.Bounded) {start : Stance K} {maxSteps : Nat}
    {r : Rollout K} {left : List (Stance K)} {last : Stance K}
    (h : p.Records start maxSteps r left last) (hmax : 0 < maxSteps)
    (hstart : p.plannable (p.cellAt start) = true) : 2 ≤ r.poses.length := by
  have hposes := h.poses
  have hrests := h.rests
  cases left with
  | cons s left =>
    rw [hposes, List.length_append, List.length_map, List.length_append, List.length_cons,
      List.length_singleton]
    omega
  | nil =>
    obtain rfl : last = start := by simpa using h.starts
    have hmap := hbounded _ hstart
    cases hstatus : r.status with
    | reachedGoal => simp [hposes, hstatus]
    | noAction =>
      rw [hstatus] at hrests
      simp [plannable, hrests.2.1, hrests.2.2] at hstart
    | outOfMap =>
      rw [hstatus] at hrests
      exact absurd (hmap.symm.trans hrests) (by decide)
    | loopDetected =>
      rw [hstatus] at hrests
      have hnever : (0 : Nat) = 8 := hrests.2
      cases hnever
    | stepLimit =>
      rw [hstatus] at hrests
      exact absurd hrests.symm hmax.ne'

/-- A rollout begins in the nearest cell from which it can, at the pose itself or in the centre
of the cell, if one is within tolerance and the heading is not negative, and it does not fail
there. -/
theorem rolloutPathOn_rescue (hdeg : ∀ d : K, Analytic.toDegrees (Analytic.toRadians d) = d)
    {p : PolicyView K} (hbounded : p.Bounded) (hres : 0 < p.xyResolution) {pose : PoseView K}
    (hyaw : 0 ≤ Analytic.toDegrees pose.yawRad) {tolerance : Int} (htol : 0 < tolerance)
    (hex : ∃ d ∈ offsets tolerance,
      p.plannable (beside (p.poseToCellOn pose.x pose.y pose.yawRad) d) = true)
    {maxSteps : Nat} (hmax : 0 < maxSteps) :
    (∃ d, p.StartsAt pose tolerance d) ∧
      2 ≤ (p.rolloutPathOn pose maxSteps tolerance).poses.length := by
  have hstart : ∃ d, p.StartsAt pose tolerance d := by
    cases hown : p.plannable (p.poseToCellOn pose.x pose.y pose.yawRad) with
    | true => exact ⟨(0, 0), startsAt_of_plannable hdeg hyaw htol hown⟩
    | false => exact startsAt_of_rescue hdeg hres hyaw htol hown hex
  refine ⟨hstart, ?_⟩
  obtain ⟨d, hat⟩ := hstart
  obtain ⟨left, last, hrec⟩ := (rolloutPathOn_records p pose maxSteps tolerance).1
  exact two_le_poses hbounded hrec hmax (hat.cell ▸ hat.plannable)

end PolicyView

end Path

namespace ValueIterator

variable {K : Type} [Field K] {v : ValueIterator}

/-- The range checks of the dense view. -/
theorem offView_iff {p : Pos} :
    (!v.inMapArea p.ix p.iy || decide (p.it < 0) || decide ((v.dims.nt : Int) ≤ p.it)) = true ↔
      ¬ v.dims.Contains p := by
  simp only [inMapArea, Dims.Contains, Bool.or_eq_true, Bool.not_eq_true', Bool.and_eq_false_iff,
    decide_eq_true_eq, decide_eq_false_iff_not]
  omega

theorem onView_iff {p : Pos} :
    (v.inMapArea p.ix p.iy && decide (0 ≤ p.it) && decide (p.it < v.dims.nt)) = true ↔
      v.dims.Contains p := by
  simp only [inMapArea, Dims.Contains, Bool.and_eq_true, decide_eq_true_eq]
  omega

theorem policyView_isFinal (g : PolicyFrame K) (p : Pos) : (v.policyView g).isFinal p = true ↔
    v.dims.Contains p ∧ (v.stateAt p).finalState = true := by
  rw [← onView_iff, ← Bool.and_eq_true]
  rfl

theorem policyView_actionIndex (g : PolicyFrame K) (p : Pos) : (v.policyView g).actionIndex p =
    if v.dims.Contains p then
      if (v.stateAt p).free = true ∧ (v.stateAt p).finalState = false then (v.stateAt p).optimalAction
      else none
    else none := by
  simp only [policyView, offView_iff, ite_not]
  split
  · by_cases hfree : (v.stateAt p).free = true
    · by_cases hfin : (v.stateAt p).finalState = true
      · simp [hfin]
      · simp only [hfree, hfin]
        simp
    · simp [hfree]
  · rfl

theorem policyView_valueAt (g : PolicyFrame K) (p : Pos) : (v.policyView g).valueAt p =
    if v.dims.Contains p then
      if (v.stateAt p).policyInvalidated then maxCost else v.costs p
    else maxCost := by
  simp only [policyView, offView_iff, ite_not]
  rfl

theorem policyView_bounded (v : ValueIterator) (g : PolicyFrame K) : (v.policyView g).Bounded := by
  intro c hc
  have hin : v.dims.Contains c := by
    rw [PolicyView.plannable, Bool.or_eq_true] at hc
    rcases hc with hact | hfin
    · rw [policyView_actionIndex] at hact
      by_contra hout
      rw [if_neg hout] at hact
      cases hact
    · exact ((policyView_isFinal g c).mp hfin).1
  exact onView_iff.mpr hin

end ValueIterator

section Walled

/-- The cells of a row, one metre wide; one heading. -/
def rowFrame : PolicyFrame ℚ := ⟨1, (0, 0), (1 / 2, 1 / 2, 0), 360, [(-1, 0)]⟩

/-- A goal, a free cell, a wall and another free cell, before anything is solved. -/
def walledRow : ValueIterator :=
  ⟨⟨⟨4, 1, 1⟩, [goalState probBase, freeState, wallState, freeState], rfl⟩, [stepAction (-1) 0],
    by decide⟩

/-- The row once the cell beside the goal has its action. -/
def walledRowSolved : ValueIterator := (walledRow.valueIterationRaw ⟨1, 0, 0⟩).1

/-- From behind the wall the rollout is moved to the cell before it, not on to the goal. -/
theorem walledRow_rescue :
    let _ : Analytic ℚ := Belief.degreeMath
    (walledRowSolved.policyView rowFrame).startStance ⟨13 / 4, 1 / 3, 0⟩ 3 = ⟨3 / 2, 1 / 2, 0⟩ ∧
    (∃ d, (walledRowSolved.policyView rowFrame).StartsAt ⟨13 / 4, 1 / 3, 0⟩ 3 d) ∧
      2 ≤ ((walledRowSolved.policyView rowFrame).rolloutPathOn ⟨13 / 4, 1 / 3, 0⟩ 5 3).poses.length := by
  intro _
  refine ⟨by decide +kernel, ?_⟩
  exact PolicyView.rolloutPathOn_rescue (fun _ => rfl)
    (walledRowSolved.policyView_bounded rowFrame) (by decide +kernel) (by decide +kernel)
    (by decide) ⟨(-2, 0), by decide +kernel, by decide +kernel⟩ (by decide)

end Walled

section Densify

variable {K : Type} [Field K] [LinearOrder K] [FloorRing K] (sqrt : K → K)

def PathPose.distSq (p q : PathPose K) : K := (q.x - p.x) ^ 2 + (q.y - p.y) ^ 2

/-- The pose a share of `r` of the way from `p` to `q`; it keeps the heading of `p`. -/
def PathPose.toward (p q : PathPose K) (r : K) : PathPose K :=
  ⟨p.x + (q.x - p.x) * r, p.y + (q.y - p.y) * r, p.yaw⟩

/-- The poses pushed for one window: `p` and the points between it and `q`. -/
def stretch (maxSpacing : K) (p q : PathPose K) : List (PathPose K) :=
  let dist := sqrt (p.distSq q)
  if maxSpacing < dist then
    let n := ⌈dist / maxSpacing⌉.toNat
    p :: (List.range (n - 1)).map fun (k : Nat) => p.toward q (((k + 1 : Nat) : K) / (n : K))
  else [p]

def densify (poses : List (PathPose K)) (maxSpacing : K) : List (PathPose K) :=
  if poses.length < 2 ∨ maxSpacing ≤ 0 then poses
  else (poses.zip poses.tail).flatMap (fun w => stretch sqrt maxSpacing w.1 w.2) ++
    poses.getLast?.toList

variable {sqrt} {maxSpacing : K}

theorem stretch_eq (p q : PathPose K) :
    ∃ ps, stretch sqrt maxSpacing p q = p :: ps := by
  rw [stretch]
  split
  · exact ⟨_, rfl⟩
  · exact ⟨[], rfl⟩

theorem densify_cons (h : 0 < maxSpacing) (p q : PathPose K) (rest : List (PathPose K)) :
    densify sqrt (p :: q :: rest) maxSpacing =
      stretch sqrt maxSpacing p q ++ densify sqrt (q :: rest) maxSpacing := by
  have hlong : ¬ ((p :: q :: rest).length < 2 ∨ maxSpacing ≤ 0) := by
    simp [not_le.mpr h]
  rw [densify, if_neg hlong]
  cases rest with
  | nil => simp [densify]
  | cons t rest =>
    have hlong' : ¬ ((q :: t :: rest).length < 2 ∨ maxSpacing ≤ 0) := by
      simp [not_le.mpr h]
    rw [densify, if_neg hlong']
    simp

theorem densify_singleton (p : PathPose K) : densify sqrt [p] maxSpacing = [p] := by
  simp [densify]

variable [IsStrictOrderedRing K]

omit [LinearOrder K] [FloorRing K] [IsStrictOrderedRing K] in
/-- Two points of a stretch are as far apart as their shares differ. -/
theorem distSq_toward (p q : PathPose K) (r s : K) :
    (p.toward q r).distSq (p.toward q s) = (s - r) ^ 2 * p.distSq q := by
  simp only [PathPose.distSq, PathPose.toward]
  ring

omit [FloorRing K] in
/-- Cut into `n` parts, a way is within the spacing if the whole is within `n` of it. -/
theorem share_spaced {p q : PathPose K} {n : Nat} (hn : 0 < n)
    (hwhole : p.distSq q ≤ (maxSpacing * n) ^ 2) (m : Nat) :
    (p.toward q ((m : K) / n)).distSq (p.toward q (((m + 1 : Nat) : K) / n)) ≤ maxSpacing ^ 2 := by
  have hnK : (0 : K) < n := Nat.cast_pos.mpr hn
  have hstep : (((m + 1 : Nat) : K) / n - (m : K) / n) = 1 / n := by
    rw [← sub_div]
    push_cast
    ring
  calc (p.toward q ((m : K) / n)).distSq (p.toward q (((m + 1 : Nat) : K) / n))
      = (1 / n) ^ 2 * p.distSq q := by rw [distSq_toward, hstep]
    _ ≤ (1 / n) ^ 2 * (maxSpacing * n) ^ 2 := by gcongr
    _ = maxSpacing ^ 2 := by
      field_simp

/-- The points of a stretch are the shares `0, 1, …, n - 1`. -/
theorem stretch_eq_shares {p q : PathPose K} (hpos : 0 < maxSpacing)
    (hlong : maxSpacing < sqrt (p.distSq q)) :
    ∃ n : Nat, 0 < n ∧ sqrt (p.distSq q) ≤ maxSpacing * n ∧ stretch sqrt maxSpacing p q =
      (List.range n).map fun (k : Nat) => p.toward q ((k : K) / n) := by
  have hone : 1 < sqrt (p.distSq q) / maxSpacing := by rwa [lt_div_iff₀ hpos, one_mul]
  have hceil : 1 < ⌈sqrt (p.distSq q) / maxSpacing⌉ := by
    rw [Int.lt_ceil]
    exact_mod_cast hone
  obtain ⟨n, hn⟩ : ∃ n : Nat, ⌈sqrt (p.distSq q) / maxSpacing⌉ = n + 1 :=
    ⟨(⌈sqrt (p.distSq q) / maxSpacing⌉ - 1).toNat, by omega⟩
  refine ⟨n + 1, Nat.succ_pos n, ?_, ?_⟩
  · have hle := Int.le_ceil (sqrt (p.distSq q) / maxSpacing)
    rw [hn, div_le_iff₀ hpos, mul_comm] at hle
    exact_mod_cast hle
  · have hnat : ((n : Int) + 1).toNat = n + 1 := by omega
    have hfirst : p.toward q (((0 : Nat) : K) / (n + 1 : Nat)) = p := by
      simp [PathPose.toward]
    rw [stretch]
    simp only [hlong, if_true, hn, hnat, Nat.add_sub_cancel]
    rw [List.range_succ_eq_map, List.map_cons, hfirst, List.map_map]
    rfl

/-- Neighbours on a stretch are within the spacing, the end included. -/
theorem stretch_spaced (hsqrt : ∀ a : K, 0 ≤ a → 0 ≤ sqrt a ∧ sqrt a ^ 2 = a)
    (hpos : 0 < maxSpacing) (p q : PathPose K) :
    List.IsChain (fun a b => a.distSq b ≤ maxSpacing ^ 2) (stretch sqrt maxSpacing p q ++ [q]) := by
  have hnonneg : 0 ≤ p.distSq q := add_nonneg (sq_nonneg _) (sq_nonneg _)
  obtain ⟨hroot, hsq⟩ := hsqrt _ hnonneg
  by_cases hlong : maxSpacing < sqrt (p.distSq q)
  · obtain ⟨n, hn, hle, heq⟩ := stretch_eq_shares hpos hlong
    have hwhole : p.distSq q ≤ (maxSpacing * n) ^ 2 := by
      rw [← hsq]
      gcongr
    obtain ⟨m, rfl⟩ : ∃ m, n = m + 1 := ⟨n - 1, by omega⟩
    have hend : (p.toward q ((m : K) / (m + 1 : Nat))).distSq q ≤ maxSpacing ^ 2 := by
      have hlast := share_spaced hn hwhole m
      have hfull : ((m + 1 : Nat) : K) / (m + 1 : Nat) = 1 :=
        div_self (Nat.cast_ne_zero.mpr hn.ne')
      rw [hfull] at hlast
      simpa [PathPose.distSq, PathPose.toward] using hlast
    rw [heq, List.isChain_append]
    refine ⟨?_, List.isChain_singleton q, ?_⟩
    · rw [List.isChain_map, List.isChain_range_succ]
      intro k _
      exact share_spaced hn hwhole k
    · intro a ha b hb
      rw [List.range_succ, List.map_append, List.map_singleton, List.getLast?_concat,
        Option.mem_some_iff] at ha
      rw [List.head?_cons, Option.mem_some_iff] at hb
      subst ha hb
      exact hend
  · have hshort : stretch sqrt maxSpacing p q = [p] := by
      rw [stretch, if_neg hlong]
    rw [hshort, List.singleton_append, List.isChain_cons_cons]
    refine ⟨?_, List.isChain_singleton q⟩
    rw [← hsq]
    have hle := not_lt.mp hlong
    gcongr

/-- Every pose that a stretch adds lies between its ends and keeps the heading of the first. -/
theorem mem_stretch {p q a : PathPose K} (hpos : 0 < maxSpacing)
    (ha : a ∈ stretch sqrt maxSpacing p q) :
    ∃ r : K, 0 ≤ r ∧ r < 1 ∧ a = p.toward q r := by
  by_cases hlong : maxSpacing < sqrt (p.distSq q)
  · obtain ⟨n, hn, _, heq⟩ := stretch_eq_shares hpos hlong
    rw [heq] at ha
    obtain ⟨k, hk, rfl⟩ := List.mem_map.mp ha
    have hnK : (0 : K) < n := Nat.cast_pos.mpr hn
    refine ⟨(k : K) / n, div_nonneg (Nat.cast_nonneg k) hnK.le, ?_, rfl⟩
    rw [div_lt_one hnK]
    exact_mod_cast List.mem_range.mp hk
  · rw [stretch, if_neg hlong, List.mem_singleton] at ha
    subst ha
    exact ⟨0, le_refl _, zero_lt_one, by simp [PathPose.toward]⟩

/-- A path made dense keeps its poses in order, ends where it ended, has no gap longer than
the spacing, and adds only points on the way between two neighbours. -/
theorem densify_spec (hsqrt : ∀ a : K, 0 ≤ a → 0 ≤ sqrt a ∧ sqrt a ^ 2 = a)
    (hpos : 0 < maxSpacing) (poses : List (PathPose K)) :
    poses.Sublist (densify sqrt poses maxSpacing) ∧
    (densify sqrt poses maxSpacing).head? = poses.head? ∧
    (densify sqrt poses maxSpacing).getLast? = poses.getLast? ∧
    List.IsChain (fun a b => a.distSq b ≤ maxSpacing ^ 2) (densify sqrt poses maxSpacing) ∧
    ∀ a ∈ densify sqrt poses maxSpacing, a ∈ poses ∨
      ∃ w ∈ poses.zip poses.tail, ∃ r : K, 0 ≤ r ∧ r < 1 ∧ a = w.1.toward w.2 r := by
  induction poses with
  | nil => simp [densify]
  | cons p rest ih =>
    cases rest with
    | nil => simp [densify_singleton]
    | cons q rest =>
      obtain ⟨hsub, hhead, hlast, hchain, hon⟩ := ih
      obtain ⟨ps, hps⟩ := (stretch_eq p q : ∃ ps, stretch sqrt maxSpacing p q = p :: ps)
      have hne : densify sqrt (q :: rest) maxSpacing ≠ [] := by
        intro hnil
        rw [hnil] at hhead
        cases hhead
      rw [densify_cons hpos]
      refine ⟨?_, ?_, ?_, ?_, ?_⟩
      · rw [hps, List.cons_append]
        exact (hsub.trans (List.sublist_append_right ps _)).cons_cons p
      · rw [hps]
        rfl
      · rw [List.getLast?_append_of_ne_nil _ hne, hlast]
        rfl
      · obtain ⟨ds, hds⟩ : ∃ ds, densify sqrt (q :: rest) maxSpacing = q :: ds := by
          cases hd : densify sqrt (q :: rest) maxSpacing with
          | nil => exact absurd hd hne
          | cons d ds =>
            rw [hd] at hhead
            cases hhead
            exact ⟨ds, rfl⟩
        have hspaced := stretch_spaced hsqrt hpos p q
        rw [hds] at hchain ⊢
        rw [List.isChain_append] at hspaced ⊢
        refine ⟨hspaced.1, hchain, ?_⟩
        intro a ha b hb
        exact hspaced.2.2 a ha b hb
      · intro a ha
        rcases List.mem_append.mp ha with hfirst | hrest
        · obtain ⟨r, hr0, hr1, rfl⟩ := mem_stretch hpos hfirst
          exact Or.inr ⟨(p, q), List.mem_cons_self .., r, hr0, hr1, rfl⟩
        · rcases hon a hrest with hmem | ⟨w, hw, hrest⟩
          · exact Or.inl (List.mem_cons_of_mem p hmem)
          · exact Or.inr ⟨w, List.mem_cons_of_mem _ hw, hrest⟩

/-- A metre in steps of at most four decimetres. -/
theorem densify_metre :
    List.IsChain (fun a b : PathPose ℝ => a.distSq b ≤ (2 / 5) ^ 2)
      (densify Real.sqrt [⟨0, 0, 0⟩, ⟨1, 0, 0⟩] (2 / 5)) :=
  (densify_spec (fun a ha => ⟨Real.sqrt_nonneg a, Real.sq_sqrt ha⟩) (by norm_num)
    [⟨0, 0, 0⟩, ⟨1, 0, 0⟩]).2.2.2.1

end Densify
end ValueIteration
