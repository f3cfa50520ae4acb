import Mathlib.Algebra.Order.Monoid.WithTop
import ValueIteration.Lib.Sparse
import ValueIteration.Planner.Core

/-!
# The belief histogram

`Belief`: a histogram over the cells of the map and the heading bins. A list `active`
names the cells that carry mass; `scratch` is the second buffer of the scatter passes and
`delta` holds the negative log likelihoods of the min-plus mode. Arithmetic is exact: `b`
holds numbers, `scratch` and `delta` may hold `⊤` for the infinite float.
-/

set_option autoImplicit false

/-- The storage order of the histogram, one plane a heading. -/
def Dims.planes (d : Dims) : List Pos :=
  (List.range d.nt).flatMap fun (it : Nat) =>
    (List.range d.ny).flatMap fun (iy : Nat) =>
      (List.range d.nx).map fun (ix : Nat) => ⟨ix, iy, it⟩

/-- The planes are the positions of a grid whose axes are turned. -/
theorem Dims.planes_eq (d : Dims) :
    d.planes = (Dims.mk d.ny d.nt d.nx).all.map fun p => ⟨p.it, p.ix, p.iy⟩ := by
  simp only [planes, all, List.map_flatMap, List.map_map, Function.comp_def]

theorem Dims.mem_planes {d : Dims} {p : Pos} : p ∈ d.planes ↔ d.Contains p := by
  rw [planes_eq, List.mem_map]
  constructor
  · rintro ⟨q, hq, rfl⟩
    obtain ⟨hx, hy, ht⟩ := mem_all.mp hq
    exact ⟨ht, hx, hy⟩
  · rintro ⟨hx, hy, ht⟩
    exact ⟨⟨p.iy, p.it, p.ix⟩, mem_all.mpr ⟨hy, ht, hx⟩, rfl⟩

theorem Dims.nodup_planes (d : Dims) : d.planes.Nodup := by
  rw [planes_eq]
  apply List.Nodup.map _ nodup_all
  intro p q h
  simp only [Pos.mk.injEq] at h
  obtain ⟨ht, hx, hy⟩ := h
  cases p
  cases q
  simp_all

namespace ValueIteration

/-- The functions of real numbers the filter calls. `keepBest k` is
`select_nth_unstable_by` by descending score and `truncate(k)`, which leaves the order of
what it keeps and the choice among equal scores open. -/
class Analytic (K : Type) extends Trig K where
  exp : K → K
  ln : K → K
  powf : K → K → K
  hypot : K → K → K
  atan2 : K → K → K
  toRadians : K → K
  toDegrees : K → K
  fracOneSqrtTwo : K
  keepBest : {α : Type} → Nat → List (K × α) → List (K × α)

/-- The likelihood field of the native map: quantised likelihoods and obstacle distances,
and the unknown and the free cells. -/
structure LikelihoodField (K : Type) where
  w : Nat
  h : Nat
  res : K
  ox : K
  oy : K
  lf : Cell → Nat
  dist : Cell → Nat
  unk : Cell → Bool
  free : Cell → Bool

structure BeliefConfig (K : Type) where
  sensorSigmaM : K
  beamStep : Nat
  maxRangeM : K
  motionSigmaXyM : K
  motionSigmaThetaDeg : K
  initSigmaXyM : K
  initSigmaThetaDeg : K
  zMin : K
  weightSkipRatio : K
  resetQuality : K
  lostEss : K
  lostUpdateMinDM : K
  lostUpdateMinADeg : K
  probationObs : Nat
  probationMinQ : K
  lostSigmaPerM : K
  globalMatch : Bool
  viterbi : Bool
  deriving DecidableEq

/-- What has happened to the scratch buffer: a min-plus shift wrote it, a scatter pass
found it as recorded, a reseed found it as recorded and left the belief as recorded. -/
inductive Event (K : Type) where
  | shift
  | scatter (scratch : Pos → WithTop K)
  | reseed (scratch : Pos → WithTop K) (cands : List (K × Pos)) (free : Pos → Bool)
      (b : Pos → K) (active : List Pos)

/-- The histogram. `trace` is no field of the source: it records the uses of `scratch`,
the latest first, and no operation reads it. -/
structure Belief (K : Type) where
  cfg : BeliefConfig K
  field : LikelihoodField K
  dims : Dims
  res : K
  tResDeg : K
  ox : K
  oy : K
  free : Cell → Bool
  nFree : Nat
  b : Pos → K
  scratch : Pos → WithTop K
  active : List Pos
  delta : Pos → WithTop K
  pendF : K
  pendRotDeg : K
  pendTicks : Nat
  initialized : Bool
  quality : K
  qEwma : K
  essC : K
  lost : Bool
  probation : Nat
  probMove : K
  matchPool : Option (List Cell)
  moveSinceMatch : K
  relHold : Nat
  relAnchor : Option (K × K)
  trace : List (Event K)

variable {K : Type} [Field K] [LinearOrder K] [FloorRing K]

namespace LikelihoodField

variable (f : LikelihoodField K)

/-- The cell of a point, when the native map has one there. -/
def cell (wx wy : K) : Option Cell :=
  let c : Cell := (cellOf wx f.ox f.res, cellOf wy f.oy f.res)
  if c.1 < 0 ∨ c.2 < 0 ∨ c.1 ≥ f.w ∨ c.2 ≥ f.h then none else some c

def unkAt (wx wy : K) : Bool :=
  match f.cell wx wy with
  | none => false
  | some c => f.unk c

def knownDist (wx wy : K) : Option Nat :=
  match f.cell wx wy with
  | none => none
  | some c => if f.unk c then none else some (f.dist c)

def markFree (wx wy : K) : LikelihoodField K :=
  match f.cell wx wy with
  | none => f
  | some c => { f with free := Function.update f.free c true }

/-- `at`: the likelihood of a point, 0 outside the map. -/
def likelihood (wx wy : K) : K :=
  match f.cell wx wy with
  | none => 0
  | some c => (f.lf c : K) / 255

end LikelihoodField

def resetMix : K := 1 / 2

def unknownL : K := 1 / 2

def lostMinKnown : Nat := 4

/-- `MIX_UNIFORM` over the free poses, `u`. -/
def uniformShare (n : Nat) : K := resetMix / n

/-- The running maximum of a list of weights, from 0. -/
def maxWeight (ws : List K) : K := ws.foldl max 0

/-- `rem_euclid` of a float. -/
def remEuclid (x m : K) : K := x - m * ⌊x / m⌋

namespace Belief

section
variable (s : Belief K)

def freeAt (p : Pos) : Bool := s.free (p.ix, p.iy)

/-- A free cell of the map, with a heading of the histogram. -/
def openPose (p : Pos) : Bool := decide (s.dims.Contains p) && s.freeAt p

/-- The free poses in storage order. -/
def freePoses : List Pos := s.dims.planes.filter s.freeAt

/-- `n_free * nt`. -/
def poseCount : Nat := s.nFree * s.dims.nt

def cellCenter (ix iy : Int) : K × K :=
  (s.ox + ((ix : K) + 1 / 2) * s.res, s.oy + ((iy : K) + 1 / 2) * s.res)

def weights : List K := s.active.map s.b

/-- A sum that is not finite does not occur in exact arithmetic. -/
def normalizeActive : Belief K := { s with b := Sparse.normalize s.active s.b }

def recomputeEss : Belief K :=
  let s2 := (s.active.map fun p => s.b p * s.b p).sum
  { s with essC := if 0 < s2 then 1 / s2 else 0 }

/-- Put the listed entries back to zero and empty the list. -/
def clearActive : Belief K :=
  { s with b := Sparse.modify (fun _ _ => 0) s.active s.b, active := [] }

/-- The resets that `seed` and the uniform start share. -/
def dropPending : Belief K := { s with pendF := 0, pendRotDeg := 0, pendTicks := 0 }

def predict (v wDeg dt : K) : Belief K :=
  if s.initialized then
    { s with
      pendF := s.pendF + v * dt
      pendRotDeg := s.pendRotDeg + wDeg * dt
      pendTicks := s.pendTicks + 1 }
  else s

end

section
variable [Analytic K] (s : Belief K)

def thetaCenter (it : Int) : K := Analytic.toRadians (((it : K) + 1 / 2) * s.tResDeg)

def poseOf (p : Pos) : PoseView K :=
  let c := s.cellCenter p.ix p.iy
  ⟨c.1, c.2, s.thetaCenter p.it⟩

/-- `δ := -ln b` on the cells that carry mass. -/
def vitEnter : Belief K :=
  { s with
    delta := Sparse.modify (fun p d => if 0 < s.b p then ((-Analytic.ln (s.b p) : K) : WithTop K) else d)
      s.active (fun _ => ⊤) }

def enterMode : Belief K := if s.cfg.viterbi then s.vitEnter else s

/-- One axis of the initial Gaussian; what is negligible is cut off. -/
def axisWeight (d sigma : K) : Option K :=
  let w := Analytic.exp (-(d * d) / (2 * sigma * sigma))
  if 1 / 1000000000 < w then some w else none

/-- The weight `seed` gives a pose, when it lists it. -/
def seedWeight (pose : PoseView K) (p : Pos) : Option K :=
  let sXy := max s.cfg.initSigmaXyM s.res
  let sT := max s.cfg.initSigmaThetaDeg s.tResDeg
  let c := s.cellCenter p.ix p.iy
  let d := remEuclid (((p.it : K) + 1 / 2) * s.tResDeg - Analytic.toDegrees pose.yawRad) 360
  match axisWeight (min d (360 - d)) sT, axisWeight (c.2 - pose.y) sXy,
      axisWeight (c.1 - pose.x) sXy with
  | some wt, some wy, some wx =>
    if s.freeAt p ∧ 0 < wt * wy * wx then some (wt * wy * wx) else none
  | _, _, _ => none

/-- `seed`. The axis weights are computed once for each axis in the source. -/
def seed (pose : PoseView K) : Belief K :=
  let cells := s.dims.planes.filter fun p => (s.seedWeight pose p).isSome
  let filled := { s.clearActive with
    b := Sparse.modify (fun p _ => (s.seedWeight pose p).getD 0) cells s.clearActive.b
    active := cells }
  let entered := filled.normalizeActive.enterMode.dropPending
  { entered with initialized := true, qEwma := 1, lost := false, probation := 0 }.recomputeEss

def enterUniformFree : Belief K :=
  let filled := { s.clearActive with
    b := Sparse.modify (fun _ _ => 1) s.freePoses s.clearActive.b
    active := s.freePoses }
  let entered := filled.normalizeActive.enterMode.dropPending
  { entered with
    initialized := true, qEwma := s.cfg.resetQuality, lost := true, probation := 0 }.recomputeEss

def enterLostEmpty : Belief K :=
  let emptied := s.clearActive.dropPending
  { emptied with
    delta := if s.cfg.viterbi then fun _ => ⊤ else s.delta
    initialized := true
    qEwma := s.cfg.resetQuality
    lost := true
    probation := 0
    essC := 0 }

/-- `None` when no listed cell has a positive weight. -/
def mean : Option (PoseView K) :=
  let heavy := s.active.filter fun p => 0 < s.b p
  let total (f : PoseView K → K) : K := (heavy.map fun p => s.b p * f (s.poseOf p)).sum
  let sw := (heavy.map s.b).sum
  if 0 < sw then
    some ⟨total (·.x) / sw, total (·.y) / sw,
      Analytic.atan2 (total fun q => Trig.sin q.yawRad) (total fun q => Trig.cos q.yawRad)⟩
  else none

/-- One sample of a beam in `clear_free_from_scan`. -/
def openCell (wx wy : K) : Belief K × Bool :=
  let c : Cell := (cellOf wx s.ox s.res, cellOf wy s.oy s.res)
  if c.1 < 0 ∨ c.2 < 0 ∨ c.1 ≥ s.dims.nx ∨ c.2 ≥ s.dims.ny then (s, false)
  else
    ({ s with
      free := Function.update s.free c true
      nFree := if s.free c then s.nFree else s.nFree + 1
      field := s.field.markFree wx wy }, true)

def clearFreeFromScan (scan : LaserScan K) : Belief K :=
  match s.mean with
  | none => s
  | some p =>
    walkBeams scan p.x p.y p.yawRad (min s.res s.field.res * (1 / 2)) s.res openCell s

end

/-- `Belief::new`, over a likelihood field already built. -/
def new (viGrid : OccupancyGrid K) (thetaBins : Nat) (field : LikelihoodField K)
    (cfg : BeliefConfig K) : Belief K where
  cfg := cfg
  field := field
  dims := ⟨viGrid.width, viGrid.height, max thetaBins 1⟩
  res := viGrid.resolution
  tResDeg := 360 / (max thetaBins 1 : Nat)
  ox := viGrid.originX
  oy := viGrid.originY
  free := fun c => viGrid.data.getD (c.2 * viGrid.width + c.1).toNat 1 == 0
  nFree := viGrid.data.countP (· == 0)
  b := fun _ => 0
  scratch := fun _ => 0
  active := []
  delta := fun _ => ⊤
  pendF := 0
  pendRotDeg := 0
  pendTicks := 0
  initialized := false
  quality := 0
  qEwma := 0
  essC := 0
  lost := false
  probation := 0
  probMove := 0
  matchPool := none
  moveSinceMatch := 0
  relHold := 0
  relAnchor := none
  trace := []

end Belief

end ValueIteration
