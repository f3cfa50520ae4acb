import ValueIteration.Planner.Core

/-!
# The compact field and its dense patches

A compact field keeps values and actions only. The follow patch and the repair
tile are hydrated from it, from the static map and from the penalty overlay; the
window is written back to it column by column.
-/

set_option autoImplicit false

namespace ValueIteration

variable {K : Type} [Field K] [LinearOrder K] [FloorRing K]

/-- `State::from_occupancy`. The margin loop checks only the linear index, so it
also reads across the ends of a row. -/
def State.fromOccupancy (x y : Int) (map : OccupancyGrid K) (margin : Int) (marginPenalty : K)
    (xNum : Nat) : State :=
  if map.data.getD (y * xNum + x).toNat 1 != 0 then default else
  let near := (span (x - margin) (x + margin)).any fun ix2 =>
    (span (y - margin) (y + margin)).any fun iy2 =>
      let pos := iy2 * xNum + ix2
      decide (0 ≤ pos) && decide (pos < map.data.length) && map.data.getD pos.toNat 0 != 0
  let penalty := if near then wrappingAdd (saturate (marginPenalty * (probBase : K))) probBase
    else probBase
  ⟨maxCost, penalty, 0, true, false, none⟩

/-- The static state of a cell of the map, or an occupied one outside of it. -/
def BuildParams.proto (build : BuildParams K) (res : K) (c : Cell) (inside : Bool) : State :=
  if inside then
    State.fromOccupancy c.1 c.2 build.grid ⌈build.mapPenaltyRadius / res⌉ build.mapPenalty
      build.grid.width
  else default

/-- One state of `hydrate_states`, at a global position. Goals are the zero values. -/
def hydrateState (f : CompactField K) (build : BuildParams K) (overlay : Option PenaltyOverlay)
    (g : Pos) : State :=
  let inside := f.onMap (g.ix, g.iy)
  let proto := build.proto f.resolution (g.ix, g.iy) inside
  let u := if inside then f.read g else (maxCost, -1)
  { totalCost := u.1
    penalty := proto.penalty
    localPenalty := (overlay.map (·.get (g.ix, g.iy))).getD 0
    free := proto.free
    finalState := u.1 == 0
    optimalAction := stateAction u.2 }

/-- `hydrate_states`: the rectangle whose corner is the global cell `p0`. -/
def hydrateStates (base : ValueIterator) (f : CompactField K) (build : BuildParams K)
    (overlay : Option PenaltyOverlay) (p0 : Cell) : ValueIterator :=
  base.withStates fun p => hydrateState f build overlay ⟨p0.1 + p.ix, p0.2 + p.iy, p.it⟩

/-- `new`, `set_map_with_occupancy_grid` and `set_local_shape` on given states. -/
def ValueIteratorLocal.new (base : ValueIterator) (res : K) (origin : K × K)
    (safetyRadius safetyRadiusPenalty : K) (cfg : LocalShapeConfig K) : ValueIteratorLocal K :=
  ValueIteratorLocal.setLocalShape
    { base := base
      xyResolution := res
      mapOrigin := origin
      scanPenaltyRadius := 1 / 10
      scanPenalty := 10000
      localIxMin := 0
      localIxMax := 0
      localIyMin := 0
      localIyMax := 0
      localIxyRange := 0
      shape := cfg
      aFwd := 0
      aBwd := 0
      lat := 0
      center := (0, 0)
      cosT := 1
      sinT := 0
      prevXy := none
      clearMapFromScan := false
      safetyRadius := safetyRadius
      safetyRadiusPenalty := safetyRadiusPenalty
      obstacleDist := [] } cfg

/-- The iterator of a free square map, before it is hydrated. -/
def BuildParams.dummy (build : BuildParams K) (side : Nat) : ValueIterator :=
  ⟨Grid.ofFn ⟨side, side, build.thetaCellNum⟩ fun _ => ⟨maxCost, probBase, 0, true, false, none⟩,
    build.actions, build.wellFormed⟩

/-- `new_patch`; `none` stands for its errors. -/
def newPatch (build : BuildParams K) : Option (Patch K) :=
  let res := build.grid.resolution
  if res ≤ 0 then none else
  let win := build.localShape.bboxCells res
  let maxFw := (build.deltaFw.map fun d => |d|).foldl max 0
  let half := 2 * win + (⌊maxFw / res⌋ + 1) + build.patchSlackCells
  let vi := ValueIteratorLocal.new (build.dummy (2 * half + 1).toNat) res (0, 0)
    build.mapPenaltyRadius build.mapPenalty build.localShape
  let reach := (transitionReach build.actions : Int)
  if half ≤ vi.localIxyRange + reach then none
  else some { vi := vi, half := half, reach := reach, hydratedAt := none }

def newRepair (build : BuildParams K) (reach : Int) : Option Repair :=
  let halo := max reach 1
  let interior := max build.repairInteriorCells halo
  if halo < (transitionReach build.actions : Int) then none else
  let ceilDiv (n : Nat) : Int := max ((n + interior - 1) / interior) 1
  let tnx := ceilDiv build.grid.width
  let tny := ceilDiv build.grid.height
  some {
    vi := build.dummy (interior + 2 * halo).toNat
    interior := interior
    halo := halo
    tnx := tnx
    tny := tny
    queued := List.replicate (tnx * tny).toNat false
    queue := []
    visits := 0
    lastVisits := 0 }

namespace Patch

variable (p : Patch K)

/-- `needs_recenter`: the window and what it reads must stay inside the patch. -/
def needsRecenter (gx gy : Int) : Bool :=
  match p.hydratedAt with
  | none => true
  | some p0 =>
    let need := p.vi.localIxyRange + p.reach
    let sideMax := 2 * p.half
    decide (gx - need < p0.1) || decide (gy - need < p0.2) ||
      decide (sideMax < gx - p0.1 + need) || decide (sideMax < gy - p0.2 + need)

def hydrate (f : CompactField K) (build : BuildParams K) (overlay : Option PenaltyOverlay)
    (p0 : Cell) : Patch K :=
  { p with
    hydratedAt := some p0
    vi := { p.vi with
      base := hydrateStates p.vi.base f build overlay p0
      mapOrigin := (f.origin.1 + p0.1 * f.resolution, f.origin.2 + p0.2 * f.resolution) } }

end Patch

namespace CompactField

variable (f : CompactField K)

/-- What a column of the rectangle holds, as the sink stores it. -/
def columnOf (base : ValueIterator) (c : Cell) (it : Nat) : Nat × Int :=
  let s := base.stateAt ⟨c.1, c.2, it⟩
  (s.totalCost, sinkAction s.optimalAction)

/-- One column of `commit_states`; true if it was written. -/
def commitColumn (base : ValueIterator) (p0 c : Cell) : CompactField K × Bool :=
  let g : Cell := (p0.1 + c.1, p0.2 + c.2)
  if !f.onMap g then (f, false) else
  let us := columnOf base c
  if (List.range f.sink.dims.nt).any fun (it : Nat) => f.read ⟨g.1, g.2, it⟩ != us it then
    (f.writeColumn g us, true)
  else (f, false)

/-- `commit_states`: the bounding box is that of the columns written. -/
def commitStates (base : ValueIterator) (p0 : Cell) (r : Int × Int × Int × Int) :
    CompactField K × Option (Int × Int × Int × Int) :=
  ((span r.2.2.1 r.2.2.2).flatMap fun py => (span r.1 r.2.1).map fun px => ((px, py) : Cell)).foldl
    (fun acc c =>
      let w := acc.1.commitColumn base p0 c
      if !w.2 then (w.1, acc.2) else
      let g : Cell := (p0.1 + c.1, p0.2 + c.2)
      (w.1, some (match acc.2 with
        | none => (g.1, g.1, g.2, g.2)
        | some b => (min b.1 g.1, max b.2.1 g.1, min b.2.2.1 g.2, max b.2.2.2 g.2)))) (f, none)

end CompactField

namespace PlannerCore

variable (core : PlannerCore K)

/-- `harvest_penalties`: the penalties of the window's rectangle go to the overlay. -/
def harvestPenalties : PlannerCore K :=
  match core.patch, core.penalty with
  | some p, some ov =>
    match p.hydratedAt with
    | none => core
    | some p0 =>
      let cells := p.vi.windowYs.flatMap fun py => p.vi.windowXs.map fun px => ((px, py) : Cell)
      { core with penalty := some (cells.foldl (fun ov c =>
          ov.set (p0.1 + c.1, p0.2 + c.2) (p.vi.base.stateAt ⟨c.1, c.2, 0⟩).localPenalty) ov) }
  | _, _ => core

/-- One cell of `commit_window`. -/
def commitWindowCell (p : Patch K) (p0 : Cell) (core : PlannerCore K) (c : Cell) : PlannerCore K :=
  match core.cached with
  | some ⟨.compact f, part⟩ =>
    let w := f.commitStates p.vi.base p0 (c.1, c.1, c.2, c.2)
    let core' := { core with cached := some ⟨.compact w.1, part⟩ }
    match w.2, core'.repair with
    | some b, some r => { core' with repair := some (r.enqueueAround b), dirty := true }
    | _, _ => core'
  | _ => core

def commitWindow : PlannerCore K :=
  match core.cached, core.patch with
  | some ⟨.compact _, _⟩, some p =>
    match p.hydratedAt with
    | none => core
    | some p0 => p.vi.windowRows.foldl (commitWindowCell p p0) core
  | _, _ => core

/-- `refresh_local_boundary`: the patch rereads every column it does not own. -/
def refreshLocalBoundary : PlannerCore K :=
  match core.patch, core.cached with
  | some p, some ⟨.compact f, _⟩ =>
    match p.hydratedAt with
    | none => core
    | some p0 =>
      let refresh (q : Pos) : State :=
        let s := p.vi.base.stateAt q
        let g : Cell := (q.ix + p0.1, q.iy + p0.2)
        if !f.onMap g ∨ g ∈ core.global.owned then s
        else
          let u := f.read ⟨g.1, g.2, q.it⟩
          { s with totalCost := u.1, optimalAction := stateAction u.2 }
      { core with patch := some { p with vi := { p.vi with base := p.vi.base.withStates refresh } } }
  | _, _ => core

end PlannerCore

end ValueIteration
