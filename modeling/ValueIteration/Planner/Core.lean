import ValueIteration.Bitboard
import ValueIteration.Planner.Window

/-!
# The state of the planner core

One field, held densely or in a compact sink, is shared by the local follow loop
and by background repair. The manager records who works on which columns; the
dense sweep and the tile queue record what is still to be repaired.
-/

set_option autoImplicit false

namespace ValueIteration

/-- A column of states, in global cells. -/
abbrev Cell := Int × Int

instance instLawfulBEqCell : LawfulBEq Cell := inferInstanceAs (LawfulBEq (Int × Int))

namespace Cell

/-- The order of `(i32, i32)`. -/
def before (a b : Cell) : Bool := decide (a.1 < b.1) || (a.1 == b.1 && decide (a.2 < b.2))

/-- Insertion into an ordered set of cells (`BTreeSet::insert`). -/
def insert (c : Cell) : List Cell → List Cell
  | [] => [c]
  | b :: s => if c = b then b :: s else if c.before b then c :: b :: s else b :: insert c s

theorem mem_insert {a c : Cell} (s : List Cell) : a ∈ insert c s ↔ a = c ∨ a ∈ s := by
  induction s with
  | nil => simp [insert]
  | cons b s ih =>
    unfold insert
    split
    · next h => subst h; simp
    · split
      · simp
      · simp only [List.mem_cons, ih]
        constructor
        · rintro (h | h | h)
          · exact Or.inr (Or.inl h)
          · exact Or.inl h
          · exact Or.inr (Or.inr h)
        · rintro (h | h | h)
          · exact Or.inr (Or.inl h)
          · exact Or.inl h
          · exact Or.inr (Or.inr h)

end Cell

/-- `data[y * width + x]` is 0 where the map is free. -/
structure OccupancyGrid (K : Type) where
  width : Nat
  height : Nat
  resolution : K
  originX : K
  originY : K
  data : List Int
  deriving DecidableEq

structure BuildParams (K : Type) where
  grid : OccupancyGrid K
  actions : List Action
  deltaFw : List K
  thetaCellNum : Nat
  mapPenaltyRadius : K
  mapPenalty : K
  localShape : LocalShapeConfig K
  patchSlackCells : Int
  repairInteriorCells : Int
  wellFormed : ∀ a ∈ actions, a.WellFormed thetaCellNum
  deriving DecidableEq

structure PlanConfig (K : Type) where
  useCompact : Bool
  scanPenaltyRadius : K
  scanPenalty : Nat
  sigmaMarginGain : K
  mapClearFromScan : Bool
  globalSweep : Bool
  deriving DecidableEq

/-- The sink stores `(total_cost, action)`, the action as an `i32` with -1 for none. -/
structure CompactField (K : Type) where
  sink : Grid (Nat × Int)
  resolution : K
  origin : K × K
  deriving DecidableEq

structure Patch (K : Type) where
  vi : ValueIteratorLocal K
  half : Int
  reach : Int
  hydratedAt : Option Cell
  deriving DecidableEq

/-- One value a column, in two dimensions. -/
structure PenaltyOverlay where
  values : Grid Nat
  deriving DecidableEq

structure Repair where
  vi : ValueIterator
  interior : Int
  halo : Int
  tnx : Int
  tny : Int
  queued : List Bool
  queue : List Nat
  visits : Nat
  lastVisits : Nat
  deriving DecidableEq

structure DenseSweep where
  pending : Option Bitboard2D
  cands : List (Nat × Nat)
  pos : Nat
  visits : Nat
  lastVisits : Nat
  reach : Option Nat
  deriving DecidableEq

structure Predecessor where
  dx : Int
  dy : Int
  theta : Int
  action : Nat
  deriving DecidableEq

structure Invalidation where
  reverse : List (List Predecessor)
  pending : List Pos
  deriving DecidableEq

structure Manager where
  epoch : Nat
  serial : Nat
  owner : Option Nat
  owned : List Cell
  deferred : List Cell
  certified : Bool
  inFlight : Option Nat
  localInFlight : Option Nat
  localRevision : Nat
  boundaryRevision : Nat
  invalidation : Invalidation
  deriving DecidableEq

/-- `Field`: what a solved goal holds. -/
inductive GoalField (K : Type) where
  | dense (vi : ValueIteratorLocal K)
  | compact (f : CompactField K)
  deriving DecidableEq

structure CachedGoal (K : Type) where
  field : GoalField K
  isPartial : Bool
  deriving DecidableEq

structure PlannerCore (K : Type) where
  build : BuildParams K
  cfg : PlanConfig K
  cached : Option (CachedGoal K)
  patch : Option (Patch K)
  penalty : Option PenaltyOverlay
  repair : Option Repair
  sweep : DenseSweep
  global : Manager
  dirty : Bool
  deriving DecidableEq

instance instInhabitedWord : Inhabited (Nat × Int) := ⟨(maxCost, -1)⟩

/-- `action.map_or(-1, |a| a as i32)`. -/
def sinkAction (a : Option Nat) : Int := a.elim (-1) fun i => (i : Int)

/-- `(action >= 0).then_some(action as usize)`. -/
def stateAction (a : Int) : Option Nat := if 0 ≤ a then some a.toNat else none

theorem stateAction_sinkAction (a : Option Nat) : stateAction (sinkAction a) = a := by
  cases a with
  | none => rfl
  | some i => simp [stateAction, sinkAction]

namespace CompactField

variable {K : Type} (f : CompactField K)

def read (p : Pos) : Nat × Int := f.sink.get p

/-- One element of `write_column`. -/
def write (p : Pos) (u : Nat × Int) : CompactField K := { f with sink := f.sink.set p u }

/-- `write_column` of a whole column, heading by heading. -/
def writeColumn (c : Cell) (us : Nat → Nat × Int) : CompactField K :=
  (List.range f.sink.dims.nt).foldl (fun f (it : Nat) => f.write ⟨c.1, c.2, it⟩ (us it)) f

/-- The cell lies on the map. -/
def onMap (c : Cell) : Bool :=
  decide (0 ≤ c.1) && decide (0 ≤ c.2) && decide (c.1 < f.sink.dims.nx) &&
    decide (c.2 < f.sink.dims.ny)

end CompactField

namespace PenaltyOverlay

variable (o : PenaltyOverlay)

def onMap (c : Cell) : Bool :=
  decide (0 ≤ c.1) && decide (c.1 < o.values.dims.nx) && decide (0 ≤ c.2) &&
    decide (c.2 < o.values.dims.ny)

def new (nx ny : Nat) : PenaltyOverlay := ⟨Grid.ofFn ⟨nx, ny, 1⟩ fun _ => 0⟩

def get (c : Cell) : Nat := if o.onMap c then o.values.get ⟨c.1, c.2, 0⟩ else 0

def set (c : Cell) (v : Nat) : PenaltyOverlay :=
  if o.onMap c then ⟨o.values.set ⟨c.1, c.2, 0⟩ v⟩ else o

end PenaltyOverlay

/-- `transition_reach`: the farthest cell a transition leads to, per axis. -/
def transitionReach (actions : List Action) : Nat :=
  ((actions.flatMap fun a => a.stateTransitions.flatten).map fun t =>
    max t.dix.natAbs t.diy.natAbs).foldl max 0

namespace DenseSweep

variable (sw : DenseSweep)

/-- `seed_rect`: an inclusive rectangle, clipped to the map. -/
def seedRect (nx ny : Nat) (r : Int × Int × Int × Int) : DenseSweep :=
  let bb := sw.pending.getD (Bitboard2D.new nx ny)
  let xs := span (max r.1 0) (min r.2.1 (nx - 1))
  let ys := span (max r.2.2.1 0) (min r.2.2.2 (ny - 1))
  let cells := ys.flatMap fun y => xs.map fun x => (x.toNat, y.toNat)
  { sw with pending := some (cells.foldl (fun bb c => bb.set c.1 c.2) bb) }

def settle : DenseSweep := { sw with lastVisits := sw.visits, visits := 0 }

def clear : DenseSweep := { sw with pending := none, cands := [], pos := 0 }.settle

end DenseSweep

namespace Repair

variable (r : Repair)

/-- `interior_of`: the cells a tile updates, ends included. -/
def interiorOf (t : Nat) (gnx gny : Nat) : Int × Int × Int × Int :=
  let tx := (t : Int) % r.tnx
  let ty := (t : Int) / r.tnx
  let x0 := tx * r.interior
  let y0 := ty * r.interior
  (x0, min (x0 + r.interior - 1) (gnx - 1), y0, min (y0 + r.interior - 1) (gny - 1))

/-- Queue a tile that is not queued. -/
def push (t : Nat) : Repair :=
  if r.queued.getD t true then r
  else { r with queued := r.queued.set t true, queue := r.queue ++ [t] }

/-- `enqueue_around`: every tile with a cell within `halo` of the rectangle. -/
def enqueueAround (b : Int × Int × Int × Int) : Repair :=
  let tx0 := min (max (b.1 - r.halo) 0 / r.interior) (r.tnx - 1)
  let tx1 := min (max (b.2.1 + r.halo) 0 / r.interior) (r.tnx - 1)
  let ty0 := min (max (b.2.2.1 - r.halo) 0 / r.interior) (r.tny - 1)
  let ty1 := min (max (b.2.2.2 + r.halo) 0 / r.interior) (r.tny - 1)
  ((span ty0 ty1).flatMap fun ty =>
    (span tx0 tx1).map fun tx => (ty * r.tnx + tx).toNat).foldl push r

def enqueueAll : Repair := (List.range (r.tnx * r.tny).toNat).foldl push r

def settle : Repair := { r with lastVisits := r.visits, visits := 0 }

def clear : Repair := { r with queue := [], queued := r.queued.map fun _ => false }.settle

end Repair

namespace CachedGoal

def markComplete {K : Type} (c : CachedGoal K) : CachedGoal K := { c with isPartial := false }

end CachedGoal

namespace BuildParams

variable {K : Type} (build : BuildParams K)

def mapDims : Dims := ⟨build.grid.width, build.grid.height, build.thetaCellNum⟩

/-- A value iterator with the planner's transition table. -/
def Tabled (vi : ValueIterator) (d : Dims) : Prop := vi.dims = d ∧ vi.actions = build.actions

/-- A patch as `new_patch` makes it: the window and what it reads fit in. -/
structure PatchShape (p : Patch K) : Prop where
  table : build.Tabled p.vi.base
    ⟨(2 * p.half + 1).toNat, (2 * p.half + 1).toNat, build.thetaCellNum⟩
  reach : p.reach = (transitionReach build.actions : Int)
  fits : p.vi.localIxyRange + p.reach < p.half

/-- A repair tile and its grid as `new_repair` makes them. -/
structure RepairShape (r : Repair) : Prop where
  table : build.Tabled r.vi ⟨(r.interior + 2 * r.halo).toNat, (r.interior + 2 * r.halo).toNat,
    build.thetaCellNum⟩
  halo : 0 < r.halo ∧ (transitionReach build.actions : Int) ≤ r.halo ∧ r.halo ≤ r.interior
  tilesX : 0 < r.tnx ∧ (build.grid.width : Int) ≤ r.tnx * r.interior
  tilesY : 0 < r.tny ∧ (build.grid.height : Int) ≤ r.tny * r.interior
  queued : r.queued.length = (r.tnx * r.tny).toNat

end BuildParams

namespace PlannerCore

variable {K : Type} (core : PlannerCore K)

/-- `local`: the dense iterator the follow loop works on. -/
def localVi : Option (ValueIteratorLocal K) :=
  match core.cached with
  | none => none
  | some c =>
    match c.field with
    | .dense vi => some vi
    | .compact _ =>
      match core.patch with
      | none => none
      | some p => p.hydratedAt.map fun _ => p.vi

/-- Write the local iterator back (`local_mut`). -/
def setLocal (vi : ValueIteratorLocal K) : PlannerCore K :=
  match core.cached with
  | none => core
  | some c =>
    match c.field with
    | .dense _ => { core with cached := some { c with field := .dense vi } }
    | .compact _ =>
      match core.patch with
      | none => core
      | some p => if p.hydratedAt.isSome then { core with patch := some { p with vi := vi } } else core

/-- `patch.as_ref().and_then(|p| p.at)`. -/
def patchAt : Option Cell := core.patch.bind (·.hydratedAt)

/-- The global cell of the local cell `(0, 0)`. -/
def localOrigin : Cell := if core.cfg.useCompact then core.patchAt.getD (0, 0) else (0, 0)

def enqueueGlobal (rect : Int × Int × Int × Int) : PlannerCore K :=
  match core.repair with
  | some r => { core with dirty := true, repair := some (r.enqueueAround rect) }
  | none => { core with
      dirty := true
      sweep := core.sweep.seedRect core.build.grid.width core.build.grid.height rect }

/-- Enqueue one column. -/
def enqueueCell (c : Cell) : PlannerCore K := core.enqueueGlobal (c.1, c.1, c.2, c.2)

/-- Enqueue columns one after the other. -/
def enqueueCells (cs : List Cell) : PlannerCore K := cs.foldl enqueueCell core

def globalQueued : Bool :=
  if !core.global.invalidation.pending.isEmpty then true else
  match core.repair with
  | some r => !r.queue.isEmpty
  | none => decide (core.sweep.pos < core.sweep.cands.length) ||
      core.sweep.pending.any fun p => decide (0 < p.popcount)

/-- The condition under which `settle_global` declares the repair done. -/
def settled : Bool :=
  !core.globalQueued && core.global.inFlight.isNone && core.global.localInFlight.isNone &&
    (core.global.owned.isEmpty || core.global.certified) && core.global.deferred.isEmpty

def settleGlobal : PlannerCore K × Bool :=
  let done := core.settled
  if done then
    ({ core with
      dirty := !done
      repair := core.repair.map fun r => if 0 < r.visits then r.settle else r
      sweep := if core.repair.isNone ∧ 0 < core.sweep.visits then core.sweep.settle else core.sweep
      cached := core.cached.map (·.markComplete) }, done)
  else ({ core with dirty := !done }, done)

/-- `seed_sweep_all`: only a dense field seeds. -/
def seedSweepAll : PlannerCore K :=
  match core.cached with
  | some ⟨.dense vi, _⟩ =>
    let d := vi.base.dims
    { core with sweep := core.sweep.seedRect d.nx d.ny (0, d.nx - 1, 0, d.ny - 1) }
  | _ => core

def seedSweepWindow : PlannerCore K :=
  match core.cached with
  | some ⟨.dense vi, _⟩ =>
    let d := vi.base.dims
    let rect := (vi.localIxMin, vi.localIxMax, vi.localIyMin, vi.localIyMax)
    { core with sweep := core.sweep.seedRect d.nx d.ny rect }
  | _ => core

def isDirty : Bool :=
  core.dirty || core.global.inFlight.isSome || core.global.localInFlight.isSome ||
    (!core.global.owned.isEmpty && !core.global.certified) || !core.global.deferred.isEmpty

abbrev mapDims : Dims := core.build.mapDims

/-- The shapes of the core's parts, fixed by the build parameters. -/
structure Shaped : Prop where
  dense : ∀ l part, core.cached = some ⟨.dense l, part⟩ → core.cfg.useCompact = false ∧
    core.build.Tabled l.base core.mapDims
  compact : ∀ f part, core.cached = some ⟨.compact f, part⟩ → core.cfg.useCompact = true ∧
    f.sink.dims = core.mapDims
  patch : ∀ p, core.patch = some p → core.cfg.useCompact = true ∧ core.build.PatchShape p
  repair : ∀ r, core.repair = some r → core.cfg.useCompact = true ∧ core.build.RepairShape r
  overlay : ∀ o, core.penalty = some o →
    o.values.dims = ⟨core.build.grid.width, core.build.grid.height, 1⟩

variable {core}

section
variable (core)

@[simp] theorem build_enqueueGlobal (b : Int × Int × Int × Int) :
    (core.enqueueGlobal b).build = core.build := by
  unfold enqueueGlobal
  split <;> rfl

@[simp] theorem cfg_enqueueGlobal (b : Int × Int × Int × Int) :
    (core.enqueueGlobal b).cfg = core.cfg := by
  unfold enqueueGlobal
  split <;> rfl

@[simp] theorem cached_enqueueGlobal (b : Int × Int × Int × Int) :
    (core.enqueueGlobal b).cached = core.cached := by
  unfold enqueueGlobal
  split <;> rfl

@[simp] theorem patch_enqueueGlobal (b : Int × Int × Int × Int) :
    (core.enqueueGlobal b).patch = core.patch := by
  unfold enqueueGlobal
  split <;> rfl

@[simp] theorem penalty_enqueueGlobal (b : Int × Int × Int × Int) :
    (core.enqueueGlobal b).penalty = core.penalty := by
  unfold enqueueGlobal
  split <;> rfl

@[simp] theorem global_enqueueGlobal (b : Int × Int × Int × Int) :
    (core.enqueueGlobal b).global = core.global := by
  unfold enqueueGlobal
  split <;> rfl

end

theorem repairShape_push {build : BuildParams K} {r : Repair} (h : build.RepairShape r) (t : Nat) :
    build.RepairShape (r.push t) := by
  unfold Repair.push
  split
  · exact h
  · refine ⟨h.table, h.halo, h.tilesX, h.tilesY, ?_⟩
    rw [List.length_set]
    exact h.queued

theorem repairShape_foldl_push {build : BuildParams K} (ts : List Nat) : ∀ {r : Repair},
    build.RepairShape r → build.RepairShape (ts.foldl Repair.push r) := by
  induction ts with
  | nil => exact fun h => h
  | cons t ts ih => exact fun h => ih (repairShape_push h t)

theorem Shaped.enqueueGlobal (hs : core.Shaped) (b : Int × Int × Int × Int) :
    (core.enqueueGlobal b).Shaped := by
  unfold PlannerCore.enqueueGlobal
  cases hr : core.repair with
  | none => exact ⟨hs.dense, hs.compact, hs.patch, fun r h => hs.repair r (hr.trans h), hs.overlay⟩
  | some r =>
    refine ⟨hs.dense, hs.compact, hs.patch, ?_, hs.overlay⟩
    intro r' heq
    cases heq
    exact ⟨(hs.repair r hr).1, repairShape_foldl_push _ (hs.repair r hr).2⟩

end PlannerCore

end ValueIteration
