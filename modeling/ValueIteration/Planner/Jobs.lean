import Mathlib.Data.List.Sort
import ValueIteration.Planner.Ownership

/-!
# Jobs of the global and the local worker

A job is a bounded snapshot that a worker updates without the core's lock. On its
return the core publishes values and actions of the columns that are still its own
to write; everything else goes back to the queue.
-/

set_option autoImplicit false

namespace ValueIteration

def unchanged (a b : State) : Bool :=
  a.totalCost == b.totalCost && a.optimalAction == b.optimalAction && a.free == b.free &&
    a.finalState == b.finalState && a.penalty == b.penalty && a.localPenalty == b.localPenalty

/-- The states of some columns, heading by heading. -/
def columnStates (nt : Nat) (cells : List Cell) : List Pos :=
  cells.flatMap fun c => (List.range nt).map fun (t : Nat) => (⟨c.1, c.2, t⟩ : Pos)

namespace ValueIterator

variable (vi : ValueIterator)

/-- Update states in place, adding up how far their values move. -/
def passOver (ps : List Pos) (delta : Nat) : ValueIterator × Nat :=
  ps.foldl (fun r p =>
    let e := r.1.valueIterationRaw p
    (e.1, saturatingAdd r.2 e.2)) (vi, delta)

/-- The same states in a rectangle of their own, from the corner `c` on. -/
def cut (c : Cell) (nx ny : Nat) : ValueIterator :=
  ⟨Grid.ofFn ⟨nx, ny, vi.dims.nt⟩ fun p => vi.stateAt ⟨p.ix + c.1, p.iy + c.2, p.it⟩, vi.actions,
    vi.wellFormed⟩

/-- Values and actions of one column, heading by heading. -/
def writeColumn (c : Cell) (u : Nat → Nat × Option Nat) : ValueIterator :=
  (List.range vi.dims.nt).foldl (fun v (t : Nat) =>
    let p : Pos := ⟨c.1, c.2, t⟩
    v.setState p ((v.stateAt p).withUpdate (u t))) vi

/-- What a column holds. -/
def columnAt (c : Cell) (t : Nat) : Nat × Option Nat :=
  let s := vi.stateAt ⟨c.1, c.2, t⟩
  (s.totalCost, s.optimalAction)

end ValueIterator

/-- `before` holds the states as they were, `vi` what is calculated with. -/
structure GlobalJob where
  epoch : Nat
  id : Nat
  vi : ValueIterator
  before : Grid State
  origin : Cell
  cells : List Cell
  compact : Bool
  reverse : Bool × Bool
  delta : Nat
  ran : Bool
  deriving DecidableEq

structure LocalJob where
  epoch : Nat
  owner : Nat
  id : Nat
  revision : Nat
  boundaryRevision : Nat
  vi : ValueIterator
  origin : Cell
  cells : List Cell
  delta : Nat
  ran : Bool
  deriving DecidableEq

namespace GlobalJob

variable (job : GlobalJob)

/-- The key a tile's cells are sorted by. -/
def sortKey (c : Cell) : Cell :=
  (if job.reverse.2 then -c.2 else c.2, if job.reverse.1 then -c.1 else c.1)

def sortedCells : List Cell :=
  job.cells.insertionSort fun a b => (job.sortKey b).before (job.sortKey a) = false

/-- A tile is swept in its own directions. -/
def runOrder : List Cell := if job.compact then job.sortedCells else job.cells

def firstPass : ValueIterator × Nat :=
  job.vi.passOver (columnStates job.vi.dims.nt job.runOrder) 0

def secondPass : ValueIterator × Nat :=
  job.firstPass.1.passOver (columnStates job.vi.dims.nt job.runOrder.reverse) 0

/-- `run`: a tile that moved is updated once more, the other way round. -/
def run : GlobalJob :=
  if job.ran then job else
  if job.compact ∧ 0 < job.firstPass.2 then
    { job with
      vi := job.secondPass.1
      cells := job.runOrder.reverse
      delta := saturatingAdd job.firstPass.2 job.secondPass.2
      ran := true }
  else
    { job with
      vi := job.firstPass.1
      cells := job.runOrder
      delta := job.firstPass.2
      ran := true }

/-- The global cell of a cell of the job. -/
def globalCell (c : Cell) : Cell := (c.1 + job.origin.1, c.2 + job.origin.2)

end GlobalJob

namespace LocalJob

variable (job : LocalJob)

def globalCell (c : Cell) : Cell := (c.1 + job.origin.1, c.2 + job.origin.2)

/-- `run`: one pass in place. -/
def run : LocalJob :=
  if job.ran then job else
  let r := job.vi.passOver (columnStates job.vi.dims.nt job.cells) job.delta
  { job with vi := r.1, delta := r.2, ran := true }

/-- Write one helper's update, adding up how far the value moves. -/
def joinUpdate (r : ValueIterator × Nat) (e : Pos × Nat × Option Nat) : ValueIterator × Nat :=
  let s := r.1.stateAt e.1
  (r.1.setState e.1 (s.withUpdate e.2),
    saturatingAdd r.2 ((s.totalCost : Int) - (e.2.1 : Int)).natAbs)

/-- `run_parallel`: all helpers read the snapshot, and their updates are joined in
the order of the cells. -/
def runParallel (threads : Nat) : LocalJob :=
  if job.ran then job else
  if threads ≤ 1 ∨ job.cells.isEmpty then job.run else
  let updates := (columnStates job.vi.dims.nt job.cells).filterMap fun p =>
    (job.vi.minActionCost p).map fun u => (p, u)
  let r := updates.foldl joinUpdate (job.vi, job.delta)
  { job with vi := r.1, delta := r.2, ran := true }

end LocalJob

/-- A job before its columns are sorted out. -/
structure Draft where
  vi : ValueIterator
  origin : Cell
  candidates : List Cell
  reverse : Bool × Bool

namespace DenseSweep

variable (sw : DenseSweep)

/-- The reach, measured once; `none` is the panic of its range check. -/
def withReach (actions : List Action) : Option (DenseSweep × Nat) :=
  match sw.reach with
  | some r => some (sw, r)
  | none =>
    let r := transitionReach actions
    if 1 ≤ r ∧ r < 64 then some ({ sw with reach := some r }, r) else none

/-- Used up candidates are replaced by the seeds and their surroundings. -/
def refill (reach : Nat) : Option DenseSweep :=
  if sw.pos < sw.cands.length then some sw else
  match sw.pending with
  | none => some { sw with cands := [], pos := 0 }
  | some seed =>
    (seed.dilate reach reach).map fun bb =>
      { sw with cands := bb.enumerate, pos := 0, pending := none }

end DenseSweep

/-- The bounding box with one more cell. -/
def extendBox (b : Int × Int × Int × Int) (c : Cell) : Int × Int × Int × Int :=
  (min b.1 c.1, max b.2.1 c.1, min b.2.2.1 c.2, max b.2.2.2 c.2)

/-- As many candidates as the budget and the size of the snapshot allow. -/
def takeBatch : Nat → List (Nat × Nat) → Int × Int × Int × Int → List Cell × (Int × Int × Int × Int)
  | 0, _, b => ([], b)
  | _, [], b => ([], b)
  | budget + 1, c :: cands, b =>
    let g : Cell := (c.1, c.2)
    let b' := extendBox b g
    if 32 ≤ b'.2.1 - b'.1 ∨ 32 ≤ b'.2.2.2 - b'.2.2.1 then ([], b) else
    let r := takeBatch budget cands b'
    (g :: r.1, r.2)

namespace PlannerCore

variable {K : Type} [Field K] [LinearOrder K] [FloorRing K] (core : PlannerCore K)

/-- The compact branch of `prepare_global_job`: one queued tile. -/
def draftTile : PlannerCore K × Option Draft :=
  match core.repair with
  | none => ({ core with dirty := false }, none)
  | some r =>
    match r.queue with
    | [] => (core.settleGlobal.1, none)
    | t :: queue =>
      let r := { r with queue := queue, queued := r.queued.set t false, visits := r.visits + 1 }
      match core.cached with
      | some ⟨.compact f, _⟩ =>
        let b := r.interiorOf t f.sink.dims.nx f.sink.dims.ny
        let p0 : Cell := (b.1 - r.halo, b.2.2.1 - r.halo)
        let vi := hydrateStates r.vi f core.build core.penalty p0
        let cells := (span b.2.2.1 b.2.2.2).flatMap fun y => (span b.1 b.2.1).map fun x => (x, y)
        ({ core with repair := some { r with vi := vi } },
          some ⟨vi, p0, cells, (r.visits % 2 == 1, r.visits / 2 % 2 == 1)⟩)
      | _ => ({ core with repair := some r }, none)

/-- The dense branch: one batch of candidates and the cells around it. -/
def draftBatch (maxStates : Nat) : Option (PlannerCore K × Option Draft) :=
  match core.cached with
  | some ⟨.dense l, _⟩ =>
    (core.sweep.withReach l.base.actions).bind fun swr =>
      (swr.1.refill swr.2).map fun sw =>
        match sw.cands.drop sw.pos with
        | [] => (settleGlobal { core with sweep := sw } |>.1, none)
        | c :: cands =>
          let reach : Int := swr.2
          let d := l.base.dims
          let budget := max (maxStates / max d.nt 1) 1
          let r := takeBatch budget (c :: cands) (c.1, c.1, c.2, c.2)
          let x0 := max (r.2.1 - reach) 0
          let y0 := max (r.2.2.2.1 - reach) 0
          let x1 := min (r.2.2.1 + reach) (d.nx - 1)
          let y1 := min (r.2.2.2.2 + reach) (d.ny - 1)
          ({ core with sweep := { sw with pos := sw.pos + r.1.length } },
            some ⟨l.base.cut (x0, y0) (x1 - x0 + 1).toNat (y1 - y0 + 1).toNat, (x0, y0), r.1,
              (false, false)⟩)
  | _ => some (core, none)

/-- The live patch's inputs replace those of a tile wherever the patch reaches. -/
def overlayPatch (vi : ValueIterator) (origin : Cell) : ValueIterator :=
  match core.patch with
  | none => vi
  | some p =>
    match p.hydratedAt with
    | none => vi
    | some p0 => vi.withStates fun q =>
      let s := vi.stateAt q
      let x := q.ix + origin.1 - p0.1
      let y := q.iy + origin.2 - p0.2
      if p.vi.base.inMapArea x y then
        let live := p.vi.base.stateAt ⟨x, y, q.it⟩
        { s with free := live.free, penalty := live.penalty, localPenalty := live.localPenalty }
      else s

/-- The end of `prepare_global_job`: owned columns are deferred, the rest is the job's. -/
def checkOut (d : Draft) : PlannerCore K × GlobalJob :=
  let compact := core.cfg.useCompact
  let vi := if compact then core.overlayPatch d.vi d.origin else d.vi
  let owned := core.global.owned
  let held := d.candidates.filter fun c => c ∈ owned
  let cells := (d.candidates.filter fun c => c ∉ owned).map fun c =>
    ((c.1 - d.origin.1, c.2 - d.origin.2) : Cell)
  let id := core.global.serial + 1
  ({ core with
      dirty := true
      sweep := if compact then core.sweep
        else { core.sweep with visits := core.sweep.visits + cells.length }
      global := { core.global with
        serial := id
        inFlight := some id
        deferred := if core.global.certified then core.global.deferred
          else held.foldl (fun s c => Cell.insert c s) core.global.deferred } },
    { epoch := core.global.epoch
      id := id
      vi := vi.repairValues
      before := vi.states
      origin := d.origin
      cells := cells
      compact := compact
      reverse := d.reverse
      delta := 0
      ran := false })

/-- `prepare_global_job`; the outer `none` is a panic. -/
def prepareGlobalJob (maxStates : Nat) : Option (PlannerCore K × Option GlobalJob) :=
  let r := core.advanceInvalidations (min (max maxStates 1) 5000)
  if !r.2 then some (r.1, none) else
  if r.1.global.inFlight.isSome ∨ r.1.cached.isNone then some (r.1, none) else
  (if core.cfg.useCompact then some r.1.draftTile else r.1.draftBatch maxStates).map fun d =>
    match d.2 with
    | none => (d.1, none)
    | some draft =>
      let out := d.1.checkOut draft
      (out.1, some out.2)

/-- One cell of a returning job, with the lists of changed and of rejected cells. -/
def publishCell (job : GlobalJob) (acc : PlannerCore K × List Cell × List Cell) (c : Cell) :
    PlannerCore K × List Cell × List Cell :=
  let core := acc.1
  let g := job.globalCell c
  if g ∈ core.global.owned then
    if core.global.certified then acc
    else ({ core with global := { core.global with
        deferred := Cell.insert g core.global.deferred } }, acc.2)
  else if !job.ran then (core, acc.2.1, acc.2.2 ++ [g])
  else
    let headings := List.range job.vi.dims.nt
    match core.cached with
    | none => acc
    | some ⟨.dense l, part⟩ =>
      if !headings.all fun (t : Nat) =>
          unchanged (l.base.stateAt ⟨g.1, g.2, t⟩) (job.before.get ⟨c.1, c.2, t⟩) then
        (core, acc.2.1, acc.2.2 ++ [g])
      else
        let moved := headings.any fun (t : Nat) => l.base.columnAt g t != job.vi.columnAt c t
        let base := l.base.writeColumn g (job.vi.columnAt c)
        ({ core with cached := some ⟨.dense { l with base := base }, part⟩ },
          if moved then acc.2.1 ++ [g] else acc.2.1, acc.2.2)
    | some ⟨.compact f, part⟩ =>
      if !headings.all fun (t : Nat) =>
          let s := job.before.get ⟨c.1, c.2, t⟩
          f.read ⟨g.1, g.2, t⟩ == (s.totalCost, sinkAction s.optimalAction) then
        (core, acc.2.1, acc.2.2 ++ [g])
      else
        let us := CompactField.columnOf job.vi c
        if headings.any fun (t : Nat) => f.read ⟨g.1, g.2, t⟩ != us t then
          ({ core with cached := some ⟨.compact (f.writeColumn g us), part⟩ },
            acc.2.1 ++ [g], acc.2.2)
        else acc

/-- A changed boundary voids the certificate of the window. -/
def changeBoundary : PlannerCore K :=
  { core with global := { core.global with
      boundaryRevision := core.global.boundaryRevision + 1
      certified := false } }.refreshLocalBoundary

/-- The end of `commit_global_job`: queue what moved and what was rejected. -/
def afterPublish (changed retry : List Cell) : PlannerCore K :=
  let core := core.enqueueCells (changed ++ retry)
  if changed.isEmpty then core else core.changeBoundary

/-- No global job is out any more. -/
def landGlobal : PlannerCore K := { core with global := { core.global with inFlight := none } }

/-- No local job is out any more. -/
def landLocal : PlannerCore K := { core with global := { core.global with localInFlight := none } }

def commitGlobalJob (job : GlobalJob) : PlannerCore K × Nat × Bool :=
  if job.epoch ≠ core.global.epoch ∨ core.global.inFlight ≠ some job.id then
    let core :=
      if core.global.inFlight = some job.id then
        core.landGlobal.enqueueCells (job.cells.map job.globalCell)
      else core
    (core, 0, !core.isDirty)
  else
    let r := job.cells.foldl (publishCell job) (core.landGlobal, [], [])
    let s := (r.1.afterPublish r.2.1 r.2.2).settleGlobal
    (s.1, job.delta, s.2)

def prepareLocalJob : PlannerCore K × Option LocalJob :=
  let r := core.advanceInvalidations 512
  if !r.2 then (r.1, none) else
  let core := r.1
  match core.global.owner, core.localVi with
  | some owner, some l =>
    if core.global.localInFlight.isSome ∨ core.global.owned.isEmpty then (core, none) else
    let reach : Int := transitionReach l.base.actions
    let x0 := max (l.localIxMin - reach) 0
    let y0 := max (l.localIyMin - reach) 0
    let x1 := min (l.localIxMax + reach) (l.base.dims.nx - 1)
    let y1 := min (l.localIyMax + reach) (l.base.dims.ny - 1)
    let p0 := core.patchAt.getD (0, 0)
    let vi := l.base.cut (x0, y0) (x1 - x0 + 1).toNat (y1 - y0 + 1).toNat
    let cells := (l.windowColumns.filter fun c =>
      ((c.1 + p0.1, c.2 + p0.2) : Cell) ∈ core.global.owned).map fun c =>
        ((c.1 - x0, c.2 - y0) : Cell)
    let id := core.global.serial + 1
    ({ core with global := { core.global with serial := id, localInFlight := some id } },
      some {
        epoch := core.global.epoch
        owner := owner
        id := id
        revision := core.global.localRevision
        boundaryRevision := core.global.boundaryRevision
        vi := vi.repairValues
        origin := (p0.1 + x0, p0.2 + y0)
        cells := cells
        delta := 0
        ran := false })
  | _, _ => (core, none)

/-- Write a local job's columns, and list the ones that moved. -/
def writeLocal (job : LocalJob) (p0 : Cell) (base : ValueIterator) :
    ValueIterator × List Cell :=
  job.cells.foldl (fun acc c =>
    let g := job.globalCell c
    let dst : Cell := (g.1 - p0.1, g.2 - p0.2)
    let moved := (List.range job.vi.dims.nt).any fun (t : Nat) =>
      acc.1.columnAt dst t != job.vi.columnAt c t
    (acc.1.writeColumn dst (job.vi.columnAt c), if moved then acc.2 ++ [g] else acc.2)) (base, [])

def commitLocalJob (job : LocalJob) : PlannerCore K × Option Nat :=
  if job.epoch ≠ core.global.epoch ∨ core.global.owner ≠ some job.owner ∨
      core.global.localInFlight ≠ some job.id then
    (if core.global.localInFlight = some job.id then core.landLocal else core, none)
  else
    let core := core.landLocal
    if !job.ran ∨ job.revision ≠ core.global.localRevision then (core, none) else
    match core.localVi with
    | none => (core, none)
    | some l =>
      let w := writeLocal job (core.patchAt.getD (0, 0)) l.base
      let core := core.setLocal { l with base := w.1 }
      let core := if core.cfg.useCompact then core.commitWindow else core.enqueueCells w.2
      let core := core.voidCertificate
      let core := if job.delta = 0 ∧ job.boundaryRevision = core.global.boundaryRevision then
        core.certifyLocal else core
      (core.settleGlobal.1, some job.delta)

end PlannerCore

end ValueIteration
