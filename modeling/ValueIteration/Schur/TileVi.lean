import Mathlib.Data.Int.Order.Basic
import ValueIteration.ModelWorld
import ValueIteration.Schur.Artifact

/-!
# The mini value iterator of a tile

A square value iterator that is laid over one tile after the other. `hydrate` copies the
free flags and penalties from the map and overwrites everything else, pins give states a
final value, and Gauss-Seidel passes in alternating directions solve the rest.
-/

set_option autoImplicit false

namespace ValueIteration

def patchR : Int := 1
def patchT : Int := 1

/-- The aggregate of the values in a patch; `max` unless the environment asks for another. -/
inductive PatchAgg
  | max
  | center
  | mean
  deriving DecidableEq, Repr

def tileMaxIter : Nat := 64

/-- `TILE_INIT`. -/
def tileInit : Nat := reachThresh

def clampUnreached (v : Nat) : Nat := if v ≥ reachThresh then maxCost else v

def absDiff (a b : Nat) : Nat := max a b - min a b

structure TileVi where
  vi : ValueIterator
  side : Int

/-- A state of the window that shows the state `(gx, gy, it)` of the map. -/
def hydrateTileState (src : ValueIterator) (gx gy it : Int) (s : State) : State :=
  let s := { s with
    totalCost := tileInit
    localPenalty := 0
    finalState := false
    optimalAction := none }
  if src.inMapArea gx gy then
    let g := src.stateAt ⟨gx, gy, it⟩
    { s with free := g.free, penalty := g.penalty }
  else { s with free := false, penalty := probBase }

/-- The states of a patch around `(lx, ly, it)` that lie in the window. -/
def patchStates (side nt lx ly it : Int) : List Pos :=
  (span (-patchR) patchR).flatMap fun dy => (span (-patchR) patchR).flatMap fun dx =>
    if lx + dx < 0 ∨ lx + dx ≥ side ∨ ly + dy < 0 ∨ ly + dy ≥ side then []
    else (span (-patchT) patchT).map fun dt => ⟨lx + dx, ly + dy, (it + dt) % nt⟩

/-- The order of a pass over the window: backwards in `y` and `x` every other time. -/
def passOrder (side nt : Nat) (fwd : Bool) : List Pos :=
  (List.range side).flatMap fun yy => (List.range side).flatMap fun xx =>
    (List.range nt).map fun (it : Nat) =>
      ⟨if fwd then xx else side - 1 - xx, if fwd then yy else side - 1 - yy, it⟩

namespace TileVi

def new (src : ValueIterator) (side : Int) : TileVi :=
  ⟨⟨Grid.ofFn ⟨side.toNat, side.toNat, src.dims.nt⟩ fun _ =>
      ⟨tileInit, probBase, 0, false, false, none⟩, src.actions, src.wellFormed⟩, side⟩

variable (tv : TileVi)

/-- Lay the window with its lower left corner on `(x0, y0)`. -/
def hydrate (src : ValueIterator) (x0 y0 : Int) : TileVi :=
  { tv with vi := tv.vi.withStates fun p =>
      hydrateTileState src (x0 + p.ix) (y0 + p.iy) p.it (tv.vi.stateAt p) }

def setState (p : Pos) (s : State) : TileVi := { tv with vi := tv.vi.setState p s }

/-- Pin a state as final with value `cost`. -/
def pin (p : Pos) (cost : Nat) : TileVi :=
  tv.setState p { tv.vi.stateAt p with
    finalState := true
    totalCost := cost
    optimalAction := none }

/-- One state of a pinned patch; what is final already takes the smaller value. -/
def pinPatchState (cost : Nat) (tv : TileVi) (p : Pos) : TileVi :=
  let s := tv.vi.stateAt p
  if !s.free then tv
  else if s.finalState then tv.setState p { s with totalCost := min s.totalCost cost }
  else tv.pin p cost

def pinPatch (lx ly it : Int) (cost : Nat) : TileVi :=
  (patchStates tv.side tv.vi.dims.nt lx ly it).foldl (pinPatchState cost) tv

def patchLocal (lx ly it : Int) : List Pos :=
  (patchStates tv.side tv.vi.dims.nt lx ly it).filter fun p => (tv.vi.stateAt p).free

def value (p : Pos) : Nat := (tv.vi.stateAt p).totalCost

/-- `patch_max`: the aggregate over the free states of a patch, `MAX_COST` without one. -/
def patchMax (agg : PatchAgg) (lx ly it : Int) : Nat :=
  let vs := (tv.patchLocal lx ly it).map fun p => clampUnreached (tv.value p)
  match agg with
  | .center =>
    let s := tv.vi.stateAt ⟨lx, ly, it⟩
    if s.free then clampUnreached s.totalCost else maxCost
  | .max => if vs.isEmpty then maxCost else vs.foldl max 0
  | .mean =>
    let reached := vs.filter fun v => v < maxCost
    if vs.isEmpty then maxCost
    else if reached.length > 0 then reached.sum / reached.length else maxCost

/-- One update of a pass: the updates counted and the largest change so far. -/
def sweepState (acc : TileVi × Nat × Nat) (p : Pos) : TileVi × Nat × Nat :=
  let before := clampUnreached (acc.1.value p)
  let r := acc.1.vi.valueIterationRaw p
  let tv := { acc.1 with vi := r.1 }
  (tv, if r.2 > 0 then acc.2.1 + 1 else acc.2.1,
    max acc.2.2 (absDiff before (clampUnreached (tv.value p))))

/-- The watched values after a pass and whether all of them stood still. -/
def watchValues (watch : List Pos) (prev : List Nat) : List Nat × Bool :=
  let now := List.zipWith (fun p old =>
    let v := clampUnreached (tv.value p)
    if absDiff v old > 2 then (v, false) else (old, true)) watch prev
  (now.map (·.1), now.all (·.2))

structure GsState where
  tv : TileVi
  prevWatch : List Nat
  stable : Nat
  updates : Nat

/-- One pass of `solve_gs`, the `pass`-th. -/
def gsPass (watch : Option (List Pos)) (pass : Nat) (st : GsState) : GsState :=
  let r := (passOrder st.tv.side.toNat st.tv.vi.dims.nt (pass % 2 == 0)).foldl sweepState
    (st.tv, st.updates, 0)
  let w := r.1.watchValues (watch.getD []) st.prevWatch
  let stableNow := match watch with
    | some _ => w.2 && decide (2 ≤ pass) &&
        ((w.1.any fun v => decide (v < reachThresh)) || decide (r.2.2 ≤ 2))
    | none => decide (r.2.2 ≤ 2)
  ⟨r.1, w.1, if stableNow then st.stable + 1 else 0, r.2.1⟩

/-- The passes still allowed, stopping at two stable ones in a row. -/
def gsLoop (watch : Option (List Pos)) : Nat → Nat → GsState → GsState
  | 0, _, st => st
  | left + 1, pass, st =>
    let st := gsPass watch pass st
    if st.stable ≥ 2 then st else gsLoop watch left (pass + 1) st

/-- `solve_gs`: the solved window and the number of updates. -/
def solveGs (watch : Option (List Pos)) : TileVi × Nat :=
  let prev := (watch.getD []).map fun p => clampUnreached (tv.value p)
  let st := gsLoop watch tileMaxIter 0 ⟨tv, prev, 0, 0⟩
  (st.tv, st.updates)

/-- One state of `polish_decrease_only`, with the number of real changes. -/
def polishState (acc : TileVi × Nat) (p : Pos) : TileVi × Nat :=
  match acc.1.vi.minActionCost p with
  | none => acc
  | some u =>
    let s := acc.1.vi.stateAt p
    if u.1 < s.totalCost then
      (acc.1.setState p (s.withUpdate u),
        if absDiff (clampUnreached s.totalCost) (clampUnreached u.1) > 2 then acc.2 + 1 else acc.2)
    else acc

def polishLoop : Nat → Nat → TileVi × Nat → TileVi × Nat
  | 0, _, acc => acc
  | left + 1, pass, acc =>
    let r := (passOrder acc.1.side.toNat acc.1.vi.dims.nt (pass % 2 == 0)).foldl polishState
      (acc.1, 0)
    if r.2 == 0 then (r.1, acc.2) else polishLoop left (pass + 1) (r.1, acc.2 + r.2)

def polishDecreaseOnly : TileVi × Nat := polishLoop tileMaxIter 0 (tv, 0)

/-- What no operation changes: the side, the dimensions and the transitions. -/
def frame : Int × Dims × List Action := (tv.side, tv.vi.table)

@[simp] theorem frame_hydrate (src : ValueIterator) (x0 y0 : Int) :
    (tv.hydrate src x0 y0).frame = tv.frame := rfl

@[simp] theorem frame_setState (p : Pos) (s : State) : (tv.setState p s).frame = tv.frame := rfl

@[simp] theorem frame_pin (p : Pos) (cost : Nat) : (tv.pin p cost).frame = tv.frame := rfl

@[simp] theorem frame_pinPatchState (cost : Nat) (p : Pos) :
    (pinPatchState cost tv p).frame = tv.frame := by
  unfold pinPatchState
  simp only
  split
  · rfl
  · split <;> rfl

@[simp] theorem frame_pinPatch (lx ly it : Int) (cost : Nat) :
    (tv.pinPatch lx ly it cost).frame = tv.frame :=
  foldl_keeps frame (fun tv p => frame_pinPatchState tv cost p) _ tv

@[simp] theorem frame_sweepState (acc : TileVi × Nat × Nat) (p : Pos) :
    (sweepState acc p).1.frame = acc.1.frame := by
  have htable := ValueIterator.table_valueIterationRaw acc.1.vi p
  exact congrArg (Prod.mk acc.1.side) htable

@[simp] theorem frame_gsPass (watch : Option (List Pos)) (pass : Nat) (st : GsState) :
    (gsPass watch pass st).tv.frame = st.tv.frame :=
  foldl_keeps (fun acc : TileVi × Nat × Nat => acc.1.frame) frame_sweepState _
    (st.tv, st.updates, 0)

theorem frame_gsLoop (watch : Option (List Pos)) (left : Nat) : ∀ (pass : Nat) (st : GsState),
    (gsLoop watch left pass st).tv.frame = st.tv.frame := by
  induction left with
  | zero => exact fun _ _ => rfl
  | succ left ih =>
    intro pass st
    unfold gsLoop
    simp only
    split
    · exact frame_gsPass watch pass st
    · exact (ih (pass + 1) (gsPass watch pass st)).trans (frame_gsPass watch pass st)

@[simp] theorem frame_solveGs (watch : Option (List Pos)) :
    (tv.solveGs watch).1.frame = tv.frame := frame_gsLoop watch _ _ _

@[simp] theorem frame_polishState (acc : TileVi × Nat) (p : Pos) :
    (polishState acc p).1.frame = acc.1.frame := by
  unfold polishState
  split
  · rfl
  · simp only
    split <;> rfl

theorem frame_polishLoop (left : Nat) : ∀ (pass : Nat) (acc : TileVi × Nat),
    (polishLoop left pass acc).1.frame = acc.1.frame := by
  induction left with
  | zero => exact fun _ _ => rfl
  | succ left ih =>
    intro pass acc
    have hpass := foldl_keeps (fun acc : TileVi × Nat => acc.1.frame) frame_polishState
      (passOrder acc.1.side.toNat acc.1.vi.dims.nt (pass % 2 == 0)) (acc.1, 0)
    unfold polishLoop
    simp only
    split
    · exact hpass
    · exact (ih (pass + 1) _).trans hpass

@[simp] theorem frame_polishDecreaseOnly : tv.polishDecreaseOnly.1.frame = tv.frame :=
  frame_polishLoop _ _ _

theorem hydrateTileState_congr (src : ValueIterator) (gx gy it : Int) (s s' : State) :
    hydrateTileState src gx gy it s = hydrateTileState src gx gy it s' := by
  unfold hydrateTileState
  split <;> rfl

/-- Nothing of the window's old contents is left after `hydrate`. -/
theorem hydrate_congr {tv tv' : TileVi} (h : tv.frame = tv'.frame) (src : ValueIterator)
    (x0 y0 : Int) : tv.hydrate src x0 y0 = tv'.hydrate src x0 y0 := by
  obtain ⟨⟨⟨dims, cells, size⟩, actions, wellFormed⟩, side⟩ := tv
  obtain ⟨⟨⟨dims', cells', size'⟩, actions', wellFormed'⟩, side'⟩ := tv'
  obtain ⟨rfl, htable⟩ := Prod.mk.inj h
  obtain ⟨hdims, hactions⟩ := Prod.mk.inj htable
  change dims = dims' at hdims
  change actions = actions' at hactions
  subst hdims
  subst hactions
  have hstates : (fun p : Pos => hydrateTileState src (x0 + p.ix) (y0 + p.iy) p.it
      (ValueIterator.stateAt ⟨⟨dims, cells, size⟩, actions, wellFormed⟩ p)) =
      fun p : Pos => hydrateTileState src (x0 + p.ix) (y0 + p.iy) p.it
        (ValueIterator.stateAt ⟨⟨dims, cells', size'⟩, actions, wellFormed'⟩ p) := by
    funext p
    exact hydrateTileState_congr src _ _ _ _ _
  simp only [hydrate, ValueIterator.withStates, hstates]
  rfl

end TileVi

end ValueIteration
