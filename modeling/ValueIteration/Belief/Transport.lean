import ValueIteration.Belief.State

/-!
# Moving the histogram

`flush` applies the motion collected since the last one. In the sum mode it scatters the
active cells along their headings and diffuses them; in the min-plus mode it shifts the
planes of `delta` by whole cells, with `scratch` for a temporary, and relaxes them.
-/

set_option autoImplicit false

namespace ValueIteration

variable {K : Type} [Field K] [LinearOrder K] [FloorRing K]

/-- `f64::round`: halves go away from zero. -/
def roundAway (x : K) : Int := if 0 ≤ x then ⌊x + 1 / 2⌋ else ⌈x - 1 / 2⌉

def blurA (sigmaCells : K) : K := sigmaCells * sigmaCells / 2

def vitLambdaXy : K := 4

def vitLambdaT : K := 4

/-- `delta[i] = min(delta[i], delta[j] + l)`. -/
def relaxEdge (l : K) (delta : Pos → WithTop K) (e : Pos × Pos) : Pos → WithTop K :=
  let p := delta e.2 + (l : WithTop K)
  if p < delta e.1 then Function.update delta e.1 p else delta

/-- The cells and neighbours of one axis, forward and back. -/
def sweepAxis (n : Nat) (cell : Nat → Pos) : List (Pos × Pos) :=
  ((List.range (n - 1)).map fun k => (cell (k + 1), cell k)) ++
    ((List.range (n - 1)).reverse.map fun k => (cell k, cell (k + 1)))

/-- The heading axis is a circle: two turns each way. -/
def sweepTurn (n : Nat) (cell : Nat → Pos) : List (Pos × Pos) :=
  ((List.range (2 * n - 1)).map fun k => (cell ((k + 1) % n), cell (k % n))) ++
    ((List.range (2 * n - 1)).reverse.map fun k => (cell (k % n), cell ((k + 1) % n)))

def minplusRelax (d : Dims) (lXy lT : K) (delta : Pos → WithTop K) : Pos → WithTop K :=
  let flat := (List.range d.nt).flatMap fun (it : Nat) =>
    ((List.range d.ny).flatMap fun (iy : Nat) => sweepAxis d.nx fun ix => ⟨ix, iy, it⟩) ++
      (List.range d.nx).flatMap fun (ix : Nat) => sweepAxis d.ny fun iy => ⟨ix, iy, it⟩
  let turn := (List.range d.ny).flatMap fun (iy : Nat) =>
    (List.range d.nx).flatMap fun (ix : Nat) => sweepTurn d.nt fun it => ⟨ix, iy, it⟩
  let moved := flat.foldl (relaxEdge lXy) delta
  if 1 < d.nt then turn.foldl (relaxEdge lT) moved else moved

namespace Belief

section
variable (s : Belief K)

/-- The cell at a lattice point, when the map has a free one there. -/
def openAt (x y t : Int) : Option Pos :=
  if x < 0 ∨ x ≥ s.dims.nx ∨ y < 0 ∨ y ≥ s.dims.ny then none
  else if s.freeAt ⟨x, y, t⟩ then some ⟨x, y, t⟩ else none

/-- Run a scatter pass and exchange the two buffers. -/
def scatterPass (emit : Pos → K → List (Pos × K)) : Belief K :=
  let r := Sparse.scatter emit s.active s.b s.scratch
  { s with
    b := fun p => (r.2.1 p).untopD 0
    scratch := fun p => (r.1 p : K)
    active := r.2.2
    trace := .scatter s.scratch :: s.trace }

/-- The targets of one cell in `diffuse_scatter`; the cell itself is free. -/
def diffuseTargets (aXy aT : K) (p : Pos) (w : K) : List (Pos × K) :=
  let wc := 1 - 4 * aXy - 2 * aT
  let beside := [(p.ix - 1, p.iy), (p.ix + 1, p.iy), (p.ix, p.iy - 1), (p.ix, p.iy + 1)]
  let turned := [(p.it + s.dims.nt - 1) % s.dims.nt, (p.it + 1) % s.dims.nt]
  (p, w * wc) :: (beside.filterMap fun c => (s.openAt c.1 c.2 p.it).map (·, w * aXy)) ++
    if 0 < aT then turned.map fun jt => (⟨p.ix, p.iy, jt⟩, w * aT) else []

def diffuseScatter (aXy aT : K) : Belief K := s.scatterPass (s.diffuseTargets aXy aT)

end

section
variable [Analytic K] (s : Belief K)

/-- The targets of one cell in `shift_scatter`, with their trilinear weights. -/
def shiftTargets (pf ptDeg : K) (p : Pos) (w : K) : List (Pos × K) :=
  let ft := ptDeg / s.tResDeg
  let th := s.thetaCenter p.it
  let ux := (p.ix : K) + pf * Trig.cos th / s.res
  let uy := (p.iy : K) + pf * Trig.sin th / s.res
  let ut := (p.it : K) + ft
  let split (u : K) : List (Int × K) := [(⌊u⌋, 1 - (u - ⌊u⌋)), (⌊u⌋ + 1, u - ⌊u⌋)]
  (split ut).flatMap fun (t, wt) => if wt ≤ 0 then [] else
    (split uy).flatMap fun (y, wy) => if wy ≤ 0 then [] else
      (split ux).flatMap fun (x, wx) => if wx ≤ 0 then [] else
        match s.openAt x y (t % s.dims.nt) with
        | none => []
        | some q => [(q, w * (wt * wy * wx))]

def shiftScatter (pf ptDeg : K) : Belief K := s.scatterPass (s.shiftTargets pf ptDeg)

/-- `minplus_shift`: the planes move by whole cells, then the headings turn. -/
def minplusShift (pf ptDeg : K) : Belief K :=
  let tmp : Pos → WithTop K := fun p =>
    if s.dims.Contains p then
      let th := s.thetaCenter p.it
      let sx := p.ix - roundAway (pf * Trig.cos th / s.res)
      let sy := p.iy - roundAway (pf * Trig.sin th / s.res)
      if sx ≥ 0 ∧ sx < s.dims.nx ∧ sy ≥ 0 ∧ sy < s.dims.ny then s.delta ⟨sx, sy, p.it⟩ else ⊤
    else s.scratch p
  let rt := roundAway (ptDeg / s.tResDeg) % s.dims.nt
  { s with
    delta := fun p =>
      if s.dims.Contains p then tmp ⟨p.ix, p.iy, (p.it - rt) % s.dims.nt⟩ else s.delta p
    scratch := tmp
    trace := .shift :: s.trace }

/-- Whether `flush` shifts in the min-plus mode: less than half a cell and half a heading
bin is dropped. -/
def Shifts : Prop := |s.pendF| ≥ 1 / 2 * s.res ∨ |s.pendRotDeg| ≥ 1 / 2 * s.tResDeg

instance : Decidable s.Shifts := by
  unfold Shifts
  infer_instance

def flushMinplus : Belief K :=
  let shifted := if s.Shifts then s.dropPending.minplusShift s.pendF s.pendRotDeg else s.dropPending
  { shifted with delta := minplusRelax s.dims vitLambdaXy vitLambdaT shifted.delta }

def flushSum : Belief K :=
  if s.pendTicks = 0 ∧ s.pendF = 0 ∧ s.pendRotDeg = 0 then s.dropPending
  else
    let shifted :=
      if s.pendF ≠ 0 ∨ s.pendRotDeg ≠ 0 then s.dropPending.shiftScatter s.pendF s.pendRotDeg
      else s.dropPending
    let aXy := blurA (s.cfg.motionSigmaXyM / s.res) * s.pendTicks
    let aT := if 2 < s.dims.nt then blurA (s.cfg.motionSigmaThetaDeg / s.tResDeg) * s.pendTicks else 0
    let diffused :=
      if 0 < aXy ∨ 0 < aT then
        let passes := max ⌈(4 * aXy + 2 * aT) / (1 / 2)⌉.toNat 1
        (List.range passes).foldl
          (fun s _ => s.diffuseScatter (aXy / (passes : Nat)) (aT / (passes : Nat))) shifted
      else shifted
    diffused.normalizeActive.recomputeEss

def flush : Belief K := if s.cfg.viterbi then s.flushMinplus else s.flushSum

end

end Belief

end ValueIteration
