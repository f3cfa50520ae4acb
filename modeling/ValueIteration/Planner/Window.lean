import Mathlib.Algebra.Order.Floor.Ring
import Mathlib.Algebra.Order.Round
import ValueIteration.ModelWorld

/-!
# The local window of a value iterator

`ValueIteratorLocal`: a value iterator with a window around the robot. The
window has a shape, receives scan penalties and margin bands, and is the part of
the field that the follow loop refines. Lengths and angles are exact: they live
in an ordered field with a floor, and `cos` and `sin` are any two functions.
-/

set_option autoImplicit false

namespace ValueIteration

-- the numerals the constants are written with
instance instAtLeastTwoTwo : Nat.AtLeastTwo 2 := ⟨le_refl 2⟩
instance instAtLeastTwoThree : Nat.AtLeastTwo 3 := ⟨Nat.le_succ 2⟩
instance instAtLeastTwoTen : Nat.AtLeastTwo 10 := ⟨Nat.le_add_left 2 8⟩

/-- The two trigonometric functions the code calls. -/
class Trig (K : Type) where
  cos : K → K
  sin : K → K

inductive LocalShape where
  | square
  | circle
  | ellipse
  | capsule
  deriving DecidableEq, Repr

namespace LocalShape

/-- `Square` alone is fixed to the map's axes. -/
def oriented : LocalShape → Bool
  | square => false
  | _ => true

def dynamic : LocalShape → Bool
  | ellipse | capsule => true
  | _ => false

end LocalShape

structure LocalShapeConfig (K : Type) where
  shape : LocalShape
  rangeM : K
  latM : K
  ratioMax : K
  slewM : K
  fwRefM : K
  deriving DecidableEq

structure LaserScan (K : Type) where
  angleMin : K
  angleIncrement : K
  ranges : List K
  deriving DecidableEq

structure PoseView (K : Type) where
  x : K
  y : K
  yawRad : K
  deriving DecidableEq

/-- The map geometry of the base iterator is kept beside its states. -/
structure ValueIteratorLocal (K : Type) where
  base : ValueIterator
  xyResolution : K
  mapOrigin : K × K
  scanPenaltyRadius : K
  scanPenalty : Nat
  localIxMin : Int
  localIxMax : Int
  localIyMin : Int
  localIyMax : Int
  localIxyRange : Int
  shape : LocalShapeConfig K
  aFwd : K
  aBwd : K
  lat : K
  center : K × K
  cosT : K
  sinT : K
  prevXy : Option (K × K)
  clearMapFromScan : Bool
  safetyRadius : K
  safetyRadiusPenalty : K
  obstacleDist : List Nat
  deriving DecidableEq

variable {K : Type} [Field K] [LinearOrder K] [FloorRing K]

/-- `as i32`: rounds toward zero. -/
def truncate (x : K) : Int := if 0 ≤ x then ⌊x⌋ else ⌈x⌉

/-- `as u64`: negative numbers give 0, large ones saturate. -/
def saturate (x : K) : Nat := min ⌊x⌋.toNat (word - 1)

/-- `as u16`. -/
def saturateU16 (x : K) : Nat := min ⌊x⌋.toNat 65535

/-- The cell of a coordinate: `((l - o) / res).floor()`. -/
def cellOf (l o res : K) : Int := ⌊(l - o) / res⌋

namespace LocalShapeConfig

def lat (c : LocalShapeConfig K) : K := if 0 < c.latM then c.latM else c.rangeM

def radiiCells (c : LocalShapeConfig K) (res : K) : Int × Int :=
  if c.shape.oriented then
    let m := truncate (max (c.rangeM * max c.ratioMax 1) c.lat / res)
    (m, m)
  else (truncate (c.rangeM / res), truncate (c.lat / res))

def minRadiusM (c : LocalShapeConfig K) : K :=
  let fore := if c.shape.dynamic then c.rangeM / max c.ratioMax 1 else c.rangeM
  min fore c.lat

def bboxCells (c : LocalShapeConfig K) (res : K) : Int :=
  max (c.radiiCells res).1 (c.radiiCells res).2

end LocalShapeConfig

namespace ValueIterator

/-- Apply `f` to every heading of a column. -/
def mapColumn (vi : ValueIterator) (f : State → State) (c : Int × Int) : ValueIterator :=
  (List.range vi.dims.nt).foldl
    (fun v (it : Nat) => v.setState ⟨c.1, c.2, it⟩ (f (v.stateAt ⟨c.1, c.2, it⟩))) vi

end ValueIterator

namespace ValueIteratorLocal

variable (l : ValueIteratorLocal K)

def rectRadii : Int × Int := l.shape.radiiCells l.xyResolution

/-- `set_local_shape`; the window starts at the map's corner. -/
def setLocalShape (cfg : LocalShapeConfig K) : ValueIteratorLocal K :=
  let a := cfg.rangeM / l.xyResolution
  let r := cfg.radiiCells l.xyResolution
  { l with
    shape := cfg
    aFwd := a
    aBwd := a
    lat := cfg.lat / l.xyResolution
    prevXy := none
    localIxyRange := max r.1 r.2
    localIxMin := 0
    localIyMin := 0
    localIxMax := r.1 * 2
    localIyMax := r.2 * 2 }

/-- `f64::EPSILON`. -/
def epsilon : K := 1 / 2 ^ 52

/-- The shape mask at a cell of the bounding rectangle. -/
def inShape (ix iy : Int) : Bool :=
  let dx := (ix : K) + 1 / 2 - l.center.1
  let dy := (iy : K) + 1 / 2 - l.center.2
  let fx := dx * l.cosT + dy * l.sinT
  let fy := -dx * l.sinT + dy * l.cosT
  let b := max l.lat epsilon
  match l.shape.shape with
  | .square => true
  | .circle | .ellipse =>
    let a := max (if 0 ≤ fx then l.aFwd else l.aBwd) epsilon
    decide ((fx / a) ^ 2 + (fy / b) ^ 2 ≤ 1)
  | .capsule =>
    let c := max (-max (l.aBwd - b) 0) (min fx (max (l.aFwd - b) 0))
    decide ((fx - c) ^ 2 + fy * fy ≤ b * b)

/-- `in_local_area`: the one definition of the window. -/
def inLocalArea (ix iy : Int) : Bool :=
  if ix < l.localIxMin ∨ l.localIxMax < ix ∨ iy < l.localIyMin ∨ l.localIyMax < iy then false
  else if !l.shape.shape.oriented then true
  else l.inShape ix iy

def windowXs : List Int := span l.localIxMin l.localIxMax

def windowYs : List Int := span l.localIyMin l.localIyMax

/-- The cells of the window, `y` outside and `x` inside. -/
def windowRows : List (Int × Int) :=
  (l.windowYs.flatMap fun y => l.windowXs.map fun x => (x, y)).filter fun c => l.inLocalArea c.1 c.2

/-- The cells of the window, `x` outside and `y` inside. -/
def windowColumns : List (Int × Int) :=
  (l.windowXs.flatMap fun x => l.windowYs.map fun y => (x, y)).filter fun c => l.inLocalArea c.1 c.2

/-- Ticks whose forward displacement is below this many cells keep the axes. -/
def deadbandCells : K := 3 / 10

variable [Trig K]

def updateAxes (x y yaw : K) : ValueIteratorLocal K :=
  let cfg := l.shape
  let l' := { l with prevXy := some (x, y) }
  if !cfg.shape.dynamic ∨ cfg.ratioMax ≤ 1 ∨ cfg.fwRefM ≤ 0 then l' else
  match l.prevXy with
  | none => l'
  | some (px, py) =>
    let res := l.xyResolution
    let disp := (x - px) * Trig.cos yaw + (y - py) * Trig.sin yaw
    if |disp| < deadbandCells * res then l' else
    let v := max (-1) (min (disp / cfg.fwRefM) 1)
    let r := cfg.rangeM
    let lo := r / cfg.ratioMax
    let hi := min (2 * r - lo) (r * cfg.ratioMax)
    let target := max lo (min (r * (1 + (cfg.ratioMax - 1) * v)) hi)
    let cur := l.aFwd * res
    let next := if 0 < cfg.slewM then max (cur - cfg.slewM) (min target (cur + cfg.slewM))
      else target
    { l' with aFwd := next / res, aBwd := (2 * r - next) / res }

/-- `set_local_window`: the bounding rectangle is clipped to the base's cells. -/
def setLocalWindow (x y t : K) : ValueIteratorLocal K :=
  let l' := l.updateAxes x y t
  let res := l'.xyResolution
  let center := ((x - l'.mapOrigin.1) / res, (y - l'.mapOrigin.2) / res)
  let ix := ⌊center.1⌋
  let iy := ⌊center.2⌋
  let r := l'.rectRadii
  { l' with
    center := center
    cosT := Trig.cos t
    sinT := Trig.sin t
    localIxMin := if 0 ≤ ix - r.1 then ix - r.1 else 0
    localIyMin := if 0 ≤ iy - r.2 then iy - r.2 else 0
    localIxMax := if ix + r.1 < l'.base.dims.nx then ix + r.1 else l'.base.dims.nx - 1
    localIyMax := if iy + r.2 < l'.base.dims.ny then iy + r.2 else l'.base.dims.ny - 1 }

end ValueIteratorLocal

/-- The walk along one beam: `visit` is called every `step`, from `s` on and
before `stop`, until it refuses. In exact arithmetic `⌈stop / step⌉` rounds are
enough to reach `stop`. -/
def walkBeam {σ : Type} (visit : σ → K → K → σ × Bool) (x y ca sa step stop : K) :
    Nat → K → σ → σ
  | 0, _, st => st
  | n + 1, s, st =>
    if s < stop then
      let r := visit st (x + s * ca) (y + s * sa)
      if r.2 then walkBeam visit x y ca sa step stop n (s + step) r.1 else r.1
    else st

section
variable [Trig K]

def walkBeams {σ : Type} (msg : LaserScan K) (x y t step stopBack : K)
    (visit : σ → K → K → σ × Bool) (st : σ) : σ :=
  (List.range msg.ranges.length).foldl (fun st (i : Nat) =>
    let a := t + msg.angleIncrement * i + msg.angleMin
    let stop := msg.ranges.getD i 0 - stopBack
    walkBeam visit x y (Trig.cos a) (Trig.sin a) step stop ⌈stop / step⌉.toNat step st) st

end

namespace ValueIteratorLocal

variable (l : ValueIteratorLocal K)

def mapColumn (f : State → State) (c : Int × Int) : ValueIteratorLocal K :=
  { l with base := l.base.mapColumn f c }

/-- One cell of the halving walk. -/
def halve (c : Int × Int) : ValueIteratorLocal K :=
  if l.inLocalArea c.1 c.2 then
    l.mapColumn (fun s => { s with localPenalty := s.localPenalty / 2 }) c
  else l

/-- One cell of the hit band. -/
def inject (v : Nat) (c : Int × Int) : ValueIteratorLocal K :=
  if l.inLocalArea c.1 c.2 then l.mapColumn (fun s => { s with localPenalty := v }) c else l

/-- One cell of the clearing walk; `false` ends the beam. -/
def clearCell (c : Int × Int) : ValueIteratorLocal K × Bool :=
  if l.inLocalArea c.1 c.2 then
    (l.mapColumn (fun s => { s with free := true, penalty := probBase }) c, true)
  else (l, false)

variable [Trig K]

/-- The cells of one beam that lose half of their penalty: nine points before the hit. -/
def halvedCells (x y r a : K) : List (Int × Int) :=
  (List.range 9).map fun (k : Nat) =>
    let d := ((k : K) + 1) / 10
    (cellOf (x + r * Trig.cos a * d) l.mapOrigin.1 l.xyResolution,
      cellOf (y + r * Trig.sin a * d) l.mapOrigin.2 l.xyResolution)

/-- The square of cells around the hit of one beam. -/
def hitCells (x y r a : K) : List (Int × Int) :=
  let ix := cellOf (x + r * Trig.cos a) l.mapOrigin.1 l.xyResolution
  let iy := cellOf (y + r * Trig.sin a) l.mapOrigin.2 l.xyResolution
  let radius := ⌈l.scanPenaltyRadius / l.xyResolution⌉
  (span (ix - radius) (ix + radius)).flatMap fun iix =>
    (span (iy - radius) (iy + radius)).map fun iiy => (iix, iiy)

/-- `scan_penalty >> shift.min(63)`, at least 1 unless the injection is off. -/
def strength (shift : Nat) : Nat :=
  if l.scanPenalty = 0 then 0 else max (l.scanPenalty >>> min shift 63) 1

def setLocalCostAttenuated (msg : LaserScan K) (x y t : K) (shift : Nat) :
    ValueIteratorLocal K :=
  let inj := (l.strength shift * probBase) % word
  let marked := (List.range msg.ranges.length).foldl (fun l (i : Nat) =>
    let a := t + msg.angleIncrement * i + msg.angleMin
    let r := msg.ranges.getD i 0
    let l := (l.halvedCells x y r a).foldl halve l
    (l.hitCells x y r a).foldl (inject · inj) l) l
  if marked.clearMapFromScan then
    let res := marked.xyResolution
    walkBeams msg x y t (res * (1 / 2)) res (fun l wx wy =>
      l.clearCell (cellOf wx l.mapOrigin.1 res, cellOf wy l.mapOrigin.2 res)) marked
  else marked

end ValueIteratorLocal

/-- One cell of a chamfer pass: the least neighbour plus one, saturating. -/
def chamferStep (d : List Nat) (i : Nat) (near : List Nat) : List Nat :=
  d.set i (near.foldl (fun v j => min v (min (d.getD j 65535 + 1) 65535)) (d.getD i 65535))

/-- `dist_linf`: two chamfer passes over eight neighbours. -/
def distLinf (nx ny : Nat) (isObstacle : Nat → Nat → Bool) : List Nat :=
  let cells := (List.range ny).flatMap fun iy => (List.range nx).map fun ix => (ix, iy)
  let start := cells.map fun c => if isObstacle c.1 c.2 then 0 else 65535
  let forward := cells.foldl (fun d c =>
    let i := c.2 * nx + c.1
    chamferStep d i ((if 0 < c.1 then [i - 1] else []) ++
      if 0 < c.2 then [i - nx] ++ (if 0 < c.1 then [i - nx - 1] else []) ++
        (if c.1 + 1 < nx then [i - nx + 1] else []) else [])) start
  cells.reverse.foldl (fun d c =>
    let i := c.2 * nx + c.1
    chamferStep d i ((if c.1 + 1 < nx then [i + 1] else []) ++
      if c.2 + 1 < ny then [i + nx] ++ (if c.1 + 1 < nx then [i + nx + 1] else []) ++
        (if 0 < c.1 then [i + nx - 1] else []) else [])) forward

example : distLinf 4 2 (fun x y => x == 0 && y == 1) = [1, 1, 2, 3, 0, 1, 2, 3] := by decide

namespace ValueIteratorLocal

variable (l : ValueIteratorLocal K)

/-- `ensure_obstacle_dist`: measured once, from the states as they are then. -/
def ensureObstacleDist : ValueIteratorLocal K :=
  if l.obstacleDist.isEmpty then
    { l with obstacleDist := distLinf l.base.dims.nx l.base.dims.ny fun ix iy =>
        !(l.base.stateAt ⟨ix, iy, 0⟩).free }
  else l

/-- `inflate_by_sigma`: a penalty band outside the static margin. -/
def inflateBySigma (extraM : K) : ValueIteratorLocal K :=
  if extraM ≤ 0 then l else
  let l := l.ensureObstacleDist
  let m0 := saturateU16 (⌈l.safetyRadius / l.xyResolution⌉ : K)
  let m1 := min (m0 + saturateU16 (⌈extraM / l.xyResolution⌉ : K)) 65535
  let pen := saturate (l.safetyRadiusPenalty * (probBase : K))
  l.windowColumns.foldl (fun (l : ValueIteratorLocal K) (c : Int × Int) =>
    let d := l.obstacleDist.getD (c.2 * l.base.dims.nx + c.1).toNat 65535
    if d ≤ m0 ∨ m1 < d then l
    else l.mapColumn (fun s => { s with localPenalty := max s.localPenalty pen }) c) l

end ValueIteratorLocal

end ValueIteration
