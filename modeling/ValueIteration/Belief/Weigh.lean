import ValueIteration.Belief.Transport

/-!
# Weighing the histogram by a scan

`sum_observe` multiplies the active cells by the likelihood of the beams and prunes;
`vit_observe` adds costs to `delta` and reads the histogram back from it. `mix_uniform`
spreads half of the belief over the free poses.
-/

set_option autoImplicit false

namespace ValueIteration

variable {K : Type} [Field K] [LinearOrder K] [FloorRing K]

def lostEvidencePow : Int := 8

def matchAnnealM : K := 1 / 2

/-- A likelihood for each beam and quantised distance. -/
abbrev Lut (K : Type) := List (Nat → K)

namespace Belief

variable (s : Belief K)

def annealPow : Int := min (max (1 + truncate (s.moveSinceMatch / matchAnnealM)) 1) lostEvidencePow

/-- The neutral likelihood of a beam that ends in the unknown. -/
def unkL : K := s.cfg.zMin + (1 - s.cfg.zMin) * unknownL

variable [Analytic K]

def resetFloorLn : K :=
  Analytic.ln (max ((s.poseCount : K) * resetMix / (1 - resetMix)) 1)

def lostLut (beams : List (K × K)) (extraSigmaM : K) : Lut K :=
  let mInv := 1 / (beams.length : K)
  beams.map fun beam d =>
    let sigma := s.cfg.sensorSigmaM + s.cfg.lostSigmaPerM * beam.2 + extraSigmaM
    let dm := (d : K) * s.field.res
    let l := Analytic.exp (-dm * dm * (1 / (2 * sigma * sigma)))
    Analytic.powf (s.cfg.zMin + (1 - s.cfg.zMin) * l) mInv

/-- The beams seen from one pose: the product of their likelihoods, and how many of them
end in a known cell. -/
def castBeams (lut : Option (Lut K)) (beams : List (K × K)) (p : Pos) : K × Nat :=
  let q := s.poseOf p
  let ct := Trig.cos q.yawRad
  let st := Trig.sin q.yawRad
  beams.zipIdx.foldl (fun acc e =>
    let cb := Trig.cos e.1.1
    let sb := Trig.sin e.1.1
    let px := q.x + e.1.2 * (ct * cb - st * sb)
    let py := q.y + e.1.2 * (st * cb + ct * sb)
    match lut with
    | some t =>
      match s.field.knownDist px py with
      | some d => (acc.1 * (t.getD e.2 fun _ => 1) d, acc.2 + 1)
      | none => acc
    | none =>
      let lb := s.cfg.zMin + (1 - s.cfg.zMin) * s.field.likelihood px py
      (acc.1 * (if lb < s.unkL ∧ s.field.unkAt px py then s.unkL else lb), acc.2)) (1, 0)

/-- The match quality of a pose and the factor of its weight. -/
def fit (lut : Option (Lut K)) (beams : List (K × K)) (p : Pos) : K × K :=
  let m := (beams.length : K)
  let cast := s.castBeams lut beams p
  if lut.isSome then
    let known := (cast.2 : K)
    let gm := if cast.2 ≥ lostMinKnown then Analytic.powf cast.1 (m / known) else s.unkL
    let bw :=
      if s.cfg.globalMatch then
        Analytic.powf (cast.1 * Analytic.powf s.unkL ((m - known) * (1 / m))) (s.annealPow : K)
      else gm
    (gm, bw)
  else (Analytic.powf cast.1 (1 / m), cast.1)

/-- One visit of the weighing pass of `sum_observe`. -/
def weighCell (lut : Option (Lut K)) (beams : List (K × K)) (p : Pos) (w : K) : K × Bool :=
  if w ≤ 0 then (w, false)
  else if s.freeAt p then (w * (s.fit lut beams p).2, true)
  else (0, false)

def sumObserve (lut : Option (Lut K)) (beams : List (K × K)) : Belief K × K :=
  let seen := s.active.filter fun p => ¬ s.b p ≤ 0 ∧ s.freeAt p
  let quality := (seen.map fun p => s.b p * (s.fit lut beams p).1).sum
  let r := Sparse.retain (s.weighCell lut beams) s.active s.b
  let thr := maxWeight (r.2.map r.1) * s.cfg.weightSkipRatio
  let kept := Sparse.retain (fun _ x => if x ≤ thr then (0, false) else (x, true)) r.2 r.1
  ({ s with b := kept.1, active := kept.2 }.normalizeActive, quality)

/-- A cost is the negative log of a likelihood; likelihood 0 costs `⊤`. -/
def cost (l : K) : WithTop K := if l ≤ 0 then ⊤ else ((-Analytic.ln l : K) : WithTop K)

def minDelta (delta : Pos → WithTop K) : WithTop K := (s.dims.planes.map delta).foldl min ⊤

/-- Whether the pruning of `vit_observe` keeps a cell. The source subtracts, so that two
infinities fail the comparison. -/
def near (dmin : WithTop K) (thr : K) (d : WithTop K) : Prop := d ≠ ⊤ ∧ d ≤ dmin + (thr : WithTop K)

instance (dmin : WithTop K) (thr : K) (d : WithTop K) : Decidable (near dmin thr d) := by
  unfold near
  infer_instance

/-- Read the histogram back from `delta`, `b = exp (δmin - δ)`. Where every cell is out
of reach the belief starts over, uniform on the free poses. -/
def materialize (delta : Pos → WithTop K) : Belief K :=
  match s.minDelta delta with
  | (dmin : K) =>
    let w (p : Pos) : K :=
      match delta p with
      | (d : K) => Analytic.exp (dmin - d)
      | ⊤ => 0
    { s with
      delta := delta
      b := fun p => if s.dims.Contains p then w p else s.b p
      active := s.dims.planes.filter fun p => 0 < w p }
  | ⊤ =>
    { s with
      delta := fun p => if s.dims.Contains p then (if s.freeAt p then 0 else ⊤) else delta p
      b := fun p => if s.dims.Contains p then (if s.freeAt p then 1 else 0) else s.b p
      active := s.freePoses }

def vitObserve (lut : Option (Lut K)) (beams : List (K × K)) : Belief K × K :=
  let thr := max (-Analytic.ln (max s.cfg.weightSkipRatio (1 / 10 ^ 30))) s.resetFloorLn
  let dmin := s.minDelta s.delta
  let kept (p : Pos) : Prop := near dmin thr (s.delta p) ∧ s.freeAt p
  let seen := s.dims.planes.filter fun p => kept p
  let quality := (seen.map fun p => s.b p * (s.fit lut beams p).1).sum
  let delta : Pos → WithTop K := fun p =>
    if s.dims.Contains p then
      if kept p then s.delta p + cost (s.fit lut beams p).2 else ⊤
    else s.delta p
  ((s.materialize delta).normalizeActive, quality)

def mixUniform : Belief K :=
  if s.nFree = 0 then s
  else if s.cfg.viterbi then
    match (s.active.map s.delta).foldl min ⊤ with
    | ⊤ => s
    | (dmin : K) =>
      let floor : WithTop K := ((dmin + s.resetFloorLn : K) : WithTop K)
      let mixed (p : Pos) : WithTop K := min (s.delta p) floor
      let weight (p : Pos) : K := Analytic.exp (dmin - (mixed p).untopD 0)
      { { s with
          delta := Sparse.modify (fun p _ => mixed p) s.freePoses s.delta
          b := Sparse.modify (fun p _ => weight p) s.freePoses s.b
          active := s.freePoses }.normalizeActive with qEwma := s.cfg.resetQuality }
  else
    let halved := Sparse.modify (fun _ w => w * (1 - resetMix)) s.active s.b
    { s with
      b := Sparse.modify (fun _ w => w + uniformShare s.poseCount) s.freePoses halved
      active := s.freePoses
      qEwma := s.cfg.resetQuality }

end Belief

end ValueIteration
