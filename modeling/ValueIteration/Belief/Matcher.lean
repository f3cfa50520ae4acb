import ValueIteration.Belief.Weigh

/-!
# Global scan matching

A lost filter proposes poses from one scan: every block of free cells and every heading is
scored at the centre of the block, the best branches are scored cell by cell, and each
names its best cell. `reseed_with` spreads the candidates over their neighbours in
`scratch` and adds what it collected to the belief.
-/

set_option autoImplicit false

namespace ValueIteration

variable {K : Type} [Field K] [LinearOrder K] [FloorRing K]

def matchStrideCells : Nat := 8

def matchBranches : Nat := 16384

def localRematchRM : K := 5

/-- The axis weights of the blob around a candidate. -/
def blobAxis : List (Int × K) := [(-1, 1 / 2), (0, 1), (1, 1 / 2)]

namespace Belief

section
variable (s : Belief K)

/-- The cells of a block, row by row. -/
def blockCells (block : Cell) : List Cell :=
  let ny := min (matchStrideCells : Int) (s.dims.ny - block.2)
  let nx := min (matchStrideCells : Int) (s.dims.nx - block.1)
  (List.range ny.toNat).flatMap fun (dy : Nat) =>
    (List.range nx.toNat).map fun (dx : Nat) => (block.1 + dx, block.2 + dy)

/-- `build_match_pool`: the blocks with a free cell. -/
def buildMatchPool : List Cell :=
  let starts (n : Nat) : List Nat :=
    (List.range ((n + matchStrideCells - 1) / matchStrideCells)).map (· * matchStrideCells)
  ((starts s.dims.ny).flatMap fun (y : Nat) => (starts s.dims.nx).map fun (x : Nat) =>
    ((x, y) : Cell)).filter fun block => (s.blockCells block).any s.free

/-- The blob of one candidate: the free cells among its neighbours, with their weights. -/
def blob (cand : K × Pos) : List (Pos × K) :=
  let p := cand.2
  blobAxis.flatMap fun (dt, wt) => blobAxis.flatMap fun (dy, wy) =>
    blobAxis.filterMap fun (dx, wx) =>
      (s.openAt (p.ix + dx) (p.iy + dy) ((p.it + dt + s.dims.nt) % s.dims.nt)).map
        (·, cand.1 * wt * wy * wx)

end

variable [Analytic K] (s : Belief K)

/-- The score of a point and heading: the geometric mean of the beams that end in a known
cell. -/
def scoreAt (lut : Lut K) (beams : List (K × K)) (wx wy : K) (it : Int) : K :=
  let cast := beams.zipIdx.foldl (fun (acc : K × Nat) e =>
    let a := s.thetaCenter it + e.1.1
    match s.field.knownDist (wx + e.1.2 * Trig.cos a) (wy + e.1.2 * Trig.sin a) with
    | some d => (acc.1 * (lut.getD e.2 fun _ => 1) d, acc.2 + 1)
    | none => acc) (1, 0)
  if cast.2 ≥ lostMinKnown then Analytic.powf cast.1 ((beams.length : K) / (cast.2 : K)) else s.unkL

/-- The best free cell of a branch, the first among equals. -/
def branchWinner (lut : Lut K) (beams : List (K × K)) (block : Cell) (it : Nat) :
    Option (K × Pos) :=
  ((s.blockCells block).filter s.free).foldl (fun best c =>
    let mid := s.cellCenter c.1 c.2
    let sc := s.scoreAt lut beams mid.1 mid.2 it
    match best with
    | none => some (sc, ⟨c.1, c.2, it⟩)
    | some w => if sc > w.1 then some (sc, ⟨c.1, c.2, it⟩) else some w) none

/-- `match_candidates`; `window` narrows the search to the blocks near a point. The pool of
blocks is built at the first match and kept. -/
def matchCandidates (beams : List (K × K)) (window : Option (K × K)) :
    Belief K × List (K × Pos) :=
  let pool := s.matchPool.getD s.buildMatchPool
  let blockR := (matchStrideCells : K) * s.res * Analytic.fracOneSqrtTwo
  let coarse := pool.flatMap fun block =>
    let cx := s.ox + ((block.1 : K) + (matchStrideCells : K) * (1 / 2)) * s.res
    let cy := s.oy + ((block.2 : K) + (matchStrideCells : K) * (1 / 2)) * s.res
    let far := match window with
      | none => false
      | some q => decide (Analytic.hypot (cx - q.1) (cy - q.2) > localRematchRM + blockR)
    if far then []
    else (List.range s.dims.nt).map fun (it : Nat) =>
      (s.scoreAt (s.lostLut beams blockR) beams cx cy it, block, it)
  let branches :=
    if coarse.length > matchBranches then Analytic.keepBest matchBranches coarse else coarse
  ({ s with matchPool := some pool },
    branches.filterMap fun branch =>
      s.branchWinner (s.lostLut beams 0) beams branch.2.1 branch.2.2)

/-- The mixing of `reseed_with`: what is left of the belief is scaled to the height of the
collected candidates before they are added. -/
def mixCandidates (r : (Pos → WithTop K) × List Pos) : Belief K :=
  let newMax := maxWeight (r.2.map fun p => (r.1 p).untopD 0)
  if 0 < newMax then
    let oldMax := maxWeight s.weights
    let b :=
      if 0 < oldMax then Sparse.modify (fun _ w => w * (newMax / oldMax)) s.active s.b else s.b
    let m := Sparse.merge r.2 b r.1 s.active
    { s with b := m.1, scratch := m.2.1, active := m.2.2 }
  else { s with scratch := Sparse.modify (fun _ _ => 0) r.2 r.1 }

def reseedWith (cands : List (K × Pos)) : Belief K :=
  let r := (cands.flatMap s.blob).foldl Sparse.deposit (s.scratch, [])
  let entered := (s.mixCandidates r).normalizeActive.enterMode
  { entered with
    initialized := true
    lost := true
    probation := 0
    moveSinceMatch := 0
    quality := maxWeight (cands.map Prod.fst)
    qEwma := s.cfg.resetQuality
    trace := .reseed s.scratch cands s.openPose entered.b entered.active :: s.trace }.recomputeEss

end Belief

end ValueIteration
