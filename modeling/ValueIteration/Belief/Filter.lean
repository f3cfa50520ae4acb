import ValueIteration.Belief.Matcher

/-!
# The belief filter

`observe` flushes the collected motion, weighs the histogram by the scan, resets or
rematches what no longer fits and keeps the latch of the lost state.
-/

set_option autoImplicit false

namespace ValueIteration

variable {K : Type} [Field K] [LinearOrder K] [FloorRing K]

def ewmaBeta : K := 3 / 10

def modeThreshold : K := 1 / 20

def modeMinSepM : K := 1

def modeCandidateCap : Nat := 4096

def unimodalTopK : Nat := 64

def releaseHoldObs : Nat := 10

def matchRetryM : K := 3

def localRematchAccept : K := 1 / 2

/-- `modes`: a hypothesis near an earlier peak is no peak. -/
def modes [Analytic K] (hyps : List (PoseView K × K)) (minSepM : K) : List (PoseView K) :=
  hyps.foldl (fun out h =>
    if out.all fun q => Analytic.hypot (h.1.x - q.x) (h.1.y - q.y) ≥ minSepM then out ++ [h.1]
    else out) []

def modeCount [Analytic K] (hyps : List (PoseView K × K)) (minSepM : K) : Nat :=
  (modes hyps minSepM).length

namespace Belief

/-- The rays an observation uses: every `step`-th one, when it is in range. -/
def beamsOf (scan : LaserScan K) (step : Nat) (maxR : K) : List (K × K) :=
  ((scan.ranges.zipIdx.filter fun e => e.2 % step = 0).filter fun e => 0 < e.1 ∧ e.1 ≤ maxR).map
    fun e => (scan.angleMin + scan.angleIncrement * e.2, e.1)

variable [Analytic K] (s : Belief K)

/-- Poses by descending weight. -/
def ranked (cells : List (K × Pos)) : List (PoseView K × K) :=
  (cells.insertionSort fun a b => a.1 ≥ b.1).map fun e => (s.poseOf e.2, e.1)

def topCells (k : Nat) : List (PoseView K × K) :=
  if s.initialized = false ∨ k = 0 then []
  else
    let cells := (s.active.filter fun p => 0 < s.b p).map fun p => (s.b p, p)
    s.ranked (if cells.length > k then Analytic.keepBest k cells else cells)

def strongHyps : Option (List (PoseView K × K)) :=
  let maxw := maxWeight s.weights
  if maxw ≤ 0 then none
  else
    let strong := s.active.filter fun p => maxw * modeThreshold ≤ s.b p
    if strong.length > modeCandidateCap then none
    else some (s.ranked (strong.map fun p => (s.b p, p)))

def releaseUnimodal : Bool :=
  if s.cfg.globalMatch then
    match s.strongHyps with
    | some h => modeCount h modeMinSepM ≤ 1
    | none => false
  else modeCount (s.topCells unimodalTopK) modeMinSepM ≤ 1

def tryRelease : Belief K × Bool :=
  if s.releaseUnimodal = false then ({ s with relHold := 0 }, false)
  else if s.cfg.globalMatch = false then (s, true)
  else
    match s.strongHyps.bind List.head? with
    | none => ({ s with relHold := 0 }, false)
    | some (pk, _) =>
      let held := match s.relAnchor with
        | some a => decide (Analytic.hypot (pk.x - a.1) (pk.y - a.2) ≤ modeMinSepM)
        | none => false
      let hold := if held then s.relHold + 1 else 1
      if hold ≥ releaseHoldObs then
        ({ s with relHold := 0, relAnchor := some (pk.x, pk.y) }, true)
      else ({ s with relHold := hold, relAnchor := some (pk.x, pk.y) }, false)

def matchReseed (beams : List (K × K)) : Belief K :=
  let r := s.matchCandidates beams none
  r.1.reseedWith r.2

/-- The first rematch out of tracking: the candidates near the estimate are preferred
unless they fit much worse than the best of the map. -/
def rematch (beams : List (K × K)) : Belief K :=
  match s.mean with
  | none => s.matchReseed beams
  | some p =>
    let near := s.matchCandidates beams (some (p.x, p.y))
    let all := near.1.matchCandidates beams none
    let lb := maxWeight (near.2.map Prod.fst)
    let gb := maxWeight (all.2.map Prod.fst)
    all.1.reseedWith (if 0 < lb ∧ lb ≥ localRematchAccept * gb then near.2 else all.2)

def failProbation : Belief K :=
  if s.cfg.globalMatch then s.enterLostEmpty else s.enterUniformFree

/-- The end of `observe`: the latch of the lost state and the probation. -/
def settle (mismatched : Bool) (movedM : K) : Belief K :=
  let s := s.recomputeEss
  if mismatched ∨ s.essC > s.cfg.lostEss then
    { s with lost := true, probation := 0, relHold := 0, relAnchor := none }
  else
    let r := if s.lost then s.tryRelease else (s, false)
    if r.2 then
      if 0 < s.cfg.probationObs then
        { r.1 with lost := false, probation := s.cfg.probationObs, probMove := 0 }
      else { r.1 with lost := false }
    else if 0 < r.1.probation then
      let walked : Belief K := { r.1 with probMove := r.1.probMove + movedM }
      if walked.probMove ≥ s.cfg.lostUpdateMinDM then
        let checked : Belief K := { walked with probMove := 0 }
        if checked.quality < s.cfg.probationMinQ then checked.failProbation
        else { checked with probation := checked.probation - 1 }
      else walked
    else r.1

/-- What follows the weighing: a belief that no longer fits is reset. -/
def respond (beams : List (K × K)) (movedM : K) : Belief K :=
  if s.active.isEmpty then
    if s.cfg.globalMatch then s.matchReseed beams else s.enterUniformFree
  else
    let mismatched : Bool := s.qEwma < s.cfg.resetQuality
    if mismatched ∧ ¬(s.lost ∧ s.essC > s.cfg.lostEss) then
      if s.cfg.globalMatch then
        if s.moveSinceMatch ≥ matchRetryM then
          if s.lost then s.matchReseed beams else s.rematch beams
        else s.settle mismatched movedM
      else if s.lost then s.enterUniformFree.settle mismatched movedM
      else s.mixUniform.settle mismatched movedM
    else s.settle mismatched movedM

/-- `vit_observe` or `sum_observe`, and the moving average of the match quality. -/
def weigh (wasLost : Bool) (beams : List (K × K)) : Belief K :=
  let lut := if wasLost ∧ 0 < s.cfg.lostSigmaPerM then some (s.lostLut beams 0) else none
  let r := if s.cfg.viterbi then s.vitObserve lut beams else s.sumObserve lut beams
  { r.1 with quality := r.2, qEwma := (1 - ewmaBeta) * s.qEwma + ewmaBeta * r.2 }

/-- The first scan finds a filter without a seed. -/
def ensureInitialized : Belief K :=
  if s.initialized then s
  else if s.cfg.globalMatch then s.enterLostEmpty else s.enterUniformFree

/-- While lost, a scan from where the last one was taken is dropped. -/
def Gated : Prop :=
  s.lost = true ∧ (0 < s.cfg.lostUpdateMinDM ∨ 0 < s.cfg.lostUpdateMinADeg) ∧
    |s.pendF| < s.cfg.lostUpdateMinDM ∧ |s.pendRotDeg| < s.cfg.lostUpdateMinADeg

instance : Decidable s.Gated := by
  unfold Gated
  infer_instance

/-- `observe` behind the gate. -/
def integrate (scan : LaserScan K) : Belief K :=
  let movedM := |s.pendF|
  let flushed : Belief K := { s.flush with moveSinceMatch := s.flush.moveSinceMatch + movedM }
  let started :=
    if flushed.active.isEmpty ∧ flushed.cfg.globalMatch = false then flushed.enterUniformFree else flushed
  let step := max s.cfg.beamStep 1 * if s.lost ∧ s.cfg.globalMatch = false then 4 else 1
  let beams := beamsOf scan step s.cfg.maxRangeM
  if beams.isEmpty then started
  else if started.active.isEmpty then
    if started.cfg.globalMatch then started.matchReseed beams else started
  else (started.weigh s.lost beams).respond beams movedM

def observe (scan : LaserScan K) : Belief K :=
  if s.ensureInitialized.Gated then s.ensureInitialized else s.ensureInitialized.integrate scan

/-- The operations of the filter. `flush` and `reseed` are steps of `observe`; they may
also come by themselves, a reseed where the filter matches globally. -/
inductive Op (K : Type) where
  | seed (pose : PoseView K)
  | enterUniformFree
  | predict (v wDeg dt : K)
  | observe (scan : LaserScan K)
  | flush
  | reseed (cands : List (K × Pos))
  | failProbation
  | clearFreeFromScan (scan : LaserScan K)

def step : Op K → Belief K
  | .seed pose => s.seed pose
  | .enterUniformFree => s.enterUniformFree
  | .predict v wDeg dt => s.predict v wDeg dt
  | .observe scan => s.observe scan
  | .flush => s.flush
  | .reseed cands => if s.cfg.globalMatch then s.reseedWith cands else s
  | .failProbation => s.failProbation
  | .clearFreeFromScan scan => s.clearFreeFromScan scan

def run (ops : List (Op K)) : Belief K := ops.foldl step s

end Belief

end ValueIteration
