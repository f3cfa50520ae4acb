import ValueIteration.Solvers.CellModels
import ValueIteration.Solvers.Frontier

/-!
# The parallel frontier solvers

`async_gs_engine` lets workers claim and evaluate the candidates of a round while a
leader turns the changed cells into the next candidates; `frontier2d_fused` and
`frontier2d_par_unsafe` run it on their layouts. `frontier2d_sparse` has a loop of
the same shape whose leader also keeps, per cell, a mask of the headings that
changed. `frontier2d_par` computes a round on a memory that stands still and applies
it afterwards. A schedule says how the workers of each round interleave; a run also
records every value written and every memory an observer was shown.
-/

set_option autoImplicit false

namespace ValueIteration

open ValueIterator

/-- A cell with its moves: the headings whose value changed and the new values. -/
abbrev CellMoves := (Nat × Nat) × List (Nat × Nat)

def writesOf (changed : List CellMoves) : List (Pos × Nat) :=
  changed.flatMap fun e => e.2.map fun w => (thetaPos e.1 w.1, w.2)

/-- The layout of a solver, the headings a cell evaluates, and the data its leader
keeps between rounds. -/
structure Sweep (S : Type) where
  cells : CellModel
  headings : S → Nat × Nat → List Nat
  mark : S → List CellMoves → S

structure GsState (S : Type) where
  mem : Int → Nat
  own : S
  iters : Nat
  updates : Nat
  pacer : BoundaryPacer
  writes : List (Pos × Nat)
  seen : List (Int → Nat)

structure GsRun where
  mem : Int → Nat
  outcome : SolveOutcome
  writes : List (Pos × Nat)
  seen : List (Int → Nat)

namespace GsState

variable {S : Type}

def start (mem : Int → Nat) (own : S) (obs : SolveObserver) : GsState S :=
  ⟨mem, own, 0, 0, BoundaryPacer.new obs, [], []⟩

def observed (st : GsState S) : GsState S :=
  { st with pacer := st.pacer.reserve st.iters, seen := st.seen ++ [st.mem] }

def finish (st : GsState S) (outcome : SolveOutcome) : GsRun :=
  ⟨st.mem, outcome, st.writes, st.seen⟩

end GsState

section Loop
variable {S : Type} (vi : ValueIterator) (sw : Sweep S) (nthreads : Nat)
  (sched : Nat → List (Nat × Bool)) (boundary : Nat → Nat → (Int → Nat) → SolveFlow)

/-- One compute phase and the leader's bookkeeping after it; the changed cells stand
in the order of the workers' lists. -/
def gsRound (cand : List (Nat × Nat)) (st : GsState S) : Option (GsState S × List CellMoves) :=
  ((sw.cells.round vi cand (sw.headings st.own)).run nthreads st.mem (sched st.iters)).map
    fun r =>
      let changed := r.2.flatten.filter fun e => !e.2.isEmpty
      ({ mem := r.1
         own := sw.mark st.own changed
         iters := st.iters + 1
         updates := st.updates + (changed.map (·.2.length)).sum
         pacer := st.pacer
         writes := st.writes ++ writesOf changed
         seen := st.seen }, changed)

/-- The dilated changed cells, backwards after odd rounds; `none` is the dilation's
panic. -/
def nextCands (iters : Nat) (changed : List CellMoves) : Option (List (Nat × Nat)) :=
  ((Bitboard2D.ofCells vi.dims.nx vi.dims.ny (changed.map (·.1))).dilate vi.mx vi.my).map
    fun nf => if iters % 2 = 1 then nf.enumerate.reverse else nf.enumerate

/-- The leader's loop; the first argument is `max_iter - 1 - iter_count`. -/
def gsLoop : Nat → List (Nat × Nat) → GsState S → Option GsRun
  | 0, cand, st =>
    (gsRound vi sw nthreads sched cand st).map fun r =>
      r.1.finish (.running r.1.iters r.1.updates r.2.isEmpty)
  | fuel + 1, cand, st =>
    match gsRound vi sw nthreads sched cand st with
    | none => none
    | some (st, changed) =>
      if changed.isEmpty then some (st.finish (.running st.iters st.updates true))
      else if st.pacer.isDue st.iters then
        match boundary st.iters st.updates st.mem with
        | .stop => some (st.observed.finish (.mkStopped st.iters st.updates))
        | .cancel => some (st.observed.finish (.mkCancelled st.iters st.updates))
        | .proceed =>
          match nextCands vi st.iters changed with
          | none => none
          | some next => gsLoop fuel next st.observed
      else
        match nextCands vi st.iters changed with
        | none => none
        | some next => gsLoop fuel next st

end Loop

/-- What a parallel solve returns: the field written back, every value written on the
way, and every field an observer was shown. -/
@[ext]
structure ParRun where
  field : ValueIterator
  outcome : SolveOutcome
  writes : List (Pos × Nat)
  seen : List ValueIterator

namespace ValueIterator

variable (vi : ValueIterator) (nthreads maxIter : Nat) (sched : Nat → List (Nat × Bool))
  (obs : SolveObserver)

/-- The field an observer sees when it materialises a boundary. -/
def materialize (m : CellModel) (mem : Int → Nat) : ValueIterator :=
  vi.writeBack m mem (vi.finalPolicy m m.skip mem)

/-- The end of a solve; nothing is written back after a cancellation. -/
def endSolve (m : CellModel) (skip : Int → Bool) (run : GsRun) : ParRun where
  field := if run.outcome.cancelled then vi
    else vi.writeBack m run.mem (vi.finalPolicy m skip run.mem)
  outcome := run.outcome
  writes := run.writes
  seen := run.seen.map (vi.materialize m)

/-- The first candidates: the dilated reached cells. -/
def seedCands : Option (List (Nat × Nat)) :=
  (vi.seedFrontier2d.dilate vi.mx vi.my).map (·.enumerate)

/-- `async_gs_engine` over a layout: every heading of every candidate. -/
def asyncGsEngine (m : CellModel) (mem : Int → Nat) (cand : List (Nat × Nat)) : Option GsRun :=
  gsLoop vi ⟨m, fun _ _ => List.range vi.dims.nt, fun _ _ => ()⟩ nthreads sched
    (fun iters updates mem => obs.boundary iters updates (vi.materialize m mem))
    (maxIter - 1) cand (GsState.start mem () obs)

/-- `frontier2d_par_unsafe_solve_observed`. -/
def frontier2dParUnsafe : Option ParRun :=
  let m := (Padded.build vi).cells
  vi.seedCands.bind fun cand =>
    (vi.asyncGsEngine nthreads maxIter sched obs m (Padded.build vi).words cand).map fun run =>
      vi.endSolve m m.skip run

/-- The policy pass of the fused layout also skips unreached cells after convergence. -/
def fusedSkip (m : CellModel) (run : GsRun) (i : Int) : Bool :=
  m.skip i || (run.outcome.converged && run.mem i == unreached)

/-- `frontier2d_fused_solve_observed`. -/
def frontier2dFused : Option ParRun :=
  let m := (Fused.buildDirect vi).cells
  vi.seedCands.bind fun cand =>
    (vi.asyncGsEngine nthreads maxIter sched obs m (Fused.buildDirect vi).words cand).map fun run =>
      vi.endSolve m (fusedSkip m run) run

end ValueIterator

/-- The masks of changed headings, padded by the displacement, and the cells written
in the last round. -/
structure ThetaMasks where
  first : Bool
  mask : Grid (BitVec 64)
  prev : List (Nat × Nat)

/-- `full`: the low `nt` bits. -/
def fullMask (nt : Nat) : BitVec 64 := if 64 ≤ nt then BitVec.allOnes 64 else (1#64 <<< nt) - 1#64

/-- `rot_dilate`: the mask widened by `k` headings both ways on the circle. -/
def rotDilate (m : BitVec 64) (k nt : Nat) : BitVec 64 :=
  ((List.range k).foldl (fun (a : BitVec 64 × BitVec 64 × BitVec 64) _ =>
    let l := ((a.2.1 <<< 1) ||| (a.2.1 >>> (nt - 1))) &&& fullMask nt
    let r := ((a.2.2 >>> 1) ||| (a.2.2 <<< (nt - 1))) &&& fullMask nt
    (a.1 ||| l ||| r, l, r)) (m, m, m)).1

/-- The headings of a mask, in ascending order. -/
def maskBits (m : BitVec 64) : List Nat := (List.range 64).filter fun b => m.getLsbD b

namespace ValueIterator

variable (vi : ValueIterator) (nthreads maxIter : Nat) (sched : Nat → List (Nat × Bool))
  (obs : SolveObserver)

/-- `midx`. -/
def maskPos (ix iy : Int) : Pos := ⟨ix + vi.mx, iy + vi.my, 0⟩

def maskDims : Dims := ⟨vi.dims.nx + 2 * vi.mx, vi.dims.ny + 2 * vi.my, 1⟩

/-- The union of the masks in the displacement window around a cell. -/
def gatherMask (mask : Grid (BitVec 64)) (c : Nat × Nat) : BitVec 64 :=
  (List.range (2 * vi.my + 1)).foldl (fun acc (dy : Nat) =>
    (List.range (2 * vi.mx + 1)).foldl (fun acc (dx : Nat) =>
      acc ||| mask.get (vi.maskPos (c.1 - vi.mx + dx) (c.2 - vi.my + dy))) acc) 0#64

/-- The headings of a cell to evaluate: all in the first round, else those within
`mt` of a heading that changed in the window. -/
def sparseHeadings (s : ThetaMasks) (c : Nat × Nat) : List Nat :=
  if s.first then maskBits (fullMask vi.dims.nt)
  else
    let acc := vi.gatherMask s.mask c
    if acc = 0#64 then [] else maskBits (rotDilate acc vi.mt vi.dims.nt)

/-- `cmask`. -/
def moveMask (moves : List (Nat × Nat)) : BitVec 64 :=
  moves.foldl (fun acc e => acc ||| (1#64 <<< e.1)) 0#64

/-- The leader zeroes the masks of the last round and stores those of this one. -/
def sparseMark (s : ThetaMasks) (changed : List CellMoves) : ThetaMasks where
  first := false
  mask := changed.foldl (fun g e => g.set (vi.maskPos e.1.1 e.1.2) (moveMask e.2))
    (s.prev.foldl (fun g c => g.set (vi.maskPos c.1 c.2) 0#64) s.mask)
  prev := changed.map (·.1)

def sparseStart : ThetaMasks := ⟨true, Grid.ofFn vi.maskDims fun _ => 0#64, []⟩

/-- The loop of `frontier2d_sparse_solve_observed`. -/
def sparseSweep (m : CellModel) : Sweep ThetaMasks := ⟨m, vi.sparseHeadings, vi.sparseMark⟩

/-- `frontier2d_sparse_solve_observed`; more than 64 headings fail its assertion. -/
def frontier2dSparse : Option ParRun :=
  if vi.dims.nt ≤ 64 then
    let m := (Fused.buildDirect vi).cells
    vi.seedCands.bind fun cand =>
      (gsLoop vi (vi.sparseSweep m) nthreads sched
        (fun iters updates mem => obs.boundary iters updates (vi.materialize m mem))
        (maxIter - 1) cand (GsState.start (Fused.buildDirect vi).words vi.sparseStart obs)).map
          fun run => vi.endSolve m (fusedSkip m run) run
  else none

/-- The moves of one candidate of `compute_round`, on a memory nobody writes. -/
def jacobiCell (m : CellModel) (mem : Int → Nat) (c : Nat × Nat) : List (Nat × Nat) :=
  (List.range vi.dims.nt).filterMap fun (it : Nat) =>
    let i := vi.padCol c.1 c.2 + it
    if m.skip i then none
    else
      let v := (m.thetaCost vi.buildPrecomp (vi.padCol c.1 c.2) it).peek mem
      if v ≠ m.before i (mem i) then some (it, v) else none

/-- `compute_round`: chunks of `⌈len / nthreads⌉` candidates. -/
def computeRound (m : CellModel) (mem : Int → Nat) (cands : List (Nat × Nat)) :
    List (List CellMoves) :=
  (chunks (max ((cands.length + nthreads - 1) / nthreads) 1) cands).map fun part =>
    part.map fun c => (c, vi.jacobiCell m mem c)

structure JacobiState where
  mem : Int → Nat
  frontier : Bitboard2D
  iters : Nat
  updates : Nat
  pacer : BoundaryPacer
  writes : List (Pos × Nat)
  seen : List (Int → Nat)

/-- The serial apply phase: write the results back and mark the cells that moved. -/
def JacobiState.apply (st : JacobiState) (m : CellModel) (results : List (List CellMoves)) :
    JacobiState :=
  let changed := results.flatten.filter fun e => !e.2.isEmpty
  { mem := (writesOf changed).foldl (fun mem w =>
      Function.update mem (vi.padIdx w.1) (m.after (vi.padIdx w.1) w.2)) st.mem
    frontier := Bitboard2D.ofCells vi.dims.nx vi.dims.ny (changed.map (·.1))
    iters := st.iters + 1
    updates := st.updates + (changed.map (·.2.length)).sum
    pacer := st.pacer
    writes := st.writes ++ writesOf changed
    seen := st.seen }

def JacobiState.observed (st : JacobiState) : JacobiState :=
  { st with pacer := st.pacer.reserve st.iters, seen := st.seen ++ [st.mem] }

def JacobiState.finish (st : JacobiState) (outcome : SolveOutcome) : GsRun :=
  ⟨st.mem, outcome, st.writes, st.seen⟩

/-- The loop of `frontier2d_par_solve_observed`; the first argument is
`max_iter - iters`. -/
def jacobiLoop (m : CellModel) : Nat → JacobiState → Option GsRun
  | 0, st => some (st.finish (.running st.iters st.updates (st.frontier.popcount == 0)))
  | fuel + 1, st =>
    if st.frontier.popcount == 0 then some (st.finish (.running st.iters st.updates true))
    else
      match st.frontier.dilate vi.mx vi.my with
      | none => none
      | some cand =>
        let st := JacobiState.apply vi st m (vi.computeRound nthreads m st.mem cand.enumerate)
        if !(st.frontier.popcount == 0) && st.pacer.isDue st.iters then
          match obs.boundary st.iters st.updates (vi.materialize m st.mem) with
          | .stop => some (st.observed.finish (.mkStopped st.iters st.updates))
          | .cancel => some (st.observed.finish (.mkCancelled st.iters st.updates))
          | .proceed => jacobiLoop m fuel st.observed
        else jacobiLoop m fuel st

/-- `frontier2d_par_solve_observed`. -/
def frontier2dPar : Option ParRun :=
  let m := (Padded.build vi).cells
  (vi.jacobiLoop nthreads obs m maxIter
    ⟨(Padded.build vi).words, vi.seedFrontier2d, 0, 0, BoundaryPacer.new obs, [], []⟩).map fun run =>
      vi.endSolve m m.skip run

end ValueIterator

end ValueIteration
