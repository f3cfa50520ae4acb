import ValueIteration.Solvers.Block
import ValueIteration.Solvers.Caps
import ValueIteration.Solvers.Parallel
import ValueIteration.Solvers.Priority
import ValueIteration.Solvers.Rounds
import ValueIteration.Solvers.Schur

/-!
# One entry for all solvers

`solve_observed` hands the field and the observer to the solver that was asked for. For
every solver that keeps the field in memory the observer can end the solve and do nothing
else to it.
-/

set_option autoImplicit false

namespace ValueIteration

open ValueIterator Watched Rounds

/-- What decides a solve besides its arguments: the workers and how they are scheduled, the
pre-pass of SchurPortal, and the out-of-core solver. -/
structure SolveEnv where
  nthreads : Nat
  sched : Nat → List (Nat × Bool)
  prep : Nat → Nat → PrePass
  outOfCore : Nat → ValueIterator → Nat → SolveObserver → Option Solve

/-- `solve_observed`; `none` is a panic. -/
def U64Solver.solveObserved (k : U64Solver) (e : SolveEnv) (vi : ValueIterator) (maxIter : Nat)
    (obs : SolveObserver) : Option Solve :=
  match k with
  | .reference => some (vi.originalSolve maxIter obs).solve
  | .frontier3D => (vi.frontier3d maxIter obs).map (·.solve)
  | .frontier2D => (vi.frontier2d maxIter obs).map (·.solve)
  | .frontier2DPar => (vi.frontier2dPar e.nthreads maxIter obs).map (·.solve)
  | .frontier2DFused => (vi.frontier2dFused e.nthreads maxIter e.sched obs).map (·.solve)
  | .frontier2DSparse => (vi.frontier2dSparse e.nthreads maxIter e.sched obs).map (·.solve)
  | .frontier2DSparseCompact band => e.outOfCore band vi maxIter obs
  | .frontier2DParUnsafe => (vi.frontier2dParUnsafe e.nthreads maxIter e.sched obs).map (·.solve)
  | .frontierStack => (vi.frontierStack maxIter obs).map (·.solve)
  | .blockRefine => (vi.blockRefine maxIter obs).map (·.solve)
  | .pyramidSweep => (vi.pyramidSweep maxIter obs).map (·.solve)
  | .streamMimic => some (vi.streamMimic maxIter obs).solve
  | .priorityLabelSetting => some (vi.prioritySolveObserved maxIter true obs)
  | .priorityLabelCorrecting => some (vi.prioritySolveObserved maxIter false obs)
  | .schurPortal tile portalThetas =>
    (vi.schurSolve (e.prep tile portalThetas) maxIter obs).map (·.solve)

/-- `solve`: nobody watches. -/
def U64Solver.solve (k : U64Solver) (e : SolveEnv) (vi : ValueIterator) (maxIter : Nat) :
    Option Solve := k.solveObserved e vi maxIter nullObserver

section Frontier

variable {F κ : Type} {sch : Schedule F κ} {obs : SolveObserver}

theorem frontierLoop_honest (vi : ValueIterator) (f : F) (maxIter : Nat) :
    Honest ((frontierLoop sch nullObserver maxIter (LoopState.start vi f nullObserver)).map (·.solve))
      obs ((frontierLoop sch obs maxIter (LoopState.start vi f obs)).map (·.solve)) :=
  frontierRounds_plain.honest (frontierLoop_drives (LoopState.start vi f nullObserver).core id
    (fun obs => LoopState.start vi f obs) fun _ => rfl) obs maxIter

theorem frontierLoop_prefixed (vi : ValueIterator) (f : F) (maxIter : Nat) :
    Prefixed (fun maxIter =>
        (frontierLoop sch nullObserver maxIter (LoopState.start vi f nullObserver)).map (·.solve))
      ((frontierLoop sch obs maxIter (LoopState.start vi f obs)).map (·.solve)) :=
  frontierRounds_plain.prefixed (frontierLoop_drives (LoopState.start vi f nullObserver).core id
    (fun obs => LoopState.start vi f obs) fun _ => rfl)
    frontierRounds_counts (fun k => Nat.zero_add (k + 1)) obs maxIter

end Frontier

/-! ### The priority solvers -/

section Priority

variable {rev : List (List (Int ×ₗ Int ×ₗ Int))} {labelSetting : Bool} {obs : SolveObserver}
  {stride : Nat}

def PrioRun.solve (r : PrioRun) : Solve :=
  (r.vi, match r.flow with
    | .stop => .mkStopped (min r.stats.iters 4294967295) r.stats.updates
    | .cancel => .mkCancelled (min r.stats.iters 4294967295) r.stats.updates
    | .proceed => .running (min r.stats.iters 4294967295) r.stats.updates r.stats.converged)

/-- The state with its timer set to `b`. -/
def PrioState.timed (b : Nat) (st : PrioState) : PrioState := { st with nextBoundary := b }

@[simp] theorem timed_vi (b : Nat) (st : PrioState) : (st.timed b).vi = st.vi := rfl

@[simp] theorem timed_heap (b : Nat) (st : PrioState) : (st.timed b).heap = st.heap := rfl

@[simp] theorem timed_settled (b : Nat) (st : PrioState) : (st.timed b).settled = st.settled := rfl

theorem relaxAt_timed (b : Nat) (p : Pos) (st : PrioState) :
    (st.timed b).relaxAt p = (st.relaxAt p).timed b := by
  simp only [PrioState.relaxAt, PrioState.timed]
  split <;> rfl

theorem relax_timed (b : Nat) (sStar : Pos) (st : PrioState) (d : Int ×ₗ Int ×ₗ Int) :
    PrioState.relax labelSetting sStar (st.timed b) d =
      (PrioState.relax labelSetting sStar st d).timed b := by
  simp only [PrioState.relax, timed_vi, timed_settled, relaxAt_timed, apply_ite (PrioState.timed b)]

theorem count_timed (b sStar : Nat) (st : PrioState) :
    (st.timed b).count labelSetting sStar = (st.count labelSetting sStar).map (·.timed b) := by
  simp only [PrioState.count, apply_ite (Option.map (PrioState.timed b)), Option.map_none,
    Option.map_some]
  rfl

/-- A visit does not look at the timer. -/
theorem visit_timed (b lab sStar : Nat) (st : PrioState) :
    (st.timed b).visit rev labelSetting lab sStar =
      (st.visit rev labelSetting lab sStar).timed b := by
  simp only [PrioState.visit, count_timed, timed_vi]
  split
  · rfl
  · cases st.count labelSetting sStar with
    | none => rfl
    | some st' => exact List.foldl_hom (·.timed b) fun st d => relax_timed b _ st d

/-- What is left to do with the popped entry, if there is one. -/
def PrioState.visited (rev : List (List (Int ×ₗ Int ×ₗ Int))) (labelSetting : Bool)
    (pending : Option (Nat ×ₗ Nat)) (st : PrioState) : PrioState :=
  match pending with
  | none => st
  | some top => st.visit rev labelSetting (ofLex top).1 (ofLex top).2

theorem visited_timed (b : Nat) (pending : Option (Nat ×ₗ Nat)) (st : PrioState) :
    (st.timed b).visited rev labelSetting pending =
      (st.visited rev labelSetting pending).timed b := by
  cases pending with
  | none => rfl
  | some top => exact visit_timed b _ _ st

/-- The state after an entry was popped. -/
def PrioState.took (heap : LabelHeap) (st : PrioState) : PrioState :=
  { st with heap := heap, pops := st.pops + 1 }

/-- The rounds of `prioLoop`, from one popped entry to the next. -/
def prioRounds (rev : List (List (Int ×ₗ Int ×ₗ Int))) (labelSetting : Bool) :
    Rounds (PrioState × Option (Nat ×ₗ Nat)) where
  machine :=
    { round := fun s =>
        let st := s.1.visited rev labelSetting s.2
        match st.heap.pop with
        | none => some (.inl (st.vi, .running (min st.iters 4294967295) st.updates true))
        | some (top, heap) => some (.inr (st.took heap, some top))
      spent := fun s => (s.1.vi, .running (min s.1.iters 4294967295) s.1.updates false) }
  iters s := min s.1.iters 4294967295
  updates s := s.1.updates
  field s := s.1.vi
  dropped s := s.1.vi

theorem prioRounds_plain : (prioRounds rev labelSetting).Plain where
  ended := by
    intro s r h
    simp only [prioRounds] at h
    split at h
    · cases h
      exact ⟨rfl, rfl⟩
    · cases h
  spent s := ⟨false, rfl⟩

def prioWatcher (rev : List (List (Int ×ₗ Int ×ₗ Int))) (labelSetting : Bool) (stride : Nat)
    (obs : SolveObserver) : Watcher (PrioState × Option (Nat ×ₗ Nat)) Nat Bool where
  asks n _ := n != 0
  due b t := decide (b ≤ t.1.pops)
  reserve _ t := min (t.1.pops + stride) (word - 1)
  answer := (prioRounds rev labelSetting).answer obs

theorem prioRounds_round (pending : Option (Nat ×ₗ Nat)) (st : PrioState) :
    (prioRounds rev labelSetting).machine.round (st.timed 0, pending) =
      match (st.visited rev labelSetting pending).heap.pop with
      | none => some (.inl ((st.visited rev labelSetting pending).vi,
          .running (min (st.visited rev labelSetting pending).iters 4294967295)
            (st.visited rev labelSetting pending).updates true))
      | some (top, heap) =>
        some (.inr (((st.visited rev labelSetting pending).took heap).timed 0, some top)) := by
  simp only [prioRounds, visited_timed, timed_heap]
  rfl

theorem visited_nextBoundary (pending : Option (Nat ×ₗ Nat)) (st : PrioState) :
    (st.visited rev labelSetting pending).nextBoundary = st.nextBoundary := by
  have h : st.visited rev labelSetting pending =
      (st.visited rev labelSetting pending).timed st.nextBoundary :=
    visited_timed st.nextBoundary pending st
  rw [h]
  rfl

theorem prioLoop_watched (n : Nat) : ∀ (st : PrioState) (pending : Option (Nat ×ₗ Nat)),
    some (prioLoop rev labelSetting obs stride n (st.visited rev labelSetting pending)).solve =
      ((prioRounds rev labelSetting).machine.watched (prioWatcher rev labelSetting stride obs) (n + 1)
        st.nextBoundary (st.timed 0, pending)).map (prioRounds rev labelSetting).ending := by
  induction n with
  | zero =>
    intro st pending
    have hround := @prioRounds_round rev labelSetting pending st
    unfold prioLoop
    cases hpop : (st.visited rev labelSetting pending).heap.pop with
    | none =>
      rw [hpop] at hround
      rw [Machine.watched_done hround]
      rfl
    | some e =>
      rw [hpop] at hround
      rw [Machine.watched_pass hround rfl]
      rfl
  | succ n ih =>
    intro st pending
    have hround := @prioRounds_round rev labelSetting pending st
    have htimer := @visited_nextBoundary rev labelSetting pending st
    unfold prioLoop
    cases hpop : (st.visited rev labelSetting pending).heap.pop with
    | none =>
      rw [hpop] at hround
      rw [Machine.watched_done hround]
      rfl
    | some e =>
      obtain ⟨top, heap⟩ := e
      rw [hpop] at hround
      simp only at hround ⊢
      generalize st.visited rev labelSetting pending = st' at hround htimer ⊢
      rw [← htimer]
      by_cases hdue : st'.nextBoundary ≤ st'.pops + 1
      · have hask : (n + 1 != 0 && decide (st'.nextBoundary ≤ (st'.took heap).pops)) = true := by
          rw [PrioState.took, decide_eq_true hdue]
          rfl
        rw [if_pos hdue]
        cases hflow : obs.boundary (min st'.iters 4294967295) st'.updates st'.vi with
        | proceed =>
          rw [Machine.watched_proceed hround hask (congrArg SolveFlow.exit hflow)]
          exact ih ((st'.took heap).timed (min (st'.pops + 1 + stride) (word - 1))) (some top)
        | stop =>
          rw [Machine.watched_leave hround hask (congrArg SolveFlow.exit hflow)]
          rfl
        | cancel =>
          rw [Machine.watched_leave hround hask (congrArg SolveFlow.exit hflow)]
          rfl
      · have hask : (n + 1 != 0 && decide (st'.nextBoundary ≤ (st'.took heap).pops)) = false := by
          rw [PrioState.took, decide_eq_false hdue, Bool.and_false]
        rw [if_neg hdue, Machine.watched_pass hround hask]
        exact ih (st'.took heap) (some top)

theorem prioLoop_drives (st : PrioState) (start : SolveObserver → PrioState)
    (hstart : ∀ obs, (start obs).timed 0 = st) (cap : Nat → Nat) (stride : SolveObserver → Nat) :
    (prioRounds rev labelSetting).Drives (st, none) (fun n => cap n + 1) fun obs n =>
      some (prioLoop rev labelSetting obs (stride obs) (cap n) (start obs)).solve := by
  intro obs n
  refine ⟨_, prioWatcher rev labelSetting (stride obs) obs, (start obs).nextBoundary, rfl, ?_⟩
  rw [← hstart obs]
  exact prioLoop_watched (cap n) (start obs) none

theorem prioritySolveObserved_solve (vi : ValueIterator) (maxIter : Nat) :
    vi.prioritySolveObserved maxIter labelSetting obs =
      (vi.prioritySolveInner maxIter labelSetting obs).solve := rfl

theorem prioStart_timed (vi : ValueIterator) (obs : SolveObserver) :
    (vi.prioStart labelSetting obs).timed 0 = (vi.prioStart labelSetting nullObserver).timed 0 := by
  simp only [prioStart, PrioState.timed]

theorem prioritySolveObserved_honest (vi : ValueIterator) (maxIter : Nat) :
    Honest (some (vi.prioritySolveObserved maxIter labelSetting nullObserver)) obs
      (some (vi.prioritySolveObserved maxIter labelSetting obs)) := by
  rw [prioritySolveObserved_solve, prioritySolveObserved_solve, prioritySolveInner,
    prioritySolveInner]
  exact prioRounds_plain.honest (prioLoop_drives _ (vi.prioStart labelSetting)
    (prioStart_timed vi) (fun n => min (vi.dims.count * max n 1) (word - 1)) vi.prioStride)
    obs maxIter

end Priority

/-! ### SchurPortal -/

section Schur

variable {vi : ValueIterator} {prep : PrePass} {obs : SolveObserver}

/-- The sweep after the pre-pass, as the loop meets it. -/
def schurStart (v : ValueIterator) (updates : Nat) (obs : SolveObserver) : LoopState Bitboard2D :=
  let st : LoopState Bitboard2D := ⟨v, v.seedFrontier2d, 1, updates, BoundaryPacer.new obs, [], []⟩
  if st.pacer.isDue st.iters then st.observed else st

theorem schurStart_core (v : ValueIterator) (updates : Nat) (obs : SolveObserver) :
    (schurStart v updates obs).core = (schurStart v updates nullObserver).core := by
  have hcore : ∀ obs, (schurStart v updates obs).core =
      ⟨v, v.seedFrontier2d, 1, updates, ⟨0, 0⟩, [], []⟩ := by
    intro obs
    rw [schurStart]
    split <;> rfl
  rw [hcore, hcore]

/-- The pre-pass is the first iteration: the observer may leave after it, else the sweep
runs on. -/
theorem schurSolve_cases (hp : vi.isPristine = true) (obs : SolveObserver) (maxIter : Nat) :
    vi.schurSolve prep maxIter obs =
        frontierLoop (vi.withField (prep vi).1).frontier2dSchedule obs (maxIter - 1)
          (schurStart (vi.withField (prep vi).1) (prep vi).2 obs) ∨
      ∃ b : Bool, obs.boundary 1 (prep vi).2 (vi.withField (prep vi).1) = (if b then .cancel else .stop) ∧
        (vi.schurSolve prep maxIter obs).map (·.solve) =
          some (if b then (vi.withField (prep vi).1, .mkCancelled 1 (prep vi).2)
            else (vi.withField (prep vi).1, .mkStopped 1 (prep vi).2)) := by
  have hnot : ¬ (!vi.isPristine) = true := by
    rw [hp]
    exact Bool.false_ne_true
  rw [schurSolve, if_neg hnot]
  simp only [schurStart]
  by_cases hdue : (BoundaryPacer.new obs).isDue 1 = true
  · rw [if_pos hdue, if_pos hdue]
    cases hflow : obs.boundary 1 (prep vi).2 (vi.withField (prep vi).1) with
    | proceed => exact Or.inl rfl
    | stop => exact Or.inr ⟨false, rfl, rfl⟩
    | cancel => exact Or.inr ⟨true, rfl, rfl⟩
  · rw [if_neg hdue, if_neg hdue]
    exact Or.inl rfl

theorem schurSolve_plain (hp : vi.isPristine = true) (maxIter : Nat) :
    vi.schurSolve prep maxIter nullObserver =
      frontierLoop (vi.withField (prep vi).1).frontier2dSchedule nullObserver (maxIter - 1)
        (schurStart (vi.withField (prep vi).1) (prep vi).2 nullObserver) := by
  rcases @schurSolve_cases vi prep hp nullObserver maxIter with heq | ⟨b, hflow, _⟩
  · exact heq
  · cases b <;> cases hflow

theorem schurSolve_drives (v : ValueIterator) (updates : Nat) :
    (frontierRounds v.frontier2dSchedule).Drives (schurStart v updates nullObserver).core (· - 1)
      fun obs maxIter => (frontierLoop v.frontier2dSchedule obs (maxIter - 1)
        (schurStart v updates obs)).map (·.solve) :=
  frontierLoop_drives _ (· - 1) (schurStart v updates) (schurStart_core v updates)

theorem schurSolve_honest (maxIter : Nat) :
    Honest ((vi.schurSolve prep maxIter nullObserver).map (·.solve)) obs
      ((vi.schurSolve prep maxIter obs).map (·.solve)) := by
  by_cases hp : vi.isPristine = true
  · rcases @schurSolve_cases vi prep hp obs maxIter with heq | ⟨b, hflow, heq⟩
    · rw [heq, schurSolve_plain hp]
      exact frontierRounds_plain.honest (schurSolve_drives _ _) obs maxIter
    · rw [heq]
      exact Honest.left hflow
  · have hneg : (!vi.isPristine) = true := by rw [Bool.eq_false_of_not_eq_true hp]; rfl
    rw [schurSolve, schurSolve, if_pos hneg, if_pos hneg]
    exact frontierLoop_honest vi _ maxIter

theorem schurSolve_prefixed (maxIter : Nat) :
    Prefixed (fun maxIter => (vi.schurSolve prep maxIter nullObserver).map (·.solve))
      ((vi.schurSolve prep maxIter obs).map (·.solve)) := by
  by_cases hp : vi.isPristine = true
  · simp only [schurSolve_plain hp]
    rcases @schurSolve_cases vi prep hp obs maxIter with heq | ⟨b, hflow, heq⟩
    · rw [heq]
      refine frontierRounds_plain.prefixed (schurSolve_drives _ _) frontierRounds_counts ?_ obs maxIter
      intro k
      have hone : (schurStart (vi.withField (prep vi).1) (prep vi).2 nullObserver).core.iters = 1 := by
        rw [schurStart]
        split <;> rfl
      show LoopState.iters _ + (k + 1) - 1 = k + 1
      rw [hone, Nat.add_sub_cancel_left]
    · rw [heq]
      intro hs
      cases b with
      | true => cases hs
      | false => exact ⟨_, rfl⟩
  · have hneg : (!vi.isPristine) = true := by rw [Bool.eq_false_of_not_eq_true hp]; rfl
    simp only [schurSolve, if_pos hneg]
    exact frontierLoop_prefixed vi _ maxIter

end Schur

/-! ### PyramidSweep -/

section Pyramid

variable {obs : SolveObserver}

theorem offset_boundary (iters updates i u : Nat) (v : ValueIterator) :
    (obs.offset iters updates).boundary i u v = obs.boundary (iters + i) (updates + u) v := by
  rw [Nat.add_comm iters, Nat.add_comm updates]
  rfl

/-- The levels one after another, each behind an observer that adds up the progress. -/
theorem pyramidLevels_honest (maxIter : Nat) (sizes : List Nat) : ∀ done done' : InPlaceRun,
    done.solve = done'.solve → done.outcome.stopped = false → done.outcome.cancelled = false →
    Honest ((pyramidLevels nullObserver maxIter sizes done).map (·.solve)) obs
      ((pyramidLevels obs maxIter sizes done').map (·.solve)) := by
  induction sizes with
  | nil =>
    intro done done' hdone hstop hcancel
    obtain ⟨hvi, hout⟩ := Prod.mk.inj hdone
    refine ⟨fun _ _ => congrArg some hdone, ?_, ?_⟩
    · intro hs
      rw [hout] at hstop
      exact absurd (hstop.symm.trans hs) Bool.false_ne_true
    · intro hc
      rw [hout] at hcancel
      exact absurd (hcancel.symm.trans hc) Bool.false_ne_true
  | cons block rest ih =>
    intro done done' hdone _ _
    obtain ⟨hvi, hout⟩ := Prod.mk.inj hdone
    rw [pyramidLevels, pyramidLevels, hvi, hout]
    simp only
    generalize (if rest.isEmpty then maxIter - done'.outcome.iters else 4) = budget
    have hlevel : Honest ((done'.vi.blockRefineSized block 2 budget nullObserver).map (·.solve))
        (obs.offset done'.outcome.iters done'.outcome.updates)
        ((done'.vi.blockRefineSized block 2 budget
          (obs.offset done'.outcome.iters done'.outcome.updates)).map (·.solve)) :=
      frontierLoop_honest _ _ budget
    have hnull : nullObserver.offset done'.outcome.iters done'.outcome.updates = nullObserver := rfl
    rw [hnull]
    generalize done'.vi.blockRefineSized block 2 budget nullObserver = plain at hlevel ⊢
    generalize done'.vi.blockRefineSized block 2 budget
      (obs.offset done'.outcome.iters done'.outcome.updates) = seen at hlevel ⊢
    cases seen with
    | none =>
      rw [Option.map_eq_none_iff.mp hlevel]
      rfl
    | some r =>
      obtain ⟨hsame, hstop, hcancel⟩ := hlevel
      by_cases hleft : (r.outcome.stopped || r.outcome.cancelled) = true
      · simp only [if_pos hleft]
        refine ⟨?_, ?_, ?_⟩
        · intro hs hc
          have hnot : (r.outcome.stopped || r.outcome.cancelled) = false := by
            rw [show r.outcome.stopped = false from hs, show r.outcome.cancelled = false from hc]
            rfl
          exact absurd (hnot.symm.trans hleft) Bool.false_ne_true
        · intro hs
          exact (offset_boundary _ _ _ _ _).symm.trans (hstop hs)
        · intro hc
          obtain ⟨v, hans⟩ := hcancel hc
          exact ⟨v, (offset_boundary _ _ _ _ _).symm.trans hans⟩
      · obtain ⟨hs, hc⟩ := Bool.or_eq_false_iff.mp (Bool.eq_false_of_not_eq_true hleft)
        obtain ⟨r', rfl, hr'⟩ := Option.map_eq_some_iff.mp (hsame hs hc)
        obtain ⟨hvi', hout'⟩ := Prod.mk.inj hr'
        have hleft' : ¬ (r'.outcome.stopped || r'.outcome.cancelled) = true := by
          rwa [hout']
        simp only [if_neg hleft, hout']
        by_cases hmax : maxIter ≤ done'.outcome.iters + r.outcome.iters
        · simp only [if_pos hmax, hvi']
          refine ⟨fun _ _ => rfl, ?_, ?_⟩
          · intro hs
            cases hs
          · intro hc
            cases hc
        · simp only [if_neg hmax]
          exact ih _ _ (by rw [InPlaceRun.solve, InPlaceRun.solve, hvi']) rfl rfl

end Pyramid

/-! ### Every solver -/

section Entry

variable {vi : ValueIterator} {obs : SolveObserver} {e : SolveEnv}

/-- The solvers that count rounds one by one and spend `max_iter` on nothing else. -/
def U64Solver.countsRounds : U64Solver → Bool
  | frontier2DSparseCompact _ | priorityLabelSetting | priorityLabelCorrecting | pyramidSweep => false
  | _ => true

/-- An observer can end a solve and do nothing else to it: unless it asked to stop or to
cancel, on the counts and the field it was shown, the result is the one of `solve`. -/
theorem U64Solver.solveObserved_honest (k : U64Solver) (hcore : k.caps.outOfCore = false)
    (e : SolveEnv) (vi : ValueIterator) (maxIter : Nat) (obs : SolveObserver) :
    Honest (k.solve e vi maxIter) obs (k.solveObserved e vi maxIter obs) := by
  cases k with
  | reference => exact originalRounds_plain.honest (originalSolve_drives vi) obs maxIter
  | frontier3D => exact frontierLoop_honest vi vi.seedFrontier maxIter
  | frontier2D => exact frontierLoop_honest vi vi.seedFrontier2d maxIter
  | frontier2DPar => exact jacobiRounds_plain.honest frontier2dPar_drives obs maxIter
  | frontier2DParUnsafe =>
    simp only [solve, solveObserved, frontier2dParUnsafe_solve]
    exact Honest.bind fun cand => gsRounds_plain.honest (gsLoop_drives _ _ () cand) obs maxIter
  | frontier2DFused =>
    simp only [solve, solveObserved, frontier2dFused_solve]
    exact Honest.bind fun cand => gsRounds_plain.honest (gsLoop_drives _ _ () cand) obs maxIter
  | frontier2DSparse =>
    simp only [solve, solveObserved, frontier2dSparse_solve]
    exact Honest.bind fun cand =>
      gsRounds_plain.honest (gsLoop_drives _ _ vi.sparseStart cand) obs maxIter
  | frontier2DSparseCompact band => cases hcore
  | frontierStack => exact frontierLoop_honest vi vi.seedFrontier maxIter
  | blockRefine => exact frontierLoop_honest vi _ maxIter
  | pyramidSweep => exact pyramidLevels_honest maxIter _ _ _ rfl rfl rfl
  | streamMimic => exact originalRounds_plain.honest (originalSolve_drives vi) obs maxIter
  | priorityLabelSetting => exact prioritySolveObserved_honest vi maxIter
  | priorityLabelCorrecting => exact prioritySolveObserved_honest vi maxIter
  | schurPortal tile portalThetas => exact schurSolve_honest maxIter

/-- A solver that counts rounds, stopped after some of them, returns what `solve` returns
when it is given just as many. -/
theorem U64Solver.solveObserved_prefixed (k : U64Solver) (hrounds : k.countsRounds = true)
    (e : SolveEnv) (vi : ValueIterator) (maxIter : Nat) (obs : SolveObserver) :
    Prefixed (k.solve e vi) (k.solveObserved e vi maxIter obs) := by
  have hfrom : ∀ n i : Nat, i = 0 → i + (n + 1) - 1 + 1 = n + 1 := by omega
  cases k with
  | reference =>
    exact originalRounds_plain.prefixed (originalSolve_drives vi) originalRounds_counts
      (fun n => hfrom n _ rfl) obs maxIter
  | frontier3D => exact frontierLoop_prefixed vi vi.seedFrontier maxIter
  | frontier2D => exact frontierLoop_prefixed vi vi.seedFrontier2d maxIter
  | frontier2DPar =>
    exact jacobiRounds_plain.prefixed frontier2dPar_drives jacobiRounds_counts
      (fun n => Nat.zero_add (n + 1)) obs maxIter
  | frontier2DParUnsafe =>
    show Prefixed (fun n => (vi.frontier2dParUnsafe e.nthreads n e.sched nullObserver).map (·.solve))
      ((vi.frontier2dParUnsafe e.nthreads maxIter e.sched obs).map (·.solve))
    simp only [frontier2dParUnsafe_solve]
    exact Prefixed.bind fun cand => gsRounds_plain.prefixed (gsLoop_drives _ _ () cand)
      gsRounds_counts (fun n => hfrom n _ rfl) obs maxIter
  | frontier2DFused =>
    show Prefixed (fun n => (vi.frontier2dFused e.nthreads n e.sched nullObserver).map (·.solve))
      ((vi.frontier2dFused e.nthreads maxIter e.sched obs).map (·.solve))
    simp only [frontier2dFused_solve]
    exact Prefixed.bind fun cand => gsRounds_plain.prefixed (gsLoop_drives _ _ () cand)
      gsRounds_counts (fun n => hfrom n _ rfl) obs maxIter
  | frontier2DSparse =>
    show Prefixed (fun n => (vi.frontier2dSparse e.nthreads n e.sched nullObserver).map (·.solve))
      ((vi.frontier2dSparse e.nthreads maxIter e.sched obs).map (·.solve))
    simp only [frontier2dSparse_solve]
    exact Prefixed.bind fun cand => gsRounds_plain.prefixed (gsLoop_drives _ _ vi.sparseStart cand)
      gsRounds_counts (fun n => hfrom n _ rfl) obs maxIter
  | frontier2DSparseCompact band => cases hrounds
  | frontierStack => exact frontierLoop_prefixed vi vi.seedFrontier maxIter
  | blockRefine => exact frontierLoop_prefixed vi _ maxIter
  | pyramidSweep => cases hrounds
  | streamMimic =>
    exact originalRounds_plain.prefixed (originalSolve_drives vi) originalRounds_counts
      (fun n => hfrom n _ rfl) obs maxIter
  | priorityLabelSetting => cases hrounds
  | priorityLabelCorrecting => cases hrounds
  | schurPortal tile portalThetas => exact schurSolve_prefixed maxIter

end Entry

/-- Two workers in turn, no pre-pass and nothing out of core. -/
def plainEnv : SolveEnv where
  nthreads := 2
  sched := inTurn
  prep _ _ vi := (fun p => (vi.costs p, vi.policy p), 0)
  outOfCore _ _ _ _ := none

/-- Stops a solve at the first boundary of two rounds. -/
def stopAtTwo : SolveObserver := ⟨2, fun _ _ _ => .stop⟩

theorem slipRow_stopped : ∃ r,
    U64Solver.frontier2DFused.solveObserved plainEnv slipRow 10 stopAtTwo = some r ∧
      r.2.stopped = true ∧ r.2.iters = 2 ∧ r.1.costs ⟨2, 0, 0⟩ = 10 * probBase := by
  have hrun : (U64Solver.frontier2DFused.solveObserved plainEnv slipRow 10 stopAtTwo).map (fun r =>
      (r.2.stopped, r.2.iters, r.1.costs ⟨2, 0, 0⟩)) = some (true, 2, 10 * probBase) := by
    decide +kernel
  obtain ⟨r, hr, hout⟩ := Option.map_eq_some_iff.mp hrun
  simp only [Prod.mk.injEq] at hout
  exact ⟨r, hr, hout⟩

/-- A stopped solve asked its observer. -/
theorem slipRow_honest : ∃ r,
    U64Solver.frontier2DFused.solveObserved plainEnv slipRow 10 stopAtTwo = some r ∧
      r.2.stopped = true ∧ r.1.costs ⟨2, 0, 0⟩ = 10 * probBase ∧
      Honest (U64Solver.frontier2DFused.solve plainEnv slipRow 10) stopAtTwo (some r) := by
  obtain ⟨r, hr, hstop, _, hcost⟩ := slipRow_stopped
  refine ⟨r, hr, hstop, hcost, ?_⟩
  generalize slipRow = vi at hr ⊢
  rw [← hr]
  exact U64Solver.solveObserved_honest .frontier2DFused rfl plainEnv vi 10 stopAtTwo

/-- It is the solve of two rounds. -/
theorem slipRow_prefixed : ∃ r out,
    U64Solver.frontier2DFused.solveObserved plainEnv slipRow 10 stopAtTwo = some r ∧
      r.1.costs ⟨2, 0, 0⟩ = 10 * probBase ∧
      U64Solver.frontier2DFused.solve plainEnv slipRow 2 = some (r.1, out) := by
  obtain ⟨r, hr, hstop, hiters, hcost⟩ := slipRow_stopped
  suffices h : ∃ out, U64Solver.frontier2DFused.solve plainEnv slipRow 2 = some (r.1, out) from
    h.elim fun out hout => ⟨r, out, hr, hcost, hout⟩
  clear hcost
  generalize slipRow = vi at hr ⊢
  have h := U64Solver.solveObserved_prefixed .frontier2DFused rfl plainEnv vi 10 stopAtTwo
  rw [hr] at h
  obtain ⟨converged, hplain⟩ := h hstop
  rw [hiters] at hplain
  exact ⟨_, hplain⟩

end ValueIteration
