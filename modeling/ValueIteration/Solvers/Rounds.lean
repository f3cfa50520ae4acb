import ValueIteration.Lib.Watched
import ValueIteration.Solvers.Engine
import ValueIteration.Solvers.Original

/-!
# Solves as rounds under observation

The loops of the solvers are machines that work in rounds, and a probe between two of them
shows the observer the field so far. What an observer can and cannot do to a solve is
shown once for all of them.
-/

set_option autoImplicit false

namespace ValueIteration

open ValueIterator Watched

/-- What a solve returns: the field and the outcome. -/
abbrev Solve := ValueIterator × SolveOutcome

def InPlaceRun.solve (r : InPlaceRun) : Solve := (r.vi, r.outcome)

def ParRun.solve (r : ParRun) : Solve := (r.field, r.outcome)

/-- What an observer may conclude from the result `o` of a solve that is `plain` when
nobody watches. -/
def Honest (plain : Option Solve) (obs : SolveObserver) : Option Solve → Prop
  | none => plain = none
  | some r => (r.2.stopped = false → r.2.cancelled = false → plain = some r) ∧
      (r.2.stopped = true → obs.boundary r.2.iters r.2.updates r.1 = .stop) ∧
      (r.2.cancelled = true → ∃ v, obs.boundary r.2.iters r.2.updates v = .cancel)

/-- A stopped solve is the unwatched one with just the iterations it has made. -/
def Prefixed (plain : Nat → Option Solve) : Option Solve → Prop
  | none => True
  | some r => r.2.stopped = true →
      ∃ converged, plain r.2.iters = some (r.1, .running r.2.iters r.2.updates converged)

theorem Honest.bind {α : Type} {o : Option α} {plain seen : α → Option Solve} {obs : SolveObserver}
    (h : ∀ a, Honest (plain a) obs (seen a)) : Honest (o.bind plain) obs (o.bind seen) := by
  cases o with
  | none => rfl
  | some a => exact h a

theorem Prefixed.bind {α : Type} {o : Option α} {plain : α → Nat → Option Solve}
    {seen : α → Option Solve} (h : ∀ a, Prefixed (plain a) (seen a)) :
    Prefixed (fun n => o.bind fun a => plain a n) (o.bind seen) := by
  cases o with
  | none => trivial
  | some a => exact h a

theorem Honest.left {plain : Option Solve} {obs : SolveObserver} {iters updates : Nat}
    {v dropped : ValueIterator} {b : Bool}
    (h : obs.boundary iters updates v = if b then .cancel else .stop) :
    Honest plain obs (some (if b then (dropped, .mkCancelled iters updates)
      else (v, .mkStopped iters updates))) := by
  cases b with
  | false =>
    refine ⟨?_, fun _ => h, ?_⟩
    · intro hs
      cases hs
    · intro hc
      cases hc
  | true =>
    refine ⟨?_, ?_, fun _ => ⟨v, h⟩⟩
    · intro _ hc
      cases hc
    · intro hs
      cases hs

/-- The reason to leave: a cancellation or not. -/
def SolveFlow.exit : SolveFlow → Option Bool
  | .proceed => none
  | .stop => some false
  | .cancel => some true

/-! ### Solvers as machines -/

/-- A solver that works in rounds, and what its probe shows between two of them; `dropped`
is the field it returns when it is cancelled. -/
structure Rounds (σ : Type) where
  machine : Machine σ Solve
  iters : σ → Nat
  updates : σ → Nat
  field : σ → ValueIterator
  dropped : σ → ValueIterator

namespace Rounds

variable {σ π : Type} (S : Rounds σ)

/-- What the probe brings back: a reason to leave or none. -/
def answer (obs : SolveObserver) (t : σ) : Option Bool :=
  (obs.boundary (S.iters t) (S.updates t) (S.field t)).exit

def ending : Ending σ Solve Bool → Solve
  | .ended r => r
  | .left cancelled t =>
    if cancelled then (S.dropped t, .mkCancelled (S.iters t) (S.updates t))
    else (S.field t, .mkStopped (S.iters t) (S.updates t))

/-- Left to itself the machine never ends as stopped or cancelled, and when its rounds run
out it hands over the field it would show. -/
structure Plain (S : Rounds σ) : Prop where
  ended : ∀ s r, S.machine.round s = some (.inl r) → r.2.stopped = false ∧ r.2.cancelled = false
  spent : ∀ s, ∃ converged,
    S.machine.spent s = (S.field s, .running (S.iters s) (S.updates s) converged)

/-- `solve` runs the machine from `s`; `rounds` turns the cap on the iterations into one on
the rounds. -/
def Drives (S : Rounds σ) (s : σ) (rounds : Nat → Nat)
    (solve : SolveObserver → Nat → Option Solve) : Prop :=
  ∀ obs maxIter, ∃ π, ∃ w : Watcher σ π Bool, ∃ p, w.answer = S.answer obs ∧
    solve obs maxIter = (S.machine.watched w (rounds maxIter) p s).map S.ending

variable {S}

theorem Plain.solo (hS : S.Plain) : ∀ {n : Nat} {s : σ} {r : Solve}, S.machine.solo n s = some r →
    r.2.stopped = false ∧ r.2.cancelled = false := by
  intro n
  induction n with
  | zero =>
    intro s r h
    cases h
    obtain ⟨converged, heq⟩ := hS.spent s
    rw [heq]
    exact ⟨rfl, rfl⟩
  | succ n ih =>
    intro s r h
    rw [Machine.solo] at h
    split at h
    · cases h
    · next r' hround =>
      cases h
      exact hS.ended s _ hround
    · exact ih h

theorem exit_eq_some {f : SolveFlow} {b : Bool} (h : f.exit = some b) :
    f = if b then .cancel else .stop := by
  cases f with
  | proceed => cases h
  | stop => cases h; rfl
  | cancel => cases h; rfl

variable {s : σ} {rounds : Nat → Nat} {solve : SolveObserver → Nat → Option Solve}

/-- What the machine makes of a solve, as the observer tells it. -/
theorem Drives.cases (h : S.Drives s rounds solve) (obs : SolveObserver) (maxIter : Nat) :
    solve obs maxIter = S.machine.solo (rounds maxIter) s ∨
      ∃ b t, solve obs maxIter = some (S.ending (.left b t)) ∧
        obs.boundary (S.iters t) (S.updates t) (S.field t) = (if b then .cancel else .stop) ∧
        ∃ k, S.machine.orbit (k + 1) s = some t := by
  obtain ⟨π, w, p, hw, heq⟩ := h obs maxIter
  have htells : S.machine.Tells w (rounds maxIter) s _ := Machine.watched_tells _ p s
  rw [heq]
  cases hrun : S.machine.watched w (rounds maxIter) p s with
  | none =>
    rw [hrun] at htells
    exact Or.inl htells.symm
  | some e =>
    rw [hrun] at htells
    cases e with
    | ended r => exact Or.inl htells.symm
    | left b t =>
      obtain ⟨hans, k, _, horbit⟩ := htells
      rw [hw] at hans
      exact Or.inr ⟨b, t, rfl, exit_eq_some hans, k, horbit⟩

/-- Under an observer that does nothing the machine is left to itself. -/
theorem Drives.unwatched (h : S.Drives s rounds solve) (maxIter : Nat) :
    solve nullObserver maxIter = S.machine.solo (rounds maxIter) s := by
  rcases h.cases nullObserver maxIter with heq | ⟨b, t, _, hflow, _⟩
  · exact heq
  · cases b <;> cases hflow

theorem Plain.honest (hS : S.Plain) (h : S.Drives s rounds solve) (obs : SolveObserver)
    (maxIter : Nat) : Honest (solve nullObserver maxIter) obs (solve obs maxIter) := by
  rw [h.unwatched]
  rcases h.cases obs maxIter with heq | ⟨b, t, heq, hflow, _⟩
  · rw [heq]
    cases hsolo : S.machine.solo (rounds maxIter) s with
    | none => rfl
    | some r =>
      obtain ⟨hstop, hcancel⟩ := hS.solo hsolo
      refine ⟨fun _ _ => rfl, ?_, ?_⟩
      · intro hs
        exact absurd (hstop.symm.trans hs) Bool.false_ne_true
      · intro hc
        exact absurd (hcancel.symm.trans hc) Bool.false_ne_true
  · rw [heq]
    exact Honest.left hflow

theorem Plain.prefixed (hS : S.Plain) (h : S.Drives s rounds solve)
    (hcount : ∀ s t, S.machine.round s = some (.inr t) → S.iters t = S.iters s + 1)
    (hrounds : ∀ k, rounds (S.iters s + (k + 1)) = k + 1) (obs : SolveObserver) (maxIter : Nat) :
    Prefixed (solve nullObserver) (solve obs maxIter) := by
  rcases h.cases obs maxIter with heq | ⟨b, t, heq, _, k, horbit⟩
  · rw [heq]
    cases hsolo : S.machine.solo (rounds maxIter) s with
    | none => trivial
    | some r =>
      intro hstop
      exact absurd ((hS.solo hsolo).1.symm.trans hstop) Bool.false_ne_true
  · rw [heq]
    cases b with
    | true =>
      intro hstop
      cases hstop
    | false =>
      intro _
      obtain ⟨converged, hspent⟩ := hS.spent t
      refine ⟨converged, ?_⟩
      show solve nullObserver (S.iters t) = _
      rw [h.unwatched, Machine.orbit_count hcount horbit, hrounds, Machine.solo_of_orbit horbit,
        hspent]
      rfl

end Rounds

/-! ### The solvers that work in place -/

section InPlace

variable {F κ : Type} {sch : Schedule F κ} {obs : SolveObserver}

/-- The state without what the observer sees and when. -/
def LoopState.core (st : LoopState F) : LoopState F := { st with pacer := ⟨0, 0⟩, seen := [] }

/-- The rounds of `frontierLoop`. -/
def frontierRounds (sch : Schedule F κ) : Rounds (LoopState F) where
  machine :=
    { round := fun s =>
        if sch.isEmpty s.frontier then some (.inl (s.vi, .running s.iters s.updates true))
        else (sch.groups s.frontier).map fun gs => .inr (s.round sch gs)
      spent := fun s => (s.vi, .running s.iters s.updates (sch.isEmpty s.frontier)) }
  iters := (·.iters)
  updates := (·.updates)
  field := (·.vi)
  dropped := (·.vi)

theorem frontierRounds_cases {s : LoopState F} {e : Solve ⊕ LoopState F}
    (h : (frontierRounds sch).machine.round s = some e) :
    e = .inl (s.vi, .running s.iters s.updates true) ∨ ∃ gs, e = .inr (s.round sch gs) := by
  simp only [frontierRounds] at h
  split at h
  · cases h
    exact Or.inl rfl
  · obtain ⟨gs, _, hgs⟩ := Option.map_eq_some_iff.mp h
    exact Or.inr ⟨gs, hgs.symm⟩

theorem frontierRounds_counts (s t : LoopState F)
    (h : (frontierRounds sch).machine.round s = some (.inr t)) :
    (frontierRounds sch).iters t = (frontierRounds sch).iters s + 1 := by
  rcases frontierRounds_cases h with heq | ⟨gs, heq⟩
  · cases heq
  · cases heq
    rfl

theorem frontierRounds_plain : (frontierRounds sch).Plain where
  ended := by
    intro s r h
    rcases frontierRounds_cases h with heq | ⟨gs, heq⟩
    · cases heq
      exact ⟨rfl, rfl⟩
    · cases heq
  spent s := ⟨_, rfl⟩

def frontierWatcher (sch : Schedule F κ) (obs : SolveObserver) :
    Watcher (LoopState F) BoundaryPacer Bool where
  asks _ t := !sch.isEmpty t.frontier
  due p t := p.isDue t.iters
  reserve p t := p.reserve t.iters
  answer := (frontierRounds sch).answer obs

theorem frontierLoop_watched (n : Nat) : ∀ st : LoopState F,
    (frontierLoop sch obs n st).map (·.solve) =
      ((frontierRounds sch).machine.watched (frontierWatcher sch obs) n st.pacer st.core).map
        (frontierRounds sch).ending := by
  induction n with
  | zero => intro st; rfl
  | succ n ih =>
    intro st
    rw [frontierLoop]
    by_cases hempty : sch.isEmpty st.frontier = true
    · have hround : (frontierRounds sch).machine.round st.core =
          some (.inl (st.vi, .running st.iters st.updates true)) := if_pos hempty
      rw [if_pos hempty, Machine.watched_done hround]
      rfl
    · have hround : (frontierRounds sch).machine.round st.core =
          (sch.groups st.frontier).map fun gs => .inr (st.round sch gs).core := if_neg hempty
      rw [if_neg hempty]
      cases hg : sch.groups st.frontier with
      | none =>
        rw [hg, Option.map_none] at hround
        rw [Machine.watched_fail hround]
        rfl
      | some gs =>
        rw [hg, Option.map_some] at hround
        simp only
        cases hask : !sch.isEmpty (st.round sch gs).frontier &&
            (st.round sch gs).pacer.isDue (st.round sch gs).iters with
        | false =>
          rw [Machine.watched_pass hround hask]
          exact ih _
        | true =>
          rw [if_pos rfl]
          cases hflow : obs.boundary (st.round sch gs).iters (st.round sch gs).updates
              (st.round sch gs).vi with
          | proceed =>
            rw [Machine.watched_proceed hround hask (congrArg SolveFlow.exit hflow)]
            exact ih _
          | stop =>
            rw [Machine.watched_leave hround hask (congrArg SolveFlow.exit hflow)]
            rfl
          | cancel =>
            rw [Machine.watched_leave hround hask (congrArg SolveFlow.exit hflow)]
            rfl

/-- The loop drives the machine from any state, whatever its timer stands at. -/
theorem frontierLoop_drives (s : LoopState F) (rounds : Nat → Nat)
    (start : SolveObserver → LoopState F) (hstart : ∀ obs, (start obs).core = s) :
    (frontierRounds sch).Drives s rounds fun obs maxIter =>
      (frontierLoop sch obs (rounds maxIter) (start obs)).map (·.solve) := by
  intro obs maxIter
  refine ⟨_, frontierWatcher sch obs, (start obs).pacer, rfl, ?_⟩
  rw [← hstart obs]
  exact frontierLoop_watched (rounds maxIter) (start obs)

/-- The sweeps of `originalLoop`. -/
def originalRounds : Rounds (LoopState ValueIterator) where
  machine :=
    { round := fun s =>
        if !changedBelowReach s.sweep.frontier s.sweep.vi then
          some (.inl (s.sweep.vi, .running s.sweep.iters 0 true))
        else some (.inr s.sweep)
      spent := fun s => (s.vi, .running s.iters 0 false) }
  iters := (·.iters)
  updates := fun _ => 0
  field := (·.vi)
  dropped := (·.vi)

theorem originalRounds_counts (s t : LoopState ValueIterator)
    (h : originalRounds.machine.round s = some (.inr t)) :
    originalRounds.iters t = originalRounds.iters s + 1 := by
  simp only [originalRounds] at h
  split at h
  · cases h
  · cases h
    rfl

theorem originalRounds_plain : originalRounds.Plain where
  ended := by
    intro s r h
    simp only [originalRounds] at h
    split at h
    · cases h
      exact ⟨rfl, rfl⟩
    · cases h
  spent s := ⟨_, rfl⟩

/-- The reference does not ask after its last sweep. -/
def originalWatcher (obs : SolveObserver) :
    Watcher (LoopState ValueIterator) BoundaryPacer Bool where
  asks n _ := n != 0
  due p t := p.isDue t.iters
  reserve p t := p.reserve t.iters
  answer := originalRounds.answer obs

theorem originalLoop_watched (n : Nat) : ∀ st : LoopState ValueIterator,
    some (originalLoop obs n st).solve =
      (originalRounds.machine.watched (originalWatcher obs) (n + 1) st.pacer st.core).map
        originalRounds.ending := by
  induction n with
  | zero =>
    intro st
    unfold originalLoop
    by_cases hch : (!changedBelowReach st.sweep.frontier st.sweep.vi) = true
    · have hround : originalRounds.machine.round st.core =
          some (.inl (st.sweep.vi, .running st.sweep.iters 0 true)) := if_pos hch
      rw [if_pos hch, Machine.watched_done hround]
      rfl
    · have hround : originalRounds.machine.round st.core = some (.inr st.sweep.core) := if_neg hch
      rw [if_neg hch, Machine.watched_pass hround rfl]
      rfl
  | succ n ih =>
    intro st
    unfold originalLoop
    by_cases hch : (!changedBelowReach st.sweep.frontier st.sweep.vi) = true
    · have hround : originalRounds.machine.round st.core =
          some (.inl (st.sweep.vi, .running st.sweep.iters 0 true)) := if_pos hch
      rw [if_pos hch, Machine.watched_done hround]
      rfl
    · have hround : originalRounds.machine.round st.core = some (.inr st.sweep.core) := if_neg hch
      rw [if_neg hch]
      simp only
      cases hdue : st.sweep.pacer.isDue st.sweep.iters with
      | false =>
        have hask : (n + 1 != 0 && st.sweep.pacer.isDue st.sweep.iters) = false := by
          rw [hdue, Bool.and_false]
        rw [Machine.watched_pass hround hask]
        exact ih _
      | true =>
        have hask : (n + 1 != 0 && st.sweep.pacer.isDue st.sweep.iters) = true := by
          rw [hdue]
          rfl
        rw [if_pos rfl]
        cases hflow : obs.boundary st.sweep.iters 0 st.sweep.vi with
        | proceed =>
          rw [Machine.watched_proceed hround hask (congrArg SolveFlow.exit hflow)]
          exact ih _
        | stop =>
          rw [Machine.watched_leave hround hask (congrArg SolveFlow.exit hflow)]
          rfl
        | cancel =>
          rw [Machine.watched_leave hround hask (congrArg SolveFlow.exit hflow)]
          rfl

theorem originalSolve_drives (vi : ValueIterator) :
    originalRounds.Drives (LoopState.start vi vi nullObserver).core (fun n => n - 1 + 1)
      fun obs maxIter => some (vi.originalSolve maxIter obs).solve := by
  intro obs maxIter
  exact ⟨_, originalWatcher obs, _, rfl, originalLoop_watched (maxIter - 1) _⟩

end InPlace

/-! ### The parallel solvers -/

section Parallel

variable {S : Type} {vi : ValueIterator} {sw : Sweep S} {nthreads : Nat}
  {sched : Nat → List (Nat × Bool)} {obs : SolveObserver}

/-- What a parallel solver writes back at its end and what it materialises for the
observer; a solve that has not converged ends with what it would show. -/
structure WriteOut (vi : ValueIterator) where
  last : (Int → Nat) → Bool → ValueIterator
  shown : (Int → Nat) → ValueIterator
  agree : ∀ mem, last mem false = shown mem

def WriteOut.solve (out : WriteOut vi) (run : GsRun) : Solve :=
  (if run.outcome.cancelled then vi else out.last run.mem run.outcome.converged, run.outcome)

/-- The state of the leader's loop without what the observer sees and when. -/
def GsState.core (st : GsState S) : GsState S := { st with pacer := ⟨0, 0⟩, seen := [] }

theorem gsRound_core (cand : List (Nat × Nat)) (st : GsState S) :
    gsRound vi sw nthreads sched cand st.core =
      (gsRound vi sw nthreads sched cand st).map fun r => (r.1.core, r.2) := by
  rw [gsRound, gsRound, Option.map_map]
  rfl

/-- The rounds of `gsLoop`; a state comes with the candidates of the next round, `none`
where the dilation panics. -/
def gsRounds (sw : Sweep S) (nthreads : Nat) (sched : Nat → List (Nat × Bool))
    (out : WriteOut vi) : Rounds (GsState S × Option (List (Nat × Nat))) where
  machine :=
    { round := fun s => s.2.bind fun cand => (gsRound vi sw nthreads sched cand s.1).map fun r =>
        if r.2.isEmpty then .inl (out.last r.1.mem true, .running r.1.iters r.1.updates true)
        else .inr (r.1, nextCands vi r.1.iters r.2)
      spent := fun s => (out.last s.1.mem false, .running s.1.iters s.1.updates false) }
  iters s := s.1.iters
  updates s := s.1.updates
  field s := out.shown s.1.mem
  dropped _ := vi

theorem gsRounds_elim {out : WriteOut vi} {s : GsState S × Option (List (Nat × Nat))}
    {e : Solve ⊕ (GsState S × Option (List (Nat × Nat)))}
    (h : (gsRounds sw nthreads sched out).machine.round s = some e) :
    ∃ st : GsState S, ∃ changed : List CellMoves, st.iters = s.1.iters + 1 ∧
      e = if changed.isEmpty then .inl (out.last st.mem true, .running st.iters st.updates true)
        else .inr (st, nextCands vi st.iters changed) := by
  obtain ⟨cand, _, hmap⟩ := Option.bind_eq_some_iff.mp h
  obtain ⟨r, hr, rfl⟩ := Option.map_eq_some_iff.mp hmap
  obtain ⟨_, _, rfl⟩ := Option.map_eq_some_iff.mp hr
  exact ⟨_, _, rfl, rfl⟩

theorem gsRounds_counts {out : WriteOut vi} (s t : GsState S × Option (List (Nat × Nat)))
    (h : (gsRounds sw nthreads sched out).machine.round s = some (.inr t)) :
    (gsRounds sw nthreads sched out).iters t = (gsRounds sw nthreads sched out).iters s + 1 := by
  obtain ⟨st, changed, hiters, heq⟩ := gsRounds_elim h
  split at heq
  · cases heq
  · cases heq
    exact hiters

theorem gsRounds_plain {out : WriteOut vi} : (gsRounds sw nthreads sched out).Plain where
  ended := by
    intro s r h
    obtain ⟨st, changed, _, heq⟩ := gsRounds_elim h
    split at heq
    · cases heq
      exact ⟨rfl, rfl⟩
    · cases heq
  spent s := ⟨false, congrArg (·, _) (out.agree s.1.mem)⟩

/-- The leader does not ask after the last round. -/
def gsWatcher (sw : Sweep S) (nthreads : Nat) (sched : Nat → List (Nat × Bool))
    (out : WriteOut vi) (obs : SolveObserver) :
    Watcher (GsState S × Option (List (Nat × Nat))) BoundaryPacer Bool where
  asks n _ := n != 0
  due p t := p.isDue t.1.iters
  reserve p t := p.reserve t.1.iters
  answer := (gsRounds sw nthreads sched out).answer obs

theorem gsRounds_round (out : WriteOut vi) (cand : List (Nat × Nat)) (st : GsState S) :
    (gsRounds sw nthreads sched out).machine.round (st.core, some cand) =
      (gsRound vi sw nthreads sched cand st).map fun r =>
        if r.2.isEmpty then .inl (out.last r.1.mem true, .running r.1.iters r.1.updates true)
        else .inr (r.1.core, nextCands vi r.1.iters r.2) := by
  show (gsRound vi sw nthreads sched cand st.core).map _ = _
  rw [gsRound_core, Option.map_map]
  rfl

theorem gsRound_pacer {cand : List (Nat × Nat)} {st : GsState S} {r : GsState S × List CellMoves}
    (h : gsRound vi sw nthreads sched cand st = some r) : r.1.pacer = st.pacer := by
  obtain ⟨_, _, rfl⟩ := Option.map_eq_some_iff.mp h
  rfl

theorem gsLoop_watched (out : WriteOut vi) (n : Nat) : ∀ (cand : List (Nat × Nat)) (st : GsState S),
    (gsLoop vi sw nthreads sched (fun iters updates mem => obs.boundary iters updates (out.shown mem))
        n cand st).map out.solve =
      ((gsRounds sw nthreads sched out).machine.watched (gsWatcher sw nthreads sched out obs) (n + 1)
        st.pacer (st.core, some cand)).map (gsRounds sw nthreads sched out).ending := by
  induction n with
  | zero =>
    intro cand st
    have hround := @gsRounds_round S vi sw nthreads sched out cand st
    rw [gsLoop]
    cases hgs : gsRound vi sw nthreads sched cand st with
    | none =>
      rw [hgs, Option.map_none] at hround
      rw [Machine.watched_fail hround]
      rfl
    | some r =>
      rw [hgs, Option.map_some] at hround
      by_cases hempty : r.2.isEmpty = true
      · rw [if_pos hempty] at hround
        rw [Machine.watched_done hround, Option.map_some, Option.map_some, hempty]
        rfl
      · rw [if_neg hempty] at hround
        rw [Machine.watched_pass hround rfl, Option.map_some, Option.map_some,
          Bool.eq_false_of_not_eq_true hempty]
        rfl
  | succ n ih =>
    intro cand st
    have hround := @gsRounds_round S vi sw nthreads sched out cand st
    rw [gsLoop]
    cases hgs : gsRound vi sw nthreads sched cand st with
    | none =>
      rw [hgs, Option.map_none] at hround
      rw [Machine.watched_fail hround]
      rfl
    | some r =>
      obtain ⟨st', changed⟩ := r
      have hpacer : st'.pacer = st.pacer := gsRound_pacer hgs
      rw [hgs, Option.map_some] at hround
      simp only at hround ⊢
      by_cases hempty : changed.isEmpty = true
      · rw [if_pos hempty] at hround
        rw [if_pos hempty, Machine.watched_done hround]
        rfl
      rw [if_neg hempty] at hround
      rw [if_neg hempty]
      -- the rest of the loop, from the dilation on
      have hnext : ∀ (u : GsState S) (rest : Option GsRun), u.core = st'.core →
          (nextCands vi st'.iters changed = none → rest = none) →
          (∀ next, nextCands vi st'.iters changed = some next → rest = gsLoop vi sw nthreads sched
            (fun iters updates mem => obs.boundary iters updates (out.shown mem)) n next u) →
          rest.map out.solve =
            ((gsRounds sw nthreads sched out).machine.watched (gsWatcher sw nthreads sched out obs)
              (n + 1) u.pacer (st'.core, nextCands vi st'.iters changed)).map
                (gsRounds sw nthreads sched out).ending := by
        intro u rest hcore hnone hsome
        cases hc : nextCands vi st'.iters changed with
        | none =>
          rw [hnone hc, Machine.watched_fail rfl]
          rfl
        | some next =>
          rw [hsome next hc, ← hcore]
          exact ih next u
      cases hdue : st'.pacer.isDue st'.iters with
      | false =>
        have hask : (n + 1 != 0 && st'.pacer.isDue st'.iters) = false := by
          rw [hdue, Bool.and_false]
        rw [← hpacer, Machine.watched_pass hround hask, if_neg Bool.false_ne_true]
        exact hnext st' _ rfl (fun hc => by rw [hc]) fun next hc => by rw [hc]
      | true =>
        have hask : (n + 1 != 0 && st'.pacer.isDue st'.iters) = true := by
          rw [hdue]
          rfl
        rw [← hpacer, if_pos rfl]
        cases hflow : obs.boundary st'.iters st'.updates (out.shown st'.mem) with
        | proceed =>
          rw [Machine.watched_proceed hround hask (congrArg SolveFlow.exit hflow)]
          exact hnext st'.observed _ rfl (fun hc => by rw [hc]) fun next hc => by rw [hc]
        | stop =>
          rw [Machine.watched_leave hround hask (congrArg SolveFlow.exit hflow), Option.map_some,
            Option.map_some]
          exact congrArg (fun v => some (v, SolveOutcome.mkStopped st'.iters st'.updates))
            (out.agree st'.mem)
        | cancel =>
          rw [Machine.watched_leave hround hask (congrArg SolveFlow.exit hflow)]
          rfl

theorem gsLoop_drives (out : WriteOut vi) (mem : Int → Nat) (own : S) (cand : List (Nat × Nat)) :
    (gsRounds sw nthreads sched out).Drives ((GsState.start mem own nullObserver).core, some cand)
      (fun n => n - 1 + 1) fun obs maxIter =>
        (gsLoop vi sw nthreads sched
          (fun iters updates mem => obs.boundary iters updates (out.shown mem)) (maxIter - 1) cand
          (GsState.start mem own obs)).map out.solve := by
  intro obs maxIter
  exact ⟨_, gsWatcher sw nthreads sched out obs, _, rfl, gsLoop_watched out (maxIter - 1) cand _⟩

/-- The padded layout, which skips the same states at the end as at a boundary. -/
def paddedOut (m : CellModel) : WriteOut vi := ⟨fun mem _ => vi.materialize m mem, vi.materialize m,
  fun _ => rfl⟩

/-- The fused layout, which at the end also skips what a converged solve has not reached. -/
def fusedOut (m : CellModel) : WriteOut vi where
  last mem converged := vi.writeBack m mem
    (vi.finalPolicy m (fun i => m.skip i || (converged && mem i == unreached)) mem)
  shown := vi.materialize m
  agree mem := by
    simp only [Bool.false_and, Bool.or_false]
    rfl

theorem frontier2dFused_solve (maxIter : Nat) :
    (vi.frontier2dFused nthreads maxIter sched obs).map (·.solve) = vi.seedCands.bind fun cand =>
      (vi.asyncGsEngine nthreads maxIter sched obs (Fused.buildDirect vi).cells
        (Fused.buildDirect vi).words cand).map
          (@fusedOut vi (Fused.buildDirect vi).cells).solve := by
  simp only [frontier2dFused, Option.map_bind, Function.comp_def, Option.map_map]
  rfl

theorem frontier2dParUnsafe_solve (maxIter : Nat) :
    (vi.frontier2dParUnsafe nthreads maxIter sched obs).map (·.solve) = vi.seedCands.bind fun cand =>
      (vi.asyncGsEngine nthreads maxIter sched obs (Padded.build vi).cells
        (Padded.build vi).words cand).map
          (@paddedOut vi (Padded.build vi).cells).solve := by
  simp only [frontier2dParUnsafe, Option.map_bind, Function.comp_def, Option.map_map]
  rfl

theorem frontier2dSparse_solve (maxIter : Nat) :
    (vi.frontier2dSparse nthreads maxIter sched obs).map (·.solve) =
      (if vi.dims.nt ≤ 64 then vi.seedCands else none).bind fun cand =>
        (gsLoop vi (vi.sparseSweep (Fused.buildDirect vi).cells) nthreads sched
          (fun iters updates mem =>
            obs.boundary iters updates (vi.materialize (Fused.buildDirect vi).cells mem))
          (maxIter - 1) cand
          (GsState.start (Fused.buildDirect vi).words vi.sparseStart obs)).map
            (@fusedOut vi (Fused.buildDirect vi).cells).solve := by
  rw [frontier2dSparse]
  split
  · simp only [Option.map_bind, Function.comp_def, Option.map_map]
    rfl
  · rfl

/-- The state of the Jacobi rounds without what the observer sees and when. -/
def ValueIterator.JacobiState.core (st : JacobiState) : JacobiState :=
  { st with pacer := ⟨0, 0⟩, seen := [] }

/-- The rounds of `jacobiLoop`. -/
def jacobiRounds (vi : ValueIterator) (nthreads : Nat) (m : CellModel) : Rounds JacobiState where
  machine :=
    { round := fun s =>
        if s.frontier.popcount == 0 then
          some (.inl (vi.materialize m s.mem, .running s.iters s.updates true))
        else (s.frontier.dilate vi.mx vi.my).map fun cand =>
          .inr (JacobiState.apply vi s m (vi.computeRound nthreads m s.mem cand.enumerate))
      spent := fun s => (vi.materialize m s.mem,
        .running s.iters s.updates (s.frontier.popcount == 0)) }
  iters := (·.iters)
  updates := (·.updates)
  field s := vi.materialize m s.mem
  dropped _ := vi

theorem jacobiRounds_cases {m : CellModel} {s : JacobiState} {e : Solve ⊕ JacobiState}
    (h : (jacobiRounds vi nthreads m).machine.round s = some e) :
    e = .inl (vi.materialize m s.mem, .running s.iters s.updates true) ∨
      ∃ results, e = .inr (JacobiState.apply vi s m results) := by
  simp only [jacobiRounds] at h
  split at h
  · cases h
    exact Or.inl rfl
  · obtain ⟨cand, _, hcand⟩ := Option.map_eq_some_iff.mp h
    exact Or.inr ⟨_, hcand.symm⟩

theorem jacobiRounds_counts {m : CellModel} (s t : JacobiState)
    (h : (jacobiRounds vi nthreads m).machine.round s = some (.inr t)) :
    (jacobiRounds vi nthreads m).iters t = (jacobiRounds vi nthreads m).iters s + 1 := by
  rcases jacobiRounds_cases h with heq | ⟨results, heq⟩
  · cases heq
  · cases heq
    rfl

theorem jacobiRounds_plain {m : CellModel} : (jacobiRounds vi nthreads m).Plain where
  ended := by
    intro s r h
    rcases jacobiRounds_cases h with heq | ⟨results, heq⟩
    · cases heq
      exact ⟨rfl, rfl⟩
    · cases heq
  spent s := ⟨_, rfl⟩

def jacobiWatcher (vi : ValueIterator) (nthreads : Nat) (m : CellModel) (obs : SolveObserver) :
    Watcher JacobiState BoundaryPacer Bool where
  asks _ t := !(t.frontier.popcount == 0)
  due p t := p.isDue t.iters
  reserve p t := p.reserve t.iters
  answer := (jacobiRounds vi nthreads m).answer obs

theorem jacobiLoop_watched (m : CellModel) (n : Nat) : ∀ st : JacobiState,
    (vi.jacobiLoop nthreads obs m n st).map (@paddedOut vi m).solve =
      ((jacobiRounds vi nthreads m).machine.watched (jacobiWatcher vi nthreads m obs) n st.pacer
        st.core).map (jacobiRounds vi nthreads m).ending := by
  induction n with
  | zero => intro st; rfl
  | succ n ih =>
    intro st
    rw [jacobiLoop]
    by_cases hempty : (st.frontier.popcount == 0) = true
    · have hround : (jacobiRounds vi nthreads m).machine.round st.core =
          some (.inl (vi.materialize m st.mem, .running st.iters st.updates true)) := if_pos hempty
      rw [if_pos hempty, Machine.watched_done hround]
      rfl
    have hround : (jacobiRounds vi nthreads m).machine.round st.core =
        (st.frontier.dilate vi.mx vi.my).map fun cand => .inr (JacobiState.apply vi st m
          (vi.computeRound nthreads m st.mem cand.enumerate)).core := if_neg hempty
    rw [if_neg hempty]
    cases hdil : st.frontier.dilate vi.mx vi.my with
    | none =>
      rw [hdil, Option.map_none] at hround
      rw [Machine.watched_fail hround]
      rfl
    | some cand =>
      rw [hdil, Option.map_some] at hround
      simp only
      generalize hst : JacobiState.apply vi st m
        (vi.computeRound nthreads m st.mem cand.enumerate) = st' at hround ⊢
      have hpacer : st'.pacer = st.pacer := hst ▸ rfl
      rw [← hpacer]
      cases hask : !(st'.frontier.popcount == 0) && st'.pacer.isDue st'.iters with
      | false =>
        rw [Machine.watched_pass hround hask]
        exact ih _
      | true =>
        rw [if_pos rfl]
        cases hflow : obs.boundary st'.iters st'.updates (vi.materialize m st'.mem) with
        | proceed =>
          rw [Machine.watched_proceed hround hask (congrArg SolveFlow.exit hflow)]
          exact ih _
        | stop =>
          rw [Machine.watched_leave hround hask (congrArg SolveFlow.exit hflow)]
          rfl
        | cancel =>
          rw [Machine.watched_leave hround hask (congrArg SolveFlow.exit hflow)]
          rfl

theorem frontier2dPar_drives :
    (jacobiRounds vi nthreads (Padded.build vi).cells).Drives
      ⟨(Padded.build vi).words, vi.seedFrontier2d, 0, 0, ⟨0, 0⟩, [], []⟩ id
      fun obs maxIter => (vi.frontier2dPar nthreads maxIter obs).map (·.solve) := by
  intro obs maxIter
  refine ⟨_, jacobiWatcher vi nthreads (Padded.build vi).cells obs, BoundaryPacer.new obs, rfl, ?_⟩
  simp only [frontier2dPar, Option.map_map]
  exact jacobiLoop_watched (Padded.build vi).cells maxIter _

end Parallel

end ValueIteration
