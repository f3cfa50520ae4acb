import ValueIteration.Solvers.WriteBack

/-!
# Schedule independence of the parallel solvers

From a goal region's blank start, and as long as no reached value plus its penalty
comes to the product limit, every round of the three solvers stays between the
greatest fixed point of the clamped update and the field it began with. So whatever
the interleaving, a converged solve has reached that fixed point.
-/

set_option autoImplicit false

namespace ValueIteration

open Async ValueIterator CellModel

variable {vi : ValueIterator}

/-- The field as `set_goal_region` leaves it: blank, with free finals. -/
structure GoalSet (vi : ValueIterator) : Prop where
  blank : vi.Blank
  finals : ∀ p, vi.dims.Contains p → (vi.stateAt p).finalState = true → (vi.stateAt p).free = true

/-- The clamped update in unbounded arithmetic. -/
def exactUpdate (vi : ValueIterator) : (Pos → Nat) → Pos → Nat :=
  vi.world.operator vi.world.clampedExactCost vi.costs

/-- On its way down to the greatest fixed point, with products that do not wrap. -/
structure Descent (vi : ValueIterator) (V : Pos → Nat) : Prop where
  descending : Chaotic.Descending (exactUpdate vi) vi.costs V
  inRange : ∀ p, vi.dims.Contains p → (vi.stateAt p).free = true → vi.world.InRange p (V p)

section Descent
variable {m : CellModel} {E : Set Pos} {mem fin : Int → Nat} {changed : List CellMoves}

/-- A moved state holds a value that was written. -/
theorem RoundSpec.value (h : RoundSpec m vi E mem fin changed) {p : Pos}
    (hp : vi.dims.Contains p) : m.field vi fin p = m.field vi mem p ∨
      (p, m.field vi fin p) ∈ writesOf changed := by
  by_cases heq : m.field vi fin p = m.field vi mem p
  · exact Or.inl heq
  · obtain ⟨c, moves, hc, e, he, hpe⟩ := (h.moved p hp).mp heq
    have hw := mem_writesOf.mpr ⟨c, moves, hc, e, he, rfl⟩
    have hval := h.written _ hw
    rw [← hpe] at hw hval
    right
    rwa [hval]

/-- A round whose writes stay in range continues the descent. -/
theorem RoundSpec.descent (hgoal : GoalSet vi) (h : RoundSpec m vi E mem fin changed)
    (hallow : ∀ w ∈ writesOf changed, vi.world.InRange w.1 w.2)
    (hd : Descent vi (m.field vi mem)) : Descent vi (m.field vi fin) := by
  have hmono : Monotone (exactUpdate vi) := World.operator_clampedExact_mono vi.costs
  have hbelow : ∀ V, V ≤ vi.costs → exactUpdate vi V ≤ vi.costs :=
    fun V _ => hgoal.blank.operator_le V
  have heval : ∀ (V : Pos → Nat) (s : Pos), vi.world.evaluable s = true →
      exactUpdate vi V s = (vi.world.backup vi.world.clampedExactCost V s).1 := by
    intro V s hev
    simp only [exactUpdate, World.operator, hev, if_true]
  have hrange : ∀ p, vi.dims.Contains p → (vi.stateAt p).free = true →
      vi.world.InRange p (m.field vi fin p) := by
    intro p hp hfree
    rcases h.value hp with heq | hw
    · rw [heq]
      exact hd.inRange p hp hfree
    · exact hallow _ hw
  have hoff : ∀ p, ¬ vi.dims.Contains p → m.field vi fin p = m.field vi mem p := by
    intro p hp
    rw [CellModel.field, CellModel.field, if_neg hp, if_neg hp]
  have hbound := h.between (GreatestFixed.greatest (exactUpdate vi) vi.costs) (m.field vi mem)
    (fun t ht hfree => ⟨hd.inRange t ht hfree, hrange t ht hfree⟩)
    (by
      intro s hev
      rw [← heval _ s hev, GreatestFixed.greatest_isFixed hmono hbelow])
    (by
      intro s hev
      rw [← heval _ s hev]
      exact hd.descending.update_le s)
    (fun p _ => ⟨hd.descending.greatest_le p, le_refl _⟩)
  have hboth : ∀ p, GreatestFixed.greatest (exactUpdate vi) vi.costs p ≤ m.field vi fin p ∧
      m.field vi fin p ≤ m.field vi mem p := by
    intro p
    by_cases hp : vi.dims.Contains p
    · exact hbound p hp
    · rw [hoff p hp]
      exact ⟨hd.descending.greatest_le p, le_refl _⟩
  refine ⟨hd.descending.round hmono (fun p => (hboth p).2) (fun p => (hboth p).1) ?_, hrange⟩
  intro s
  by_cases hact : vi.world.evaluable s = true ∧ s ∈ E
  · right
    obtain ⟨r, hr, hval⟩ := h.mixed.backs s hact.1 hact.2
    have hcs := (evaluable_iff.mp hact.1).1
    have hb := hr.bounds world_normed (m.field vi fin) (m.field vi mem) (by
      rintro t ht v hv
      have hct := (reads_inBox hcs ht).1
      obtain ⟨_, _, _, _, _, hfree, _⟩ := reads_elim ht
      rcases hv with rfl | rfl
      · exact ⟨(hboth t).2, le_refl _, hd.inRange t hct hfree⟩
      · exact ⟨le_refl _, (hboth t).2, hrange t hct hfree⟩)
    rw [heval _ s hact.1, ← hval]
    exact hb.1
  · exact Or.inl (h.mixed.frame s hact)

/-- A regime that also keeps the descent, for writes in range. -/
def Regime.descending (R : Regime vi) : Regime vi where
  cells := R.cells
  Proper := R.Proper
  Good V := R.Good V ∧ Descent vi V
  Allowed p v := R.Allowed p v ∧ vi.world.InRange p v
  models := R.models
  fits _ _ hp hv h := R.fits _ _ hp hv h.1

theorem Regime.Stable.descending {R : Regime vi} (h : R.Stable) (hgoal : GoalSet vi) :
    R.descending.Stable := by
  intro cands its nthreads sched mem fin logs hcand hn hrun hproper hgood hfits hallow
  obtain ⟨hfin, hstep⟩ := h hcand hn hrun hproper hgood.1 hfits
    fun w hw => ⟨(hallow w hw).1, (hallow w hw).2.1⟩
  exact ⟨hfin, fun hspec => ⟨hstep hspec,
    hspec.descent hgoal (fun w hw => (hallow w hw).2.2) hgood.2⟩⟩

theorem Regime.Carried.descending {R : Regime vi} (h : R.Carried) (hgoal : GoalSet vi) :
    R.descending.Carried := by
  intro E mem fin changed hspec hallow hgood
  exact ⟨h hspec (fun w hw => ⟨(hallow w hw).1, (hallow w hw).2.1⟩) hgood.1,
    hspec.descent hgoal (fun w hw => (hallow w hw).2.2) hgood.2⟩

end Descent

/-- The padded layout carries no property of its own. -/
def paddedRegime (vi : ValueIterator) : Regime vi where
  cells := (Padded.build vi).cells
  Proper _ _ := True
  Good _ := True
  Allowed _ _ := True
  models := Padded.models
  fits p v _ _ _ := Padded.fits p v

theorem paddedRegime_carried : (paddedRegime vi).Carried := fun _ _ _ => trivial

/-- The fused layout keeps every reached state supported, for words that are not
mistaken for the sentinel. -/
def fusedRegime (vi : ValueIterator) : Regime vi where
  cells := (Fused.buildDirect vi).cells
  Proper := FusedProper vi
  Good V := vi.world.Supported V
  Allowed p v := v = maxCost ∨ wrappingAdd v (vi.world.pen p) ≠ unreached
  models := Fused.models
  fits _ _ hp hv h := Fused.fits hp hv.lt_word h

theorem fusedRegime_stable : (fusedRegime vi).Stable := by
  intro cands its nthreads sched mem fin logs hcand hn hrun hproper hgood hfits _
  obtain ⟨hfin, hkeep⟩ := Fused.round_proper hproper hcand hn hrun hfits hgood
  refine ⟨hfin, fun hspec => hspec.mixed.supported hgood ?_⟩
  intro s t hs ht
  exact hkeep t (reads_inBox (evaluable_iff.mp hs).1 ht).1

section Solve
variable {R : Regime vi} {nthreads maxIter : Nat} {sched : Nat → List (Nat × Bool)}
  {obs : SolveObserver} {run : GsRun} {r : ParRun}

/-- The policy pass of the padded layout skips the states that are not evaluated. -/
theorem padded_skip {mem : Int → Nat} {p : Pos} (hev : vi.world.evaluable p = true)
    (hsk : (Padded.build vi).cells.skip (vi.padIdx p) = true) :
    (Padded.build vi).cells.field vi mem p = maxCost := by
  rw [Padded.models.skip_eq p (evaluable_iff.mp hev).1, hev] at hsk
  cases hsk

/-- The policy pass of the fused layout also skips unreached states. -/
theorem fused_skip {p : Pos} (hev : vi.world.evaluable p = true)
    (hsk : fusedSkip (Fused.buildDirect vi).cells run (vi.padIdx p) = true) :
    (Fused.buildDirect vi).cells.field vi run.mem p = maxCost := by
  have hp := (evaluable_iff.mp hev).1
  rw [fusedSkip, Fused.models.skip_eq p hp, hev] at hsk
  simp only [Bool.not_true, Bool.false_or, Bool.and_eq_true, beq_iff_eq] at hsk
  rw [field_of_contains hp, fused_before hp, if_pos hsk.2]

theorem padded_end (hR : R.cells = (Padded.build vi).cells) (hs : R.Sound run.mem ∅)
    (hc : run.outcome.cancelled = false) :
    let v := (vi.endSolve (Padded.build vi).cells (Padded.build vi).cells.skip run).field
    Solved vi v ∧ R.Good (vi.onMap v.costs) := by
  rw [← hR]
  refine ⟨endSolve_solved hs hc ?_ ?_, ?_⟩
  · intro p hp hev
    rw [R.models.skip_eq p hp, hev]
    rfl
  · intro p hev hskip
    rw [hR] at hskip ⊢
    exact padded_skip hev hskip
  · rw [endSolve_onMap hc]
    exact hs.good

theorem fused_end (hR : R.cells = (Fused.buildDirect vi).cells) (hs : R.Sound run.mem ∅)
    (hc : run.outcome.cancelled = false) :
    let m := (Fused.buildDirect vi).cells
    let v := (vi.endSolve m (fusedSkip m run) run).field
    Solved vi v ∧ R.Good (vi.onMap v.costs) := by
  simp only
  rw [← hR]
  refine ⟨endSolve_solved hs hc ?_ ?_, ?_⟩
  · intro p hp hev
    rw [fusedSkip, R.models.skip_eq p hp, hev]
    rfl
  · intro p hev hskip
    rw [hR] at hskip ⊢
    exact fused_skip hev hskip
  · rw [endSolve_onMap hc]
    exact hs.good

/-- What a start has to satisfy for a regime over its own values. -/
structure Regime.Starts (R : Regime vi) (words : Int → Nat) : Prop where
  le : ∀ p, vi.dims.Contains p → vi.costs p ≤ maxCost
  proper : ∀ i, R.Proper i (words i)
  good : R.Good (R.cells.field vi words)
  unreached : ∀ p, vi.dims.Contains p → vi.costs p = maxCost → R.cells.field vi words p = maxCost

theorem Regime.Starts.sound {words : Int → Nat} (h : R.Starts words) {cand : List (Nat × Nat)}
    (hcand : vi.seedCands = some cand) {its : Nat × Nat → List Nat}
    (hits : ∀ c it, it < vi.dims.nt → it ∈ its c) : R.Sound words (activeSet cand its) :=
  ⟨h.proper, h.good, seedCands_covered hcand h.le h.unreached hits⟩

/-- The marked cells cover the start of the Jacobi rounds. -/
theorem Regime.Starts.jacobi {words : Int → Nat} (h : R.Starts words) :
    R.Sound words (boxedBy vi vi.seedFrontier2d) := by
  refine ⟨h.proper, h.good, covered_start h.le h.unreached ?_⟩
  intro s t _ ht hbox hlt
  exact ⟨t, ht, seedFrontier2d_spec.2 t ht hlt, hbox⟩

/-- A converged run of the engine leaves a sound memory with nothing uncovered. -/
theorem asyncGsEngine_sound {m : CellModel} (hR : R.cells = m) (hstable : R.Stable)
    (hn : 0 < nthreads) {words : Int → Nat} (hstart : R.Starts words) {cand : List (Nat × Nat)}
    (hcand : vi.seedCands = some cand)
    (hrun : vi.asyncGsEngine nthreads maxIter sched obs m words cand = some run)
    (hallow : R.Allows run.writes) (hconv : run.outcome.converged = true) :
    R.Sound run.mem ∅ ∧ run.outcome.cancelled = false := by
  subst hR
  obtain ⟨⟨E, hs, hend⟩, _⟩ := gsLoop_sound R rfl hstable (fullSweep_lawful R.cells) hn hcand
    (hstart.sound hcand fun _ it hit => List.mem_range.mpr hit) hrun hallow
  obtain ⟨rfl, hc⟩ := hend hconv
  exact ⟨hs, hc⟩

theorem frontier2dParUnsafe_sound (hR : R.cells = (Padded.build vi).cells) (hstable : R.Stable)
    (hn : 0 < nthreads) (hstart : R.Starts (Padded.build vi).words)
    (h : vi.frontier2dParUnsafe nthreads maxIter sched obs = some r) (hallow : R.Allows r.writes)
    (hconv : r.outcome.converged = true) : Solved vi r.field ∧ R.Good (vi.onMap r.field.costs) := by
  obtain ⟨cand, hcand, hmap⟩ := Option.bind_eq_some_iff.mp h
  obtain ⟨run, hrun, rfl⟩ := Option.map_eq_some_iff.mp hmap
  obtain ⟨hs, hc⟩ := asyncGsEngine_sound hR hstable hn hstart hcand hrun hallow hconv
  exact padded_end hR hs hc

theorem frontier2dFused_sound (hR : R.cells = (Fused.buildDirect vi).cells) (hstable : R.Stable)
    (hn : 0 < nthreads) (hstart : R.Starts (Fused.buildDirect vi).words)
    (h : vi.frontier2dFused nthreads maxIter sched obs = some r) (hallow : R.Allows r.writes)
    (hconv : r.outcome.converged = true) : Solved vi r.field ∧ R.Good (vi.onMap r.field.costs) := by
  obtain ⟨cand, hcand, hmap⟩ := Option.bind_eq_some_iff.mp h
  obtain ⟨run, hrun, rfl⟩ := Option.map_eq_some_iff.mp hmap
  obtain ⟨hs, hc⟩ := asyncGsEngine_sound hR hstable hn hstart hcand hrun hallow hconv
  exact fused_end hR hs hc

theorem frontier2dPar_sound (hR : R.cells = (Padded.build vi).cells)
    (hproper : ∀ i w, R.Proper i w) (hcarried : R.Carried)
    (hstart : R.Starts (Padded.build vi).words)
    (h : vi.frontier2dPar nthreads maxIter obs = some r) (hallow : R.Allows r.writes)
    (hconv : r.outcome.converged = true) : Solved vi r.field ∧ R.Good (vi.onMap r.field.costs) := by
  obtain ⟨run, hrun, rfl⟩ := Option.map_eq_some_iff.mp h
  rw [← hR] at hrun
  obtain ⟨⟨E, hs, hend⟩, _⟩ := jacobiLoop_sound R hproper hcarried seedFrontier2d_spec.1
    hstart.jacobi (fun _ hmem => by cases hmem) hrun hallow
  obtain ⟨rfl, hc⟩ := hend hconv
  exact padded_end hR hs hc

end Solve

/-- The solvers whose agreement does not depend on the schedule. -/
inductive ParSolver where
  | fused
  | parUnsafe
  | par
  deriving DecidableEq, Repr

namespace ParSolver

def run (k : ParSolver) (vi : ValueIterator) (nthreads maxIter : Nat)
    (sched : Nat → List (Nat × Bool)) (obs : SolveObserver) : Option ParRun :=
  match k with
  | fused => vi.frontier2dFused nthreads maxIter sched obs
  | parUnsafe => vi.frontier2dParUnsafe nthreads maxIter sched obs
  | par => vi.frontier2dPar nthreads maxIter obs

end ParSolver

/-- No value of a run, with the penalty of its state, comes to the product limit
unless it is `MAX_COST`. -/
structure ParRun.InRange (vi : ValueIterator) (r : ParRun) : Prop where
  finals : ∀ p, vi.dims.Contains p → (vi.stateAt p).finalState = true →
    vi.world.InRange p (vi.costs p)
  writes : ∀ w ∈ r.writes, vi.world.InRange w.1 w.2

section Start

theorem InRange.unmistaken {p : Pos} {v : Nat} (h : vi.world.InRange p v) :
    v = maxCost ∨ wrappingAdd v (vi.world.pen p) ≠ unreached := by
  refine h.imp_right fun hlt => ?_
  rw [wrappingAdd, Nat.mod_eq_of_lt (hlt.trans (by decide))]
  have : productLimit < unreached := by decide
  omega

theorem GoalSet.inRange (hgoal : GoalSet vi)
    (hfinals : ∀ p, vi.dims.Contains p → (vi.stateAt p).finalState = true →
      vi.world.InRange p (vi.costs p)) {p : Pos} (hp : vi.dims.Contains p) :
    vi.world.InRange p (vi.costs p) := by
  by_cases hfin : (vi.stateAt p).finalState = true
  · exact hfinals p hp hfin
  · left
    rw [hgoal.blank p hp, if_neg hfin]

theorem GoalSet.descent (hgoal : GoalSet vi)
    (hfinals : ∀ p, vi.dims.Contains p → (vi.stateAt p).finalState = true →
      vi.world.InRange p (vi.costs p)) : Descent vi vi.costs :=
  ⟨Chaotic.Descending.start fun V _ => hgoal.blank.operator_le V,
    fun _ hp _ => hgoal.inRange hfinals hp⟩

theorem GoalSet.supported (hgoal : GoalSet vi) : vi.world.Supported vi.costs := by
  intro s hev hne
  exact absurd (hgoal.blank.evaluable hev) hne

theorem GoalSet.fused_field (hgoal : GoalSet vi)
    (hfinals : ∀ p, vi.dims.Contains p → (vi.stateAt p).finalState = true →
      vi.world.InRange p (vi.costs p)) :
    (Fused.buildDirect vi).cells.field vi (Fused.buildDirect vi).words = vi.costs := by
  funext p
  by_cases hp : vi.dims.Contains p
  · apply Fused.field_words hp ((hgoal.blank.le_maxCost hp).trans_lt maxCost_lt_word)
      (InRange.unmistaken (hgoal.inRange hfinals hp))
    by_cases hfin : (vi.stateAt p).finalState = true
    · exact Or.inl (hgoal.finals p hp hfin)
    · right
      rw [hgoal.blank p hp, if_neg hfin]
  · rw [CellModel.field, if_neg hp]

theorem GoalSet.fused_starts (hgoal : GoalSet vi)
    (hfinals : ∀ p, vi.dims.Contains p → (vi.stateAt p).finalState = true →
      vi.world.InRange p (vi.costs p)) :
    (fusedRegime vi).descending.Starts (Fused.buildDirect vi).words := by
  have hfield := hgoal.fused_field hfinals
  have hle : ∀ p, vi.dims.Contains p → vi.costs p ≤ maxCost := fun p hp => hgoal.blank.le_maxCost hp
  refine ⟨hle, fusedProper_words fun p hp => (hle p hp).trans_lt maxCost_lt_word, ⟨?_, ?_⟩,
    fun p _ hmax => (congrFun hfield p).trans hmax⟩
  · exact hfield ▸ hgoal.supported
  · exact hfield ▸ hgoal.descent hfinals

theorem GoalSet.padded_starts (hgoal : GoalSet vi)
    (hfinals : ∀ p, vi.dims.Contains p → (vi.stateAt p).finalState = true →
      vi.world.InRange p (vi.costs p)) :
    (paddedRegime vi).descending.Starts (Padded.build vi).words := by
  have hfield : (paddedRegime vi).cells.field vi (Padded.build vi).words = vi.costs :=
    Padded.field_words
  exact ⟨fun p hp => hgoal.blank.le_maxCost hp, fun _ => trivial,
    ⟨trivial, hfield ▸ hgoal.descent hfinals⟩, fun p _ hmax => (congrFun hfield p).trans hmax⟩

end Start

namespace ParSolver

variable {k : ParSolver} {nthreads maxIter : Nat} {sched : Nat → List (Nat × Bool)}
  {obs : SolveObserver} {r : ParRun}

/-- A converged run in range holds the clamped update of its own field and did not
leave the descent. -/
theorem solved (hgoal : GoalSet vi) (hn : 0 < nthreads)
    (h : k.run vi nthreads maxIter sched obs = some r) (hconv : r.outcome.converged = true)
    (hrange : r.InRange vi) : Solved vi r.field ∧ Descent vi (vi.onMap r.field.costs) := by
  have hpadded := hgoal.padded_starts hrange.finals
  have hfused := hgoal.fused_starts hrange.finals
  have hcarried : (paddedRegime vi).descending.Carried :=
    Regime.Carried.descending paddedRegime_carried hgoal
  cases k with
  | fused =>
    have hs := frontier2dFused_sound rfl (fusedRegime_stable.descending hgoal) hn hfused h
      (fun w hw _ _ => ⟨InRange.unmistaken (hrange.writes w hw), hrange.writes w hw⟩) hconv
    exact ⟨hs.1, hs.2.2⟩
  | parUnsafe =>
    have hs := frontier2dParUnsafe_sound rfl (Regime.Carried.stable hcarried fun _ _ => trivial) hn
      hpadded h (fun w hw _ _ => ⟨trivial, hrange.writes w hw⟩) hconv
    exact ⟨hs.1, hs.2.2⟩
  | par =>
    have hs := frontier2dPar_sound rfl (fun _ _ => trivial) hcarried hpadded h
      (fun w hw _ _ => ⟨trivial, hrange.writes w hw⟩) hconv
    exact ⟨hs.1, hs.2.2⟩

end ParSolver

section Greatest

/-- In range, a solved field is fixed under the unbounded update too. -/
theorem Solved.exact_fixed {v : ValueIterator} (h : Solved vi v)
    (hd : Descent vi (vi.onMap v.costs)) {s : Pos} (hev : vi.world.evaluable s = true) :
    vi.onMap v.costs s = exactUpdate vi (vi.onMap v.costs) s ∧
      (vi.onMap v.costs s, v.policy s) =
        vi.world.backup vi.world.clampedCost (vi.onMap v.costs) s := by
  have hcs := (evaluable_iff.mp hev).1
  have hfix : (vi.onMap v.costs s, v.policy s) =
      vi.world.backup vi.world.clampedCost (vi.onMap v.costs) s := by
    rw [onMap_of_contains hcs, h.fixed s hev]
    apply World.backup_congr World.clampedCost_local
    intro t ht
    exact (onMap_of_contains (reads_inBox hcs ht).1).symm
  refine ⟨?_, hfix⟩
  have hexact := World.backup_clamped_eq_exact world_normed (s := s) (V := vi.onMap v.costs) (by
    intro t ht
    obtain ⟨_, _, _, _, _, hfree, _⟩ := reads_elim ht
    exact hd.inRange t (reads_inBox hcs ht).1 hfree)
  simp only [exactUpdate, World.operator, hev, if_true]
  rw [← hexact, ← hfix]

/-- Wrapping costs at most what unbounded arithmetic does. -/
theorem clampedUpdate_le_exact (hgoal : GoalSet vi) {U : Pos → Nat} (hU : U ≤ vi.costs) :
    clampedUpdate vi U ≤ exactUpdate vi U := by
  intro s
  by_cases hev : vi.world.evaluable s = true
  · have hcs := (evaluable_iff.mp hev).1
    simp only [clampedUpdate, exactUpdate, World.operator, hev, if_true]
    apply World.backup_mono
    intro c hc
    cases c with
    | none => exact le_refl _
    | some row =>
      have hle : ∀ o ∈ row, U o.1 ≤ maxCost := by
        intro o ho
        have hct := (reads_inBox hcs ⟨row, hc, o.2, ho⟩).1
        exact (hU o.1).trans (hgoal.blank.le_maxCost hct)
      simp only [World.clampedCost, World.clampedExactCost]
      split
      · next hany =>
        obtain ⟨o, ho, hmax⟩ := List.any_eq_true.mp hany
        rw [if_pos (List.any_eq_true.mpr ⟨o, ho, decide_eq_true (beq_iff_eq.mp hmax).ge⟩)]
      · next hany =>
        rw [if_neg]
        · exact Nat.div_le_div_right (Nat.mod_le _ _)
        · intro hany'
          obtain ⟨o, ho, hmax⟩ := List.any_eq_true.mp hany'
          refine hany (List.any_eq_true.mpr ⟨o, ho, ?_⟩)
          exact beq_iff_eq.mpr (le_antisymm (hle o ho) (of_decide_eq_true hmax))
  · simp only [clampedUpdate, exactUpdate, World.operator, hev, Bool.false_eq_true, if_false,
      le_refl]

/-- A solved field that never left the descent is the greatest fixed point below the
start, of the update in machine words as of the one in unbounded arithmetic. -/
theorem Solved.isGreatest (hgoal : GoalSet vi) {v : ValueIterator} (h : Solved vi v)
    (hd : Descent vi (vi.onMap v.costs)) :
    IsGreatest {U | exactUpdate vi U = U ∧ U ≤ vi.costs} (vi.onMap v.costs) ∧
      IsGreatest {U | clampedUpdate vi U = U ∧ U ≤ vi.costs} (vi.onMap v.costs) := by
  have hmono : Monotone (exactUpdate vi) := World.operator_clampedExact_mono vi.costs
  have hbelow : ∀ V, V ≤ vi.costs → exactUpdate vi V ≤ vi.costs :=
    fun V _ => hgoal.blank.operator_le V
  have hrest : ∀ (V : Pos → Nat) (s : Pos), ¬ vi.world.evaluable s = true →
      exactUpdate vi V s = vi.costs s ∧ clampedUpdate vi V s = vi.costs s := by
    intro V s hev
    simp only [exactUpdate, clampedUpdate, World.operator, hev, Bool.false_eq_true, if_false,
      and_self]
  have hexact : IsGreatest {U | exactUpdate vi U = U ∧ U ≤ vi.costs} (vi.onMap v.costs) := by
    apply hd.descending.isGreatest hmono hbelow
    intro s
    by_cases hev : vi.world.evaluable s = true
    · exact (h.exact_fixed hd hev).1.le
    · rw [(hrest _ s hev).1]
      exact hd.descending.le_start s
  refine ⟨hexact, ⟨?_, hd.descending.le_start⟩, ?_⟩
  · funext s
    by_cases hev : vi.world.evaluable s = true
    · simp only [clampedUpdate, World.operator, hev, if_true]
      rw [← (h.exact_fixed hd hev).2]
    · rw [(hrest _ s hev).2, ← (hrest (vi.onMap v.costs) s hev).1]
      exact congrFun hexact.1.1 s
  · rintro U ⟨hfix, hle⟩
    have hpost : GreatestFixed.PostFixed (exactUpdate vi) vi.costs U :=
      ⟨hle, hfix.ge.trans (clampedUpdate_le_exact hgoal hle)⟩
    exact (GreatestFixed.le_greatest hpost).trans hd.descending.greatest_le

/-- Its actions are the first minimising ones. -/
theorem Solved.policy_eq {v : ValueIterator} (h : Solved vi v) (hd : Descent vi (vi.onMap v.costs))
    {p : Pos} (hp : vi.dims.Contains p) : v.policy p = if vi.world.evaluable p
      then (vi.world.backup vi.world.clampedCost (vi.onMap v.costs) p).2 else none := by
  split
  · next hev => exact congrArg Prod.snd (h.exact_fixed hd hev).2
  · next hev => exact h.rest p hp (Bool.not_eq_true _ ▸ hev)

/-- So there is one such field. -/
theorem Solved.unique (hgoal : GoalSet vi) {v v' : ValueIterator} (h : Solved vi v)
    (hd : Descent vi (vi.onMap v.costs)) (h' : Solved vi v')
    (hd' : Descent vi (vi.onMap v'.costs)) : v' = v := by
  have heq : vi.onMap v'.costs = vi.onMap v.costs :=
    (h'.isGreatest hgoal hd').1.unique (h.isGreatest hgoal hd).1
  have hcost : ∀ p, vi.dims.Contains p → v'.costs p = v.costs p := by
    intro p hp
    have hp' := congrFun heq p
    rwa [onMap_of_contains hp, onMap_of_contains hp] at hp'
  have hpol : ∀ p, vi.dims.Contains p → v'.policy p = v.policy p := by
    intro p hp
    rw [h.policy_eq hd hp, h'.policy_eq hd' hp, heq]
  obtain ⟨m, mem, opt, hw⟩ := h.written
  obtain ⟨m', mem', opt', hw'⟩ := h'.written
  rw [hw, hw'] at hcost hpol ⊢
  exact writeBack_ext fun p hp => ⟨hcost p hp, hpol p hp⟩

end Greatest

namespace ParSolver

variable {nthreads maxIter nthreads' maxIter' : Nat} {sched sched' : Nat → List (Nat × Bool)}
  {obs obs' : SolveObserver} {r r' : ParRun}

/-- Whatever the thread count, the schedule and the solver, converged runs in range
return the greatest fixed point and its first minimising actions. -/
theorem converged_isGreatest (k : ParSolver) (hgoal : GoalSet vi) (hn : 0 < nthreads)
    (h : k.run vi nthreads maxIter sched obs = some r) (hconv : r.outcome.converged = true)
    (hrange : r.InRange vi) :
    IsGreatest {U | clampedUpdate vi U = U ∧ U ≤ vi.costs} (vi.onMap r.field.costs) ∧
    IsGreatest {U | exactUpdate vi U = U ∧ U ≤ vi.costs} (vi.onMap r.field.costs) ∧
    (∀ p, vi.dims.Contains p → r.field.policy p = if vi.world.evaluable p
      then (vi.world.backup vi.world.clampedCost (vi.onMap r.field.costs) p).2 else none) ∧
    ∀ (k' : ParSolver) {nthreads' maxIter' : Nat} {sched' : Nat → List (Nat × Bool)}
      {obs' : SolveObserver} {r' : ParRun}, 0 < nthreads' →
      k'.run vi nthreads' maxIter' sched' obs' = some r' → r'.outcome.converged = true →
      r'.InRange vi → r'.field = r.field := by
  obtain ⟨hs, hd⟩ := solved hgoal hn h hconv hrange
  obtain ⟨hexact, hclamped⟩ := hs.isGreatest hgoal hd
  refine ⟨hclamped, hexact, fun p hp => hs.policy_eq hd hp, ?_⟩
  intro k' nthreads' maxIter' sched' obs' r' hn' h' hconv' hrange'
  obtain ⟨hs', hd'⟩ := solved hgoal hn' h' hconv' hrange'
  exact hs.unique hgoal hd hs' hd'

end ParSolver

theorem slipRow_goalSet : GoalSet slipRow := by
  refine ⟨slipRow_blank, ?_⟩
  have hall : ∀ p ∈ slipRow.dims.all, (slipRow.stateAt p).finalState = true →
      (slipRow.stateAt p).free = true := by decide +kernel
  intro p hp
  exact hall p (Dims.mem_all.mpr hp)

/-- Two workers of which one takes every candidate. -/
def loneWorker : Nat → List (Nat × Bool) := fun _ => List.replicate 20 (0, false) ++ [(1, true)]

/-- Two workers that step in turn. -/
def inTurn : Nat → List (Nat × Bool) := fun _ =>
  (List.replicate 200 [(0, false), (1, false)]).flatten ++ [(0, true), (1, true)]

/-- The third cell is written at its value over the rough cell before it falls. -/
theorem slipRow_parRun (k : ParSolver) :
    ((k.run slipRow 2 10 inTurn nullObserver).map fun r =>
      (r.outcome.converged, slipRow.dims.all.map r.field.costs,
        decide ((⟨2, 0, 0⟩, 10 * probBase) ∈ r.writes),
        r.writes.all fun w => decide (w.2 + slipRow.world.pen w.1 < productLimit))) =
      some (true, slipRowValues, true, true) := by
  cases k <;> decide +kernel

theorem slipRow_inRange {r : ParRun}
    (hw : r.writes.all (fun w => decide (w.2 + slipRow.world.pen w.1 < productLimit)) = true) :
    r.InRange slipRow := by
  have hfinals : ∀ p ∈ slipRow.dims.all, (slipRow.stateAt p).finalState = true →
      slipRow.world.pen p < productLimit := by decide +kernel
  refine ⟨?_, ?_⟩
  · intro p hp hfin
    right
    rw [slipRow_blank p hp, if_pos hfin, Nat.zero_add]
    exact hfinals p (Dims.mem_all.mpr hp) hfin
  · intro w hmem
    right
    simpa using List.all_eq_true.mp hw w hmem

theorem slipRow_converged (k : ParSolver) :
    ∃ r, k.run slipRow 2 10 inTurn nullObserver = some r ∧ r.outcome.converged = true ∧
      slipRow.dims.all.map r.field.costs = slipRowValues ∧ r.InRange slipRow := by
  obtain ⟨r, hr, hends⟩ := Option.map_eq_some_iff.mp (slipRow_parRun k)
  simp only [Prod.mk.injEq] at hends
  obtain ⟨hconv, hvalues, _, hwrites⟩ := hends
  exact ⟨r, hr, hconv, hvalues, slipRow_inRange hwrites⟩

/-- On the row the three solvers return one field. -/
theorem slipRow_isGreatest : ∃ r, ParSolver.fused.run slipRow 2 10 inTurn nullObserver = some r ∧
    slipRow.dims.all.map r.field.costs = slipRowValues ∧
    IsGreatest {U | clampedUpdate slipRow U = U ∧ U ≤ slipRow.costs}
      (slipRow.onMap r.field.costs) ∧
    ∀ k' : ParSolver, ∃ r', k'.run slipRow 2 10 inTurn nullObserver = some r' ∧
      r'.field = r.field := by
  obtain ⟨r, hr, hconv, hvalues, hrange⟩ := slipRow_converged .fused
  have hmain := ParSolver.converged_isGreatest .fused slipRow_goalSet (by decide) hr hconv hrange
  refine ⟨r, hr, hvalues, hmain.1, ?_⟩
  intro k'
  obtain ⟨r', hr', hconv', _, hrange'⟩ := slipRow_converged k'
  exact ⟨r', hr', hmain.2.2.2 k' (by decide) hr' hconv' hrange'⟩

end ValueIteration
