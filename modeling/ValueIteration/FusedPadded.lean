import ValueIteration.Solvers.Parallel
import ValueIteration.Solvers.Sequential

/-!
# The fused layout against the padded one

Under one cell order `frontier2d_fused` makes the moves of `frontier2d_par_unsafe` as
long as no reached value rises to `MAX_COST`: the fused layout stores the sum of value
and penalty for it and not the sentinel, so a neighbour reads it as a cost.
-/

set_option autoImplicit false

namespace ValueIteration

open Async ValueIterator CellModel

variable {vi : ValueIterator}

/-- A reached state has an action all of whose outcomes are legal and reached. -/
def KeepsReached (vi : ValueIterator) (V : Pos → Nat) (s : Pos) : Prop :=
  V s ≠ maxCost → ∃ row, some row ∈ vi.world.choices s ∧ ∀ o ∈ row, V o.1 ≠ maxCost

instance (vi : ValueIterator) (V : Pos → Nat) (s : Pos) : Decidable (KeepsReached vi V s) :=
  decidable_of_iff (V s ≠ maxCost →
      ∃ c ∈ vi.world.choices s, ∃ row ∈ c, ∀ o ∈ row, V o.1 ≠ maxCost) <|
    imp_congr_right fun _ =>
      ⟨fun ⟨_, hc, row, hrow, hall⟩ => ⟨row, hrow ▸ hc, hall⟩,
        fun ⟨row, hc, hall⟩ => ⟨some row, hc, row, rfl, hall⟩⟩

/-- Starts within the range that the fused word is made for. -/
structure FusedStart (vi : ValueIterator) : Prop where
  le : ∀ p, vi.dims.Contains p → vi.costs p ≤ maxCost
  rest : ∀ p, vi.dims.Contains p → (vi.stateAt p).free = false → vi.costs p = maxCost
  pens : ∀ p, vi.dims.Contains p → (vi.stateAt p).free = true →
    vi.world.pen p + productLimit ≤ unreached
  words : ∀ p, vi.dims.Contains p → (vi.stateAt p).free = true →
    vi.costs p = maxCost ∨ wrappingAdd (vi.costs p) (vi.world.pen p) ≠ unreached

/-- Where some action has only reached outcomes the update is a product's quotient. -/
theorem backup_lt_of_keepsReached {V : Pos → Nat} {s : Pos} (h : KeepsReached vi V s)
    (hne : (vi.world.backup vi.world.clampedCost V s).1 ≠ V s) :
    (vi.world.backup vi.world.clampedCost V s).1 < productLimit := by
  by_cases hmax : V s = maxCost
  · rcases World.backup_clamped_value V s with hval | hval
    · rw [hmax] at hne
      exact absurd hval hne
    · exact hval
  · obtain ⟨row, hrow, hreached⟩ := h hmax
    have hle : (vi.world.backup vi.world.clampedCost V s).1 ≤ vi.world.clampedCost V (some row) :=
      Argmin.argminBelow_le_mem (List.mem_map_of_mem hrow)
    refine lt_of_le_of_lt hle ?_
    have hany : ¬ (row.any fun o => V o.1 == maxCost) = true := by
      rw [List.any_eq_true]
      rintro ⟨o, ho, hv⟩
      exact hreached o ho (beq_iff_eq.mp hv)
    simp only [World.clampedCost]
    rw [if_neg hany]
    exact div_probBase_lt (Nat.mod_lt _ (by decide))

theorem Padded.follows :
    (Padded.build vi).cells.Follows vi (fun _ _ => True) fun _ _ => True where
  models := Padded.models
  store _ s _ _ _ := ⟨Padded.fits s _, trivial⟩

theorem Fused.follows (hstart : FusedStart vi) :
    (Fused.buildDirect vi).cells.Follows vi (FusedProper vi) (KeepsReached vi) where
  models := Fused.models
  store V s hev hkeeps hne := by
    obtain ⟨hs, hfree, _⟩ := evaluable_iff.mp hev
    have hlt := backup_lt_of_keepsReached hkeeps hne
    have hpen := hstart.pens s hs hfree
    have hmaxlt := productLimit_lt_maxCost
    have hword := maxCost_lt_word
    have hun : unreached < word := by decide
    have hsum : wrappingAdd (vi.world.backup vi.world.clampedCost V s).1 (vi.world.pen s) ≠
        unreached := by
      rw [wrappingAdd, Nat.mod_eq_of_lt (by omega)]
      omega
    refine ⟨Fused.fits hs (by omega) (Or.inr hsum), ?_⟩
    intro p hpad hidx
    have hps : s = p := padIdx_injective (onPad_of_contains hs) hpad hidx
    subst hps
    refine Or.inr ⟨hs, hfree, ?_⟩
    rw [fused_after hs, wrappingSub_wrappingAdd (by omega)]
    omega

theorem Padded.standsFor : StandsFor vi (Padded.build vi).cells (fun _ _ => True)
    (Padded.build vi).words vi.costs where
  proper _ := trivial
  value p hp := by
    rw [← field_of_contains hp, Padded.field_words]

theorem Fused.standsFor (hstart : FusedStart vi) : StandsFor vi (Fused.buildDirect vi).cells
    (FusedProper vi) (Fused.buildDirect vi).words vi.costs where
  proper := fusedProper_words fun p hp => (hstart.le p hp).trans_lt maxCost_lt_word
  value p hp := by
    have hw := (hstart.le p hp).trans_lt maxCost_lt_word
    rw [← field_of_contains hp]
    cases hfree : (vi.stateAt p).free with
    | true => exact Fused.field_words hp hw (hstart.words p hp hfree) (Or.inl hfree)
    | false =>
      have hmax := hstart.rest p hp hfree
      exact Fused.field_words hp hw (Or.inl hmax) (Or.inr hmax)

section Solve
variable {maxIter : Nat} {steps steps' : Nat → Nat} {obs : SolveObserver} {r r' : ParRun}

/-- A converged padded solve leaves no action at unreached states. -/
theorem padded_unreached (hle : ∀ p, vi.dims.Contains p → vi.costs p ≤ maxCost)
    (h : vi.frontier2dParUnsafe 1 maxIter (soloSchedule steps') obs = some r')
    (hconv : r'.outcome.converged = true) {p : Pos} (hev : vi.world.evaluable p = true)
    (hmax : r'.field.costs p = maxCost) :
    (vi.world.backup vi.world.clampedCost r'.field.costs p).2 = none := by
  have hstart : (paddedRegime vi).Starts (Padded.build vi).words :=
    ⟨hle, fun _ => trivial, trivial, fun p _ hm => (congrFun Padded.field_words p).trans hm⟩
  have hsolved := (frontier2dParUnsafe_sound rfl
    (Regime.Carried.stable paddedRegime_carried fun _ _ => trivial) (by decide) hstart h
    (fun _ _ _ _ => trivial) hconv).1
  apply Argmin.argminBelow_snd
  have hfixed := congrArg Prod.fst (hsolved.fixed p hev)
  rw [hmax] at hfixed
  exact hfixed.symm

/-- Along a padded run that never updates a reached state on a field without a reached
choice, the fused solver does the same: one field, one outcome, the same writes and the
same fields shown. -/
theorem fused_eq_padded (hstart : FusedStart vi)
    (h : vi.frontier2dFused 1 maxIter (soloSchedule steps) obs = some r)
    (h' : vi.frontier2dParUnsafe 1 maxIter (soloSchedule steps') obs = some r')
    (halong : Along (KeepsReached vi) vi.costs r'.writes) : r = r' := by
  have hpadded := h'
  obtain ⟨cand, hcand, hmap⟩ := Option.bind_eq_some_iff.mp h
  obtain ⟨run, hrun, rfl⟩ := Option.map_eq_some_iff.mp hmap
  obtain ⟨cand', hcand', hmap'⟩ := Option.bind_eq_some_iff.mp h'
  obtain ⟨run', hrun', rfl⟩ := Option.map_eq_some_iff.mp hmap'
  rw [hcand] at hcand'
  cases hcand'
  obtain ⟨hnodup, hin, _⟩ := seedCands_spec hcand
  have hcd : Candidates vi cand fun _ => List.range vi.dims.nt :=
    ⟨hnodup, hin, fun _ _ => ⟨List.nodup_range, fun _ hit => List.mem_range.mp hit⟩⟩
  have hpair : Paired vi (Fused.buildDirect vi).cells (Padded.build vi).cells (FusedProper vi)
      (fun _ _ => True) vi.costs (GsState.start (Fused.buildDirect vi).words () obs)
      (GsState.start (Padded.build vi).words () obs) :=
    ⟨Fused.standsFor hstart, Padded.standsFor, rfl, rfl, rfl, rfl, rfl⟩
  have hsame := gsLoop_paired (Fused.follows hstart) Padded.follows _ hcd hpair hrun hrun' halong
  have hfield : (vi.endSolve (Fused.buildDirect vi).cells
      (fusedSkip (Fused.buildDirect vi).cells run) run).field =
      (vi.endSolve (Padded.build vi).cells (Padded.build vi).cells.skip run').field := by
    simp only [endSolve, hsame.outcome]
    split
    · rfl
    · next hcancel =>
      have hstands' := hsame.stands'
      have hcosts : ∀ q, vi.dims.Contains q → (vi.endSolve (Padded.build vi).cells
          (Padded.build vi).cells.skip run').field.costs q = replay vi.costs run.writes q := by
        intro q hq
        have hlow : (vi.endSolve (paddedRegime vi).cells (Padded.build vi).cells.skip
            run').field.costs q = (paddedRegime vi).cells.field vi run'.mem q :=
          endSolve_costs (Bool.not_eq_true _ ▸ hcancel) hq
        exact hlow.trans ((field_of_contains hq).trans (hstands'.value q hq))
      apply hsame.stands.writeBack_eq Fused.models Padded.models hstands'
      intro p hp
      refine ⟨?_, ?_⟩
      · intro hev hskip
        have hmax : replay vi.costs run.writes p = maxCost := by
          rw [← hsame.stands.value p hp, ← field_of_contains hp]
          exact fused_skip hev hskip
        have hconv : run'.outcome.converged = true := by
          rw [fusedSkip, Fused.models.skip_eq p hp, hev] at hskip
          simp only [Bool.not_true, Bool.false_or, Bool.and_eq_true] at hskip
          rw [← hsame.outcome]
          exact hskip.1
        have hnone := padded_unreached hstart.le hpadded hconv hev ((hcosts p hp).trans hmax)
        rw [← hnone]
        refine congrArg Prod.snd (World.backup_congr World.clampedCost_local ?_)
        intro t ht
        exact (hcosts t (reads_inBox hp ht).1).symm
      · intro hev
        rw [fusedSkip, Fused.models.skip_eq p hp, hev]
        rfl
  exact ParRun.ext hfield hsame.outcome hsame.writes hsame.seen

end Solve

/-- What the two solvers return is the same, bit for bit. -/
def SameResult (r r' : ParRun) : Prop :=
  r.outcome.converged = r'.outcome.converged ∧ r.field.costs = r'.field.costs ∧
    r.field.policy = r'.field.policy

/-- The same from every start field, whatever rises in it. -/
def FusedRefinesPadded : Prop :=
  ∀ {vi : ValueIterator} {maxIter : Nat} {steps steps' : Nat → Nat} {obs : SolveObserver}
    {r r' : ParRun}, (∀ p, vi.dims.Contains p → vi.costs p ≤ maxCost) →
    vi.frontier2dFused 1 maxIter (soloSchedule steps) obs = some r →
    vi.frontier2dParUnsafe 1 maxIter (soloSchedule steps') obs = some r' → SameResult r r'

theorem slipRow_fusedStart : FusedStart slipRow := by
  have hall : ∀ p ∈ slipRow.dims.all, slipRow.costs p ≤ maxCost ∧
      ((slipRow.stateAt p).free = false → slipRow.costs p = maxCost) ∧
      slipRow.world.pen p + productLimit ≤ unreached ∧
      (slipRow.costs p = maxCost ∨
        wrappingAdd (slipRow.costs p) (slipRow.world.pen p) ≠ unreached) := by decide +kernel
  exact ⟨fun p hp => (hall p (Dims.mem_all.mpr hp)).1,
    fun p hp => (hall p (Dims.mem_all.mpr hp)).2.1,
    fun p hp _ => (hall p (Dims.mem_all.mpr hp)).2.2.1,
    fun p hp _ => (hall p (Dims.mem_all.mpr hp)).2.2.2⟩

/-- The row from the goals inwards; the third cell is written twice. -/
def slipRowWrites : List (Pos × Nat) :=
  [(⟨1, 0, 0⟩, 262144), (⟨1, 0, 1⟩, 262144), (⟨5, 0, 0⟩, 262144), (⟨5, 0, 1⟩, 393216),
    (⟨4, 0, 0⟩, 557056), (⟨4, 0, 1⟩, 737280), (⟨2, 0, 0⟩, 2621440), (⟨2, 0, 1⟩, 2621440),
    (⟨3, 0, 0⟩, 864256), (⟨3, 0, 1⟩, 1062912), (⟨2, 0, 0⟩, 1176064), (⟨2, 0, 1⟩, 1381632)]

/-- On the row the two solvers return the same. -/
theorem slipRow_fused_eq_padded : ∃ r,
    slipRow.frontier2dFused 1 10 (soloSchedule fun _ => 400) nullObserver = some r ∧
    slipRow.frontier2dParUnsafe 1 10 (soloSchedule fun _ => 400) nullObserver = some r ∧
    r.writes = slipRowWrites := by
  have hfused : ((slipRow.frontier2dFused 1 10 (soloSchedule fun _ => 400) nullObserver).map
      fun r => r.writes) = some slipRowWrites := by decide +kernel
  have hpadded : ((slipRow.frontier2dParUnsafe 1 10 (soloSchedule fun _ => 400)
      nullObserver).map fun r => r.writes) = some slipRowWrites := by decide +kernel
  obtain ⟨r, hr, hw⟩ := Option.map_eq_some_iff.mp hfused
  obtain ⟨r', hr', hw'⟩ := Option.map_eq_some_iff.mp hpadded
  have hsame : r = r' := by
    apply fused_eq_padded slipRow_fusedStart hr hr'
    rw [hw']
    decide +kernel
  subst hsame
  exact ⟨r, hr, hr', hw⟩

/-- A corridor without a goal whose middle state holds a value it cannot keep. -/
def staleCorridor : ValueIterator :=
  ⟨⟨⟨3, 1, 1⟩, [freeState, { freeState with totalCost := probBase }, freeState], rfl⟩,
    [stepAction 1 0], by decide⟩

/-- The value rises to `MAX_COST`; the fused layout's neighbour reads it as a cost. -/
theorem not_fusedRefinesPadded : ¬ FusedRefinesPadded := by
  intro h
  have hfused : ((staleCorridor.frontier2dFused 1 10 (soloSchedule fun _ => 40) nullObserver).map
      fun r => (r.outcome.converged, r.field.costs ⟨0, 0, 0⟩)) =
      some (true, 51037767729152) := by decide +kernel
  have hpadded : ((staleCorridor.frontier2dParUnsafe 1 10 (soloSchedule fun _ => 40)
      nullObserver).map fun r => (r.outcome.converged, r.field.costs ⟨0, 0, 0⟩)) =
      some (true, maxCost) := by decide +kernel
  obtain ⟨r, hr, hval⟩ := Option.map_eq_some_iff.mp hfused
  obtain ⟨r', hr', hval'⟩ := Option.map_eq_some_iff.mp hpadded
  simp only [Prod.mk.injEq] at hval hval'
  have hle : ∀ p ∈ staleCorridor.dims.all, staleCorridor.costs p ≤ maxCost := by decide +kernel
  have hcosts := congrFun (h (fun p hp => hle p (Dims.mem_all.mpr hp)) hr hr').2.1 ⟨0, 0, 0⟩
  rw [hval.2, hval'.2] at hcosts
  exact absurd hcosts (by decide)

end ValueIteration
