import ValueIteration.Solvers.Parallel

/-!
# Starting on a field that is still being solved

At every boundary of a blank-start solve with clamped evaluation the field is at least
its own update, and entering a state costs at least one unit. So the action that the
policy pass materialises costs at most the value, and one of its outcomes lies strictly
below.
-/

set_option autoImplicit false

namespace ValueIteration

open Async ValueIterator CellModel

variable {vi : ValueIterator}

/-- Entering a free state costs at least one unit. -/
def Penalised (vi : ValueIterator) : Prop :=
  ∀ p, vi.dims.Contains p → (vi.stateAt p).free = true → probBase ≤ vi.world.pen p

/-- A field on which greedy descent makes progress. -/
structure Greedy (vi v : ValueIterator) : Prop where
  above : clampedUpdate vi (vi.onMap v.costs) ≤ vi.onMap v.costs
  improving : ∀ s, vi.world.evaluable s = true → v.costs s < maxCost →
    ∃ a row, v.policy s = some a ∧ (vi.world.choices s)[a]? = some (some row) ∧
      vi.world.clampedCost v.costs (some row) ≤ v.costs s ∧
      ∃ o ∈ row, 0 < o.2 ∧ v.costs o.1 < v.costs s

theorem row_spec {s : Pos} (hs : vi.dims.Contains s) {row : List (Pos × Nat)}
    (hrow : some row ∈ vi.world.choices s) :
    (row.map (·.2)).sum = probBase ∧ ∀ o ∈ row, 0 < o.2 := by
  obtain ⟨a, ha, hlegal⟩ := List.mem_map.mp hrow
  have hmem := List.mem_of_getElem? (row_mem ha hs)
  have hwf := (vi.wellFormed a ha).2 _ hmem
  unfold legalRow at hlegal
  split at hlegal
  · cases hlegal
    refine ⟨?_, ?_⟩
    · rw [List.map_map]
      exact hwf.2
    · intro o ho
      obtain ⟨tr, htr, rfl⟩ := List.mem_map.mp ho
      exact (hwf.1 tr htr).1
  · cases hlegal

/-- What a policy pass writes back from a memory of the regime. -/
structure WrittenFrom (R : Regime vi) (v : ValueIterator) : Prop where
  memory : ∃ mem E skip, R.Sound mem E ∧
    v = vi.writeBack R.cells mem (vi.finalPolicy R.cells skip mem) ∧
    ∀ p, vi.world.evaluable p = true → skip (vi.padIdx p) = true →
      R.cells.field vi mem p = maxCost

section
variable {R : Regime vi} {v : ValueIterator}

/-- The update of a field on its way down is the same in both arithmetics. -/
theorem Descent.backup_eq {V : Pos → Nat} (hd : Descent vi V) {s : Pos}
    (hev : vi.world.evaluable s = true) :
    vi.world.backup vi.world.clampedCost V s = vi.world.backup vi.world.clampedExactCost V s := by
  apply World.backup_clamped_eq_exact world_normed
  intro t ht
  obtain ⟨_, _, _, _, _, hfree, _⟩ := reads_elim ht
  exact hd.inRange t (reads_inBox (evaluable_iff.mp hev).1 ht).1 hfree

theorem Descent.update_le {V : Pos → Nat} (hd : Descent vi V) : clampedUpdate vi V ≤ V := by
  intro s
  have hle := hd.descending.update_le s
  by_cases hev : vi.world.evaluable s = true
  · simp only [exactUpdate, clampedUpdate, World.operator, hev, if_true] at hle ⊢
    rwa [hd.backup_eq hev]
  · simp only [exactUpdate, clampedUpdate, World.operator, hev, Bool.false_eq_true,
      if_false] at hle ⊢
    exact hle

/-- The argument for one state: the argmin of a field above its update. -/
theorem Descent.improving (hpen : Penalised vi) {V : Pos → Nat} (hd : Descent vi V) {s : Pos}
    (hev : vi.world.evaluable s = true) (hlt : V s < maxCost) :
    ∃ a row, (vi.world.backup vi.world.clampedCost V s).2 = some a ∧
      (vi.world.choices s)[a]? = some (some row) ∧ vi.world.clampedCost V (some row) ≤ V s ∧
      ∃ o ∈ row, 0 < o.2 ∧ V o.1 < V s := by
  have hs := (evaluable_iff.mp hev).1
  have hle : (vi.world.backup vi.world.clampedCost V s).1 ≤ V s := by
    have h := hd.update_le s
    simp only [clampedUpdate, World.operator, hev, if_true] at h
    exact h
  rcases Argmin.argminBelow_cases maxCost ((vi.world.choices s).map (vi.world.clampedCost V))
    with hnone | ⟨a, c, hc, hsome⟩
  · rw [World.backup, hnone] at hle
    omega
  rw [World.backup, hsome] at hle
  rw [List.getElem?_map] at hc
  obtain ⟨choice, hchoice, rfl⟩ := Option.map_eq_some_iff.mp hc
  cases choice with
  | none =>
    simp only [World.clampedCost] at hle
    omega
  | some row =>
    have hmem := List.mem_of_getElem? hchoice
    obtain ⟨hsum, hpos⟩ := row_spec hs hmem
    have hexact : vi.world.clampedCost V (some row) = vi.world.clampedExactCost V (some row) := by
      apply World.clampedCost_eq_exact world_normed hmem
      intro t ht
      obtain ⟨_, _, _, _, _, hfree, _⟩ := reads_elim ht
      exact hd.inRange t (reads_inBox hs ht).1 hfree
    have hpens : ∀ o ∈ row, probBase ≤ vi.world.pen o.1 := by
      intro o ho
      have hreads : vi.world.Reads s o.1 := ⟨row, hmem, o.2, ho⟩
      obtain ⟨_, _, _, _, _, hfree, _⟩ := reads_elim hreads
      exact hpen o.1 (reads_inBox hs hreads).1 hfree
    simp only at hle
    obtain ⟨o, ho, hbelow⟩ := World.exists_below_exactCost hsum hpens
      (hexact ▸ hle.trans_lt hlt)
    refine ⟨a, row, ?_, hchoice, hle, o, ho, hpos o ho, ?_⟩
    · rw [World.backup, hsome]
    · rw [← hexact] at hbelow
      exact hbelow.trans_le hle

/-- A field written back from the descent is one that greedy descent may follow. -/
theorem WrittenFrom.greedy (hpen : Penalised vi) (hgood : ∀ V, R.Good V → Descent vi V)
    (h : WrittenFrom R v) : Greedy vi v := by
  obtain ⟨mem, E, skip, hs, rfl, hskip⟩ := h.memory
  have hd := hgood _ hs.good
  have hcost : ∀ p, vi.dims.Contains p →
      (vi.writeBack R.cells mem (vi.finalPolicy R.cells skip mem)).costs p =
        R.cells.field vi mem p := fun p hp => (writeBack_get hp).1
  have honMap : vi.onMap (vi.writeBack R.cells mem (vi.finalPolicy R.cells skip mem)).costs =
      R.cells.field vi mem := by
    funext p
    by_cases hp : vi.dims.Contains p
    · rw [onMap_of_contains hp, hcost p hp]
    · rw [onMap, CellModel.field, if_neg hp, if_neg hp]
  refine ⟨by rw [honMap]; exact hd.update_le, ?_⟩
  intro s hev hlt
  have hcs := (evaluable_iff.mp hev).1
  rw [hcost s hcs] at hlt ⊢
  obtain ⟨a, row, hact, hrow, hle, o, ho, hpos, hbelow⟩ := hd.improving hpen hev hlt
  have hrowIn : ∀ o ∈ row, vi.dims.Contains o.1 := fun o ho =>
    (reads_inBox hcs ⟨row, List.mem_of_getElem? hrow, o.2, ho⟩).1
  have hsame : vi.world.clampedCost
      (vi.writeBack R.cells mem (vi.finalPolicy R.cells skip mem)).costs (some row) =
      vi.world.clampedCost (R.cells.field vi mem) (some row) := by
    apply World.clampedCost_local
    intro row' hrow' o' ho'
    cases hrow'
    exact hcost o'.1 (hrowIn o' ho')
  refine ⟨a, row, ?_, hrow, hsame ▸ hle, o, ho, hpos, ?_⟩
  · rw [(writeBack_get hcs).2, finalPolicy, if_neg, argmin_eq R.models hs.proper
      (V := R.cells.field vi mem) (fun t ht => field_of_contains ht) hcs, hact]
    intro hsk
    exact hlt.ne (hskip s hev hsk)
  · rw [hcost o.1 (hrowIn o ho)]
    exact hbelow

end

/-- The fields of a run that a robot may start on: those an observer was shown, and the
returned one unless the solve was cancelled. -/
def ParRun.Offers (r : ParRun) (v : ValueIterator) : Prop :=
  v ∈ r.seen ∨ r.outcome.cancelled = false ∧ v = r.field

section Solve
variable {R : Regime vi} {nthreads maxIter : Nat} {sched : Nat → List (Nat × Bool)}
  {obs : SolveObserver} {run : GsRun} {r : ParRun} {v : ValueIterator}

/-- What the end of a solve offers comes from its memories. -/
theorem writtenFrom_of_end {m : CellModel} {skip : Int → Bool} (hR : R.cells = m)
    (hend : ∃ E, R.Sound run.mem E) (hseen : ∀ mem ∈ run.seen, ∃ E, R.Sound mem E)
    (hskip : ∀ p, vi.world.evaluable p = true → skip (vi.padIdx p) = true →
      m.field vi run.mem p = maxCost)
    (hv : (vi.endSolve m skip run).Offers v) : WrittenFrom R v := by
  subst hR
  cases hv with
  | inl hshown =>
    obtain ⟨mem, hmem, rfl⟩ := List.mem_map.mp hshown
    obtain ⟨E, hs⟩ := hseen mem hmem
    refine ⟨mem, E, R.cells.skip, hs, rfl, ?_⟩
    intro p hev hsk
    rw [R.models.skip_eq p (evaluable_iff.mp hev).1, hev] at hsk
    cases hsk
  | inr hlast =>
    obtain ⟨E, hs⟩ := hend
    exact ⟨run.mem, E, skip, hs, hlast.2.trans (endSolve_field hlast.1), hskip⟩

/-- Every memory of the engine is sound, converged or not. -/
theorem asyncGsEngine_seen {m : CellModel} (hR : R.cells = m) (hstable : R.Stable)
    (hn : 0 < nthreads) {words : Int → Nat} (hstart : R.Starts words) {cand : List (Nat × Nat)}
    (hcand : vi.seedCands = some cand)
    (hrun : vi.asyncGsEngine nthreads maxIter sched obs m words cand = some run)
    (hallow : R.Allows run.writes) :
    (∃ E, R.Sound run.mem E) ∧ ∀ mem ∈ run.seen, ∃ E, R.Sound mem E := by
  subst hR
  obtain ⟨⟨E, hs, _⟩, hseen⟩ := gsLoop_sound R rfl hstable (fullSweep_lawful R.cells) hn hcand
    (hstart.sound hcand fun _ it hit => List.mem_range.mpr hit) hrun hallow
  exact ⟨⟨E, hs⟩, hseen⟩

theorem frontier2dParUnsafe_offers (hR : R.cells = (Padded.build vi).cells) (hstable : R.Stable)
    (hn : 0 < nthreads) (hstart : R.Starts (Padded.build vi).words)
    (h : vi.frontier2dParUnsafe nthreads maxIter sched obs = some r) (hallow : R.Allows r.writes)
    (hv : r.Offers v) : WrittenFrom R v := by
  obtain ⟨cand, hcand, hmap⟩ := Option.bind_eq_some_iff.mp h
  obtain ⟨run, hrun, rfl⟩ := Option.map_eq_some_iff.mp hmap
  obtain ⟨hend, hseen⟩ := asyncGsEngine_seen hR hstable hn hstart hcand hrun hallow
  exact writtenFrom_of_end hR hend hseen (fun p hev hsk => padded_skip hev hsk) hv

theorem frontier2dFused_offers (hR : R.cells = (Fused.buildDirect vi).cells) (hstable : R.Stable)
    (hn : 0 < nthreads) (hstart : R.Starts (Fused.buildDirect vi).words)
    (h : vi.frontier2dFused nthreads maxIter sched obs = some r) (hallow : R.Allows r.writes)
    (hv : r.Offers v) : WrittenFrom R v := by
  obtain ⟨cand, hcand, hmap⟩ := Option.bind_eq_some_iff.mp h
  obtain ⟨run, hrun, rfl⟩ := Option.map_eq_some_iff.mp hmap
  obtain ⟨hend, hseen⟩ := asyncGsEngine_seen hR hstable hn hstart hcand hrun hallow
  exact writtenFrom_of_end hR hend hseen (fun p hev hsk => fused_skip hev hsk) hv

theorem frontier2dPar_offers (hR : R.cells = (Padded.build vi).cells)
    (hproper : ∀ i w, R.Proper i w) (hcarried : R.Carried)
    (hstart : R.Starts (Padded.build vi).words)
    (h : vi.frontier2dPar nthreads maxIter obs = some r) (hallow : R.Allows r.writes)
    (hv : r.Offers v) : WrittenFrom R v := by
  obtain ⟨run, hrun, rfl⟩ := Option.map_eq_some_iff.mp h
  rw [← hR] at hrun
  obtain ⟨⟨E, hs, _⟩, hseen⟩ := jacobiLoop_sound R hproper hcarried seedFrontier2d_spec.1
    (hstart.jacobi) (fun _ hmem => by cases hmem) hrun hallow
  exact writtenFrom_of_end hR ⟨E, hs⟩ hseen (fun p hev hsk => padded_skip hev hsk) hv

end Solve

namespace ParSolver

variable {k : ParSolver} {nthreads maxIter : Nat} {sched : Nat → List (Nat × Bool)}
  {obs : SolveObserver} {r : ParRun} {v : ValueIterator}

/-- In range, whatever a run offers was written back on the way down. -/
theorem offers_descent (hgoal : GoalSet vi) (hn : 0 < nthreads)
    (h : k.run vi nthreads maxIter sched obs = some r) (hrange : r.InRange vi)
    (hv : r.Offers v) : ∃ R : Regime vi, (∀ V, R.Good V → Descent vi V) ∧ WrittenFrom R v := by
  have hpadded := hgoal.padded_starts hrange.finals
  have hcarried : (paddedRegime vi).descending.Carried :=
    Regime.Carried.descending paddedRegime_carried hgoal
  cases k with
  | fused =>
    refine ⟨(fusedRegime vi).descending, fun _ hg => hg.2, frontier2dFused_offers rfl (fusedRegime_stable.descending hgoal) hn
      (hgoal.fused_starts hrange.finals) h ?_ hv⟩
    exact fun w hw _ _ => ⟨InRange.unmistaken (hrange.writes w hw), hrange.writes w hw⟩
  | parUnsafe =>
    refine ⟨(paddedRegime vi).descending, fun _ hg => hg.2, frontier2dParUnsafe_offers rfl
      (Regime.Carried.stable hcarried fun _ _ => trivial) hn hpadded h ?_ hv⟩
    exact fun w hw _ _ => ⟨trivial, hrange.writes w hw⟩
  | par =>
    refine ⟨(paddedRegime vi).descending, fun _ hg => hg.2, frontier2dPar_offers rfl (fun _ _ => trivial) hcarried hpadded h
      ?_ hv⟩
    exact fun w hw _ _ => ⟨trivial, hrange.writes w hw⟩

/-- Every field that a run in range offers is above its update, and greedy descent on it
has an outcome strictly below. -/
theorem offers_greedy (hgoal : GoalSet vi) (hpen : Penalised vi) (hn : 0 < nthreads)
    (h : k.run vi nthreads maxIter sched obs = some r) (hrange : r.InRange vi)
    (hv : r.Offers v) : Greedy vi v := by
  obtain ⟨R, hgood, hwritten⟩ := offers_descent hgoal hn h hrange hv
  exact hwritten.greedy hpen hgood

end ParSolver

/-- The field a robot is shown after the second round, with the third cell still at its value
over the rough one, may be followed. -/
theorem slipRow_greedy : ∃ r v,
    ParSolver.fused.run slipRow 2 10 inTurn ⟨2, fun _ _ _ => .proceed⟩ = some r ∧
      v ∈ r.seen ∧ v.costs ⟨2, 0, 0⟩ = 10 * probBase ∧ r.field.costs ⟨2, 0, 0⟩ = 1176064 ∧
        Greedy slipRow v ∧ Greedy slipRow r.field := by
  have hrun : ((ParSolver.fused.run slipRow 2 10 inTurn ⟨2, fun _ _ _ => .proceed⟩).map fun r =>
      (r.outcome.cancelled, r.field.costs ⟨2, 0, 0⟩,
        r.seen.any fun v => decide (v.costs ⟨2, 0, 0⟩ = 10 * probBase),
        r.writes.all fun w => decide (w.2 + slipRow.world.pen w.1 < productLimit))) =
      some (false, 1176064, true, true) := by
    decide +kernel
  have hpens : ∀ p ∈ slipRow.dims.all, probBase ≤ slipRow.world.pen p := by decide +kernel
  have hpen : Penalised slipRow := fun p hp _ => hpens p (Dims.mem_all.mpr hp)
  obtain ⟨r, hr, hends⟩ := Option.map_eq_some_iff.mp hrun
  simp only [Prod.mk.injEq] at hends
  obtain ⟨hcancel, hcost, hseen, hwrites⟩ := hends
  obtain ⟨v, hv, hval⟩ := List.any_eq_true.mp hseen
  have hgreedy : ∀ u, r.Offers u → Greedy slipRow u := fun u hu =>
    ParSolver.offers_greedy slipRow_goalSet hpen (by decide) hr (slipRow_inRange hwrites) hu
  exact ⟨r, v, hr, hv, of_decide_eq_true hval, hcost, hgreedy v (Or.inl hv),
    hgreedy _ (Or.inr ⟨hcancel, rfl⟩)⟩

/-- The same without the assumption that products stay in range. -/
def OffersGreedy (k : ParSolver) : Prop :=
  ∀ {vi : ValueIterator} {nthreads maxIter : Nat} {sched : Nat → List (Nat × Bool)}
    {obs : SolveObserver} {r : ParRun} {v : ValueIterator}, GoalSet vi → Penalised vi →
    0 < nthreads → k.run vi nthreads maxIter sched obs = some r → r.Offers v → Greedy vi v

/-- A line towards a goal whose penalty is one unit short of the product limit. -/
def costlyLine : ValueIterator :=
  ⟨⟨⟨3, 1, 1⟩, [goalState (productLimit - probBase), freeState, freeState], rfl⟩,
    [stepAction (-1) 0], by decide⟩

theorem costlyLine_blank : GoalSet costlyLine ∧ Penalised costlyLine := by
  have hall : ∀ p ∈ costlyLine.dims.all,
      costlyLine.costs p = (if (costlyLine.stateAt p).finalState then 0 else maxCost) ∧
      ((costlyLine.stateAt p).finalState = true → (costlyLine.stateAt p).free = true) ∧
      probBase ≤ costlyLine.world.pen p := by decide +kernel
  exact ⟨⟨fun p hp => (hall p (Dims.mem_all.mpr hp)).1,
    fun p hp => (hall p (Dims.mem_all.mpr hp)).2.1⟩,
    fun p hp _ => (hall p (Dims.mem_all.mpr hp)).2.2⟩

/-- At the far end the product wraps to nothing, and its only outcome lies above. -/
theorem not_offersGreedy : ¬ OffersGreedy .fused ∧ ¬ OffersGreedy .parUnsafe ∧
    ¬ OffersGreedy .par := by
  have hwrapped : ∀ k : ParSolver, ¬ OffersGreedy k := by
    intro k hoffers
    have hrun : ((k.run costlyLine 2 10 loneWorker nullObserver).map fun r =>
        (r.outcome.cancelled, r.field.costs ⟨2, 0, 0⟩)) = some (false, 0) := by
      cases k <;> decide +kernel
    obtain ⟨r, hr, hval⟩ := Option.map_eq_some_iff.mp hrun
    simp only [Prod.mk.injEq] at hval
    have hgreedy := hoffers costlyLine_blank.1 costlyLine_blank.2 (by decide) hr
      (Or.inr ⟨hval.1, rfl⟩)
    obtain ⟨_, _, _, _, _, o, _, _, hbelow⟩ := hgreedy.improving ⟨2, 0, 0⟩ (by decide +kernel)
      (by rw [hval.2]; decide)
    rw [hval.2] at hbelow
    exact Nat.not_lt_zero _ hbelow
  exact ⟨hwrapped _, hwrapped _, hwrapped _⟩

end ValueIteration
