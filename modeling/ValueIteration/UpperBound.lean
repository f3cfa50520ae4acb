import Mathlib.Algebra.BigOperators.Ring.List
import ValueIteration.Solvers.Raw

/-!
# How far a partial field can be trusted

The raw cost wraps, so an intermediate value may lie below the value the solver
converges to. What bounds every field from below is the greatest fixed point of the
same update in unbounded arithmetic, as long as no evaluation wraps below it; what
bounds every converged field from above is that same fixed point, unconditionally.
-/

set_option autoImplicit false

namespace ValueIteration

namespace ValueIterator

/-- The greatest fixed point of the update in unbounded arithmetic below the start. -/
noncomputable def exactValue (vi : ValueIterator) : Pos → Nat :=
  GreatestFixed.greatest (vi.world.operator vi.world.exactCost vi.costs) vi.costs

variable {vi : ValueIterator}

theorem exactValue_le_start : vi.exactValue ≤ vi.costs := GreatestFixed.greatest_le_start

/-- Any number of updates of the start bounds the fixed point from above. -/
theorem exactValue_le_backup {V : Pos → Nat} (hV : vi.exactValue ≤ V) {s : Pos}
    (hs : vi.world.evaluable s = true) :
    vi.exactValue s ≤ (vi.world.backup vi.world.exactCost V s).1 := by
  refine (GreatestFixed.greatest_le_eval
    (World.operator_exact_mono (w := vi.world) vi.costs) hV s).trans ?_
  simp only [World.operator, hs, if_true, le_refl]

/-- Exact updates of single states bound the fixed point from above too. -/
theorem exactValue_le_foldl (ps : List Pos) : ∀ {V : Pos → Nat}, vi.exactValue ≤ V →
    (∀ s ∈ ps, vi.world.evaluable s = true) →
    vi.exactValue ≤ ps.foldl
      (fun V s => Function.update V s (vi.world.backup vi.world.exactCost V s).1) V := by
  induction ps with
  | nil => intro V hV _; exact hV
  | cons s ps ih =>
    intro V hV hps
    refine ih ?_ fun t ht => hps t (List.mem_cons_of_mem _ ht)
    intro t
    dsimp only
    by_cases hts : t = s
    · subst hts
      rw [Function.update_self]
      exact exactValue_le_backup hV (hps t List.mem_cons_self)
    · rw [Function.update_of_ne hts]
      exact hV t

theorem exactValue_le_maxCost {s : Pos} (hs : vi.world.evaluable s = true) :
    vi.exactValue s ≤ maxCost :=
  (exactValue_le_backup (le_refl _) hs).trans (World.backup_le _ _ _)

theorem row_prob_sum {a : Action} (ha : a ∈ vi.actions) {s : Pos} (hs : vi.dims.Contains s) :
    ((a.row s.it).map (·.prob)).sum = probBase :=
  ((vi.wellFormed a ha).2 _ (List.mem_of_getElem? (row_mem ha hs))).2

/-- A choice none of whose outcomes is below `b` costs at least `b`. -/
theorem le_exactCost {b : Nat} (hb : b ≤ maxCost) {V : Pos → Nat} {s : Pos}
    (hs : vi.dims.Contains s) {c : Option (List (Pos × Nat))} (hc : c ∈ vi.world.choices s)
    (hmin : ∀ row, c = some row → ∀ o ∈ row, b ≤ V o.1) : b ≤ vi.world.exactCost V c := by
  obtain ⟨a, ha, rfl⟩ := List.mem_map.mp hc
  cases hrow : vi.legalRow s a with
  | none => exact hb
  | some row =>
    have hprob : (row.map (·.2)).sum = probBase := by
      unfold legalRow at hrow
      split at hrow
      · cases hrow
        rw [List.map_map]
        exact row_prob_sum ha hs
      · cases hrow
    have hge : b * probBase ≤ vi.world.weight V row := by
      rw [← hprob, ← List.sum_map_mul_left]
      refine List.sum_le_sum ?_
      intro o ho
      have hle := hmin row hrow o ho
      exact Nat.mul_le_mul_right _ (hle.trans (Nat.le_add_right _ _))
    exact (Nat.le_div_iff_mul_le probBase_pos).mpr hge

end ValueIterator

open ValueIterator

section
variable {vi : ValueIterator}

/-- Properties every field of a run has: what evaluation keeps, and values within
`MAX_COST` on evaluated states. -/
structure Within (vi v : ValueIterator) : Prop where
  inputs : vi.SameInputs v
  le_maxCost : ∀ s, vi.world.evaluable s = true → v.costs s ≤ maxCost
  elsewhere : ∀ s, vi.dims.Contains s → vi.world.evaluable s = false →
    v.costs s = vi.costs s ∧ v.policy s = vi.policy s

theorem Within.start (hblank : vi.Blank) : Within vi vi :=
  ⟨SameInputs.refl vi, fun _ hs => (hblank.evaluable hs).le, fun _ _ _ => ⟨rfl, rfl⟩⟩

theorem Within.eval {v : ValueIterator} (h : Within vi v) {s : Pos} (hs : vi.dims.Contains s) :
    Within vi (rawEval v s).1 := by
  by_cases hev : v.world.evaluable s = true
  · have hcosts {q : Pos} (hq : vi.dims.Contains q) := rawEval_costs hev (h.inputs.dims ▸ hq)
    refine ⟨h.inputs.trans (rawEval_sameInputs s), ?_, ?_⟩
    · intro q hq
      rw [hcosts (evaluable_iff.mp hq).1]
      split
      · exact World.backup_le _ _ _
      · exact h.le_maxCost q hq
    · intro q hq hnev
      have hne : q ≠ s := by
        rintro rfl
        rw [h.inputs.world] at hev
        rw [hev] at hnev
        cases hnev
      rw [hcosts hq, if_neg hne, rawEval_policy hev (h.inputs.dims ▸ hq), if_neg hne]
      exact h.elsewhere q hq hnev
  · rw [Bool.not_eq_true] at hev
    rw [rawEval_of_not_evaluable (h.inputs.dims ▸ hs) hev]
    exact h

theorem Within.evalSeq (ps : List Pos) : ∀ {v : ValueIterator}, Within vi v →
    (∀ s ∈ ps, vi.dims.Contains s) → Within vi (evalSeq v ps) := by
  induction ps with
  | nil => intro v h _; exact h
  | cons s ps ih =>
    intro v h hps
    exact ih (h.eval (hps s List.mem_cons_self)) fun t ht => hps t (List.mem_cons_of_mem _ ht)

open Classical in
/-- A field that its exact update does not lower on a set closed under reading is
bounded there by the exact value. -/
theorem postFixedOn_le_exactValue {v : ValueIterator} {Z : Set Pos}
    (hclosed : ∀ s ∈ Z, vi.world.evaluable s = true → ∀ t, vi.world.Reads s t → t ∈ Z)
    (hpost : ∀ s ∈ Z, vi.world.evaluable s = true →
      v.costs s ≤ (vi.world.backup vi.world.exactCost v.costs s).1)
    (hwithin : Within vi v) (hblank : vi.Blank) :
    ∀ s ∈ Z, vi.dims.Contains s → v.costs s ≤ vi.exactValue s := by
  let Y : Pos → Nat := fun s =>
    if s ∈ Z ∧ vi.dims.Contains s then max (v.costs s) (vi.exactValue s) else vi.exactValue s
  have hY {s : Pos} (hz : s ∈ Z) (hs : vi.dims.Contains s) :
      Y s = max (v.costs s) (vi.exactValue s) := if_pos ⟨hz, hs⟩
  have hge : vi.exactValue ≤ Y := by
    intro s
    by_cases h : s ∈ Z ∧ vi.dims.Contains s
    · rw [hY h.1 h.2]
      exact le_max_right _ _
    · exact (if_neg h : Y s = _).ge
  -- both halves of the maximum are post-fixed once reads stay inside `Z`
  have hstart (s : Pos) : v.costs s ≤ vi.costs s ∨ ¬ vi.dims.Contains s := by
    by_cases hs : vi.dims.Contains s
    · refine Or.inl ?_
      by_cases hev : vi.world.evaluable s = true
      · rw [hblank.evaluable hev]
        exact hwithin.le_maxCost s hev
      · rw [Bool.not_eq_true] at hev
        exact (hwithin.elsewhere s hs hev).1.le
    · exact Or.inr hs
  have hback {s : Pos} (hz : s ∈ Z) (hev : vi.world.evaluable s = true) :
      v.costs s ≤ (vi.world.backup vi.world.exactCost Y s).1 := by
    refine (hpost s hz hev).trans (World.backup_mono s ?_)
    intro c hc
    refine World.exactCost_mono_on ?_
    rintro row rfl ⟨t, p⟩ ho
    have ht : vi.world.Reads s t := ⟨row, hc, p, ho⟩
    rw [hY (hclosed s hz hev t ht) (reads_contains hev ht)]
    exact le_max_left _ _
  have hfixed : GreatestFixed.PostFixed
      (vi.world.operator vi.world.exactCost vi.costs) vi.costs Y := by
    constructor
    · intro s
      by_cases h : s ∈ Z ∧ vi.dims.Contains s
      · rw [hY h.1 h.2]
        exact max_le ((hstart s).resolve_right fun hn => hn h.2) (exactValue_le_start s)
      · exact (if_neg h : Y s = _).trans_le (exactValue_le_start s)
    · intro s
      have hexact : vi.exactValue s ≤ vi.world.operator vi.world.exactCost vi.costs Y s :=
        GreatestFixed.greatest_le_eval (World.operator_exact_mono (w := vi.world) vi.costs) hge s
      by_cases h : s ∈ Z ∧ vi.dims.Contains s
      · rw [hY h.1 h.2]
        refine max_le ?_ hexact
        by_cases hev : vi.world.evaluable s = true
        · simp only [World.operator, hev, if_true]
          exact hback h.1 hev
        · simp only [World.operator, hev, Bool.false_eq_true, if_false]
          exact (hstart s).resolve_right fun hn => hn h.2
      · exact (if_neg h : Y s = _).trans_le hexact
  intro s hz hs
  exact (le_max_left _ _).trans ((hY hz hs).ge.trans (GreatestFixed.le_greatest hfixed s))

/-- The exact update does not lower a settled state: wrapping only ever lowers a cost. -/
theorem Settled.le_exactBackup {v : ValueIterator} {s : Pos} (h : Settled vi.world v s)
    (hwithin : Within vi v) (hev : vi.world.evaluable s = true) :
    v.costs s ≤ (vi.world.backup vi.world.exactCost v.costs s).1 := by
  rcases h with heq | ⟨_, hmax⟩
  · have hval : v.costs s = (vi.world.backup vi.world.rawCost v.costs s).1 := congrArg Prod.fst heq
    rw [hval]
    exact World.backup_mono s fun c _ => World.rawCost_le_exactCost v.costs c
  · refine (hwithin.le_maxCost s hev).trans (Argmin.le_argminBelow (le_refl _) ?_)
    intro d hd
    obtain ⟨c, hc, rfl⟩ := List.mem_map.mp hd
    refine le_exactCost (le_refl _) (evaluable_iff.mp hev).1 hc ?_
    rintro row rfl ⟨t, p⟩ ho
    exact hmax t ⟨row, hc, p, ho⟩

/-- A field that is settled on a set closed under reading is bounded there by the
exact value. -/
theorem settledOn_le_exactValue {v : ValueIterator} {Z : Set Pos}
    (hclosed : ∀ s ∈ Z, vi.world.evaluable s = true → ∀ t, vi.world.Reads s t → t ∈ Z)
    (hset : ∀ s ∈ Z, vi.world.evaluable s = true → Settled vi.world v s)
    (hwithin : Within vi v) (hblank : vi.Blank) :
    ∀ s ∈ Z, vi.dims.Contains s → v.costs s ≤ vi.exactValue s :=
  postFixedOn_le_exactValue hclosed
    (fun s hz hev => (hset s hz hev).le_exactBackup hwithin hev) hwithin hblank

/-- Along the evaluations, no cost of a state of `S` wraps below its exact value. -/
def StepsAboveOn (vi : ValueIterator) (S : Set Pos) : ValueIterator → List Pos → Prop
  | _, [] => True
  | v, s :: rest =>
    (s ∈ S → vi.world.evaluable s = true →
      ∀ a ∈ vi.actions, vi.exactValue s ≤ v.actionCostRaw a s) ∧
      StepsAboveOn vi S (rawEval v s).1 rest

/-- Along the evaluations, no action's wrapped cost falls below the exact value. -/
def StepsAbove (vi : ValueIterator) : ValueIterator → List Pos → Prop :=
  StepsAboveOn vi Set.univ

theorem StepsAbove.on (S : Set Pos) {v : ValueIterator} {ps : List Pos}
    (h : StepsAbove vi v ps) : StepsAboveOn vi S v ps := by
  induction ps generalizing v with
  | nil => trivial
  | cons s ps ih => exact ⟨fun _ => h.1 (Set.mem_univ s), ih h.2⟩

/-- One evaluation whose costs do not wrap below the exact value keeps the bound on `S`. -/
theorem exactValue_le_eval {v : ValueIterator} {S : Set Pos} (h : Within vi v) {s : Pos}
    (hlow : ∀ t ∈ S, vi.dims.Contains t → vi.exactValue t ≤ v.costs t)
    (hstep : s ∈ S → vi.world.evaluable s = true →
      ∀ a ∈ vi.actions, vi.exactValue s ≤ v.actionCostRaw a s)
    (hs : vi.dims.Contains s) :
    ∀ t ∈ S, vi.dims.Contains t → vi.exactValue t ≤ (rawEval v s).1.costs t := by
  intro t hmem ht
  by_cases hev : v.world.evaluable s = true
  · rw [rawEval_costs hev (h.inputs.dims ▸ ht)]
    split
    · next heq =>
      rw [heq] at hmem ⊢
      have hev' := hev
      rw [h.inputs.world] at hev'
      refine Argmin.le_argminBelow (exactValue_le_maxCost hev') ?_
      intro d hd
      obtain ⟨c, hc, rfl⟩ := List.mem_map.mp hd
      obtain ⟨a, ha, rfl⟩ := List.mem_map.mp hc
      rw [← actionCostRaw_eq]
      exact hstep hmem hev' a (h.inputs.actions ▸ ha)
    · exact hlow t hmem ht
  · rw [Bool.not_eq_true] at hev
    rw [rawEval_of_not_evaluable (h.inputs.dims ▸ hs) hev]
    exact hlow t hmem ht

/-- Run lemma: every prefix of evaluations that stay above keeps the bound. -/
theorem exactValue_le_prefix {S : Set Pos} (ps : List Pos) : ∀ {v : ValueIterator}, Within vi v →
    (∀ s ∈ ps, vi.dims.Contains s) → StepsAboveOn vi S v ps →
    (∀ t ∈ S, vi.dims.Contains t → vi.exactValue t ≤ v.costs t) →
    ∀ pre, pre <+: ps → ∀ t ∈ S, vi.dims.Contains t →
      vi.exactValue t ≤ (evalSeq v pre).costs t := by
  induction ps with
  | nil =>
    intro v _ _ _ hlow pre hpre
    rw [List.prefix_nil.mp hpre]
    exact hlow
  | cons s ps ih =>
    intro v h hps hsteps hlow pre hpre
    rcases List.prefix_cons_iff.mp hpre with rfl | ⟨pre', rfl, hpre'⟩
    · exact hlow
    · have hs := hps s List.mem_cons_self
      exact ih (h.eval hs) (fun t ht => hps t (List.mem_cons_of_mem _ ht)) hsteps.2
        (exactValue_le_eval h hlow hsteps.1 hs) pre' hpre'

/-- The fields of a traced run that never wraps below on `S` stay above the exact value
there. -/
theorem Traced.exactValue_le {r : InPlaceRun} {S : Set Pos} (h : Traced vi r) (hblank : vi.Blank)
    (hsteps : StepsAboveOn vi S vi r.evals) {v : ValueIterator} (hv : v = r.vi ∨ v ∈ r.seen) :
    ∀ t ∈ S, vi.dims.Contains t → vi.exactValue t ≤ v.costs t := by
  have hpre : ∃ pre, pre <+: r.evals ∧ v = evalSeq vi pre := by
    rcases hv with rfl | hv
    · exact ⟨r.evals, List.prefix_refl _, h.final⟩
    · exact h.seen v hv
  obtain ⟨pre, hpre, rfl⟩ := hpre
  exact exactValue_le_prefix r.evals (Within.start hblank) h.legal hsteps
    (fun t _ _ => exactValue_le_start t) pre hpre

/-- A converged field of a raw frontier solver never exceeds the exact value. -/
theorem RawFrontier.converged_le_exactValue {k : RawFrontier} {obs : SolveObserver}
    {maxIter : Nat} {r : InPlaceRun} (hblank : vi.Blank) (h : k.run vi maxIter obs = some r)
    (hconv : r.outcome.converged = true) :
    ∀ s, vi.dims.Contains s → r.vi.costs s ≤ vi.exactValue s := by
  have htr := RawFrontier.traced h
  have hwithin : Within vi r.vi := by
    rw [htr.final]
    exact Within.evalSeq _ (Within.start hblank) htr.legal
  intro s hs
  exact settledOn_le_exactValue (fun _ _ _ _ _ => Set.mem_univ _)
    (fun s _ hev => (RawFrontier.settled h hconv).2 s hev) hwithin hblank s (Set.mem_univ s) hs

/-- In every run whose evaluations do not wrap below the exact value, every field an
observer sees is an upper bound of the converged one. -/
theorem upperBound_of_stepsAbove {k k' : RawFrontier} {obs obs' : SolveObserver}
    {maxIter maxIter' : Nat} {r r' : InPlaceRun} (hblank : vi.Blank)
    (hrun : k.run vi maxIter obs = some r) (hsteps : StepsAbove vi vi r.evals)
    (hrun' : k'.run vi maxIter' obs' = some r') (hconv : r'.outcome.converged = true)
    {v : ValueIterator} (hv : v = r.vi ∨ v ∈ r.seen) :
    ∀ s, vi.dims.Contains s → r'.vi.costs s ≤ v.costs s := by
  intro s hs
  exact (RawFrontier.converged_le_exactValue hblank hrun' hconv s hs).trans
    ((RawFrontier.traced hrun).exactValue_le hblank hsteps hv s (Set.mem_univ s) hs)

end

/-- Four cells in a row; the only action leads away from the goal at the left end. -/
def awayFromGoal : ValueIterator :=
  ⟨⟨⟨4, 1, 1⟩, [goalState probBase, freeState, freeState, freeState], rfl⟩, [stepAction 1 0],
    by decide⟩

/-- An observer called after every round that never interferes. -/
def everyRound : SolveObserver := ⟨1, fun _ _ _ => .proceed⟩

/-- The evaluations, each with the field before it. -/
def trail : ValueIterator → List Pos → List (ValueIterator × Pos)
  | _, [] => []
  | v, s :: ps => (v, s) :: trail (rawEval v s).1 ps

theorem stepsAbove_of_trail {vi : ValueIterator} (ps : List Pos) : ∀ {v : ValueIterator},
    (∀ e ∈ trail v ps, vi.world.evaluable e.2 = true →
      ∀ a ∈ vi.actions, vi.exactValue e.2 ≤ e.1.actionCostRaw a e.2) → StepsAbove vi v ps := by
  induction ps with
  | nil => intro v _; trivial
  | cons s ps ih =>
    intro v h
    exact ⟨fun _ => h (v, s) List.mem_cons_self, ih fun e he => h e (List.mem_cons_of_mem _ he)⟩

/-- Updated from the goals outwards, the exact value is at most what the solvers end at. -/
theorem slipRow_exactValue_le {s : Pos} (hs : slipRow.dims.Contains s) :
    slipRow.exactValue s ≤ slipRowValues.getD (slipRow.dims.flat s).toNat 0 := by
  let ps : List Pos := [⟨1, 0, 0⟩, ⟨1, 0, 1⟩, ⟨5, 0, 0⟩, ⟨5, 0, 1⟩, ⟨4, 0, 0⟩, ⟨4, 0, 1⟩,
    ⟨3, 0, 0⟩, ⟨3, 0, 1⟩, ⟨2, 0, 0⟩, ⟨2, 0, 1⟩]
  have hps : ∀ p ∈ ps, slipRow.world.evaluable p = true := by decide +kernel
  have hall : ∀ p ∈ slipRow.dims.all, ps.foldl (fun V s => Function.update V s
      (slipRow.world.backup slipRow.world.exactCost V s).1) slipRow.costs p ≤
        slipRowValues.getD (slipRow.dims.flat p).toNat 0 := by decide +kernel
  exact (exactValue_le_foldl ps exactValue_le_start hps s).trans (hall s (Dims.mem_all.mpr hs))

/-- The third cell is seen at its value over the rough cell before it falls. -/
theorem slipRow_run : ∃ r, RawFrontier.frontier2d.run slipRow 10 everyRound = some r ∧
    r.outcome.converged = true ∧
    (r.seen.map fun v => v.costs ⟨2, 0, 0⟩) = [maxCost, 10 * probBase, 10 * probBase, 1176064] ∧
    slipRow.dims.all.map r.vi.costs = slipRowValues := by
  have hrun : ((RawFrontier.frontier2d.run slipRow 10 everyRound).map fun r =>
      (r.outcome.converged, r.seen.map fun v => v.costs ⟨2, 0, 0⟩,
        slipRow.dims.all.map r.vi.costs)) =
      some (true, [maxCost, 10 * probBase, 10 * probBase, 1176064], slipRowValues) := by
    decide +kernel
  obtain ⟨r, hr, hends⟩ := Option.map_eq_some_iff.mp hrun
  simp only [Prod.mk.injEq] at hends
  exact ⟨r, hr, hends⟩

/-- Evaluations that cost at least the values above do not wrap below the exact value. -/
theorem slipRow_stepsAbove {ps : List Pos} (h : ∀ e ∈ trail slipRow ps,
    slipRow.world.evaluable e.2 = true → ∀ a ∈ slipRow.actions,
      slipRowValues.getD (slipRow.dims.flat e.2).toNat 0 ≤ e.1.actionCostRaw a e.2) :
    StepsAbove slipRow slipRow ps := by
  apply stepsAbove_of_trail
  intro e he hev a ha
  exact (slipRow_exactValue_le (evaluable_iff.mp hev).1).trans (h e he hev a ha)

theorem slipRow_frontier_stepsAbove {r : InPlaceRun}
    (hr : RawFrontier.frontier2d.run slipRow 10 everyRound = some r) :
    StepsAbove slipRow slipRow r.evals := by
  have hall : ((RawFrontier.frontier2d.run slipRow 10 everyRound).elim [] (·.evals)) = r.evals := by
    rw [hr]
    rfl
  rw [← hall]
  apply slipRow_stepsAbove
  decide +kernel

theorem slipRow_upperBound : ∃ r v, RawFrontier.frontier2d.run slipRow 10 everyRound = some r ∧
    v ∈ r.seen ∧ v.costs ⟨2, 0, 0⟩ = 10 * probBase ∧ r.vi.costs ⟨2, 0, 0⟩ = 1176064 ∧
      ∀ s, slipRow.dims.Contains s → r.vi.costs s ≤ v.costs s := by
  obtain ⟨r, hr, hconv, hseen, hcosts⟩ := slipRow_run
  have hmem : 10 * probBase ∈ r.seen.map fun v => v.costs ⟨2, 0, 0⟩ := by
    rw [hseen]
    simp
  obtain ⟨v, hv, hval⟩ := List.mem_map.mp hmem
  have hend : r.vi.costs ⟨2, 0, 0⟩ = 1176064 :=
    congrArg (fun l : List Nat => l.getD 4 0) hcosts
  exact ⟨r, v, hr, hv, hval, hend, upperBound_of_stepsAbove slipRow_blank hr
    (slipRow_frontier_stepsAbove hr) hr hconv (Or.inr hv)⟩

theorem RawFrontier.caps_partiality (k : RawFrontier) :
    k.solver.caps.partiality = .upperBound := by
  cases k <;> rfl

theorem awayFromGoal_blank : awayFromGoal.Blank := by
  have hall : ∀ p ∈ awayFromGoal.dims.all, awayFromGoal.costs p =
      if (awayFromGoal.stateAt p).finalState then 0 else maxCost := by decide +kernel
  intro p hp
  exact hall p (Dims.mem_all.mpr hp)

/-- What the observer sees next to the goal, against the converged value: the first
field holds a wrapped cost that later rises. -/
theorem awayFromGoal_run :
    ((RawFrontier.frontier2d.run awayFromGoal 10 everyRound).map fun r =>
      (r.outcome.converged, r.seen.map fun v => v.costs ⟨1, 0, 0⟩, r.vi.costs ⟨1, 0, 0⟩)) =
    some (true, [51037767729152, 51037767729152, 51037767991296], 51037767991296) := by
  decide +kernel

/-- An intermediate field may undershoot the converged one. -/
theorem not_upperBound : ¬ ∀ (k : RawFrontier) (vi : ValueIterator),
    k.solver.caps.partiality = .upperBound → vi.Blank →
    ∀ (maxIter : Nat) (obs : SolveObserver) (r r' : InPlaceRun),
      k.run vi maxIter obs = some r → k.run vi maxIter obs = some r' →
      r'.outcome.converged = true → ∀ v ∈ r.seen, ∀ s, vi.dims.Contains s →
        r'.vi.costs s ≤ v.costs s := by
  intro h
  have hrun := awayFromGoal_run
  cases hr : RawFrontier.frontier2d.run awayFromGoal 10 everyRound with
  | none => rw [hr] at hrun; cases hrun
  | some r =>
    rw [hr] at hrun
    simp only [Option.map_some, Option.some.injEq, Prod.mk.injEq] at hrun
    obtain ⟨hconv, hseen, hfin⟩ := hrun
    have hmem : 51037767729152 ∈ r.seen.map fun v => v.costs ⟨1, 0, 0⟩ := by
      rw [hseen]
      exact List.mem_cons_self
    obtain ⟨v, hv, hcost⟩ := List.mem_map.mp hmem
    have hle := h .frontier2d awayFromGoal rfl awayFromGoal_blank 10 everyRound r r hr hr hconv v hv
      ⟨1, 0, 0⟩ (by decide)
    rw [hfin, hcost] at hle
    exact absurd hle (by decide)

end ValueIteration
