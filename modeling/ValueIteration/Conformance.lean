import ValueIteration.Solvers.Original
import ValueIteration.UpperBound

/-!
# Agreement with the reference sweep

The reference stops when no state below `REACH_THRESH` moved in a sweep, so a state
above it may still be on its way. Where whatever the states below the threshold lead
to holds its update when the last reference sweep starts, and neither run wraps below
the exact value of such a state, both end at the exact value there, with the same action.
-/

set_option autoImplicit false

namespace ValueIteration

open ValueIterator

section
variable {vi : ValueIterator} {obs : SolveObserver}

/-- States that are not evaluated keep value and action. -/
theorem evalSeq_of_not_mem {t : Pos} (ps : List Pos) : ∀ {v : ValueIterator},
    (∀ s ∈ ps, v.dims.Contains s) → v.dims.Contains t → t ∉ ps →
      (evalSeq v ps).costs t = v.costs t ∧ (evalSeq v ps).policy t = v.policy t := by
  induction ps with
  | nil => intro v _ _ _; exact ⟨rfl, rfl⟩
  | cons s ps ih =>
    intro v hps ht hnot
    have hs := hps s List.mem_cons_self
    have hdims := (@rawEval_sameInputs v s).dims
    have hstep : (rawEval v s).1.costs t = v.costs t ∧ (rawEval v s).1.policy t = v.policy t := by
      by_cases hev : v.world.evaluable s = true
      · have hne : t ≠ s := fun h => hnot (h ▸ List.mem_cons_self)
        rw [rawEval_costs hev ht, rawEval_policy hev ht, if_neg hne, if_neg hne]
        exact ⟨rfl, rfl⟩
      · rw [Bool.not_eq_true] at hev
        rw [rawEval_of_not_evaluable hs hev]
        exact ⟨rfl, rfl⟩
    have hrest := ih (v := (rawEval v s).1)
      (fun q hq => by rw [hdims]; exact hps q (List.mem_cons_of_mem _ hq)) (by rw [hdims]; exact ht)
      fun h => hnot (List.mem_cons_of_mem _ h)
    exact ⟨hrest.1.trans hstep.1, hrest.2.trans hstep.2⟩

/-- In a sweep `s` ends at its update on a field that holds for each state the value
before or after the sweep. -/
theorem exists_sweep_field {P : ValueIterator} (hP : vi.SameInputs P) {ps : List Pos}
    (hnodup : ps.Nodup) (hps : ∀ s ∈ ps, vi.dims.Contains s) {s : Pos} (hmem : s ∈ ps)
    (hev : vi.world.evaluable s = true) :
    ∃ pre post, ps = pre ++ s :: post ∧
      ((evalSeq P ps).costs s, (evalSeq P ps).policy s) =
        vi.world.backup vi.world.rawCost (evalSeq P pre).costs s ∧
      ∀ t, vi.dims.Contains t → (evalSeq P pre).costs t = P.costs t ∨
        (evalSeq P pre).costs t = (evalSeq P ps).costs t := by
  obtain ⟨pre, post, rfl⟩ := List.append_of_mem hmem
  have hcon := (evaluable_iff.mp hev).1
  have hpre_not : s ∉ pre := by
    intro h
    exact (List.nodup_append.mp hnodup).2.2 s h s List.mem_cons_self rfl
  have hpost_not : s ∉ post := (List.nodup_cons.mp (List.nodup_append.mp hnodup).2.1).1
  let M := evalSeq P pre
  have hM : vi.SameInputs M := hP.trans (evalSeq_sameInputs pre P)
  have hsplit : evalSeq P (pre ++ s :: post) = evalSeq (rawEval M s).1 post := by
    rw [evalSeq_append]
    rfl
  have hdims : ∀ {q}, vi.dims.Contains q → M.dims.Contains q := fun h => hM.dims ▸ h
  have hevM : M.world.evaluable s = true := by rw [hM.world]; exact hev
  have hlegal {qs : List Pos} (h : ∀ q ∈ qs, q ∈ pre ++ s :: post) {v : ValueIterator}
      (hv : vi.SameInputs v) : ∀ q ∈ qs, v.dims.Contains q := by
    intro q hq
    rw [hv.dims]
    exact hps q (h q hq)
  have hRs : vi.SameInputs (rawEval M s).1 := hM.trans (rawEval_sameInputs s)
  have hself := evalSeq_of_not_mem (v := (rawEval M s).1) post
    (hlegal (fun q hq => by simp [hq]) hRs) (hRs.dims ▸ hcon) hpost_not
  refine ⟨pre, post, rfl, ?_, ?_⟩
  · rw [hsplit, hself.1, hself.2, rawEval_costs hevM (hdims hcon), rawEval_policy hevM (hdims hcon),
      if_pos rfl, if_pos rfl, hM.world]
  · intro t hct
    by_cases htpre : t ∈ pre
    · have hts : t ≠ s := fun h => hpre_not (h ▸ htpre)
      have htpost : t ∉ post := by
        intro h
        exact (List.nodup_append.mp hnodup).2.2 t htpre t (List.mem_cons_of_mem _ h) rfl
      have h1 := evalSeq_of_not_mem (v := (rawEval M s).1) post
        (hlegal (fun q hq => by simp [hq]) hRs) (hRs.dims ▸ hct) htpost
      refine Or.inr ?_
      rw [hsplit, h1.1, rawEval_costs hevM (hdims hct), if_neg hts]
    · exact Or.inl (evalSeq_of_not_mem (v := P) pre (hlegal (fun q hq => by simp [hq]) hP)
        (hP.dims ▸ hct) htpre).1

/-- In a sweep that moves none of the states `s` reads, `s` ends at its own update. -/
theorem sweep_eq_backup {P : ValueIterator} (hP : vi.SameInputs P) {ps : List Pos}
    (hnodup : ps.Nodup) (hps : ∀ s ∈ ps, vi.dims.Contains s) {s : Pos} (hmem : s ∈ ps)
    (hev : vi.world.evaluable s = true)
    (hsame : ∀ t, vi.world.Reads s t → (evalSeq P ps).costs t = P.costs t) :
    ((evalSeq P ps).costs s, (evalSeq P ps).policy s) =
      vi.world.backup vi.world.rawCost (evalSeq P ps).costs s := by
  obtain ⟨pre, post, _, hend, hfield⟩ := exists_sweep_field hP hnodup hps hmem hev
  rw [hend]
  refine World.backup_congr World.rawCost_local ?_
  intro t ht
  rcases hfield t (reads_contains hev ht) with h | h
  · rw [h, hsame t ht]
  · exact h

/-- The invariant of the reference loop. -/
structure OriginalInv (vi : ValueIterator) (st : LoopState ValueIterator) : Prop where
  legal : ∀ s ∈ st.evals, vi.dims.Contains s
  field : st.vi = evalSeq vi st.evals
  seen : ∀ v ∈ st.seen, ∃ pre, pre <+: st.evals ∧ v = evalSeq vi pre

theorem OriginalInv.inputs {st : LoopState ValueIterator} (h : OriginalInv vi st) :
    vi.SameInputs st.vi := by
  rw [h.field]
  exact evalSeq_sameInputs _ vi

theorem OriginalInv.sweepOrder {st : LoopState ValueIterator} (h : OriginalInv vi st) :
    st.vi.sweepOrder = vi.dims.all := by
  rw [ValueIterator.sweepOrder, h.inputs.dims]

theorem OriginalInv.sweep {st : LoopState ValueIterator} (h : OriginalInv vi st) :
    OriginalInv vi st.sweep := by
  refine ⟨?_, ?_, ?_⟩
  · intro s hs
    rcases List.mem_append.mp hs with hs | hs
    · exact h.legal s hs
    · rw [h.sweepOrder] at hs
      exact Dims.mem_all.mp hs
  · simp only [LoopState.sweep, evalSeq_append, ← h.field, ValueIterator.valueIterationWorker]
  · intro v hv
    obtain ⟨pre, hpre, hv⟩ := h.seen v hv
    exact ⟨pre, hpre.trans (List.prefix_append _ _), hv⟩

theorem OriginalInv.observed {st : LoopState ValueIterator} (h : OriginalInv vi st) :
    OriginalInv vi st.observed := by
  refine ⟨h.legal, h.field, ?_⟩
  intro v hv
  rcases List.mem_append.mp hv with hv | hv
  · exact h.seen v hv
  · rw [List.mem_singleton] at hv
    exact ⟨st.evals, List.prefix_refl _, hv.trans h.field⟩

/-- The evaluations of a converged reference run end with a whole sweep. -/
theorem originalSolve_spec (maxIter : Nat) :
    let r := vi.originalSolve maxIter obs
    Traced vi r ∧ (r.outcome.converged = true →
      ∃ pre, r.evals = pre ++ vi.dims.all ∧
        changedBelowReach (evalSeq vi pre) r.vi = false) := by
  have hstart : OriginalInv vi (LoopState.start vi vi obs) :=
    ⟨by simp [LoopState.start], rfl, by simp [LoopState.start]⟩
  obtain ⟨st, hst, hr, hconv⟩ := @originalLoop_induct obs (OriginalInv vi)
    (fun _ h => h.sweep) (fun _ h => h.observed) (maxIter - 1) _ hstart
  intro r
  have hrst : r = st.finish r.outcome := hr
  rw [hrst]
  refine ⟨⟨hst.legal, hst.field, hst.seen⟩, ?_⟩
  intro hc
  obtain ⟨st₀, h₀, rfl, hch⟩ := hconv hc
  refine ⟨st₀.evals, ?_, ?_⟩
  · simp only [LoopState.finish, LoopState.sweep, h₀.sweepOrder]
  · rw [← h₀.field]
    exact hch

/-- A state and an outcome its update reads. -/
def Leads (vi : ValueIterator) (s t : Pos) : Prop :=
  vi.world.evaluable s = true ∧ vi.world.Reads s t

/-- States that some state below the threshold can lead to. -/
def BelowReach (vi v : ValueIterator) : Set Pos :=
  {s | ∃ s₀, vi.dims.Contains s₀ ∧ v.costs s₀ < reachThresh ∧
    Relation.ReflTransGen (Leads vi) s₀ s}

/-- The field before the last sweep of a run. -/
def beforeLastSweep (vi : ValueIterator) (r : InPlaceRun) : ValueIterator :=
  evalSeq vi (r.evals.take (r.evals.length - vi.dims.count))

/-- When the last sweep starts, whatever the states below the threshold lead to holds
its update already. -/
def QuietStop (vi : ValueIterator) (r : InPlaceRun) : Prop :=
  ∀ s ∈ BelowReach vi (beforeLastSweep vi r), vi.world.evaluable s = true →
    (beforeLastSweep vi r).costs s =
      (vi.world.backup vi.world.rawCost (beforeLastSweep vi r).costs s).1

theorem belowReach_contains {v : ValueIterator} {s : Pos} (h : s ∈ BelowReach vi v) :
    vi.dims.Contains s := by
  obtain ⟨s₀, hcon, _, hpath⟩ := h
  induction hpath with
  | refl => exact hcon
  | tail _ hlead _ => exact reads_contains hlead.1 hlead.2

theorem belowReach_closed {v : ValueIterator} {s t : Pos} (h : s ∈ BelowReach vi v)
    (hev : vi.world.evaluable s = true) (ht : vi.world.Reads s t) : t ∈ BelowReach vi v := by
  obtain ⟨s₀, hcon, hlt, hpath⟩ := h
  exact ⟨s₀, hcon, hlt, hpath.tail ⟨hev, ht⟩⟩

/-- A set closed under reading that holds its updates keeps its values. -/
theorem evalSeq_keeps {Z : Set Pos}
    (hclosed : ∀ s ∈ Z, vi.world.evaluable s = true → ∀ t, vi.world.Reads s t → t ∈ Z)
    (hcon : ∀ s ∈ Z, vi.dims.Contains s) (ps : List Pos) : ∀ {P : ValueIterator},
    vi.SameInputs P → (∀ s ∈ ps, vi.dims.Contains s) →
    (∀ s ∈ Z, vi.world.evaluable s = true →
      P.costs s = (vi.world.backup vi.world.rawCost P.costs s).1) →
    ∀ s ∈ Z, (evalSeq P ps).costs s = P.costs s := by
  induction ps with
  | nil => intro P _ _ _ s _; rfl
  | cons q ps ih =>
    intro P hP hps hheld s hs
    have hq := hps q List.mem_cons_self
    have hkeep : ∀ t ∈ Z, (rawEval P q).1.costs t = P.costs t := by
      intro t ht
      by_cases hev : P.world.evaluable q = true
      · rw [rawEval_costs hev (hP.dims ▸ hcon t ht)]
        split
        · next heq =>
          rw [hP.world] at hev ⊢
          rw [heq] at ht
          rw [heq]
          exact (hheld q ht hev).symm
        · rfl
      · rw [Bool.not_eq_true] at hev
        rw [rawEval_of_not_evaluable (hP.dims ▸ hq) hev]
    have hrest := ih (hP.trans (rawEval_sameInputs q))
      (fun t ht => hps t (List.mem_cons_of_mem _ ht)) (by
        intro t ht hev
        rw [hkeep t ht, hheld t ht hev]
        refine congrArg Prod.fst (World.backup_congr World.rawCost_local ?_)
        intro u hu
        exact (hkeep u (hclosed t ht hev u hu)).symm) s hs
    exact hrest.trans (hkeep s hs)

theorem not_changedBelowReach {P v : ValueIterator} (h : changedBelowReach P v = false) {s : Pos}
    (hs : v.dims.Contains s) (hlt : v.costs s < reachThresh) : v.costs s = P.costs s := by
  simp only [changedBelowReach, List.any_eq_false, Bool.and_eq_true, decide_eq_true_eq,
    bne_iff_ne, ne_eq, not_and, not_not] at h
  exact h s (Dims.mem_all.mpr hs) hlt

/-- The last sweep of a converged reference run changes nothing below the threshold. -/
theorem originalSolve_lastSweep {maxIter : Nat} {r : InPlaceRun}
    (hr : vi.originalSolve maxIter obs = r) (hconv : r.outcome.converged = true) :
    vi.SameInputs (beforeLastSweep vi r) ∧
      r.vi = evalSeq (beforeLastSweep vi r) vi.dims.all ∧
        changedBelowReach (beforeLastSweep vi r) r.vi = false := by
  obtain ⟨htr, hsweep⟩ := @originalSolve_spec vi obs maxIter
  rw [hr] at htr hsweep
  obtain ⟨pre, hevals, hbelow⟩ := hsweep hconv
  have hbefore : beforeLastSweep vi r = evalSeq vi pre := by
    rw [beforeLastSweep, hevals, List.length_append, Dims.length_all, Nat.add_sub_cancel,
      List.take_left]
  rw [hbefore]
  refine ⟨evalSeq_sameInputs pre vi, ?_, hbelow⟩
  rw [htr.final, hevals, evalSeq_append]

/-- A state below the threshold now was so before the last sweep. -/
theorem belowReach_lastSweep {maxIter : Nat} {r : InPlaceRun}
    (hr : vi.originalSolve maxIter obs = r) (hconv : r.outcome.converged = true) :
    BelowReach vi r.vi ⊆ BelowReach vi (beforeLastSweep vi r) := by
  obtain ⟨hinputs, hfield, hbelow⟩ := originalSolve_lastSweep hr hconv
  rintro t ⟨s₀, hcon, hlt, hpath⟩
  have hdims : r.vi.dims.Contains s₀ := by
    rw [hfield, (hinputs.trans (evalSeq_sameInputs _ _)).dims]
    exact hcon
  rw [not_changedBelowReach hbelow hdims hlt] at hlt
  exact ⟨s₀, hcon, hlt, hpath⟩

/-- A reference run that converged on a quiet stop holds the update's own value and
action on everything the states below the threshold lead to. -/
theorem reference_backup {maxIter : Nat} {r : InPlaceRun} (hr : vi.originalSolve maxIter obs = r)
    (hconv : r.outcome.converged = true) (hquiet : QuietStop vi r) {s : Pos}
    (hs : s ∈ BelowReach vi r.vi) (hev : vi.world.evaluable s = true) :
    (r.vi.costs s, r.vi.policy s) = vi.world.backup vi.world.rawCost r.vi.costs s := by
  obtain ⟨hinputs, hfield, _⟩ := originalSolve_lastSweep hr hconv
  have hsub := belowReach_lastSweep hr hconv
  have hkeep := @evalSeq_keeps vi _
    (fun t ht hev' u hu => belowReach_closed (v := beforeLastSweep vi r) ht hev' hu)
    (fun t ht => belowReach_contains ht) vi.dims.all _ hinputs
    (fun t ht => Dims.mem_all.mp ht) hquiet
  have hreads : ∀ t, vi.world.Reads s t →
      (evalSeq (beforeLastSweep vi r) vi.dims.all).costs t = (beforeLastSweep vi r).costs t :=
    fun t ht => hkeep t (hsub (belowReach_closed hs hev ht))
  rw [hfield]
  exact sweep_eq_backup hinputs Dims.nodup_all (fun t ht => Dims.mem_all.mp ht)
    (Dims.mem_all.mpr (belowReach_contains hs)) hev hreads

theorem reference_within {maxIter : Nat} {r : InPlaceRun} (hblank : vi.Blank)
    (hr : vi.originalSolve maxIter obs = r) : Within vi r.vi := by
  have htr := (@originalSolve_spec vi obs maxIter).1
  rw [hr] at htr
  rw [htr.final]
  exact Within.evalSeq _ (Within.start hblank) htr.legal

/-- A reference run that converged on a quiet stop without wrapping below the exact value
holds it on everything the states below the threshold lead to. -/
theorem reference_eq_exactValue {maxIter : Nat} {r : InPlaceRun} (hblank : vi.Blank)
    (hr : vi.originalSolve maxIter obs = r) (hconv : r.outcome.converged = true)
    (hsteps : StepsAboveOn vi (BelowReach vi (beforeLastSweep vi r)) vi r.evals)
    (hquiet : QuietStop vi r) :
    ∀ s ∈ BelowReach vi r.vi, r.vi.costs s = vi.exactValue s := by
  have htr := (@originalSolve_spec vi obs maxIter).1
  rw [hr] at htr
  intro s hs
  have hcon := belowReach_contains hs
  refine le_antisymm ?_
    (htr.exactValue_le hblank hsteps (Or.inl rfl) s (belowReach_lastSweep hr hconv hs) hcon)
  exact settledOn_le_exactValue (fun s hs hev t ht => belowReach_closed hs hev ht)
    (fun s hs hev => Or.inl (reference_backup hr hconv hquiet hs hev))
    (reference_within hblank hr) hblank s hs hcon

/-- A field that is the exact value where the reference was below the threshold before its
last sweep, and its own update there, agrees with such a run below the threshold, in value
and in action. -/
theorem agrees_of_exactValue {maxIter : Nat} {r : InPlaceRun} {v : ValueIterator}
    (hblank : vi.Blank) (hr : vi.originalSolve maxIter obs = r)
    (hconv : r.outcome.converged = true)
    (hsteps : StepsAboveOn vi (BelowReach vi (beforeLastSweep vi r)) vi r.evals)
    (hquiet : QuietStop vi r) (hwithin : Within vi v)
    (hexact : ∀ s ∈ BelowReach vi (beforeLastSweep vi r), v.costs s = vi.exactValue s)
    (hheld : ∀ s ∈ BelowReach vi (beforeLastSweep vi r), vi.world.evaluable s = true →
      v.costs s < maxCost →
      (v.costs s, v.policy s) = vi.world.backup vi.world.rawCost v.costs s) :
    ∀ s, vi.dims.Contains s → r.vi.costs s < reachThresh →
      v.costs s = r.vi.costs s ∧ v.policy s = r.vi.policy s := by
  have hexact' := reference_eq_exactValue hblank hr hconv hsteps hquiet
  have hsub := belowReach_lastSweep hr hconv
  intro s hs hlt
  have hsZ : s ∈ BelowReach vi r.vi := ⟨s, hs, hlt, Relation.ReflTransGen.refl⟩
  have hcost : v.costs s = r.vi.costs s := (hexact s (hsub hsZ)).trans (hexact' s hsZ).symm
  refine ⟨hcost, ?_⟩
  by_cases hev : vi.world.evaluable s = true
  · have hb' := reference_backup hr hconv hquiet hsZ hev
    have hb := hheld s (hsub hsZ) hev (by
      have : reachThresh < maxCost := by decide
      omega)
    have hreads : ∀ t, vi.world.Reads s t → v.costs t = r.vi.costs t := by
      intro t ht
      have htZ := belowReach_closed hsZ hev ht
      rw [hexact t (hsub htZ), hexact' t htZ]
    rw [World.backup_congr World.rawCost_local hreads, ← hb'] at hb
    exact congrArg Prod.snd hb
  · rw [Bool.not_eq_true] at hev
    rw [(hwithin.elsewhere s hs hev).2, ((reference_within hblank hr).elsewhere s hs hev).2]

/-- Where neither run wraps below the exact value on what leads below the threshold and the
reference stops quietly, a raw frontier solver agrees with it on the states below the
threshold, in value and in action. -/
theorem agrees_below_reach {k : RawFrontier} {obs' : SolveObserver} {maxIter maxIter' : Nat}
    {r r' : InPlaceRun} (hblank : vi.Blank) (hrun : k.run vi maxIter obs = some r)
    (hconv : r.outcome.converged = true) (href : vi.originalSolve maxIter' obs' = r')
    (hconv' : r'.outcome.converged = true)
    (hsteps : StepsAboveOn vi (BelowReach vi (beforeLastSweep vi r')) vi r.evals)
    (hsteps' : StepsAboveOn vi (BelowReach vi (beforeLastSweep vi r')) vi r'.evals)
    (hquiet : QuietStop vi r') :
    ∀ s, vi.dims.Contains s → r'.vi.costs s < reachThresh →
      r.vi.costs s = r'.vi.costs s ∧ r.vi.policy s = r'.vi.policy s := by
  have htr := RawFrontier.traced hrun
  have hw : Within vi r.vi := by
    rw [htr.final]
    exact Within.evalSeq _ (Within.start hblank) htr.legal
  have hexact : ∀ s ∈ BelowReach vi (beforeLastSweep vi r'), r.vi.costs s = vi.exactValue s := by
    intro s hs
    have hcon := belowReach_contains hs
    exact le_antisymm (RawFrontier.converged_le_exactValue hblank hrun hconv s hcon)
      (htr.exactValue_le hblank hsteps (Or.inl rfl) s hs hcon)
  exact agrees_of_exactValue hblank href hconv' hsteps' hquiet hw hexact fun s _ hev hlt =>
    ((RawFrontier.settled hrun hconv).2 s hev).eq_backup hlt

end

/-- The row after its reference run, a cell that leads nowhere left at `MAX_COST`. -/
theorem slipRow_reference : ∃ r, slipRow.originalSolve 10 nullObserver = r ∧
    r.outcome.converged = true ∧ r.evals.length = 90 ∧
    slipRow.dims.all.map r.vi.costs = slipRowValues := by
  have hrun : (fun r : InPlaceRun => (r.outcome.converged, r.evals.length,
      slipRow.dims.all.map r.vi.costs)) (slipRow.originalSolve 10 nullObserver) =
      (true, 90, slipRowValues) := by
    decide +kernel
  obtain ⟨r, hr⟩ : ∃ r, slipRow.originalSolve 10 nullObserver = r := ⟨_, rfl⟩
  rw [hr] at hrun
  simp only [Prod.mk.injEq] at hrun
  exact ⟨r, hr, hrun⟩

theorem slipRow_reference_stepsAbove {r : InPlaceRun}
    (hr : slipRow.originalSolve 10 nullObserver = r) : StepsAbove slipRow slipRow r.evals := by
  have hall : ∀ e ∈ trail slipRow (slipRow.originalSolve 10 nullObserver).evals,
      slipRow.world.evaluable e.2 = true → ∀ a ∈ slipRow.actions,
        slipRowValues.getD (slipRow.dims.flat e.2).toNat 0 ≤ e.1.actionCostRaw a e.2 := by
    decide +kernel
  rw [hr] at hall
  exact slipRow_stepsAbove hall

theorem slipRow_quietStop {r : InPlaceRun} (hr : slipRow.originalSolve 10 nullObserver = r) :
    QuietStop slipRow r := by
  have hheld : ∀ s ∈ slipRow.dims.all, slipRow.world.evaluable s = true →
      (beforeLastSweep slipRow (slipRow.originalSolve 10 nullObserver)).costs s =
        (slipRow.world.backup slipRow.world.rawCost
          (beforeLastSweep slipRow (slipRow.originalSolve 10 nullObserver)).costs s).1 := by
    decide +kernel
  rw [hr] at hheld
  intro s hs hev
  exact hheld s (Dims.mem_all.mpr (belowReach_contains hs)) hev

theorem slipRow_agrees : ∃ r r', RawFrontier.frontier2d.run slipRow 10 everyRound = some r ∧
    slipRow.originalSolve 10 nullObserver = r' ∧
    ∀ s, slipRow.dims.Contains s → r'.vi.costs s < reachThresh →
      r.vi.costs s = r'.vi.costs s ∧ r.vi.policy s = r'.vi.policy s := by
  obtain ⟨r, hr, hconv, _⟩ := slipRow_run
  obtain ⟨r', hr', hconv', _⟩ := slipRow_reference
  exact ⟨r, r', hr, hr', agrees_below_reach slipRow_blank hr hconv hr' hconv'
    ((slipRow_frontier_stepsAbove hr).on _) ((slipRow_reference_stepsAbove hr').on _)
    (slipRow_quietStop hr')⟩

/-- Three free cells before two goals, the first of them costly, and a third goal
above the first cell. The third action almost surely jumps to the far goal. -/
def costlyGoal : ValueIterator :=
  ⟨⟨⟨5, 2, 1⟩, [freeState, freeState, freeState, goalState (2000000 * probBase),
      goalState probBase, goalState (1000 * probBase), wallState, wallState, wallState, wallState],
      rfl⟩,
    [stepAction 1 0, stepAction 0 1, ⟨[[⟨1, 0, 0, 64⟩, ⟨4, 0, 0, probBase - 64⟩]]⟩], by decide⟩

theorem costlyGoal_blank : costlyGoal.Blank := by
  have hall : ∀ p ∈ costlyGoal.dims.all, costlyGoal.costs p =
      if (costlyGoal.stateAt p).finalState then 0 else maxCost := by decide +kernel
  intro p hp
  exact hall p (Dims.mem_all.mpr hp)

/-- The first cell: the reference stops while its neighbour still falls from above the
threshold, the frontier follows it down. -/
theorem costlyGoal_runs :
    ((RawFrontier.frontier2d.run costlyGoal 10 nullObserver).map fun r =>
      (r.outcome.converged, r.vi.costs ⟨0, 0, 0⟩)) = some (true, 128262208) ∧
    (fun r : InPlaceRun => (r.outcome.converged, r.vi.costs ⟨0, 0, 0⟩))
      (costlyGoal.originalSolve 10 nullObserver) = (true, 1000 * probBase) := by
  decide +kernel

/-- Two converged runs may disagree below the threshold. -/
theorem not_agrees_below_reach : ¬ ∀ (k : RawFrontier) (vi : ValueIterator), vi.Blank →
    (∀ p, vi.dims.Contains p → probBase ≤ (vi.stateAt p).penalty) →
    ∀ (maxIter maxIter' : Nat) (obs obs' : SolveObserver) (r r' : InPlaceRun),
      k.run vi maxIter obs = some r → r.outcome.converged = true →
      vi.originalSolve maxIter' obs' = r' → r'.outcome.converged = true →
      ∀ s, vi.dims.Contains s → r'.vi.costs s < reachThresh →
        r.vi.costs s = r'.vi.costs s ∧ r.vi.policy s = r'.vi.policy s := by
  intro h
  obtain ⟨hrun, href⟩ := costlyGoal_runs
  have hpen : ∀ p ∈ costlyGoal.dims.all, probBase ≤ (costlyGoal.stateAt p).penalty := by
    decide +kernel
  simp only [Prod.mk.injEq] at href
  cases hr : RawFrontier.frontier2d.run costlyGoal 10 nullObserver with
  | none => rw [hr] at hrun; cases hrun
  | some r =>
    rw [hr] at hrun
    simp only [Option.map_some, Option.some.injEq, Prod.mk.injEq] at hrun
    have hagree := h .frontier2d costlyGoal costlyGoal_blank
      (fun p hp => hpen p (Dims.mem_all.mpr hp)) 10 10 nullObserver nullObserver r _ hr hrun.1 rfl
      href.1 ⟨0, 0, 0⟩ (by decide) (by rw [href.2]; decide)
    rw [hrun.2, href.2] at hagree
    exact absurd hagree.1 (by decide)

end ValueIteration
