import ValueIteration.LabelSetting

/-!
# What the reference leaves behind

The reference reports convergence after a sweep that moved no state to below
`REACH_THRESH`; states that end at or above it may have moved. Its field is final where
such states are out of reach of everything that leads below the threshold.
-/

set_option autoImplicit false

namespace ValueIteration

open ValueIterator

/-- Further sweeps over the whole map. -/
def furtherSweeps (n : Nat) (v : ValueIterator) : ValueIterator :=
  valueIterationWorker^[n] v

/-- The field a converged run returns is final below the threshold. -/
structure Final (v : ValueIterator) : Prop where
  settled : ∀ s, v.world.evaluable s = true → v.costs s < reachThresh →
    v.costs s = (v.world.backup v.world.rawCost v.costs s).1
  unmoved : ∀ n s, v.dims.Contains s → v.costs s < reachThresh →
    (furtherSweeps n v).costs s = v.costs s
  nothingNew : ∀ n s, v.dims.Contains s → (furtherSweeps n v).costs s < reachThresh →
    v.costs s < reachThresh

/-- Whatever is led to from a state that can lead to one below the threshold. -/
def Involved (vi v : ValueIterator) : Set Pos :=
  {s | ∃ p u, vi.dims.Contains p ∧ Relation.ReflTransGen (Leads vi) p u ∧
    v.costs u < reachThresh ∧ Relation.ReflTransGen (Leads vi) p s}

/-- Along the evaluations no cost of a state of `S` wraps to below the threshold. -/
def StepsUnwrappedOn (vi : ValueIterator) (S : Set Pos) : ValueIterator → List Pos → Prop
  | _, [] => True
  | v, s :: rest =>
    (s ∈ S → vi.world.evaluable s = true → vi.world.Unwrapped v.costs s) ∧
      StepsUnwrappedOn vi S (rawEval v s).1 rest

/-- When the last sweep starts from `v`, no state leads both to one below the threshold and
to one that differs from an update the stop test overlooks; from there on no cost of the
states that are not involved wraps to below the threshold. -/
structure Parted (vi v : ValueIterator) : Prop where
  overlooked : ∀ s ∈ Involved vi v, vi.world.evaluable s = true →
    reachThresh ≤ (vi.world.backup vi.world.rawCost v.costs s).1 →
    v.costs s = (vi.world.backup vi.world.rawCost v.costs s).1
  steps : ∀ n, StepsUnwrappedOn vi {s | s ∉ Involved vi v} v
    (List.replicate n vi.dims.all).flatten

section
variable {vi v : ValueIterator}

theorem reaches_contains {p s : Pos} (hp : vi.dims.Contains p)
    (h : Relation.ReflTransGen (Leads vi) p s) : vi.dims.Contains s := by
  induction h with
  | refl => exact hp
  | tail _ hlead _ => exact reads_contains hlead.1 hlead.2

theorem involved_contains {s : Pos} (h : s ∈ Involved vi v) : vi.dims.Contains s := by
  obtain ⟨p, _, hp, _, _, hpath⟩ := h
  exact reaches_contains hp hpath

theorem involved_of_below {s : Pos} (hs : vi.dims.Contains s) (hlt : v.costs s < reachThresh) :
    s ∈ Involved vi v :=
  ⟨s, s, hs, .refl, hlt, .refl⟩

theorem involved_closed {s t : Pos} (h : s ∈ Involved vi v)
    (hev : vi.world.evaluable s = true) (ht : vi.world.Reads s t) : t ∈ Involved vi v := by
  obtain ⟨p, u, hp, hu, hlt, hpath⟩ := h
  exact ⟨p, u, hp, hu, hlt, hpath.tail ⟨hev, ht⟩⟩

/-- What is not involved reads nothing below the threshold. -/
theorem above_of_reads {s t : Pos} (h : s ∉ Involved vi v) (hev : vi.world.evaluable s = true)
    (ht : vi.world.Reads s t) : reachThresh ≤ v.costs t := by
  by_contra hlt
  exact h ⟨s, t, (evaluable_iff.mp hev).1, .single ⟨hev, ht⟩, not_le.mp hlt, .refl⟩

/-! ## The last sweep -/

/-- On a field that agrees with `v` on what is involved the update of an involved state is
its update on `v`. -/
theorem backup_of_involved {u : ValueIterator}
    (hkept : ∀ t ∈ Involved vi v, u.costs t = v.costs t) {s : Pos} (hs : s ∈ Involved vi v)
    (hev : vi.world.evaluable s = true) :
    vi.world.backup vi.world.rawCost u.costs s = vi.world.backup vi.world.rawCost v.costs s :=
  World.backup_congr World.rawCost_local fun _ ht => hkept _ (involved_closed hs hev ht)

/-- An involved state that the quiet sweep comes to holds its update: below the threshold the
stop test saw it, above it is not overlooked. -/
theorem Parted.holds (h : Parted vi v) (hv : vi.SameInputs v)
    (hquiet : changedBelowReach v (evalSeq v vi.dims.all) = false) {pre post : List Pos} {s : Pos}
    (hall : vi.dims.all = pre ++ s :: post)
    (hkept : ∀ t ∈ Involved vi v, (evalSeq v pre).costs t = v.costs t)
    (hs : s ∈ Involved vi v) (hev : vi.world.evaluable s = true) :
    v.costs s = (vi.world.backup vi.world.rawCost v.costs s).1 := by
  by_cases hhigh : reachThresh ≤ (vi.world.backup vi.world.rawCost v.costs s).1
  · exact h.overlooked s hs hev hhigh
  · have hcon := involved_contains hs
    have hpre := hv.trans (evalSeq_sameInputs pre v)
    have hlegal : ∀ t ∈ post, vi.dims.Contains t := by
      intro t ht
      apply Dims.mem_all.mp
      rw [hall]
      simp [ht]
    have hnot : s ∉ post := by
      have hnodup := @Dims.nodup_all vi.dims
      rw [hall] at hnodup
      exact (List.nodup_cons.mp (List.nodup_append.mp hnodup).2.1).1
    -- the sweep does not come back to `s`
    have hend : (evalSeq v vi.dims.all).costs s =
        (vi.world.backup vi.world.rawCost v.costs s).1 := by
      have hstep := hpre.trans (rawEval_sameInputs s)
      rw [hall, evalSeq_append]
      refine (evalSeq_of_not_mem post (fun t ht => hstep.dims ▸ hlegal t ht)
        (hstep.dims ▸ hcon) hnot).1.trans ?_
      rw [rawEval_costs (hpre.world ▸ hev) (hpre.dims ▸ hcon), if_pos rfl, hpre.world,
        backup_of_involved hkept hs hev]
    have hsame := not_changedBelowReach hquiet
      ((hv.trans (evalSeq_sameInputs _ v)).dims ▸ hcon) (by rw [hend]; exact not_le.mp hhigh)
    rw [← hsame, hend]

/-- Nothing involved moves in the quiet sweep. -/
theorem Parted.kept (h : Parted vi v) (hv : vi.SameInputs v)
    (hquiet : changedBelowReach v (evalSeq v vi.dims.all) = false) (pre : List Pos) :
    pre <+: vi.dims.all → ∀ s ∈ Involved vi v, (evalSeq v pre).costs s = v.costs s := by
  induction pre using List.reverseRecOn with
  | nil => intro _ s _; rfl
  | append_singleton pre q ih =>
    rintro ⟨post, hall⟩ s hs
    rw [List.append_assoc, List.singleton_append] at hall
    have hkept := ih ⟨_, hall⟩
    have hpre := hv.trans (evalSeq_sameInputs pre v)
    rw [evalSeq_append]
    by_cases hev : vi.world.evaluable q = true
    · refine (rawEval_costs (hpre.world ▸ hev) (hpre.dims ▸ involved_contains hs)).trans ?_
      split
      · next heq =>
        subst heq
        rw [hpre.world, backup_of_involved hkept hs hev]
        exact (h.holds hv hquiet hall.symm hkept hs hev).symm
      · exact hkept s hs
    · rw [Bool.not_eq_true, ← hpre.world] at hev
      have hq : vi.dims.Contains q := Dims.mem_all.mp (hall ▸ by simp)
      have hidle : (rawEval (evalSeq v pre) q).1 = evalSeq v pre := by
        rw [rawEval_of_not_evaluable (hpre.dims ▸ hq) hev]
      exact (congrArg (fun u : ValueIterator => u.costs s) hidle).trans (hkept s hs)

theorem Parted.settled (h : Parted vi v) (hv : vi.SameInputs v)
    (hquiet : changedBelowReach v (evalSeq v vi.dims.all) = false) {s : Pos}
    (hs : s ∈ Involved vi v) (hev : vi.world.evaluable s = true) :
    v.costs s = (vi.world.backup vi.world.rawCost v.costs s).1 := by
  obtain ⟨pre, post, hall⟩ := List.append_of_mem (Dims.mem_all.mpr (involved_contains hs))
  exact h.holds hv hquiet hall (h.kept hv hquiet pre ⟨_, hall.symm⟩) hs hev

/-! ## Further sweeps -/

/-- What is involved is as in `v`, everything else is not below the threshold. -/
structure Kept (vi v u : ValueIterator) : Prop where
  inputs : vi.SameInputs u
  same : ∀ s ∈ Involved vi v, u.costs s = v.costs s
  above : ∀ s, vi.dims.Contains s → s ∉ Involved vi v → reachThresh ≤ u.costs s

theorem Kept.refl (hv : vi.SameInputs v) : Kept vi v v := by
  refine ⟨hv, fun _ _ => rfl, ?_⟩
  intro s hs hnot
  by_contra hlt
  exact hnot (involved_of_below hs (not_le.mp hlt))

theorem Kept.above_of_reads {u : ValueIterator} (h : Kept vi v u) {s t : Pos}
    (hs : s ∉ Involved vi v) (hev : vi.world.evaluable s = true) (ht : vi.world.Reads s t) :
    reachThresh ≤ u.costs t := by
  by_cases hmem : t ∈ Involved vi v
  · rw [h.same t hmem]
    exact ValueIteration.above_of_reads hs hev ht
  · exact h.above t (reads_contains hev ht) hmem

/-- An update that does not wrap to below the threshold has nothing below it to read. -/
theorem Kept.backup_above {u : ValueIterator} (h : Kept vi v u) {s : Pos}
    (hs : s ∉ Involved vi v) (hev : vi.world.evaluable s = true)
    (hwrap : vi.world.Unwrapped u.costs s) :
    reachThresh ≤ (vi.world.backup vi.world.rawCost u.costs s).1 := by
  have hmax : reachThresh ≤ maxCost := by decide
  apply Argmin.le_argminBelow hmax
  intro d hd
  obtain ⟨c, hc, rfl⟩ := List.mem_map.mp hd
  rcases hwrap c hc with hraw | hhigh
  · rw [hraw]
    refine le_exactCost hmax (evaluable_iff.mp hev).1 hc ?_
    rintro row rfl ⟨t, p⟩ ho
    exact h.above_of_reads hs hev ⟨row, hc, p, ho⟩
  · exact hhigh

theorem Kept.eval {u : ValueIterator} (h : Kept vi v u) {q : Pos} (hq : vi.dims.Contains q)
    (hheld : q ∈ Involved vi v → vi.world.evaluable q = true →
      v.costs q = (vi.world.backup vi.world.rawCost v.costs q).1)
    (hwrap : q ∉ Involved vi v → vi.world.evaluable q = true → vi.world.Unwrapped u.costs q) :
    Kept vi v (rawEval u q).1 := by
  by_cases hev : vi.world.evaluable q = true
  · have hcosts : ∀ s, vi.dims.Contains s → (rawEval u q).1.costs s =
        if s = q then (vi.world.backup vi.world.rawCost u.costs q).1 else u.costs s := by
      intro s hs
      rw [rawEval_costs (h.inputs.world ▸ hev) (h.inputs.dims ▸ hs), h.inputs.world]
    refine ⟨h.inputs.trans (rawEval_sameInputs q), ?_, ?_⟩
    · intro s hs
      rw [hcosts s (involved_contains hs)]
      split
      · next heq =>
        subst heq
        rw [backup_of_involved h.same hs hev]
        exact (hheld hs hev).symm
      · exact h.same s hs
    · intro s hs hnot
      rw [hcosts s hs]
      split
      · next heq =>
        subst heq
        exact h.backup_above hnot hev (hwrap hnot hev)
      · exact h.above s hs hnot
  · rw [Bool.not_eq_true, ← h.inputs.world] at hev
    rw [rawEval_of_not_evaluable (h.inputs.dims ▸ hq) hev]
    exact h

/-- Run lemma: evaluations keep a field whose involved states hold their updates. -/
theorem Kept.evalSeq (hheld : ∀ s ∈ Involved vi v, vi.world.evaluable s = true →
      v.costs s = (vi.world.backup vi.world.rawCost v.costs s).1) (ps : List Pos) :
    ∀ {u : ValueIterator}, Kept vi v u → (∀ s ∈ ps, vi.dims.Contains s) →
      StepsUnwrappedOn vi {s | s ∉ Involved vi v} u ps →
      Kept vi v (ValueIteration.evalSeq u ps) := by
  induction ps with
  | nil => intro u h _ _; exact h
  | cons q ps ih =>
    intro u h hps hsteps
    exact ih (h.eval (hps q List.mem_cons_self) (hheld q) hsteps.1)
      (fun t ht => hps t (List.mem_cons_of_mem _ ht)) hsteps.2

theorem World.Unwrapped.congr {ι : Type} {w : World ι} {U V : ι → Nat} {s : ι}
    (h : w.Unwrapped V s) (hsame : ∀ t, w.Reads s t → U t = V t) : w.Unwrapped U s := by
  intro c hc
  have hrow : ∀ row, c = some row → ∀ o ∈ row, U o.1 = V o.1 := by
    rintro row rfl ⟨t, p⟩ ho
    exact hsame t ⟨row, hc, p, ho⟩
  rw [World.rawCost_local U V c hrow, World.exactCost_local U V c hrow]
  exact h c hc

theorem furtherSweeps_eq (n : Nat) : ∀ {v : ValueIterator}, vi.SameInputs v →
    furtherSweeps n v = evalSeq v (List.replicate n vi.dims.all).flatten := by
  induction n with
  | zero => intro v _; rfl
  | succ n ih =>
    intro v hv
    have hsweep : valueIterationWorker v = evalSeq v vi.dims.all := by
      rw [valueIterationWorker, sweepOrder, hv.dims]
    rw [furtherSweeps, Function.iterate_succ_apply, hsweep]
    rw [List.replicate_succ, List.flatten_cons, evalSeq_append]
    exact ih (hv.trans (evalSeq_sameInputs _ _))

theorem mem_sweeps {n : Nat} {s : Pos} (h : s ∈ (List.replicate n vi.dims.all).flatten) :
    vi.dims.Contains s := by
  obtain ⟨l, hl, hs⟩ := List.mem_flatten.mp h
  rw [List.eq_of_mem_replicate hl] at hs
  exact Dims.mem_all.mp hs

end

section
variable {vi : ValueIterator} {obs : SolveObserver}

theorem reference_final {maxIter : Nat} {r : InPlaceRun}
    (hr : vi.originalSolve maxIter obs = r) (hconv : r.outcome.converged = true)
    (hparted : Parted vi (beforeLastSweep vi r)) : Final r.vi := by
  obtain ⟨hpre, hfield, hquiet⟩ := originalSolve_lastSweep hr hconv
  generalize beforeLastSweep vi r = v at hparted hpre hquiet hfield
  rw [hfield] at hquiet
  have hkept : ∀ n, Kept vi v (furtherSweeps n r.vi) := by
    intro n
    have hnext : furtherSweeps n r.vi = furtherSweeps (n + 1) v := by
      have hone : r.vi = valueIterationWorker v := by
        rw [hfield, valueIterationWorker, sweepOrder, hpre.dims]
      rw [furtherSweeps, furtherSweeps, Function.iterate_succ_apply, hone]
    rw [hnext, furtherSweeps_eq _ hpre]
    exact (Kept.refl hpre).evalSeq (fun s hs hev => hparted.settled hpre hquiet hs hev) _
      (fun s hs => mem_sweeps hs) (hparted.steps _)
  have hend : Kept vi v r.vi := hkept 0
  have hinputs := hend.inputs
  -- below the threshold a state is involved, whatever the number of further sweeps
  have hinvolved : ∀ n {s}, vi.dims.Contains s → (furtherSweeps n r.vi).costs s < reachThresh →
      s ∈ Involved vi v := by
    intro n s hs hlt
    by_contra hnot
    exact absurd ((hkept n).above s hs hnot) (not_le.mpr hlt)
  have hsame : ∀ n {s}, s ∈ Involved vi v → (furtherSweeps n r.vi).costs s = r.vi.costs s :=
    fun n s hs => ((hkept n).same s hs).trans (hend.same s hs).symm
  refine ⟨?_, ?_, ?_⟩
  · intro s hev hlt
    rw [hinputs.world] at hev ⊢
    have hs := hinvolved 0 (evaluable_iff.mp hev).1 hlt
    rw [backup_of_involved hend.same hs hev]
    exact (hend.same s hs).trans (hparted.settled hpre hquiet hs hev)
  · intro n s hs hlt
    rw [hinputs.dims] at hs
    exact hsame n (hinvolved 0 hs hlt)
  · intro n s hs hlt
    rw [hinputs.dims] at hs
    rw [hsame n (hinvolved n hs hlt)] at hlt
    exact hlt

/-- A field whose states all hold their updates is parted if no cost wraps on it. -/
theorem parted_of_settled {v : ValueIterator} (hv : vi.SameInputs v)
    (h : ∀ s, vi.world.evaluable s = true →
      v.costs s = (vi.world.backup vi.world.rawCost v.costs s).1)
    (hwrap : ∀ s, vi.world.evaluable s = true → s ∉ Involved vi v →
      vi.world.Unwrapped v.costs s) : Parted vi v := by
  refine ⟨fun s _ hev _ => h s hev, ?_⟩
  intro n
  -- the evaluations leave the field as it is
  suffices hsteps : ∀ (ps : List Pos) (u : ValueIterator), vi.SameInputs u →
      (∀ s ∈ ps, vi.dims.Contains s) → (∀ t, vi.dims.Contains t → u.costs t = v.costs t) →
      StepsUnwrappedOn vi {s | s ∉ Involved vi v} u ps from
    hsteps _ v hv (fun s hs => mem_sweeps hs) fun _ _ => rfl
  intro ps
  induction ps with
  | nil => intro u _ _ _; trivial
  | cons q ps ih =>
    intro u hu hps hsame
    have hq := hps q List.mem_cons_self
    refine ⟨fun hnot hev => (hwrap q hev hnot).congr fun t ht => hsame t (reads_contains hev ht),
      ih _ (hu.trans (rawEval_sameInputs q)) (fun t ht => hps t (List.mem_cons_of_mem _ ht)) ?_⟩
    intro t ht
    by_cases hev : u.world.evaluable q = true
    · rw [rawEval_costs hev (hu.dims ▸ ht)]
      rw [hu.world] at hev ⊢
      split
      · next heq =>
        subst heq
        rw [h t hev, World.backup_congr World.rawCost_local fun w hw =>
          hsame w (reads_contains hev hw)]
      · exact hsame t ht
    · rw [Bool.not_eq_true] at hev
      rw [rawEval_of_not_evaluable (hu.dims ▸ hq) hev]
      exact hsame t ht

end

theorem slipRow_final : Final (slipRow.originalSolve 10 nullObserver).vi := by
  have hbefore : ∀ s ∈ slipRow.dims.all, slipRow.world.evaluable s = true →
      (beforeLastSweep slipRow (slipRow.originalSolve 10 nullObserver)).costs s =
        (slipRow.world.backup slipRow.world.rawCost
          (beforeLastSweep slipRow (slipRow.originalSolve 10 nullObserver)).costs s).1 ∧
      (reachThresh ≤ (beforeLastSweep slipRow (slipRow.originalSolve 10 nullObserver)).costs s →
        slipRow.world.Unwrapped
          (beforeLastSweep slipRow (slipRow.originalSolve 10 nullObserver)).costs s) := by
    unfold World.Unwrapped
    decide +kernel
  obtain ⟨r, hr, hconv, _⟩ := slipRow_reference
  rw [hr] at hbefore ⊢
  refine reference_final hr hconv (parted_of_settled (evalSeq_sameInputs _ _) ?_ ?_)
  · intro s hev
    exact (hbefore s (Dims.mem_all.mpr (evaluable_iff.mp hev).1) hev).1
  · intro s hev hnot
    have hs := (evaluable_iff.mp hev).1
    apply (hbefore s (Dims.mem_all.mpr hs) hev).2
    by_contra hlt
    exact hnot (involved_of_below hs (not_le.mp hlt))

/-- The reference stops while a state it has just read from still falls: the first cell of
`costlyGoal` is not equal to its update. -/
theorem not_reference_final : ¬ ∀ vi : ValueIterator, vi.Blank →
    ∀ (maxIter : Nat) (obs : SolveObserver),
      (vi.originalSolve maxIter obs).outcome.converged = true →
      Final (vi.originalSolve maxIter obs).vi := by
  intro h
  have hconv : (costlyGoal.originalSolve 10 nullObserver).outcome.converged = true := by
    decide +kernel
  have hfinal := h costlyGoal costlyGoal_blank 10 nullObserver hconv
  exact absurd (hfinal.settled ⟨0, 0, 0⟩ (by decide +kernel) (by decide +kernel))
    (by decide +kernel)

end ValueIteration
