import ValueIteration.EarlyStart
import ValueIteration.LabelCorrecting
import ValueIteration.Solvers.SettleOnce

/-!
# The label-setting priority solver

Where every outcome is certain, the cost of an action is the label of one other state
and a penalty, so a state may settle once, in the order of the labels. The labels below
the threshold are right as long as no evaluation wraps the cost of an unreached outcome
to below it; above the threshold any label may be wrong, and is popped last.
-/

set_option autoImplicit false

namespace ValueIteration

open ValueIterator

/-- No action of `s` costs less than the threshold only because its sum wrapped. -/
def World.Unwrapped {ι : Type} (w : World ι) (V : ι → Nat) (s : ι) : Prop :=
  ∀ c ∈ w.choices s, w.rawCost V c = w.exactCost V c ∨ reachThresh ≤ w.rawCost V c

/-- Along the evaluations no cost wraps to below the threshold. -/
def StepsUnwrapped (vi : ValueIterator) : ValueIterator → List Pos → Prop
  | _, [] => True
  | v, s :: rest => (vi.world.evaluable s = true → vi.world.Unwrapped v.costs s) ∧
      StepsUnwrapped vi (rawEval v s).1 rest

/-- The same of an evaluation of the priority solver. -/
def Relaxation.Unwrapped (vi : ValueIterator) (e : Relaxation) : Prop :=
  vi.world.Unwrapped e.vi.costs e.state

section Exact

variable {vi : ValueIterator}

theorem exactValue_of_evaluable (hblank : vi.Blank) {s : Pos} (hev : vi.world.evaluable s = true) :
    vi.exactValue s = (vi.world.backup vi.world.exactCost vi.exactValue s).1 := by
  have hfix := congrFun (GreatestFixed.greatest_isFixed
    (World.operator_exact_mono (w := vi.world) vi.costs) fun V _ => hblank.operator_le V) s
  rw [World.operator, if_pos hev] at hfix
  exact hfix.symm

theorem exactValue_of_not_evaluable (hblank : vi.Blank) {s : Pos}
    (hev : vi.world.evaluable s = false) : vi.exactValue s = vi.costs s := by
  have hfix := congrFun (GreatestFixed.greatest_isFixed
    (World.operator_exact_mono (w := vi.world) vi.costs) fun V _ => hblank.operator_le V) s
  rw [World.operator, hev, if_neg Bool.false_ne_true] at hfix
  exact hfix.symm

theorem choice_cases (hdet : vi.Deterministic) {s : Pos} (hs : vi.dims.Contains s)
    {c : Option (List (Pos × Nat))} (hc : c ∈ vi.world.choices s) :
    c = none ∨ ∃ t, c = some [(t, probBase)] := by
  obtain ⟨a, ha, rfl⟩ := List.mem_map.mp hc
  obtain ⟨tr, hrow, hprob⟩ := hdet a ha _ (List.mem_of_getElem? (row_mem ha hs))
  unfold legalRow
  split
  · refine Or.inr ⟨vi.outcomePos s tr, ?_⟩
    rw [hrow, List.map_singleton, hprob]
  · exact Or.inl rfl

theorem exactCost_certain (w : World Pos) (V : Pos → Nat) (t : Pos) :
    w.exactCost V (some [(t, probBase)]) = V t + w.pen t := by
  simp only [World.exactCost, World.weight, List.map_singleton, List.sum_singleton]
  exact Nat.mul_div_cancel _ probBase_pos

theorem probBase_le_pen (hpen : Penalised vi) {s t : Pos} (hs : vi.dims.Contains s)
    (h : vi.world.Reads s t) : probBase ≤ vi.world.pen t := by
  obtain ⟨a, ha, tr, htr, hin, hfree, rfl⟩ := reads_elim h
  exact hpen _ (outcomePos_contains hs ha htr hin) hfree

/-- An action with a certain outcome that costs what the state is worth. -/
theorem exists_successor (hblank : vi.Blank) (hdet : vi.Deterministic) {s : Pos}
    (hev : vi.world.evaluable s = true) (hnear : vi.exactValue s < reachThresh) :
    ∃ t, some [(t, probBase)] ∈ vi.world.choices s ∧
      vi.exactValue s = vi.exactValue t + vi.world.pen t := by
  have hmax : reachThresh < maxCost := by decide
  have heq := exactValue_of_evaluable hblank hev
  rcases Argmin.argminBelow_fst_mem maxCost
    ((vi.world.choices s).map (vi.world.exactCost vi.exactValue)) with hbound | hmem
  · rw [World.backup, hbound] at heq
    omega
  · obtain ⟨c, hc, hcost⟩ := List.mem_map.mp hmem
    rw [World.backup, ← hcost] at heq
    rcases choice_cases hdet (evaluable_iff.mp hev).1 hc with rfl | ⟨t, rfl⟩
    · rw [World.exactCost] at heq
      omega
    · exact ⟨t, hc, heq.trans (exactCost_certain _ _ _)⟩

theorem exactValue_le_successor (hblank : vi.Blank) {s t : Pos} (hev : vi.world.evaluable s = true)
    (ht : some [(t, probBase)] ∈ vi.world.choices s) :
    vi.exactValue s ≤ vi.exactValue t + vi.world.pen t := by
  rw [exactValue_of_evaluable hblank hev, ← exactCost_certain]
  exact Argmin.argminBelow_le_mem (List.mem_map_of_mem ht)

/-- A field that is nowhere below the exact value, or is above the threshold there. -/
def Above (vi : ValueIterator) (V : Pos → Nat) : Prop :=
  ∀ t, vi.dims.Contains t → min (vi.exactValue t) reachThresh ≤ V t

theorem Above.start (vi : ValueIterator) : Above vi vi.costs :=
  fun t _ => (min_le_left _ _).trans (exactValue_le_start t)

/-- One update that wraps nothing to below the threshold stays above. -/
theorem Above.backup (hblank : vi.Blank) (hdet : vi.Deterministic) {V : Pos → Nat} {s : Pos}
    (h : Above vi V) (hev : vi.world.evaluable s = true) (hwrap : vi.world.Unwrapped V s) :
    min (vi.exactValue s) reachThresh ≤ (vi.world.backup vi.world.rawCost V s).1 := by
  have hs := (evaluable_iff.mp hev).1
  have hmax : reachThresh < maxCost := by decide
  refine Argmin.le_argminBelow ((min_le_right _ _).trans hmax.le) ?_
  intro d hd
  obtain ⟨c, hc, rfl⟩ := List.mem_map.mp hd
  rcases hwrap c hc with hraw | hhigh
  · rw [hraw]
    rcases choice_cases hdet hs hc with rfl | ⟨t, rfl⟩
    · exact (min_le_right _ _).trans hmax.le
    · have ht := h t (reads_contains hev ⟨_, hc, probBase, List.mem_singleton_self _⟩)
      have hle := exactValue_le_successor hblank hev hc
      rw [exactCost_certain]
      omega
  · exact (min_le_right _ _).trans hhigh

/-- A field on which the cheapest successors of `s` hold their exact values. -/
def Sees (vi : ValueIterator) (V : Pos → Nat) (s : Pos) : Prop :=
  ∀ t, vi.world.Reads s t → vi.exactValue s = vi.exactValue t + vi.world.pen t →
    V t = vi.exactValue t

/-- On such a field the update of a state below the threshold is the exact one, in value
and in action. -/
theorem Sees.backup_eq (hblank : vi.Blank) (hdet : vi.Deterministic) (hpen : Penalised vi)
    {V : Pos → Nat} {s : Pos} (h : Sees vi V s) (habove : Above vi V)
    (hev : vi.world.evaluable s = true) (hwrap : vi.world.Unwrapped V s)
    (hnear : vi.exactValue s < reachThresh) :
    vi.world.backup vi.world.rawCost V s = vi.world.backup vi.world.exactCost vi.exactValue s := by
  have hs := (evaluable_iff.mp hev).1
  have hmax : reachThresh < maxCost := by decide
  have hagree : ∀ c ∈ vi.world.choices s,
      vi.world.exactCost vi.exactValue c = vi.world.rawCost V c ∨
        vi.exactValue s + 1 ≤ vi.world.exactCost vi.exactValue c ∧
          vi.exactValue s + 1 ≤ vi.world.rawCost V c := by
    intro c hc
    rcases choice_cases hdet hs hc with rfl | ⟨t, rfl⟩
    · exact Or.inl rfl
    · have ht : vi.world.Reads s t := ⟨_, hc, probBase, List.mem_singleton_self _⟩
      have hlow := habove t (reads_contains hev ht)
      have hle := exactValue_le_successor hblank hev hc
      have hpos := probBase_le_pen hpen hs ht
      have hunit := probBase_pos
      have hraw := World.rawCost_le_exactCost (w := vi.world) V (some [(t, probBase)])
      have hcase := hwrap _ hc
      rw [exactCost_certain] at hraw hcase ⊢
      by_cases hopt : vi.exactValue s = vi.exactValue t + vi.world.pen t
      · have hsee := h t ht hopt
        omega
      · omega
  have heq := exactValue_of_evaluable hblank hev
  rw [World.backup] at heq
  exact (Argmin.argminBelow_eq_of_agree_below hagree (by omega)).symm

/-- A state below the threshold holds its exact value and the action of the exact
update. -/
def Right (vi v : ValueIterator) (s : Pos) : Prop :=
  v.costs s = vi.exactValue s ∧ (vi.world.evaluable s = true →
    (v.costs s, v.policy s) = vi.world.backup vi.world.exactCost vi.exactValue s)

/-- Two fields that are right below the threshold agree there. -/
theorem Right.agree {v v' : ValueIterator} {s : Pos} (h : Right vi v s) (h' : Right vi v' s)
    (hw : Within vi v) (hw' : Within vi v') (hs : vi.dims.Contains s) :
    v.costs s = v'.costs s ∧ v.policy s = v'.policy s := by
  refine ⟨h.1.trans h'.1.symm, ?_⟩
  by_cases hev : vi.world.evaluable s = true
  · exact congrArg Prod.snd ((h.2 hev).trans (h'.2 hev).symm)
  · rw [Bool.not_eq_true] at hev
    rw [(hw.elsewhere s hs hev).2, (hw'.elsewhere s hs hev).2]

/-- A state that last met a field with its cheapest successors exact is right. -/
theorem Sees.right (hblank : vi.Blank) (hdet : vi.Deterministic) (hpen : Penalised vi)
    {v : ValueIterator} {V : Pos → Nat} {s : Pos} (h : Sees vi V s) (habove : Above vi V)
    (hev : vi.world.evaluable s = true) (hwrap : vi.world.Unwrapped V s)
    (hnear : vi.exactValue s < reachThresh)
    (heq : (v.costs s, v.policy s) = vi.world.backup vi.world.rawCost V s) : Right vi v s := by
  rw [h.backup_eq hblank hdet hpen habove hev hwrap hnear] at heq
  refine ⟨?_, fun _ => heq⟩
  rw [exactValue_of_evaluable hblank hev]
  exact congrArg Prod.fst heq

end Exact

section Reference

variable {vi : ValueIterator} {obs : SolveObserver}

theorem Above.eval (hblank : vi.Blank) (hdet : vi.Deterministic) {v : ValueIterator} {s : Pos}
    (h : Above vi v.costs) (hw : Within vi v) (hs : vi.dims.Contains s)
    (hwrap : vi.world.evaluable s = true → vi.world.Unwrapped v.costs s) :
    Above vi (rawEval v s).1.costs := by
  intro t ht
  by_cases hev : v.world.evaluable s = true
  · rw [rawEval_costs hev (hw.inputs.dims ▸ ht)]
    rw [hw.inputs.world] at hev ⊢
    split
    · next heq =>
      rw [heq]
      exact h.backup hblank hdet hev (hwrap hev)
    · exact h t ht
  · rw [Bool.not_eq_true] at hev
    rw [rawEval_of_not_evaluable (hw.inputs.dims ▸ hs) hev]
    exact h t ht

/-- Run lemma: every prefix of evaluations that wrap nothing stays above. -/
theorem Above.evalSeq (hblank : vi.Blank) (hdet : vi.Deterministic) (ps : List Pos) :
    ∀ {v : ValueIterator}, Above vi v.costs → Within vi v → (∀ s ∈ ps, vi.dims.Contains s) →
      StepsUnwrapped vi v ps → ∀ pre, pre <+: ps → Above vi (evalSeq v pre).costs := by
  induction ps with
  | nil =>
    intro v h _ _ _ pre hpre
    rw [List.prefix_nil.mp hpre]
    exact h
  | cons s ps ih =>
    intro v h hw hps hsteps pre hpre
    rcases List.prefix_cons_iff.mp hpre with rfl | ⟨pre', rfl, hpre'⟩
    · exact h
    · have hs := hps s List.mem_cons_self
      exact ih (h.eval hblank hdet hw hs hsteps.1) (hw.eval hs)
        (fun t ht => hps t (List.mem_cons_of_mem _ ht)) hsteps.2 pre' hpre'

theorem StepsUnwrapped.at {s : Pos} {post : List Pos} (pre : List Pos) :
    ∀ {v : ValueIterator}, StepsUnwrapped vi v (pre ++ s :: post) →
      vi.world.evaluable s = true → vi.world.Unwrapped (evalSeq v pre).costs s := by
  induction pre with
  | nil => intro v h hev; exact h.1 hev
  | cons p pre ih => intro v h hev; exact ih h.2 hev

/-- A converged reference run that wraps nothing to below the threshold is right on every
state whose exact value is below it. -/
theorem reference_right (hblank : vi.Blank) (hdet : vi.Deterministic) (hpen : Penalised vi)
    {maxIter : Nat} {r : InPlaceRun} (hr : vi.originalSolve maxIter obs = r)
    (hconv : r.outcome.converged = true) (hsteps : StepsUnwrapped vi vi r.evals) :
    Within vi r.vi ∧ Above vi r.vi.costs ∧
      ∀ s, vi.dims.Contains s → vi.exactValue s < reachThresh → Right vi r.vi s := by
  obtain ⟨htr, hsweep⟩ := @originalSolve_spec vi obs maxIter
  rw [hr] at htr hsweep
  obtain ⟨pre, hevals, hbelow⟩ := hsweep hconv
  let P := evalSeq vi pre
  have hfield : r.vi = evalSeq P vi.dims.all := by
    rw [htr.final, hevals, evalSeq_append]
  have hP : vi.SameInputs P := evalSeq_sameInputs pre vi
  have hwithin : Within vi r.vi := by
    rw [htr.final]
    exact (Within.start hblank).evalSeq _ htr.legal
  have habove := (Above.start vi).evalSeq hblank hdet _ (Within.start hblank) htr.legal hsteps
  have hend : Above vi r.vi.costs := by
    rw [htr.final]
    exact habove _ (List.prefix_refl _)
  -- the value before the last sweep, along the way to the goal
  have hright : ∀ n, ∀ s, vi.dims.Contains s → vi.exactValue s = n → n < reachThresh →
      Right vi r.vi s ∧ P.costs s = vi.exactValue s := by
    intro n
    induction n using Nat.strong_induction_on with
    | _ n ih =>
      intro s hs hn hlt
      have hmoved : r.vi.costs s = vi.exactValue s → P.costs s = vi.exactValue s := by
        intro heq
        rw [← heq]
        refine (not_changedBelowReach hbelow ?_ (by omega)).symm
        rw [hwithin.inputs.dims]
        exact hs
      suffices hgoal : Right vi r.vi s from ⟨hgoal, hmoved hgoal.1⟩
      by_cases hev : vi.world.evaluable s = true
      · obtain ⟨mid, post, hall, hbackup, hmid⟩ := exists_sweep_field hP Dims.nodup_all
          (fun t ht => Dims.mem_all.mp ht) (Dims.mem_all.mpr hs) hev
        rw [← hfield] at hbackup hmid
        have hprefix : pre ++ mid <+: r.evals := by
          rw [hevals, hall, ← List.append_assoc]
          exact List.prefix_append _ _
        have hsees : Sees vi (evalSeq P mid).costs s := by
          intro t ht hopt
          have hct := reads_contains hev ht
          have hpos := probBase_le_pen hpen hs ht
          have hunit := probBase_pos
          obtain ⟨hrt, hPt⟩ := ih (vi.exactValue t) (by omega) t hct rfl (by omega)
          rcases hmid t hct with h | h
          · exact h.trans hPt
          · exact h.trans hrt.1
        rw [← evalSeq_append] at hsees hbackup
        apply hsees.right hblank hdet hpen (habove _ hprefix) hev _ (by omega) hbackup
        apply StepsUnwrapped.at (pre ++ mid) _ hev
        · exact post
        · rw [List.append_assoc, ← hall, ← hevals]
          exact hsteps
      · rw [Bool.not_eq_true] at hev
        refine ⟨?_, fun h => absurd h (by rw [hev]; decide)⟩
        rw [exactValue_of_not_evaluable hblank hev]
        exact (hwithin.elsewhere s hs hev).1
  exact ⟨hwithin, hend, fun s hs hlt => (hright _ s hs rfl hlt).1⟩

end Reference

section Run

variable {vi : ValueIterator}

def PrioState.isSettled (st : PrioState) (p : Pos) : Bool := st.settled.getD (st.vi.index p) false

/-- `s` is the update of a field that held the labels of all settled states, except those
still to be heard of, or was never evaluated. -/
def Heard (vi : ValueIterator) (st : PrioState) (todo : Pos → Pos → Prop) (s : Pos) : Prop :=
  (∃ U : Pos → Nat, (st.vi.costs s, st.vi.policy s) = vi.world.backup vi.world.rawCost U s ∧
    vi.world.Unwrapped U s ∧ Above vi U ∧
    ∀ t, vi.world.Reads s t → st.isSettled t = true → todo s t ∨ U t = st.vi.costs t) ∨
  ∀ t, vi.world.Reads s t → st.isSettled t = true → todo s t

theorem Heard.mono {st st' : PrioState} {todo todo' : Pos → Pos → Prop} {s : Pos}
    (h : Heard vi st todo s) (hcost : st'.vi.costs s = st.vi.costs s)
    (hpolicy : st'.vi.policy s = st.vi.policy s)
    (hreads : ∀ t, vi.world.Reads s t → st'.isSettled t = true → todo' s t ∨
      st.isSettled t = true ∧ st'.vi.costs t = st.vi.costs t ∧ (todo s t → todo' s t)) :
    Heard vi st' todo' s := by
  rcases h with ⟨U, heq, hwrap, habove, hU⟩ | hread
  · refine Or.inl ⟨U, by rw [hcost, hpolicy, heq], hwrap, habove, ?_⟩
    intro t ht hset
    rcases hreads t ht hset with htodo | ⟨hold, hsame, hkeep⟩
    · exact Or.inl htodo
    · rw [hsame]
      exact (hU t ht hold).imp_left hkeep
  · refine Or.inr ?_
    intro t ht hset
    rcases hreads t ht hset with htodo | ⟨hold, _, hkeep⟩
    · exact htodo
    · exact hkeep (hread t ht hold)

/-- What a label-setting run keeps; `todo s t` says that the loop over the predecessors
of the settled `t` has yet to come to `s`. -/
structure SettleInv (vi : ValueIterator) (todo : Pos → Pos → Prop) (st : PrioState) : Prop where
  sized : st.Sized vi
  within : Within vi st.vi
  above : Above vi st.vi.costs
  heard : ∀ s, vi.world.evaluable s = true → st.isSettled s = false → Heard vi st todo s
  queued : ∀ s, vi.dims.Contains s → st.isSettled s = false → vi.exactValue s < reachThresh →
    st.vi.costs s = vi.exactValue s → st.vi.label s ∈ st.heap
  right : ∀ s, vi.dims.Contains s → st.isSettled s = true → vi.exactValue s < reachThresh →
    Right vi st.vi s

theorem isSettled_congr {st st' : PrioState} (hdims : st'.vi.dims = st.vi.dims)
    (hset : st'.settled = st.settled) (p : Pos) : st'.isSettled p = st.isSettled p := by
  rw [PrioState.isSettled, PrioState.isSettled, hset, index, index, hdims]

/-- An evaluation of a state that is not settled. -/
theorem SettleInv.relaxAt (hblank : vi.Blank) (hdet : vi.Deterministic)
    {todo todo' : Pos → Pos → Prop} {st : PrioState} {p : Pos} (h : SettleInv vi todo st)
    (hsized : (st.relaxAt p).Sized vi) (hev : vi.world.evaluable p = true)
    (hnew : st.isSettled p = false) (hwrap : vi.world.Unwrapped st.vi.costs p)
    (htodo : ∀ s t, s ≠ p → todo s t → todo' s t) : SettleInv vi todo' (st.relaxAt p) := by
  have hp := (evaluable_iff.mp hev).1
  have hdims := h.within.inputs.dims
  have hev' : st.vi.world.evaluable p = true := by
    rw [h.within.inputs.world]
    exact hev
  have hcosts {q : Pos} (hq : vi.dims.Contains q) : (st.relaxAt p).vi.costs q =
      if q = p then (vi.world.backup vi.world.rawCost st.vi.costs p).1 else st.vi.costs q := by
    rw [PrioState.relaxAt_vi, rawEval_costs hev' (hdims ▸ hq), h.within.inputs.world]
  have hpolicy {q : Pos} (hq : vi.dims.Contains q) : (st.relaxAt p).vi.policy q =
      if q = p then (vi.world.backup vi.world.rawCost st.vi.costs p).2 else st.vi.policy q := by
    rw [PrioState.relaxAt_vi, rawEval_policy hev' (hdims ▸ hq), h.within.inputs.world]
  have hset (q : Pos) : (st.relaxAt p).isSettled q = st.isSettled q := by
    refine isSettled_congr ?_ PrioState.relaxAt_settled q
    rw [hsized.inputs.dims, hdims]
  have hother {q : Pos} (hq : st.isSettled q = true) : q ≠ p := by
    intro heq
    rw [heq, hnew] at hq
    cases hq
  have hlabel {q : Pos} (hq : (st.relaxAt p).vi.costs q = st.vi.costs q) :
      (st.relaxAt p).vi.label q = st.vi.label q := by
    rw [label, label, hq, hsized.index_eq, h.sized.index_eq]
  refine ⟨hsized, ?_, ?_, ?_, ?_, ?_⟩
  · rw [PrioState.relaxAt_vi]
    exact h.within.eval hp
  · rw [PrioState.relaxAt_vi]
    exact h.above.eval hblank hdet h.within hp fun _ => hwrap
  · intro s hs hopen
    rw [hset] at hopen
    have hcs := (evaluable_iff.mp hs).1
    by_cases hsp : s = p
    · refine Or.inl ⟨st.vi.costs, ?_, ?_, h.above, ?_⟩
      · rw [hcosts hcs, hpolicy hcs, if_pos hsp, if_pos hsp, hsp]
      · rw [hsp]
        exact hwrap
      · intro t ht htset
        rw [hset] at htset
        rw [hcosts (reads_contains hs ht), if_neg (hother htset)]
        exact Or.inr rfl
    · apply (h.heard s hs hopen).mono
      · rw [hcosts hcs, if_neg hsp]
      · rw [hpolicy hcs, if_neg hsp]
      · intro t ht htset
        rw [hset] at htset
        refine Or.inr ⟨htset, ?_, htodo s t hsp⟩
        rw [hcosts (reads_contains hs ht), if_neg (hother htset)]
  · intro s hs hopen hnear hexact
    rw [hset] at hopen
    by_cases hsp : s = p
    · rw [hsp] at hs hopen hnear hexact ⊢
      rcases Nat.lt_or_ge ((st.relaxAt p).vi.costs p) (st.vi.costs p) with hlt | hge
      · exact PrioState.label_mem_relaxAt hlt
      · -- it was exact before, so its label is there
        have hlow := h.above p hs
        have hsame : (st.relaxAt p).vi.costs p = st.vi.costs p := by omega
        rw [hlabel hsame]
        exact PrioState.mem_relaxAt (h.queued p hs hopen hnear (hsame ▸ hexact))
    · have hsame : (st.relaxAt p).vi.costs s = st.vi.costs s := by rw [hcosts hs, if_neg hsp]
      rw [hlabel hsame]
      exact PrioState.mem_relaxAt (h.queued s hs hopen hnear (hsame ▸ hexact))
  · intro s hs hdone hnear
    rw [hset] at hdone
    have hold := h.right s hs hdone hnear
    rw [Right, hcosts hs, hpolicy hs, if_neg (hother hdone), if_neg (hother hdone)]
    exact hold

theorem SettleInv.todo {todo todo' : Pos → Pos → Prop} {st : PrioState} (h : SettleInv vi todo st)
    (htodo : ∀ s t, vi.world.evaluable s = true → st.isSettled s = false →
      todo s t → todo' s t) : SettleInv vi todo' st := by
  refine ⟨h.sized, h.within, h.above, ?_, h.queued, h.right⟩
  intro s hs hopen
  apply (h.heard s hs hopen).mono rfl rfl
  intro t _ hset
  exact Or.inr ⟨hset, rfl, htodo s t hs hopen⟩

/-- Step lemma of the loop over the predecessors. -/
theorem SettleInv.relax (hblank : vi.Blank) (hdet : vi.Deterministic) {sStar : Pos}
    {d : Int ×ₗ Int ×ₗ Int} {ds : List (Int ×ₗ Int ×ₗ Int)} {st : PrioState}
    (h : SettleInv vi (Todo sStar (d :: ds)) st)
    (hd : 0 ≤ (predPos sStar d).it ∧ (predPos sStar d).it < vi.dims.nt)
    (hwrap : ∀ e ∈ (st.relax true sStar d).relaxed, e.Unwrapped vi) :
    SettleInv vi (Todo sStar ds) (st.relax true sStar d) := by
  have hsized := h.sized.relax hd
  have hdrop : ∀ s t, s ≠ predPos sStar d → Todo sStar (d :: ds) s t → Todo sStar ds s t := by
    intro s t hne htodo
    obtain ⟨rfl, d', hd', rfl⟩ := htodo
    rcases List.mem_cons.mp hd' with rfl | hd'
    · exact absurd rfl hne
    · exact ⟨rfl, d', hd', rfl⟩
  rw [PrioState.relax_eq_ite (h.within.inputs.dims ▸ hd), h.within.inputs.world,
    Bool.true_and] at hwrap hsized ⊢
  by_cases hcase : (vi.world.evaluable (predPos sStar d) &&
      !st.settled.getD (st.vi.index (predPos sStar d)) false) = true
  · rw [if_pos hcase] at hwrap hsized ⊢
    rw [Bool.and_eq_true, Bool.not_eq_true'] at hcase
    apply h.relaxAt hblank hdet hsized hcase.1 hcase.2 _ hdrop
    have hlast : (⟨st.vi, st.heap, predPos sStar d⟩ : Relaxation) ∈
        (st.relaxAt (predPos sStar d)).relaxed := by
      rw [PrioState.relaxAt_relaxed]
      exact List.mem_append_right _ List.mem_cons_self
    exact hwrap _ hlast
  · rw [if_neg hcase]
    apply h.todo
    intro s t hs hopen htodo
    apply hdrop s t _ htodo
    intro heq
    rw [heq] at hs hopen
    apply hcase
    rw [hs, Bool.true_and, Bool.not_eq_true']
    exact hopen

/-- Run lemma of the loop over the predecessors. -/
theorem SettleInv.foldl (hblank : vi.Blank) (hdet : vi.Deterministic) {sStar : Pos}
    (ds : List (Int ×ₗ Int ×ₗ Int)) : ∀ {st : PrioState},
    (∀ d ∈ ds, 0 ≤ (predPos sStar d).it ∧ (predPos sStar d).it < vi.dims.nt) →
    SettleInv vi (Todo sStar ds) st →
    (∀ e ∈ (ds.foldl (PrioState.relax true sStar) st).relaxed, e.Unwrapped vi) →
    SettleInv vi (Todo sStar []) (ds.foldl (PrioState.relax true sStar) st) := by
  induction ds with
  | nil => intro st _ h _; exact h
  | cons d ds ih =>
    intro st hds h hwrap
    apply ih (fun d' hd' => hds d' (List.mem_cons_of_mem _ hd')) _ hwrap
    apply h.relax hblank hdet (hds d List.mem_cons_self)
    intro e he
    exact hwrap e (relaxed_foldl sStar ds _ he)

/-- A state below the threshold that is not settled has an exact label on the heap on
its way to the goal. -/
theorem SettleInv.exists_entry (hblank : vi.Blank) (hdet : vi.Deterministic) (hpen : Penalised vi)
    {st : PrioState} (h : SettleInv vi NoTodo st) (n : Nat) : ∀ s, vi.dims.Contains s →
      vi.exactValue s = n → n < reachThresh → st.isSettled s = false →
      ∃ x, st.vi.label x ∈ st.heap ∧ st.vi.costs x ≤ vi.exactValue s := by
  induction n using Nat.strong_induction_on with
  | _ n ih =>
    intro s hs hn hnear hopen
    by_cases hev : vi.world.evaluable s = true
    · obtain ⟨t, hmem, hopt⟩ := exists_successor hblank hdet hev (by omega)
      have ht : vi.world.Reads s t := ⟨_, hmem, probBase, List.mem_singleton_self _⟩
      have hct := reads_contains hev ht
      have hpos := probBase_le_pen hpen hs ht
      have hunit := probBase_pos
      cases hset : st.isSettled t with
      | false =>
        obtain ⟨x, hx, hle⟩ := ih (vi.exactValue t) (by omega) t hct rfl (by omega) hset
        exact ⟨x, hx, by omega⟩
      | true =>
        -- `s` has heard of the settled successor, so its label is exact
        rcases h.heard s hev hopen with ⟨U, heq, hwrap, habove, hU⟩ | hread
        · have hright := h.right t hct hset (by omega)
          have hUt : U t = vi.exactValue t := by
            rcases hU t ht hset with htodo | hUt
            · exact absurd htodo id
            · exact hUt.trans hright.1
          have hcost : st.vi.costs s ≤ vi.exactValue s := by
            have hval : st.vi.costs s = (vi.world.backup vi.world.rawCost U s).1 :=
              congrArg Prod.fst heq
            have hbest : (vi.world.backup vi.world.rawCost U s).1 ≤
                vi.world.rawCost U (some [(t, probBase)]) :=
              Argmin.argminBelow_le_mem (List.mem_map_of_mem hmem)
            have hraw := World.rawCost_le_exactCost (w := vi.world) U (some [(t, probBase)])
            rw [exactCost_certain] at hraw
            omega
          have hlow := h.above s hs
          exact ⟨s, h.queued s hs hopen (by omega) (by omega), hcost⟩
        · exact absurd (hread t ht hset) id
    · rw [Bool.not_eq_true] at hev
      have heq : st.vi.costs s = vi.exactValue s := by
        rw [exactValue_of_not_evaluable hblank hev]
        exact (h.within.elsewhere s hs hev).1
      exact ⟨s, h.queued s hs hopen (by omega) heq, heq.le⟩

/-- A state that settles below the threshold is right: nothing smaller is on the heap, so
all its cheapest successors are settled and it has heard of them. -/
theorem SettleInv.settle (hblank : vi.Blank) (hdet : vi.Deterministic) (hpen : Penalised vi)
    {st : PrioState} (h : SettleInv vi NoTodo st) {s : Pos} (hs : vi.dims.Contains s)
    (hleast : ∀ x, st.vi.label x ∈ st.heap → st.vi.costs s ≤ st.vi.costs x)
    (hopen : st.isSettled s = false) (hnear : vi.exactValue s < reachThresh) :
    Right vi st.vi s := by
  have hlow := h.above s hs
  by_cases hev : vi.world.evaluable s = true
  · have hdone : ∀ t, vi.world.Reads s t →
        vi.exactValue s = vi.exactValue t + vi.world.pen t → st.isSettled t = true := by
      intro t ht hopt
      have hpos := probBase_le_pen hpen hs ht
      have hunit := probBase_pos
      cases hset : st.isSettled t with
      | true => rfl
      | false =>
        obtain ⟨x, hx, hle⟩ := h.exists_entry hblank hdet hpen _ t (reads_contains hev ht) rfl
          (by omega) hset
        have := hleast x hx
        omega
    rcases h.heard s hev hopen with ⟨U, heq, hwrap, habove, hU⟩ | hread
    · have hsees : Sees vi U s := by
        intro t ht hopt
        have hset := hdone t ht hopt
        rcases hU t ht hset with htodo | hUt
        · exact absurd htodo id
        · exact hUt.trans (h.right t (reads_contains hev ht) hset (by omega)).1
      exact hsees.right hblank hdet hpen habove hev hwrap hnear heq
    · obtain ⟨t, hmem, hopt⟩ := exists_successor hblank hdet hev hnear
      have ht : vi.world.Reads s t := ⟨_, hmem, probBase, List.mem_singleton_self _⟩
      exact absurd (hread t ht (hdone t ht hopt)) id
  · rw [Bool.not_eq_true] at hev
    refine ⟨?_, fun h => absurd h (by rw [hev]; decide)⟩
    rw [exactValue_of_not_evaluable hblank hev]
    exact (h.within.elsewhere s hs hev).1

/-- Step lemma of the main loop: `top` was popped from the heap, `heap` is the rest. -/
theorem SettleInv.visit (hblank : vi.Blank) (hdet : vi.Deterministic) (hpen : Penalised vi)
    {st : PrioState} (h : SettleInv vi NoTodo st) {top : Nat ×ₗ Nat} {heap : LabelHeap}
    (hpop : st.heap.pop = some (top, heap)) {st' : PrioState} (hvi : st'.vi = st.vi)
    (hheap : st'.heap = heap) (hset : st'.settled = st.settled)
    (hwrap : ∀ e ∈ (st'.visit vi.buildRevTheta true (ofLex top).1 (ofLex top).2).relaxed,
      e.Unwrapped vi) :
    SettleInv vi NoTodo (st'.visit vi.buildRevTheta true (ofLex top).1 (ofLex top).2) := by
  obtain ⟨hsized, hlt, _⟩ := h.sized.of_pop hpop hvi hheap hset
  obtain ⟨hcon, hflat⟩ := Dims.unflat_spec hlt
  have hdims : st'.vi.dims = vi.dims := by rw [hvi, h.within.inputs.dims]
  have hsame (p : Pos) : st'.isSettled p = st.isSettled p :=
    isSettled_congr (by rw [hvi]) hset p
  have hindex : vi.index (vi.dims.unflat (ofLex top).2) = (ofLex top).2 := hflat
  -- the entry of an unsettled state is either the popped one or still there
  have hentry : ∀ t, vi.dims.Contains t → st.vi.label t ∈ st.heap → st'.vi.label t ∈ heap ∨
      t = vi.dims.unflat (ofLex top).2 ∧ (ofLex top).1 = st.vi.costs t := by
    intro t ht hmem
    rcases (MinHeap.mem_iff_of_pop hpop).mp hmem with heq | hrest
    · refine Or.inr ?_
      rw [← heq, label, ofLex_toLex, h.sized.index_eq, index, Dims.unflat_flat ht]
      exact ⟨rfl, rfl⟩
    · exact Or.inl (by rw [hvi]; exact hrest)
  rcases st'.visit_setting vi.buildRevTheta (ofLex top).1 (ofLex top).2 with
    ⟨hdrop, heq⟩ | ⟨hlab, hnew, heq⟩
  · rw [heq]
    rw [hdims, hvi] at hdrop
    refine ⟨hsized, hvi ▸ h.within, hvi ▸ h.above, ?_, ?_, ?_⟩
    · intro s hs hopen
      rw [hsame] at hopen
      apply (h.heard s hs hopen).mono (by rw [hvi]) (by rw [hvi])
      intro t _ hdone
      rw [hsame] at hdone
      exact Or.inr ⟨hdone, by rw [hvi], id⟩
    · intro s hs hopen hnear hexact
      rw [hsame] at hopen
      rw [hvi] at hexact
      rcases hentry s hs (h.queued s hs hopen hnear hexact) with hrest | ⟨rfl, hlab⟩
      · rw [hheap]
        exact hrest
      · rcases hdrop with hstale | hdone
        · exact absurd hlab hstale
        · rw [PrioState.isSettled, h.sized.index_eq, hindex, ← hset, hdone] at hopen
          cases hopen
    · intro s hs hdone hnear
      rw [hsame] at hdone
      rw [hvi]
      exact h.right s hs hdone hnear
  · rw [hdims] at hlab heq
    rw [heq] at hwrap ⊢
    let s₀ := vi.dims.unflat (ofLex top).2
    let st₁ : PrioState :=
      { st' with settled := st'.settled.set (ofLex top).2 true, iters := st'.iters + 1 }
    have hsized₁ : st₁.Sized vi :=
      ⟨hsized.inputs, by rw [List.length_set, hsized.size], hsized.entries⟩
    have hopen₀ : st.isSettled s₀ = false := by
      rw [PrioState.isSettled, h.sized.index_eq, hindex, ← hset]
      exact hnew
    have hset₁ : ∀ p, vi.dims.Contains p →
        (st₁.isSettled p = true ↔ p = s₀ ∨ st.isSettled p = true) := by
      intro p hp
      rw [PrioState.isSettled, hsized₁.index_eq, PrioState.isSettled, h.sized.index_eq, ← hset]
      by_cases hps : p = s₀
      · rw [hps, hindex]
        have hlen : (ofLex top).2 < st'.settled.length := by
          rw [hsized.size]
          exact hlt
        simp [st₁, List.getD_eq_getElem?_getD, hlen]
      · have hne : (ofLex top).2 ≠ vi.index p := by
          intro hidx
          apply hps
          rw [index] at hidx
          rw [← Dims.unflat_flat hp, ← hidx]
        simp [st₁, List.getD_eq_getElem?_getD, hne, hps]
    have hopen₁ : ∀ p, vi.dims.Contains p → st₁.isSettled p = false →
        p ≠ s₀ ∧ st.isSettled p = false := by
      intro p hp hopen
      have hno : ¬ (p = s₀ ∨ st.isSettled p = true) := by
        rw [← hset₁ p hp, hopen]
        exact Bool.false_ne_true
      rw [not_or, Bool.not_eq_true] at hno
      exact hno
    have hleast : ∀ x, st.vi.label x ∈ st.heap → st.vi.costs s₀ ≤ st.vi.costs x := by
      intro x hx
      have hle := MinHeap.le_of_pop hpop hx
      have hfst := Prod.Lex.monotone_fst _ _ hle
      rw [hvi] at hlab
      rw [← hlab]
      exact hfst
    have hstart : SettleInv vi (Todo s₀ (vi.buildRevTheta.getD s₀.it.toNat [])) st₁ := by
      refine ⟨hsized₁, hvi ▸ h.within, hvi ▸ h.above, ?_, ?_, ?_⟩
      · intro s hs hopen
        obtain ⟨_, hold⟩ := hopen₁ s (evaluable_iff.mp hs).1 hopen
        apply (h.heard s hs hold).mono (by rw [hvi]) (by rw [hvi])
        intro t ht hdone
        rcases (hset₁ t (reads_contains hs ht)).mp hdone with rfl | hdone
        · exact Or.inl ⟨rfl, exists_pred_of_reads hs ht⟩
        · exact Or.inr ⟨hdone, by rw [hvi], fun hno => absurd hno id⟩
      · intro s hs hopen hnear hexact
        obtain ⟨hne, hold⟩ := hopen₁ s hs hopen
        have hexact' : st.vi.costs s = vi.exactValue s := hvi ▸ hexact
        rcases hentry s hs (h.queued s hs hold hnear hexact') with hrest | ⟨hpopped, _⟩
        · exact hheap ▸ hrest
        · exact absurd hpopped hne
      · intro s hs hdone hnear
        have hvi₁ : st₁.vi = st.vi := hvi
        rw [hvi₁]
        rcases (hset₁ s hs).mp hdone with rfl | hdone
        · exact h.settle hblank hdet hpen hs hleast hopen₀ hnear
        · exact h.right s hs hdone hnear
    apply (hstart.foldl hblank hdet _ (fun d hd => heading_of_mem_rev hd _) hwrap).todo
    intro s t _ _ htodo
    obtain ⟨_, d, hd, _⟩ := htodo
    exact absurd hd List.not_mem_nil

theorem SettleInv.start (hblank : vi.Blank) (obs : SolveObserver) :
    SettleInv vi NoTodo (vi.prioStart true obs) := by
  have hopen (p : Pos) : (vi.prioStart true obs).isSettled p = false := by
    rw [PrioState.isSettled, prioStart, if_pos rfl]
    simp [List.getD_eq_getElem?_getD, List.getElem?_replicate]
    split <;> rfl
  refine ⟨PrioState.Sized.start vi obs, Within.start hblank, Above.start vi, ?_, ?_, ?_⟩
  · intro s _ _
    refine Or.inr ?_
    intro t _ hdone
    rw [hopen] at hdone
    cases hdone
  · intro s hs _ hnear hexact
    have hmax : reachThresh < maxCost := by decide
    have hcost : vi.costs s = vi.exactValue s := hexact
    exact mem_seedHeap_iff.mpr ⟨s, hs, by omega, rfl⟩
  · intro s _ hdone
    rw [hopen] at hdone
    cases hdone

/-- Run lemma: a converged label-setting run that wraps nothing to below the threshold is
right on every state whose exact value is below it. -/
theorem labelSetting_right (hblank : vi.Blank) (hdet : vi.Deterministic) (hpen : Penalised vi)
    {maxIter : Nat} {r : PrioRun} (hr : vi.prioritySolve maxIter true = r)
    (hconv : r.stats.converged = true) (hwrap : ∀ e ∈ r.relaxed, e.Unwrapped vi) :
    Within vi r.vi ∧
      ∀ s, vi.dims.Contains s → vi.exactValue s < reachThresh → Right vi r.vi s := by
  subst hr
  obtain ⟨st, h, hpop, hvi⟩ := prioLoop_induct
    (fun _ _ _ _ hst hpop hvi hheap hset hall =>
      SettleInv.visit hblank hdet hpen hst hpop hvi hheap hset hall) _
    (SettleInv.start hblank nullObserver) hconv hwrap
  rw [prioritySolve, prioritySolveInner, hvi]
  refine ⟨h.within, ?_⟩
  intro s hs hnear
  cases hset : st.isSettled s with
  | true => exact h.right s hs hset hnear
  | false =>
    obtain ⟨x, hx, _⟩ := h.exists_entry hblank hdet hpen _ s hs rfl hnear hset
    exact absurd hx (MinHeap.not_mem_of_pop_none hpop _)

end Run

/-- With certain outcomes, `priority_solve` settles each state at most once, and with
`max_iter` above the number of actions it converges. Where neither run wraps a cost to
below the threshold, it then agrees with the reference on the states below the threshold,
in value and in action. -/
theorem labelSetting_agrees {vi : ValueIterator} {obs : SolveObserver} {maxIter maxIter' : Nat}
    {r : PrioRun} {r' : InPlaceRun} (hblank : vi.Blank) (hdet : vi.Deterministic)
    (hpen : Penalised vi) (hrun : vi.prioritySolve maxIter true = r)
    (href : vi.originalSolve maxIter' obs = r') (hconv' : r'.outcome.converged = true)
    (hwrap : ∀ e ∈ r.relaxed, e.Unwrapped vi) (hwrap' : StepsUnwrapped vi vi r'.evals) :
    ((vi.prioritySettles maxIter).Nodup ∧
      (vi.prioritySettles maxIter).length = r.stats.iters) ∧
    (vi.actions.length < maxIter → vi.dims.count * (vi.actions.length + 1) < word →
      r.stats.converged = true) ∧
    (r.stats.converged = true → ∀ s, vi.dims.Contains s → r'.vi.costs s < reachThresh →
      r.vi.costs s = r'.vi.costs s ∧ r.vi.policy s = r'.vi.policy s) := by
  obtain ⟨hnodup, _, hcount⟩ := prioritySettles_spec vi maxIter
  rw [hrun] at hcount
  refine ⟨⟨hnodup, hcount⟩, ?_, ?_⟩
  · intro hmax hsize
    rw [← hrun]
    exact prioritySolve_converged hdet hmax hsize
  · intro hconv s hs hlt
    obtain ⟨hwithin, hright⟩ := labelSetting_right hblank hdet hpen hrun hconv hwrap
    obtain ⟨hwithin', habove, hright'⟩ := reference_right hblank hdet hpen href hconv' hwrap'
    have hnear : vi.exactValue s < reachThresh := by
      have := habove s hs
      omega
    exact (hright s hs hnear).agree (hright' s hs hnear) hwithin hwithin' hs

/-- A row between two goals whose third cell is reached over a rough cell before it is
reached for less from the other side. -/
def detourRow : ValueIterator :=
  ⟨⟨⟨6, 1, 1⟩, [goalState probBase, roughState, freeState, freeState, freeState,
      goalState (2 * probBase)], rfl⟩, [stepAction 1 0, stepAction (-1) 0], by decide⟩

theorem detourRow_blank : detourRow.Blank := by
  have hall : ∀ p ∈ detourRow.dims.all, detourRow.costs p =
      if (detourRow.stateAt p).finalState then 0 else maxCost := by decide +kernel
  intro p hp
  exact hall p (Dims.mem_all.mpr hp)

theorem deterministic_of_steps {vi : ValueIterator}
    (h : vi.actions = [stepAction 1 0, stepAction (-1) 0]) : vi.Deterministic := by
  intro a ha row hrow
  rw [h] at ha
  rcases List.mem_cons.mp ha with rfl | ha
  · exact ⟨_, List.mem_singleton.mp hrow, rfl⟩
  · rw [List.mem_singleton.mp ha] at hrow
    exact ⟨_, List.mem_singleton.mp hrow, rfl⟩

theorem stepsUnwrapped_of_trail {vi : ValueIterator} (ps : List Pos) : ∀ {v : ValueIterator},
    (∀ e ∈ trail v ps, vi.world.evaluable e.2 = true → vi.world.Unwrapped e.1.costs e.2) →
      StepsUnwrapped vi v ps := by
  induction ps with
  | nil => intro v _; trivial
  | cons s ps ih =>
    intro v h
    exact ⟨h (v, s) List.mem_cons_self, ih fun e he => h e (List.mem_cons_of_mem _ he)⟩

/-- The third cell is relaxed to ten penalties, then to four, before it settles. -/
theorem detourRow_labelSetting : ((detourRow.prioritySolve 10 true).relaxed.filterMap fun e =>
      if e.state = ⟨2, 0, 0⟩ then some ((rawEval e.vi e.state).1.costs e.state) else none) =
        [10 * probBase, 4 * probBase] ∧
    ∃ r, detourRow.originalSolve 10 nullObserver = r ∧
      (detourRow.prioritySolve 10 true).stats.converged = true ∧
        ∀ s, detourRow.dims.Contains s → r.vi.costs s < reachThresh →
          (detourRow.prioritySolve 10 true).vi.costs s = r.vi.costs s ∧
            (detourRow.prioritySolve 10 true).vi.policy s = r.vi.policy s := by
  refine ⟨by decide +kernel, ?_⟩
  have hpens : ∀ p ∈ detourRow.dims.all, probBase ≤ detourRow.world.pen p := by decide +kernel
  have hwrap : ∀ e ∈ (detourRow.prioritySolve 10 true).relaxed, e.Unwrapped detourRow := by
    unfold Relaxation.Unwrapped World.Unwrapped
    decide +kernel
  have hwrap' : ∀ e ∈ trail detourRow (detourRow.originalSolve 10 nullObserver).evals,
      detourRow.world.evaluable e.2 = true → detourRow.world.Unwrapped e.1.costs e.2 := by
    unfold World.Unwrapped
    decide +kernel
  have hconv' : (detourRow.originalSolve 10 nullObserver).outcome.converged = true := by
    decide +kernel
  obtain ⟨r, hr⟩ : ∃ r, detourRow.originalSolve 10 nullObserver = r := ⟨_, rfl⟩
  rw [hr] at hwrap' hconv'
  obtain ⟨_, hconv, hagree⟩ := labelSetting_agrees detourRow_blank (deterministic_of_steps rfl)
    (fun p hp _ => hpens p (Dims.mem_all.mpr hp)) rfl hr hconv' hwrap
    (stepsUnwrapped_of_trail _ hwrap')
  have hdone := hconv (by decide) (by decide)
  exact ⟨r, hr, hdone, hagree hdone⟩

/-- A row between two goals. Entering the third cell while it is unreached costs
`MAX_COST` and a penalty that together wrap to nothing. -/
def tollRow : ValueIterator :=
  ⟨⟨⟨4, 1, 1⟩, [goalState probBase, freeState, ⟨maxCost, 19330976710656, 0, true, false, none⟩,
      goalState probBase], rfl⟩, [stepAction 1 0, stepAction (-1) 0], by decide⟩

theorem tollRow_blank : tollRow.Blank := by
  have hall : ∀ p ∈ tollRow.dims.all, tollRow.costs p =
      if (tollRow.stateAt p).finalState then 0 else maxCost := by decide +kernel
  intro p hp
  exact hall p (Dims.mem_all.mpr hp)

/-- The second cell settles at the wrapped value before its neighbour is reached; the
reference evaluates it again. -/
theorem tollRow_runs :
    (fun r : PrioRun => (r.stats.converged, r.vi.costs ⟨1, 0, 0⟩))
        (tollRow.prioritySolve 10 true) = (true, 0) ∧
      (fun r : InPlaceRun => (r.outcome.converged, r.vi.costs ⟨1, 0, 0⟩))
        (tollRow.originalSolve 10 nullObserver) = (true, probBase) := by
  decide +kernel

/-- A converged label-setting run may disagree below the threshold. -/
theorem not_labelSetting_agrees : ¬ ∀ vi : ValueIterator, vi.Blank → vi.Deterministic →
    (∀ p, vi.dims.Contains p → probBase ≤ (vi.stateAt p).penalty) →
    ∀ (maxIter maxIter' : Nat) (obs : SolveObserver),
      (vi.prioritySolve maxIter true).stats.converged = true →
      (vi.originalSolve maxIter' obs).outcome.converged = true →
      ∀ s, vi.dims.Contains s → (vi.originalSolve maxIter' obs).vi.costs s < reachThresh →
        (vi.prioritySolve maxIter true).vi.costs s = (vi.originalSolve maxIter' obs).vi.costs s ∧
          (vi.prioritySolve maxIter true).vi.policy s =
            (vi.originalSolve maxIter' obs).vi.policy s := by
  intro h
  obtain ⟨hrun, href⟩ := tollRow_runs
  simp only [Prod.mk.injEq] at hrun href
  have hpen : ∀ p ∈ tollRow.dims.all, probBase ≤ (tollRow.stateAt p).penalty := by
    decide +kernel
  have hagree := h tollRow tollRow_blank (deterministic_of_steps rfl)
    (fun p hp => hpen p (Dims.mem_all.mpr hp)) 10 10 nullObserver hrun.1 href.1 ⟨1, 0, 0⟩
    (by decide) (by rw [href.2]; decide)
  rw [hrun.2, href.2] at hagree
  exact absurd hagree.1 (by decide)

end ValueIteration
