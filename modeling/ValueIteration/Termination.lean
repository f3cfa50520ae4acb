import ValueIteration.UpperBound

/-!
# When the in-place loops end

From a blank field values are meant to fall only. While an outcome is unreached the cost
wraps, and an update may come out above the value it replaces; the frontier empties exactly
when that happens finitely often.
-/

set_option autoImplicit false

namespace ValueIteration

open ValueIterator

/-- Evaluation number `i` is of a state whose value then lies below its update. -/
def RisesAt (vi v : ValueIterator) (ps : List Pos) (i : Nat) : Prop :=
  ∃ s, ps[i]? = some s ∧ vi.world.evaluable s = true ∧
    (evalSeq v (ps.take i)).costs s <
      (vi.world.backup vi.world.rawCost (evalSeq v (ps.take i)).costs s).1

/-- The sum of all values. -/
def potential (vi v : ValueIterator) : Nat := (vi.dims.all.map v.costs).sum

/-- The observer never asks to stop. -/
def SolveObserver.Proceeds (obs : SolveObserver) : Prop :=
  ∀ iters updates vi, obs.boundary iters updates vi = .proceed

section
variable {vi v : ValueIterator}

theorem evalSeq_cons (s : Pos) (ps : List Pos) :
    evalSeq v (s :: ps) = evalSeq (rawEval v s).1 ps := rfl

theorem risesAt_cons {s : Pos} {ps : List Pos} {i : Nat} :
    RisesAt vi v (s :: ps) (i + 1) ↔ RisesAt vi (rawEval v s).1 ps i := by
  simp only [RisesAt, List.getElem?_cons_succ, List.take_succ_cons, evalSeq_cons]

theorem risesAt_append {ps qs : List Pos} {i : Nat} :
    RisesAt vi v (ps ++ qs) (ps.length + i) ↔ RisesAt vi (evalSeq v ps) qs i := by
  induction ps generalizing v with
  | nil => simp only [List.nil_append, List.length_nil, Nat.zero_add]; rfl
  | cons s ps ih =>
    rw [List.cons_append, List.length_cons, Nat.succ_add, risesAt_cons, ih, evalSeq_cons]

/-! ## The sum falls -/

theorem potential_eval (hv : vi.SameInputs v) {s : Pos} (hs : vi.dims.Contains s)
    (hfall : vi.world.evaluable s = true →
      (vi.world.backup vi.world.rawCost v.costs s).1 ≤ v.costs s) :
    potential vi (rawEval v s).1 ≤ potential vi v ∧
      ((rawEval v s).2 = true → potential vi (rawEval v s).1 < potential vi v) := by
  by_cases hev : v.world.evaluable s = true
  · have hcosts : ∀ q, vi.dims.Contains q → (rawEval v s).1.costs q =
        if q = s then (vi.world.backup vi.world.rawCost v.costs s).1 else v.costs q := by
      intro q hq
      rw [rawEval_costs hev (hv.dims ▸ hq), hv.world]
    have hle := hfall (hv.world ▸ hev)
    have hall : ∀ q ∈ vi.dims.all, (rawEval v s).1.costs q ≤ v.costs q := by
      intro q hq
      rw [hcosts q (Dims.mem_all.mp hq)]
      split
      · next heq => rw [heq]; exact hle
      · exact le_refl _
    refine ⟨List.sum_le_sum hall, ?_⟩
    intro hmoved
    apply List.sum_lt_sum _ _ hall
    refine ⟨s, Dims.mem_all.mpr hs, ?_⟩
    rw [hcosts s hs, if_pos rfl]
    apply lt_of_le_of_ne hle
    intro heq
    have hfix : (v.world.backup v.world.rawCost v.costs s).1 = v.costs s := by
      rw [hv.world]
      exact heq
    simp only [rawEval, valueIterationRaw_of_evaluable hev, decide_eq_true_eq] at hmoved
    omega
  · rw [Bool.not_eq_true] at hev
    rw [rawEval_of_not_evaluable (hv.dims ▸ hs) hev]
    exact ⟨le_refl _, fun h => by cases h⟩

/-- Evaluations none of which starts below its update let the sum fall, and each that moves
a value makes it smaller. -/
theorem potential_evalAll (ps : List Pos) : ∀ {v : ValueIterator}, vi.SameInputs v →
    (∀ s ∈ ps, vi.dims.Contains s) → (∀ i, ¬ RisesAt vi v ps i) →
      potential vi (ActiveSet.evalAll rawEval ps v).1 ≤ potential vi v ∧
        (0 < (ActiveSet.evalAll rawEval ps v).2 →
          potential vi (ActiveSet.evalAll rawEval ps v).1 < potential vi v) := by
  induction ps with
  | nil => intro v _ _ _; exact ⟨le_refl _, fun h => absurd h (Nat.lt_irrefl 0)⟩
  | cons s ps ih =>
    intro v hv hps hfalls
    have hfirst : vi.world.evaluable s = true →
        (vi.world.backup vi.world.rawCost v.costs s).1 ≤ v.costs s := by
      intro hev
      by_contra hlt
      exact hfalls 0 ⟨s, rfl, hev, not_le.mp hlt⟩
    obtain ⟨hle, hlt⟩ := potential_eval hv (hps s List.mem_cons_self) hfirst
    obtain ⟨hle', hlt'⟩ := ih (hv.trans (rawEval_sameInputs s))
      (fun t ht => hps t (List.mem_cons_of_mem _ ht))
      fun i hi => hfalls (i + 1) (risesAt_cons.mpr hi)
    simp only [ActiveSet.evalAll]
    refine ⟨hle'.trans hle, ?_⟩
    intro hcount
    by_cases hmoved : (rawEval v s).2 = true
    · exact hle'.trans_lt (hlt hmoved)
    · rw [if_neg hmoved, Nat.zero_add] at hcount
      exact (hlt' hcount).trans_le hle

theorem potential_sweepGroups {κ : Type} (gs : List (κ × List Pos)) :
    ∀ {v : ValueIterator}, vi.SameInputs v → (∀ g ∈ gs, ∀ s ∈ g.2, vi.dims.Contains s) →
      (∀ i, ¬ RisesAt vi v (gs.flatMap (·.2)) i) →
      potential vi (ActiveSet.sweepGroups rawEval gs v).1 ≤ potential vi v ∧
        ((ActiveSet.sweepGroups rawEval gs v).2.2 ≠ [] →
          potential vi (ActiveSet.sweepGroups rawEval gs v).1 < potential vi v) := by
  induction gs with
  | nil => intro v _ _ _; exact ⟨le_refl _, fun h => absurd rfl h⟩
  | cons g gs ih =>
    intro v hv hgs hfalls
    have hg := hgs g List.mem_cons_self
    rw [List.flatMap_cons] at hfalls
    have hfalls₁ : ∀ i, ¬ RisesAt vi v g.2 i := by
      rintro i ⟨s, hi, hev, hlt⟩
      have hlen := (List.getElem?_eq_some_iff.mp hi).1
      refine hfalls i ⟨s, ?_, hev, ?_⟩
      · rw [List.getElem?_append_left hlen]
        exact hi
      · rw [List.take_append_of_le_length hlen.le]
        exact hlt
    obtain ⟨hle, hlt⟩ := potential_evalAll g.2 hv hg hfalls₁
    have hinputs : vi.SameInputs (ActiveSet.evalAll rawEval g.2 v).1 :=
      hv.trans (evalSeq_sameInputs g.2 v)
    obtain ⟨hle', hlt'⟩ := ih hinputs (fun h hh => hgs h (List.mem_cons_of_mem _ hh))
      fun i hi => hfalls _ (risesAt_append.mpr hi)
    simp only [ActiveSet.sweepGroups]
    refine ⟨hle'.trans hle, ?_⟩
    intro hkeys
    by_cases hmoved : 0 < (ActiveSet.evalAll rawEval g.2 v).2
    · exact hle'.trans_lt (hlt hmoved)
    · rw [if_neg hmoved] at hkeys
      exact (hlt' hkeys).trans_le hle

end

/-! ## The loop -/

theorem flatMap_ne_nil_of_keys {κ : Type} (gs : List (κ × List Pos)) : ∀ {v : ValueIterator},
    (ActiveSet.sweepGroups rawEval gs v).2.2 ≠ [] → gs.flatMap (·.2) ≠ [] := by
  induction gs with
  | nil => intro v h; exact absurd rfl h
  | cons g gs ih =>
    intro v h hnil
    rw [List.flatMap_cons, List.append_eq_nil_iff] at hnil
    simp only [ActiveSet.sweepGroups, hnil.1, ActiveSet.evalAll, Nat.lt_irrefl, if_false] at h
    exact ih h hnil.2

section
variable {F κ : Type} {sch : Schedule F κ} {vi : ValueIterator} {wf : F → Prop}
  {Marked : F → Pos → Prop} {obs : SolveObserver}

/-- A loop on its way from the field of `vi`. -/
structure UnderWay (vi : ValueIterator) (wf : F → Prop) (st : LoopState F) : Prop where
  inputs : vi.SameInputs st.vi
  wf : wf st.frontier
  field : st.vi = evalSeq vi st.evals

/-- A round that does not empty the frontier: the loop goes on from `st'`. -/
structure NextRound (sch : Schedule F κ) (vi : ValueIterator) (wf : F → Prop)
    (obs : SolveObserver) (st st' : LoopState F) (gs : List (κ × List Pos)) : Prop where
  underWay : UnderWay vi wf st'
  groups : sch.groups st.frontier = some gs
  legal : ∀ g ∈ gs, ∀ s ∈ g.2, vi.dims.Contains s
  evals : st'.evals = st.evals ++ gs.flatMap (·.2)
  field : st'.vi = (ActiveSet.sweepGroups rawEval gs st.vi).1
  keys : sch.isEmpty st'.frontier = false →
    (ActiveSet.sweepGroups rawEval gs st.vi).2.2 ≠ []
  loop : ∀ fuel, frontierLoop sch obs (fuel + 1) st = frontierLoop sch obs fuel st'

theorem exists_nextRound (law : sch.Lawful vi wf Marked)
    (hquiet : sch.isEmpty (sch.mark []) = true) (hobs : obs.Proceeds) {st : LoopState F}
    (h : UnderWay vi wf st) (hne : sch.isEmpty st.frontier = false)
    (hsome : (frontierLoop sch obs 1 st).isSome = true) :
    ∃ gs st', NextRound sch vi wf obs st st' gs := by
  cases hgs : sch.groups st.frontier with
  | none =>
    simp only [frontierLoop, hne, hgs] at hsome
    cases hsome
  | some gs =>
    have hfield : (st.round sch gs).vi = evalSeq vi (st.round sch gs).evals := by
      simp only [LoopState.round, sweepGroups_fst, evalSeq_append, ← h.field]
      rfl
    have hinputs : (rawSystem vi).ok (st.round sch gs).vi :=
      ActiveSet.System.ok_sweepGroups gs h.inputs (law.groups_legal _ _ h.wf hgs)
    have hround : UnderWay vi wf (st.round sch gs) :=
      ⟨hinputs, law.mark_wf _ _ _ h.wf hgs (sweepGroups_keys rawEval gs st.vi), hfield⟩
    have hkeys : sch.isEmpty (st.round sch gs).frontier = false →
        (ActiveSet.sweepGroups rawEval gs st.vi).2.2 ≠ [] := by
      intro hbusy hnil
      simp only [LoopState.round, hnil, hquiet] at hbusy
      cases hbusy
    have hlegal := law.groups_legal _ _ h.wf hgs
    by_cases hdue : (!sch.isEmpty (st.round sch gs).frontier &&
        (st.round sch gs).pacer.isDue (st.round sch gs).iters) = true
    · refine ⟨gs, (st.round sch gs).observed, ⟨hround.inputs, hround.wf, hround.field⟩, hgs, hlegal,
        rfl, rfl, hkeys, ?_⟩
      intro fuel
      conv_lhs => unfold frontierLoop
      simp only [hne, hgs, hdue, if_true, hobs _ _ _, Bool.false_eq_true, if_false]
    · refine ⟨gs, st.round sch gs, hround, hgs, hlegal, rfl, rfl, hkeys, ?_⟩
      intro fuel
      conv_lhs => unfold frontierLoop
      simp only [hne, hgs, hdue, Bool.false_eq_true, if_false]

theorem frontierLoop_of_isEmpty {st : LoopState F} (h : sch.isEmpty st.frontier = true)
    (fuel : Nat) : frontierLoop sch obs fuel st =
      some (st.finish (.running st.iters st.updates true)) := by
  cases fuel with
  | zero => rw [frontierLoop, h]
  | succ fuel => rw [frontierLoop, if_pos h]

/-- No evaluation from number `n` on, in however long a run, starts below its update. -/
def FallsFrom (sch : Schedule F κ) (vi : ValueIterator) (obs : SolveObserver) (n : Nat)
    (st : LoopState F) : Prop :=
  ∀ fuel r, frontierLoop sch obs fuel st = some r → ∀ i, n ≤ i → ¬ RisesAt vi vi r.evals i

theorem NextRound.fallsFrom {n : Nat} {st st' : LoopState F} {gs : List (κ × List Pos)}
    (h : NextRound sch vi wf obs st st' gs) (hfalls : FallsFrom sch vi obs n st) :
    FallsFrom sch vi obs n st' := by
  intro fuel r hr
  exact hfalls (fuel + 1) r ((h.loop fuel).trans hr)

theorem NextRound.potential_lt {n : Nat} {st st' : LoopState F} {gs : List (κ × List Pos)}
    (h : NextRound sch vi wf obs st st' gs) (hst : UnderWay vi wf st)
    (hn : n ≤ st.evals.length) (hfalls : FallsFrom sch vi obs n st)
    (hbusy : sch.isEmpty st'.frontier = false) : potential vi st'.vi < potential vi st.vi := by
  rw [h.field]
  refine (potential_sweepGroups gs hst.inputs h.legal ?_).2 (h.keys hbusy)
  intro i hrise
  rw [hst.field] at hrise
  have hrise' := risesAt_append.mpr hrise
  rw [← h.evals] at hrise'
  exact h.fallsFrom hfalls 0 _ rfl _ (by omega) hrise'

/-- A loop that does not panic ends at once, or after a round, or goes on. -/
theorem ends_or_next (law : sch.Lawful vi wf Marked)
    (hquiet : sch.isEmpty (sch.mark []) = true) (hobs : obs.Proceeds) {st : LoopState F}
    (h : UnderWay vi wf st) (hsome : ∀ fuel, (frontierLoop sch obs fuel st).isSome = true) :
    (∃ fuel r, frontierLoop sch obs fuel st = some r ∧ r.outcome.converged = true) ∨
      ∃ gs st', NextRound sch vi wf obs st st' gs ∧ sch.isEmpty st'.frontier = false ∧
        ∀ fuel, (frontierLoop sch obs fuel st').isSome = true := by
  cases hempty : sch.isEmpty st.frontier with
  | true => exact Or.inl ⟨0, _, frontierLoop_of_isEmpty hempty 0, rfl⟩
  | false =>
    obtain ⟨gs, st', hnext⟩ := exists_nextRound law hquiet hobs h hempty (hsome 1)
    cases hempty' : sch.isEmpty st'.frontier with
    | true => exact Or.inl ⟨1, _, (hnext.loop 0).trans (frontierLoop_of_isEmpty hempty' 0), rfl⟩
    | false => exact Or.inr ⟨gs, st', hnext, hempty', fun fuel => hnext.loop fuel ▸ hsome _⟩

/-- Once the values only fall the frontier empties: each round but the last makes the sum of
all values smaller. -/
theorem ends_of_falling (law : sch.Lawful vi wf Marked)
    (hquiet : sch.isEmpty (sch.mark []) = true) (hobs : obs.Proceeds) {n : Nat} (p : Nat) :
    ∀ {st : LoopState F}, UnderWay vi wf st → n ≤ st.evals.length → potential vi st.vi ≤ p →
      FallsFrom sch vi obs n st → (∀ fuel, (frontierLoop sch obs fuel st).isSome = true) →
      ∃ fuel r, frontierLoop sch obs fuel st = some r ∧ r.outcome.converged = true := by
  induction p with
  | zero =>
    intro st h hn hp hfalls hsome
    rcases ends_or_next law hquiet hobs h hsome with hends | ⟨gs, st', hnext, hbusy, _⟩
    · exact hends
    · have hlt := hnext.potential_lt h hn hfalls hbusy
      omega
  | succ p ih =>
    intro st h hn hp hfalls hsome
    rcases ends_or_next law hquiet hobs h hsome with hends | ⟨gs, st', hnext, hbusy, hsome'⟩
    · exact hends
    · have hlt := hnext.potential_lt h hn hfalls hbusy
      have hlen : n ≤ st'.evals.length := by
        rw [hnext.evals, List.length_append]
        omega
      obtain ⟨fuel, r, hr, hconv⟩ := ih hnext.underWay hlen (by omega)
        (hnext.fallsFrom hfalls) hsome'
      exact ⟨fuel + 1, r, (hnext.loop fuel).trans hr, hconv⟩

/-- Whatever the values did before: rounds go by until they only fall. -/
theorem ends_of_fallsFrom (law : sch.Lawful vi wf Marked)
    (hquiet : sch.isEmpty (sch.mark []) = true) (hobs : obs.Proceeds) {n : Nat} (k : Nat) :
    ∀ {st : LoopState F}, UnderWay vi wf st → n ≤ st.evals.length + k →
      FallsFrom sch vi obs n st → (∀ fuel, (frontierLoop sch obs fuel st).isSome = true) →
      ∃ fuel r, frontierLoop sch obs fuel st = some r ∧ r.outcome.converged = true := by
  induction k with
  | zero =>
    intro st h hn hfalls hsome
    exact ends_of_falling law hquiet hobs _ h hn (le_refl _) hfalls hsome
  | succ k ih =>
    intro st h hn hfalls hsome
    rcases ends_or_next law hquiet hobs h hsome with hends | ⟨gs, st', hnext, hbusy, hsome'⟩
    · exact hends
    · have hpos := List.length_pos_iff.mpr (flatMap_ne_nil_of_keys gs (hnext.keys hbusy))
      have hlen : n ≤ st'.evals.length + k := by
        rw [hnext.evals, List.length_append]
        omega
      obtain ⟨fuel, r, hr, hconv⟩ := ih hnext.underWay hlen (hnext.fallsFrom hfalls) hsome'
      exact ⟨fuel + 1, r, (hnext.loop fuel).trans hr, hconv⟩

/-- A converged run makes at least as many evaluations as any other. -/
theorem evals_le_of_converged (law : sch.Lawful vi wf Marked)
    (hquiet : sch.isEmpty (sch.mark []) = true) (hobs : obs.Proceeds) (fuel : Nat) :
    ∀ {st : LoopState F} {r : InPlaceRun}, UnderWay vi wf st →
      frontierLoop sch obs fuel st = some r → r.outcome.converged = true →
      st.evals.length ≤ r.evals.length ∧
        ∀ fuel' r', frontierLoop sch obs fuel' st = some r' →
          r'.evals.length ≤ r.evals.length := by
  induction fuel with
  | zero =>
    intro st r _ hr hconv
    cases hr
    have hempty : sch.isEmpty st.frontier = true := hconv
    refine ⟨le_refl _, ?_⟩
    intro fuel' r' hr'
    rw [frontierLoop_of_isEmpty hempty] at hr'
    cases hr'
    exact le_refl _
  | succ fuel ih =>
    intro st r h hr hconv
    cases hempty : sch.isEmpty st.frontier with
    | true =>
      rw [frontierLoop_of_isEmpty hempty] at hr
      cases hr
      refine ⟨le_refl _, ?_⟩
      intro fuel' r' hr'
      rw [frontierLoop_of_isEmpty hempty] at hr'
      cases hr'
      exact le_refl _
    | false =>
      have hone : (frontierLoop sch obs 1 st).isSome = true := by
        cases hgs : sch.groups st.frontier with
        | none =>
          simp only [frontierLoop, hempty, hgs] at hr
          cases hr
        | some gs =>
          simp only [frontierLoop, hempty, hgs, hobs _ _ _, Bool.false_eq_true, if_false]
          split <;> rfl
      obtain ⟨gs, st', hnext⟩ := exists_nextRound law hquiet hobs h hempty hone
      rw [hnext.loop] at hr
      obtain ⟨hle, hall⟩ := ih hnext.underWay hr hconv
      have hgrow : st.evals.length ≤ st'.evals.length := by
        rw [hnext.evals, List.length_append]
        exact Nat.le_add_right _ _
      refine ⟨hgrow.trans hle, ?_⟩
      intro fuel' r' hr'
      cases fuel' with
      | zero =>
        cases hr'
        exact hgrow.trans hle
      | succ fuel' =>
        rw [hnext.loop] at hr'
        exact hall fuel' r' hr'

end

/-! ## The four solvers -/

theorem isSome_of_total {F κ : Type} {sch : Schedule F κ} {obs : SolveObserver}
    (htotal : ∀ f, (sch.groups f).isSome = true) (fuel : Nat) :
    ∀ st : LoopState F, (frontierLoop sch obs fuel st).isSome = true := by
  induction fuel with
  | zero => intro st; rfl
  | succ fuel ih =>
    intro st
    unfold frontierLoop
    split
    · rfl
    · cases hgs : sch.groups st.frontier with
      | none =>
        have hsome := htotal st.frontier
        rw [hgs] at hsome
        cases hsome
      | some gs =>
        simp only
        split
        · split
          · exact ih _
          · rfl
          · rfl
        · exact ih _

theorem popcount_ofCells_nil (mapX mapY : Nat) :
    (Bitboard2D.ofCells mapX mapY []).popcount = 0 := by
  simp [Bitboard2D.ofCells, Bitboard2D.new, Bitboard2D.popcount]

theorem popcount3_ofCells_nil (mapX mapY nt : Nat) :
    (Bitboard3D.ofCells mapX mapY nt []).popcount = 0 := by
  have h : (Bitboard2D.new mapX mapY).popcount = 0 := popcount_ofCells_nil mapX mapY
  simp [Bitboard3D.ofCells, Bitboard3D.new, Bitboard3D.popcount, h]

theorem mapM_dilate_isSome {dx : Nat} (h : dx < 64) (dy : Nat) (bb : Bitboard3D) :
    (List.mapM (fun b : Bitboard2D => b.dilate dx dy) bb).isSome = true := by
  induction bb with
  | nil => rfl
  | cons b bb ih =>
    obtain ⟨out, hout⟩ := Bitboard2D.dilate_isSome h b dy
    obtain ⟨outs, houts⟩ := Option.isSome_iff_exists.mp ih
    rw [List.mapM_cons, hout, houts]
    rfl

theorem dilate_eq_none {dx : Nat} (h : ¬ dx < 64) (b : Bitboard2D) (dy : Nat) :
    b.dilate dx dy = none := by
  rw [Bitboard2D.dilate, if_neg h]

theorem mapM_dilate_eq_none {dx : Nat} (h : ¬ dx < 64) (dy : Nat) {bb : Bitboard3D}
    (hbb : 0 < bb.length) : List.mapM (fun b : Bitboard2D => b.dilate dx dy) bb = none := by
  cases bb with
  | nil => cases hbb
  | cons b bb =>
    rw [List.mapM_cons, dilate_eq_none h]
    rfl

namespace RawFrontier

/-- The dilation of the bit boards takes displacements up to 63 columns. -/
def Fits (k : RawFrontier) (vi : ValueIterator) : Prop :=
  k = .block ∨ vi.mx < 64 ∨ vi.reached = []

/-- How a solver's loop starts: with an empty frontier, or with groups for any, or with a
panic. -/
structure Starts {F κ : Type} (k : RawFrontier) (vi : ValueIterator) (sch : Schedule F κ)
    (f : F) : Prop where
  quiet : sch.isEmpty (sch.mark []) = true
  total : k.Fits vi → (∀ f, (sch.groups f).isSome = true) ∨ sch.isEmpty f = true
  panics : ¬ k.Fits vi → sch.isEmpty f = false ∧ sch.groups f = none

theorem seed_nil {vi : ValueIterator} (h : vi.reached = []) :
    vi.frontier2dSchedule.isEmpty vi.seedFrontier2d = true ∧
      vi.frontier3dSchedule.isEmpty vi.seedFrontier = true := by
  have h2 := popcount_ofCells_nil vi.dims.nx vi.dims.ny
  have h3 := popcount3_ofCells_nil vi.dims.nx vi.dims.ny vi.dims.nt
  simp [frontier2dSchedule, frontier3dSchedule, seedFrontier2d, seedFrontier, h, h2, h3]

/-- A reached state leaves the seeded frontier with something to expand. -/
theorem seed_busy {vi : ValueIterator} (h : ¬ vi.reached = []) :
    vi.frontier2dSchedule.isEmpty vi.seedFrontier2d = false ∧
      vi.frontier3dSchedule.isEmpty vi.seedFrontier = false ∧ 0 < vi.dims.nt := by
  obtain ⟨p, hp⟩ := List.exists_mem_of_ne_nil _ h
  obtain ⟨hcon, hlt⟩ := mem_reached.mp hp
  refine ⟨?_, ?_, ?_⟩
  · rw [← Bool.not_eq_true]
    intro hempty
    exact frontier2d_lawful.isEmpty_iff _ p hempty (seedFrontier2d_spec.2 p hcon hlt)
  · rw [← Bool.not_eq_true]
    intro hempty
    exact frontier3d_lawful.isEmpty_iff _ p hempty (seedFrontier_spec.2 p hcon hlt)
  · have := hcon.2.2
    omega

theorem starts_frontier2d (vi : ValueIterator) :
    Starts .frontier2d vi vi.frontier2dSchedule vi.seedFrontier2d := by
  refine ⟨?_, ?_, ?_⟩
  · simp [frontier2dSchedule, popcount_ofCells_nil]
  · rintro (h | h | h)
    · cases h
    · left
      intro f
      obtain ⟨out, hout⟩ := Bitboard2D.dilate_isSome h f vi.my
      simp [frontier2dSchedule, hout]
    · exact Or.inr (seed_nil h).1
  · intro h
    simp only [Fits, reduceCtorEq, false_or, not_or] at h
    refine ⟨(seed_busy h.2).1, ?_⟩
    simp [frontier2dSchedule, dilate_eq_none h.1]

theorem starts_frontier3d (vi : ValueIterator) :
    Starts .frontier3d vi vi.frontier3dSchedule vi.seedFrontier := by
  refine ⟨?_, ?_, ?_⟩
  · simp [frontier3dSchedule, popcount3_ofCells_nil]
  · rintro (h | h | h)
    · cases h
    · left
      intro f
      obtain ⟨out, hout⟩ := Option.isSome_iff_exists.mp (mapM_dilate_isSome h vi.my f)
      simp [frontier3dSchedule, Bitboard3D.dilate, hout]
    · exact Or.inr (seed_nil h).2
  · intro h
    simp only [Fits, reduceCtorEq, false_or, not_or] at h
    obtain ⟨_, hbusy, hnt⟩ := seed_busy h.2
    have hlen : 0 < vi.seedFrontier.length := by
      rw [seedFrontier_spec.1.length_eq]
      exact hnt
    refine ⟨hbusy, ?_⟩
    simp [frontier3dSchedule, Bitboard3D.dilate, mapM_dilate_eq_none h.1 vi.my hlen]

theorem starts_stack (vi : ValueIterator) :
    Starts .stack vi vi.frontierStackSchedule vi.seedFrontier := by
  have h3 := starts_frontier3d vi
  refine ⟨h3.quiet, ?_, ?_⟩
  · rintro (h | h | h)
    · cases h
    · left
      intro f
      obtain ⟨out, hout⟩ := Option.isSome_iff_exists.mp (mapM_dilate_isSome h vi.my f)
      simp [frontierStackSchedule, hout]
    · exact Or.inr (seed_nil h).2
  · intro h
    have hnot : ¬ RawFrontier.frontier3d.Fits vi := by
      intro hfits
      apply h
      rcases hfits with hfits | hfits
      · cases hfits
      · exact Or.inr hfits
    refine ⟨(h3.panics hnot).1, ?_⟩
    rw [frontierStack_groups seedFrontier_spec.1]
    exact (h3.panics hnot).2

theorem starts_block (vi : ValueIterator) :
    Starts .block vi (vi.blockSchedule 8 2)
      (vi.blockFlags 8 fun p => decide (vi.costs p < maxCost)) := by
  refine ⟨?_, fun _ => Or.inl fun f => rfl, fun h => absurd (Or.inl rfl) h⟩
  simp [blockSchedule]

/-- Every raw solver is the shared loop under a lawful schedule. -/
theorem exists_start (k : RawFrontier) (vi : ValueIterator) (obs : SolveObserver) :
    ∃ (F κ : Type) (sch : Schedule F κ) (wf : F → Prop) (Marked : F → Pos → Prop) (f : F),
      sch.Lawful vi wf Marked ∧ wf f ∧ k.Starts vi sch f ∧
        ∀ maxIter, k.run vi maxIter obs =
          frontierLoop sch obs maxIter (LoopState.start vi f obs) := by
  cases k with
  | frontier2d =>
    exact ⟨_, _, _, _, _, _, frontier2d_lawful, seedFrontier2d_spec.1, starts_frontier2d vi,
      fun _ => rfl⟩
  | frontier3d =>
    exact ⟨_, _, _, _, _, _, frontier3d_lawful, seedFrontier_spec.1, starts_frontier3d vi,
      fun _ => rfl⟩
  | stack =>
    exact ⟨_, _, _, _, _, _, frontierStack_lawful, seedFrontier_spec.1, starts_stack vi,
      fun _ => rfl⟩
  | block =>
    exact ⟨_, _, _, _, _, _, block_lawful (show 0 < 8 by decide) (show 0 < 2 by decide), trivial,
      starts_block vi, fun _ => rfl⟩

/-- From any start field a solver empties its frontier for some `max_iter` exactly when it
does not panic and only finitely many of its evaluations, over runs of whatever length, start
from a field in which the state lies below its update. -/
theorem terminates_iff {k : RawFrontier} {vi : ValueIterator} {obs : SolveObserver}
    (hobs : obs.Proceeds) :
    (∃ maxIter r, k.run vi maxIter obs = some r ∧ r.outcome.converged = true) ↔
      k.Fits vi ∧ ∃ n, ∀ maxIter r, k.run vi maxIter obs = some r →
        ∀ i, n ≤ i → ¬ RisesAt vi vi r.evals i := by
  obtain ⟨F, κ, sch, wf, Marked, f, law, hf, hstart, hrun⟩ := k.exists_start vi obs
  have hunder : UnderWay vi wf (LoopState.start vi f obs) := ⟨SameInputs.refl vi, hf, rfl⟩
  simp only [hrun]
  constructor
  · rintro ⟨maxIter, r, hr, hconv⟩
    refine ⟨?_, r.evals.length, ?_⟩
    · by_contra hfits
      obtain ⟨hbusy, hnone⟩ := hstart.panics hfits
      have hfrontier : (LoopState.start vi f obs).frontier = f := rfl
      cases maxIter with
      | zero =>
        cases hr
        exact absurd hconv (by rw [hfrontier, hbusy]; exact Bool.false_ne_true)
      | succ maxIter =>
        rw [frontierLoop, if_neg (by rw [hfrontier, hbusy]; exact Bool.false_ne_true),
          hfrontier, hnone] at hr
        cases hr
    · rintro maxIter' r' hr' i hi ⟨s, hs, _⟩
      have hle := (evals_le_of_converged law hstart.quiet hobs maxIter hunder hr hconv).2 _ r' hr'
      have hlt := (List.getElem?_eq_some_iff.mp hs).1
      omega
  · rintro ⟨hfits, n, hfalls⟩
    rcases hstart.total hfits with htotal | hempty
    · exact ends_of_fallsFrom law hstart.quiet hobs n hunder (Nat.le_add_left _ _) hfalls
        fun fuel => isSome_of_total htotal fuel _
    · exact ⟨0, _, frontierLoop_of_isEmpty hempty 0, rfl⟩

end RawFrontier

/-- The row's frontier empties, although its third cell is written twice. -/
theorem slipRow_terminates : RawFrontier.frontier2d.Fits slipRow ∧
    ∃ n, ∀ maxIter r, RawFrontier.frontier2d.run slipRow maxIter everyRound = some r →
      ∀ i, n ≤ i → ¬ RisesAt slipRow slipRow r.evals i := by
  obtain ⟨r, hr, hconv, _⟩ := slipRow_run
  exact (RawFrontier.terminates_iff fun _ _ _ => rfl).mp ⟨10, r, hr, hconv⟩

/-- A goal and a free cell; one action stays, the other leads off the map. -/
def besideSpin : ValueIterator :=
  ⟨besideGoal.states, [stepAction 0 0, stepAction 1 0], by decide⟩

theorem besideSpin_blank : besideSpin.Blank := by
  have hall : ∀ p ∈ besideSpin.dims.all, besideSpin.costs p =
      if (besideSpin.stateAt p).finalState then 0 else maxCost := by decide +kernel
  intro p hp
  exact hall p (Dims.mem_all.mpr hp)

/-- The update of the free cell adds its penalty, modulo `2 ^ 46`. -/
theorem besideSpin_backup (V : Pos → Nat) :
    (besideSpin.world.backup besideSpin.world.rawCost V ⟨1, 0, 0⟩).1 =
      (V ⟨1, 0, 0⟩ + probBase) % 2 ^ 46 := by
  have hchoices : besideSpin.world.choices ⟨1, 0, 0⟩ = [some [(⟨1, 0, 0⟩, probBase)], none] := by
    decide +kernel
  have hpen : besideSpin.world.pen ⟨1, 0, 0⟩ = probBase := by decide +kernel
  have hcost : besideSpin.world.rawCost V (some [(⟨1, 0, 0⟩, probBase)]) =
      (V ⟨1, 0, 0⟩ + probBase) % 2 ^ 46 := by
    have hweight : besideSpin.world.weight V [(⟨1, 0, 0⟩, probBase)] =
        (V ⟨1, 0, 0⟩ + probBase) * probBase := by
      rw [World.weight, List.map_singleton, List.sum_singleton, hpen]
    rw [World.rawCost, hweight]
    rw [show word = 2 ^ 46 * probBase by norm_num [word, probBase], Nat.mul_mod_mul_right]
    exact Nat.mul_div_cancel _ probBase_pos
  have hlt : (V ⟨1, 0, 0⟩ + probBase) % 2 ^ 46 < maxCost :=
    (Nat.mod_lt _ (by positivity)).trans (by norm_num [maxCost])
  rw [World.backup, hchoices, List.map_cons, List.map_singleton, hcost]
  apply le_antisymm
  · exact Argmin.argminBelow_le_mem List.mem_cons_self
  · refine Argmin.le_argminBelow hlt.le ?_
    intro c hc
    rcases List.mem_cons.mp hc with hc | hc
    · rw [hc]
    · rw [List.mem_singleton.mp hc, World.rawCost]
      exact hlt.le

/-- Once evaluated, the free cell is no longer at `MAX_COST`. -/
theorem besideSpin_lt (ps : List Pos) : ∀ {v : ValueIterator}, besideSpin.SameInputs v →
    (∀ s ∈ ps, besideSpin.dims.Contains s) →
    ⟨1, 0, 0⟩ ∈ ps ∨ v.costs ⟨1, 0, 0⟩ < maxCost → (evalSeq v ps).costs ⟨1, 0, 0⟩ < maxCost := by
  induction ps with
  | nil =>
    intro v _ _ h
    exact h.resolve_left List.not_mem_nil
  | cons s ps ih =>
    intro v hv hps h
    have hs := hps s List.mem_cons_self
    refine ih (hv.trans (rawEval_sameInputs s)) (fun t ht => hps t (List.mem_cons_of_mem _ ht)) ?_
    have hcon : v.dims.Contains ⟨1, 0, 0⟩ := by rw [hv.dims]; decide
    by_cases heq : (⟨1, 0, 0⟩ : Pos) = s
    · right
      subst heq
      have hev : v.world.evaluable ⟨1, 0, 0⟩ = true := by rw [hv.world]; decide +kernel
      rw [rawEval_costs hev hcon, if_pos rfl, hv.world, besideSpin_backup]
      exact (Nat.mod_lt _ (by decide)).trans (by decide)
    · rw [List.mem_cons] at h
      rcases h with (h | h) | h
      · exact absurd h heq
      · exact Or.inl h
      · right
        by_cases hev : v.world.evaluable s = true
        · rw [rawEval_costs hev hcon, if_neg heq]
          exact h
        · rw [Bool.not_eq_true] at hev
          rw [rawEval_of_not_evaluable (hv.dims ▸ hs) hev]
          exact h

/-- The free cell is in the first round, and from then on climbs by its penalty each time. -/
theorem besideSpin_runs {maxIter : Nat} {r : InPlaceRun}
    (hr : RawFrontier.frontier2d.run besideSpin maxIter nullObserver = some r) :
    r.outcome.converged = false := by
  rw [← Bool.not_eq_true]
  intro hconv
  have hbusy : besideSpin.frontier2dSchedule.isEmpty besideSpin.seedFrontier2d = false := by
    decide +kernel
  have hgroups : besideSpin.frontier2dSchedule.groups besideSpin.seedFrontier2d =
      some [((0, 0), [⟨0, 0, 0⟩]), ((1, 0), [⟨1, 0, 0⟩])] := by decide +kernel
  have hunder : UnderWay besideSpin (Planar besideSpin)
      (LoopState.start besideSpin besideSpin.seedFrontier2d nullObserver) :=
    ⟨SameInputs.refl _, seedFrontier2d_spec.1, rfl⟩
  have hquiet := (RawFrontier.starts_frontier2d besideSpin).quiet
  have hlaw := @frontier2d_lawful besideSpin
  have hobs : nullObserver.Proceeds := fun _ _ _ => rfl
  have hmem : (⟨1, 0, 0⟩ : Pos) ∈ r.evals := by
    cases maxIter with
    | zero =>
      cases hr
      change besideSpin.frontier2dSchedule.isEmpty besideSpin.seedFrontier2d = true at hconv
      rw [hbusy] at hconv
      cases hconv
    | succ maxIter =>
      have htotal : (frontierLoop besideSpin.frontier2dSchedule nullObserver 1
          (LoopState.start besideSpin besideSpin.seedFrontier2d nullObserver)).isSome = true := by
        decide +kernel
      obtain ⟨gs, st', hnext⟩ := exists_nextRound hlaw hquiet hobs hunder hbusy htotal
      have hrun : frontierLoop besideSpin.frontier2dSchedule nullObserver maxIter st' = some r :=
        (hnext.loop maxIter).symm.trans hr
      have hfirst : (⟨1, 0, 0⟩ : Pos) ∈ st'.evals := by
        have hgs := hnext.groups.symm.trans hgroups
        rw [Option.some.injEq] at hgs
        rw [hnext.evals, hgs]
        exact List.mem_append.mpr (Or.inr (by decide))
      obtain ⟨st, hst, hfin, _⟩ := frontierLoop_induct (fun st => (⟨1, 0, 0⟩ : Pos) ∈ st.evals)
        (fun st gs h _ => List.mem_append.mpr (Or.inl h)) (fun st h => h) maxIter hfirst hrun
      rw [hfin]
      exact hst
  have htraced := RawFrontier.traced hr
  have hset := (RawFrontier.settled hr hconv).2 ⟨1, 0, 0⟩ (by decide +kernel)
  have hlt : r.vi.costs ⟨1, 0, 0⟩ < maxCost := by
    rw [htraced.final]
    exact besideSpin_lt _ (SameInputs.refl _) htraced.legal (Or.inl hmem)
  have hfix := congrArg Prod.fst (hset.eq_backup hlt)
  simp only [besideSpin_backup] at hfix
  have hbase : probBase = 2 ^ 18 := rfl
  omega

/-- A free cell that can only stay where it is keeps the frontier alive for ever. -/
theorem not_terminates : ¬ ∀ (k : RawFrontier) (vi : ValueIterator), vi.Blank →
    ∃ maxIter r, k.run vi maxIter nullObserver = some r ∧ r.outcome.converged = true := by
  intro h
  obtain ⟨maxIter, r, hr, hconv⟩ := h .frontier2d besideSpin besideSpin_blank
  rw [besideSpin_runs hr] at hconv
  cases hconv

end ValueIteration
