import Mathlib.Algebra.BigOperators.Group.List.Basic
import Mathlib.Algebra.BigOperators.Ring.List
import ValueIteration.Clamped
import ValueIteration.Planner.Rollout
import ValueIteration.Solvers.Original

/-!
# Choosing an action for several hypotheses at once

`qmdp_decide` weighs the costs of every action over the hypotheses of a belief and takes
the cheapest, unless too much of the belief says that it collides. Weights are exact and
need not be normalised.
-/

set_option autoImplicit false

namespace ValueIteration

open ValueIterator

-- `QMDP_VETO_MASS` is a fifth
instance instAtLeastTwoFive : Nat.AtLeastTwo 5 := ⟨Nat.le_add_left 2 3⟩

inductive QmdpDecision where
  | goal
  | action (ai : Nat)
  | noAction
  deriving DecidableEq, Repr

/-- What the loop over the hypotheses has added up; `qb` and `veto` have an entry for every
action. -/
structure Tally (K : Type) where
  qb : List K
  veto : List K
  usable : K
  finalMass : K

namespace ValueIterator

variable (vi : ValueIterator)

/-- A discarded policy at the state or where a transition leads. -/
def unavailable (s : Pos) (a : Action) : Bool :=
  (vi.stateAt s).policyInvalidated || (a.row s.it).any fun tr =>
    decide (0 < tr.prob) && vi.inMapArea (s.ix + tr.dix) (s.iy + tr.diy) &&
      (vi.stateAt ⟨s.ix + tr.dix, s.iy + tr.diy, tr.dit % vi.dims.nt⟩).policyInvalidated

/-- The `q` of one hypothesis. -/
def qmdpCost (s : Pos) (a : Action) : Nat :=
  if vi.unavailable s a then maxCost else vi.actionCostRaw a s

section
variable {K : Type} [Field K] [LinearOrder K] [FloorRing K] [Analytic K] (g : PolicyFrame K)

/-- The body of the loop over the hypotheses. -/
def tallyHypothesis (t : Tally K) (h : PoseView K × K) : Tally K :=
  if !decide (0 < h.2) then t else
  let c := (vi.policyView g).poseToCellOn h.1.x h.1.y h.1.yawRad
  if !vi.inMapArea c.ix c.iy || decide (c.it < 0) || decide ((vi.dims.nt : Int) ≤ c.it) then t
  else if !(vi.stateAt c).free then t
  else if (vi.stateAt c).finalState then { t with finalMass := t.finalMass + h.2 }
  else
    { t with
      usable := t.usable + h.2
      qb := List.zipWith (fun a q => q + h.2 * (vi.qmdpCost c a : K)) vi.actions t.qb
      veto := List.zipWith (fun a v => if vi.qmdpCost c a = maxCost then v + h.2 else v)
        vi.actions t.veto }

def tally (hyps : List (PoseView K × K)) : Tally K :=
  hyps.foldl (vi.tallyHypothesis g)
    ⟨List.replicate vi.actions.length 0, List.replicate vi.actions.length 0, 0, 0⟩

end

end ValueIterator

/-- The decision on a tally; `none` is the panic without actions. -/
def Tally.decide {K : Type} [Field K] [LinearOrder K] (t : Tally K) (nAct : Nat) :
    Option QmdpDecision :=
  let total := t.usable + t.finalMass
  if total ≤ 0 then some .noAction
  else if 1 / 2 * total ≤ t.finalMass then some .goal
  else if t.usable ≤ 0 then some .noAction
  else
    (Argmin.firstLeast (fun a => t.qb.getD a 0) (List.range nAct)).map fun best =>
      if 1 / 5 * t.usable < t.veto.getD best 0 then .noAction else .action best

def ValueIterator.qmdpDecide {K : Type} [Field K] [LinearOrder K] [FloorRing K] [Analytic K]
    (vi : ValueIterator) (g : PolicyFrame K) (hyps : List (PoseView K × K)) :
    Option QmdpDecision :=
  (vi.tally g hyps).decide vi.actions.length

/-! ### What the tally adds up -/

section Sums

variable {K : Type} [Field K] [LinearOrder K] [FloorRing K] [Analytic K] (vi : ValueIterator)
  (g : PolicyFrame K)

/-- The cell of a hypothesis that counts: its weight is positive and its cell free. -/
def counted (h : PoseView K × K) : Option (Pos × K) :=
  let c := (vi.policyView g).poseToCellOn h.1.x h.1.y h.1.yawRad
  if 0 < h.2 ∧ vi.dims.Contains c ∧ (vi.stateAt c).free = true then some (c, h.2) else none

/-- The counted hypotheses that are not in the goal. -/
def underway (hyps : List (PoseView K × K)) : List (Pos × K) :=
  (hyps.filterMap (counted vi g)).filter fun e => !(vi.stateAt e.1).finalState

def arrived (hyps : List (PoseView K × K)) : List (Pos × K) :=
  (hyps.filterMap (counted vi g)).filter fun e => (vi.stateAt e.1).finalState

def mass (es : List (Pos × K)) : K := (es.map (·.2)).sum

/-- `Q(b, a)`, up to the scale of the weights. -/
def expectedCost (es : List (Pos × K)) (a : Action) : K :=
  (es.map fun e => e.2 * (vi.qmdpCost e.1 a : K)).sum

/-- The part of the mass that says that `a` collides. -/
def collisionMass (es : List (Pos × K)) (a : Action) : K :=
  (es.map fun e => if vi.qmdpCost e.1 a = maxCost then e.2 else 0).sum

omit [LinearOrder K] [FloorRing K] [Analytic K] in
theorem mass_concat (es : List (Pos × K)) (e : Pos × K) : mass (es ++ [e]) = mass es + e.2 := by
  simp [mass]

omit [LinearOrder K] [FloorRing K] [Analytic K] in
theorem expectedCost_concat (es : List (Pos × K)) (e : Pos × K) :
    expectedCost vi (es ++ [e]) =
      fun a => expectedCost vi es a + e.2 * (vi.qmdpCost e.1 a : K) := by
  funext a
  simp [expectedCost]

omit [LinearOrder K] [FloorRing K] [Analytic K] in
theorem collisionMass_concat (es : List (Pos × K)) (e : Pos × K) :
    collisionMass vi (es ++ [e]) = fun a =>
      if vi.qmdpCost e.1 a = maxCost then collisionMass vi es a + e.2
      else collisionMass vi es a := by
  funext a
  simp only [collisionMass, List.map_append, List.map_singleton, List.sum_append,
    List.sum_singleton]
  split
  · rfl
  · rw [add_zero]

theorem zipWith_map_self {α β γ : Type} (f : α → β → γ) (k : α → β) (l : List α) :
    List.zipWith f l (l.map k) = l.map fun a => f a (k a) := by
  rw [List.zipWith_map_right, List.zipWith_self]

/-- A hypothesis that is not counted changes nothing. -/
theorem tallyHypothesis_eq (t : Tally K) (h : PoseView K × K) : vi.tallyHypothesis g t h =
    match counted vi g h with
    | none => t
    | some e =>
      if (vi.stateAt e.1).finalState then { t with finalMass := t.finalMass + e.2 }
      else
        { t with
          usable := t.usable + e.2
          qb := List.zipWith (fun a q => q + e.2 * (vi.qmdpCost e.1 a : K)) vi.actions t.qb
          veto := List.zipWith (fun a v => if vi.qmdpCost e.1 a = maxCost then v + e.2 else v)
            vi.actions t.veto } := by
  rw [tallyHypothesis, counted]
  by_cases hw : 0 < h.2
  · by_cases hin : vi.dims.Contains ((vi.policyView g).poseToCellOn h.1.x h.1.y h.1.yawRad)
    · have hoff := (not_congr offView_iff).mpr (not_not.mpr hin)
      by_cases hfree :
          (vi.stateAt ((vi.policyView g).poseToCellOn h.1.x h.1.y h.1.yawRad)).free = true
      · simp only [hw, hin, hfree, hoff, decide_true, Bool.not_true, Bool.false_eq_true, and_self,
          if_true, if_false]
      · simp [hw, hin, hfree]
    · simp [offView_iff.mpr hin, hin]
  · simp [hw]

/-- The sums over the counted hypotheses. -/
theorem tally_eq (hyps : List (PoseView K × K)) : vi.tally g hyps =
    ⟨vi.actions.map (expectedCost vi (underway vi g hyps)),
      vi.actions.map (collisionMass vi (underway vi g hyps)),
      mass (underway vi g hyps), mass (arrived vi g hyps)⟩ := by
  induction hyps using List.reverseRecOn with
  | nil =>
    have hzero : List.replicate vi.actions.length (0 : K) = vi.actions.map fun _ => 0 := by
      simp
    simp only [tally, List.foldl_nil, hzero]
    rfl
  | append_singleton hyps h ih =>
    rw [tally] at ih
    rw [tally, List.foldl_append, ih, List.foldl_cons, List.foldl_nil, tallyHypothesis_eq]
    cases hc : counted vi g h with
    | none => simp [underway, arrived, hc]
    | some e =>
      by_cases hf : (vi.stateAt e.1).finalState = true
      · have hu : underway vi g (hyps ++ [h]) = underway vi g hyps := by simp [underway, hc, hf]
        have ha : arrived vi g (hyps ++ [h]) = arrived vi g hyps ++ [e] := by
          simp [arrived, hc, hf]
        simp only [hf, if_true, hu, ha, mass_concat]
      · have hu : underway vi g (hyps ++ [h]) = underway vi g hyps ++ [e] := by
          simp [underway, hc, hf]
        have ha : arrived vi g (hyps ++ [h]) = arrived vi g hyps := by simp [arrived, hc, hf]
        simp only [hf, Bool.false_eq_true, if_false, hu, ha, mass_concat, zipWith_map_self,
          expectedCost_concat, collisionMass_concat]

end Sums

/-! ### What a decision depends on and what it promises -/

section Decision

variable {K : Type} [Field K] [LinearOrder K] [FloorRing K] [Analytic K] {vi : ValueIterator}
  {g : PolicyFrame K}

/-- The decision in terms of the sums. -/
theorem qmdpDecide_eq (hyps : List (PoseView K × K)) : vi.qmdpDecide g hyps =
    Tally.decide ⟨vi.actions.map (expectedCost vi (underway vi g hyps)),
      vi.actions.map (collisionMass vi (underway vi g hyps)),
      mass (underway vi g hyps), mass (arrived vi g hyps)⟩ vi.actions.length := by
  rw [ValueIterator.qmdpDecide, tally_eq]

omit [LinearOrder K] [FloorRing K] [Analytic K] in
/-- An index below the number of actions reads the entry of its action. -/
theorem getD_of_getElem? {f : Action → K} {b : Nat} {act : Action}
    (h : vi.actions[b]? = some act) : (vi.actions.map f).getD b 0 = f act := by
  simp [List.getD, h]

variable (vi) in
omit [FloorRing K] [Analytic K] in
/-- The first of the cheapest actions. -/
theorem cheapest_spec (f : Action → K) :
    match Argmin.firstLeast (fun a => (vi.actions.map f).getD a 0)
      (List.range vi.actions.length) with
    | none => vi.actions = []
    | some b => ∃ act, vi.actions[b]? = some act ∧ ∀ a ∈ vi.actions, f act ≤ f a := by
  rcases Argmin.firstLeast_spec (fun a => (vi.actions.map f).getD a 0)
    (List.range vi.actions.length) with ⟨hnone, hnil⟩ | ⟨b, hb, hmem, hle⟩
  · rw [hnone]
    exact List.length_eq_zero_iff.mp (List.range_eq_nil.mp hnil)
  · rw [hb]
    have hact := List.getElem?_eq_getElem (List.mem_range.mp hmem)
    refine ⟨_, hact, ?_⟩
    intro a ha
    obtain ⟨i, hi, rfl⟩ := List.mem_iff_getElem.mp ha
    have hcheap := hle i (List.mem_range.mpr hi)
    rwa [getD_of_getElem? hact, getD_of_getElem? (List.getElem?_eq_getElem hi)] at hcheap

variable [IsStrictOrderedRing K]

/-- What a decision promises: the goal if half of what counts is there; otherwise an action
of least expected cost, of which at most a fifth of the mass on the way says that it
collides; none if nothing counts or a least one fails there. -/
def Warranted (vi : ValueIterator) (g : PolicyFrame K) (hyps : List (PoseView K × K)) :
    Option QmdpDecision → Prop
  | some .goal => 0 < mass (underway vi g hyps) + mass (arrived vi g hyps) ∧
      mass (underway vi g hyps) ≤ mass (arrived vi g hyps)
  | some (.action b) => mass (arrived vi g hyps) < mass (underway vi g hyps) ∧
      ∃ act, vi.actions[b]? = some act ∧
        (∀ a ∈ vi.actions, expectedCost vi (underway vi g hyps) act ≤
          expectedCost vi (underway vi g hyps) a) ∧
        5 * collisionMass vi (underway vi g hyps) act ≤ mass (underway vi g hyps)
  | some .noAction => hyps.filterMap (counted vi g) = [] ∨
      ∃ act ∈ vi.actions, (∀ a ∈ vi.actions, expectedCost vi (underway vi g hyps) act ≤
          expectedCost vi (underway vi g hyps) a) ∧
        mass (underway vi g hyps) < 5 * collisionMass vi (underway vi g hyps) act
  | none => vi.actions = []

omit [IsStrictOrderedRing K] in
/-- What counts has a positive weight. -/
theorem counted_pos {h : PoseView K × K} {e : Pos × K} (he : counted vi g h = some e) :
    0 < e.2 := by
  rw [counted] at he
  split at he
  · next hpos =>
    cases he
    exact hpos.1
  · cases he

theorem mass_nonneg {hyps : List (PoseView K × K)} {es : List (Pos × K)}
    (h : ∀ e ∈ es, e ∈ hyps.filterMap (counted vi g)) : 0 ≤ mass es := by
  apply List.sum_nonneg
  intro w hw
  obtain ⟨e, he, rfl⟩ := List.mem_map.mp hw
  obtain ⟨_, _, hcount⟩ := List.mem_filterMap.mp (h e he)
  exact (counted_pos hcount).le

/-- Without a positive sum nothing has been counted. -/
theorem nothing_counts {hyps : List (PoseView K × K)}
    (h : mass (underway vi g hyps) + mass (arrived vi g hyps) ≤ 0) :
    hyps.filterMap (counted vi g) = [] := by
  have hunder : 0 ≤ mass (underway vi g hyps) := mass_nonneg fun e he => (List.mem_filter.mp he).1
  have harrived : 0 ≤ mass (arrived vi g hyps) := mass_nonneg fun e he => (List.mem_filter.mp he).1
  have hall : mass (hyps.filterMap (counted vi g)) =
      mass (underway vi g hyps) + mass (arrived vi g hyps) := by
    have hperm := List.filter_append_perm (fun e : Pos × K => !(vi.stateAt e.1).finalState)
      (hyps.filterMap (counted vi g))
    simp only [Bool.not_not] at hperm
    rw [mass, ← (hperm.map _).sum_eq, List.map_append, List.sum_append]
    rfl
  by_contra hne
  obtain ⟨e, es, hcons⟩ := List.exists_cons_of_ne_nil hne
  have hmem : ∀ d ∈ e :: es, d ∈ hyps.filterMap (counted vi g) := by
    rw [hcons]
    exact fun d hd => hd
  have hrest : 0 ≤ mass es := mass_nonneg fun d hd => hmem d (List.mem_cons_of_mem e hd)
  obtain ⟨_, _, hcount⟩ := List.mem_filterMap.mp (hmem e List.mem_cons_self)
  have hfirst := counted_pos hcount
  have hsum : mass (e :: es) = e.2 + mass es := rfl
  rw [hcons, hsum] at hall
  linarith

theorem qmdpDecide_spec (hyps : List (PoseView K × K)) :
    Warranted vi g hyps (vi.qmdpDecide g hyps) := by
  rw [qmdpDecide_eq, Tally.decide]
  by_cases htotal : mass (underway vi g hyps) + mass (arrived vi g hyps) ≤ 0
  · simp only [htotal, if_true]
    exact Or.inl (nothing_counts htotal)
  · by_cases hgoal : 1 / 2 * (mass (underway vi g hyps) + mass (arrived vi g hyps)) ≤
        mass (arrived vi g hyps)
    · simp only [htotal, hgoal, if_true, if_false]
      exact ⟨not_le.mp htotal, by linarith⟩
    · by_cases husable : mass (underway vi g hyps) ≤ 0
      · -- then all that counts has arrived
        exact absurd (by linarith) hgoal
      · have hbest := cheapest_spec vi (expectedCost vi (underway vi g hyps))
        simp only [htotal, hgoal, husable, if_false]
        cases hb : Argmin.firstLeast
            (fun a => (vi.actions.map (expectedCost vi (underway vi g hyps))).getD a 0)
            (List.range vi.actions.length) with
        | none =>
          rw [hb] at hbest
          exact hbest
        | some b =>
          rw [hb] at hbest
          obtain ⟨act, hact, hleast⟩ := hbest
          rw [Option.map_some, getD_of_getElem? hact]
          by_cases hveto : 1 / 5 * mass (underway vi g hyps) <
              collisionMass vi (underway vi g hyps) act
          · rw [if_pos hveto]
            exact Or.inr ⟨act, List.mem_of_getElem? hact, hleast, by linarith⟩
          · rw [if_neg hveto]
            exact ⟨by linarith, act, hact, hleast, by linarith⟩

/-- The row after its reference run. -/
def slipRowSolved : ValueIterator := (slipRow.originalSolve 10 nullObserver).vi

/-- The cells of the row, one metre wide; two headings. -/
def turnFrame : PolicyFrame ℚ := ⟨1, (0, 0), (1 / 2, 1 / 2, 0), 180, [(1, 0), (-1, 0)]⟩

/-- Two cells whose own actions differ, the cell that leads nowhere and a goal, and two poses
that do not count: in the wall and off the map. -/
def rowHypotheses : List (PoseView ℚ × ℚ) :=
  [(⟨3 / 2, 1 / 2, 0⟩, 3), (⟨15 / 4, 1 / 2, 200⟩, 1), (⟨17 / 2, 1 / 2, 0⟩, 1 / 2),
    (⟨13 / 2, 1 / 2, 0⟩, 1), (⟨15 / 2, 1 / 2, 0⟩, 2), (⟨-1, 1 / 2, 0⟩, 5)]

/-- The greater mass would go back. -/
theorem slipRow_warranted :
    let _ : Analytic ℚ := Belief.degreeMath
    slipRowSolved.qmdpDecide turnFrame rowHypotheses = some (.action 1) ∧
      Warranted slipRowSolved turnFrame rowHypotheses (some (.action 1)) := by
  intro _
  have hback : slipRowSolved.qmdpDecide turnFrame rowHypotheses = some (.action 1) := by
    decide +kernel
  have hspec : Warranted slipRowSolved turnFrame rowHypotheses
      (slipRowSolved.qmdpDecide turnFrame rowHypotheses) := qmdpDecide_spec rowHypotheses
  rw [hback] at hspec
  exact ⟨hback, hspec⟩

/-- The same hypothesis with another weight. -/
def scaled (c : K) (e : Pos × K) : Pos × K := (e.1, c * e.2)

omit [FloorRing K] [Analytic K] [LinearOrder K] [IsStrictOrderedRing K] in
theorem mass_scaled (c : K) (es : List (Pos × K)) : mass (es.map (scaled c)) = c * mass es := by
  simp only [mass, List.map_map, ← List.sum_map_mul_left]
  rfl

omit [FloorRing K] [Analytic K] [LinearOrder K] [IsStrictOrderedRing K] in
theorem expectedCost_scaled (c : K) (es : List (Pos × K)) (a : Action) :
    expectedCost vi (es.map (scaled c)) a = c * expectedCost vi es a := by
  simp only [expectedCost, List.map_map, ← List.sum_map_mul_left]
  congr 1
  apply List.map_congr_left
  intro e _
  exact mul_assoc c e.2 _

omit [FloorRing K] [Analytic K] [LinearOrder K] [IsStrictOrderedRing K] in
theorem collisionMass_scaled (c : K) (es : List (Pos × K)) (a : Action) :
    collisionMass vi (es.map (scaled c)) a = c * collisionMass vi es a := by
  simp only [collisionMass, List.map_map, ← List.sum_map_mul_left]
  congr 1
  apply List.map_congr_left
  intro e _
  show (if vi.qmdpCost e.1 a = maxCost then c * e.2 else 0) =
    c * if vi.qmdpCost e.1 a = maxCost then e.2 else 0
  split
  · rfl
  · rw [mul_zero]

omit [FloorRing K] [Analytic K] in
/-- A decision depends on the sums up to a positive factor. -/
theorem Tally.decide_scaled {c : K} (hc : 0 < c) (f v : Action → K) (u m : K) :
    Tally.decide ⟨vi.actions.map fun a => c * f a, vi.actions.map fun a => c * v a, c * u, c * m⟩
        vi.actions.length =
      Tally.decide ⟨vi.actions.map f, vi.actions.map v, u, m⟩ vi.actions.length := by
  have hentry : ∀ (k : Action → K) (a : Nat), (vi.actions.map fun x => c * k x).getD a 0 =
      c * (vi.actions.map k).getD a 0 := by
    intro k a
    cases ha : vi.actions[a]? with
    | none => simp [List.getD, ha]
    | some act => rw [getD_of_getElem? ha, getD_of_getElem? ha]
  have hnonpos : ∀ x : K, c * x ≤ 0 ↔ x ≤ 0 := by
    intro x
    have hle : c * x ≤ c * 0 ↔ x ≤ 0 := mul_le_mul_iff_right₀ hc
    rwa [mul_zero] at hle
  have htotal : c * u + c * m ≤ 0 ↔ u + m ≤ 0 := by
    rw [← mul_add]
    exact hnonpos _
  have hgoal : 1 / 2 * (c * u + c * m) ≤ c * m ↔ 1 / 2 * (u + m) ≤ m := by
    rw [← mul_add, mul_left_comm]
    exact mul_le_mul_iff_right₀ hc
  have hveto : ∀ a, (1 / 5 * (c * u) < c * (vi.actions.map v).getD a 0 ↔
      1 / 5 * u < (vi.actions.map v).getD a 0) := by
    intro a
    rw [mul_left_comm]
    exact mul_lt_mul_iff_right₀ hc
  have hbest : Argmin.firstLeast (fun a => c * (vi.actions.map f).getD a 0)
      (List.range vi.actions.length) =
      Argmin.firstLeast (fun a => (vi.actions.map f).getD a 0) (List.range vi.actions.length) :=
    Argmin.firstLeast_congr (fun a b => mul_lt_mul_iff_right₀ hc) _
  simp only [Tally.decide, hentry, htotal, hgoal, hnonpos, hveto, hbest]

theorem counted_scaled {c : K} (hc : 0 < c) (h : PoseView K × K) :
    counted vi g (h.1, c * h.2) = (counted vi g h).map (scaled c) := by
  have hpos : 0 < c * h.2 ↔ 0 < h.2 := mul_pos_iff_of_pos_left hc
  simp only [counted, hpos]
  split <;> rfl

theorem filterMap_counted_scaled {c : K} (hc : 0 < c) (hyps : List (PoseView K × K)) :
    (hyps.map fun e => (e.1, c * e.2)).filterMap (counted vi g) =
      (hyps.filterMap (counted vi g)).map (scaled c) := by
  rw [List.filterMap_map, List.map_filterMap]
  congr 1
  funext h
  exact counted_scaled hc h

/-- Scaling the weights and reordering the hypotheses changes nothing. -/
theorem qmdpDecide_masses {c : K} (hc : 0 < c) {hyps hyps' : List (PoseView K × K)}
    (h : hyps'.Perm (hyps.map fun e => (e.1, c * e.2))) :
    vi.qmdpDecide g hyps' = vi.qmdpDecide g hyps := by
  have hcounted : (hyps'.filterMap (counted vi g)).Perm
      ((hyps.filterMap (counted vi g)).map (scaled c)) := by
    rw [← filterMap_counted_scaled hc]
    exact h.filterMap _
  have hu : (underway vi g hyps').Perm ((underway vi g hyps).map (scaled c)) := by
    have := hcounted.filter fun e => !(vi.stateAt e.1).finalState
    rwa [List.filter_map] at this
  have ha : (arrived vi g hyps').Perm ((arrived vi g hyps).map (scaled c)) := by
    have := hcounted.filter fun e => (vi.stateAt e.1).finalState
    rwa [List.filter_map] at this
  have hmass : ∀ {es es' : List (Pos × K)}, es'.Perm (es.map (scaled c)) →
      mass es' = c * mass es := by
    intro es es' hperm
    rw [← mass_scaled]
    exact (hperm.map _).sum_eq
  have hcost : expectedCost vi (underway vi g hyps') =
      fun a => c * expectedCost vi (underway vi g hyps) a := by
    funext a
    rw [← expectedCost_scaled]
    exact (hu.map _).sum_eq
  have hveto : collisionMass vi (underway vi g hyps') =
      fun a => c * collisionMass vi (underway vi g hyps) a := by
    funext a
    rw [← collisionMass_scaled]
    exact (hu.map _).sum_eq
  rw [qmdpDecide_eq, qmdpDecide_eq, hmass hu, hmass ha, hcost, hveto, Tally.decide_scaled hc]

theorem slipRow_masses :
    let _ : Analytic ℚ := Belief.degreeMath
    slipRowSolved.qmdpDecide turnFrame (rowHypotheses.map fun e => (e.1, 2 * e.2)).reverse =
      slipRowSolved.qmdpDecide turnFrame rowHypotheses := by
  intro _
  exact qmdpDecide_masses (by norm_num) (List.reverse_perm _)

/-! ### One hypothesis -/

/-- Every state to be solved holds its own raw update. -/
def RawFixed (vi : ValueIterator) : Prop :=
  ∀ s, vi.world.evaluable s = true →
    vi.minActionCost s = some (vi.costs s, (vi.stateAt s).optimalAction)

omit [Field K] [LinearOrder K] [FloorRing K] [Analytic K] [IsStrictOrderedRing K] in
theorem actionCostRaw_le (a : Action) (s : Pos) : vi.actionCostRaw a s ≤ maxCost := by
  rw [actionCostRaw_eq]
  cases vi.legalRow s a with
  | none => exact le_refl _
  | some row =>
    have hlt : vi.world.weight vi.costs row % word / probBase < productLimit :=
      div_probBase_lt (Nat.mod_lt _ (by decide))
    exact (hlt.trans productLimit_lt_maxCost).le

/-- A fixed field holds no discarded policy. -/
theorem RawFixed.not_invalidated (h : RawFixed vi) {t : Pos} (ht : vi.dims.Contains t) :
    (vi.stateAt t).policyInvalidated = false := by
  rw [Bool.eq_false_iff]
  intro hinv
  simp only [State.policyInvalidated, Bool.and_eq_true, Bool.not_eq_true', decide_eq_true_eq,
    Option.isNone_iff_eq_none] at hinv
  obtain ⟨⟨⟨hfree, hfin⟩, hlt⟩, hnone⟩ := hinv
  have hfix := h t (evaluable_iff.mpr ⟨ht, hfree, hfin⟩)
  rw [minActionCost_of_evaluable (evaluable_iff.mpr ⟨ht, hfree, hfin⟩), Option.some.injEq,
    World.backup] at hfix
  rcases Argmin.argminBelow_cases maxCost ((vi.world.choices t).map (vi.world.rawCost vi.costs))
    with hbound | ⟨k, c, _, hk⟩
  · rw [hfix, Prod.mk.injEq] at hbound
    exact hlt.ne hbound.1
  · rw [hfix, Prod.mk.injEq, hnone] at hk
    cases hk.2

theorem RawFixed.qmdpCost_eq (h : RawFixed vi) {s : Pos} (hs : vi.dims.Contains s) (a : Action) :
    vi.qmdpCost s a = vi.actionCostRaw a s := by
  have hnt : (0 : Int) < vi.dims.nt := hs.2.2.1.trans_lt hs.2.2.2
  rw [qmdpCost, if_neg]
  rw [unavailable, h.not_invalidated hs, Bool.false_or, List.any_eq_true]
  rintro ⟨tr, _, htr⟩
  simp only [Bool.and_eq_true] at htr
  obtain ⟨hx0, hx1, hy0, hy1⟩ := inMapArea_iff.mp htr.1.2
  have hinv : (vi.stateAt ⟨s.ix + tr.dix, s.iy + tr.diy, tr.dit % vi.dims.nt⟩).policyInvalidated =
      false := h.not_invalidated ⟨⟨hx0, hx1⟩, ⟨hy0, hy1⟩, Int.emod_nonneg _ hnt.ne', Int.emod_lt_of_pos _ hnt⟩
  rw [hinv] at htr
  cases htr.2

omit [Field K] [LinearOrder K] [FloorRing K] [Analytic K] [IsStrictOrderedRing K] in
theorem map_getD_range (cs : List Nat) :
    ((List.range cs.length).map fun i => cs.getD i 0) = cs := by
  apply List.ext_getElem
  · simp
  · intro i h₁ h₂
    simp [h₂]

omit [IsStrictOrderedRing K] in
/-- The sums of a single hypothesis on a fixed field. -/
theorem RawFixed.single (h : RawFixed vi) {e : PoseView K × K} (hw : 0 < e.2) {c : Pos}
    (hcell : (vi.policyView g).poseToCellOn e.1.x e.1.y e.1.yawRad = c)
    (hev : vi.world.evaluable c = true) :
    mass (underway vi g [e]) = e.2 ∧ mass (arrived vi g [e]) = 0 ∧
      (∀ a, expectedCost vi (underway vi g [e]) a = e.2 * (vi.actionCostRaw a c : K)) ∧
      ∀ a, collisionMass vi (underway vi g [e]) a =
        if vi.actionCostRaw a c = maxCost then e.2 else 0 := by
  obtain ⟨hc, hfree, hfin⟩ := evaluable_iff.mp hev
  have hcount : counted vi g e = some (c, e.2) := by simp [counted, hw, hcell, hc, hfree]
  have hu : underway vi g [e] = [(c, e.2)] := by simp [underway, hcount, hfin]
  have ha : arrived vi g [e] = [] := by simp [arrived, hcount, hfin]
  refine ⟨by simp [hu, mass], by simp [ha, mass], ?_, ?_⟩
  · intro a
    simp [hu, expectedCost, h.qmdpCost_eq hc]
  · intro a
    simp [hu, collisionMass, h.qmdpCost_eq hc]

/-- With one hypothesis the decision is the field's own action, or to stop where it has
none. -/
theorem qmdpDecide_single (h : RawFixed vi) (hne : vi.actions ≠ []) {e : PoseView K × K}
    (hw : 0 < e.2)
    (hev : vi.world.evaluable ((vi.policyView g).poseToCellOn e.1.x e.1.y e.1.yawRad) = true) :
    vi.qmdpDecide g [e] = some
      (match (vi.policyView g).actionIndex
          ((vi.policyView g).poseToCellOn e.1.x e.1.y e.1.yawRad) with
        | some a => .action a
        | none => .noAction) := by
  obtain ⟨c, hcell⟩ : ∃ c, (vi.policyView g).poseToCellOn e.1.x e.1.y e.1.yawRad = c := ⟨_, rfl⟩
  rw [hcell] at hev ⊢
  obtain ⟨hc, hfree, hfin⟩ := evaluable_iff.mp hev
  obtain ⟨hu, ha, hcost, hveto⟩ := h.single hw hcell hev
  rw [policyView_actionIndex, if_pos hc, if_pos ⟨hfree, hfin⟩]
  -- the capped scan of the update and the search of the decision run over the same costs
  have hfix : Argmin.argminBelow maxCost (vi.actions.map fun a => vi.actionCostRaw a c) =
      (vi.costs c, (vi.stateAt c).optimalAction) := by
    have hmin := h c hev
    simpa [minActionCost, hfree, hfin] using hmin
  have horder : ∀ i j,
      ((vi.actions.map (expectedCost vi (underway vi g [e]))).getD i 0 <
        (vi.actions.map (expectedCost vi (underway vi g [e]))).getD j 0 ↔
      (vi.actions.map fun a => vi.actionCostRaw a c).getD i 0 <
        (vi.actions.map fun a => vi.actionCostRaw a c).getD j 0) := by
    have hentry : ∀ i, (vi.actions.map (expectedCost vi (underway vi g [e]))).getD i 0 =
        e.2 * (((vi.actions.map fun a => vi.actionCostRaw a c).getD i 0 : Nat) : K) := by
      intro i
      cases hi : vi.actions[i]? with
      | none => simp [List.getD, hi]
      | some act => simp [List.getD, hi, hcost]
    intro i j
    rw [hentry, hentry, mul_lt_mul_iff_right₀ hw, Nat.cast_lt]
  have hscan : Argmin.argminBelow maxCost ((List.range vi.actions.length).map _) = _ :=
    Argmin.argminBelow_eq_firstLeast horder vi.actions.length
  have hlist := map_getD_range (vi.actions.map fun a => vi.actionCostRaw a c)
  rw [List.length_map] at hlist
  rw [hlist, hfix] at hscan
  have hbest := cheapest_spec vi (expectedCost vi (underway vi g [e]))
  have htotal : ¬ e.2 + 0 ≤ 0 := by
    rw [add_zero]
    exact not_le.mpr hw
  have hgoal : ¬ 1 / 2 * (e.2 + 0) ≤ 0 := by
    rw [add_zero]
    exact not_le.mpr (mul_pos (by norm_num) hw)
  rw [qmdpDecide_eq, hu, ha, Tally.decide]
  simp only [htotal, hgoal, not_le.mpr hw, if_false]
  cases hb : Argmin.firstLeast
      (fun a => (vi.actions.map (expectedCost vi (underway vi g [e]))).getD a 0)
      (List.range vi.actions.length) with
  | none =>
    rw [hb] at hbest
    exact absurd hbest hne
  | some b =>
    rw [hb] at hbest hscan
    obtain ⟨act, hact, _⟩ := hbest
    have hb' : (vi.actions.map fun a => vi.actionCostRaw a c).getD b 0 = vi.actionCostRaw act c := by
      simp [List.getD, hact]
    simp only [hb'] at hscan
    rw [Option.map_some, getD_of_getElem? hact, hveto]
    by_cases hlt : vi.actionCostRaw act c < maxCost
    · rw [if_pos hlt, Prod.mk.injEq] at hscan
      rw [hscan.2, if_neg hlt.ne, if_neg (not_lt.mpr (by positivity))]
    · rw [if_neg hlt, Prod.mk.injEq] at hscan
      have hmax : vi.actionCostRaw act c = maxCost :=
        le_antisymm (actionCostRaw_le act c) (not_lt.mp hlt)
      rw [hscan.2, if_pos hmax, if_pos (by linarith)]

theorem slipRowSolved_fixed : RawFixed slipRowSolved := by
  have hall : ∀ p ∈ slipRowSolved.dims.all, slipRowSolved.world.evaluable p = true →
      slipRowSolved.minActionCost p =
        some (slipRowSolved.costs p, (slipRowSolved.stateAt p).optimalAction) := by
    decide +kernel
  intro p hev
  exact hall p (Dims.mem_all.mpr (evaluable_iff.mp hev).1) hev

/-- Forward between the goals; nowhere from behind the wall. -/
theorem slipRow_single :
    let _ : Analytic ℚ := Belief.degreeMath
    slipRowSolved.qmdpDecide turnFrame [(⟨15 / 4, 1 / 2, 200⟩, 1)] = some (.action 0) ∧
      slipRowSolved.qmdpDecide turnFrame [(⟨17 / 2, 1 / 2, 200⟩, 1)] = some .noAction := by
  intro _
  constructor
  · refine (qmdpDecide_single slipRowSolved_fixed (by decide +kernel) (by norm_num)
      (by decide +kernel)).trans ?_
    decide +kernel
  · refine (qmdpDecide_single slipRowSolved_fixed (by decide +kernel) (by norm_num)
      (by decide +kernel)).trans ?_
    decide +kernel

end Decision

end ValueIteration
