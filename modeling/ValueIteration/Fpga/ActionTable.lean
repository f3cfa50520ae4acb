import ValueIteration.Fpga.Shortest

/-!
# The action table

`vi_compute_action_table` takes the action whose successor has the least value. The cost of
an action also counts the penalty of the cell it enters.
-/

set_option autoImplicit false

namespace ValueIteration.Fpga

namespace Scene

variable (sc : Scene)

/-- The body of the action loop of `vi_compute_action_table`: `best_cost` and `best_act`. -/
def tryBest (value : Grid U16) (x y : Int) (it : Nat) (r : U16 × Nat) (a : Nat) : U16 × Nat :=
  let nx := x + sc.dix a it
  let ny := y + sc.diy a it
  let nt := nextTheta it (sc.dit a it)
  if nx < 0 ∨ nx ≥ sc.mapX ∨ ny < 0 ∨ ny ≥ sc.mapY then r
  else
    let nv := value.get ⟨nx, ny, nt⟩
    if nv ≥ r.1 then r else (nv, a)

/-- What is written for one state. -/
def actionOut (value : Grid U16) (s : Pos) : Nat :=
  if sc.pen s.ix s.iy ≥ penaltyGoal then 0
  else ((List.range nActions).foldl (sc.tryBest value s.ix s.iy s.it.toNat) (maxValue, 0)).2

/-- `vi_compute_action_table` of an open device. -/
def viComputeActionTable (valueSize : Nat) (value : Grid U16) : Except Status (Grid Nat) :=
  if sc.mapX ≤ 0 ∨ sc.mapY ≤ 0 then .error .badArg
  else if sc.mapX * sc.mapY * nTheta * 2 > valueSize then .error .bufSize
  else .ok (Grid.ofFn sc.dims (sc.actionOut value))

/-- The value of the state action `a` leads to; `maxValue` off the map. -/
def nextValue (f : Pos → U16) (s : Pos) (a : Nat) : U16 :=
  if sc.InMap (sc.succ s a).ix (sc.succ s a).iy then f (sc.succ s a) else maxValue

/-- Each free cell is equal to its update, and obstacle cells are unreached. -/
structure Converged (value : Grid U16) : Prop where
  dims : value.dims = sc.dims
  fixed : ∀ s, sc.dims.Contains s → sc.Free s → sc.update value.get s = value.get s
  obstacle : ∀ s, sc.dims.Contains s → sc.pen s.ix s.iy = penaltyObstacle →
    value.get s = maxValue

/-- The action enters a cell of the map that is no obstacle, at the cost the state has. -/
structure Attains (f : Pos → U16) (s : Pos) (a : Nat) : Prop where
  inMap : sc.InMap (sc.succ s a).ix (sc.succ s a).iy
  passable : sc.pen (sc.succ s a).ix (sc.succ s a).iy ≠ penaltyObstacle
  cost : sc.cost f s a = f s

/-- The first of the actions that lead to the least value. -/
structure FirstLeast (f : Pos → U16) (s : Pos) (a : Nat) : Prop where
  lt : a < nActions
  le : ∀ b < nActions, sc.nextValue f s a ≤ sc.nextValue f s b
  first : ∀ b < a, sc.nextValue f s a < sc.nextValue f s b

variable {sc}

theorem FirstLeast.unique {f : Pos → U16} {s : Pos} {a b : Nat} (ha : sc.FirstLeast f s a)
    (hb : sc.FirstLeast f s b) : a = b := by
  rcases Nat.lt_trichotomy a b with h | h | h
  · exact absurd (ha.le b hb.lt) (not_le.mpr (hb.first a h))
  · exact h
  · exact absurd (hb.le a ha.lt) (not_le.mpr (ha.first b h))

/-! ## What the loop finds -/

theorem tryBest_eq (value : Grid U16) {s : Pos} (hs : sc.dims.Contains s) (r : U16 × Nat)
    (a : Nat) : sc.tryBest value s.ix s.iy s.it.toNat r a =
      if sc.nextValue value.get s a < r.1 then (sc.nextValue value.get s a, a) else r := by
  have hit : (s.it.toNat : Int) = s.it := Int.toNat_of_nonneg (contains_iff.mp hs).2.1
  have hout : (s.ix + sc.dix a s.it.toNat < 0 ∨ s.ix + sc.dix a s.it.toNat ≥ sc.mapX ∨
      s.iy + sc.diy a s.it.toNat < 0 ∨ s.iy + sc.diy a s.it.toNat ≥ sc.mapY) ↔
      ¬ sc.InMap (sc.succ s a).ix (sc.succ s a).iy := by
    simp only [InMap, succ]
    omega
  unfold tryBest
  simp only [hit]
  by_cases hin : sc.InMap (sc.succ s a).ix (sc.succ s a).iy
  · have hnext : value.get ⟨s.ix + sc.dix a s.it.toNat, s.iy + sc.diy a s.it.toNat,
        nextTheta s.it (sc.dit a s.it.toNat)⟩ = sc.nextValue value.get s a := (if_pos hin).symm
    rw [if_neg fun h => hout.mp h hin, hnext]
    by_cases hlt : sc.nextValue value.get s a < r.1
    · rw [if_neg (not_le.mpr hlt), if_pos hlt]
    · rw [if_pos (not_lt.mp hlt), if_neg hlt]
  · have hnext : sc.nextValue value.get s a = maxValue := if_neg hin
    rw [if_pos (hout.mpr hin), hnext, if_neg (not_lt.mpr (le_maxValue _))]

/-- After `n` actions: nothing finite was met, or the first of the least. -/
structure Found (g : Nat → U16) (n : Nat) (r : U16 × Nat) : Prop where
  le : ∀ a < n, r.1 ≤ g a
  chosen : r = (maxValue, 0) ∨ r.2 < n ∧ r.1 = g r.2 ∧ ∀ b < r.2, r.1 < g b

theorem Found.step {g : Nat → U16} {n : Nat} {r : U16 × Nat} (h : Found g n r) :
    Found g (n + 1) (if g n < r.1 then (g n, n) else r) := by
  split
  · next hlt =>
    refine ⟨?_, Or.inr ⟨Nat.lt_succ_self n, rfl, fun b hb => hlt.trans_le (h.le b hb)⟩⟩
    intro a ha
    rcases Nat.lt_succ_iff_lt_or_eq.mp ha with ha | ha
    · exact (hlt.trans_le (h.le a ha)).le
    · rw [ha]
  · next hge =>
    refine ⟨?_, ?_⟩
    · intro a ha
      rcases Nat.lt_succ_iff_lt_or_eq.mp ha with ha | ha
      · exact h.le a ha
      · rw [ha]
        exact not_lt.mp hge
    · rcases h.chosen with hnone | ⟨hlt, heq, hfirst⟩
      · exact Or.inl hnone
      · exact Or.inr ⟨Nat.lt_succ_of_lt hlt, heq, hfirst⟩

theorem found_range (g : Nat → U16) (n : Nat) : Found g n
    ((List.range n).foldl (fun r a => if g a < r.1 then (g a, a) else r) (maxValue, 0)) := by
  induction n with
  | zero => exact ⟨fun a ha => absurd ha (Nat.not_lt_zero a), Or.inl rfl⟩
  | succ n ih =>
    rw [List.range_succ, List.foldl_append]
    exact ih.step

/-- Where some successor is reached, the table holds the first of the least. -/
theorem firstLeast_actionOut {value : Grid U16} {s : Pos} (hs : sc.dims.Contains s)
    (hfree : sc.Free s) {b : Nat} (hb : b < nActions)
    (hreach : sc.nextValue value.get s b < maxValue) :
    sc.FirstLeast value.get s (sc.actionOut value s) := by
  have hfold : (List.range nActions).foldl (sc.tryBest value s.ix s.iy s.it.toNat)
      (maxValue, 0) = (List.range nActions).foldl (fun r a =>
        if sc.nextValue value.get s a < r.1 then (sc.nextValue value.get s a, a) else r)
      (maxValue, 0) := by
    congr 1
    funext r a
    exact tryBest_eq value hs r a
  have hfound := found_range (sc.nextValue value.get s) nActions
  rw [actionOut, if_neg hfree, hfold]
  rcases hfound.chosen with hnone | ⟨hlt, heq, hfirst⟩
  · have hle := hfound.le b hb
    rw [hnone] at hle
    exact absurd hreach (not_lt.mpr hle)
  · refine ⟨hlt, ?_, ?_⟩
    · rw [← heq]
      exact hfound.le
    · rw [← heq]
      exact hfirst

/-! ## When it is the cheapest -/

theorem nextValue_lt_of_cost {f : Pos → U16} {s : Pos} {a : Nat} (h : sc.cost f s a ≠ maxValue) :
    sc.nextValue f s a < maxValue := by
  by_cases hin : sc.InMap (sc.succ s a).ix (sc.succ s a).iy
  · rw [cost_of_inMap hin] at h
    rw [nextValue, if_pos hin]
    apply lt_of_le_of_ne (le_maxValue _)
    intro hmax
    exact h (costOf_eq_maxValue_iff.mpr (Or.inl hmax))
  · exact absurd (cost_of_out hin f) h

theorem attains_of_cost {f : Pos → U16} {s : Pos} {a : Nat} (hfin : f s ≠ maxValue)
    (h : sc.cost f s a = f s) : sc.Attains f s a := by
  rw [← h] at hfin
  by_cases hin : sc.InMap (sc.succ s a).ix (sc.succ s a).iy
  · refine ⟨hin, ?_, h⟩
    rw [cost_of_inMap hin] at hfin
    intro hpen
    exact hfin (costOf_eq_maxValue_iff.mpr (Or.inr hpen))
  · exact absurd (cost_of_out hin f) hfin

/-- The action written for a free state with a finite value attains that value exactly when
the first action of least successor value is also one of least cost. -/
theorem actionTable_attains_iff {value : Grid U16} (hconv : sc.Converged value)
    {valueSize : Nat} {out : Grid Nat} (hok : sc.viComputeActionTable valueSize value = .ok out)
    {s : Pos} (hs : sc.dims.Contains s) (hfree : sc.Free s) (hfin : value.get s ≠ maxValue) :
    sc.Attains value.get s (out.get s) ↔
      ∀ a, sc.FirstLeast value.get s a → ∀ b < nActions,
        sc.cost value.get s a ≤ sc.cost value.get s b := by
  have hout : out.get s = sc.actionOut value s := by
    unfold viComputeActionTable at hok
    split at hok
    · cases hok
    · split at hok
      · cases hok
      · cases hok
        exact Grid.get_ofFn _ hs
  have hbest : sc.best value.get s = value.get s := by
    rw [← update_of_free hfree]
    exact hconv.fixed s hs hfree
  rcases best_attained value.get s with hmax | ⟨c, hc, hcost⟩
  · exact absurd (hbest.symm.trans hmax) hfin
  · rw [hbest] at hcost
    have hlt : sc.nextValue value.get s c < maxValue := nextValue_lt_of_cost (hcost ▸ hfin)
    have hleast := firstLeast_actionOut hs hfree hc hlt
    rw [hout]
    constructor
    · intro hattains a ha b hb
      rw [ha.unique hleast, hattains.cost, ← hbest]
      exact best_le_cost hb _ _
    · intro hcheap
      apply attains_of_cost hfin
      apply le_antisymm
      · exact (hcheap _ hleast c hc).trans hcost.ge
      · rw [← hbest]
        exact best_le_cost hleast.lt _ _

theorem corridorLane_converged : corridorLane.Converged tollTable := by
  refine ⟨rfl, fun s hs _ => corridorLane_fixed hs, ?_⟩
  intro s hs hobs
  have hpens : ∀ s ∈ corridorLane.dims.all, corridorLane.pen s.ix s.iy ≠ penaltyObstacle := by
    decide +kernel
  exact absurd hobs (hpens s (Dims.mem_all.mpr hs))

/-- Behind the toll only going back leads to a value of `0`, and it costs what the state has. -/
theorem actionTable_attains_iff_lane : ∃ out,
    corridorLane.viComputeActionTable 360 tollTable = .ok out ∧
      corridorLane.Attains tollTable.get ⟨2, 0, 0⟩ (out.get ⟨2, 0, 0⟩) := by
  have hback : corridorLane.FirstLeast tollTable.get ⟨2, 0, 0⟩ 1 :=
    ⟨by decide, by decide +kernel, by decide +kernel⟩
  have hok : corridorLane.viComputeActionTable 360 tollTable = .ok _ := rfl
  refine ⟨_, hok, (actionTable_attains_iff corridorLane_converged hok (by decide)
    (by decide +kernel) (by decide +kernel)).mpr ?_⟩
  intro a ha
  rw [ha.unique hback]
  decide +kernel

/-- A lane on which going left costs nothing. -/
theorem converged_lane {ps : List U16} (hpens : ∀ s ∈ (lane ps).dims.all,
    (lane ps).pen s.ix s.iy ≠ penaltyObstacle ∧ ((lane ps).Free s →
      (lane ps).InMap ((lane ps).succ s 1).ix ((lane ps).succ s 1).iy ∧
      costOf 0 ((lane ps).pen ((lane ps).succ s 1).ix ((lane ps).succ s 1).iy) = 0)) :
    (lane ps).Converged (Grid.ofFn (lane ps).dims fun _ => 0) := by
  refine ⟨rfl, ?_, ?_⟩
  · intro s hs hfree
    obtain ⟨hin, hcost⟩ := (hpens s (Dims.mem_all.mpr hs)).2 hfree
    have hsucc := (lane_contract ps).succ_contains (contains_iff.mp hs).2 (by decide) hin
    have hle : (lane ps).best (Grid.ofFn (lane ps).dims fun _ => 0).get s ≤
        (lane ps).cost (Grid.ofFn (lane ps).dims fun _ => 0).get s 1 :=
      best_le_cost (by decide) _ s
    rw [cost_of_inMap hin, Grid.get_ofFn _ hsucc, hcost] at hle
    rw [update_of_free hfree, Grid.get_ofFn _ hs]
    exact Fin.le_zero_iff.mp hle
  · intro s hs hobs
    exact absurd hobs (hpens s (Dims.mem_all.mpr hs)).1

/-- Beside a goal the table leads away from it, into a dearer cell whose value is as low. -/
theorem not_actionTable_attains :
    (lane [penaltyGoal, 0, 7]).Contract ∧
    (lane [penaltyGoal, 0, 7]).Converged (Grid.ofFn ⟨3, 1, 60⟩ fun _ => 0) ∧
    (lane [penaltyGoal, 0, 7]).Free ⟨1, 0, 0⟩ ∧
    (Grid.ofFn ⟨3, 1, 60⟩ fun _ => (0 : U16)).get ⟨1, 0, 0⟩ ≠ maxValue ∧
    ∃ out, (lane [penaltyGoal, 0, 7]).viComputeActionTable 360 (Grid.ofFn ⟨3, 1, 60⟩ fun _ => 0) =
      .ok out ∧ ¬ (lane [penaltyGoal, 0, 7]).Attains (Grid.ofFn ⟨3, 1, 60⟩ fun _ => 0).get
        ⟨1, 0, 0⟩ (out.get ⟨1, 0, 0⟩) := by
  refine ⟨lane_contract _, converged_lane (by decide +kernel), by decide +kernel,
    by decide +kernel, _, rfl, ?_⟩
  intro h
  exact absurd h.cost (by decide +kernel)

end Scene

end ValueIteration.Fpga
