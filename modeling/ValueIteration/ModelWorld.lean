import Mathlib.Data.Nat.ModEq
import ValueIteration.Bellman
import ValueIteration.Model

/-!
# The raw update is the backup of a world

Reads a `ValueIterator` as a world over grid positions and shows that
`action_cost_raw`, `min_action_cost` and `value_iteration_raw` compute the raw
cost and the raw backup of that world, and change nothing but one state's value
and action.
-/

set_option autoImplicit false

namespace ValueIteration

theorem shiftRight_probBaseBit (n : Nat) : n >>> probBaseBit = n / probBase := by
  rw [Nat.shiftRight_eq_div_pow]
  rfl

theorem bucketCost_eq {τ : Type} (term : τ → Option Nat) (row : List τ) :
    ∀ acc, acc < word → bucketCost term row acc =
      if row.all (fun tr => (term tr).isSome)
      then (acc + (row.map fun tr => (term tr).getD 0).sum) % word / probBase else maxCost := by
  induction row with
  | nil =>
    intro acc hacc
    simp [bucketCost, shiftRight_probBaseBit, Nat.mod_eq_of_lt hacc]
  | cons tr row ih =>
    intro acc _
    cases htr : term tr with
    | none => simp [bucketCost, htr]
    | some c =>
      simp only [bucketCost, htr, ih _ (wrappingAdd_lt acc c), List.all_cons, Option.isSome_some,
        Bool.true_and, List.map_cons, List.sum_cons, Option.getD_some]
      split
      · rw [wrappingAdd, Nat.mod_add_mod, Nat.add_assoc]
      · rfl

theorem sum_mod_congr {τ : Type} {f g : τ → Nat} {row : List τ} {m : Nat}
    (h : ∀ tr ∈ row, f tr % m = g tr % m) : (row.map f).sum % m = (row.map g).sum % m := by
  induction row with
  | nil => rfl
  | cons tr row ih =>
    have h1 := h tr List.mem_cons_self
    have h2 := ih fun t ht => h t (List.mem_cons_of_mem _ ht)
    simp only [List.map_cons, List.sum_cons]
    exact Nat.ModEq.add h1 h2

/-- Charging a value and a wrapped penalty once per outcome costs the same, modulo
`2 ^ 64`, as the unbounded product. -/
theorem wrapped_term_mod (v pen prob : Nat) :
    wrappingMul (wrappingAdd v pen) prob % word = (v + pen) * prob % word := by
  simp only [wrappingMul, wrappingAdd, Nat.mod_mod, Nat.mod_mul_mod]

theorem wrappingAdd_pen (v : Nat) (s : State) :
    wrappingAdd (wrappingAdd v s.penalty) s.localPenalty = wrappingAdd v s.pen := by
  simp only [wrappingAdd, State.pen, Nat.mod_add_mod, Nat.add_mod_mod, Nat.add_assoc]

theorem tmod_add_contains {nt : Nat} (hnt : 0 < nt) {dit : Int} (h : -(nt : Int) ≤ dit) :
    0 ≤ (dit + nt).tmod nt ∧ (dit + nt).tmod nt < nt := by
  have h0 : 0 ≤ dit + nt := by omega
  rw [Int.tmod_eq_emod_of_nonneg h0]
  exact ⟨Int.emod_nonneg _ (by omega), Int.emod_lt_of_pos _ (by omega)⟩

namespace ValueIterator

variable (vi : ValueIterator)

def costs : Pos → Nat := fun p => (vi.stateAt p).totalCost

/-- The outcomes of an action, or `none` when one is off the map or occupied. -/
def legalRow (s : Pos) (a : Action) : Option (List (Pos × Nat)) :=
  if (a.row s.it).all fun tr =>
      vi.inMapArea (s.ix + tr.dix) (s.iy + tr.diy) && (vi.stateAt (vi.outcomePos s tr)).free
  then some ((a.row s.it).map fun tr => (vi.outcomePos s tr, tr.prob)) else none

def world : World Pos where
  evaluable p := decide (vi.dims.Contains p) && (vi.stateAt p).evaluable
  choices p := vi.actions.map (vi.legalRow p)
  pen p := (vi.stateAt p).pen

variable {vi}

theorem inMapArea_iff {ix iy : Int} :
    vi.inMapArea ix iy = true ↔ 0 ≤ ix ∧ ix < vi.dims.nx ∧ 0 ≤ iy ∧ iy < vi.dims.ny := by
  simp [inMapArea, and_assoc]

theorem evaluable_iff {p : Pos} : vi.world.evaluable p = true ↔
    vi.dims.Contains p ∧ (vi.stateAt p).free = true ∧ (vi.stateAt p).finalState = false := by
  simp [world, State.evaluable]

theorem rawTerm_eq (s : Pos) (tr : StateTransition) : vi.rawTerm s tr =
    if vi.inMapArea (s.ix + tr.dix) (s.iy + tr.diy) && (vi.stateAt (vi.outcomePos s tr)).free
    then some (wrappingMul (wrappingAdd (vi.costs (vi.outcomePos s tr))
      (vi.world.pen (vi.outcomePos s tr))) tr.prob) else none := by
  by_cases hx : s.ix + tr.dix < 0 ∨ (vi.dims.nx : Int) ≤ s.ix + tr.dix
  · have hin : vi.inMapArea (s.ix + tr.dix) (s.iy + tr.diy) = false := by
      rw [← Bool.not_eq_true, inMapArea_iff]; omega
    simp [rawTerm, hx, hin]
  by_cases hy : s.iy + tr.diy < 0 ∨ (vi.dims.ny : Int) ≤ s.iy + tr.diy
  · have hin : vi.inMapArea (s.ix + tr.dix) (s.iy + tr.diy) = false := by
      rw [← Bool.not_eq_true, inMapArea_iff]; omega
    simp [rawTerm, hx, hy, hin]
  have hin : vi.inMapArea (s.ix + tr.dix) (s.iy + tr.diy) = true := by
    rw [inMapArea_iff]; omega
  simp only [rawTerm, hx, hy, hin, if_false, Bool.true_and, wrappingAdd_pen, costs, world]
  cases (vi.stateAt (vi.outcomePos s tr)).free <;> simp

/-- `action_cost_raw` is the raw cost of the world. -/
theorem actionCostRaw_eq (a : Action) (s : Pos) :
    vi.actionCostRaw a s = vi.world.rawCost vi.costs (vi.legalRow s a) := by
  rw [actionCostRaw, bucketCost_eq _ _ 0 (by decide)]
  have hsome : (fun tr => (vi.rawTerm s tr).isSome) = fun tr =>
      vi.inMapArea (s.ix + tr.dix) (s.iy + tr.diy) && (vi.stateAt (vi.outcomePos s tr)).free := by
    funext tr
    rw [rawTerm_eq]
    split
    · next h => rw [h]; rfl
    · next h => rw [Bool.not_eq_true] at h; rw [h]; rfl
  rw [hsome, legalRow]
  split
  · next hall =>
    simp only [World.rawCost, World.weight, List.map_map, Nat.zero_add]
    refine congrArg (· / probBase) (sum_mod_congr ?_)
    intro tr htr
    have := List.all_eq_true.mp hall tr htr
    simp only [rawTerm_eq, this, if_true, Option.getD_some, wrapped_term_mod, Function.comp]
  · rfl

theorem minActionCost_of_evaluable {s : Pos} (h : vi.world.evaluable s = true) :
    vi.minActionCost s = some (vi.world.backup vi.world.rawCost vi.costs s) := by
  obtain ⟨_, hfree, hfin⟩ := evaluable_iff.mp h
  simp only [minActionCost, hfree, hfin, World.backup, world, List.map_map, Bool.not_true,
    Bool.or_self, Bool.false_eq_true, if_false, Option.some.injEq]
  refine congrArg (Argmin.argminBelow maxCost) (List.map_congr_left ?_)
  intro a _
  exact actionCostRaw_eq a s

theorem minActionCost_of_not_evaluable {s : Pos} (hs : vi.dims.Contains s)
    (h : vi.world.evaluable s = false) : vi.minActionCost s = none := by
  have : ¬ vi.world.evaluable s = true := by simp [h]
  rw [evaluable_iff] at this
  unfold minActionCost
  split
  · rfl
  · next hn =>
    simp only [Bool.or_eq_true, Bool.not_eq_true', not_or, Bool.not_eq_false,
      Bool.not_eq_true] at hn
    exact absurd ⟨hs, hn.1, hn.2⟩ this

theorem stateAt_setState {p q : Pos} (hp : vi.dims.Contains p) (hq : vi.dims.Contains q)
    (s : State) : (vi.setState p s).stateAt q = if q = p then s else vi.stateAt q :=
  Grid.get_set hp hq s

@[simp] theorem dims_setState (p : Pos) (s : State) : (vi.setState p s).dims = vi.dims := rfl

@[simp] theorem actions_setState (p : Pos) (s : State) :
    (vi.setState p s).actions = vi.actions := rfl

@[simp] theorem outcomePos_setState (p s : Pos) (st : State) (tr : StateTransition) :
    (vi.setState p st).outcomePos s tr = vi.outcomePos s tr := rfl

theorem outcomePos_contains {s : Pos} (hs : vi.dims.Contains s) {a : Action}
    (ha : a ∈ vi.actions) {tr : StateTransition} (htr : tr ∈ a.row s.it)
    (hin : vi.inMapArea (s.ix + tr.dix) (s.iy + tr.diy) = true) :
    vi.dims.Contains (vi.outcomePos s tr) := by
  have hwf := vi.wellFormed a ha
  have hmem : a.row s.it ∈ a.stateTransitions := by
    have hlt : s.it.toNat < a.stateTransitions.length := by
      have := hs.2.2
      have hl : a.stateTransitions.length = vi.dims.nt := hwf.1
      omega
    simp [Action.row, List.getD_eq_getElem?_getD, hlt]
  have hdit := ((hwf.2 _ hmem).1 tr htr).2
  have hnt : 0 < vi.dims.nt := by have := hs.2.2; omega
  have hin := inMapArea_iff.mp hin
  exact ⟨⟨hin.1, hin.2.1⟩, ⟨hin.2.2.1, hin.2.2.2⟩, tmod_add_contains hnt hdit⟩

/-- What an update keeps: everything but the values and the stored actions. -/
structure SameInputs (vi vi' : ValueIterator) : Prop where
  dims : vi'.dims = vi.dims
  actions : vi'.actions = vi.actions
  free : ∀ p, (vi'.stateAt p).free = (vi.stateAt p).free
  finalState : ∀ p, (vi'.stateAt p).finalState = (vi.stateAt p).finalState
  pen : ∀ p, (vi'.stateAt p).pen = (vi.stateAt p).pen

theorem SameInputs.refl (vi : ValueIterator) : SameInputs vi vi :=
  ⟨rfl, rfl, fun _ => rfl, fun _ => rfl, fun _ => rfl⟩

theorem SameInputs.trans {a b c : ValueIterator} (hab : SameInputs a b) (hbc : SameInputs b c) :
    SameInputs a c where
  dims := hbc.dims.trans hab.dims
  actions := hbc.actions.trans hab.actions
  free p := (hbc.free p).trans (hab.free p)
  finalState p := (hbc.finalState p).trans (hab.finalState p)
  pen p := (hbc.pen p).trans (hab.pen p)

theorem SameInputs.world {vi vi' : ValueIterator} (h : SameInputs vi vi') :
    vi'.world = vi.world := by
  have hpos (s : Pos) (tr : StateTransition) : vi'.outcomePos s tr = vi.outcomePos s tr := by
    simp only [outcomePos, h.dims]
  have harea : vi'.inMapArea = vi.inMapArea := by
    funext ix iy
    simp only [inMapArea, h.dims]
  have hrow : vi'.legalRow = vi.legalRow := by
    funext s a
    simp only [legalRow, harea, h.free, hpos]
  simp only [ValueIterator.world, State.evaluable, h.dims, h.actions, h.free, h.finalState, h.pen,
    hrow]

theorem sameInputs_setState (s : Pos) (u : Nat × Option Nat) :
    SameInputs vi (vi.setState s ((vi.stateAt s).withUpdate u)) := by
  have hget (p : Pos) : (vi.setState s ((vi.stateAt s).withUpdate u)).stateAt p = vi.stateAt p ∨
      (vi.setState s ((vi.stateAt s).withUpdate u)).stateAt p = (vi.stateAt p).withUpdate u := by
    have h := Grid.getFlat_setFlat vi.states (vi.states.dims.flat s) (vi.states.dims.flat p)
      ((vi.stateAt s).withUpdate u)
    by_cases hi : (vi.states.dims.flat s).toNat = (vi.states.dims.flat p).toNat ∧
        (vi.states.dims.flat p).toNat < vi.states.cells.length
    · have hsame : vi.stateAt p = vi.stateAt s := by
        simp only [stateAt, Grid.get, Grid.getFlat, hi.1]
      rw [hsame]
      exact Or.inr (h.trans (if_pos hi))
    · exact Or.inl (h.trans (if_neg hi))
  refine ⟨rfl, rfl, fun p => ?_, fun p => ?_, fun p => ?_⟩ <;>
    rcases hget p with h | h <;> rw [h] <;> rfl

/-- Values and actions replaced everywhere. -/
def withField (vi : ValueIterator) (u : Pos → Nat × Option Nat) : ValueIterator :=
  ⟨Grid.ofFn vi.dims fun p => (vi.stateAt p).withUpdate (u p), vi.actions, vi.wellFormed⟩

theorem stateAt_withField_of_contains (u : Pos → Nat × Option Nat) {p : Pos}
    (hp : vi.dims.Contains p) : (vi.withField u).stateAt p = (vi.stateAt p).withUpdate (u p) :=
  Grid.get_ofFn _ hp

theorem stateAt_withField (u : Pos → Nat × Option Nat) (p : Pos) :
    ∃ w, (vi.withField u).stateAt p = (vi.stateAt p).withUpdate w ∨
      (vi.withField u).stateAt p = vi.stateAt p := by
  let d := vi.dims
  by_cases hi : (d.flat p).toNat < d.count
  · obtain ⟨_, hflat⟩ := Dims.unflat_spec hi
    have hsame : vi.stateAt (d.unflat (d.flat p).toNat) = vi.stateAt p := by
      have heq : (vi.states.dims.flat (d.unflat (d.flat p).toNat)).toNat =
          (vi.states.dims.flat p).toNat := hflat
      simp only [stateAt, Grid.get, Grid.getFlat, heq]
    refine ⟨u (d.unflat (d.flat p).toNat), Or.inl ?_⟩
    rw [← hsame]
    have hlt : (vi.dims.flat p).toNat < vi.dims.count := hi
    simp only [stateAt, withField, Grid.get, Grid.getFlat, Grid.ofFn, List.getD_eq_getElem?_getD,
      List.getElem?_map, List.getElem?_range hlt, Option.map_some, Option.getD_some]
    rfl
  · refine ⟨(0, none), Or.inr ?_⟩
    have hlt : ¬ (vi.dims.flat p).toNat < vi.dims.count := hi
    have hcells : vi.states.cells.length = vi.dims.count := vi.states.size
    have hflat : vi.states.dims.flat p = vi.dims.flat p := rfl
    simp only [stateAt, withField, Grid.get, Grid.getFlat, Grid.ofFn, List.getD_eq_getElem?_getD,
      hflat]
    rw [List.getElem?_eq_none (by rw [List.length_map, List.length_range]; omega),
      List.getElem?_eq_none (by omega)]

theorem withField_sameInputs (u : Pos → Nat × Option Nat) : SameInputs vi (vi.withField u) := by
  refine ⟨rfl, rfl, fun p => ?_, fun p => ?_, fun p => ?_⟩ <;>
    obtain ⟨w, h | h⟩ := @stateAt_withField vi u p <;> rw [h] <;> rfl

theorem valueIterationRaw_sameInputs (s : Pos) : SameInputs vi (vi.valueIterationRaw s).1 := by
  unfold valueIterationRaw
  split
  · exact SameInputs.refl vi
  · exact sameInputs_setState s _

theorem valueIterationRaw_of_not_evaluable {s : Pos} (hs : vi.dims.Contains s)
    (h : vi.world.evaluable s = false) : vi.valueIterationRaw s = (vi, 0) := by
  simp only [valueIterationRaw, minActionCost_of_not_evaluable hs h]

/-- On an evaluated state the update writes the raw backup and reports `|Δ|`. -/
theorem valueIterationRaw_of_evaluable {s : Pos} (h : vi.world.evaluable s = true) :
    vi.valueIterationRaw s =
      (vi.setState s ((vi.stateAt s).withUpdate (vi.world.backup vi.world.rawCost vi.costs s)),
        (((vi.world.backup vi.world.rawCost vi.costs s).1 : Int) - (vi.costs s : Int)).natAbs) := by
  simp only [valueIterationRaw, minActionCost_of_evaluable h, costs]

/-- Finals at zero, everything else at `MAX_COST`. -/
def Blank (vi : ValueIterator) : Prop :=
  ∀ p, vi.dims.Contains p → vi.costs p = if (vi.stateAt p).finalState then 0 else maxCost

theorem Blank.evaluable (h : vi.Blank) {s : Pos} (hs : vi.world.evaluable s = true) :
    vi.costs s = maxCost := by
  obtain ⟨hcon, _, hfin⟩ := evaluable_iff.mp hs
  rw [h s hcon, hfin]
  rfl

theorem Blank.operator_le (h : vi.Blank) {cost : World.Cost Pos} (V : Pos → Nat) :
    vi.world.operator cost vi.costs V ≤ vi.costs :=
  World.operator_le (fun _ hs => h.evaluable hs) V

theorem Blank.le_maxCost (h : vi.Blank) {p : Pos} (hp : vi.dims.Contains p) :
    vi.costs p ≤ maxCost := by
  rw [h p hp]
  split
  · exact Nat.zero_le _
  · exact le_refl _

end ValueIterator

/-- A free cell before the solve, with the base penalty. -/
def freeState : State := ⟨maxCost, probBase, 0, true, false, none⟩

/-- A goal cell with penalty `pen`. -/
def goalState (pen : Nat) : State := ⟨0, pen, 0, true, true, none⟩

/-- An action with one heading and one certain outcome. -/
def stepAction (dix diy : Int) : Action := ⟨[[⟨dix, diy, 0, probBase⟩]]⟩

/-- A cell that is not free. -/
def wallState : State := ⟨maxCost, probBase, 0, false, false, none⟩

/-- Two cells; the only action leads to the goal. -/
def besideGoal : ValueIterator :=
  ⟨⟨⟨2, 1, 1⟩, [goalState probBase, freeState], rfl⟩, [stepAction (-1) 0], by decide⟩

/-- Forward, sometimes with another heading; from the other heading only half of the way. -/
def slipAction : Action :=
  ⟨[[⟨1, 0, 0, 3 * (probBase / 4)⟩, ⟨1, 0, 1, probBase / 4⟩],
    [⟨1, 0, 1, probBase / 2⟩, ⟨0, 0, 0, probBase / 2⟩]]⟩

def backAction : Action := ⟨[[⟨-1, 0, 1, probBase⟩], [⟨-1, 0, 1, probBase⟩]]⟩

/-- A free cell that is costly to enter. -/
def roughState : State := { freeState with penalty := 9 * probBase }

/-- Two goals with five free cells between them, the first of them rough, and two headings. The
third cell is reached over the rough one first and for less from the other side later. A cell
behind a wall leads nowhere. -/
def slipRow : ValueIterator :=
  ⟨⟨⟨9, 1, 2⟩, [goalState probBase, goalState probBase, roughState, roughState, freeState,
      freeState, freeState, freeState, freeState, freeState, freeState, freeState,
      goalState probBase, goalState probBase, wallState, wallState, freeState, freeState], rfl⟩,
    [slipAction, backAction], by decide⟩

/-- The values of the row, cell by cell. -/
def slipRowValues : List Nat :=
  [0, 0, 262144, 262144, 1176064, 1381632, 864256, 1062912, 557056, 737280, 262144, 393216, 0, 0,
    maxCost, maxCost, maxCost, maxCost]

theorem slipRow_blank : slipRow.Blank := by
  have hall : ∀ p ∈ slipRow.dims.all, slipRow.costs p =
      if (slipRow.stateAt p).finalState then 0 else maxCost := by decide +kernel
  intro p hp
  exact hall p (Dims.mem_all.mpr hp)

end ValueIteration
