import ValueIteration.Solvers.Padded

/-!
# What a cell evaluation computes

A cell model stands for the map when its words decode to values and a neighbour is
weighed as its value plus its penalty. Then an evaluated heading ends at a value the
clamped update can return when each outcome is read before or after the round, and
the moves of a cell are the headings whose value changed.
-/

set_option autoImplicit false

namespace ValueIteration

open Async ValueIterator

/-- A value that its word stands for. -/
def CellModel.Fits (m : CellModel) (vi : ValueIterator) (p : Pos) (v : Nat) : Prop :=
  m.before (vi.padIdx p) (m.after (vi.padIdx p) v) = v

/-- A cell model that stands for the map as long as words are `Proper`. -/
structure CellModel.Models (m : CellModel) (vi : ValueIterator) (Proper : Int → Nat → Prop) :
    Prop where
  skip_eq : ∀ p, vi.dims.Contains p → m.skip (vi.padIdx p) = !vi.world.evaluable p
  hidden : ∀ p, OnPad vi p → ¬ (vi.dims.Contains p ∧ (vi.stateAt p).free = true) →
    m.blocked (vi.padIdx p) = true ∨
      ∀ h, Proper (vi.padIdx p) h → m.weigh (vi.padIdx p) h = none
  visible : ∀ p, vi.dims.Contains p → (vi.stateAt p).free = true →
    m.blocked (vi.padIdx p) = false
  weigh_eq : ∀ p, vi.dims.Contains p → (vi.stateAt p).free = true →
    ∀ h, Proper (vi.padIdx p) h →
      (m.weigh (vi.padIdx p) h = none ∧ m.before (vi.padIdx p) h = maxCost) ∨
        ∃ x, m.weigh (vi.padIdx p) h = some x ∧ m.before (vi.padIdx p) h ≠ maxCost ∧
          x % word = (m.before (vi.padIdx p) h + vi.world.pen p) % word
  after_injective : ∀ p, vi.dims.Contains p → ∀ v v', v < word → v' < word →
    m.after (vi.padIdx p) v = m.after (vi.padIdx p) v' → v = v'

namespace CellModel

section Costs
variable {m : CellModel} {vi : ValueIterator} {Proper : Int → Nat → Prop}
  {P : Int → Nat → Prop} {Q : Pos → Nat → Prop} {fin : Int → Nat}

theorem actionCost_readOnly (col : Int) (row : List (Int × Nat)) : ∀ cost,
    (m.actionCost col row cost).ReadOnly := by
  induction row with
  | nil => intro cost; trivial
  | cons bucket rest ih =>
    intro cost
    unfold actionCost
    simp only
    split
    · trivial
    · intro h
      simp only
      split
      · trivial
      · exact ih _

theorem minCost_readOnly (ps : List (Prog Int Nat Nat)) : (∀ p ∈ ps, p.ReadOnly) →
    ∀ best, (minCost ps best).ReadOnly := by
  induction ps with
  | nil => intro _ best; trivial
  | cons p ps ih =>
    intro h best
    exact Prog.readOnly_bind (h p List.mem_cons_self) fun c =>
      ih (fun q hq => h q (List.mem_cons_of_mem _ hq)) _

theorem thetaCost_readOnly (precomp : List (List (List (Int × Nat)))) (col : Int) (it : Nat) :
    (m.thetaCost precomp col it).ReadOnly := by
  refine minCost_readOnly _ ?_ _
  intro p hp
  obtain ⟨row, _, rfl⟩ := List.mem_map.mp hp
  exact actionCost_readOnly _ _ _

/-- The costs the running minimum ran over. -/
theorem minCost_keeps {β : Type} {f : β → Prog Int Nat Nat} {R : β → Nat → Prop} (xs : List β) :
    (∀ x ∈ xs, (f x).Keeps fin P (R x)) → ∀ best, (minCost (xs.map f) best).Keeps fin P fun r =>
      ∃ cs, List.Forall₂ R xs cs ∧
        r = cs.foldl (fun best c => if c < best then c else best) best := by
  induction xs with
  | nil => intro _ best; exact ⟨[], .nil, rfl⟩
  | cons x xs ih =>
    intro h best
    rw [List.map_cons, minCost, Prog.keeps_bind]
    refine (h x List.mem_cons_self).mono ?_
    intro c hc
    refine (ih (fun y hy => h y (List.mem_cons_of_mem _ hy)) _).mono ?_
    rintro r ⟨cs, hcs, rfl⟩
    exact ⟨c :: cs, .cons hc hcs, rfl⟩

theorem actionCost_value (col : Int) (row : List (Int × Nat)) : ∀ cost, cost < word →
    (m.actionCost col row cost).Keeps fin P CostValue := by
  induction row with
  | nil =>
    intro cost hcost
    right
    rw [shiftRight_probBaseBit]
    exact div_probBase_lt hcost
  | cons bucket rest ih =>
    intro cost _
    unfold actionCost
    simp only
    split
    · exact Or.inl rfl
    · intro h _
      simp only
      split
      · exact Or.inl rfl
      · exact ih _ (wrappingAdd_lt _ _)

theorem thetaCost_value (precomp : List (List (List (Int × Nat)))) (col : Int) (it : Nat) :
    (m.thetaCost precomp col it).Keeps fin P CostValue := by
  refine (minCost_keeps (R := fun _ => CostValue) _
    (fun row _ => actionCost_value col row 0 (by decide)) maxCost).mono ?_
  rintro r ⟨cs, hcs, rfl⟩
  rw [← Argmin.scan_fst cs 0 (maxCost, none)]
  rcases Argmin.argminBelow_fst_mem maxCost cs with h | h
  · exact Or.inl h
  · obtain ⟨_, _, hval⟩ := exists_left_of_forall₂ hcs h
    exact hval

/-- Whether an outcome is on the map and free. -/
def legal (vi : ValueIterator) (s : Pos) (tr : StateTransition) : Bool :=
  vi.inMapArea (s.ix + tr.dix) (s.iy + tr.diy) && (vi.stateAt (vi.outcomePos s tr)).free

theorem legal_iff {a : Action} (ha : a ∈ vi.actions) {s : Pos} (hs : vi.dims.Contains s)
    {tr : StateTransition} (htr : tr ∈ a.row s.it) : legal vi s tr = true ↔
      vi.dims.Contains (vi.outcomePos s tr) ∧ (vi.stateAt (vi.outcomePos s tr)).free = true := by
  rw [legal, Bool.and_eq_true]
  constructor
  · rintro ⟨hin, hfree⟩
    exact ⟨outcomePos_contains hs ha htr hin, hfree⟩
  · rintro ⟨⟨⟨hx0, hx⟩, ⟨hy0, hy⟩, _⟩, hfree⟩
    exact ⟨inMapArea_iff.mpr ⟨hx0, hx, hy0, hy⟩, hfree⟩

/-- Accumulation along the rest of a row, from the words of a proper memory. -/
theorem actionCost_keeps_from (hm : m.Models vi Proper) (hP : ∀ i h, P i h → Proper i h)
    (hQ : ∀ t, vi.dims.Contains t → (vi.stateAt t).free = true → ∀ h, P (vi.padIdx t) h →
      Q t (m.before (vi.padIdx t) h)) {a : Action} (ha : a ∈ vi.actions) {s : Pos}
    (hs : vi.dims.Contains s) (trs : List StateTransition) : (∀ tr ∈ trs, tr ∈ a.row s.it) →
    ∀ cost, cost < word →
      (m.actionCost (vi.padCol s.ix s.iy) (trs.map fun tr => (vi.padOffset tr, tr.prob))
        cost).Keeps fin P fun r => if trs.all (legal vi s)
          then vi.world.RowCost Q (trs.map fun tr => (vi.outcomePos s tr, tr.prob)) cost r
          else r = maxCost := by
  induction trs with
  | nil =>
    intro _ cost _
    exact shiftRight_probBaseBit cost
  | cons tr trs ih =>
    intro htrs cost hcost
    have htr := htrs tr List.mem_cons_self
    have hleg := legal_iff ha hs htr
    have hrest := ih fun t ht => htrs t (List.mem_cons_of_mem _ ht)
    simp only [List.map_cons, actionCost, padCol_add_padOffset]
    by_cases hok : legal vi s tr = true
    · obtain ⟨hcon, hfree⟩ := hleg.mp hok
      rw [hm.visible _ hcon hfree]
      intro h hPh
      have hq := hQ _ hcon hfree h hPh
      simp only [List.all_cons, hok, Bool.true_and]
      rcases hm.weigh_eq _ hcon hfree h (hP _ _ hPh) with ⟨hw, hmax⟩ | ⟨x, hw, hne, hx⟩
      · rw [hw]
        simp only [Prog.Keeps]
        split
        · refine ⟨_, hq, ?_⟩
          rw [if_pos hmax]
        · trivial
      · rw [hw]
        simp only
        have hacc : wrappingAdd cost (wrappingMul x tr.prob) =
            (cost + (m.before (vi.padIdx (vi.outcomePos s tr)) h +
              vi.world.pen (vi.outcomePos s tr)) * tr.prob) % word := by
          have hmul : x * tr.prob % word = (m.before (vi.padIdx (vi.outcomePos s tr)) h +
              vi.world.pen (vi.outcomePos s tr)) * tr.prob % word := by
            rw [Nat.mul_mod, hx, ← Nat.mul_mod]
          rw [wrappingAdd, wrappingMul, Nat.add_mod_mod, Nat.add_mod, hmul, ← Nat.add_mod]
        rw [hacc]
        refine (hrest _ (Nat.mod_lt _ (by decide))).mono ?_
        intro r hr
        split
        · next hall =>
          rw [if_pos hall] at hr
          exact ⟨_, hq, by rwa [if_neg hne]⟩
        · next hall => rwa [if_neg hall] at hr
    · have hpad := outcome_onPad ha hs htr
      rw [Bool.not_eq_true] at hok
      simp only [List.all_cons, hok, Bool.false_and, Bool.false_eq_true, if_false]
      rcases hm.hidden _ hpad (fun h => by rw [hleg.mpr h] at hok; cases hok) with hb | hw
      · rw [if_pos hb]
        rfl
      · split
        · rfl
        · intro h hPh
          simp only [hw h (hP _ _ hPh)]
          rfl

/-- The cost of an action on a proper memory. -/
theorem actionCost_keeps (hm : m.Models vi Proper) (hP : ∀ i h, P i h → Proper i h)
    (hQ : ∀ t, vi.dims.Contains t → (vi.stateAt t).free = true → ∀ h, P (vi.padIdx t) h →
      Q t (m.before (vi.padIdx t) h)) {a : Action} (ha : a ∈ vi.actions) {s : Pos}
    (hs : vi.dims.Contains s) :
    (m.actionCost (vi.padCol s.ix s.iy) ((a.row s.it).map fun tr => (vi.padOffset tr, tr.prob))
      0).Keeps fin P (vi.world.ChoiceCost Q (vi.legalRow s a)) := by
  refine (actionCost_keeps_from hm hP hQ ha hs _ (fun _ h => h) 0 (by decide)).mono ?_
  intro r hr
  unfold legalRow
  split
  · next hall =>
    have hall' : (a.row s.it).all (legal vi s) = true := hall
    rw [if_pos hall'] at hr
    exact hr
  · next hall =>
    have hall' : ¬ (a.row s.it).all (legal vi s) = true := hall
    rw [if_neg hall'] at hr
    exact hr

/-- The minimum over the actions is a value the update may return. -/
theorem thetaCost_keeps (fin : Int → Nat) (hm : m.Models vi Proper) (hP : ∀ i h, P i h → Proper i h)
    (hQ : ∀ t, vi.dims.Contains t → (vi.stateAt t).free = true → ∀ h, P (vi.padIdx t) h →
      Q t (m.before (vi.padIdx t) h)) {s : Pos} (hs : vi.dims.Contains s) :
    (m.thetaCost vi.buildPrecomp (vi.padCol s.ix s.iy) s.it.toNat).Keeps fin P fun v =>
      ∃ r, vi.world.Backs Q s r ∧ r.1 = v := by
  rw [thetaCost, rows_buildPrecomp hs, List.map_map]
  refine (minCost_keeps (R := fun a => vi.world.ChoiceCost Q (vi.legalRow s a)) vi.actions
    (fun a ha => actionCost_keeps hm hP hQ ha hs) maxCost).mono ?_
  rintro r ⟨cs, hcs, rfl⟩
  refine ⟨Argmin.argminBelow maxCost cs, ⟨cs, ?_, rfl⟩, Argmin.scan_fst cs 0 _⟩
  exact List.forall₂_map_left_iff.mpr hcs

/-- On a memory that stands still the policy pass computes the clamped update. -/
theorem argmin_eq (hm : m.Models vi Proper) {mem : Int → Nat} (hmem : ∀ i, Proper i (mem i))
    {V : Pos → Nat} (hV : ∀ t, vi.dims.Contains t → V t = m.before (vi.padIdx t) (mem (vi.padIdx t)))
    {s : Pos} (hs : vi.dims.Contains s) :
    m.argmin vi.buildPrecomp mem (vi.padCol s.ix s.iy) s.it.toNat =
      vi.world.backup vi.world.clampedCost V s := by
  have hcost : ∀ a ∈ vi.actions, vi.world.ChoiceCost (fun t v => v = V t) (vi.legalRow s a)
      ((m.actionCost (vi.padCol s.ix s.iy)
        ((a.row s.it).map fun tr => (vi.padOffset tr, tr.prob)) 0).peek mem) := by
    intro a ha
    have hkeeps : (m.actionCost (vi.padCol s.ix s.iy)
        ((a.row s.it).map fun tr => (vi.padOffset tr, tr.prob)) 0).Keeps mem (fun i h => h = mem i)
        (vi.world.ChoiceCost (fun t v => v = V t) (vi.legalRow s a)) := by
      refine actionCost_keeps hm ?_ ?_ ha hs
      · rintro i h rfl
        exact hmem i
      · rintro t ht _ h rfl
        exact (hV t ht).symm
    exact hkeeps.peek (fun _ => rfl) (actionCost_readOnly _ _ _)
  refine World.Backs.eq (Q := fun t v => v = V t) (fun t _ v hv => hv) ⟨_, ?_, rfl⟩
  rw [rows_buildPrecomp hs, List.map_map]
  refine List.forall₂_map_left_iff.mpr (List.forall₂_map_right_iff.mpr ?_)
  exact List.forall₂_same.mpr hcost

end Costs

end CellModel

end ValueIteration
