import Mathlib.Data.List.Forall2
import Mathlib.Algebra.BigOperators.Ring.List
import ValueIteration.Bellman
import ValueIteration.Lib.Chaotic

/-!
# The clamped update under mixed reads

A parallel worker may read one outcome before and another after its update, so the
cost it computes belongs to no single field. `Backs` says which values an update can
return when an outcome `t` may be read as any `v` with `Q t v`. If the reads agree
with one field it is the update of that field; if they lie between two fields and no
product wraps, it lies between their updates.
-/

set_option autoImplicit false

namespace ValueIteration

/-- `2 ^ 46`: a smaller value times `PROB_BASE` fits a machine word. -/
def productLimit : Nat := 70368744177664

theorem productLimit_mul_probBase : productLimit * probBase = word := by decide

theorem productLimit_lt_maxCost : productLimit < maxCost := by decide

theorem div_probBase_lt {n : Nat} (h : n < word) : n / probBase < productLimit := by
  rwa [Nat.div_lt_iff_lt_mul probBase_pos, productLimit_mul_probBase]

/-- What an update can return: `MAX_COST` or a shifted machine word. -/
def CostValue (v : Nat) : Prop := v = maxCost ∨ v < productLimit

theorem CostValue.le {v : Nat} (h : CostValue v) : v ≤ maxCost := by
  have := productLimit_lt_maxCost
  rcases h with h | h <;> omega

theorem CostValue.lt_word {v : Nat} (h : CostValue v) : v < word :=
  h.le.trans_lt maxCost_lt_word

theorem exists_right_of_forall₂ {α β : Type} {R : α → β → Prop} {xs : List α} {ys : List β}
    (h : List.Forall₂ R xs ys) {x : α} (hx : x ∈ xs) : ∃ y ∈ ys, R x y := by
  induction h with
  | nil => cases hx
  | @cons a b xs ys hab _ ih =>
    rcases List.mem_cons.mp hx with rfl | hx
    · exact ⟨b, List.mem_cons_self, hab⟩
    · obtain ⟨y, hy, hxy⟩ := ih hx
      exact ⟨y, List.mem_cons_of_mem _ hy, hxy⟩

theorem exists_left_of_forall₂ {α β : Type} {R : α → β → Prop} {xs : List α} {ys : List β}
    (h : List.Forall₂ R xs ys) {y : β} (hy : y ∈ ys) : ∃ x ∈ xs, R x y := by
  induction h with
  | nil => cases hy
  | @cons a b xs ys hab _ ih =>
    rcases List.mem_cons.mp hy with rfl | hy
    · exact ⟨a, List.mem_cons_self, hab⟩
    · obtain ⟨x, hx, hxy⟩ := ih hy
      exact ⟨x, List.mem_cons_of_mem _ hx, hxy⟩

namespace World

variable {ι : Type} (w : World ι)

/-- A cost accumulated along a row whose outcomes are read as `Q` allows. -/
def RowCost (Q : ι → Nat → Prop) : List (ι × Nat) → Nat → Nat → Prop
  | [], acc, r => r = acc / probBase
  | o :: row, acc, r => ∃ v, Q o.1 v ∧
      if v = maxCost then r = maxCost
      else RowCost Q row ((acc + (v + w.pen o.1) * o.2) % word) r

def ChoiceCost (Q : ι → Nat → Prop) : Option (List (ι × Nat)) → Nat → Prop
  | none, r => r = maxCost
  | some row, r => w.RowCost Q row 0 r

/-- A value and action that an update may return under the reads `Q`. -/
def Backs (Q : ι → Nat → Prop) (s : ι) (r : Nat × Option Nat) : Prop :=
  ∃ cs, List.Forall₂ (w.ChoiceCost Q) (w.choices s) cs ∧ r = Argmin.argminBelow maxCost cs

/-- Probabilities of legal rows sum to `PROB_BASE` at most. -/
def Normed : Prop := ∀ s row, some row ∈ w.choices s → (row.map (·.2)).sum ≤ probBase

/-- No product of the value wraps. -/
def InRange (t : ι) (v : Nat) : Prop := v = maxCost ∨ v + w.pen t < productLimit

variable {w} {Q : ι → Nat → Prop}

theorem RowCost.mono {Q' : ι → Nat → Prop} {row : List (ι × Nat)}
    (h : ∀ o ∈ row, ∀ v, Q o.1 v → Q' o.1 v) : ∀ {acc r : Nat},
      w.RowCost Q row acc r → w.RowCost Q' row acc r := by
  induction row with
  | nil => intro acc r hr; exact hr
  | cons o row ih =>
    rintro acc r ⟨v, hv, hr⟩
    refine ⟨v, h o List.mem_cons_self v hv, ?_⟩
    split
    · next hmax => rwa [if_pos hmax] at hr
    · next hmax =>
      rw [if_neg hmax] at hr
      exact ih (fun o' ho' => h o' (List.mem_cons_of_mem _ ho')) hr

/-- Reads of a single field give the clamped cost of that field. -/
theorem RowCost.eq {V : ι → Nat} {row : List (ι × Nat)}
    (h : ∀ o ∈ row, ∀ v, Q o.1 v → v = V o.1) : ∀ {acc r : Nat}, acc < word →
      w.RowCost Q row acc r → r = if row.any fun o => V o.1 == maxCost then maxCost
        else (acc + w.weight V row) % word / probBase := by
  induction row with
  | nil =>
    intro acc r hacc hr
    simp only [List.any_nil, Bool.false_eq_true, if_false, weight, List.map_nil, List.sum_nil,
      Nat.add_zero, Nat.mod_eq_of_lt hacc]
    exact hr
  | cons o row ih =>
    rintro acc r _ ⟨v, hv, hr⟩
    have hvo := h o List.mem_cons_self v hv
    subst hvo
    by_cases hmax : V o.1 = maxCost
    · rw [if_pos hmax] at hr
      simp only [List.any_cons, hmax, beq_self_eq_true, Bool.true_or, if_true, hr]
    · rw [if_neg hmax] at hr
      have hlt : (acc + (V o.1 + w.pen o.1) * o.2) % word < word := Nat.mod_lt _ (by decide)
      rw [ih (fun o' ho' => h o' (List.mem_cons_of_mem _ ho')) hlt hr]
      have hb : (V o.1 == maxCost) = false := beq_false_of_ne hmax
      simp only [List.any_cons, hb, Bool.false_or, weight, List.map_cons, List.sum_cons,
        Nat.mod_add_mod, Nat.add_assoc]

theorem RowCost.le_maxCost {row : List (ι × Nat)} : ∀ {acc r : Nat}, acc < word →
    w.RowCost Q row acc r → r ≤ maxCost := by
  induction row with
  | nil =>
    intro acc r hacc hr
    rw [RowCost] at hr
    exact hr.le.trans ((div_probBase_lt hacc).trans productLimit_lt_maxCost).le
  | cons o row ih =>
    rintro acc r _ ⟨v, _, hr⟩
    split at hr
    · exact hr.le
    · exact ih (Nat.mod_lt _ (by decide)) hr

/-- What a row costs in unbounded arithmetic after `acc`. -/
def exactFrom (w : World ι) (V : ι → Nat) (row : List (ι × Nat)) (acc : Nat) : Nat :=
  if row.any fun o => decide (maxCost ≤ V o.1) then maxCost else (acc + w.weight V row) / probBase

theorem exactFrom_cons_max {V : ι → Nat} {o : ι × Nat} {row : List (ι × Nat)} {acc : Nat}
    (h : maxCost ≤ V o.1) : w.exactFrom V (o :: row) acc = maxCost := by
  simp only [exactFrom, List.any_cons, h, decide_true, Bool.true_or, if_true]

theorem exactFrom_cons {V : ι → Nat} {o : ι × Nat} {row : List (ι × Nat)} {acc : Nat}
    (h : V o.1 < maxCost) : w.exactFrom V (o :: row) acc =
      w.exactFrom V row (acc + (V o.1 + w.pen o.1) * o.2) := by
  have hn : ¬ maxCost ≤ V o.1 := by omega
  simp only [exactFrom, List.any_cons, hn, decide_false, Bool.false_or, weight, List.map_cons,
    List.sum_cons, Nat.add_assoc]

theorem exactFrom_mono_acc {V : ι → Nat} {row : List (ι × Nat)} {a b : Nat} (h : a ≤ b) :
    w.exactFrom V row a ≤ w.exactFrom V row b := by
  unfold exactFrom
  split
  · exact le_refl _
  · exact Nat.div_le_div_right (Nat.add_le_add_right h _)

/-- Reads between two fields, none of which wraps, cost between them. -/
theorem RowCost.bounds {lo hi : ι → Nat} {row : List (ι × Nat)}
    (h : ∀ o ∈ row, ∀ v, Q o.1 v → lo o.1 ≤ v ∧ v ≤ hi o.1 ∧ w.InRange o.1 v) :
    ∀ {acc r : Nat}, acc < word → acc + productLimit * (row.map (·.2)).sum ≤ word →
      w.RowCost Q row acc r →
        min maxCost (w.exactFrom lo row acc) ≤ r ∧ r ≤ w.exactFrom hi row acc := by
  induction row with
  | nil =>
    intro acc r _ _ hr
    have heq : ∀ V, w.exactFrom V [] acc = r := by
      intro V
      simp only [exactFrom, List.any_nil, Bool.false_eq_true, if_false, weight, List.map_nil,
        List.sum_nil, Nat.add_zero]
      exact hr.symm
    rw [heq, heq]
    exact ⟨min_le_right _ _, le_refl _⟩
  | cons o row ih =>
    rintro acc r hacc hsum ⟨v, hv, hr⟩
    obtain ⟨hlo, hhi, hrange⟩ := h o List.mem_cons_self v hv
    by_cases hmax : v = maxCost
    · rw [if_pos hmax] at hr
      rw [hr, exactFrom_cons_max (V := hi) (hmax ▸ hhi)]
      exact ⟨min_le_left _ _, le_refl _⟩
    rw [if_neg hmax] at hr
    have hlim : v + w.pen o.1 < productLimit := hrange.resolve_left hmax
    have hvlt : v < maxCost := by have := productLimit_lt_maxCost; omega
    -- the product fits, so the accumulator did not wrap
    have hprod : acc + (v + w.pen o.1) * o.2 < word ∧
        acc + (v + w.pen o.1) * o.2 + productLimit * (row.map (·.2)).sum ≤ word := by
      rw [List.map_cons, List.sum_cons, Nat.mul_add] at hsum
      have hle : (v + w.pen o.1) * o.2 ≤ productLimit * o.2 := Nat.mul_le_mul_right _ hlim.le
      refine ⟨?_, by omega⟩
      rcases Nat.eq_zero_or_pos o.2 with hz | hpos
      · rw [hz, Nat.mul_zero]
        omega
      · have hstrict : (v + w.pen o.1) * o.2 < productLimit * o.2 :=
          Nat.mul_lt_mul_of_pos_right hlim hpos
        omega
    rw [Nat.mod_eq_of_lt hprod.1] at hr
    obtain ⟨h1, h2⟩ := ih (fun o' ho' => h o' (List.mem_cons_of_mem _ ho')) hprod.1 hprod.2 hr
    constructor
    · rw [exactFrom_cons (by omega)]
      refine le_trans (min_le_min_left _ (exactFrom_mono_acc ?_)) h1
      gcongr
    · by_cases hh : maxCost ≤ hi o.1
      · rw [exactFrom_cons_max hh]
        exact hr.le_maxCost hprod.1
      · rw [exactFrom_cons (by omega)]
        refine h2.trans (exactFrom_mono_acc ?_)
        gcongr

theorem clampedExactCost_some (V : ι → Nat) (row : List (ι × Nat)) :
    w.clampedExactCost V (some row) = w.exactFrom V row 0 := by
  simp only [clampedExactCost, exactFrom, Nat.zero_add]

theorem Backs.mono {Q' : ι → Nat → Prop} {s : ι} {r : Nat × Option Nat}
    (h : ∀ t, w.Reads s t → ∀ v, Q t v → Q' t v) (hr : w.Backs Q s r) : w.Backs Q' s r := by
  obtain ⟨cs, hcs, rfl⟩ := hr
  refine ⟨cs, ?_, rfl⟩
  have hmem : ∀ (xs : List (Option (List (ι × Nat)))) (ys : List Nat),
      (∀ c ∈ xs, c ∈ w.choices s) → List.Forall₂ (w.ChoiceCost Q) xs ys →
        List.Forall₂ (w.ChoiceCost Q') xs ys := by
    intro xs ys hxs hall
    induction hall with
    | nil => exact .nil
    | @cons c x xs ys hcx _ ih =>
      refine .cons ?_ (ih fun d hd => hxs d (List.mem_cons_of_mem _ hd))
      cases c with
      | none => exact hcx
      | some row =>
        refine RowCost.mono ?_ hcx
        rintro ⟨t, p⟩ ho
        exact h t ⟨row, hxs _ List.mem_cons_self, p, ho⟩
  exact hmem _ _ (fun c hc => hc) hcs

/-- Reads of a single field give the clamped update of that field. -/
theorem Backs.eq {V : ι → Nat} {s : ι} {r : Nat × Option Nat}
    (h : ∀ t, w.Reads s t → ∀ v, Q t v → v = V t) (hr : w.Backs Q s r) :
    r = w.backup w.clampedCost V s := by
  obtain ⟨cs, hcs, rfl⟩ := Backs.mono h hr
  refine congrArg (Argmin.argminBelow maxCost) ?_
  clear hr
  generalize w.choices s = xs at hcs
  induction hcs with
  | nil => rfl
  | @cons c x xs ys hcx _ ih =>
    rw [List.map_cons, ← ih]
    refine congrArg (· :: ys) ?_
    cases c with
    | none => exact hcx
    | some row =>
      have heq := RowCost.eq (V := V) (fun o _ v hv => hv) (by decide) hcx
      rw [Nat.zero_add] at heq
      exact heq

/-- Reads between two fields, none of which wraps, update to between their updates. -/
theorem Backs.bounds (hnorm : w.Normed) (lo hi : ι → Nat) {s : ι} {r : Nat × Option Nat}
    (h : ∀ t, w.Reads s t → ∀ v, Q t v → lo t ≤ v ∧ v ≤ hi t ∧ w.InRange t v)
    (hr : w.Backs Q s r) : (w.backup w.clampedExactCost lo s).1 ≤ r.1 ∧
      r.1 ≤ (w.backup w.clampedExactCost hi s).1 := by
  obtain ⟨cs, hcs, rfl⟩ := hr
  have hcost : ∀ c ∈ w.choices s, ∀ x, w.ChoiceCost Q c x →
      min maxCost (w.clampedExactCost lo c) ≤ x ∧ x ≤ w.clampedExactCost hi c := by
    intro c hc x hx
    cases c with
    | none =>
      rw [ChoiceCost] at hx
      rw [hx]
      exact ⟨min_le_left _ _, le_refl _⟩
    | some row =>
      rw [clampedExactCost_some, clampedExactCost_some]
      refine RowCost.bounds ?_ (by decide) ?_ hx
      · rintro ⟨t, p⟩ ho v hv
        exact h t ⟨row, hc, p, ho⟩ v hv
      · rw [Nat.zero_add, ← productLimit_mul_probBase]
        exact Nat.mul_le_mul_left _ (hnorm s row hc)
  constructor
  · refine Argmin.le_argminBelow (backup_le _ _ _) ?_
    intro x hx
    obtain ⟨c, hc, hcx⟩ := exists_left_of_forall₂ hcs hx
    refine le_trans (le_min (backup_le _ _ _) ?_) (hcost c hc x hcx).1
    exact Argmin.argminBelow_le_mem (List.mem_map_of_mem hc)
  · refine Argmin.le_argminBelow (Argmin.argminBelow_le _ _) ?_
    intro d hd
    obtain ⟨c, hc, rfl⟩ := List.mem_map.mp hd
    obtain ⟨x, hx, hcx⟩ := exists_right_of_forall₂ hcs hc
    exact (Argmin.argminBelow_le_mem hx).trans (hcost c hc x hcx).2

theorem clampedExactCost_le_of_le {U V : ι → Nat} {c : Option (List (ι × Nat))}
    (h : ∀ row, c = some row → ∀ o ∈ row, U o.1 ≤ V o.1) :
    min maxCost (w.clampedExactCost U c) ≤ w.clampedExactCost V c := by
  cases c with
  | none => exact min_le_left _ _
  | some row =>
    simp only [clampedExactCost]
    by_cases hV : (row.any fun o => decide (maxCost ≤ V o.1)) = true
    · rw [if_pos hV]
      exact min_le_left _ _
    · have hU : ¬ (row.any fun o => decide (maxCost ≤ U o.1)) = true := by
        intro hU
        obtain ⟨o, ho, hmax⟩ := List.any_eq_true.mp hU
        refine hV (List.any_eq_true.mpr ⟨o, ho, ?_⟩)
        rw [decide_eq_true_eq] at hmax ⊢
        exact hmax.trans (h row rfl o ho)
      rw [if_neg hV, if_neg hU]
      exact (min_le_right _ _).trans (Nat.div_le_div_right (weight_mono (h row rfl)))

theorem operator_clampedExact_mono (B : ι → Nat) :
    Monotone (w.operator w.clampedExactCost B) := by
  intro U V h s
  unfold operator
  split
  · refine Argmin.le_argminBelow (backup_le _ _ _) ?_
    intro d hd
    obtain ⟨c, hc, rfl⟩ := List.mem_map.mp hd
    refine le_trans (le_min (backup_le _ _ _) ?_)
      (clampedExactCost_le_of_le fun _ _ o _ => h o.1)
    exact Argmin.argminBelow_le_mem (List.mem_map_of_mem hc)
  · exact le_refl _

/-- Products that do not wrap cost the same in both arithmetics. -/
theorem clampedCost_eq_exact (hnorm : w.Normed) {V : ι → Nat} {s : ι} {c : Option (List (ι × Nat))}
    (hc : c ∈ w.choices s) (h : ∀ t, w.Reads s t → w.InRange t (V t)) :
    w.clampedCost V c = w.clampedExactCost V c := by
  cases c with
  | none => rfl
  | some row =>
    have hrange : ∀ o ∈ row, w.InRange o.1 (V o.1) := fun o ho => h o.1 ⟨row, hc, o.2, ho⟩
    have hmax : ∀ o ∈ row, maxCost ≤ V o.1 ↔ V o.1 = maxCost := by
      intro o ho
      have hlt := productLimit_lt_maxCost
      rcases hrange o ho with heq | hlim
      · omega
      · omega
    have hany : (row.any fun o => V o.1 == maxCost) =
        row.any fun o => decide (maxCost ≤ V o.1) := by
      rw [Bool.eq_iff_iff]
      simp only [List.any_eq_true, beq_iff_eq, decide_eq_true_eq]
      exact exists_congr fun o => and_congr_right fun ho => (hmax o ho).symm
    simp only [clampedCost, clampedExactCost]
    rw [hany]
    split
    · rfl
    · next hn =>
      have hlim : ∀ o ∈ row, V o.1 + w.pen o.1 < productLimit := by
        intro o ho
        refine (hrange o ho).resolve_left ?_
        intro heq
        exact hn (List.any_eq_true.mpr ⟨o, ho, by simp [heq]⟩)
      have hsum := hnorm s row hc
      have hle : w.weight V row ≤ (productLimit - 1) * probBase := by
        refine le_trans ?_ (Nat.mul_le_mul_left _ hsum)
        rw [← List.sum_map_mul_left]
        refine List.sum_le_sum ?_
        intro o ho
        have := hlim o ho
        exact Nat.mul_le_mul_right _ (by omega)
      have hlt : w.weight V row < word := hle.trans_lt (by decide)
      rw [Nat.mod_eq_of_lt hlt]

/-- A field whose products do not wrap has the same update in both arithmetics. -/
theorem backup_clamped_eq_exact (hnorm : w.Normed) {V : ι → Nat} {s : ι}
    (h : ∀ t, w.Reads s t → w.InRange t (V t)) :
    w.backup w.clampedCost V s = w.backup w.clampedExactCost V s :=
  congrArg (Argmin.argminBelow maxCost)
    (List.map_congr_left fun _ hc => clampedCost_eq_exact hnorm hc h)

/-- Entering any outcome costs at least one unit, so a reached action has an outcome
strictly below its own cost. -/
theorem exists_below_exactCost {V : ι → Nat} {row : List (ι × Nat)}
    (hsum : (row.map (·.2)).sum = probBase) (hpen : ∀ o ∈ row, probBase ≤ w.pen o.1)
    (hlt : w.clampedExactCost V (some row) < maxCost) :
    ∃ o ∈ row, V o.1 < w.clampedExactCost V (some row) := by
  by_contra hnone
  have hge : ∀ o ∈ row, w.clampedExactCost V (some row) ≤ V o.1 := by
    intro o ho
    by_contra hbelow
    exact hnone ⟨o, ho, not_le.mp hbelow⟩
  simp only [clampedExactCost] at hlt hge
  split at hlt
  · exact lt_irrefl _ hlt
  · next hany =>
    rw [if_neg hany] at hge
    have hweight : (w.weight V row / probBase + probBase) * probBase ≤ w.weight V row := by
      calc (w.weight V row / probBase + probBase) * probBase
          = (row.map fun o => (w.weight V row / probBase + probBase) * o.2).sum := by
            rw [List.sum_map_mul_left, hsum]
        _ ≤ w.weight V row :=
            List.sum_le_sum fun o ho =>
              Nat.mul_le_mul_right _ (Nat.add_le_add (hge o ho) (hpen o ho))
    have hdiv := (Nat.le_div_iff_mul_le probBase_pos).mpr hweight
    have := probBase_pos
    omega

theorem RowCost.lt_productLimit {row : List (ι × Nat)}
    (h : ∀ o ∈ row, ∀ v, Q o.1 v → v ≠ maxCost) : ∀ {acc r : Nat}, acc < word →
      w.RowCost Q row acc r → r < productLimit := by
  induction row with
  | nil =>
    intro acc r hacc hr
    rw [RowCost] at hr
    rw [hr]
    exact div_probBase_lt hacc
  | cons o row ih =>
    rintro acc r _ ⟨v, hv, hr⟩
    rw [if_neg (h o List.mem_cons_self v hv)] at hr
    exact ih (fun o' ho' => h o' (List.mem_cons_of_mem _ ho')) (Nat.mod_lt _ (by decide)) hr

theorem RowCost.reads_ne_max {row : List (ι × Nat)} : ∀ {acc r : Nat},
    w.RowCost Q row acc r → r ≠ maxCost → ∀ o ∈ row, ∃ v, Q o.1 v ∧ v ≠ maxCost := by
  induction row with
  | nil =>
    intro acc r _ _ o ho
    cases ho
  | cons o row ih =>
    rintro acc r ⟨v, hv, hr⟩ hne o' ho'
    by_cases hmax : v = maxCost
    · rw [if_pos hmax] at hr
      exact absurd hr hne
    · rw [if_neg hmax] at hr
      rcases List.mem_cons.mp ho' with rfl | ho'
      · exact ⟨v, hv, hmax⟩
      · exact ih hr hne o' ho'

/-- An action all of whose outcomes are reached keeps the update below `MAX_COST`. -/
theorem Backs.lt_of_reached {s : ι} {r : Nat × Option Nat} (hr : w.Backs Q s r)
    {row : List (ι × Nat)} (hrow : some row ∈ w.choices s)
    (h : ∀ o ∈ row, ∀ v, Q o.1 v → v ≠ maxCost) : r.1 < productLimit := by
  obtain ⟨cs, hcs, rfl⟩ := hr
  obtain ⟨x, hx, hcost⟩ := exists_right_of_forall₂ hcs hrow
  exact (Argmin.argminBelow_le_mem hx).trans_lt (RowCost.lt_productLimit h (by decide) hcost)

/-- An update below `MAX_COST` has such an action. -/
theorem Backs.reached {s : ι} {r : Nat × Option Nat} (hr : w.Backs Q s r) (hne : r.1 ≠ maxCost) :
    ∃ row, some row ∈ w.choices s ∧ ∀ o ∈ row, ∃ v, Q o.1 v ∧ v ≠ maxCost := by
  obtain ⟨cs, hcs, rfl⟩ := hr
  rcases Argmin.argminBelow_fst_mem maxCost cs with heq | hmem
  · exact absurd heq hne
  · obtain ⟨c, hc, hcost⟩ := exists_left_of_forall₂ hcs hmem
    cases c with
    | none => exact absurd hcost hne
    | some row => exact ⟨row, hc, RowCost.reads_ne_max hcost hne⟩

theorem clampedCost_value (V : ι → Nat) (c : Option (List (ι × Nat))) :
    CostValue (w.clampedCost V c) := by
  cases c with
  | none => exact Or.inl rfl
  | some row =>
    simp only [clampedCost]
    split
    · exact Or.inl rfl
    · exact Or.inr (div_probBase_lt (Nat.mod_lt _ (by decide)))

theorem backup_clamped_value (V : ι → Nat) (s : ι) :
    CostValue (w.backup w.clampedCost V s).1 := by
  rcases Argmin.argminBelow_fst_mem maxCost ((w.choices s).map (w.clampedCost V)) with h | h
  · exact Or.inl h
  · obtain ⟨c, _, hc⟩ := List.mem_map.mp h
    rw [backup, ← hc]
    exact clampedCost_value V c

/-- A reached state has an action all of whose outcomes are reached. -/
def Supported (w : World ι) (V : ι → Nat) : Prop :=
  ∀ s, w.evaluable s = true → V s ≠ maxCost →
    ∃ row, some row ∈ w.choices s ∧ ∀ o ∈ row, V o.1 ≠ maxCost

/-- So has every reached state of a fixed field. -/
theorem supported_of_fixed {V : ι → Nat}
    (h : ∀ s, w.evaluable s = true → V s = (w.backup w.clampedCost V s).1) : w.Supported V := by
  intro s hs hne
  rw [h s hs, backup] at hne
  rcases Argmin.argminBelow_fst_mem maxCost ((w.choices s).map (w.clampedCost V)) with hm | hm
  · exact absurd hm hne
  · obtain ⟨c, hc, heq⟩ := List.mem_map.mp hm
    rw [← heq] at hne
    cases c with
    | none => exact absurd rfl hne
    | some row =>
      refine ⟨row, hc, ?_⟩
      intro o ho hmax
      have hany : (row.any fun o => V o.1 == maxCost) = true :=
        List.any_eq_true.mpr ⟨o, ho, beq_iff_eq.mpr hmax⟩
      exact hne (if_pos hany)

/-- A field after a round on `E`: every outcome was read before or after the round. -/
structure Mixed (w : World ι) (E : Set ι) (V V' : ι → Nat) : Prop where
  frame : ∀ s, ¬ (w.evaluable s = true ∧ s ∈ E) → V' s = V s
  backs : ∀ s, w.evaluable s = true → s ∈ E →
    ∃ r, w.Backs (fun t v => v = V t ∨ v = V' t) s r ∧ r.1 = V' s

section Rounds
variable {E : Set ι} {V V' : ι → Nat}

theorem operator_local {cost : Cost ι} (hc : LocalCost cost) (B : ι → Nat) :
    Chaotic.Local (w.operator cost B) (fun s => w.evaluable s = true) w.Reads := by
  intro U V s hs h
  simp only [operator, hs, if_true]
  exact congrArg Prod.fst (backup_congr hc h)

theorem Mixed.round (h : w.Mixed E V V') (B : ι → Nat) :
    Chaotic.Round (w.operator w.clampedCost B) (fun s => w.evaluable s = true) w.Reads E V V' where
  frame := h.frame
  still := by
    intro s hs hE hstill
    obtain ⟨r, hr, hval⟩ := h.backs s hs hE
    have heq := hr.eq (V := V) (by
      rintro t ht v (rfl | rfl)
      · rfl
      · exact hstill t ht)
    simp only [operator, hs, if_true]
    rw [← hval, heq]

theorem Mixed.supported (h : w.Mixed E V V') (hsupp : w.Supported V)
    (hkeep : ∀ s t, w.evaluable s = true → w.Reads s t → V t ≠ maxCost → V' t ≠ maxCost) :
    w.Supported V' := by
  intro s hs hne
  by_cases hE : s ∈ E
  · obtain ⟨r, hr, hval⟩ := h.backs s hs hE
    rw [← hval] at hne
    obtain ⟨row, hrow, hreach⟩ := hr.reached hne
    refine ⟨row, hrow, ?_⟩
    rintro ⟨t, p⟩ ho
    obtain ⟨v, hv, hvne⟩ := hreach (t, p) ho
    rcases hv with rfl | rfl
    · exact hkeep s t hs ⟨row, hrow, p, ho⟩ hvne
    · exact hvne
  · rw [h.frame s fun hn => hE hn.2] at hne
    obtain ⟨row, hrow, hreach⟩ := hsupp s hs hne
    exact ⟨row, hrow, fun o ho => hkeep s o.1 hs ⟨row, hrow, o.2, ho⟩ (hreach o ho)⟩

end Rounds

end World

end ValueIteration
