import Mathlib.Algebra.BigOperators.Group.List.Basic
import Mathlib.Algebra.Order.BigOperators.Group.List
import Mathlib.Algebra.Order.Ring.Nat
import Mathlib.Tactic.GCongr
import ValueIteration.Lib.Argmin
import ValueIteration.Lib.GreatestFixed
import ValueIteration.Params

/-!
# The decision problem behind the solvers

A world over an arbitrary index type: which states are evaluated, the actions of
each state (`none` when an outcome is off the map or occupied) with their weighted
outcomes, and the penalty charged on entering a state. The solvers differ only in
the cost they give an action, so the backup takes the cost function as a parameter.
-/

set_option autoImplicit false

namespace ValueIteration

structure World (ι : Type) where
  evaluable : ι → Bool
  choices : ι → List (Option (List (ι × Nat)))
  pen : ι → Nat

namespace World

variable {ι : Type} (w : World ι)

/-- `t` is a possible outcome of a legal action of `s`. -/
def Reads (s t : ι) : Prop := ∃ row, some row ∈ w.choices s ∧ ∃ p, (t, p) ∈ row

def weight (V : ι → Nat) (row : List (ι × Nat)) : Nat :=
  (row.map fun o => (V o.1 + w.pen o.1) * o.2).sum

/-- The machine cost: the weighted sum wraps modulo `2 ^ 64` before the shift. -/
def rawCost (V : ι → Nat) : Option (List (ι × Nat)) → Nat
  | none => maxCost
  | some row => w.weight V row % word / probBase

/-- The machine cost, clamped to `MAX_COST` while an outcome is unreached. -/
def clampedCost (V : ι → Nat) : Option (List (ι × Nat)) → Nat
  | none => maxCost
  | some row => if row.any fun o => V o.1 == maxCost then maxCost
      else w.weight V row % word / probBase

/-- The cost in unbounded arithmetic, with `MAX_COST` an ordinary number. -/
def exactCost (V : ι → Nat) : Option (List (ι × Nat)) → Nat
  | none => maxCost
  | some row => w.weight V row / probBase

/-- The clamped cost in unbounded arithmetic. -/
def clampedExactCost (V : ι → Nat) : Option (List (ι × Nat)) → Nat
  | none => maxCost
  | some row => if row.any fun o => decide (maxCost ≤ V o.1) then maxCost
      else w.weight V row / probBase

abbrev Cost (ι : Type) := (ι → Nat) → Option (List (ι × Nat)) → Nat

/-- Value and first minimising action of one update. -/
def backup (cost : Cost ι) (V : ι → Nat) (s : ι) : Nat × Option Nat :=
  Argmin.argminBelow maxCost ((w.choices s).map (cost V))

/-- The update as an operator on fields; other states keep the start's value. -/
def operator (cost : Cost ι) (B V : ι → Nat) (s : ι) : Nat :=
  if w.evaluable s then (w.backup cost V s).1 else B s

/-- A cost that looks at the field only through the outcomes of its row. -/
def LocalCost (cost : Cost ι) : Prop :=
  ∀ (U V : ι → Nat) (c : Option (List (ι × Nat))),
    (∀ row, c = some row → ∀ o ∈ row, U o.1 = V o.1) → cost U c = cost V c

variable {w}

theorem weight_congr {U V : ι → Nat} {row : List (ι × Nat)} (h : ∀ o ∈ row, U o.1 = V o.1) :
    w.weight U row = w.weight V row := by
  unfold weight
  refine congrArg List.sum (List.map_congr_left ?_)
  intro o ho
  rw [h o ho]

theorem any_max_congr {U V : ι → Nat} {row : List (ι × Nat)} (h : ∀ o ∈ row, U o.1 = V o.1) :
    (row.any fun o => U o.1 == maxCost) = row.any fun o => V o.1 == maxCost := by
  rw [Bool.eq_iff_iff]
  simp only [List.any_eq_true]
  constructor
  · rintro ⟨o, ho, hm⟩
    exact ⟨o, ho, by rwa [← h o ho]⟩
  · rintro ⟨o, ho, hm⟩
    exact ⟨o, ho, by rwa [h o ho]⟩

theorem rawCost_local : LocalCost (rawCost w) := by
  intro U V c h
  cases c with
  | none => rfl
  | some row => simp only [rawCost, weight_congr (h row rfl)]

theorem exactCost_local : LocalCost (exactCost w) := by
  intro U V c h
  cases c with
  | none => rfl
  | some row => simp only [exactCost, weight_congr (h row rfl)]

theorem clampedCost_local : LocalCost (clampedCost w) := by
  intro U V c h
  cases c with
  | none => rfl
  | some row => simp only [clampedCost, weight_congr (h row rfl), any_max_congr (h row rfl)]

theorem backup_congr {cost : Cost ι} (hc : LocalCost cost) {U V : ι → Nat} {s : ι}
    (h : ∀ t, w.Reads s t → U t = V t) : w.backup cost U s = w.backup cost V s := by
  unfold backup
  refine congrArg (Argmin.argminBelow maxCost) (List.map_congr_left ?_)
  intro c hcs
  refine hc U V c ?_
  rintro row rfl ⟨t, p⟩ ho
  exact h t ⟨row, hcs, p, ho⟩

theorem backup_le (cost : Cost ι) (V : ι → Nat) (s : ι) : (w.backup cost V s).1 ≤ maxCost :=
  Argmin.argminBelow_le _ _

theorem weight_mono {U V : ι → Nat} {row : List (ι × Nat)} (h : ∀ o ∈ row, U o.1 ≤ V o.1) :
    w.weight U row ≤ w.weight V row := by
  unfold weight
  refine List.sum_le_sum ?_
  intro o ho
  have hle := h o ho
  gcongr

theorem backup_mono {cost cost' : Cost ι} {U V : ι → Nat} (s : ι)
    (h : ∀ c ∈ w.choices s, cost U c ≤ cost' V c) :
    (w.backup cost U s).1 ≤ (w.backup cost' V s).1 :=
  Argmin.argminBelow_map_mono _ h

theorem rawCost_le_exactCost (V : ι → Nat) (c : Option (List (ι × Nat))) :
    w.rawCost V c ≤ w.exactCost V c := by
  cases c with
  | none => exact le_refl _
  | some row => exact Nat.div_le_div_right (Nat.mod_le _ _)

theorem exactCost_mono_on {U V : ι → Nat} {c : Option (List (ι × Nat))}
    (h : ∀ row, c = some row → ∀ o ∈ row, U o.1 ≤ V o.1) : w.exactCost U c ≤ w.exactCost V c := by
  cases c with
  | none => exact le_refl _
  | some row => exact Nat.div_le_div_right (weight_mono (h row rfl))

theorem exactCost_mono {U V : ι → Nat} (h : U ≤ V) (c : Option (List (ι × Nat))) :
    w.exactCost U c ≤ w.exactCost V c :=
  exactCost_mono_on fun _ _ o _ => h o.1

theorem operator_exact_mono (B : ι → Nat) : Monotone (w.operator w.exactCost B) := by
  intro U V h s
  unfold operator
  split
  · exact backup_mono s fun c _ => exactCost_mono h c
  · exact le_refl _

/-- A start that holds `MAX_COST` on every evaluated state is never exceeded. -/
theorem operator_le {cost : Cost ι} {B : ι → Nat} (hB : ∀ s, w.evaluable s → B s = maxCost)
    (V : ι → Nat) : w.operator cost B V ≤ B := by
  intro s
  unfold operator
  split
  · next h => rw [hB s h]; exact backup_le _ _ _
  · exact le_refl _

end World

end ValueIteration
