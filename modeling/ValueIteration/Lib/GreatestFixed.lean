import Mathlib.Order.ConditionallyCompleteLattice.Basic
import Mathlib.Order.Lattice.Nat
import Mathlib.Order.Bounds.Basic

/-!
# Greatest fixed points below a start

`T` is a monotone operator on value fields `ι → ℕ` and `B` a start that `T` does
not exceed. The greatest post-fixed point below `B` is then a fixed point, it
bounds every chaotic descent from below, and a field that descended from `B`
and no longer moves is exactly it.
-/

set_option autoImplicit false

namespace GreatestFixed

variable {ι : Type}

/-- A field below `B` that the operator does not lower. -/
def PostFixed (T : (ι → ℕ) → ι → ℕ) (B U : ι → ℕ) : Prop := U ≤ B ∧ U ≤ T U

/-- The pointwise supremum of the post-fixed fields below `B`. -/
noncomputable def greatest (T : (ι → ℕ) → ι → ℕ) (B : ι → ℕ) : ι → ℕ :=
  fun s => sSup {n | ∃ U, PostFixed T B U ∧ U s = n}

variable {T : (ι → ℕ) → ι → ℕ} {B : ι → ℕ}

theorem bddAbove_values (T : (ι → ℕ) → ι → ℕ) (B : ι → ℕ) (s : ι) :
    BddAbove {n | ∃ U, PostFixed T B U ∧ U s = n} := by
  refine ⟨B s, ?_⟩
  rintro n ⟨U, hU, rfl⟩
  exact hU.1 s

theorem le_greatest {U : ι → ℕ} (hU : PostFixed T B U) : U ≤ greatest T B := by
  intro s
  exact le_csSup (bddAbove_values T B s) ⟨U, hU, rfl⟩

theorem greatest_le {V : ι → ℕ} (hV : ∀ U, PostFixed T B U → U ≤ V) : greatest T B ≤ V := by
  intro s
  rcases Set.eq_empty_or_nonempty {n | ∃ U, PostFixed T B U ∧ U s = n} with h | h
  · rw [greatest, h]
    simp
  · apply csSup_le h
    rintro n ⟨U, hU, rfl⟩
    exact hV U hU s

theorem greatest_le_start : greatest T B ≤ B := greatest_le fun _ hU => hU.1

theorem greatest_postFixed (mono : Monotone T) : PostFixed T B (greatest T B) := by
  refine ⟨greatest_le_start, greatest_le ?_⟩
  intro U hU
  exact hU.2.trans (mono (le_greatest hU))

theorem greatest_isFixed (mono : Monotone T) (below : ∀ V, V ≤ B → T V ≤ B) :
    T (greatest T B) = greatest T B := by
  have hpost := greatest_postFixed (T := T) (B := B) mono
  apply le_antisymm
  · exact le_greatest ⟨below _ hpost.1, mono hpost.2⟩
  · exact hpost.2

/-- One evaluation from reads above the greatest fixed point stays above it. -/
theorem greatest_le_eval (mono : Monotone T) {R : ι → ℕ} (hR : greatest T B ≤ R) :
    greatest T B ≤ T R :=
  (greatest_postFixed mono).2.trans (mono hR)

/-- A descended field that the operator does not lower is the greatest fixed point. -/
theorem eq_greatest {W : ι → ℕ} (hW : PostFixed T B W) (hlow : greatest T B ≤ W) :
    W = greatest T B :=
  le_antisymm (le_greatest hW) hlow

theorem isGreatest_fixed (mono : Monotone T) (below : ∀ V, V ≤ B → T V ≤ B) :
    IsGreatest {U | T U = U ∧ U ≤ B} (greatest T B) := by
  refine ⟨⟨greatest_isFixed mono below, greatest_le_start⟩, ?_⟩
  rintro U ⟨hfix, hU⟩
  exact le_greatest ⟨hU, hfix.ge⟩

end GreatestFixed
