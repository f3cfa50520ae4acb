import Mathlib.Data.Set.Basic
import ValueIteration.Lib.GreatestFixed

/-!
# Chaotic rounds of a fixed-point iteration

A round updates an active set of indices from a mixture of the values before and
after it. Two things follow without knowing the mixture. If the next active set holds
every index that reads a moved one, then indices outside it are fixed. If the
operator is monotone and the round stays between a fixed point and the field it
started from, it keeps descending, and where it stops is the greatest fixed point.
-/

set_option autoImplicit false

namespace Chaotic

variable {ι : Type}

/-- A field after a round on the active set `E`, as far as its reads stood still. -/
structure Round (T : (ι → ℕ) → ι → ℕ) (dom : ι → Prop) (reads : ι → ι → Prop) (E : Set ι)
    (V V' : ι → ℕ) : Prop where
  frame : ∀ s, ¬ (dom s ∧ s ∈ E) → V' s = V s
  still : ∀ s, dom s → s ∈ E → (∀ t, reads s t → V' t = V t) → V' s = T V s

/-- Indices outside the active set hold their update. -/
def Covered (T : (ι → ℕ) → ι → ℕ) (dom : ι → Prop) (E : Set ι) (V : ι → ℕ) : Prop :=
  ∀ s, dom s → s ∉ E → V s = T V s

/-- `T` looks at a field only through what an index reads. -/
def Local (T : (ι → ℕ) → ι → ℕ) (dom : ι → Prop) (reads : ι → ι → Prop) : Prop :=
  ∀ U V s, dom s → (∀ t, reads s t → U t = V t) → T U s = T V s

section Coverage
variable {T : (ι → ℕ) → ι → ℕ} {dom : ι → Prop} {reads : ι → ι → Prop} {E E' : Set ι}
  {V V' : ι → ℕ}

theorem Covered.mono (h : Covered T dom E V) (hE : E ⊆ E') : Covered T dom E' V :=
  fun s hs hnot => h s hs fun hmem => hnot (hE hmem)

/-- Step lemma: an active set that holds all readers of what moved covers the field. -/
theorem Covered.round (hlocal : Local T dom reads) (hcov : Covered T dom E V)
    (hround : Round T dom reads E V V')
    (hnext : ∀ s, dom s → ∀ t, reads s t → V' t ≠ V t → s ∈ E') : Covered T dom E' V' := by
  intro s hs hnot
  have hreads : ∀ t, reads s t → V' t = V t := by
    intro t ht
    by_contra hne
    exact hnot (hnext s hs t ht hne)
  rw [hlocal V' V s hs hreads]
  by_cases hE : s ∈ E
  · exact hround.still s hs hE hreads
  · rw [hround.frame s fun h => hE h.2]
    exact hcov s hs hE

end Coverage

/-- A field on its way down to the greatest fixed point below `B`. -/
structure Descending (T : (ι → ℕ) → ι → ℕ) (B V : ι → ℕ) : Prop where
  le_start : V ≤ B
  greatest_le : GreatestFixed.greatest T B ≤ V
  update_le : T V ≤ V

section Descent
variable {T : (ι → ℕ) → ι → ℕ} {B V V' : ι → ℕ}

theorem Descending.start (below : ∀ V, V ≤ B → T V ≤ B) : Descending T B B :=
  ⟨le_refl _, GreatestFixed.greatest_le_start, below B (le_refl _)⟩

/-- Step lemma: indices either stand still or end above the update of the new field. -/
theorem Descending.round (mono : Monotone T) (h : Descending T B V) (hle : V' ≤ V)
    (hlow : GreatestFixed.greatest T B ≤ V') (hstep : ∀ s, V' s = V s ∨ T V' s ≤ V' s) :
    Descending T B V' := by
  refine ⟨hle.trans h.le_start, hlow, ?_⟩
  intro s
  rcases hstep s with heq | hs
  · rw [heq]
    exact (mono hle s).trans (h.update_le s)
  · exact hs

/-- A descending field that no longer moves is the greatest fixed point. -/
theorem Descending.isGreatest (mono : Monotone T) (below : ∀ V, V ≤ B → T V ≤ B)
    (h : Descending T B V) (hfix : V ≤ T V) : IsGreatest {U | T U = U ∧ U ≤ B} V := by
  have heq := GreatestFixed.eq_greatest (T := T) (B := B) ⟨h.le_start, hfix⟩ h.greatest_le
  rw [heq]
  exact GreatestFixed.isGreatest_fixed mono below

end Descent

end Chaotic
