import Mathlib.Data.List.Basic
import Mathlib.Order.Lattice
import ValueIteration.Bitboard
import ValueIteration.ModelWorld

/-!
# Displacement and the states an outcome can influence

`displacement` bounds how far a transition moves, in cells and, cyclically, in
headings. Whoever reads a state lies within that box around it, so dilating a set
of changed states reaches every state whose update may have changed.
-/

set_option autoImplicit false

namespace ValueIteration

/-- `raw.min(nt - raw)` with `raw = (dit - t).rem_euclid(nt)`. -/
def circDistance (nt : Nat) (dit t : Int) : Nat :=
  let raw := (dit - t) % (nt : Int)
  (min raw (nt - raw)).toNat

namespace ValueIterator

variable (vi : ValueIterator)

/-- Every transition of the table with its source heading. -/
def transitions : List (Nat × StateTransition) :=
  vi.actions.flatMap fun a =>
    a.stateTransitions.zipIdx.flatMap fun r => r.1.map fun st => (r.2, st)

/-- `displacement`: `(mx, my, mt)`, the first two at least one. -/
def displacement : Nat × Nat × Nat :=
  let m := vi.transitions.foldl (fun m e =>
    (max m.1 e.2.dix.natAbs, max m.2.1 e.2.diy.natAbs,
      max m.2.2 (circDistance vi.dims.nt e.2.dit e.1))) (0, 0, 0)
  (max m.1 1, max m.2.1 1, m.2.2)

def mx : Nat := vi.displacement.1
def my : Nat := vi.displacement.2.1
def mt : Nat := vi.displacement.2.2

end ValueIterator

theorem foldl_max_bounds {τ : Type} (f g h : τ → Nat) (l : List τ) : ∀ m : Nat × Nat × Nat,
    let r := l.foldl (fun m e => (max m.1 (f e), max m.2.1 (g e), max m.2.2 (h e))) m
    (m.1 ≤ r.1 ∧ m.2.1 ≤ r.2.1 ∧ m.2.2 ≤ r.2.2) ∧
      ∀ e ∈ l, f e ≤ r.1 ∧ g e ≤ r.2.1 ∧ h e ≤ r.2.2 := by
  induction l with
  | nil => intro m; simp
  | cons a l ih =>
    intro m
    obtain ⟨⟨h1, h2, h3⟩, hl⟩ := ih (max m.1 (f a), max m.2.1 (g a), max m.2.2 (h a))
    simp only [Nat.max_le] at h1 h2 h3
    refine ⟨⟨h1.1, h2.1, h3.1⟩, ?_⟩
    intro e he
    rcases List.mem_cons.mp he with rfl | he
    · exact ⟨h1.2, h2.2, h3.2⟩
    · exact hl e he

theorem thetaNear_of_circDistance {nt mt : Nat} (hnt : 0 < nt) {dit : Int} {t : Nat}
    (h : circDistance nt dit t ≤ mt) :
    ThetaNear nt mt t (dit % (nt : Int)).toNat := by
  have hnt' : (0 : Int) < nt := by omega
  have h0 := Int.emod_nonneg (dit - t) (show (nt : Int) ≠ 0 by omega)
  have h1 := Int.emod_lt_of_pos (dit - t) hnt'
  have hr : ((t : Int) + (dit - t) % nt) % nt = dit % nt := by
    rw [Int.add_emod_emod]; congr 1; omega
  unfold circDistance at h
  simp only at h
  obtain ⟨raw, hraw⟩ := Int.eq_ofNat_of_zero_le h0
  rw [hraw] at h h1 hr
  rw [← hr]
  by_cases hc : raw ≤ mt
  · refine ⟨raw, hc, Or.inl ?_⟩
    rw [← Nat.cast_add, ← Int.natCast_mod, Int.toNat_natCast]
  · refine ⟨nt - raw, by omega, Or.inr ?_⟩
    rw [← Nat.cast_add, ← Int.natCast_mod, Int.toNat_natCast]
    congr 1
    omega

namespace ValueIterator

variable {vi : ValueIterator}

theorem displacement_bounds {e : Nat × StateTransition} (he : e ∈ vi.transitions) :
    e.2.dix.natAbs ≤ vi.mx ∧ e.2.diy.natAbs ≤ vi.my ∧
      circDistance vi.dims.nt e.2.dit e.1 ≤ vi.mt := by
  have h := (foldl_max_bounds (fun e : Nat × StateTransition => e.2.dix.natAbs)
    (fun e => e.2.diy.natAbs) (fun e => circDistance vi.dims.nt e.2.dit e.1)
    vi.transitions (0, 0, 0)).2 e he
  exact ⟨h.1.trans (Nat.le_max_left _ _), h.2.1.trans (Nat.le_max_left _ _), h.2.2⟩

theorem row_mem {a : Action} (ha : a ∈ vi.actions) {s : Pos} (hs : vi.dims.Contains s) :
    a.stateTransitions[s.it.toNat]? = some (a.row s.it) := by
  have hlt : s.it.toNat < a.stateTransitions.length := by
    have hl : a.stateTransitions.length = vi.dims.nt := (vi.wellFormed a ha).1
    have := hs.2.2
    omega
  simp [Action.row, List.getD_eq_getElem?_getD, hlt]

theorem mem_transitions {a : Action} (ha : a ∈ vi.actions) {s : Pos} (hs : vi.dims.Contains s)
    {tr : StateTransition} (htr : tr ∈ a.row s.it) : (s.it.toNat, tr) ∈ vi.transitions := by
  simp only [transitions, List.mem_flatMap, List.mem_map]
  exact ⟨a, ha, (a.row s.it, s.it.toNat), List.mem_zipIdx_iff_getElem?.mpr (row_mem ha hs),
    tr, htr, rfl⟩

/-- What `s` reads: an outcome of an action all of whose outcomes are legal. -/
theorem reads_elim {s t : Pos} (h : vi.world.Reads s t) : ∃ a ∈ vi.actions,
    ∃ tr ∈ a.row s.it, vi.inMapArea (s.ix + tr.dix) (s.iy + tr.diy) = true ∧
      (vi.stateAt t).free = true ∧ t = vi.outcomePos s tr := by
  obtain ⟨row, hrow, p, hp⟩ := h
  obtain ⟨a, ha, hleg⟩ := List.mem_map.mp hrow
  unfold legalRow at hleg
  split at hleg
  · next hall =>
    cases hleg
    obtain ⟨tr, htr, heq⟩ := List.mem_map.mp hp
    have hok := List.all_eq_true.mp hall tr htr
    rw [Bool.and_eq_true] at hok
    have ht : vi.outcomePos s tr = t := congrArg Prod.fst heq
    exact ⟨a, ha, tr, htr, hok.1, by rw [← ht]; exact hok.2, ht.symm⟩
  · cases hleg

/-- `t` lies in the displacement box around `s`. -/
structure InBox (vi : ValueIterator) (s t : Pos) : Prop where
  ix : (t.ix - s.ix).natAbs ≤ vi.mx
  iy : (t.iy - s.iy).natAbs ≤ vi.my
  it : ThetaNear vi.dims.nt vi.mt s.it.toNat t.it.toNat

theorem inBox_self {s : Pos} (hs : vi.dims.Contains s) : vi.InBox s s := by
  refine ⟨by omega, by omega, 0, Nat.zero_le _, Or.inl ?_⟩
  have := hs.2.2
  rw [Nat.add_zero, Nat.mod_eq_of_lt (by omega)]

theorem outcome_inBox {a : Action} (ha : a ∈ vi.actions) {s : Pos} (hs : vi.dims.Contains s)
    {tr : StateTransition} (htr : tr ∈ a.row s.it) : vi.InBox s (vi.outcomePos s tr) := by
  obtain ⟨hx, hy, ht⟩ := displacement_bounds (mem_transitions ha hs htr)
  have hmem := List.mem_of_getElem? (row_mem ha hs)
  have hdit := (((vi.wellFormed a ha).2 _ hmem).1 tr htr).2
  have hsit := hs.2.2
  have hnt : 0 < vi.dims.nt := by omega
  have hmod : (tr.dit + (vi.dims.nt : Int)).tmod vi.dims.nt = tr.dit % (vi.dims.nt : Int) := by
    have h0 : (0 : Int) ≤ tr.dit + vi.dims.nt := by
      have : -(vi.dims.nt : Int) ≤ tr.dit := hdit
      omega
    rw [Int.tmod_eq_emod_of_nonneg h0, Int.add_emod_right]
  refine ⟨?_, ?_, ?_⟩
  · simpa [outcomePos] using hx
  · simpa [outcomePos] using hy
  · simp only [outcomePos, hmod]
    exact thetaNear_of_circDistance hnt ht

theorem reads_inBox {s t : Pos} (hs : vi.dims.Contains s) (h : vi.world.Reads s t) :
    vi.dims.Contains t ∧ vi.InBox s t := by
  obtain ⟨a, ha, tr, htr, hin, _, rfl⟩ := reads_elim h
  exact ⟨outcomePos_contains hs ha htr hin, outcome_inBox ha hs htr⟩

end ValueIterator

end ValueIteration
