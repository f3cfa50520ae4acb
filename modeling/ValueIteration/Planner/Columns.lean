import ValueIteration.Planner.Shape

/-!
# Columns of states

Every writer of the core works on whole columns, all headings of a cell. What it
leaves behind is read off column by column.
-/

set_option autoImplicit false
set_option linter.unusedSectionVars false

/-- The cell a state belongs to. -/
def Pos.cell (p : Pos) : Int × Int := (p.ix, p.iy)

namespace ValueIteration

namespace ValueIterator

variable {vi : ValueIterator}

theorem contains_column {c : Cell} (hc : vi.inMapArea c.1 c.2 = true) {t : Nat}
    (ht : t < vi.dims.nt) : vi.dims.Contains ⟨c.1, c.2, t⟩ := by
  obtain ⟨h1, h2, h3, h4⟩ := inMapArea_iff.mp hc
  exact ⟨⟨h1, h2⟩, ⟨h3, h4⟩, Int.natCast_nonneg t, Int.ofNat_lt.mpr ht⟩

/-- Changing the headings of a column one after the other. -/
theorem stateAt_foldl_column (h : Nat → State → State) {c : Cell}
    (hc : vi.inMapArea c.1 c.2 = true) (n : Nat) (hn : n ≤ vi.dims.nt) :
    let v := (List.range n).foldl (fun (v : ValueIterator) (t : Nat) =>
      v.setState ⟨c.1, c.2, t⟩ (h t (v.stateAt ⟨c.1, c.2, t⟩))) vi
    v.table = vi.table ∧ ∀ q, vi.dims.Contains q → v.stateAt q =
      if q.cell = c ∧ q.it < n then h q.it.toNat (vi.stateAt q) else vi.stateAt q := by
  induction n with
  | zero =>
    refine ⟨rfl, ?_⟩
    intro q hq
    have hneg : ¬ (q.cell = c ∧ q.it < (0 : Nat)) := by
      rintro ⟨_, h⟩
      have := hq.2.2.1
      omega
    rw [if_neg hneg]
    rfl
  | succ n ih =>
    obtain ⟨htab, hread⟩ := ih (by omega)
    simp only [List.range_succ, List.foldl_append, List.foldl_cons, List.foldl_nil]
    generalize (List.range n).foldl (fun (v : ValueIterator) (t : Nat) =>
      v.setState ⟨c.1, c.2, t⟩ (h t (v.stateAt ⟨c.1, c.2, t⟩))) vi = v at htab hread
    refine ⟨htab, ?_⟩
    have hd : v.dims = vi.dims := congrArg Prod.fst htab
    have hcol := contains_column hc (t := n) (by omega)
    intro q hq
    rw [stateAt_setState (by rw [hd]; exact hcol) (by rw [hd]; exact hq)]
    by_cases heq : q = ⟨c.1, c.2, n⟩
    · subst heq
      have hlast : ¬ ((⟨c.1, c.2, n⟩ : Pos).cell = c ∧ (n : Int) < n) := fun hx => by omega
      rw [if_pos rfl, hread _ hcol, if_neg hlast, if_pos ⟨rfl, by simp⟩, Int.toNat_natCast]
    · rw [if_neg heq, hread q hq]
      have hiff : (q.cell = c ∧ q.it < n) ↔ q.cell = c ∧ q.it < (n + 1 : Nat) := by
        constructor
        · exact fun hx => ⟨hx.1, by omega⟩
        · rintro ⟨hx, hlt⟩
          refine ⟨hx, ?_⟩
          by_contra hge
          apply heq
          obtain ⟨x, y, t⟩ := q
          subst hx
          simp only [Pos.cell, Pos.mk.injEq, true_and]
          simp only at hlt hge
          omega
      simp only [hiff]

theorem it_lt {q : Pos} (hq : vi.dims.Contains q) : q.it < vi.dims.nt := hq.2.2.2

theorem stateAt_mapColumn (f : State → State) {c : Cell} (hc : vi.inMapArea c.1 c.2 = true)
    {q : Pos} (hq : vi.dims.Contains q) : (vi.mapColumn f c).stateAt q =
      if q.cell = c then f (vi.stateAt q) else vi.stateAt q := by
  have h := (stateAt_foldl_column (fun _ => f) hc vi.dims.nt le_rfl).2 q hq
  simp only [it_lt hq, and_true] at h
  exact h

theorem stateAt_writeColumn (u : Nat → Nat × Option Nat) {c : Cell}
    (hc : vi.inMapArea c.1 c.2 = true) {q : Pos} (hq : vi.dims.Contains q) :
    (vi.writeColumn c u).stateAt q =
      if q.cell = c then (vi.stateAt q).withUpdate (u q.it.toNat) else vi.stateAt q := by
  have h := (stateAt_foldl_column (fun t s => s.withUpdate (u t)) hc vi.dims.nt le_rfl).2 q hq
  simp only [it_lt hq, and_true] at h
  exact h

theorem stateAt_withStates (g : Pos → State) {q : Pos} (hq : vi.dims.Contains q) :
    (vi.withStates g).stateAt q = g q := Grid.get_ofFn g hq

/-- An update writes one state only. -/
theorem stateAt_valueIterationRaw_ne {p q : Pos} (hp : vi.dims.Contains p)
    (hq : vi.dims.Contains q) (hne : q ≠ p) :
    (vi.valueIterationRaw p).1.stateAt q = vi.stateAt q := by
  unfold valueIterationRaw
  split
  · rfl
  · simp only
    rw [stateAt_setState hp hq, if_neg hne]

/-- A pass writes the states it goes over only. -/
theorem stateAt_passOver_of_notMem (ps : List Pos) : ∀ {vi : ValueIterator} (delta : Nat),
    (∀ p ∈ ps, vi.dims.Contains p) → ∀ {q : Pos}, vi.dims.Contains q → q ∉ ps →
      (vi.passOver ps delta).1.stateAt q = vi.stateAt q := by
  induction ps with
  | nil => exact fun _ _ _ _ _ => rfl
  | cons p ps ih =>
    intro vi delta hps q hq hnot
    simp only [List.mem_cons, not_or] at hnot
    have hd : (vi.valueIterationRaw p).1.dims = vi.dims :=
      congrArg Prod.fst (table_valueIterationRaw vi p)
    have htail := ih (saturatingAdd delta (vi.valueIterationRaw p).2)
      (fun p' hp' => by rw [hd]; exact hps p' (List.mem_cons_of_mem _ hp'))
      (by rw [hd]; exact hq) hnot.2
    exact htail.trans (stateAt_valueIterationRaw_ne (hps p List.mem_cons_self) hq hnot.1)

end ValueIterator

namespace CompactField

variable {K : Type} {f : CompactField K}

theorem read_write {p q : Pos} (hp : f.sink.dims.Contains p) (hq : f.sink.dims.Contains q)
    (u : Nat × Int) : (f.write p u).read q = if q = p then u else f.read q :=
  Grid.get_set hp hq _

theorem onMap_contains {c : Cell} (hc : f.onMap c = true) {t : Nat} (ht : t < f.sink.dims.nt) :
    f.sink.dims.Contains ⟨c.1, c.2, t⟩ := by
  simp only [onMap, Bool.and_eq_true, decide_eq_true_eq] at hc
  exact ⟨⟨hc.1.1.1, hc.1.2⟩, ⟨hc.1.1.2, hc.2⟩, Int.natCast_nonneg t, Int.ofNat_lt.mpr ht⟩

theorem onMap_of_contains {q : Pos} (hq : f.sink.dims.Contains q) : f.onMap q.cell = true := by
  unfold onMap
  obtain ⟨hx, hy, _⟩ := hq
  simp [Pos.cell, hx, hy]

theorem read_foldl_column (us : Nat → Nat × Int) {c : Cell} (hc : f.onMap c = true) (n : Nat)
    (hn : n ≤ f.sink.dims.nt) :
    let g := (List.range n).foldl (fun (f : CompactField K) (t : Nat) =>
      f.write ⟨c.1, c.2, t⟩ (us t)) f
    g.sink.dims = f.sink.dims ∧ ∀ q, f.sink.dims.Contains q → g.read q =
      if q.cell = c ∧ q.it < n then us q.it.toNat else f.read q := by
  induction n with
  | zero =>
    refine ⟨rfl, ?_⟩
    intro q hq
    have hneg : ¬ (q.cell = c ∧ q.it < (0 : Nat)) := by
      rintro ⟨_, h⟩
      have := hq.2.2.1
      omega
    rw [if_neg hneg]
    rfl
  | succ n ih =>
    obtain ⟨hd, hread⟩ := ih (by omega)
    simp only [List.range_succ, List.foldl_append, List.foldl_cons, List.foldl_nil]
    generalize (List.range n).foldl (fun (f : CompactField K) (t : Nat) =>
      f.write ⟨c.1, c.2, t⟩ (us t)) f = g at hd hread
    refine ⟨hd, ?_⟩
    have hcol := onMap_contains hc (t := n) (by omega)
    intro q hq
    rw [read_write (by rw [hd]; exact hcol) (by rw [hd]; exact hq)]
    by_cases heq : q = ⟨c.1, c.2, n⟩
    · subst heq
      rw [if_pos rfl, if_pos ⟨rfl, by simp⟩, Int.toNat_natCast]
    · rw [if_neg heq, hread q hq]
      have hiff : (q.cell = c ∧ q.it < n) ↔ q.cell = c ∧ q.it < (n + 1 : Nat) := by
        constructor
        · exact fun hx => ⟨hx.1, by omega⟩
        · rintro ⟨hx, hlt⟩
          refine ⟨hx, ?_⟩
          by_contra hge
          apply heq
          obtain ⟨x, y, t⟩ := q
          subst hx
          simp only [Pos.cell, Pos.mk.injEq, true_and]
          simp only at hlt hge
          omega
      simp only [hiff]

theorem read_writeColumn (us : Nat → Nat × Int) {c : Cell} (hc : f.onMap c = true) {q : Pos}
    (hq : f.sink.dims.Contains q) :
    (f.writeColumn c us).read q = if q.cell = c then us q.it.toNat else f.read q := by
  have h := (read_foldl_column us hc f.sink.dims.nt le_rfl).2 q hq
  have hlt : q.it < f.sink.dims.nt := hq.2.2.2
  simp only [hlt, and_true] at h
  exact h

section
variable [Field K] [LinearOrder K] [FloorRing K]

/-- The sink's column becomes the patch's, and the flag tells whether it was another. -/
theorem read_commitColumn (base : ValueIterator) (p0 c : Cell) {q : Pos}
    (hq : f.sink.dims.Contains q) : (f.commitColumn base p0 c).1.read q =
      if q.cell = (p0.1 + c.1, p0.2 + c.2) then columnOf base c q.it.toNat else f.read q := by
  unfold commitColumn
  simp only
  split
  · next hoff =>
    rw [if_neg]
    intro heq
    rw [← heq, onMap_of_contains hq] at hoff
    cases hoff
  · next hon =>
    rw [Bool.not_eq_true', Bool.not_eq_false] at hon
    split
    · exact read_writeColumn _ hon hq
    · next hsame =>
      by_cases heq : q.cell = (p0.1 + c.1, p0.2 + c.2)
      · rw [if_pos heq]
        simp only [List.any_eq_true, List.mem_range, bne_iff_ne, not_exists, not_and,
          not_not] at hsame
        have hit := hq.2.2
        have := hsame q.it.toNat (by omega)
        rw [← this, Int.toNat_of_nonneg hit.1]
        obtain ⟨x, y, t⟩ := q
        cases heq
        rfl
      · rw [if_neg heq]

theorem commitColumn_of_not_written {base : ValueIterator} {p0 c : Cell}
    (h : (f.commitColumn base p0 c).2 = false) : (f.commitColumn base p0 c).1 = f := by
  unfold commitColumn at h ⊢
  simp only at h ⊢
  split
  · rfl
  · next hon =>
    rw [if_neg hon] at h
    split
    · next hw =>
      rw [if_pos hw] at h
      cases h
    · rfl

/-- Committing one column; its box is the cell itself. -/
theorem commitStates_single (f : CompactField K) (base : ValueIterator) (p0 c : Cell) :
    f.commitStates base p0 (c.1, c.1, c.2, c.2) =
      ((f.commitColumn base p0 c).1, if (f.commitColumn base p0 c).2 then
        some (p0.1 + c.1, p0.1 + c.1, p0.2 + c.2, p0.2 + c.2) else none) := by
  have hspan (a : Int) : span a a = [a] := by
    unfold span
    rw [show (a + 1 - a).toNat = 1 by omega]
    simp
  unfold commitStates
  simp only [hspan, List.flatMap_cons, List.flatMap_nil, List.map_cons, List.map_nil,
    List.append_nil, List.foldl_cons, List.foldl_nil]
  cases h : (f.commitColumn base p0 c).2 <;> simp

end

end CompactField

end ValueIteration
