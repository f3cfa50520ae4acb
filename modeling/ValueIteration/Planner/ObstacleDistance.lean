import Mathlib.Data.ENat.Lattice
import ValueIteration.Lib.Relaxation
import ValueIteration.Planner.Window

/-!
# Two chamfer passes measure the distance to the obstacles

`dist_linf` relaxes every cell from the four neighbours above and to its left, and then, in
reverse order, from the other four. A pass settles all of its edges, because it comes to a
cell only after the cell's neighbours. A shortest walk of king moves from an obstacle can be
ordered so that the moves of the first pass come first.
-/

set_option autoImplicit false

namespace ValueIteration

open Relaxation

/-- The number of king moves between two cells. -/
def chebyshev (p q : Nat × Nat) : Nat :=
  max ((p.1 : Int) - q.1).natAbs ((p.2 : Int) - q.2).natAbs

def IsObstacleCell (nx ny : Nat) (isObstacle : Nat → Nat → Bool) (q : Nat × Nat) : Prop :=
  q.1 < nx ∧ q.2 < ny ∧ isObstacle q.1 q.2 = true

/-- The distance to the nearest obstacle of the map, `⊤` when there is none. -/
noncomputable def obstacleDistance (nx ny : Nat) (isObstacle : Nat → Nat → Bool)
    (p : Nat × Nat) : ℕ∞ :=
  ⨅ q, ⨅ (_ : IsObstacleCell nx ny isObstacle q), (chebyshev p q : ℕ∞)

namespace Chamfer

def mapCells (nx ny : Nat) : List (Nat × Nat) :=
  (List.range ny).flatMap fun iy => (List.range nx).map fun ix => (ix, iy)

def cellIndex (nx : Nat) (c : Nat × Nat) : Nat := c.2 * nx + c.1

/-- The neighbours that the first pass reads. -/
def above (nx : Nat) (c : Nat × Nat) : List (Nat × Nat) :=
  (if 0 < c.1 then [(c.1 - 1, c.2)] else []) ++
    if 0 < c.2 then [(c.1, c.2 - 1)] ++ (if 0 < c.1 then [(c.1 - 1, c.2 - 1)] else []) ++
      (if c.1 + 1 < nx then [(c.1 + 1, c.2 - 1)] else []) else []

/-- The neighbours that the second pass reads. -/
def below (nx ny : Nat) (c : Nat × Nat) : List (Nat × Nat) :=
  (if c.1 + 1 < nx then [(c.1 + 1, c.2)] else []) ++
    if c.2 + 1 < ny then [(c.1, c.2 + 1)] ++ (if c.1 + 1 < nx then [(c.1 + 1, c.2 + 1)] else []) ++
      (if 0 < c.1 then [(c.1 - 1, c.2 + 1)] else []) else []

/-- `saturating_add(1)`. -/
def bump : ℕ →o ℕ := ⟨fun v => min (v + 1) 65535, fun v w h => by
  have hvw : v ≤ w := h
  change min (v + 1) 65535 ≤ min (w + 1) 65535
  omega⟩

theorem bump_apply (v : Nat) : bump v = min (v + 1) 65535 := rfl

def edgesInto (near : Nat × Nat → List (Nat × Nat)) (c : Nat × Nat) :
    List (Edge (Nat × Nat) Nat) :=
  (near c).map fun q => ⟨c, q, bump⟩

section Cells

variable {nx ny : Nat}

theorem mem_mapCells {c : Nat × Nat} : c ∈ mapCells nx ny ↔ c.1 < nx ∧ c.2 < ny := by
  simp only [mapCells, List.mem_flatMap, List.mem_map, List.mem_range]
  constructor
  · rintro ⟨iy, hiy, ix, hix, rfl⟩
    exact ⟨hix, hiy⟩
  · intro h
    exact ⟨c.2, h.2, c.1, h.1, rfl⟩

/-- The cells come in the order of their indices. -/
theorem map_cellIndex (nx ny : Nat) :
    (mapCells nx ny).map (cellIndex nx) = List.range (ny * nx) := by
  rw [mapCells, List.map_flatMap]
  simp only [List.map_map, Function.comp_def, cellIndex]
  rw [flatMap_range_map, List.map_congr_left (fun i _ => Nat.div_add_mod' i nx), List.map_id']

theorem length_mapCells (nx ny : Nat) : (mapCells nx ny).length = ny * nx := by
  have h := congrArg List.length (map_cellIndex nx ny)
  simpa using h

theorem getElem?_mapCells {c : Nat × Nat} (hc : c ∈ mapCells nx ny) :
    (mapCells nx ny)[cellIndex nx c]? = some c := by
  obtain ⟨k, hk⟩ := List.mem_iff_getElem?.mp hc
  have hindex : (List.range (ny * nx))[k]? = some (cellIndex nx c) := by
    rw [← map_cellIndex, List.getElem?_map, hk]
    rfl
  obtain ⟨_, heq⟩ := List.getElem?_eq_some_iff.mp hindex
  rw [List.getElem_range] at heq
  rw [← heq]
  exact hk

theorem cellIndex_injective {c c' : Nat × Nat} (hc : c ∈ mapCells nx ny)
    (hc' : c' ∈ mapCells nx ny) (h : cellIndex nx c = cellIndex nx c') : c = c' := by
  have hget := getElem?_mapCells hc
  rw [h, getElem?_mapCells hc'] at hget
  exact (Option.some.inj hget).symm

theorem pairwise_mapCells (nx ny : Nat) :
    (mapCells nx ny).Pairwise fun c c' => cellIndex nx c < cellIndex nx c' := by
  rw [← List.pairwise_map, map_cellIndex]
  exact List.pairwise_lt_range

theorem mem_above {c q : Nat × Nat} (h : q ∈ above nx c) :
    (q.1 + 1 = c.1 ∧ q.2 = c.2) ∨
      (q.2 + 1 = c.2 ∧ (q.1 = c.1 ∨ q.1 + 1 = c.1 ∨ (q.1 = c.1 + 1 ∧ c.1 + 1 < nx))) := by
  obtain ⟨x, y⟩ := c
  unfold above at h
  grind

theorem mem_below {c q : Nat × Nat} (h : q ∈ below nx ny c) :
    (q.1 = c.1 + 1 ∧ q.2 = c.2 ∧ c.1 + 1 < nx) ∨
      (q.2 = c.2 + 1 ∧ c.2 + 1 < ny ∧
        (q.1 = c.1 ∨ q.1 + 1 = c.1 ∨ (q.1 = c.1 + 1 ∧ c.1 + 1 < nx))) := by
  obtain ⟨x, y⟩ := c
  unfold below at h
  grind

end Cells

section Passes

variable {nx ny : Nat}

theorem stores_chamferStep {d : List Nat} {g : Nat × Nat → Nat}
    (h : Stores (· ∈ mapCells nx ny) (cellIndex nx) d g) {near : Nat × Nat → List (Nat × Nat)}
    {c : Nat × Nat} (hc : c ∈ mapCells nx ny)
    (hnear : ∀ q ∈ near c, q ∈ mapCells nx ny ∧ q ≠ c) :
    Stores (· ∈ mapCells nx ny) (cellIndex nx)
      (chamferStep d (cellIndex nx c) ((near c).map (cellIndex nx)))
      (pass (edgesInto near c) g) := by
  have hself : c ∉ near c := fun hmem => (hnear c hmem).2 rfl
  have hvalue : ((near c).map (cellIndex nx)).foldl
      (fun v j => min v (min (d.getD j 65535 + 1) 65535)) (d.getD (cellIndex nx c) 65535) =
      (near c).foldl (fun v q => min v (bump (g q))) (g c) := by
    rw [List.foldl_map, h.getD hc]
    apply List.foldl_ext
    intro v q hq
    rw [h.getD (hnear q hq).1, bump_apply]
  unfold chamferStep
  rw [hvalue, edgesInto, pass_into bump hself]
  exact h.update (fun _ _ => cellIndex_injective) hc _

/-- A loop over the cells is a pass. -/
theorem stores_foldl (near : Nat × Nat → List (Nat × Nat)) (cs : List (Nat × Nat)) {d : List Nat}
    {g : Nat × Nat → Nat} (h : Stores (· ∈ mapCells nx ny) (cellIndex nx) d g)
    (hcs : ∀ c ∈ cs, c ∈ mapCells nx ny)
    (hnear : ∀ c ∈ cs, ∀ q ∈ near c, q ∈ mapCells nx ny ∧ q ≠ c) :
    Stores (· ∈ mapCells nx ny) (cellIndex nx)
      (cs.foldl (fun d c => chamferStep d (cellIndex nx c) ((near c).map (cellIndex nx))) d)
      (pass (cs.flatMap (edgesInto near)) g) := by
  induction cs generalizing d g with
  | nil => exact h
  | cons c cs ih =>
    rw [List.foldl_cons, List.flatMap_cons, pass_append]
    apply ih
    · exact stores_chamferStep h (hcs c List.mem_cons_self) (hnear c List.mem_cons_self)
    · exact fun c' hc' => hcs c' (List.mem_cons_of_mem _ hc')
    · exact fun c' hc' => hnear c' (List.mem_cons_of_mem _ hc')

theorem map_above {c : Nat × Nat} : (above nx c).map (cellIndex nx) =
    let i := cellIndex nx c
    (if 0 < c.1 then [i - 1] else []) ++
      if 0 < c.2 then [i - nx] ++ (if 0 < c.1 then [i - nx - 1] else []) ++
        (if c.1 + 1 < nx then [i - nx + 1] else []) else [] := by
  simp only [above, cellIndex, List.map_append, apply_ite (List.map (cellIndex nx)),
    List.map_cons, List.map_nil]
  by_cases hy : 0 < c.2
  · have hrow : c.2 * nx = (c.2 - 1) * nx + nx := by
      rw [← Nat.succ_mul, Nat.succ_eq_add_one, Nat.sub_add_cancel hy]
    simp only [if_pos hy]
    split_ifs <;> simp <;> omega
  · simp only [if_neg hy]
    split_ifs <;> simp
    omega

theorem map_below {c : Nat × Nat} : (below nx ny c).map (cellIndex nx) =
    let i := cellIndex nx c
    (if c.1 + 1 < nx then [i + 1] else []) ++
      if c.2 + 1 < ny then [i + nx] ++ (if c.1 + 1 < nx then [i + nx + 1] else []) ++
        (if 0 < c.1 then [i + nx - 1] else []) else [] := by
  simp only [below, cellIndex, List.map_append, apply_ite (List.map (cellIndex nx)),
    List.map_cons, List.map_nil, Nat.succ_mul]
  split_ifs <;> simp <;> omega

theorem above_mapCells {c : Nat × Nat} (hc : c ∈ mapCells nx ny) :
    ∀ q ∈ above nx c, q ∈ mapCells nx ny ∧ cellIndex nx q < cellIndex nx c := by
  intro q hq
  obtain ⟨hx, hy⟩ := mem_mapCells.mp hc
  unfold cellIndex
  rcases mem_above hq with ⟨hqx, hqy⟩ | ⟨hqy, hqx⟩
  · rw [mem_mapCells, hqy]
    omega
  · rw [mem_mapCells, ← hqy, Nat.succ_mul]
    omega

theorem below_mapCells {c : Nat × Nat} (hc : c ∈ mapCells nx ny) :
    ∀ q ∈ below nx ny c, q ∈ mapCells nx ny ∧ cellIndex nx c < cellIndex nx q := by
  intro q hq
  obtain ⟨hx, hy⟩ := mem_mapCells.mp hc
  unfold cellIndex
  rcases mem_below hq with ⟨hqx, hqy, hlt⟩ | ⟨hqy, hlt, hqx⟩
  · rw [mem_mapCells, hqy]
    omega
  · rw [mem_mapCells, hqy, Nat.succ_mul]
    omega

/-- A pass that comes to a cell after its neighbours settles every edge. -/
theorem settled_of_order {α : Type} [Preorder α] (rank : Nat × Nat → α)
    {near : Nat × Nat → List (Nat × Nat)} {cs : List (Nat × Nat)}
    (hsort : cs.Pairwise fun c c' => rank c ≤ rank c')
    (hup : ∀ c ∈ cs, ∀ q ∈ near c, rank q < rank c) (g : Nat × Nat → Nat) :
    ∀ c ∈ cs, ∀ q ∈ near c, pass (cs.flatMap (edgesInto near)) g c ≤
      bump (pass (cs.flatMap (edgesInto near)) g q) := by
  have hmem : ∀ e ∈ cs.flatMap (edgesInto near),
      ∃ c ∈ cs, ∃ q ∈ near c, (⟨c, q, bump⟩ : Edge (Nat × Nat) Nat) = e := by
    intro e he
    obtain ⟨c, hc, he⟩ := List.mem_flatMap.mp he
    obtain ⟨q, hq, rfl⟩ := List.mem_map.mp he
    exact ⟨c, hc, q, hq, rfl⟩
  have hedges : (cs.flatMap (edgesInto near)).Pairwise fun e e' => rank e.dst ≤ rank e'.dst := by
    apply List.pairwise_flatMap.mpr
    constructor
    · intro c _
      exact List.pairwise_map.mpr (List.pairwise_of_forall fun _ _ => le_refl (rank c))
    · apply hsort.imp
      intro c c' hle e he e' he'
      obtain ⟨_, _, rfl⟩ := List.mem_map.mp he
      obtain ⟨_, _, rfl⟩ := List.mem_map.mp he'
      exact hle
  have hsettled := pass_settled_of_rank rank (fun e he => by
    obtain ⟨c, hc, q, hq, rfl⟩ := hmem e he
    exact hup c hc q hq) hedges g
  intro c hc q hq
  exact hsettled ⟨c, q, bump⟩
    (List.mem_flatMap.mpr ⟨c, hc, List.mem_map_of_mem hq⟩)

end Passes

section Exact

variable (nx ny : Nat) (isObstacle : Nat → Nat → Bool)

def startField (c : Nat × Nat) : Nat := if isObstacle c.1 c.2 then 0 else 65535

def firstPass : Nat × Nat → Nat :=
  pass ((mapCells nx ny).flatMap (edgesInto (above nx))) (startField isObstacle)

def secondPass : Nat × Nat → Nat :=
  pass ((mapCells nx ny).reverse.flatMap (edgesInto (below nx ny))) (firstPass nx ny isObstacle)

theorem distLinf_stores : Stores (· ∈ mapCells nx ny) (cellIndex nx) (distLinf nx ny isObstacle)
    (secondPass nx ny isObstacle) := by
  have hstart : Stores (· ∈ mapCells nx ny) (cellIndex nx)
      ((mapCells nx ny).map fun c => if isObstacle c.1 c.2 then 0 else 65535)
      (startField isObstacle) := by
    intro c hc
    rw [List.getElem?_map, getElem?_mapCells hc]
    rfl
  have hfirst := stores_foldl (above nx) (mapCells nx ny) hstart (fun _ hc => hc) (by
    intro c hc q hq
    obtain ⟨hmem, hlt⟩ := above_mapCells hc q hq
    exact ⟨hmem, fun heq => lt_irrefl _ (heq ▸ hlt)⟩)
  have hsecond := stores_foldl (below nx ny) (mapCells nx ny).reverse hfirst
    (fun _ hc => List.mem_reverse.mp hc) (by
      intro c hc q hq
      obtain ⟨hmem, hlt⟩ := below_mapCells (List.mem_reverse.mp hc) q hq
      exact ⟨hmem, fun heq => lt_irrefl _ (heq ▸ hlt)⟩)
  simp only [map_above, map_below] at hsecond
  exact hsecond

theorem length_distLinf : (distLinf nx ny isObstacle).length = ny * nx := by
  have hloop : ∀ (near : Nat × Nat → List Nat) (cs : List (Nat × Nat)) (d : List Nat),
      (cs.foldl (fun d c => chamferStep d (c.2 * nx + c.1) (near c)) d).length = d.length := by
    intro near cs
    induction cs with
    | nil => exact fun d => rfl
    | cons c cs ih =>
      intro d
      rw [List.foldl_cons, ih, chamferStep, List.length_set]
  unfold distLinf
  simp only
  rw [hloop, hloop, List.length_map]
  exact length_mapCells nx ny

variable {nx ny isObstacle}

theorem firstPass_settled {c q : Nat × Nat} (hc : c ∈ mapCells nx ny) (hq : q ∈ above nx c) :
    firstPass nx ny isObstacle c ≤ bump (firstPass nx ny isObstacle q) :=
  settled_of_order (cellIndex nx) ((pairwise_mapCells nx ny).imp fun hlt => hlt.le)
    (fun _ hc q hq => (above_mapCells hc q hq).2) _ c hc q hq

theorem secondPass_settled {c q : Nat × Nat} (hc : c ∈ mapCells nx ny) (hq : q ∈ below nx ny c) :
    secondPass nx ny isObstacle c ≤ bump (secondPass nx ny isObstacle q) :=
  settled_of_order (fun c => OrderDual.toDual (cellIndex nx c))
    (List.pairwise_reverse.mpr ((pairwise_mapCells nx ny).imp fun hlt => hlt.le))
    (fun _ hc q hq => (below_mapCells (List.mem_reverse.mp hc) q hq).2) _ c
    (List.mem_reverse.mpr hc) q hq

/-- On the map a value below the cap is witnessed by an obstacle. -/
def Witnessed (nx ny : Nat) (isObstacle : Nat → Nat → Bool) (c : Nat × Nat) (v : Nat) : Prop :=
  c ∈ mapCells nx ny → v = 65535 ∨ ∃ o, IsObstacleCell nx ny isObstacle o ∧ chebyshev c o ≤ v

theorem Witnessed.bump {c q : Nat × Nat} {v : Nat} (h : Witnessed nx ny isObstacle q v)
    (hq : c ∈ mapCells nx ny → q ∈ mapCells nx ny)
    (hstep : ∀ o, chebyshev c o ≤ chebyshev q o + 1) :
    Witnessed nx ny isObstacle c (Chamfer.bump v) := by
  intro hc
  rw [bump_apply]
  by_cases hcap : 65535 ≤ v + 1
  · exact Or.inl (min_eq_right hcap)
  · rcases h (hq hc) with hv | ⟨o, ho, hle⟩
    · omega
    · refine Or.inr ⟨o, ho, ?_⟩
      have := hstep o
      omega

theorem chebyshev_above {c q : Nat × Nat} (hq : q ∈ above nx c) (o : Nat × Nat) :
    chebyshev c o ≤ chebyshev q o + 1 := by
  unfold chebyshev
  have := mem_above hq
  omega

theorem chebyshev_below {c q : Nat × Nat} (hq : q ∈ below nx ny c) (o : Nat × Nat) :
    chebyshev c o ≤ chebyshev q o + 1 := by
  unfold chebyshev
  have := mem_below hq
  omega

/-- Both passes lower values only to what an obstacle accounts for. -/
theorem secondPass_witnessed :
    ∀ c, Witnessed nx ny isObstacle c (secondPass nx ny isObstacle c) := by
  have hfirst : ∀ c, Witnessed nx ny isObstacle c (firstPass nx ny isObstacle c) := by
    apply pass_invariant
    · intro e he v h
      obtain ⟨c, _, he⟩ := List.mem_flatMap.mp he
      obtain ⟨q, hq, rfl⟩ := List.mem_map.mp he
      exact h.bump (fun hc => (above_mapCells hc q hq).1) (chebyshev_above hq)
    · intro c hc
      unfold startField
      split
      · next hobs =>
        obtain ⟨hx, hy⟩ := mem_mapCells.mp hc
        exact Or.inr ⟨c, ⟨hx, hy, hobs⟩, by simp [chebyshev]⟩
      · exact Or.inl rfl
  apply pass_invariant
  · intro e he v h
    obtain ⟨c, _, he⟩ := List.mem_flatMap.mp he
    obtain ⟨q, hq, rfl⟩ := List.mem_map.mp he
    exact h.bump (fun hc => (below_mapCells hc q hq).1) (chebyshev_below hq)
  · exact hfirst

theorem secondPass_le_firstPass (c : Nat × Nat) :
    secondPass nx ny isObstacle c ≤ firstPass nx ny isObstacle c := pass_le _ _ c

theorem firstPass_le_start (c : Nat × Nat) : firstPass nx ny isObstacle c ≤ startField isObstacle c :=
  pass_le _ _ c

/-- The moves of the first pass alone lead from an obstacle to the cells below it that are
at least as far down as they are to the left. -/
theorem firstPass_le {o : Nat × Nat} (ho : IsObstacleCell nx ny isObstacle o) {k : Nat} :
    ∀ {c : Nat × Nat}, c ∈ mapCells nx ny → chebyshev c o = k → o.2 ≤ c.2 →
      o.1 + o.2 ≤ c.1 + c.2 → firstPass nx ny isObstacle c ≤ k := by
  induction k with
  | zero =>
    intro c hc hk _ _
    have heq : c = o := by
      unfold chebyshev at hk
      apply Prod.ext <;> omega
    subst heq
    apply (firstPass_le_start c).trans
    rw [startField, if_pos ho.2.2]
  | succ k ih =>
    intro c hc hk hdown hleft
    obtain ⟨hx, hy⟩ := mem_mapCells.mp hc
    have hox := ho.1
    unfold chebyshev at hk
    have hmove : ∃ q ∈ above nx c, chebyshev q o = k ∧ o.2 ≤ q.2 ∧ o.1 + o.2 ≤ q.1 + q.2 := by
      rcases Nat.eq_or_lt_of_le hdown with hrow | hrow
      · refine ⟨(c.1 - 1, c.2), ?_, ?_⟩
        · have : 0 < c.1 := by omega
          simp [above, this]
        · simp only [chebyshev]
          omega
      · have hrow' : 0 < c.2 := by omega
        rcases lt_trichotomy c.1 o.1 with hcol | hcol | hcol
        · refine ⟨(c.1 + 1, c.2 - 1), ?_, ?_⟩
          · have : c.1 + 1 < nx := by omega
            simp [above, hrow', this]
          · simp only [chebyshev]
            omega
        · refine ⟨(c.1, c.2 - 1), ?_, ?_⟩
          · simp [above, hrow']
          · simp only [chebyshev]
            omega
        · refine ⟨(c.1 - 1, c.2 - 1), ?_, ?_⟩
          · have : 0 < c.1 := by omega
            simp [above, hrow', this]
          · simp only [chebyshev]
            omega
    obtain ⟨q, hq, hdist, hdown', hleft'⟩ := hmove
    have hle := ih (above_mapCells hc q hq).1 hdist hdown' hleft'
    apply (firstPass_settled hc hq).trans
    exact (min_le_left _ _).trans (Nat.succ_le_succ hle)

/-- From there the moves of the second pass lead to every cell. -/
theorem secondPass_le {o : Nat × Nat} (ho : IsObstacleCell nx ny isObstacle o) {k : Nat} :
    ∀ {c : Nat × Nat}, c ∈ mapCells nx ny → chebyshev c o = k →
      secondPass nx ny isObstacle c ≤ k := by
  induction k with
  | zero =>
    intro c hc hk
    have hcone : o.2 ≤ c.2 ∧ o.1 + o.2 ≤ c.1 + c.2 := by
      unfold chebyshev at hk
      omega
    exact (secondPass_le_firstPass c).trans (firstPass_le ho hc hk hcone.1 hcone.2)
  | succ k ih =>
    intro c hc hk
    by_cases hcone : o.2 ≤ c.2 ∧ o.1 + o.2 ≤ c.1 + c.2
    · exact (secondPass_le_firstPass c).trans (firstPass_le ho hc hk hcone.1 hcone.2)
    obtain ⟨hx, hy⟩ := mem_mapCells.mp hc
    obtain ⟨hox, hoy, _⟩ := ho
    unfold chebyshev at hk
    have hmove : ∃ q ∈ below nx ny c, chebyshev q o = k := by
      by_cases hrow : o.2 ≤ c.2
      · refine ⟨(c.1 + 1, c.2), ?_, ?_⟩
        · have : c.1 + 1 < nx := by omega
          simp [below, this]
        · simp only [chebyshev]
          omega
      · have hrow' : c.2 + 1 < ny := by omega
        rcases lt_trichotomy c.1 o.1 with hcol | hcol | hcol
        · refine ⟨(c.1 + 1, c.2 + 1), ?_, ?_⟩
          · have : c.1 + 1 < nx := by omega
            simp [below, hrow', this]
          · simp only [chebyshev]
            omega
        · refine ⟨(c.1, c.2 + 1), ?_, ?_⟩
          · simp [below, hrow']
          · simp only [chebyshev]
            omega
        · refine ⟨(c.1 - 1, c.2 + 1), ?_, ?_⟩
          · have : 0 < c.1 := by omega
            simp [below, hrow', this]
          · simp only [chebyshev]
            omega
    obtain ⟨q, hq, hdist⟩ := hmove
    have hle := ih (below_mapCells hc q hq).1 hdist
    apply (secondPass_settled hc hq).trans
    exact (min_le_left _ _).trans (Nat.succ_le_succ hle)

theorem secondPass_eq {c : Nat × Nat} (hc : c ∈ mapCells nx ny) :
    (secondPass nx ny isObstacle c : ℕ∞) = min 65535 (obstacleDistance nx ny isObstacle c) := by
  apply le_antisymm
  · apply le_min
    · have hcap : secondPass nx ny isObstacle c ≤ 65535 := by
        apply (secondPass_le_firstPass c).trans
        apply (firstPass_le_start c).trans
        unfold startField
        split <;> omega
      exact_mod_cast hcap
    · refine le_iInf₂ fun o ho => ?_
      exact_mod_cast secondPass_le ho hc rfl
  · rcases secondPass_witnessed c hc with hcap | ⟨o, ho, hle⟩
    · rw [hcap]
      exact min_le_left _ _
    · apply (min_le_right _ _).trans
      apply (iInf₂_le o ho).trans
      exact_mod_cast hle

end Exact

end Chamfer

open Chamfer in
/-- Every cell holds the distance to the nearest obstacle, or `u16::MAX` if that is less. -/
theorem distLinf_exact (nx ny : Nat) (isObstacle : Nat → Nat → Bool) :
    (distLinf nx ny isObstacle).length = ny * nx ∧
      ∀ ix < nx, ∀ iy < ny, ((distLinf nx ny isObstacle).getD (iy * nx + ix) 65535 : ℕ∞) =
        min 65535 (obstacleDistance nx ny isObstacle (ix, iy)) := by
  refine ⟨length_distLinf nx ny isObstacle, ?_⟩
  intro ix hix iy hiy
  have hc : (ix, iy) ∈ mapCells nx ny := mem_mapCells.mpr ⟨hix, hiy⟩
  have hget := (distLinf_stores nx ny isObstacle).getD hc 65535
  rw [← secondPass_eq hc, ← hget]
  rfl

theorem distLinf_corner :
    ((distLinf 4 2 fun x y => x == 0 && y == 1).getD (0 * 4 + 3) 65535 : ℕ∞) =
      min 65535 (obstacleDistance 4 2 (fun x y => x == 0 && y == 1) (3, 0)) :=
  (distLinf_exact 4 2 fun x y => x == 0 && y == 1).2 3 (by decide) 0 (by decide)

end ValueIteration
