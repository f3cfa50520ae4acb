import Mathlib.Algebra.Order.Monoid.Unbundled.WithTop
import Mathlib.Data.Finset.Lattice.Fold
import Mathlib.Tactic.Ring
import ValueIteration.Belief.Transport
import ValueIteration.Lib.Relaxation

/-!
# The min-plus relaxation is a distance transform

`minplus_relax` sweeps every row, every column and, twice around, every circle of headings.
What it carries between two states is the cost of the way along the three axes, and no
sweep accounts for less. The adaptive localiser has a copy of the routine of its own, which
keeps the planes in one slice.
-/

set_option autoImplicit false

namespace ValueIteration

open Relaxation

/-- The number of cells between two states, along the axes. -/
def manhattan (s p : Pos) : Nat := (p.ix - s.ix).natAbs + (p.iy - s.iy).natAbs

section
variable {K : Type} [Field K]

def stepCost (d : Dims) (lXy lT : K) (s p : Pos) : K :=
  lXy * manhattan s p + lT * circularDistance d.nt s.it p.it

theorem coe_stepCost (d : Dims) (lXy lT : K) (s p : Pos) :
    ((stepCost d lXy lT s p : K) : WithTop K) =
      manhattan s p • (lXy : WithTop K) + circularDistance d.nt s.it p.it • (lT : WithTop K) := by
  rw [stepCost, WithTop.coe_add, ← WithTop.coe_nsmul, ← WithTop.coe_nsmul, nsmul_eq_mul,
    nsmul_eq_mul, mul_comm lXy, mul_comm lT]

theorem stepCost_self (d : Dims) (lXy lT : K) (p : Pos) : stepCost d lXy lT p p = 0 := by
  simp [stepCost, manhattan, circularDistance]

variable [LinearOrder K]

/-- The least value of a state of the grid plus the cost of the way from there. -/
def distanceTransform (d : Dims) (lXy lT : K) (f : Pos → WithTop K) (p : Pos) : WithTop K :=
  d.planes.toFinset.inf fun s => f s + ((stepCost d lXy lT s p : K) : WithTop K)

end

def bidx2 (nx ny ix iy it : Int) : Nat := ((it * ny + iy) * nx + ix).toNat

namespace Adaptive

variable {K : Type} [Field K] [LinearOrder K]

/-- `p = delta[j] + l`, and `delta[i] = p` if that is less. -/
def lower (l : K) (delta : List (WithTop K)) (i j : Nat) : List (WithTop K) :=
  let p := delta.getD j ⊤ + (l : WithTop K)
  if p < delta.getD i ⊤ then delta.set i p else delta

/-- `minplus_relax` of the adaptive localiser. -/
def minplusRelax (nx ny nt : Nat) (lXy lT : K) (delta : List (WithTop K)) : List (WithTop K) :=
  let delta := (List.range nt).foldl (fun delta (it : Nat) =>
    let delta := (List.range ny).foldl (fun delta (iy : Nat) =>
      let delta := (List.range' 1 (nx - 1)).foldl (fun delta (ix : Nat) =>
        lower lXy delta (bidx2 nx ny ix iy it) (bidx2 nx ny (ix - 1) iy it)) delta
      (List.range (nx - 1)).reverse.foldl (fun delta (ix : Nat) =>
        lower lXy delta (bidx2 nx ny ix iy it) (bidx2 nx ny (ix + 1) iy it)) delta) delta
    (List.range nx).foldl (fun delta (ix : Nat) =>
      let delta := (List.range' 1 (ny - 1)).foldl (fun delta (iy : Nat) =>
        lower lXy delta (bidx2 nx ny ix iy it) (bidx2 nx ny ix (iy - 1) it)) delta
      (List.range (ny - 1)).reverse.foldl (fun delta (iy : Nat) =>
        lower lXy delta (bidx2 nx ny ix iy it) (bidx2 nx ny ix (iy + 1) it)) delta) delta) delta
  if 1 < nt then
    (List.range ny).foldl (fun delta (iy : Nat) =>
      (List.range nx).foldl (fun delta (ix : Nat) =>
        let delta := (List.range' 1 (2 * nt - 1)).foldl (fun delta (k : Nat) =>
          lower lT delta (bidx2 nx ny ix iy (k % nt)) (bidx2 nx ny ix iy ((k - 1) % nt))) delta
        (List.range (2 * nt - 1)).reverse.foldl (fun delta (k : Nat) =>
          lower lT delta (bidx2 nx ny ix iy (k % nt)) (bidx2 nx ny ix iy ((k + 1) % nt))) delta)
        delta) delta
  else delta

example : minplusRelax 3 1 4 (1 : Rat) 2 [5, 5, ⊤, ⊤, ⊤, ⊤, 1, ⊤, ⊤, ⊤, ⊤, 0] =
    [4, 3, 2, 3, 4, 4, 1, 2, 2, 2, 1, 0] := by decide +kernel

end Adaptive

namespace MinPlus

section Edges

variable {K : Type} [Field K] [LinearOrder K] [IsStrictOrderedRing K]

def edge (l : K) (e : Pos × Pos) : Edge Pos (WithTop K) := ⟨e.1, e.2, shift (l : WithTop K)⟩

/-- The rows and columns of one heading. -/
def planeEdges (d : Dims) (it : Nat) : List (Pos × Pos) :=
  ((List.range d.ny).flatMap fun (iy : Nat) => sweepAxis d.nx fun ix => ⟨ix, iy, it⟩) ++
    (List.range d.nx).flatMap fun (ix : Nat) => sweepAxis d.ny fun iy => ⟨ix, iy, it⟩

def flatEdges (d : Dims) : List (Pos × Pos) := (List.range d.nt).flatMap (planeEdges d)

/-- The circles of headings. -/
def turnEdges (d : Dims) : List (Pos × Pos) :=
  if 1 < d.nt then
    (List.range d.ny).flatMap fun (iy : Nat) =>
      (List.range d.nx).flatMap fun (ix : Nat) => sweepTurn d.nt fun it => ⟨ix, iy, it⟩
  else []

def minplusEdges (d : Dims) (lXy lT : K) : List (Edge Pos (WithTop K)) :=
  (flatEdges d).map (edge lXy) ++ (turnEdges d).map (edge lT)

theorem foldl_relaxEdge (l : K) (es : List (Pos × Pos)) (f : Pos → WithTop K) :
    es.foldl (relaxEdge l) f = Relaxation.pass (es.map (edge l)) f := by
  rw [Relaxation.pass, List.foldl_map]
  rfl

theorem minplusRelax_eq_pass (d : Dims) (lXy lT : K) (f : Pos → WithTop K) :
    minplusRelax d lXy lT f = Relaxation.pass (minplusEdges d lXy lT) f := by
  have hflat : minplusRelax d lXy lT f = if 1 < d.nt then
      ((List.range d.ny).flatMap fun (iy : Nat) => (List.range d.nx).flatMap fun (ix : Nat) =>
        sweepTurn d.nt fun it => (⟨ix, iy, it⟩ : Pos)).foldl (relaxEdge lT)
          ((flatEdges d).foldl (relaxEdge lXy) f)
      else (flatEdges d).foldl (relaxEdge lXy) f := rfl
  rw [hflat, minplusEdges, pass_append, ← foldl_relaxEdge, ← foldl_relaxEdge, turnEdges]
  split <;> rfl

theorem sweepAxis_edges (l : K) (n : Nat) (cell : Nat → Pos) :
    (sweepAxis n cell).map (edge l) =
      forward (l : WithTop K) (n - 1) cell ++ backward (l : WithTop K) (n - 1) cell := by
  simp only [sweepAxis, List.map_append, List.map_map, forward, backward]
  rfl

theorem sweepTurn_eq (n : Nat) (cell : Nat → Pos) :
    sweepTurn n cell = sweepAxis (2 * n) fun k => cell (k % n) := rfl

theorem carries_sweepAxis (l : K) {n a b : Nat} (ha : a < n) (hb : b < n) (cell : Nat → Pos) :
    Carries ((sweepAxis n cell).map (edge l)) (cell a) (cell b)
      (shift ((b - a + (a - b)) • (l : WithTop K))) := by
  rw [sweepAxis_edges]
  exact carries_sweep (Nat.le_sub_one_of_lt ha) (Nat.le_sub_one_of_lt hb)

/-- Two turns are enough: one of the two headings has a second copy that lies within half a
turn of the other. -/
theorem carries_sweepTurn (l : K) {n a b : Nat} (ha : a < n) (hb : b < n) (cell : Nat → Pos) :
    Carries ((sweepTurn n cell).map (edge l)) (cell a) (cell b)
      (shift (circularDistance n a b • (l : WithTop K))) := by
  have hcopy : ∃ a' b', a' < 2 * n ∧ b' < 2 * n ∧ a' % n = a ∧ b' % n = b ∧
      b' - a' + (a' - b') = circularDistance n a b := by
    unfold circularDistance
    rcases Nat.lt_or_ge (n - ((a : Int) - b).natAbs) ((a : Int) - b).natAbs with hfar | hnear
    · rcases Nat.lt_or_ge a b with hab | hab
      · refine ⟨a + n, b, by omega, by omega, ?_, Nat.mod_eq_of_lt hb, by omega⟩
        rw [Nat.add_mod_right, Nat.mod_eq_of_lt ha]
      · refine ⟨a, b + n, by omega, by omega, Nat.mod_eq_of_lt ha, ?_, by omega⟩
        rw [Nat.add_mod_right, Nat.mod_eq_of_lt hb]
    · exact ⟨a, b, by omega, by omega, Nat.mod_eq_of_lt ha, Nat.mod_eq_of_lt hb, by omega⟩
  obtain ⟨a', b', ha', hb', rfl, rfl, hdist⟩ := hcopy
  rw [← hdist, sweepTurn_eq]
  exact carries_sweepAxis l ha' hb' fun k => cell (k % n)

variable {d : Dims}

theorem carries_plane (l : K) {a b x y : Nat} (it : Nat) (ha : a < d.nx) (hb : b < d.ny)
    (hx : x < d.nx) (hy : y < d.ny) :
    Carries ((planeEdges d it).map (edge l)) ⟨a, b, it⟩ ⟨x, y, it⟩
      (shift (manhattan ⟨a, b, it⟩ ⟨x, y, it⟩ • (l : WithTop K))) := by
  have hrow := carries_sweepAxis l ha hx fun ix => ⟨ix, b, it⟩
  have hcolumn := carries_sweepAxis l hb hy fun iy => ⟨x, iy, it⟩
  rw [planeEdges, List.map_append, List.map_flatMap, List.map_flatMap]
  have hboth := (hrow.flatMap (fun (iy : Nat) =>
    (sweepAxis d.nx fun ix => (⟨ix, iy, it⟩ : Pos)).map (edge l)) (List.mem_range.mpr hb)).append
    (hcolumn.flatMap (fun (ix : Nat) =>
      (sweepAxis d.ny fun iy => (⟨ix, iy, it⟩ : Pos)).map (edge l)) (List.mem_range.mpr hx))
  have hsum : manhattan ⟨a, b, it⟩ ⟨x, y, it⟩ = x - a + (a - x) + (y - b + (b - y)) := by
    simp only [manhattan]
    omega
  rwa [shift_comp, ← add_nsmul, ← hsum] at hboth

/-- The routine carries a value from any state to any other at the cost of the way. -/
theorem carries_minplusEdges (lXy lT : K) {s p : Pos} (hs : d.Contains s) (hp : d.Contains p) :
    Carries (minplusEdges d lXy lT) s p (shift ((stepCost d lXy lT s p : K) : WithTop K)) := by
  obtain ⟨a, b, c⟩ := s
  obtain ⟨x, y, t⟩ := p
  obtain ⟨⟨ha, ha'⟩, ⟨hb, hb'⟩, hc, hc'⟩ := hs
  obtain ⟨⟨hx, hx'⟩, ⟨hy, hy'⟩, ht, ht'⟩ := hp
  lift a to Nat using ha
  lift b to Nat using hb
  lift c to Nat using hc
  lift x to Nat using hx
  lift y to Nat using hy
  lift t to Nat using ht
  simp only [Nat.cast_lt] at ha' hb' hc' hx' hy' ht'
  have hflat : Carries ((flatEdges d).map (edge lXy)) ⟨a, b, c⟩ ⟨x, y, c⟩
      (shift (manhattan ⟨a, b, c⟩ ⟨x, y, t⟩ • (lXy : WithTop K))) := by
    rw [flatEdges, List.map_flatMap]
    exact (carries_plane lXy c ha' hb' hx' hy').flatMap (fun it => (planeEdges d it).map (edge lXy))
      (List.mem_range.mpr hc')
  have hturn : Carries ((turnEdges d).map (edge lT)) ⟨x, y, c⟩ ⟨x, y, t⟩
      (shift (circularDistance d.nt c t • (lT : WithTop K))) := by
    unfold turnEdges
    split
    · rw [List.map_flatMap]
      apply Carries.flatMap _ (List.mem_range.mpr hy')
      rw [List.map_flatMap]
      apply Carries.flatMap _ (List.mem_range.mpr hx')
      exact carries_sweepTurn lT hc' ht' fun it => ⟨x, y, it⟩
    · have heq : c = t := by omega
      have hzero : circularDistance d.nt c t = 0 := by
        rw [heq, circularDistance]
        simp
      rw [hzero, zero_nsmul, heq]
      apply (Carries.refl _ _).mono
      exact fun v => le_of_eq (add_zero v).symm
  have hboth := hflat.append hturn
  rwa [shift_comp, ← coe_stepCost] at hboth

/-- Neighbours on the grid, and what a step to the first from the second may cost. -/
structure Beside (d : Dims) (lXy lT c : K) (p q : Pos) : Prop where
  dst : d.Contains p
  src : d.Contains q
  cost : ∀ s, d.Contains s → stepCost d lXy lT s p ≤ stepCost d lXy lT s q + c

theorem mem_sweepAxis {n : Nat} {cell : Nat → Pos} {e : Pos × Pos} (h : e ∈ sweepAxis n cell) :
    ∃ k, k + 1 < n ∧ (e = (cell (k + 1), cell k) ∨ e = (cell k, cell (k + 1))) := by
  rcases List.mem_append.mp h with h | h
  · obtain ⟨k, hk, rfl⟩ := List.mem_map.mp h
    exact ⟨k, by have := List.mem_range.mp hk; omega, Or.inl rfl⟩
  · obtain ⟨k, hk, rfl⟩ := List.mem_map.mp h
    exact ⟨k, by have := List.mem_range.mp (List.mem_reverse.mp hk); omega, Or.inr rfl⟩

/-- Two cells of a row or of a column. -/
theorem Beside.of_manhattan {lXy : K} (lT : K) (hXy : 0 ≤ lXy) {p q : Pos} (hp : d.Contains p)
    (hq : d.Contains q) (ht : p.it = q.it) (hnear : manhattan q p ≤ 1) :
    Beside d lXy lT lXy p q := by
  refine ⟨hp, hq, ?_⟩
  intro s _
  have hle : manhattan s p ≤ manhattan s q + 1 := by
    unfold manhattan at hnear ⊢
    omega
  have hcast : (manhattan s p : K) ≤ manhattan s q + 1 := by exact_mod_cast hle
  unfold stepCost
  rw [ht]
  have hmul := mul_le_mul_of_nonneg_left hcast hXy
  linarith

/-- Two headings of a circle. -/
theorem Beside.of_turn (lXy : K) {lT : K} (hT : 0 ≤ lT) {p q : Pos} (hp : d.Contains p)
    (hq : d.Contains q) (hx : p.ix = q.ix) (hy : p.iy = q.iy)
    (hnear : circularDistance d.nt q.it p.it ≤ 1) : Beside d lXy lT lT p q := by
  refine ⟨hp, hq, ?_⟩
  intro s hs
  have hle : circularDistance d.nt s.it p.it ≤ circularDistance d.nt s.it q.it + 1 := by
    obtain ⟨_, _, hs⟩ := hs
    obtain ⟨_, _, hp⟩ := hp
    obtain ⟨_, _, hq⟩ := hq
    unfold circularDistance at hnear ⊢
    omega
  have hcast : (circularDistance d.nt s.it p.it : K) ≤ circularDistance d.nt s.it q.it + 1 := by
    exact_mod_cast hle
  have hmanhattan : manhattan s p = manhattan s q := by rw [manhattan, manhattan, hx, hy]
  unfold stepCost
  rw [hmanhattan]
  have hmul := mul_le_mul_of_nonneg_left hcast hT
  linarith

theorem Beside.of_flatEdges {lXy : K} (lT : K) (hXy : 0 ≤ lXy) {e : Pos × Pos}
    (he : e ∈ flatEdges d) : Beside d lXy lT lXy e.1 e.2 := by
  obtain ⟨it, hit, he⟩ := List.mem_flatMap.mp he
  have ht := List.mem_range.mp hit
  rcases List.mem_append.mp he with he | he
  · obtain ⟨iy, hiy, he⟩ := List.mem_flatMap.mp he
    have hy := List.mem_range.mp hiy
    obtain ⟨k, hk, he⟩ := mem_sweepAxis he
    rcases he with rfl | rfl <;>
      exact Beside.of_manhattan lT hXy (by simp [Dims.Contains]; omega)
        (by simp [Dims.Contains]; omega) rfl (by simp [manhattan])
  · obtain ⟨ix, hix, he⟩ := List.mem_flatMap.mp he
    have hx := List.mem_range.mp hix
    obtain ⟨k, hk, he⟩ := mem_sweepAxis he
    rcases he with rfl | rfl <;>
      exact Beside.of_manhattan lT hXy (by simp [Dims.Contains]; omega)
        (by simp [Dims.Contains]; omega) rfl (by simp [manhattan])

theorem circularDistance_succ {n : Nat} (hn : 0 < n) (k : Nat) :
    circularDistance n ((k % n : Nat) : Int) (((k + 1) % n : Nat) : Int) ≤ 1 ∧
      circularDistance n (((k + 1) % n : Nat) : Int) ((k % n : Nat) : Int) ≤ 1 := by
  have hlt := Nat.mod_lt k hn
  rw [← Nat.mod_add_mod k n 1]
  unfold circularDistance
  rcases Nat.lt_or_ge (k % n + 1) n with hin | hout
  · rw [Nat.mod_eq_of_lt hin]
    omega
  · have hself : k % n + 1 = n := by omega
    rw [hself, Nat.mod_self]
    omega

theorem Beside.of_turnEdges (lXy : K) {lT : K} (hT : 0 ≤ lT) {e : Pos × Pos}
    (he : e ∈ turnEdges d) : Beside d lXy lT lT e.1 e.2 := by
  unfold turnEdges at he
  split at he
  · next hturns =>
    obtain ⟨iy, hiy, he⟩ := List.mem_flatMap.mp he
    obtain ⟨ix, hix, he⟩ := List.mem_flatMap.mp he
    have hx := List.mem_range.mp hix
    have hy := List.mem_range.mp hiy
    have hn : 0 < d.nt := by omega
    rw [sweepTurn_eq] at he
    obtain ⟨k, _, he⟩ := mem_sweepAxis he
    have hk := Nat.mod_lt k hn
    have hk' := Nat.mod_lt (k + 1) hn
    obtain ⟨hup, hdown⟩ := circularDistance_succ hn k
    have hmem : ∀ m, m % d.nt < d.nt → d.Contains ⟨ix, iy, (m % d.nt : Nat)⟩ := by
      intro m hm
      refine ⟨⟨?_, ?_⟩, ⟨?_, ?_⟩, ?_, ?_⟩ <;> simp only <;> omega
    rcases he with rfl | rfl
    · exact Beside.of_turn lXy hT (hmem _ hk') (hmem _ hk) rfl rfl hup
    · exact Beside.of_turn lXy hT (hmem _ hk) (hmem _ hk') rfl rfl hdown
  · exact absurd he List.not_mem_nil

theorem Beside.of_mem {lXy lT : K} (hXy : 0 ≤ lXy) (hT : 0 ≤ lT) {e : Edge Pos (WithTop K)}
    (he : e ∈ minplusEdges d lXy lT) :
    ∃ c : K, e.step = shift (c : WithTop K) ∧ Beside d lXy lT c e.dst e.src := by
  rcases List.mem_append.mp he with he | he
  · obtain ⟨q, hq, rfl⟩ := List.mem_map.mp he
    exact ⟨lXy, rfl, Beside.of_flatEdges lT hXy hq⟩
  · obtain ⟨q, hq, rfl⟩ := List.mem_map.mp he
    exact ⟨lT, rfl, Beside.of_turnEdges lXy hT hq⟩

theorem minplusRelax_le (lXy lT : K) (f : Pos → WithTop K) {s p : Pos} (hs : d.Contains s)
    (hp : d.Contains p) :
    minplusRelax d lXy lT f p ≤ f s + ((stepCost d lXy lT s p : K) : WithTop K) := by
  rw [minplusRelax_eq_pass]
  exact carries_minplusEdges lXy lT hs hp f

/-- On the grid a value accounts for the way from some state. -/
def Accounts (d : Dims) (lXy lT : K) (f : Pos → WithTop K) (p : Pos) (v : WithTop K) : Prop :=
  d.Contains p → ∃ s, d.Contains s ∧ f s + ((stepCost d lXy lT s p : K) : WithTop K) ≤ v

theorem minplusRelax_accounts {lXy lT : K} (hXy : 0 ≤ lXy) (hT : 0 ≤ lT) (f : Pos → WithTop K) :
    ∀ p, Accounts d lXy lT f p (minplusRelax d lXy lT f p) := by
  rw [minplusRelax_eq_pass]
  apply pass_invariant
  · intro e he v h _
    obtain ⟨c, hstep, hbeside⟩ := Beside.of_mem hXy hT he
    obtain ⟨s, hs, hle⟩ := h hbeside.src
    refine ⟨s, hs, ?_⟩
    calc f s + ((stepCost d lXy lT s e.dst : K) : WithTop K)
        ≤ f s + ((stepCost d lXy lT s e.src + c : K) : WithTop K) :=
          add_le_add_right (WithTop.coe_le_coe.mpr (hbeside.cost s hs)) _
      _ = f s + ((stepCost d lXy lT s e.src : K) : WithTop K) + (c : WithTop K) := by
          rw [WithTop.coe_add, add_assoc]
      _ ≤ v + (c : WithTop K) := add_le_add_left hle _
      _ = e.step v := by rw [hstep, shift_apply]
  · intro p hp
    refine ⟨p, hp, ?_⟩
    rw [stepCost_self, WithTop.coe_zero, add_zero]

theorem minplusRelax_eq_distanceTransform {lXy lT : K} (hXy : 0 ≤ lXy) (hT : 0 ≤ lT)
    (f : Pos → WithTop K) {p : Pos} (hp : d.Contains p) :
    minplusRelax d lXy lT f p = distanceTransform d lXy lT f p := by
  apply le_antisymm
  · apply Finset.le_inf
    intro s hs
    exact minplusRelax_le lXy lT f (Dims.mem_planes.mp (List.mem_toFinset.mp hs)) hp
  · obtain ⟨s, hs, hle⟩ := minplusRelax_accounts hXy hT f p hp
    exact (Finset.inf_le (List.mem_toFinset.mpr (Dims.mem_planes.mpr hs))).trans hle

/-- Every edge is settled afterwards, so a second run changes nothing. -/
theorem minplusRelax_idempotent {lXy lT : K} (hXy : 0 ≤ lXy) (hT : 0 ≤ lT)
    (f : Pos → WithTop K) :
    minplusRelax d lXy lT (minplusRelax d lXy lT f) = minplusRelax d lXy lT f := by
  rw [minplusRelax_eq_pass d lXy lT (minplusRelax d lXy lT f)]
  apply pass_eq_self
  intro e he
  obtain ⟨c, hstep, hbeside⟩ := Beside.of_mem hXy hT he
  obtain ⟨s, hs, hle⟩ := minplusRelax_accounts hXy hT f e.src hbeside.src
  calc minplusRelax d lXy lT f e.dst
      ≤ f s + ((stepCost d lXy lT s e.dst : K) : WithTop K) := minplusRelax_le lXy lT f hs hbeside.dst
    _ ≤ f s + ((stepCost d lXy lT s e.src + c : K) : WithTop K) :=
        add_le_add_right (WithTop.coe_le_coe.mpr (hbeside.cost s hs)) _
    _ = f s + ((stepCost d lXy lT s e.src : K) : WithTop K) + (c : WithTop K) := by
        rw [WithTop.coe_add, add_assoc]
    _ ≤ minplusRelax d lXy lT f e.src + (c : WithTop K) := add_le_add_left hle _
    _ = e.step (minplusRelax d lXy lT f e.src) := by rw [hstep, shift_apply]

end Edges

section Copies

variable {K : Type} [Field K] [LinearOrder K] {d : Dims}

/-- The address of a state in the slice. -/
def slot (d : Dims) (p : Pos) : Nat := bidx2 d.nx d.ny p.ix p.iy p.it

/-- The slice stores a grid whose axes are turned. -/
theorem slot_eq (p : Pos) : slot d p = ((Dims.mk d.ny d.nt d.nx).flat ⟨p.iy, p.it, p.ix⟩).toNat := by
  unfold slot bidx2 Dims.flat
  congr 1
  simp only
  ring

theorem contains_turned {p : Pos} (hp : d.Contains p) :
    (Dims.mk d.ny d.nt d.nx).Contains ⟨p.iy, p.it, p.ix⟩ := ⟨hp.2.1, hp.2.2, hp.1⟩

theorem slot_lt {p : Pos} (hp : d.Contains p) : slot d p < d.count := by
  have hlt := Dims.flat_lt (contains_turned hp)
  have hcount : (Dims.mk d.ny d.nt d.nx).count = d.count := by
    unfold Dims.count
    ring
  have hnonneg := Dims.flat_nonneg (contains_turned hp)
  rw [slot_eq, ← hcount]
  omega

theorem slot_injective (p q : Pos) (hp : d.Contains p) (hq : d.Contains q)
    (h : slot d p = slot d q) : p = q := by
  have hp0 := Dims.flat_nonneg (contains_turned hp)
  have hq0 := Dims.flat_nonneg (contains_turned hq)
  rw [slot_eq, slot_eq] at h
  have heq := Dims.flat_injective (contains_turned hp) (contains_turned hq) (by omega)
  simp only [Pos.mk.injEq] at heq
  obtain ⟨hy, ht, hx⟩ := heq
  cases p
  cases q
  simp_all

/-- One relaxation of the slice. -/
def lowerAt (d : Dims) (l : K) (delta : List (WithTop K)) (e : Pos × Pos) : List (WithTop K) :=
  Adaptive.lower l delta (slot d e.1) (slot d e.2)

theorem stores_lowerAt {l : K} {delta : List (WithTop K)} {f : Pos → WithTop K} {e : Pos × Pos}
    (h : Stores d.Contains (slot d) delta f) (hdst : d.Contains e.1) (hsrc : d.Contains e.2) :
    Stores d.Contains (slot d) (lowerAt d l delta e) (relaxEdge l f e) := by
  unfold lowerAt Adaptive.lower relaxEdge
  simp only [h.getD hdst, h.getD hsrc]
  split
  · exact h.update slot_injective hdst _
  · exact h

theorem stores_foldl_lowerAt {l : K} {es : List (Pos × Pos)} {delta : List (WithTop K)}
    {f : Pos → WithTop K} (h : Stores d.Contains (slot d) delta f)
    (hes : ∀ e ∈ es, d.Contains e.1 ∧ d.Contains e.2) :
    Stores d.Contains (slot d) (es.foldl (lowerAt d l) delta) (es.foldl (relaxEdge l) f) :=
  List.foldl_rel h fun e he _ _ h => stores_lowerAt h (hes e he).1 (hes e he).2

theorem length_foldl_lowerAt (l : K) (es : List (Pos × Pos)) :
    ∀ delta : List (WithTop K), (es.foldl (lowerAt d l) delta).length = delta.length := by
  induction es with
  | nil => exact fun delta => rfl
  | cons e es ih =>
    intro delta
    rw [List.foldl_cons, ih, lowerAt, Adaptive.lower]
    split
    · rw [List.length_set]
    · rfl

/-- The loops of the copy, one relaxation after the other. -/
theorem adaptive_eq_foldl (lXy lT : K) (delta : List (WithTop K)) :
    Adaptive.minplusRelax d.nx d.ny d.nt lXy lT delta =
      (turnEdges d).foldl (lowerAt d lT) ((flatEdges d).foldl (lowerAt d lXy) delta) := by
  have hrange : ∀ n, List.range' 1 n = (List.range n).map (· + 1) := by
    intro n
    rw [List.range'_eq_map_range]
    exact List.map_congr_left fun k _ => Nat.add_comm 1 k
  unfold Adaptive.minplusRelax flatEdges turnEdges planeEdges sweepAxis sweepTurn
  by_cases hturns : 1 < d.nt
  · simp only [if_pos hturns, hrange, List.foldl_flatMap, List.foldl_append, List.foldl_map,
      lowerAt, slot, Int.natCast_emod, Nat.cast_add, Nat.cast_one,
      add_sub_cancel_right]
  · simp only [if_neg hturns, hrange, List.foldl_flatMap, List.foldl_append, List.foldl_map,
      List.foldl_nil, lowerAt, slot, Nat.cast_add, Nat.cast_one, add_sub_cancel_right]

theorem stores_slice {V : Type} {delta : List V} (hlen : delta.length = d.count) (v : V) :
    Stores d.Contains (slot d) delta fun p => delta.getD (slot d p) v := by
  intro p hp
  have hlt : slot d p < delta.length := by
    rw [hlen]
    exact slot_lt hp
  simp only [List.getD_eq_getElem?_getD, List.getElem?_eq_getElem hlt, Option.getD_some]

/-- The copy leaves in its slice what the routine of the filter computes. -/
theorem stores_adaptive [IsStrictOrderedRing K] {lXy lT : K} (hXy : 0 ≤ lXy) (hT : 0 ≤ lT)
    {delta : List (WithTop K)} {f : Pos → WithTop K}
    (h : Stores d.Contains (slot d) delta f) :
    Stores d.Contains (slot d) (Adaptive.minplusRelax d.nx d.ny d.nt lXy lT delta)
      (minplusRelax d lXy lT f) := by
  rw [adaptive_eq_foldl, minplusRelax_eq_pass, minplusEdges, pass_append, ← foldl_relaxEdge,
    ← foldl_relaxEdge]
  apply stores_foldl_lowerAt
  · apply stores_foldl_lowerAt h
    intro e he
    have hbeside := Beside.of_flatEdges lT hXy he
    exact ⟨hbeside.dst, hbeside.src⟩
  · intro e he
    have hbeside := Beside.of_turnEdges lXy hT he
    exact ⟨hbeside.dst, hbeside.src⟩

end Copies

end MinPlus

open MinPlus in
/-- In exact arithmetic the routine is the distance transform of its field, running it again
changes nothing, and both copies of it compute the same field. -/
theorem minplusRelax_exact {K : Type} [Field K] [LinearOrder K] [IsStrictOrderedRing K] (d : Dims)
    (lXy lT : K) (hXy : 0 ≤ lXy) (hT : 0 ≤ lT) :
    (∀ f p, d.Contains p → minplusRelax d lXy lT f p = distanceTransform d lXy lT f p) ∧
    (∀ f, minplusRelax d lXy lT (minplusRelax d lXy lT f) = minplusRelax d lXy lT f) ∧
    ∀ delta : List (WithTop K), delta.length = d.count →
      (Adaptive.minplusRelax d.nx d.ny d.nt lXy lT delta).length = d.count ∧
      ∀ p, d.Contains p →
        (Adaptive.minplusRelax d.nx d.ny d.nt lXy lT delta).getD
            (bidx2 d.nx d.ny p.ix p.iy p.it) ⊤ =
          minplusRelax d lXy lT (fun q => delta.getD (bidx2 d.nx d.ny q.ix q.iy q.it) ⊤) p := by
  refine ⟨fun f p hp => minplusRelax_eq_distanceTransform hXy hT f hp,
    fun f => minplusRelax_idempotent hXy hT f, ?_⟩
  intro delta hlen
  constructor
  · rw [adaptive_eq_foldl, length_foldl_lowerAt, length_foldl_lowerAt, hlen]
  · intro p hp
    exact (stores_adaptive hXy hT (stores_slice hlen ⊤)).getD hp ⊤

theorem minplusRelax_circle :
    minplusRelax ⟨3, 1, 4⟩ (1 : Rat) 2 (fun p => if p = ⟨0, 0, 2⟩ then 1 else ⊤) ⟨0, 0, 0⟩ =
      distanceTransform ⟨3, 1, 4⟩ (1 : Rat) 2 (fun p => if p = ⟨0, 0, 2⟩ then 1 else ⊤) ⟨0, 0, 0⟩ :=
  (minplusRelax_exact ⟨3, 1, 4⟩ (1 : Rat) 2 (by decide) (by decide)).1 _ _ (by decide)

end ValueIteration
