import Mathlib.Data.List.Nodup
import Mathlib.Data.Int.Order.Basic
import Mathlib.Tactic.Ring
import Mathlib.Tactic.Linarith
import ValueIteration.Lib.Loops

/-!
# Flat three-dimensional grids

Cells are stored row after row, the heading varying fastest:
`flat p = it + ix * nt + iy * (nt * nx)`. A grid carries the proof that its
storage has exactly `nx * ny * nt` cells.
-/

set_option autoImplicit false

/-- A lattice point; it need not lie inside any grid. -/
structure Pos where
  ix : Int
  iy : Int
  it : Int
  deriving DecidableEq, Repr

/-- The distance of two points of a circle of `n`, the shorter way around. -/
def circularDistance (n : Nat) (a b : Int) : Nat := min (a - b).natAbs (n - (a - b).natAbs)

structure Dims where
  nx : Nat
  ny : Nat
  nt : Nat
  deriving DecidableEq, Repr

namespace Dims

variable (d : Dims)

def Contains (p : Pos) : Prop :=
  (0 ≤ p.ix ∧ p.ix < d.nx) ∧ (0 ≤ p.iy ∧ p.iy < d.ny) ∧ 0 ≤ p.it ∧ p.it < d.nt

instance (p : Pos) : Decidable (d.Contains p) := by
  unfold Contains; infer_instance

def count : Nat := d.nx * d.ny * d.nt

def flat (p : Pos) : Int := p.it + p.ix * d.nt + p.iy * (d.nt * d.nx)

/-- The position stored at an index. -/
def unflat (i : Nat) : Pos := ⟨((i / d.nt) % d.nx : Nat), (i / (d.nt * d.nx) : Nat), (i % d.nt : Nat)⟩

/-- All positions in storage order. -/
def all : List Pos :=
  (List.range d.ny).flatMap fun (iy : Nat) =>
    (List.range d.nx).flatMap fun (ix : Nat) =>
      (List.range d.nt).map fun (it : Nat) => ⟨ix, iy, it⟩

variable {d}

theorem mem_all {p : Pos} : p ∈ d.all ↔ d.Contains p := by
  obtain ⟨ix, iy, it⟩ := p
  simp only [all, List.mem_flatMap, List.mem_range, List.mem_map, Pos.mk.injEq, Contains]
  constructor
  · rintro ⟨y, hy, x, hx, t, ht, rfl, rfl, rfl⟩
    omega
  · rintro ⟨⟨hx0, hx⟩, ⟨hy0, hy⟩, ht0, ht⟩
    exact ⟨iy.toNat, by omega, ix.toNat, by omega, it.toNat, by omega, by omega, by omega, by omega⟩

theorem nodup_all : d.all.Nodup := by
  have hinj {f : Nat → Pos} (hf : ∀ a b, f a = f b → a = b) (n : Nat) :
      ((List.range n).map f).Nodup := List.Nodup.map hf List.nodup_range
  refine List.nodup_flatMap.mpr ⟨?_, ?_⟩
  · intro iy _
    refine List.nodup_flatMap.mpr ⟨?_, ?_⟩
    · intro ix _
      exact hinj (fun a b h => by simpa using h) _
    · refine List.nodup_range.imp ?_
      intro a b hab p ha hb
      obtain ⟨t, _, rfl⟩ := List.mem_map.mp ha
      obtain ⟨t', _, h⟩ := List.mem_map.mp hb
      simp only [Pos.mk.injEq] at h
      omega
  · refine List.nodup_range.imp ?_
    intro a b hab p ha hb
    obtain ⟨x, _, ha⟩ := List.mem_flatMap.mp ha
    obtain ⟨y, _, hb⟩ := List.mem_flatMap.mp hb
    obtain ⟨t, _, rfl⟩ := List.mem_map.mp ha
    obtain ⟨t', _, h⟩ := List.mem_map.mp hb
    simp only [Pos.mk.injEq] at h
    omega

theorem length_flatMap_range {α : Type} {k : Nat} (f : Nat → List α) (n : Nat)
    (h : ∀ i, (f i).length = k) : ((List.range n).flatMap f).length = n * k := by
  induction n with
  | zero => simp
  | succ n ih => simp [List.range_succ, List.flatMap_append, ih, h, Nat.add_mul]

@[simp] theorem length_all : d.all.length = d.count := by
  have hrow (iy : Nat) : ((List.range d.nx).flatMap fun (ix : Nat) =>
      (List.range d.nt).map fun (it : Nat) => (⟨ix, iy, it⟩ : Pos)).length = d.nx * d.nt :=
    length_flatMap_range _ _ fun _ => by simp
  rw [all, length_flatMap_range _ _ hrow, count]
  ring

theorem flat_nonneg {p : Pos} (h : d.Contains p) : 0 ≤ d.flat p := by
  obtain ⟨⟨hx, _⟩, ⟨hy, _⟩, ht, _⟩ := h
  unfold flat
  positivity

theorem flat_lt {p : Pos} (h : d.Contains p) : d.flat p < d.count := by
  obtain ⟨⟨hx0, hx⟩, ⟨hy0, hy⟩, ht0, ht⟩ := h
  have hnt : (0 : Int) ≤ d.nt := by omega
  have h1 : p.it + p.ix * d.nt < d.nt * d.nx := by
    have : p.ix * d.nt ≤ (d.nx - 1) * d.nt := mul_le_mul_of_nonneg_right (by omega) hnt
    linarith [this, mul_comm (d.nt : Int) d.nx, sub_mul (d.nx : Int) 1 d.nt, one_mul (d.nt : Int)]
  have h2 : p.iy * (d.nt * d.nx) ≤ ((d.ny : Int) - 1) * (d.nt * d.nx) :=
    mul_le_mul_of_nonneg_right (by omega) (by positivity)
  have h3 : ((d.ny : Int) - 1) * (d.nt * d.nx) = (d.count : Int) - d.nt * d.nx := by
    simp only [count, Nat.cast_mul]; ring
  unfold flat
  linarith

theorem flat_injective {p q : Pos} (hp : d.Contains p) (hq : d.Contains q)
    (h : d.flat p = d.flat q) : p = q := by
  obtain ⟨px, py, pt⟩ := p
  obtain ⟨qx, qy, qt⟩ := q
  obtain ⟨⟨hpx0, hpx⟩, ⟨hpy0, hpy⟩, hpt0, hpt⟩ := hp
  obtain ⟨⟨hqx0, hqx⟩, ⟨hqy0, hqy⟩, hqt0, hqt⟩ := hq
  simp only [flat] at *
  have hform (x y t : Int) : t + x * d.nt + y * (d.nt * d.nx) = t + d.nt * (x + d.nx * y) := by ring
  rw [hform, hform] at h
  have ht : pt = qt := by
    have := congrArg (· % (d.nt : Int)) h
    simpa [Int.add_mul_emod_self_left, Int.emod_eq_of_lt hpt0 hpt, Int.emod_eq_of_lt hqt0 hqt]
      using this
  have hxy : px + d.nx * py = qx + d.nx * qy := by
    have hnt : (d.nt : Int) ≠ 0 := by omega
    have : d.nt * (px + d.nx * py) = d.nt * (qx + d.nx * qy) := by omega
    exact mul_left_cancel₀ hnt this
  have hx : px = qx := by
    have := congrArg (· % (d.nx : Int)) hxy
    simpa [Int.add_mul_emod_self_left, Int.emod_eq_of_lt hpx0 hpx, Int.emod_eq_of_lt hqx0 hqx]
      using this
  have hy : py = qy := by
    have hnx : (d.nx : Int) ≠ 0 := by omega
    have : d.nx * py = d.nx * qy := by omega
    exact mul_left_cancel₀ hnx this
  rw [hx, hy, ht]

theorem unflat_flat {p : Pos} (hp : d.Contains p) : d.unflat (d.flat p).toNat = p := by
  obtain ⟨px, py, pt⟩ := p
  obtain ⟨⟨hx0, hx⟩, ⟨hy0, hy⟩, ht0, ht⟩ := hp
  simp only at hx0 hx hy0 hy ht0 ht
  obtain ⟨x, rfl⟩ := Int.eq_ofNat_of_zero_le hx0
  obtain ⟨y, rfl⟩ := Int.eq_ofNat_of_zero_le hy0
  obtain ⟨t, rfl⟩ := Int.eq_ofNat_of_zero_le ht0
  have hx' : x < d.nx := by exact_mod_cast hx
  have ht' : t < d.nt := by exact_mod_cast ht
  have hflat : (d.flat ⟨x, y, t⟩).toNat = t + d.nt * (x + d.nx * y) := by
    have : d.flat ⟨x, y, t⟩ = ((t + d.nt * (x + d.nx * y) : Nat) : Int) := by
      simp only [flat, Nat.cast_add, Nat.cast_mul]
      ring
    rw [this, Int.toNat_natCast]
  have hdiv : (t + d.nt * (x + d.nx * y)) / d.nt = x + d.nx * y := by
    rw [Nat.add_mul_div_left _ _ (by omega), Nat.div_eq_of_lt ht', Nat.zero_add]
  have hdiv2 : (t + d.nt * (x + d.nx * y)) / (d.nt * d.nx) = y := by
    rw [← Nat.div_div_eq_div_mul, hdiv, Nat.add_mul_div_left _ _ (by omega), Nat.div_eq_of_lt hx',
      Nat.zero_add]
  have hmod : (t + d.nt * (x + d.nx * y)) % d.nt = t := by
    rw [Nat.add_mul_mod_self_left, Nat.mod_eq_of_lt ht']
  rw [unflat, hflat, hdiv, hdiv2, hmod, Nat.add_mul_mod_self_left, Nat.mod_eq_of_lt hx']

theorem unflat_spec {i : Nat} (hi : i < d.count) :
    d.Contains (d.unflat i) ∧ (d.flat (d.unflat i)).toNat = i := by
  have hpos : 0 < d.count := by omega
  have hnt : 0 < d.nt := Nat.pos_of_mul_pos_left hpos
  have hnx : 0 < d.nx := Nat.pos_of_mul_pos_right (Nat.pos_of_mul_pos_right hpos)
  have hy : i / (d.nt * d.nx) < d.ny := by
    rw [Nat.div_lt_iff_lt_mul (Nat.mul_pos hnt hnx)]
    calc i < d.nx * d.ny * d.nt := hi
      _ = d.ny * (d.nt * d.nx) := by ring
  refine ⟨⟨⟨?_, ?_⟩, ⟨?_, ?_⟩, ?_, ?_⟩, ?_⟩
  · exact Int.natCast_nonneg _
  · exact Int.ofNat_lt.mpr (Nat.mod_lt _ hnx)
  · exact Int.natCast_nonneg _
  · exact Int.ofNat_lt.mpr hy
  · exact Int.natCast_nonneg _
  · exact Int.ofNat_lt.mpr (Nat.mod_lt _ hnt)
  · have hflat : d.flat (d.unflat i) =
        ((i % d.nt + d.nt * ((i / d.nt) % d.nx + d.nx * (i / (d.nt * d.nx))) : Nat) : Int) := by
      simp only [flat, unflat, Nat.cast_add, Nat.cast_mul]
      ring
    have hdiv : (i / d.nt) % d.nx + d.nx * (i / (d.nt * d.nx)) = i / d.nt := by
      rw [← Nat.div_div_eq_div_mul]
      exact Nat.mod_add_div _ _
    rw [hflat, Int.toNat_natCast, hdiv]
    exact Nat.mod_add_div _ _

theorem all_eq_map_unflat : d.all = (List.range d.count).map d.unflat := by
  have hrow : ∀ iy : Nat, ((List.range d.nx).flatMap fun (ix : Nat) =>
      (List.range d.nt).map fun (it : Nat) => (⟨ix, iy, it⟩ : Pos)) =
        (List.range (d.nx * d.nt)).map fun i => ⟨(i / d.nt : Nat), iy, (i % d.nt : Nat)⟩ :=
    fun iy => flatMap_range_map (fun ix it => (⟨ix, iy, it⟩ : Pos)) d.nt d.nx
  have hcount : d.ny * (d.nx * d.nt) = d.count := by
    rw [count]
    ring
  simp only [all, hrow]
  rw [flatMap_range_map (fun iy i => (⟨(i / d.nt : Nat), iy, (i % d.nt : Nat)⟩ : Pos)), hcount]
  apply List.map_congr_left
  intro i _
  rw [unflat, Nat.mod_mul_left_div_self, Nat.mod_mod_of_dvd _ (Nat.dvd_mul_left _ _),
    Nat.mul_comm d.nx d.nt]

/-- A function tabled over the grid is read back by the flat index. -/
theorem eq_getD_of_map_all {α : Type} {f : Pos → α} {l : List α} (h : d.all.map f = l) {p : Pos}
    (hp : d.Contains p) (x : α) : f p = l.getD (d.flat p).toNat x := by
  have hlt : (d.flat p).toNat < d.count := by
    have := flat_lt hp
    have := flat_nonneg hp
    omega
  rw [← h, all_eq_map_unflat, List.map_map, List.getD_eq_getElem?_getD, List.getElem?_map,
    List.getElem?_range hlt]
  exact congrArg f (unflat_flat hp).symm

end Dims

/-- A grid of values; `size` is the length of the flat storage. -/
structure Grid (α : Type) where
  dims : Dims
  cells : List α
  size : cells.length = dims.count
  deriving DecidableEq, Repr

namespace Grid

variable {α β : Type}

def ofFn (d : Dims) (f : Pos → α) : Grid α :=
  ⟨d, (List.range d.count).map fun i => f (d.unflat i), by simp⟩

theorem ofFn_congr {d : Dims} {f g : Pos → α} (h : ∀ p, d.Contains p → f p = g p) :
    ofFn d f = ofFn d g := by
  have hcells : ((List.range d.count).map fun i => f (d.unflat i)) =
      (List.range d.count).map fun i => g (d.unflat i) := by
    apply List.map_congr_left
    intro i hi
    exact h _ (Dims.unflat_spec (List.mem_range.mp hi)).1
  simp only [ofFn, hcells]

def map (f : α → β) (g : Grid α) : Grid β :=
  ⟨g.dims, g.cells.map f, by simp [g.size]⟩

def setFlat (g : Grid α) (i : Int) (a : α) : Grid α :=
  ⟨g.dims, g.cells.set i.toNat a, by simp [g.size]⟩

def set (g : Grid α) (p : Pos) (a : α) : Grid α := g.setFlat (g.dims.flat p) a

/-- One value written at a list of places, in order. -/
def setAll (g : Grid α) (ps : List Pos) (a : α) : Grid α := ps.foldl (fun g p => g.set p a) g

@[simp] theorem dims_set (g : Grid α) (p : Pos) (a : α) : (g.set p a).dims = g.dims := rfl

@[simp] theorem dims_setAll (g : Grid α) (ps : List Pos) (a : α) :
    (g.setAll ps a).dims = g.dims := by
  unfold setAll
  induction ps generalizing g with
  | nil => rfl
  | cons p ps ih => exact ih (g.set p a)

@[simp] theorem dims_ofFn (d : Dims) (f : Pos → α) : (ofFn d f).dims = d := rfl

variable [Inhabited α]

def getFlat (g : Grid α) (i : Int) : α := g.cells.getD i.toNat default

def get (g : Grid α) (p : Pos) : α := g.getFlat (g.dims.flat p)

theorem getFlat_setFlat (g : Grid α) (i j : Int) (a : α) : (g.setFlat i a).getFlat j =
    if i.toNat = j.toNat ∧ j.toNat < g.cells.length then a else g.getFlat j := by
  simp only [getFlat, setFlat, List.getD_eq_getElem?_getD, List.getElem?_set]
  by_cases hij : i.toNat = j.toNat
  · by_cases hj : j.toNat < g.cells.length
    · simp [hij, hj]
    · simp [hij, hj]
  · simp [hij]

theorem get_set_self {g : Grid α} {p : Pos} (hp : g.dims.Contains p) (a : α) :
    (g.set p a).get p = a := by
  have h0 := Dims.flat_nonneg hp
  have h1 := Dims.flat_lt hp
  have hlt : (g.dims.flat p).toNat < g.cells.length := by rw [g.size]; omega
  simp [get, set, setFlat, getFlat, List.getD_eq_getElem?_getD, hlt]

theorem get_set_ne {g : Grid α} {p q : Pos} (hp : g.dims.Contains p) (hq : g.dims.Contains q)
    (hpq : q ≠ p) (a : α) : (g.set p a).get q = g.get q := by
  have hp0 := Dims.flat_nonneg hp
  have hq0 := Dims.flat_nonneg hq
  have hne : (g.dims.flat p).toNat ≠ (g.dims.flat q).toNat := by
    intro h
    exact hpq (Dims.flat_injective hp hq (by omega)).symm
  simp [get, set, setFlat, getFlat, List.getD_eq_getElem?_getD, List.getElem?_set_ne hne]

theorem get_set {g : Grid α} {p q : Pos} (hp : g.dims.Contains p) (hq : g.dims.Contains q)
    (a : α) : (g.set p a).get q = if q = p then a else g.get q := by
  split
  · next h => rw [h, get_set_self hp]
  · next h => exact get_set_ne hp hq h a

theorem get_setAll {ps : List Pos} {g : Grid α} (hps : ∀ p ∈ ps, g.dims.Contains p) {q : Pos}
    (hq : g.dims.Contains q) (a : α) :
    (g.setAll ps a).get q = if q ∈ ps then a else g.get q := by
  induction ps generalizing g with
  | nil => simp [setAll]
  | cons p ps ih =>
    have hrest := ih (g := g.set p a) (fun r hr => hps r (by simp [hr])) hq
    rw [setAll, List.foldl_cons]
    rw [setAll] at hrest
    rw [hrest, get_set (hps p (by simp)) hq]
    by_cases hmem : q ∈ ps
    · simp [hmem]
    · simp [hmem]

theorem get_ofFn {d : Dims} (f : Pos → α) {p : Pos} (hp : d.Contains p) :
    (ofFn d f).get p = f p := by
  have h0 := Dims.flat_nonneg hp
  have h1 := Dims.flat_lt hp
  have hlt : (d.flat p).toNat < d.count := by omega
  simp [get, getFlat, ofFn, List.getD_eq_getElem?_getD, hlt, Dims.unflat_flat hp]

theorem get_map [Inhabited β] (f : α → β) {g : Grid α} {p : Pos} (hp : g.dims.Contains p) :
    (g.map f).get p = f (g.get p) := by
  have h0 := Dims.flat_nonneg hp
  have h1 := Dims.flat_lt hp
  have hlt : (g.dims.flat p).toNat < g.cells.length := by rw [g.size]; omega
  simp [get, getFlat, map, List.getD_eq_getElem?_getD, hlt]

/-- Grids of one shape with the same values are the same. -/
theorem eq_of_get {g h : Grid α} (hd : g.dims = h.dims)
    (hget : ∀ p, g.dims.Contains p → g.get p = h.get p) : g = h := by
  obtain ⟨d, gs, hgs⟩ := g
  obtain ⟨d', hs, hhs⟩ := h
  simp only at hd
  subst hd
  have hcells : gs = hs := by
    apply List.ext_getElem (by rw [hgs, hhs])
    intro i hi hi'
    obtain ⟨hp, hflat⟩ := Dims.unflat_spec (hgs ▸ hi)
    have := hget _ hp
    simpa [get, getFlat, List.getD_eq_getElem?_getD, hflat, hi, hi'] using this
  subst hcells
  rfl

end Grid
