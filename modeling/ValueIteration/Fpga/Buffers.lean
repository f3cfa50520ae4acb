import ValueIteration.Fpga.Update
import ValueIteration.Lib.Follows

/-!
# On-chip buffers

Both kernels keep rows of the map, with a halo, in block memory. A row is filled with
sentinels and its cells on the map are then read from the tables.
-/

set_option autoImplicit false

namespace ValueIteration.Fpga

open Replica

/-- `val_buf` and the copies of `pen_buf`, `h` rows of `w` cells, and the registers of the
largest change: of the innermost loop, of a strip, of the whole call. -/
structure Chip (w h : Nat) where
  valBuf : Grid U16
  penBuf : Grid U16
  valDims : valBuf.dims = ⟨w, h, nTheta⟩
  penDims : penBuf.dims = ⟨w, h, 1⟩
  localMax : U16
  stripMax : U16
  globalMax : U16

namespace Chip

variable {w h : Nat}

/-- Block memory after power-up. -/
def clear (w h : Nat) : Chip w h :=
  ⟨Grid.ofFn ⟨w, h, nTheta⟩ fun _ => 0, Grid.ofFn ⟨w, h, 1⟩ fun _ => 0, rfl, rfl, 0, 0, 0⟩

def putVal (q : Pos) (v : U16) (c : Chip w h) : Chip w h :=
  ⟨c.valBuf.set q v, c.penBuf, c.valDims, c.penDims, c.localMax, c.stripMax, c.globalMax⟩

def putPen (q : Pos) (p : U16) (c : Chip w h) : Chip w h :=
  ⟨c.valBuf, c.penBuf.set q p, c.valDims, c.penDims, c.localMax, c.stripMax, c.globalMax⟩

def setLocalMax (d : U16) (c : Chip w h) : Chip w h :=
  ⟨c.valBuf, c.penBuf, c.valDims, c.penDims, d, c.stripMax, c.globalMax⟩

def setStripMax (d : U16) (c : Chip w h) : Chip w h :=
  ⟨c.valBuf, c.penBuf, c.valDims, c.penDims, c.localMax, d, c.globalMax⟩

def setGlobalMax (d : U16) (c : Chip w h) : Chip w h :=
  ⟨c.valBuf, c.penBuf, c.valDims, c.penDims, c.localMax, c.stripMax, d⟩

/-- The cells of a buffer row, and its places for values. -/
def rowCells (w row : Nat) : List Pos := (List.range w).map fun (lx : Nat) => ⟨lx, row, 0⟩

def rowPlaces (w row : Nat) : List Pos :=
  (List.range w).flatMap fun (lx : Nat) =>
    (List.range nTheta).map fun (it : Nat) => ⟨lx, row, it⟩

/-- `FILL_PEN` and `FILL_VAL_X`: sentinels over the whole row. -/
def fillRow (row : Nat) (c : Chip w h) : Chip w h :=
  ⟨c.valBuf.setAll (rowPlaces w row) maxValue, c.penBuf.setAll (rowCells w row) penaltyObstacle,
    by rw [Grid.dims_setAll]; exact c.valDims, by rw [Grid.dims_setAll]; exact c.penDims,
    c.localMax, c.stripMax, c.globalMax⟩

end Chip

/-- A kernel's program: private steps, reads and writes of words of the value table. -/
abbrev Program (w h : Nat) := List (Instr Pos U16 (Chip w h))

/-- The value table as the kernels address it. -/
def ddr : Port (Grid U16) Pos U16 := ⟨Grid.get, Grid.set⟩

theorem ddr_lawful (d : Dims) : ddr.Lawful (fun g => g.dims = d) d.Contains := by
  refine ⟨?_, ?_⟩
  · intro g p v hg _
    exact hg
  · intro g p q v hg hp hq
    exact Grid.get_set (by rw [hg]; exact hp) (by rw [hg]; exact hq) v

namespace Scene

variable (sc : Scene) {w h : Nat}

/-- First column of the map among the `bufW` columns from `gxStart`, and their number. -/
def x0Global (gxStart : Int) : Int := if gxStart < 0 then 0 else gxStart

def x1Global (gxStart bufW : Int) : Int :=
  if gxStart + bufW > sc.mapX then sc.mapX else gxStart + bufW

def xCount (gy gxStart bufW : Int) : Nat :=
  if gy < 0 ∨ gy ≥ sc.mapY then 0 else (sc.x1Global gxStart bufW - x0Global gxStart).toNat

/-- One row of `load_tile`, and `load_row`: sentinels first, then the cells of map row `gy`
that lie on the map, from column `gxStart` on. -/
def loadRow (row : Nat) (gy gxStart bufW : Int) : Program w h :=
  let x0 := x0Global gxStart
  let lxOffset := x0 - gxStart
  let count := sc.xCount gy gxStart bufW
  .step (Chip.fillRow row) ::
    (((List.range count).map fun (i : Nat) =>
        .step (Chip.putPen ⟨lxOffset + i, row, 0⟩ (sc.pen (x0 + i) gy))) ++
      (List.range count).flatMap fun (i : Nat) => (List.range nTheta).map fun (it : Nat) =>
        .load ⟨x0 + i, gy, it⟩ (Chip.putVal ⟨lxOffset + i, row, it⟩))

/-- The states a row load reads. -/
def rowStates (gy gxStart bufW : Int) : List Pos :=
  (List.range (sc.xCount gy gxStart bufW)).flatMap fun (i : Nat) =>
    column (x0Global gxStart + i) gy

variable {sc}

theorem x0Global_eq (gxStart : Int) : x0Global gxStart = max 0 gxStart := by
  unfold x0Global
  omega

theorem x1Global_eq (gxStart bufW : Int) :
    sc.x1Global gxStart bufW = min (sc.mapX : Int) (gxStart + bufW) := by
  unfold x1Global
  omega

theorem xCount_of_mem {gy : Int} (hy : 0 ≤ gy ∧ gy < sc.mapY) (gxStart bufW : Int) :
    sc.xCount gy gxStart bufW =
      (min (sc.mapX : Int) (gxStart + bufW) - max 0 gxStart).toNat := by
  rw [xCount, if_neg (by omega), x0Global_eq, x1Global_eq]

theorem xCount_of_notMem {gy : Int} (hy : ¬ (0 ≤ gy ∧ gy < sc.mapY)) (gxStart bufW : Int) :
    sc.xCount gy gxStart bufW = 0 := if_pos (by omega)

theorem mem_rowStates {gy gxStart bufW : Int} {s : Pos} :
    s ∈ sc.rowStates gy gxStart bufW ↔
      sc.dims.Contains s ∧ s.iy = gy ∧ gxStart ≤ s.ix ∧ s.ix < gxStart + bufW := by
  obtain ⟨sx, sy, st⟩ := s
  simp only [rowStates, List.mem_flatMap, List.mem_range, mem_column, contains_iff, InMap,
    x0Global_eq]
  by_cases hy : 0 ≤ gy ∧ gy < sc.mapY
  · rw [xCount_of_mem hy]
    constructor
    · rintro ⟨i, hi, hx, hrow, ht⟩
      omega
    · rintro ⟨⟨⟨hx0, hx1⟩, hy0, hy1⟩, hrow, hlo, hhi⟩
      exact ⟨(sx - max 0 gxStart).toNat, by omega, by omega, hrow, by omega⟩
  · rw [xCount_of_notMem hy]
    constructor
    · rintro ⟨i, hi, _⟩
      omega
    · rintro ⟨⟨_, hy0, hy1⟩, hrow, _⟩
      omega

/-! ## What a buffer row shows -/

/-- A table seen from a buffer: sentinels off the map. -/
def ext (sc : Scene) (f : Pos → U16) (s : Pos) : U16 :=
  if sc.InMap s.ix s.iy then f s else maxValue

def extPen (sc : Scene) (x y : Int) : U16 :=
  if sc.InMap x y then sc.pen x y else penaltyObstacle

/-- Buffer row `row` shows, in its first `bufW` cells, map row `gy` from column `gxStart`. -/
structure RowShows (sc : Scene) (c : Chip w h) (f : Pos → U16) (bufW : Int) (row : Nat)
    (gy gxStart : Int) : Prop where
  pen : ∀ lx : Int, 0 ≤ lx → lx < bufW →
    c.penBuf.get ⟨lx, row, 0⟩ = sc.extPen (gxStart + lx) gy
  val : ∀ lx it : Int, 0 ≤ lx → lx < bufW → 0 ≤ it → it < 60 →
    c.valBuf.get ⟨lx, row, it⟩ = sc.ext f ⟨gxStart + lx, gy, it⟩

/-- Registers and the largest change, which loads leave alone. -/
def SameMax (c c' : Chip w h) : Prop :=
  c'.localMax = c.localMax ∧ c'.stripMax = c.stripMax ∧ c'.globalMax = c.globalMax

/-- What a load of `gy` into `row` brings about. -/
structure RowLoaded (sc : Scene) (bufW : Int) (row : Nat) (gy gxStart : Int) (c : Chip w h)
    (r : Sheet Pos U16 U16) (c' : Chip w h) (r' : Sheet Pos U16 U16) : Prop where
  shows : RowShows sc c' r'.copy bufW row gy gxStart
  others : ∀ row' gy', row' < h → row' ≠ row → gy' ≠ gy →
    RowShows sc c r.copy bufW row' gy' gxStart → RowShows sc c' r'.copy bufW row' gy' gxStart
  max : SameMax c c'
  delta : r'.delta = r.delta

theorem SameMax.trans {c₁ c₂ c₃ : Chip w h} (h₁ : SameMax c₁ c₂) (h₂ : SameMax c₂ c₃) :
    SameMax c₁ c₃ :=
  ⟨h₂.1.trans h₁.1, h₂.2.1.trans h₁.2.1, h₂.2.2.trans h₁.2.2⟩

/-! ## Reading the cells of a row -/

/-- What reading the states of `l` into their places brings about. -/
structure Loaded (l : List Pos) (place : Pos → Pos) (c : Chip w h) (r : Sheet Pos U16 U16)
    (c' : Chip w h) (r' : Sheet Pos U16 U16) : Prop where
  at_place : ∀ s ∈ l, c'.valBuf.get (place s) = r'.copy s
  elsewhere : ∀ q, Dims.Contains ⟨w, h, nTheta⟩ q → (∀ s ∈ l, q ≠ place s) →
    c'.valBuf.get q = c.valBuf.get q
  copy : ∀ s, s ∉ l → r'.copy s = r.copy s
  pen : c'.penBuf = c.penBuf
  max : SameMax c c'
  delta : r'.delta = r.delta

theorem Loaded.cons {s : Pos} {l : List Pos} {place : Pos → Pos} {v : U16} {c c' : Chip w h}
    {r r' : Sheet Pos U16 U16} (hs : Dims.Contains ⟨w, h, nTheta⟩ (place s))
    (hinj : ∀ t ∈ l, place s = place t → s = t)
    (hl : Loaded l place (c.putVal (place s) v) ⟨Function.update r.copy s v, r.delta⟩ c' r') :
    Loaded (s :: l) place c r c' r' := by
  have hput : ∀ q, Dims.Contains ⟨w, h, nTheta⟩ q →
      (c.putVal (place s) v).valBuf.get q = if q = place s then v else c.valBuf.get q := by
    intro q hq
    exact Grid.get_set (by rw [c.valDims]; exact hs) (by rw [c.valDims]; exact hq) v
  refine ⟨?_, ?_, ?_, hl.pen, hl.max, hl.delta⟩
  · intro t ht
    rw [List.mem_cons] at ht
    by_cases hmem : t ∈ l
    · exact hl.at_place t hmem
    · have hts : t = s := ht.resolve_right hmem
      subst hts
      have hnot : ∀ u ∈ l, place t ≠ place u := by
        intro u hu heq
        have := hinj u hu heq
        subst this
        exact hmem hu
      rw [hl.elsewhere _ hs hnot, hl.copy t hmem, hput _ hs, if_pos rfl]
      exact (Function.update_self t v r.copy).symm
  · intro q hq hne
    rw [hl.elsewhere q hq (fun t ht => hne t (by simp [ht])), hput q hq,
      if_neg (hne s (by simp))]
  · intro t ht
    rw [List.mem_cons, not_or] at ht
    rw [hl.copy t ht.2]
    exact Function.update_of_ne ht.1 _ _

theorem follows_loads {l : List Pos} {place : Pos → Pos} (hok : ∀ s ∈ l, sc.dims.Contains s)
    (hplace : ∀ s ∈ l, Dims.Contains ⟨w, h, nTheta⟩ (place s))
    (hinj : ∀ s ∈ l, ∀ t ∈ l, place s = place t → s = t) (c : Chip w h)
    (r : Sheet Pos U16 U16) :
    Follows sc.dims.Contains sc.update gap (Loaded l place c r)
      (l.map fun s => .load s (Chip.putVal (place s))) (l.map .fetch) c r := by
  induction l generalizing c r with
  | nil =>
    apply Follows.done
    exact ⟨by simp, fun _ _ _ => rfl, fun _ _ => rfl, rfl, ⟨rfl, rfl, rfl⟩, rfl⟩
  | cons s l ih =>
    apply Follows.load (hok s (by simp))
    intro v
    refine (ih (fun t ht => hok t (by simp [ht])) (fun t ht => hplace t (by simp [ht]))
      (fun t ht u hu => hinj t (by simp [ht]) u (by simp [hu])) _ _).mono ?_
    intro c' r' hl
    exact hl.cons (hplace s (by simp)) fun t ht => hinj s (by simp) t (by simp [ht])

/-! ## Sentinels and penalties -/

theorem mem_rowCells {w row : Nat} {q : Pos} :
    q ∈ Chip.rowCells w row ↔ 0 ≤ q.ix ∧ q.ix < w ∧ q.iy = row ∧ q.it = 0 := by
  obtain ⟨qx, qy, qt⟩ := q
  simp only [Chip.rowCells, List.mem_map, List.mem_range, Pos.mk.injEq]
  constructor
  · rintro ⟨lx, hlx, rfl, rfl, rfl⟩
    omega
  · rintro ⟨h0, h1, rfl, rfl⟩
    exact ⟨qx.toNat, by omega, by omega, rfl, rfl⟩

theorem mem_rowPlaces {w row : Nat} {q : Pos} :
    q ∈ Chip.rowPlaces w row ↔
      0 ≤ q.ix ∧ q.ix < w ∧ q.iy = row ∧ 0 ≤ q.it ∧ q.it < 60 := by
  obtain ⟨qx, qy, qt⟩ := q
  simp only [Chip.rowPlaces, List.mem_flatMap, List.mem_map, List.mem_range, Pos.mk.injEq,
    nTheta]
  constructor
  · rintro ⟨lx, hlx, it, hit, rfl, rfl, rfl⟩
    omega
  · rintro ⟨h0, h1, rfl, h2, h3⟩
    exact ⟨qx.toNat, by omega, qt.toNat, by omega, by omega, rfl, by omega⟩

/-- A filled row holds sentinels, the others what they held. -/
theorem fillRow_pen {c : Chip w h} {row : Nat} (hrow : row < h) {q : Pos}
    (hq : Dims.Contains ⟨w, h, 1⟩ q) : (c.fillRow row).penBuf.get q =
      if q.iy = row then penaltyObstacle else c.penBuf.get q := by
  have hcells : ∀ p ∈ Chip.rowCells w row, c.penBuf.dims.Contains p := by
    intro p hp
    obtain ⟨h0, h1, h2, h3⟩ := mem_rowCells.mp hp
    rw [c.penDims]
    exact ⟨⟨h0, h1⟩, ⟨by omega, by simp only; omega⟩, by omega, by simp only; omega⟩
  have hget : (c.fillRow row).penBuf.get q =
      if q ∈ Chip.rowCells w row then penaltyObstacle else c.penBuf.get q :=
    Grid.get_setAll hcells (by rw [c.penDims]; exact hq) _
  rw [hget]
  obtain ⟨⟨hx0, hx1⟩, _, ht0, ht1⟩ := hq
  simp only at hx1 ht1
  by_cases hy : q.iy = row
  · rw [if_pos hy, if_pos (mem_rowCells.mpr ⟨hx0, hx1, hy, by omega⟩)]
  · rw [if_neg hy, if_neg fun hmem => hy (mem_rowCells.mp hmem).2.2.1]

theorem fillRow_val {c : Chip w h} {row : Nat} (hrow : row < h) {q : Pos}
    (hq : Dims.Contains ⟨w, h, nTheta⟩ q) : (c.fillRow row).valBuf.get q =
      if q.iy = row then maxValue else c.valBuf.get q := by
  have hplaces : ∀ p ∈ Chip.rowPlaces w row, c.valBuf.dims.Contains p := by
    intro p hp
    obtain ⟨h0, h1, h2, h3, h4⟩ := mem_rowPlaces.mp hp
    rw [c.valDims]
    exact ⟨⟨h0, h1⟩, ⟨by omega, by simp only; omega⟩, h3, by simp only [nTheta]; omega⟩
  have hget : (c.fillRow row).valBuf.get q =
      if q ∈ Chip.rowPlaces w row then maxValue else c.valBuf.get q :=
    Grid.get_setAll hplaces (by rw [c.valDims]; exact hq) _
  rw [hget]
  obtain ⟨⟨hx0, hx1⟩, _, ht0, ht1⟩ := hq
  simp only [nTheta] at hx1 ht1
  by_cases hy : q.iy = row
  · rw [if_pos hy, if_pos (mem_rowPlaces.mpr ⟨hx0, hx1, hy, ht0, by omega⟩)]
  · rw [if_neg hy, if_neg fun hmem => hy (mem_rowPlaces.mp hmem).2.2.1]

/-- What writing penalties into the cells from `off` on brings about. -/
structure Penalised (row : Nat) (off : Int) (n : Nat) (g : Nat → U16) (c c' : Chip w h) :
    Prop where
  at_cell : ∀ i < n, c'.penBuf.get ⟨off + i, row, 0⟩ = g i
  elsewhere : ∀ q, Dims.Contains ⟨w, h, 1⟩ q → (∀ i < n, q ≠ ⟨off + (i : Nat), row, 0⟩) →
    c'.penBuf.get q = c.penBuf.get q
  val : c'.valBuf = c.valBuf
  max : SameMax c c'

theorem penalised_foldl {row : Nat} (hrow : row < h) {off : Int} (h0 : 0 ≤ off)
    (g : Nat → U16) (c : Chip w h) (n : Nat) (hw : off + n ≤ w) :
    Penalised row off n g c ((List.range n).foldl
      (fun c (i : Nat) => c.putPen ⟨off + i, row, 0⟩ (g i)) c) := by
  induction n with
  | zero => exact ⟨by simp, fun _ _ _ => rfl, rfl, ⟨rfl, rfl, rfl⟩⟩
  | succ n ih =>
    have ih := ih (by omega)
    rw [List.range_succ, List.foldl_append]
    generalize (List.range n).foldl
      (fun c (i : Nat) => c.putPen ⟨off + i, row, 0⟩ (g i)) c = c' at ih
    have hcell : ∀ i ≤ n, Dims.Contains ⟨w, h, 1⟩ ⟨off + (i : Nat), row, 0⟩ := by
      intro i hi
      exact ⟨⟨by simp only; omega, by simp only; omega⟩,
        ⟨by simp only; omega, by simp only; omega⟩, by simp, by simp⟩
    have hput : ∀ q, Dims.Contains ⟨w, h, 1⟩ q →
        (c'.putPen ⟨off + n, row, 0⟩ (g n)).penBuf.get q =
          if q = ⟨off + n, row, 0⟩ then g n else c'.penBuf.get q := by
      intro q hq
      exact Grid.get_set (by rw [c'.penDims]; exact hcell n (le_refl n))
        (by rw [c'.penDims]; exact hq) _
    refine ⟨?_, ?_, ih.val, ih.max⟩
    · intro i hi
      rw [List.foldl_cons, List.foldl_nil, hput _ (hcell i (by omega))]
      by_cases hin : i = n
      · subst hin
        rw [if_pos rfl]
      · rw [if_neg (by simp only [Pos.mk.injEq]; omega)]
        exact ih.at_cell i (by omega)
    · intro q hq hne
      rw [List.foldl_cons, List.foldl_nil, hput q hq, if_neg (hne n (by omega))]
      exact ih.elsewhere q hq fun i hi => hne i (by omega)

/-! ## A row load -/

/-- The place of a state in the buffer row it is read into. -/
def place (row : Nat) (gxStart : Int) (s : Pos) : Pos := ⟨s.ix - gxStart, row, s.it⟩

theorem loads_eq (row : Nat) (gy gxStart bufW : Int) :
    ((List.range (sc.xCount gy gxStart bufW)).flatMap fun (i : Nat) =>
      (List.range nTheta).map fun (it : Nat) =>
        (.load ⟨x0Global gxStart + i, gy, it⟩
          (Chip.putVal ⟨x0Global gxStart - gxStart + i, row, it⟩) :
            Instr Pos U16 (Chip w h))) =
      (sc.rowStates gy gxStart bufW).map fun s =>
        .load s (Chip.putVal (place row gxStart s)) := by
  rw [rowStates, List.map_flatMap]
  congr 1
  funext i
  rw [column, List.map_map]
  congr 1
  funext it
  simp only [Function.comp, place]
  rw [show x0Global gxStart + (i : Int) - gxStart = x0Global gxStart - gxStart + i by omega]

/-- The cells a row load reads: those of the row that lie on the map. -/
theorem lt_xCount_iff {gy gxStart bufW lx : Int} (h0 : 0 ≤ lx) (h1 : lx < bufW) :
    (0 ≤ lx - (x0Global gxStart - gxStart) ∧
      lx - (x0Global gxStart - gxStart) < sc.xCount gy gxStart bufW) ↔
      sc.InMap (gxStart + lx) gy := by
  simp only [InMap, x0Global_eq]
  by_cases hy : 0 ≤ gy ∧ gy < sc.mapY
  · rw [xCount_of_mem hy]
    omega
  · rw [xCount_of_notMem hy]
    omega

theorem xCount_le (gy gxStart : Int) {bufW : Int} (h0 : 0 ≤ bufW) :
    x0Global gxStart - gxStart + sc.xCount gy gxStart bufW ≤ bufW ∨
      sc.xCount gy gxStart bufW = 0 := by
  rw [x0Global_eq]
  by_cases hy : 0 ≤ gy ∧ gy < sc.mapY
  · rw [xCount_of_mem hy]
    omega
  · exact Or.inr (xCount_of_notMem hy gxStart bufW)

/-- Loading a row shows it, whatever the others do to the table meanwhile, and leaves the
rows that show other rows of the map as they are. -/
theorem follows_loadRow {row : Nat} (hrow : row < h) {gy gxStart bufW : Int} (hb : 0 ≤ bufW)
    (hw : bufW ≤ w) (c : Chip w h) (r : Sheet Pos U16 U16) :
    Follows sc.dims.Contains sc.update gap (RowLoaded sc bufW row gy gxStart c r)
      (sc.loadRow row gy gxStart bufW) ((sc.rowStates gy gxStart bufW).map .fetch) c r := by
  have hoff : 0 ≤ x0Global gxStart - gxStart := by
    rw [x0Global_eq]
    omega
  have hplace : ∀ s ∈ sc.rowStates gy gxStart bufW,
      Dims.Contains ⟨w, h, nTheta⟩ (place row gxStart s) := by
    intro s hs
    obtain ⟨hin, hy, hlo, hhi⟩ := mem_rowStates.mp hs
    have ht := (contains_iff.mp hin).2
    simp only [Dims.Contains, place, nTheta]
    omega
  have hinj : ∀ s ∈ sc.rowStates gy gxStart bufW, ∀ t ∈ sc.rowStates gy gxStart bufW,
      place row gxStart s = place row gxStart t → s = t := by
    intro s hs t ht heq
    have hy := (mem_rowStates.mp hs).2.1.trans (mem_rowStates.mp ht).2.1.symm
    obtain ⟨sx, sy, st⟩ := s
    obtain ⟨tx, ty, tt⟩ := t
    simp only [place, Pos.mk.injEq] at heq hy ⊢
    omega
  simp only [loadRow, loads_eq]
  apply Follows.skip
  refine Follows.append (q := []) (Q := fun c' r' => r' = r ∧
    Penalised row (x0Global gxStart - gxStart) (sc.xCount gy gxStart bufW)
      (fun i => sc.pen (x0Global gxStart + i) gy) (c.fillRow row) c') ?_ ?_
  · apply Follows.steps (f := fun (i : Nat) => Chip.putPen
      ⟨x0Global gxStart - gxStart + i, row, 0⟩ (sc.pen (x0Global gxStart + i) gy))
    refine ⟨rfl, ?_⟩
    have hcount : _ ∨ sc.xCount gy gxStart bufW = 0 := xCount_le gy gxStart hb
    cases hcount with
    | inl hle => exact penalised_foldl hrow hoff _ _ _ (by omega)
    | inr hzero =>
      rw [hzero]
      exact ⟨by simp, fun _ _ _ => rfl, rfl, ⟨rfl, rfl, rfl⟩⟩
  · rintro c₁ r₁ ⟨rfl, hpen⟩
    refine (follows_loads (fun s hs => (mem_rowStates.mp hs).1) hplace hinj c₁ r₁).mono ?_
    intro c' r' hl
    refine ⟨⟨?_, ?_⟩, ?_, hpen.max.trans hl.max, hl.delta⟩
    · intro lx h0 h1
      have hq : Dims.Contains ⟨w, h, 1⟩ ⟨lx, row, 0⟩ := by
        simp only [Dims.Contains]
        omega
      rw [hl.pen, extPen]
      by_cases hin : sc.InMap (gxStart + lx) gy
      · obtain ⟨ha, hlt⟩ := (lt_xCount_iff h0 h1).mpr hin
        have hcell := hpen.at_cell (lx - (x0Global gxStart - gxStart)).toNat (by omega)
        rw [Int.toNat_of_nonneg ha, show x0Global gxStart - gxStart +
          (lx - (x0Global gxStart - gxStart)) = lx by omega, show x0Global gxStart +
          (lx - (x0Global gxStart - gxStart)) = gxStart + lx by omega] at hcell
        rw [if_pos hin, hcell]
      · rw [if_neg hin, hpen.elsewhere _ hq ?_, fillRow_pen hrow hq, if_pos rfl]
        intro i hi heq
        simp only [Pos.mk.injEq] at heq
        exact hin ((lt_xCount_iff h0 h1).mp (by omega))
    · intro lx it h0 h1 ht0 ht1
      have hq : Dims.Contains ⟨w, h, nTheta⟩ ⟨lx, row, it⟩ := by
        simp only [Dims.Contains, nTheta]
        omega
      rw [ext]
      by_cases hin : sc.InMap (gxStart + lx) gy
      · rw [if_pos hin]
        have hmem : (⟨gxStart + lx, gy, it⟩ : Pos) ∈ sc.rowStates gy gxStart bufW :=
          mem_rowStates.mpr ⟨contains_iff.mpr ⟨hin, ht0, ht1⟩, rfl, by simp only; omega,
            by simp only; omega⟩
        have hval := hl.at_place _ hmem
        simp only [place] at hval
        rw [show gxStart + lx - gxStart = lx by omega] at hval
        exact hval
      · rw [if_neg hin, hl.elsewhere _ hq ?_, hpen.val, fillRow_val hrow hq, if_pos rfl]
        intro s hs heq
        obtain ⟨hs, hy, _⟩ := mem_rowStates.mp hs
        simp only [place, Pos.mk.injEq] at heq
        rw [show gxStart + lx = s.ix by omega, ← hy] at hin
        exact hin (contains_iff.mp hs).1
    · intro row' gy' hrow' hne hgy hshows
      refine ⟨?_, ?_⟩
      · intro lx h0 h1
        have hq : Dims.Contains ⟨w, h, 1⟩ ⟨lx, row', 0⟩ := by
          simp only [Dims.Contains]
          omega
        rw [hl.pen, hpen.elsewhere _ hq, fillRow_pen hrow hq, if_neg (by simp only; omega)]
        · exact hshows.pen lx h0 h1
        · intro i _ heq
          simp only [Pos.mk.injEq] at heq
          omega
      · intro lx it h0 h1 ht0 ht1
        have hq : Dims.Contains ⟨w, h, nTheta⟩ ⟨lx, row', it⟩ := by
          simp only [Dims.Contains, nTheta]
          omega
        have hnot : (⟨gxStart + lx, gy', it⟩ : Pos) ∉ sc.rowStates gy gxStart bufW :=
          fun hmem => hgy (mem_rowStates.mp hmem).2.1
        rw [hl.elsewhere _ hq, hpen.val, fillRow_val hrow hq, if_neg (by simp only; omega),
          hshows.val lx it h0 h1 ht0 ht1]
        · simp only [ext, hl.copy _ hnot]
        · intro s _ heq
          simp only [place, Pos.mk.injEq] at heq
          omega

/-! ## Working in a row -/

/-- The cost of entering a cell, read off the buffers. -/
theorem RowShows.costOf_eq {c : Chip w h} {f : Pos → U16} {bufW : Int} {row : Nat}
    {gy gxStart : Int} (hrow : RowShows sc c f bufW row gy gxStart) (lx it : Int)
    (h0 : 0 ≤ lx) (h1 : lx < bufW) (ht0 : 0 ≤ it) (ht1 : it < 60) :
    costOf (c.valBuf.get ⟨lx, row, it⟩) (c.penBuf.get ⟨lx, row, 0⟩) =
      if sc.InMap (gxStart + lx) gy then
        costOf (f ⟨gxStart + lx, gy, it⟩) (sc.pen (gxStart + lx) gy) else maxValue := by
  rw [hrow.pen lx h0 h1, hrow.val lx it h0 h1 ht0 ht1]
  simp only [ext, extPen]
  split
  · rfl
  · exact costOf_eq_maxValue_iff.mpr (Or.inl rfl)

theorem putVal_get {c : Chip w h} {p q : Pos} (hp : Dims.Contains ⟨w, h, nTheta⟩ p)
    (hq : Dims.Contains ⟨w, h, nTheta⟩ q) (v : U16) :
    (c.putVal p v).valBuf.get q = if q = p then v else c.valBuf.get q :=
  Grid.get_set (by rw [c.valDims]; exact hp) (by rw [c.valDims]; exact hq) v

/-- A value written in a row changes the table it shows at the state of its place. -/
theorem RowShows.putVal {c : Chip w h} {f : Pos → U16} {bufW : Int} {row' : Nat}
    {gy' gxStart : Int} (hrow : RowShows sc c f bufW row' gy' gxStart) (row : Nat) (gy : Int)
    (hw : bufW ≤ w) (hr : row < h) (hr' : row' < h) (hslot : row' = row ↔ gy' = gy) {s : Pos}
    (hs : sc.dims.Contains s) (hgy : s.iy = gy) (h0 : gxStart ≤ s.ix)
    (h1 : s.ix < gxStart + bufW) (v : U16) :
    RowShows sc (c.putVal (place row gxStart s) v) (Function.update f s v) bufW row' gy'
      gxStart := by
  obtain ⟨hin, ht0, ht1⟩ := contains_iff.mp hs
  refine ⟨hrow.pen, ?_⟩
  intro lx it hl0 hl1 hi0 hi1
  rw [putVal_get (by simp only [Dims.Contains, place, nTheta]; omega)
    (by simp only [Dims.Contains, nTheta]; omega)]
  by_cases heq : (⟨lx, row', it⟩ : Pos) = place row gxStart s
  · have hstate : (⟨gxStart + lx, gy', it⟩ : Pos) = s := by
      obtain ⟨sx, sy, st⟩ := s
      simp only [place, Pos.mk.injEq] at heq hgy ⊢
      omega
    rw [if_pos heq, hstate, ext, if_pos hin, Function.update_self]
  · have hstate : (⟨gxStart + lx, gy', it⟩ : Pos) ≠ s := by
      intro hstate
      apply heq
      obtain ⟨sx, sy, st⟩ := s
      simp only [place, Pos.mk.injEq] at hstate hgy ⊢
      omega
    rw [if_neg heq, hrow.val lx it hl0 hl1 hi0 hi1, ext, ext, Function.update_of_ne hstate]

end Scene

/-- `it_l` and `it_r`: the headings of the turning actions. -/
def itLeft (it : Nat) : Nat := if it + 3 ≥ nTheta then it + 3 - nTheta else it + 3
def itRight (it : Nat) : Nat := if it < 3 then it + nTheta - 3 else it - 3

/-- The wired-in headings are those of the contract. -/
theorem turn_it {it : Nat} (hit : it < nTheta) :
    ((it : Int) + Scene.turn 0) % 60 = it ∧ ((it : Int) + Scene.turn 1) % 60 = it ∧
      ((it : Int) + Scene.turn 2) % 60 = itLeft it ∧
      ((it : Int) + Scene.turn 3) % 60 = itRight it ∧
      ((it : Int) + Scene.turn 4) % 60 = itLeft it ∧
      ((it : Int) + Scene.turn 5) % 60 = itRight it := by
  have h0 : Scene.turn 0 = 0 := rfl
  have h1 : Scene.turn 1 = 0 := rfl
  have h2 : Scene.turn 2 = 3 := rfl
  have h3 : Scene.turn 3 = -3 := rfl
  have h4 : Scene.turn 4 = 3 := rfl
  have h5 : Scene.turn 5 = -3 := rfl
  have hleft : ((it : Int) + 3) % 60 = itLeft it := by
    unfold itLeft nTheta at *
    split <;> omega
  have hright : ((it : Int) + -3) % 60 = itRight it := by
    unfold itRight nTheta at *
    split <;> omega
  simp only [nTheta] at hit
  rw [h0, h1, h2, h3, h4, h5]
  exact ⟨by omega, by omega, hleft, hright, hleft, hright⟩

/-- The reduction tree over the costs of the six actions. -/
def minTree (c0 c1 c2 c3 c4 c5 : U16) : U16 :=
  let min01 := if c0 < c1 then c0 else c1
  let min23 := if c2 < c3 then c2 else c3
  let min45 := if c4 < c5 then c4 else c5
  let min03 := if min01 < min23 then min01 else min23
  if min03 < min45 then min03 else min45

theorem minTree_eq_best {sc : Scene} {f : Pos → U16} {s : Pos} :
    minTree (sc.cost f s 0) (sc.cost f s 1) (sc.cost f s 2) (sc.cost f s 3) (sc.cost f s 4)
      (sc.cost f s 5) = sc.best f s := by
  have htop : ∀ a, min maxValue (sc.cost f s a) = sc.cost f s a :=
    fun a => min_eq_right (le_maxValue _)
  rw [show sc.best f s = ([0, 1, 2, 3, 4, 5] : List Nat).foldl
    (fun b a => min b (sc.cost f s a)) maxValue from rfl]
  simp only [minTree, ite_lt_eq_min, List.foldl_cons, List.foldl_nil, htop, min_assoc]

/-- A program alone that follows rounds seeing all they look at is `vi_bellman_cell` in place
over the cells of the rounds: same table, same largest change. -/
theorem Scene.alone_eq_viBellmanCells {sc : Scene} (hc : sc.Contract) {w h : Nat}
    {p : Program w h} {bs : List (Round Pos)} {cells : List (Int × Int)} {bram : Chip w h}
    {valueTable : Grid U16} (hdims : valueTable.dims = sc.dims)
    (hfollows : Follows sc.dims.Contains sc.update gap (fun c r => r.delta = c.globalMax) p
      (bs.flatMap Round.ops) bram ⟨valueTable.get, 0⟩)
    (hsight : Sighted sc.update (fun _ => True) bs)
    (hstates : bs.flatMap Round.relaxed = cells.flatMap fun c => column c.1 c.2)
    (hcells : ∀ c ∈ cells, sc.InMap c.1 c.2) :
    ((Crew.alone (Instr.exec ddr) p (bram, valueTable)).2,
      (Crew.alone (Instr.exec ddr) p (bram, valueTable)).1.globalMax) =
        sc.viBellmanCells cells valueTable := by
  have hspec := Shows.viBellmanCells hc hcells (f := valueTable.get)
    ⟨hdims, fun _ _ => rfl, rfl⟩
  obtain ⟨hdelta, hmem⟩ := hfollows.alone (ddr_lawful sc.dims) (m := valueTable)
    (t := valueTable.get) ⟨hdims, fun _ _ => rfl⟩
  obtain ⟨r', hrun, hr'⟩ := alone_rounds (G := gap) (r := ⟨valueTable.get, 0⟩) hsight
    (m := valueTable.get) fun _ _ => rfl
  rw [hrun, hstates] at hmem
  rw [hrun] at hdelta
  rw [hstates] at hr'
  refine Prod.ext ?_ ?_
  · apply Grid.eq_of_get (hmem.mok.trans hspec.dims.symm)
    intro p hp
    rw [hmem.mok] at hp
    rw [hspec.get p hp]
    exact hmem.get p hp
  · rw [hspec.delta, ← hr']
    exact hdelta.symm

end ValueIteration.Fpga
