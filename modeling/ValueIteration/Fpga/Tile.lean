import ValueIteration.Fpga.Buffers

/-!
# The tile kernel

`vi_sweep`: the tiles of one colour of the checkerboard, each loaded with its halo,
relaxed in block memory and stored back.
-/

set_option autoImplicit false

namespace ValueIteration.Fpga

open Replica

def tileW : Nat := 32
def tileH : Nat := 32
def tileWH : Nat := 44
def tileHH : Nat := 44

abbrev TileChip := Chip tileWH tileHH

namespace Scene

variable (sc : Scene)

def loadTile (tileOx tileOy : Int) : Program tileWH tileHH :=
  (List.range tileHH).flatMap fun (ly : Nat) =>
    sc.loadRow ly (tileOy - haloMax + ly) (tileOx - haloMax) tileWH

/-- The body of the innermost loop of `compute_bellman`. -/
def tileHeading (iy ix it : Nat) (c : TileChip) : TileChip :=
  let bY : Int := iy + haloMax
  let bX : Int := ix + haloMax
  let cellPen := c.penBuf.get ⟨bX, bY, 0⟩
  let skip := cellPen ≥ penaltyGoal
  let itL := itLeft it
  let itR := itRight it
  let oldVal := c.valBuf.get ⟨bX, bY, it⟩
  let enter (a t : Nat) : U16 := costOf
    (c.valBuf.get ⟨bX + sc.dix a it, bY + sc.diy a it, t⟩)
    (c.penBuf.get ⟨bX + sc.dix a it, bY + sc.diy a it, 0⟩)
  let stay (t : Nat) : U16 := costOf (c.valBuf.get ⟨bX, bY, t⟩) (c.penBuf.get ⟨bX, bY, 0⟩)
  let minCost := minTree (enter 0 it) (enter 1 it) (stay itL) (stay itR) (enter 4 itL)
    (enter 5 itR)
  let newVal := if skip then oldVal else minCost
  let d := if newVal > oldVal then newVal - oldVal else oldVal - newVal
  let maskedD := if skip then 0 else d
  (c.putVal ⟨bX, bY, it⟩ newVal).setLocalMax
    (if maskedD > c.localMax then maskedD else c.localMax)

def computeBellman (w h : Nat) : Program tileWH tileHH :=
  .step (Chip.setLocalMax 0) ::
    (List.range h).flatMap fun (iy : Nat) => (List.range w).flatMap fun (ix : Nat) =>
      (List.range nTheta).map fun (it : Nat) => .step (sc.tileHeading iy ix it)

/-- `if (tile_delta > global_max_delta) global_max_delta = tile_delta;` -/
def mergeTile (c : TileChip) : TileChip :=
  if c.localMax > c.globalMax then c.setGlobalMax c.localMax else c

def storeTile (tileOx tileOy : Int) (w h : Nat) : Program tileWH tileHH :=
  (List.range h).flatMap fun (iy : Nat) => (List.range w).flatMap fun (ix : Nat) =>
    (List.range nTheta).map fun (it : Nat) =>
      .store ⟨tileOx + ix, tileOy + iy, it⟩
        fun c => c.valBuf.get ⟨ix + haloMax, iy + haloMax, it⟩

/-- Actual tile dimensions at the border of the map. -/
def tileWidth (tileOx : Int) : Nat :=
  (if tileOx + tileW > sc.mapX then (sc.mapX : Int) - tileOx else tileW).toNat

def tileHeight (tileOy : Int) : Nat :=
  (if tileOy + tileH > sc.mapY then (sc.mapY : Int) - tileOy else tileH).toNat

/-- The body of the tile loop: load, compute, store. -/
def tileProgram (tx ty : Nat) : Program tileWH tileHH :=
  let tileOx : Int := tx * tileW
  let tileOy : Int := ty * tileH
  let w := sc.tileWidth tileOx
  let h := sc.tileHeight tileOy
  sc.loadTile tileOx tileOy ++
    (sc.computeBellman w h ++ (.step mergeTile :: storeTile tileOx tileOy w h))

/-- The tiles a compute unit works on, in its order. -/
def cuTiles (numTilesX numTilesY cuId : Nat) : List (Nat × Nat) :=
  (List.range numTilesY).flatMap fun (ty : Nat) =>
    ((List.range numTilesX).filter fun (tx : Nat) => (tx + ty) % 2 = cuId).map fun (tx : Nat) =>
      (tx, ty)

def viSweepProgram (numTilesX numTilesY cuId : Nat) : Program tileWH tileHH :=
  .step (Chip.setGlobalMax 0) ::
    (cuTiles numTilesX numTilesY cuId).flatMap fun t => sc.tileProgram t.1 t.2

/-- `vi_sweep` of one compute unit with nobody else at work: the table it leaves and
`max_delta`. Block memory holds anything when it starts. -/
def viSweep (numTilesX numTilesY cuId : Nat) (bram : TileChip) (valueTable : Grid U16) :
    Grid U16 × U16 :=
  let r := Crew.alone (Instr.exec ddr) (sc.viSweepProgram numTilesX numTilesY cuId)
    (bram, valueTable)
  (r.2, r.1.globalMax)

/-- Tile counts, rounded up. -/
def numTilesX : Nat := (sc.mapX + tileW - 1) / tileW
def numTilesY : Nat := (sc.mapY + tileH - 1) / tileH

/-! ## The tile as a round -/

/-- The cells of a tile in the order of the loops. -/
def tileCells (tx ty : Nat) : List (Int × Int) :=
  (List.range (sc.tileHeight (ty * tileH))).flatMap fun (iy : Nat) =>
    (List.range (sc.tileWidth (tx * tileW))).map fun (ix : Nat) =>
      ((tx : Int) * tileW + ix, (ty : Int) * tileH + iy)

def tileRound (t : Nat × Nat) : Round Pos :=
  ⟨(List.range tileHH).flatMap fun (ly : Nat) =>
      sc.rowStates ((t.2 : Int) * tileH - haloMax + ly) ((t.1 : Int) * tileW - haloMax) tileWH,
    (sc.tileCells t.1 t.2).flatMap fun c => column c.1 c.2,
    (sc.tileCells t.1 t.2).flatMap fun c => column c.1 c.2, List.Perm.refl _⟩

/-- The order in which a compute unit goes through its cells. -/
def cuTileCells (cuId : Nat) : List (Int × Int) :=
  (cuTiles sc.numTilesX sc.numTilesY cuId).flatMap fun t => sc.tileCells t.1 t.2

variable {sc}

theorem tileWidth_eq (tileOx : Int) :
    sc.tileWidth tileOx = (min ((sc.mapX : Int) - tileOx) 32).toNat := by
  have hw : (tileW : Int) = 32 := rfl
  unfold tileWidth
  omega

theorem tileHeight_eq (tileOy : Int) :
    sc.tileHeight tileOy = (min ((sc.mapY : Int) - tileOy) 32).toNat := by
  have hh : (tileH : Int) = 32 := rfl
  unfold tileHeight
  omega

theorem mem_tileCells {tx ty : Nat} {c : Int × Int} : c ∈ sc.tileCells tx ty ↔
    sc.InMap c.1 c.2 ∧ ((tx : Int) * 32 ≤ c.1 ∧ c.1 < tx * 32 + 32) ∧
      (ty : Int) * 32 ≤ c.2 ∧ c.2 < ty * 32 + 32 := by
  obtain ⟨x, y⟩ := c
  have hw : (tileW : Int) = 32 := rfl
  have hh : (tileH : Int) = 32 := rfl
  simp only [tileCells, List.mem_flatMap, List.mem_map, List.mem_range, Prod.mk.injEq,
    tileHeight_eq, tileWidth_eq, hw, hh, InMap]
  constructor
  · rintro ⟨iy, hiy, ix, hix, hx, hy⟩
    omega
  · rintro ⟨hin, hx, hy⟩
    exact ⟨(y - ty * 32).toNat, by omega, (x - tx * 32).toNat, by omega, by omega, by omega⟩

theorem mem_tileRound_fetched {t : Nat × Nat} {s : Pos} : s ∈ (sc.tileRound t).fetched ↔
    sc.dims.Contains s ∧ ((t.1 : Int) * 32 - 6 ≤ s.ix ∧ s.ix < t.1 * 32 + 38) ∧
      (t.2 : Int) * 32 - 6 ≤ s.iy ∧ s.iy < t.2 * 32 + 38 := by
  simp only [tileRound, List.mem_flatMap, List.mem_range, mem_rowStates, tileHH, tileWH, tileW,
    tileH, haloMax]
  constructor
  · rintro ⟨ly, hly, hs, hy, hx⟩
    exact ⟨hs, by omega, by omega⟩
  · rintro ⟨hs, hx, hy⟩
    exact ⟨(s.iy - (t.2 * 32 - 6)).toNat, by omega, hs, by omega, by omega, by omega⟩

theorem mem_tileRound_relaxed {t : Nat × Nat} {s : Pos} : s ∈ (sc.tileRound t).relaxed ↔
    sc.dims.Contains s ∧ ((t.1 : Int) * 32 ≤ s.ix ∧ s.ix < t.1 * 32 + 32) ∧
      (t.2 : Int) * 32 ≤ s.iy ∧ s.iy < t.2 * 32 + 32 := by
  simp only [tileRound, List.mem_flatMap, mem_tileCells, mem_column, contains_iff]
  constructor
  · rintro ⟨c, ⟨hin, hx, hy⟩, hcx, hcy, ht⟩
    rw [hcx, hcy]
    exact ⟨⟨hin, ht⟩, hx, hy⟩
  · rintro ⟨⟨hin, ht⟩, hx, hy⟩
    exact ⟨(s.ix, s.iy), ⟨hin, hx, hy⟩, rfl, rfl, ht⟩

/-- What the states of a tile look at was loaded with it. -/
theorem Contract.tile_reads (hc : sc.Contract) {t : Nat × Nat} {s : Pos}
    (hs : s ∈ (sc.tileRound t).relaxed) :
    s ∈ (sc.tileRound t).fetched ∧
      Reads sc.update (fun s => s ∈ (sc.tileRound t).fetched) s := by
  obtain ⟨hin, hx, hy⟩ := mem_tileRound_relaxed.mp hs
  have hself : s ∈ (sc.tileRound t).fetched :=
    mem_tileRound_fetched.mpr ⟨hin, by omega, by omega⟩
  refine ⟨hself, reads_of_succ hself ?_⟩
  intro a ha hsucc
  have ht := (contains_iff.mp hin).2
  have hit : s.it.toNat < nTheta := by simp only [nTheta]; omega
  have hdx := hc.dix_le a ha s.it.toNat hit
  have hdy := hc.diy_le a ha s.it.toNat hit
  refine mem_tileRound_fetched.mpr ⟨hc.succ_contains ht ha hsucc, ?_, ?_⟩
  · simp only [succ, haloMax] at hdx ⊢
    omega
  · simp only [succ, haloMax] at hdy ⊢
    omega

/-! ## The kernel follows its rounds -/

/-- The buffers show the window of a tile. -/
def TileShows (sc : Scene) (tx ty : Nat) (c : TileChip) (f : Pos → U16) : Prop :=
  ∀ ly < tileHH, RowShows sc c f tileWH ly ((ty : Int) * tileH - haloMax + ly)
    ((tx : Int) * tileW - haloMax)

theorem follows_loadTile (tx ty : Nat) (c : TileChip) (r : Sheet Pos U16 U16) :
    Follows sc.dims.Contains sc.update gap
      (fun c' r' => TileShows sc tx ty c' r'.copy ∧ SameMax c c' ∧ r'.delta = r.delta)
      (sc.loadTile (tx * tileW) (ty * tileH)) ((sc.tileRound (tx, ty)).fetched.map .fetch)
      c r := by
  rw [tileRound, List.map_flatMap, loadTile]
  refine (Follows.range (I := fun n c' r' => (∀ ly < n, RowShows sc c' r'.copy tileWH ly
    ((ty : Int) * tileH - haloMax + ly) ((tx : Int) * tileW - haloMax)) ∧ SameMax c c' ∧
      r'.delta = r.delta) ?_ ?_).mono ?_
  · intro n hn c₁ r₁ hinv
    obtain ⟨hshows, hmax, hdelta⟩ := hinv
    refine (follows_loadRow hn (by decide) (le_refl _) c₁ r₁).mono ?_
    intro c₂ r₂ hl
    refine ⟨?_, hmax.trans hl.max, hl.delta.trans hdelta⟩
    intro ly hly
    by_cases heq : ly = n
    · rw [heq]
      exact hl.shows
    · exact hl.others ly _ (by omega) heq (by omega) (hshows ly (by omega))
  · exact ⟨by simp, ⟨rfl, rfl, rfl⟩, rfl⟩
  · intro c' r' h
    exact h

/-- The cost of an action, read off the buffers. -/
theorem TileShows.cost (hc : sc.Contract) {tx ty : Nat} {c : TileChip} {f : Pos → U16}
    (h : TileShows sc tx ty c f) {ix iy it a t : Nat} (hx : ix < tileW) (hy : iy < tileH)
    (hit : it < nTheta) (ha : a < nActions) (ht : ((it : Int) + turn a) % 60 = t) :
    costOf (c.valBuf.get ⟨(ix : Int) + haloMax + sc.dix a it,
        (iy : Int) + haloMax + sc.diy a it, t⟩)
      (c.penBuf.get ⟨(ix : Int) + haloMax + sc.dix a it,
        (iy : Int) + haloMax + sc.diy a it, 0⟩) =
      sc.cost f ⟨(tx : Int) * tileW + ix, (ty : Int) * tileH + iy, it⟩ a := by
  have hdx := hc.dix_le a ha it hit
  have hdy := hc.diy_le a ha it hit
  simp only [haloMax, tileW, tileH] at hdx hdy hx hy ⊢
  obtain ⟨lx, hlx⟩ := Int.eq_ofNat_of_zero_le (a := (ix : Int) + 6 + sc.dix a it) (by omega)
  obtain ⟨ly, hly⟩ := Int.eq_ofNat_of_zero_le (a := (iy : Int) + 6 + sc.diy a it) (by omega)
  have hrow := h ly (by simp only [tileHH]; omega)
  have hcost := hrow.costOf_eq lx t (by omega) (by simp only [tileWH]; omega)
    (by omega) (by omega)
  have hsx : (tx : Int) * ((32 : Nat) : Int) - 6 + lx = tx * ((32 : Nat) : Int) + ix +
      sc.dix a it := by omega
  have hsy : (ty : Int) * ((32 : Nat) : Int) - 6 + ly = ty * ((32 : Nat) : Int) + iy +
      sc.diy a it := by omega
  simp only [tileW, tileH, haloMax, hsx, hsy] at hcost
  rw [hlx, hly, hcost, Scene.cost, succ_nat, hc.heading a ha it hit, ht]

/-- One heading of `compute_bellman` relaxes the state it stands for. -/
theorem TileShows.heading (hc : sc.Contract) {tx ty : Nat} {c : TileChip}
    {r : Sheet Pos U16 U16} (h : TileShows sc tx ty c r.copy) {ix iy it : Nat}
    (hx : ix < tileW) (hy : iy < tileH) (hit : it < nTheta)
    (hs : sc.dims.Contains ⟨(tx : Int) * tileW + ix, (ty : Int) * tileH + iy, it⟩)
    (hdelta : r.delta = max c.globalMax c.localMax) :
    TileShows sc tx ty (sc.tileHeading iy ix it c)
      (relaxOne sc.update gap r ⟨(tx : Int) * tileW + ix, (ty : Int) * tileH + iy, it⟩).copy ∧
    (relaxOne sc.update gap r ⟨(tx : Int) * tileW + ix, (ty : Int) * tileH + iy, it⟩).delta =
      max (sc.tileHeading iy ix it c).globalMax (sc.tileHeading iy ix it c).localMax := by
  generalize hstate : (⟨(tx : Int) * tileW + ix, (ty : Int) * tileH + iy, it⟩ : Pos) = s at hs ⊢
  have hin := (contains_iff.mp hs).1
  have hrow : RowShows sc c r.copy tileWH (iy + 6) ((ty : Int) * tileH + iy)
      ((tx : Int) * tileW - haloMax) := by
    have := h (iy + 6) (by simp only [tileHH, tileH] at hy ⊢; omega)
    rwa [show (ty : Int) * tileH - haloMax + (iy + 6 : Nat) = ty * tileH + iy by
      simp only [haloMax]; omega] at this
  have hcol : (tx : Int) * tileW - haloMax + ((ix : Int) + haloMax) = tx * tileW + ix := by omega
  have hbx : (0 : Int) ≤ (ix : Int) + haloMax ∧ (ix : Int) + haloMax < tileWH := by
    simp only [haloMax, tileWH, tileW] at hx ⊢
    omega
  have hby : ((iy + 6 : Nat) : Int) = (iy : Int) + haloMax := by simp only [haloMax]; omega
  have hold : c.valBuf.get ⟨(ix : Int) + haloMax, (iy : Int) + haloMax, it⟩ = r.copy s := by
    have := hrow.val ((ix : Int) + haloMax) it hbx.1 hbx.2 (by omega)
      (by simp only [nTheta] at hit; omega)
    rw [hby, hcol, hstate, ext, if_pos hin] at this
    exact this
  have hpen : c.penBuf.get ⟨(ix : Int) + haloMax, (iy : Int) + haloMax, 0⟩ =
      sc.pen s.ix s.iy := by
    have := hrow.pen ((ix : Int) + haloMax) hbx.1 hbx.2
    rw [hby, hcol, extPen] at this
    rw [← hstate] at hin ⊢
    rw [if_pos hin] at this
    exact this
  obtain ⟨ht0, ht1, ht2, ht3, ht4, ht5⟩ := turn_it hit
  have hcost : ∀ a < nActions, ∀ t : Nat, ((it : Int) + turn a) % 60 = t →
      costOf (c.valBuf.get ⟨(ix : Int) + haloMax + sc.dix a it,
        (iy : Int) + haloMax + sc.diy a it, t⟩)
        (c.penBuf.get ⟨(ix : Int) + haloMax + sc.dix a it,
          (iy : Int) + haloMax + sc.diy a it, 0⟩) = sc.cost r.copy s a := by
    intro a ha t ht
    rw [← hstate]
    exact h.cost hc hx hy hit ha ht
  have hstay : ∀ a, a = 2 ∨ a = 3 → a < nActions → ∀ t : Nat, ((it : Int) + turn a) % 60 = t →
      costOf (c.valBuf.get ⟨(ix : Int) + haloMax, (iy : Int) + haloMax, t⟩)
        (c.penBuf.get ⟨(ix : Int) + haloMax, (iy : Int) + haloMax, 0⟩) =
          sc.cost r.copy s a := by
    intro a hrot ha t ht
    obtain ⟨hdx, hdy⟩ := hc.rotation a ha hrot it hit
    have := hcost a ha t ht
    rwa [hdx, hdy, add_zero, add_zero] at this
  have hnew : (if sc.pen s.ix s.iy ≥ penaltyGoal then r.copy s else sc.best r.copy s) =
      sc.update r.copy s := rfl
  have hchip : sc.tileHeading iy ix it c =
      (c.putVal ⟨(ix : Int) + haloMax, (iy : Int) + haloMax, it⟩
        (sc.update r.copy s)).setLocalMax
          (max c.localMax (gap (r.copy s) (sc.update r.copy s))) := by
    have hgap : (if sc.pen s.ix s.iy ≥ penaltyGoal then (0 : U16)
        else gap (r.copy s) (sc.update r.copy s)) = gap (r.copy s) (sc.update r.copy s) := by
      split
      · next hskip => rw [update_of_skip hskip, gap_self]
      · rfl
    simp only [tileHeading]
    rw [hcost 0 (by decide) it ht0, hcost 1 (by decide) it ht1,
      hstay 2 (by simp) (by decide) _ ht2, hstay 3 (by simp) (by decide) _ ht3,
      hcost 4 (by decide) _ ht4, hcost 5 (by decide) _ ht5, hold, hpen, minTree_eq_best, hnew,
      ite_gt_eq_max]
    congr 2
  rw [hchip]
  refine ⟨?_, ?_⟩
  · intro ly hly
    have hplace : (⟨(ix : Int) + haloMax, (iy : Int) + haloMax, it⟩ : Pos) =
        place (iy + 6) ((tx : Int) * tileW - haloMax) s := by
      rw [← hstate]
      simp only [place, haloMax, Pos.mk.injEq, and_true]
      constructor
      · ring
      · push_cast
        ring
    rw [hplace]
    have hput := (h ly hly).putVal (iy + 6) ((ty : Int) * tileH + iy) (le_refl _)
      (by simp only [tileHH, tileH] at hy ⊢; omega) hly
      (by simp only [haloMax, tileH]; omega) hs (by rw [← hstate])
      (by rw [← hstate]; simp only [haloMax]; omega)
      (by rw [← hstate]; simp only [haloMax, tileWH, tileW] at hx ⊢; omega)
      (sc.update r.copy s)
    exact ⟨hput.pen, hput.val⟩
  · simp only [relaxOne, hdelta, max_assoc]
    rfl

/-- The cells of a tile, by their place in it. -/
theorem tileCells_flatMap {α : Type} (tx ty : Nat) (f : Int → Int → Nat → α) :
    ((sc.tileCells tx ty).flatMap fun c => (List.range nTheta).map (f c.1 c.2)) =
      (List.range (sc.tileHeight (ty * tileH))).flatMap fun (iy : Nat) =>
        (List.range (sc.tileWidth (tx * tileW))).flatMap fun (ix : Nat) =>
          (List.range nTheta).map (f ((tx : Int) * tileW + ix) ((ty : Int) * tileH + iy)) := by
  rw [tileCells, List.flatMap_assoc]
  congr 1
  funext iy
  rw [List.flatMap_map]

theorem relaxed_eq (tx ty : Nat) (f : Pos → Op Pos) : (sc.tileRound (tx, ty)).relaxed.map f =
    (List.range (sc.tileHeight (ty * tileH))).flatMap fun (iy : Nat) =>
      (List.range (sc.tileWidth (tx * tileW))).flatMap fun (ix : Nat) =>
        (List.range nTheta).map fun (it : Nat) =>
          f ⟨(tx : Int) * tileW + ix, (ty : Int) * tileH + iy, it⟩ := by
  rw [← tileCells_flatMap tx ty fun x y (it : Nat) => f ⟨x, y, it⟩, tileRound, List.map_flatMap]
  simp only [column, List.map_map]
  rfl

/-- A place in a tile and the state it stands for. -/
theorem tile_state {tx ty ix iy it : Nat} (hx : ix < sc.tileWidth (tx * tileW))
    (hy : iy < sc.tileHeight (ty * tileH)) (hit : it < nTheta) : ix < tileW ∧ iy < tileH ∧
      sc.dims.Contains ⟨(tx : Int) * tileW + ix, (ty : Int) * tileH + iy, it⟩ := by
  rw [tileWidth_eq] at hx
  rw [tileHeight_eq] at hy
  simp only [contains_iff, InMap, tileW, tileH, nTheta] at hx hy hit ⊢
  omega

theorem follows_computeBellman (hc : sc.Contract) {tx ty : Nat} {c : TileChip}
    {r : Sheet Pos U16 U16} (h : TileShows sc tx ty c r.copy) (hdelta : r.delta = c.globalMax) :
    Follows sc.dims.Contains sc.update gap
      (fun c' r' => TileShows sc tx ty c' r'.copy ∧ r'.delta = max c'.globalMax c'.localMax)
      (sc.computeBellman (sc.tileWidth (tx * tileW)) (sc.tileHeight (ty * tileH)))
      ((sc.tileRound (tx, ty)).relaxed.map .relax) c r := by
  rw [relaxed_eq, computeBellman]
  apply Follows.skip
  apply Follows.list
  · intro iy hiy c r hinv
    apply Follows.list _ hinv
    intro ix hix c r hinv
    apply Follows.map _ hinv
    intro it hit c r hinv
    obtain ⟨hx, hy, hs⟩ := tile_state (List.mem_range.mp hix) (List.mem_range.mp hiy)
      (List.mem_range.mp hit)
    exact Follows.relaxed (hinv.1.heading hc hx hy (List.mem_range.mp hit) hs hinv.2)
  · refine ⟨fun ly hly => ⟨(h ly hly).pen, (h ly hly).val⟩, ?_⟩
    rw [hdelta]
    exact (max_eq_left (Fin.zero_le _)).symm

theorem follows_storeTile (tx ty : Nat) {c : TileChip} {r : Sheet Pos U16 U16}
    (h : TileShows sc tx ty c r.copy) :
    Follows sc.dims.Contains sc.update gap (fun c' r' => c' = c ∧ r' = r)
      (storeTile (tx * tileW) (ty * tileH) (sc.tileWidth (tx * tileW))
        (sc.tileHeight (ty * tileH)))
      ((sc.tileRound (tx, ty)).relaxed.map .flush) c r := by
  rw [relaxed_eq, storeTile]
  apply Follows.list _ ⟨rfl, rfl⟩
  intro iy hiy c₁ r₁ hinv
  apply Follows.list _ hinv
  intro ix hix c₁ r₁ hinv
  apply Follows.map _ hinv
  rintro it hit c₁ r₁ ⟨rfl, rfl⟩
  rw [List.mem_range] at hix hiy hit
  obtain ⟨hx, hy, hs⟩ := tile_state hix hiy hit
  refine Follows.stored hs ?_ ⟨rfl, rfl⟩
  have hval := (h (iy + 6) (by simp only [tileHH, tileH] at hy ⊢; omega)).val
    ((ix : Int) + haloMax) it (by simp only [haloMax]; omega)
    (by simp only [haloMax, tileWH, tileW] at hx ⊢; omega) (by omega)
    (by simp only [nTheta] at hit; omega)
  rw [show (tx : Int) * tileW - haloMax + ((ix : Int) + haloMax) = tx * tileW + ix by omega,
    show (ty : Int) * tileH - haloMax + ((iy + 6 : Nat) : Int) = ty * tileH + iy by
      simp only [haloMax]; omega,
    show ((iy + 6 : Nat) : Int) = (iy : Int) + haloMax by simp only [haloMax]; omega, ext,
    if_pos (contains_iff.mp hs).1] at hval
  exact hval

/-- One tile of the kernel is one round. -/
theorem follows_tileProgram (hc : sc.Contract) (t : Nat × Nat) {c : TileChip}
    {r : Sheet Pos U16 U16} (hdelta : r.delta = c.globalMax) :
    Follows sc.dims.Contains sc.update gap (fun c' r' => r'.delta = c'.globalMax)
      (sc.tileProgram t.1 t.2) (sc.tileRound t).ops c r := by
  refine (follows_loadTile t.1 t.2 c r).append ?_
  rintro c₁ r₁ ⟨hshows, hmax, hdelta₁⟩
  refine (follows_computeBellman hc hshows ?_).append ?_
  · rw [hdelta₁, hdelta, hmax.2.2]
  · rintro c₂ r₂ ⟨hshows, hdelta₂⟩
    apply Follows.skip
    have hmerge : r₂.delta = (mergeTile c₂).globalMax := by
      rw [hdelta₂, mergeTile, ← ite_gt_eq_max]
      split
      · rfl
      · rfl
    refine (follows_storeTile t.1 t.2 (c := mergeTile c₂) ?_).mono ?_
    · intro ly hly
      have := hshows ly hly
      unfold mergeTile
      split
      · exact ⟨this.pen, this.val⟩
      · exact this
    · rintro c₃ r₃ ⟨rfl, rfl⟩
      exact hmerge

/-- The kernel works in rounds, one per tile. -/
theorem follows_viSweep (hc : sc.Contract) (nx ny cuId : Nat) (bram : TileChip)
    (f : Pos → U16) :
    Follows sc.dims.Contains sc.update gap (fun c' r' => r'.delta = c'.globalMax)
      (sc.viSweepProgram nx ny cuId)
      (((cuTiles nx ny cuId).map sc.tileRound).flatMap Round.ops) bram ⟨f, 0⟩ := by
  rw [viSweepProgram, List.flatMap_map]
  apply Follows.skip
  apply Follows.list
  · intro t _ c r hinv
    exact follows_tileProgram hc t hinv
  · rfl

theorem sighted_tiles (hc : sc.Contract) (ts : List (Nat × Nat)) :
    ∀ L : Pos → Prop, Sighted sc.update L (ts.map sc.tileRound) := by
  induction ts with
  | nil => intro L; trivial
  | cons t ts ih =>
    intro L
    exact ⟨fun s => s ∈ (sc.tileRound t).fetched, fun _ hs => Or.inr hs,
      fun _ hs => hc.tile_reads hs, ih _⟩

/-- The program of a unit run alone relaxes the cells of its tiles in place. -/
theorem alone_viSweepProgram (hc : sc.Contract) (cuId : Nat) (bram : TileChip)
    {valueTable : Grid U16} (hdims : valueTable.dims = sc.dims) :
    ((Crew.alone (Instr.exec ddr) (sc.viSweepProgram sc.numTilesX sc.numTilesY cuId)
        (bram, valueTable)).2,
      (Crew.alone (Instr.exec ddr) (sc.viSweepProgram sc.numTilesX sc.numTilesY cuId)
        (bram, valueTable)).1.globalMax) =
      sc.viBellmanCells (sc.cuTileCells cuId) valueTable := by
  have hcells : ∀ c ∈ sc.cuTileCells cuId, sc.InMap c.1 c.2 := by
    intro c hmem
    obtain ⟨t, _, hmem⟩ := List.mem_flatMap.mp hmem
    exact (mem_tileCells.mp hmem).1
  have hstates : ((cuTiles sc.numTilesX sc.numTilesY cuId).map sc.tileRound).flatMap
      Round.relaxed = (sc.cuTileCells cuId).flatMap fun c => column c.1 c.2 := by
    rw [cuTileCells, List.flatMap_map, List.flatMap_assoc]
    rfl
  exact alone_eq_viBellmanCells hc hdims (follows_viSweep hc _ _ cuId bram valueTable.get)
    (sighted_tiles hc _ _) hstates hcells

/-- `vi_sweep` run alone is `vi_bellman_cell` in place over the cells of the unit's tiles:
same table, same `max_delta`. -/
theorem viSweep_eq_viBellmanCells (hc : sc.Contract) (cuId : Nat) (bram : TileChip)
    {valueTable : Grid U16} (hdims : valueTable.dims = sc.dims) :
    sc.viSweep sc.numTilesX sc.numTilesY cuId bram valueTable =
      sc.viBellmanCells (sc.cuTileCells cuId) valueTable :=
  alone_viSweepProgram hc cuId bram hdims

theorem viSweep_eq_viBellmanCells_lane :
    (lane [7, penaltyGoal]).viSweep 1 1 0 (.clear _ _) (Grid.ofFn ⟨2, 1, 60⟩ fun _ => 0) =
      (lane [7, penaltyGoal]).viBellmanCells ((lane [7, penaltyGoal]).cuTileCells 0)
        (Grid.ofFn ⟨2, 1, 60⟩ fun _ => 0) :=
  viSweep_eq_viBellmanCells (lane_contract _) 0 _ rfl

end Scene

end ValueIteration.Fpga
