import Mathlib.Data.List.TakeWhile
import ValueIteration.Fpga.Buffers

/-!
# The stream kernel

`vi_sweep_stream`: the strips of a compute unit, each streamed row by row through a
circular window of rows, top-down by unit 0 and bottom-up by unit 1.
-/

set_option autoImplicit false

namespace ValueIteration.Fpga

open Replica

def windowRows : Nat := 13
def stripWMax : Nat := 145
def streamBufW : Nat := 157

abbrev StreamChip := Chip streamBufW windowRows

/-- The registers of the three heading chains: `prev_rot_cost` and `first_rot_new`. -/
structure RotChain where
  prev : Nat → U16
  first : Nat → U16

namespace Scene

variable (sc : Scene)

/-- `ny_lut`: the window slot of the row an action leads to. -/
def nyLut (cuId winCenter a it : Nat) : Int :=
  let ySign : Int := if cuId = 0 then 1 else -1
  let ny := winCenter + ySign * sc.diy a it
  if ny < 0 then ny + windowRows else if ny ≥ windowRows then ny - windowRows else ny

/-- A prefetched translation cost: action `a` of heading `it`, entered at heading `t`. -/
def prefetch (cuId winCenter : Nat) (bx : Int) (c : StreamChip) (a it t : Nat) : U16 :=
  costOf (c.valBuf.get ⟨bx + sc.dix a it, sc.nyLut cuId winCenter a it, t⟩)
    (c.penBuf.get ⟨bx + sc.dix a it, sc.nyLut cuId winCenter a it, 0⟩)

/-- The body of `LOOP_T_LANE`; `c0` is the chip the column was begun with. -/
def rotHeading (cuId winCenter : Nat) (bx : Int) (skip : Bool) (c0 : StreamChip)
    (st : StreamChip × RotChain) (it : Nat) : StreamChip × RotChain :=
  let step := it / 3
  let lane := it % 3
  let centerOld (t : Nat) : U16 := c0.valBuf.get ⟨bx, winCenter, t⟩
  let rotPen := c0.penBuf.get ⟨bx, winCenter, 0⟩
  let oldVal := centerOld it
  let rotLeftSrc := if step = nTheta / 3 - 1 then st.2.first lane else centerOld (it + 3)
  let rotRightSrc := st.2.prev lane
  let minCost := minTree (sc.prefetch cuId winCenter bx c0 0 it it)
    (sc.prefetch cuId winCenter bx c0 1 it it) (costOf rotLeftSrc rotPen)
    (costOf rotRightSrc rotPen) (sc.prefetch cuId winCenter bx c0 4 it (itLeft it))
    (sc.prefetch cuId winCenter bx c0 5 it (itRight it))
  let newVal := if skip then oldVal else minCost
  let d := if newVal > oldVal then newVal - oldVal else oldVal - newVal
  let maskedD := if skip then 0 else d
  ((st.1.putVal ⟨bx, winCenter, it⟩ newVal).setLocalMax
      (if maskedD > st.1.localMax then maskedD else st.1.localMax),
    ⟨Function.update st.2.prev lane newVal,
      if step = 0 then Function.update st.2.first lane newVal else st.2.first⟩)

/-- The body of `LOOP_X` of `compute_row`. -/
def streamColumn (cuId winCenter stripW ixRaw : Nat) (c : StreamChip) : StreamChip :=
  let xActive : Bool := ixRaw < stripW
  let ix : Nat := if xActive then (if cuId = 0 then ixRaw else stripW - 1 - ixRaw) else 0
  let bx : Int := ix + haloMax
  let cellPen := c.penBuf.get ⟨bx, winCenter, 0⟩
  let skip : Bool := !xActive || cellPen ≥ penaltyGoal
  let centerOld (t : Nat) : U16 := c.valBuf.get ⟨bx, winCenter, t⟩
  ((List.range nTheta).foldl (sc.rotHeading cuId winCenter bx skip c)
    (c, ⟨fun lane => centerOld (nTheta - 3 + lane), centerOld⟩)).1

def computeRow (cuId winCenter stripW : Nat) : Program streamBufW windowRows :=
  .step (Chip.setLocalMax 0) ::
    (List.range stripWMax).map fun (ixRaw : Nat) =>
      .step (sc.streamColumn cuId winCenter stripW ixRaw)

def storeRow (row : Nat) (gy stripX0 : Int) (stripW : Nat) : Program streamBufW windowRows :=
  (List.range stripW).flatMap fun (ix : Nat) => (List.range nTheta).map fun (it : Nat) =>
    .store ⟨stripX0 + ix, gy, it⟩ fun c => c.valBuf.get ⟨ix + haloMax, row, it⟩

/-- The map row a unit meets as its `raw`-th. -/
def rawRow (cuId : Nat) (raw : Int) : Int := if cuId = 0 then raw else sc.mapY - 1 - raw

/-- `load_row` into a window slot. -/
def loadSlot (cuId slot : Nat) (raw stripX0 : Int) (stripW : Nat) :
    Program streamBufW windowRows :=
  sc.loadRow slot (sc.rawRow cuId raw) (stripX0 - haloMax) (stripW + 2 * haloMax)

/-- `if (row_delta > local_max) local_max = row_delta;` and the same one level up. -/
def mergeRow (c : StreamChip) : StreamChip :=
  if c.localMax > c.stripMax then c.setStripMax c.localMax else c

def mergeStrip (c : StreamChip) : StreamChip :=
  if c.stripMax > c.globalMax then c.setGlobalMax c.stripMax else c

/-- The body of `ROW_LOOP`: compute, store, evict the oldest row for the next one. -/
def streamRow (cuId iyRaw : Nat) (stripX0 : Int) (stripW : Nat) :
    Program streamBufW windowRows :=
  let winCenter := (iyRaw + 6) % windowRows
  sc.computeRow cuId winCenter stripW ++
    (.step mergeRow :: (storeRow winCenter (sc.rawRow cuId iyRaw) stripX0 stripW ++
      sc.loadSlot cuId (iyRaw % windowRows) (iyRaw + haloMax + 1) stripX0 stripW))

def streamStrip (cuId : Nat) (stripX0 : Int) (stripW : Nat) : Program streamBufW windowRows :=
  .step (Chip.setStripMax 0) ::
    (((List.range windowRows).flatMap fun (wr : Nat) =>
        sc.loadSlot cuId wr (wr - haloMax) stripX0 stripW) ++
      (List.range sc.mapY).flatMap fun (iyRaw : Nat) => sc.streamRow cuId iyRaw stripX0 stripW)

/-- `num_strips` and `half_strips`. -/
def numStrips : Nat := (sc.mapX + stripWMax - 1) / stripWMax
def halfStrips : Nat := (sc.numStrips + 1) / 2

/-- The strips of a compute unit, in its order; the loop breaks at one that does not exist. -/
def cuStrips (cuId : Nat) : List Int :=
  ((List.range sc.halfStrips).map fun (si : Nat) =>
    if cuId = 0 then (si : Int) else sc.numStrips - 1 - si).takeWhile
      fun sx => !(sx < 0 || sx ≥ sc.numStrips)

def stripX0 (sx : Int) : Int := sx * stripWMax

def stripW (sx : Int) : Nat :=
  (if stripX0 sx + stripWMax > sc.mapX then (sc.mapX : Int) - stripX0 sx else stripWMax).toNat

def viSweepStreamProgram (cuId : Nat) : Program streamBufW windowRows :=
  .step (Chip.setGlobalMax 0) ::
    (sc.cuStrips cuId).flatMap fun sx =>
      sc.streamStrip cuId (stripX0 sx) (sc.stripW sx) ++ [.step mergeStrip]

/-- `vi_sweep_stream` of one compute unit with nobody else at work, reading and writing one
table: the table it leaves and `max_delta`. -/
def viSweepStream (cuId : Nat) (bram : StreamChip) (valueTable : Grid U16) : Grid U16 × U16 :=
  let r := Crew.alone (Instr.exec ddr) (sc.viSweepStreamProgram cuId) (bram, valueTable)
  (r.2, r.1.globalMax)

/-! ## The strip as rounds -/

/-- The columns of a row in the order a unit goes through them. -/
def stripColumns (cuId stripW : Nat) : List Nat :=
  (List.range stripW).map fun (ix : Nat) => if cuId = 0 then ix else stripW - 1 - ix

/-- The cells of a row in that order. -/
def rowCellsOf (cuId : Nat) (raw : Int) (stripX0 : Int) (stripW : Nat) : List (Int × Int) :=
  (stripColumns cuId stripW).map fun (ix : Nat) => (stripX0 + ix, sc.rawRow cuId raw)

/-- The order in which a compute unit goes through its cells. -/
def cuStripCells (cuId : Nat) : List (Int × Int) :=
  (sc.cuStrips cuId).flatMap fun sx => (List.range sc.mapY).flatMap fun (raw : Nat) =>
    sc.rowCellsOf cuId raw (stripX0 sx) (sc.stripW sx)

theorem stripColumns_perm (cuId stripW : Nat) :
    (List.range stripW).Perm (stripColumns cuId stripW) := by
  unfold stripColumns
  by_cases h : cuId = 0
  · simp [h]
  · have hrev : ((List.range stripW).map fun (ix : Nat) =>
        if cuId = 0 then ix else stripW - 1 - ix) = (List.range stripW).reverse := by
      rw [List.range_eq_range', List.reverse_range']
      simp [h, List.range_eq_range']
    rw [hrev]
    exact (List.reverse_perm _).symm

variable {sc}

/-! ## The circular window -/

/-- The window slot of a raw row. -/
def slot (raw : Int) : Nat := ((raw + 6) % 13).toNat

theorem slot_lt (raw : Int) : slot raw < windowRows := by
  unfold slot windowRows
  omega

theorem slot_cast (raw : Int) : (slot raw : Int) = (raw + 6) % 13 := by
  unfold slot
  omega

/-- Within a window of thirteen rows the slots are distinct. -/
theorem slot_inj {p q : Int} (h0 : p - q < 13) (h1 : q - p < 13) : slot p = slot q ↔ p = q := by
  have hp := slot_cast p
  have hq := slot_cast q
  omega

theorem rawRow_inj {cuId : Nat} {p q : Int} : sc.rawRow cuId p = sc.rawRow cuId q ↔ p = q := by
  unfold rawRow
  split <;> omega

/-- The window around raw row `raw` shows the rows it stands for. -/
def StripShows (sc : Scene) (cuId : Nat) (raw stripX0 : Int) (stripW : Nat) (c : StreamChip)
    (f : Pos → U16) : Prop :=
  ∀ q, raw - 6 ≤ q → q ≤ raw + 6 →
    RowShows sc c f (stripW + 2 * haloMax) (slot q) (sc.rawRow cuId q) (stripX0 - haloMax)

theorem follows_initWindow (cuId : Nat) (stripX0 : Int) {stripW : Nat} (hw : stripW ≤ stripWMax)
    (c : StreamChip) (r : Sheet Pos U16 U16) :
    Follows sc.dims.Contains sc.update gap
      (fun c' r' => StripShows sc cuId 0 stripX0 stripW c' r'.copy ∧ SameMax c c' ∧
        r'.delta = r.delta)
      ((List.range windowRows).flatMap fun (wr : Nat) =>
        sc.loadSlot cuId wr (wr - haloMax) stripX0 stripW)
      (((List.range windowRows).flatMap fun (wr : Nat) =>
        sc.rowStates (sc.rawRow cuId (wr - haloMax)) (stripX0 - haloMax)
          (stripW + 2 * haloMax)).map .fetch) c r := by
  rw [List.map_flatMap]
  refine (Follows.range (I := fun n c' r' => (∀ q : Int, -6 ≤ q → q < n - 6 →
    RowShows sc c' r'.copy (stripW + 2 * haloMax) (slot q) (sc.rawRow cuId q)
      (stripX0 - haloMax)) ∧ SameMax c c' ∧ r'.delta = r.delta) ?_ ?_).mono ?_
  · rintro n hn c₁ r₁ ⟨hshows, hmax, hdelta⟩
    have hslot : slot (n - haloMax) = n := by
      simp only [slot, haloMax, windowRows] at hn ⊢
      omega
    refine (follows_loadRow hn (by simp only [haloMax]; omega)
      (by simp only [haloMax, streamBufW, stripWMax] at hw ⊢; omega) c₁ r₁).mono ?_
    intro c₂ r₂ hl
    refine ⟨?_, hmax.trans hl.max, hl.delta.trans hdelta⟩
    intro q h0 h1
    by_cases heq : q = n - haloMax
    · rw [heq, hslot]
      exact hl.shows
    · simp only [haloMax, windowRows] at heq hn
      refine hl.others _ _ (slot_lt q) ?_ ?_ (hshows q h0 (by omega))
      · rw [← hslot]
        intro hs
        rw [slot_inj (by simp only [haloMax]; omega) (by simp only [haloMax]; omega)] at hs
        exact heq hs
      · intro hr
        exact heq (rawRow_inj.mp hr)
  · exact ⟨fun q h0 h1 => by omega, ⟨rfl, rfl, rfl⟩, rfl⟩
  · rintro c' r' ⟨hshows, hmax, hdelta⟩
    refine ⟨?_, hmax, hdelta⟩
    intro q h0 h1
    exact hshows q (by omega) (by simp only [windowRows]; omega)

/-- Loading the next row over the oldest moves the window on. -/
theorem follows_evict {cuId iyRaw : Nat} {stripX0 : Int} {stripW : Nat}
    (hw : stripW ≤ stripWMax) {c : StreamChip} {r : Sheet Pos U16 U16}
    (h : StripShows sc cuId iyRaw stripX0 stripW c r.copy) :
    Follows sc.dims.Contains sc.update gap
      (fun c' r' => StripShows sc cuId ((iyRaw + 1 : Nat) : Int) stripX0 stripW c' r'.copy ∧
        SameMax c c' ∧ r'.delta = r.delta)
      (sc.loadSlot cuId (iyRaw % windowRows) (iyRaw + haloMax + 1) stripX0 stripW)
      ((sc.rowStates (sc.rawRow cuId (iyRaw + haloMax + 1)) (stripX0 - haloMax)
        (stripW + 2 * haloMax)).map .fetch) c r := by
  have hslot : slot (iyRaw + haloMax + 1) = iyRaw % windowRows := by
    simp only [slot, haloMax, windowRows]
    omega
  rw [← hslot, loadSlot]
  refine (follows_loadRow (slot_lt _) (by simp only [haloMax]; omega)
    (by simp only [haloMax, streamBufW, stripWMax] at hw ⊢; omega) c r).mono ?_
  intro c' r' hl
  refine ⟨?_, hl.max, hl.delta⟩
  intro q h0 h1
  by_cases heq : q = iyRaw + haloMax + 1
  · rw [heq]
    exact hl.shows
  · simp only [haloMax] at heq
    refine hl.others _ _ (slot_lt q) ?_ ?_ (h q (by omega) (by omega))
    · intro hs
      rw [slot_inj (by simp only [haloMax]; omega) (by simp only [haloMax]; omega)] at hs
      exact heq hs
    · intro hr
      exact heq (rawRow_inj.mp hr)

/-! ## A column of the centre row -/

section Column

variable {cuId iyRaw stripW ix : Nat} {stripX0 : Int} {c0 : StreamChip} {f0 : Pos → U16}

theorem StripShows.centre (h : StripShows sc cuId iyRaw stripX0 stripW c0 f0)
    (hin : sc.InMap (stripX0 + ix) (sc.rawRow cuId iyRaw)) (hx : ix < stripW) {t : Nat}
    (ht : t < nTheta) : c0.valBuf.get ⟨(ix : Int) + haloMax, ((iyRaw + 6) % windowRows : Nat), t⟩ =
      f0 ⟨stripX0 + ix, sc.rawRow cuId iyRaw, t⟩ := by
  have hrow := (h iyRaw (by omega) (by omega)).val ((ix : Int) + haloMax) t
    (by simp only [haloMax]; omega) (by simp only [haloMax]; omega) (by omega)
    (by simp only [nTheta] at ht; omega)
  rw [show stripX0 - haloMax + ((ix : Int) + haloMax) = stripX0 + ix by omega,
    show slot iyRaw = (iyRaw + 6) % windowRows by
      simp only [slot, windowRows]; omega, ext, if_pos hin] at hrow
  exact hrow

theorem StripShows.centrePen (h : StripShows sc cuId iyRaw stripX0 stripW c0 f0)
    (hin : sc.InMap (stripX0 + ix) (sc.rawRow cuId iyRaw)) (hx : ix < stripW) :
    c0.penBuf.get ⟨(ix : Int) + haloMax, ((iyRaw + 6) % windowRows : Nat), 0⟩ =
      sc.pen (stripX0 + ix) (sc.rawRow cuId iyRaw) := by
  have hrow := (h iyRaw (by omega) (by omega)).pen ((ix : Int) + haloMax)
    (by simp only [haloMax]; omega) (by simp only [haloMax]; omega)
  rw [show stripX0 - haloMax + ((ix : Int) + haloMax) = stripX0 + ix by omega,
    show slot iyRaw = (iyRaw + 6) % windowRows by
      simp only [slot, windowRows]; omega, extPen, if_pos hin] at hrow
  exact hrow

/-- The row an action leads to lies in the window, in the slot `ny_lut` says. -/
theorem nyLut_eq (cuId iyRaw : Nat) (hc : sc.Contract) {a it : Nat} (ha : a < nActions) (hit : it < nTheta) :
    ∃ q : Int, (iyRaw : Int) - 6 ≤ q ∧ q ≤ iyRaw + 6 ∧
      sc.rawRow cuId q = sc.rawRow cuId iyRaw + sc.diy a it ∧
      sc.nyLut cuId ((iyRaw + 6) % windowRows) a it = slot q := by
  have hdy := hc.diy_le a ha it hit
  simp only [haloMax] at hdy
  refine ⟨iyRaw + (if cuId = 0 then 1 else -1) * sc.diy a it, ?_, ?_, ?_, ?_⟩
  · split <;> omega
  · split <;> omega
  · unfold rawRow
    split <;> omega
  · rw [slot_cast]
    simp only [nyLut, windowRows]
    split <;> (split <;> omega)

/-- A prefetched cost is the cost of the action. -/
theorem StripShows.prefetch_eq (hc : sc.Contract)
    (h : StripShows sc cuId iyRaw stripX0 stripW c0 f0) (hx : ix < stripW) {a it t : Nat}
    (ha : a < nActions) (hit : it < nTheta) (ht : ((it : Int) + turn a) % 60 = t) :
    sc.prefetch cuId ((iyRaw + 6) % windowRows) ((ix : Int) + haloMax) c0 a it t =
      sc.cost f0 ⟨stripX0 + ix, sc.rawRow cuId iyRaw, it⟩ a := by
  obtain ⟨q, hq0, hq1, hrow, hny⟩ := nyLut_eq cuId iyRaw hc ha hit
  have hdx := hc.dix_le a ha it hit
  have hcost := (h q hq0 hq1).costOf_eq ((ix : Int) + haloMax + sc.dix a it) t
    (by simp only [haloMax] at hdx ⊢; omega) (by simp only [haloMax] at hdx ⊢; omega)
    (by omega) (by omega)
  rw [show stripX0 - haloMax + ((ix : Int) + haloMax + sc.dix a it) =
    stripX0 + ix + sc.dix a it by omega, hrow] at hcost
  rw [prefetch, hny, hcost, Scene.cost, succ_nat, hc.heading a ha it hit, ht]

/-- What the column loop has done when it comes to heading `it`: the window shows the table
with the earlier headings relaxed, and the chain registers hold what the rotations of the
headings to come look at. -/
structure RotInv (sc : Scene) (cuId iyRaw : Nat) (stripX0 : Int) (stripW ix : Nat)
    (c0 : StreamChip) (r0 : Sheet Pos U16 U16) (it : Nat) (st : StreamChip × RotChain)
    (r : Sheet Pos U16 U16) : Prop where
  shows : StripShows sc cuId iyRaw stripX0 stripW st.1 r.copy
  prev : ∀ j < nTheta, it ≤ j → j < it + 3 →
    st.2.prev (j % 3) = r.copy ⟨stripX0 + ix, sc.rawRow cuId iyRaw, itRight j⟩
  first : ∀ l < 3, st.2.first l = r.copy ⟨stripX0 + ix, sc.rawRow cuId iyRaw, (l : Nat)⟩
  others : ∀ s : Pos, ¬ (s.ix = stripX0 + ix ∧ s.iy = sc.rawRow cuId iyRaw) →
    r.copy s = r0.copy s
  later : ∀ t < nTheta, it ≤ t →
    r.copy ⟨stripX0 + ix, sc.rawRow cuId iyRaw, (t : Nat)⟩ =
      r0.copy ⟨stripX0 + ix, sc.rawRow cuId iyRaw, (t : Nat)⟩
  max : st.1.stripMax = c0.stripMax ∧ st.1.globalMax = c0.globalMax
  delta : r.delta = Max.max (Max.max c0.globalMax c0.stripMax) st.1.localMax

/-- A translation leaves the column, so its cost does not change while the column is relaxed. -/
theorem RotInv.cost_translate (ht : sc.Translates) {r0 r : Sheet Pos U16 U16} {it : Nat}
    {st : StreamChip × RotChain} (h : RotInv sc cuId iyRaw stripX0 stripW ix c0 r0 it st r)
    {a j : Nat} (ha : a < nActions) (hrot : ¬ (a = 2 ∨ a = 3)) (hj : j < nTheta) :
    sc.cost r0.copy ⟨stripX0 + ix, sc.rawRow cuId iyRaw, j⟩ a =
      sc.cost r.copy ⟨stripX0 + ix, sc.rawRow cuId iyRaw, j⟩ a := by
  apply cost_congr
  intro _
  symm
  apply h.others
  rw [succ_nat]
  have hmove := ht a ha hrot j hj
  simp only
  omega

/-- The cost of a rotation is that of the cell itself at the turned heading. -/
theorem cost_rotate (hc : sc.Contract) {x y : Int} (hin : sc.InMap x y) {a it t : Nat}
    (ha : a < nActions) (hrot : a = 2 ∨ a = 3) (hit : it < nTheta)
    (ht : ((it : Int) + turn a) % 60 = t) (f : Pos → U16) :
    costOf (f ⟨x, y, t⟩) (sc.pen x y) = sc.cost f ⟨x, y, it⟩ a := by
  obtain ⟨hdx, hdy⟩ := hc.rotation a ha hrot it hit
  have hsucc : sc.succ ⟨x, y, it⟩ a = ⟨x, y, t⟩ := by
    rw [succ_nat, hdx, hdy, hc.heading a ha it hit, ht, add_zero, add_zero]
  rw [cost_of_inMap (by rw [hsucc]; exact hin), hsucc]

/-- What the rotation to the left looks at: a heading still to come, or one of the first
three, which the chain has kept. -/
theorem RotInv.left {r0 r : Sheet Pos U16 U16} {it : Nat} {st : StreamChip × RotChain}
    (h : RotInv sc cuId iyRaw stripX0 stripW ix c0 r0 it st r)
    (hshow : StripShows sc cuId iyRaw stripX0 stripW c0 r0.copy)
    (hin : sc.InMap (stripX0 + ix) (sc.rawRow cuId iyRaw)) (hx : ix < stripW)
    (hit : it < nTheta) :
    (if it / 3 = nTheta / 3 - 1 then st.2.first (it % 3)
      else c0.valBuf.get ⟨(ix : Int) + haloMax, ((iyRaw + 6) % windowRows : Nat),
        (it + 3 : Nat)⟩) = r.copy ⟨stripX0 + ix, sc.rawRow cuId iyRaw, itLeft it⟩ := by
  have h60 : nTheta = 60 := rfl
  by_cases hlast : it + 3 ≥ nTheta
  · have hl : itLeft it = it % 3 := by
      rw [itLeft, if_pos hlast]
      omega
    rw [hl, if_pos (by omega)]
    exact h.first (it % 3) (by omega)
  · have hl : itLeft it = it + 3 := if_neg hlast
    rw [hl, if_neg (by omega), hshow.centre hin hx (by omega)]
    exact (h.later (it + 3) (by omega) (by omega)).symm

/-- One heading of the column relaxes the state it stands for. -/
theorem RotInv.heading (hc : sc.Contract) (ht : sc.Translates) {r0 r : Sheet Pos U16 U16}
    {it : Nat} {st : StreamChip × RotChain}
    (h : RotInv sc cuId iyRaw stripX0 stripW ix c0 r0 it st r) (hw : stripW ≤ stripWMax)
    (hshow : StripShows sc cuId iyRaw stripX0 stripW c0 r0.copy)
    (hin : sc.InMap (stripX0 + ix) (sc.rawRow cuId iyRaw)) (hx : ix < stripW)
    (hit : it < nTheta) {skip : Bool}
    (hskip : skip = true ↔ sc.pen (stripX0 + ix) (sc.rawRow cuId iyRaw) ≥ penaltyGoal) :
    RotInv sc cuId iyRaw stripX0 stripW ix c0 r0 (it + 1)
      (sc.rotHeading cuId ((iyRaw + 6) % windowRows) ((ix : Int) + haloMax) skip c0 st it)
      (relaxOne sc.update gap r ⟨stripX0 + ix, sc.rawRow cuId iyRaw, it⟩) := by
  generalize hs : (⟨stripX0 + ix, sc.rawRow cuId iyRaw, it⟩ : Pos) = s
  have h60 : nTheta = 60 := rfl
  have hcontains : sc.dims.Contains s := by
    rw [← hs, contains_iff]
    exact ⟨hin, Int.natCast_nonneg it, Int.ofNat_lt.mpr hit⟩
  obtain ⟨ht0, ht1, ht2, ht3, ht4, ht5⟩ := turn_it hit
  have hold : c0.valBuf.get ⟨(ix : Int) + haloMax, ((iyRaw + 6) % windowRows : Nat), it⟩ =
      r.copy s := by
    rw [hshow.centre hin hx hit, ← hs, h.later it hit (le_refl it)]
  have htrans : ∀ a t : Nat, a < nActions → ¬ (a = 2 ∨ a = 3) → ((it : Int) + turn a) % 60 = t →
      sc.prefetch cuId ((iyRaw + 6) % windowRows) ((ix : Int) + haloMax) c0 a it t =
        sc.cost r.copy s a := by
    intro a t ha hrot hturn
    rw [hshow.prefetch_eq hc hx ha hit hturn, h.cost_translate ht ha hrot hit, hs]
  have hright : st.2.prev (it % 3) =
      r.copy ⟨stripX0 + ix, sc.rawRow cuId iyRaw, itRight it⟩ :=
    h.prev it hit (le_refl it) (by omega)
  have hnew : (if skip then r.copy s else sc.best r.copy s) = sc.update r.copy s := by
    unfold update
    rw [← hs]
    by_cases hsk : skip = true
    · rw [if_pos hsk, if_pos (hskip.mp hsk)]
    · rw [if_neg hsk, if_neg fun hp => hsk (hskip.mpr hp)]
  have hgap : (if skip then (0 : U16) else gap (r.copy s) (sc.update r.copy s)) =
      gap (r.copy s) (sc.update r.copy s) := by
    by_cases hsk : skip = true
    · rw [if_pos hsk, ← hnew, if_pos hsk, gap_self]
    · rw [if_neg hsk]
  have hstep : sc.rotHeading cuId ((iyRaw + 6) % windowRows) ((ix : Int) + haloMax) skip c0 st it =
      ((st.1.putVal ⟨(ix : Int) + haloMax, ((iyRaw + 6) % windowRows : Nat), it⟩
          (sc.update r.copy s)).setLocalMax
          (Max.max st.1.localMax (gap (r.copy s) (sc.update r.copy s))),
        ⟨Function.update st.2.prev (it % 3) (sc.update r.copy s),
          if it / 3 = 0 then Function.update st.2.first (it % 3) (sc.update r.copy s)
          else st.2.first⟩) := by
    simp only [rotHeading]
    rw [h.left hshow hin hx hit, hright, htrans 0 it (by decide) (by decide) ht0,
      htrans 1 it (by decide) (by decide) ht1, htrans 4 _ (by decide) (by decide) ht4,
      htrans 5 _ (by decide) (by decide) ht5, hshow.centrePen hin hx,
      cost_rotate hc hin (by decide) (by decide) hit ht2 r.copy,
      cost_rotate hc hin (by decide) (by decide) hit ht3 r.copy, hold, hs, minTree_eq_best, hnew,
      ite_gt_eq_max]
    congr 3
  rw [hstep]
  have hcopy : ∀ t : Nat, (relaxOne sc.update gap r s).copy
      ⟨stripX0 + ix, sc.rawRow cuId iyRaw, t⟩ = if t = it then sc.update r.copy s
        else r.copy ⟨stripX0 + ix, sc.rawRow cuId iyRaw, t⟩ := by
    intro t
    by_cases hti : t = it
    · rw [if_pos hti, hti, hs]
      exact Function.update_self _ _ _
    · rw [if_neg hti]
      apply Function.update_of_ne
      rw [← hs]
      simp only [ne_eq, Pos.mk.injEq, true_and]
      omega
  refine ⟨?_, ?_, ?_, ?_, ?_, h.max, ?_⟩
  · intro q h0 h1
    have hplace : (⟨(ix : Int) + haloMax, ((iyRaw + 6) % windowRows : Nat), it⟩ : Pos) =
        place (slot iyRaw) (stripX0 - haloMax) s := by
      rw [← hs]
      simp only [place, slot, haloMax, windowRows, Pos.mk.injEq, and_true]
      omega
    rw [hplace]
    have hput := (h.shows q h0 h1).putVal (slot iyRaw) (sc.rawRow cuId iyRaw)
      (by simp only [haloMax, streamBufW, stripWMax] at hw ⊢; omega) (slot_lt _) (slot_lt _)
      (by rw [slot_inj (by omega) (by omega), rawRow_inj]) hcontains (by rw [← hs])
      (by rw [← hs]; simp only [haloMax]; omega) (by rw [← hs]; simp only [haloMax]; omega)
      (sc.update r.copy s)
    exact ⟨hput.pen, hput.val⟩
  · intro j hj h0 h1
    change Function.update st.2.prev (it % 3) (sc.update r.copy s) (j % 3) = _
    rw [hcopy]
    by_cases hlast : j = it + 3
    · have hmod : j % 3 = it % 3 := by omega
      have hr : itRight j = it := by
        unfold itRight
        split <;> omega
      rw [if_pos hr, hmod, Function.update_self]
    · have hr : itRight j ≠ it := by
        unfold itRight
        split <;> omega
      rw [if_neg hr, Function.update_of_ne (by omega)]
      exact h.prev j hj (by omega) (by omega)
  · intro l hl
    rw [hcopy]
    by_cases hstep0 : it / 3 = 0
    · simp only [if_pos hstep0]
      by_cases hlt : l = it
      · rw [if_pos hlt, hlt, show it % 3 = it by omega, Function.update_self]
      · rw [if_neg hlt, Function.update_of_ne (by omega)]
        exact h.first l hl
    · simp only [if_neg hstep0]
      rw [if_neg (by omega)]
      exact h.first l hl
  · intro p hp
    rw [← h.others p hp]
    apply Function.update_of_ne
    intro heq
    rw [heq, ← hs] at hp
    exact hp ⟨rfl, rfl⟩
  · intro t ht h0
    rw [hcopy, if_neg (by omega)]
    exact h.later t ht (by omega)
  · simp only [relaxOne, h.delta, Chip.setLocalMax]
    exact max_assoc _ _ _

/-- The headings of a column relax its states in order. -/
theorem RotInv.run (hc : sc.Contract) (ht : sc.Translates) {r0 : Sheet Pos U16 U16}
    (hw : stripW ≤ stripWMax)
    (hshow : StripShows sc cuId iyRaw stripX0 stripW c0 r0.copy)
    (hin : sc.InMap (stripX0 + ix) (sc.rawRow cuId iyRaw)) (hx : ix < stripW) {skip : Bool}
    (hskip : skip = true ↔ sc.pen (stripX0 + ix) (sc.rawRow cuId iyRaw) ≥ penaltyGoal)
    {st : StreamChip × RotChain}
    (h : RotInv sc cuId iyRaw stripX0 stripW ix c0 r0 0 st r0) (n : Nat) (hn : n ≤ nTheta) :
    RotInv sc cuId iyRaw stripX0 stripW ix c0 r0 n
      ((List.range n).foldl (sc.rotHeading cuId ((iyRaw + 6) % windowRows)
        ((ix : Int) + haloMax) skip c0) st)
      (relaxAll sc.update gap ((List.range n).map fun (it : Nat) =>
        (⟨stripX0 + ix, sc.rawRow cuId iyRaw, it⟩ : Pos)) r0) := by
  induction n with
  | zero => exact h
  | succ n ih =>
    rw [List.range_succ, List.foldl_append, List.map_append, relaxAll_append]
    exact (ih (by omega)).heading hc ht hw hshow hin hx (by omega) hskip

/-- What `compute_row` keeps from column to column. -/
def RowInv (sc : Scene) (cuId iyRaw : Nat) (stripX0 : Int) (stripW : Nat) (c : StreamChip)
    (r : Sheet Pos U16 U16) : Prop :=
  StripShows sc cuId iyRaw stripX0 stripW c r.copy ∧
    r.delta = Max.max (Max.max c.globalMax c.stripMax) c.localMax

theorem RowInv.column (hc : sc.Contract) (ht : sc.Translates) {c : StreamChip}
    {r : Sheet Pos U16 U16} (h : RowInv sc cuId iyRaw stripX0 stripW c r)
    (hw : stripW ≤ stripWMax)
    (hmap : ∀ ix < stripW, sc.InMap (stripX0 + (ix : Nat)) (sc.rawRow cuId iyRaw))
    {ixRaw : Nat} (hx : ixRaw < stripW) :
    RowInv sc cuId iyRaw stripX0 stripW
      (sc.streamColumn cuId ((iyRaw + 6) % windowRows) stripW ixRaw c)
      (relaxAll sc.update gap (Fpga.Scene.column (stripX0 +
        ((if cuId = 0 then ixRaw else stripW - 1 - ixRaw : Nat) : Int))
        (sc.rawRow cuId iyRaw)) r) := by
  generalize hix : (if cuId = 0 then ixRaw else stripW - 1 - ixRaw) = ix
  have hlt : ix < stripW := by
    rw [← hix]
    split <;> omega
  have hin := hmap ix hlt
  have h60 : nTheta = 60 := rfl
  have hcol : sc.streamColumn cuId ((iyRaw + 6) % windowRows) stripW ixRaw c =
      ((List.range nTheta).foldl (sc.rotHeading cuId ((iyRaw + 6) % windowRows)
        ((ix : Int) + haloMax) (decide (sc.pen (stripX0 + ix) (sc.rawRow cuId iyRaw) ≥
          penaltyGoal)) c)
        (c, ⟨fun lane => c.valBuf.get ⟨(ix : Int) + haloMax,
            ((iyRaw + 6) % windowRows : Nat), (nTheta - 3 + lane : Nat)⟩,
          fun t => c.valBuf.get ⟨(ix : Int) + haloMax,
            ((iyRaw + 6) % windowRows : Nat), (t : Nat)⟩⟩)).1 := by
    simp only [streamColumn, hx, decide_true, Bool.not_true, Bool.false_or, if_true, hix,
      h.1.centrePen hin hlt]
  rw [hcol]
  have hstart : RotInv sc cuId iyRaw stripX0 stripW ix c r 0
      (c, ⟨fun lane => c.valBuf.get ⟨(ix : Int) + haloMax,
            ((iyRaw + 6) % windowRows : Nat), (nTheta - 3 + lane : Nat)⟩,
          fun t => c.valBuf.get ⟨(ix : Int) + haloMax,
            ((iyRaw + 6) % windowRows : Nat), (t : Nat)⟩⟩) r := by
    refine ⟨h.1, ?_, ?_, fun _ _ => rfl, fun _ _ _ => rfl, ⟨rfl, rfl⟩, h.2⟩
    · intro j hj h0 h1
      have hr : itRight j = nTheta - 3 + j % 3 := by
        unfold itRight
        split <;> omega
      rw [hr]
      exact h.1.centre hin hlt (by omega)
    · intro l hl
      exact h.1.centre hin hlt (by omega)
  have hrun := RotInv.run hc ht hw h.1 hin hlt decide_eq_true_iff hstart nTheta (le_refl _)
  refine ⟨hrun.shows, ?_⟩
  rw [hrun.max.1, hrun.max.2]
  exact hrun.delta

theorem RowInv.congr {c c' : StreamChip} {r : Sheet Pos U16 U16}
    (h : RowInv sc cuId iyRaw stripX0 stripW c r) (hw : stripW ≤ stripWMax)
    (hsame : (∀ q, Dims.Contains ⟨streamBufW, windowRows, nTheta⟩ q →
      c'.valBuf.get q = c.valBuf.get q) ∧ c'.penBuf = c.penBuf ∧ SameMax c c') :
    RowInv sc cuId iyRaw stripX0 stripW c' r := by
  obtain ⟨hval, hpen, hmax⟩ := hsame
  have h60 : nTheta = 60 := rfl
  refine ⟨?_, ?_⟩
  · intro q h0 h1
    have hrow := h.1 q h0 h1
    refine ⟨?_, ?_⟩
    · intro lx hl0 hl1
      rw [hpen]
      exact hrow.pen lx hl0 hl1
    · intro lx it hl0 hl1 ht0 ht1
      have hslot := slot_lt q
      rw [hval _ ?_]
      · exact hrow.val lx it hl0 hl1 ht0 ht1
      · simp only [Dims.Contains, streamBufW, haloMax, stripWMax] at hl1 hw ⊢
        omega
  · rw [hmax.1, hmax.2.1, hmax.2.2]
    exact h.2

/-- Beyond the strip the column loop writes back what it has read. -/
theorem RowInv.idle {c : StreamChip} {r : Sheet Pos U16 U16}
    (h : RowInv sc cuId iyRaw stripX0 stripW c r) (hw : stripW ≤ stripWMax) {ixRaw : Nat}
    (hx : ¬ ixRaw < stripW) :
    RowInv sc cuId iyRaw stripX0 stripW
      (sc.streamColumn cuId ((iyRaw + 6) % windowRows) stripW ixRaw c) r := by
  have h60 : nTheta = 60 := rfl
  have h13 : windowRows = 13 := rfl
  have hkeep : ∀ (l : List Nat), (∀ it ∈ l, it < nTheta) → ∀ st : StreamChip × RotChain,
      (∀ q, Dims.Contains ⟨streamBufW, windowRows, nTheta⟩ q →
        st.1.valBuf.get q = c.valBuf.get q) ∧ st.1.penBuf = c.penBuf ∧ SameMax c st.1 →
      (∀ q, Dims.Contains ⟨streamBufW, windowRows, nTheta⟩ q →
        (l.foldl (sc.rotHeading cuId ((iyRaw + 6) % windowRows) (((0 : Nat) : Int) + haloMax)
          true c) st).1.valBuf.get q = c.valBuf.get q) ∧
        (l.foldl (sc.rotHeading cuId ((iyRaw + 6) % windowRows) (((0 : Nat) : Int) + haloMax)
          true c) st).1.penBuf = c.penBuf ∧
        SameMax c (l.foldl (sc.rotHeading cuId ((iyRaw + 6) % windowRows)
          (((0 : Nat) : Int) + haloMax) true c) st).1 := by
    intro l
    induction l with
    | nil => intro _ st hst; exact hst
    | cons it l ih =>
      rintro hl st ⟨hval, hpen, hmax⟩
      have hit := hl it (by simp)
      apply ih fun t ht => hl t (by simp [ht])
      refine ⟨?_, hpen, ?_⟩
      · intro q hq
        have hp : Dims.Contains ⟨streamBufW, windowRows, nTheta⟩
            ⟨((0 : Nat) : Int) + haloMax, ((iyRaw + 6) % windowRows : Nat), (it : Nat)⟩ := by
          have hmod : (iyRaw + 6) % windowRows < windowRows := Nat.mod_lt _ (by decide)
          simp only [Dims.Contains, haloMax, streamBufW]
          omega
        have hput : (sc.rotHeading cuId ((iyRaw + 6) % windowRows) (((0 : Nat) : Int) + haloMax)
            true c st it).1.valBuf.get q =
            (st.1.putVal ⟨((0 : Nat) : Int) + haloMax, ((iyRaw + 6) % windowRows : Nat),
              (it : Nat)⟩ (c.valBuf.get ⟨((0 : Nat) : Int) + haloMax,
                ((iyRaw + 6) % windowRows : Nat), (it : Nat)⟩)).valBuf.get q := rfl
        rw [hput, putVal_get hp hq]
        split
        · next heq => rw [heq]
        · exact hval q hq
      · refine ⟨?_, hmax.2⟩
        have hlocal : (sc.rotHeading cuId ((iyRaw + 6) % windowRows)
            (((0 : Nat) : Int) + haloMax) true c st it).1.localMax =
            if (0 : U16) > st.1.localMax then 0 else st.1.localMax := rfl
        rw [hlocal, if_neg (not_lt.mpr (Fin.zero_le _))]
        exact hmax.1
  have hall := hkeep (List.range nTheta) (fun it hit => List.mem_range.mp hit)
    (c, ⟨fun lane => c.valBuf.get ⟨((0 : Nat) : Int) + haloMax,
          ((iyRaw + 6) % windowRows : Nat), (nTheta - 3 + lane : Nat)⟩,
        fun t => c.valBuf.get ⟨((0 : Nat) : Int) + haloMax,
          ((iyRaw + 6) % windowRows : Nat), (t : Nat)⟩⟩)
    ⟨fun _ _ => rfl, rfl, rfl, rfl, rfl⟩
  have hcol : sc.streamColumn cuId ((iyRaw + 6) % windowRows) stripW ixRaw c =
      ((List.range nTheta).foldl (sc.rotHeading cuId ((iyRaw + 6) % windowRows)
        (((0 : Nat) : Int) + haloMax) true c)
        (c, ⟨fun lane => c.valBuf.get ⟨((0 : Nat) : Int) + haloMax,
            ((iyRaw + 6) % windowRows : Nat), (nTheta - 3 + lane : Nat)⟩,
          fun t => c.valBuf.get ⟨((0 : Nat) : Int) + haloMax,
            ((iyRaw + 6) % windowRows : Nat), (t : Nat)⟩⟩)).1 := by
    simp [streamColumn, hx]
  rw [hcol]
  exact h.congr hw hall

end Column

/-! ## Rows and strips as rounds -/

/-- A strip whose cells lie on the map. -/
structure StripOnMap (sc : Scene) (stripX0 : Int) (stripW : Nat) : Prop where
  nonneg : 0 ≤ stripX0
  le_mapX : stripX0 + stripW ≤ sc.mapX
  le_max : stripW ≤ stripWMax

theorem rawRow_mem {cuId : Nat} {raw : Int} :
    (0 ≤ sc.rawRow cuId raw ∧ sc.rawRow cuId raw < sc.mapY) ↔ 0 ≤ raw ∧ raw < sc.mapY := by
  unfold rawRow
  split <;> omega

theorem StripOnMap.inMap {stripX0 : Int} {stripW cuId : Nat} (h : StripOnMap sc stripX0 stripW)
    {raw ix : Nat} (hraw : raw < sc.mapY) (hx : ix < stripW) :
    sc.InMap (stripX0 + ix) (sc.rawRow cuId raw) := by
  have := h.nonneg
  have := h.le_mapX
  exact ⟨by omega, rawRow_mem.mpr (by omega)⟩

variable (sc)

/-- Relaxing and writing back a row. -/
def rowRound (cuId raw : Nat) (stripX0 : Int) (stripW : Nat) : Round Pos where
  fetched := []
  relaxed := (sc.rowCellsOf cuId raw stripX0 stripW).flatMap fun c => column c.1 c.2
  flushed := ((List.range stripW).map fun (ix : Nat) =>
    (stripX0 + (ix : Int), sc.rawRow cuId raw)).flatMap fun c => column c.1 c.2
  perm := ((stripColumns_perm cuId stripW).map _).flatMap_right _

/-- Reading rows and nothing else. -/
def fetchRound (l : List Pos) : Round Pos := ⟨l, [], [], List.Perm.refl _⟩

/-- The states a unit reads of a raw row. -/
def slotStates (cuId : Nat) (raw stripX0 : Int) (stripW : Nat) : List Pos :=
  sc.rowStates (sc.rawRow cuId raw) (stripX0 - haloMax) (stripW + 2 * haloMax)

def stripRounds (cuId : Nat) (stripX0 : Int) (stripW : Nat) : List (Round Pos) :=
  fetchRound ((List.range windowRows).flatMap fun (wr : Nat) =>
      sc.slotStates cuId (wr - haloMax) stripX0 stripW) ::
    (List.range sc.mapY).flatMap fun (raw : Nat) =>
      [sc.rowRound cuId raw stripX0 stripW,
        fetchRound (sc.slotStates cuId (raw + haloMax + 1) stripX0 stripW)]

def cuRounds (cuId : Nat) : List (Round Pos) :=
  (sc.cuStrips cuId).flatMap fun sx => sc.stripRounds cuId (stripX0 sx) (sc.stripW sx)

variable {sc}

theorem follows_computeRow (hc : sc.Contract) (ht : sc.Translates) {cuId raw stripW : Nat}
    {stripX0 : Int} (hstrip : StripOnMap sc stripX0 stripW) (hraw : raw < sc.mapY)
    {c : StreamChip} {r : Sheet Pos U16 U16}
    (h : StripShows sc cuId raw stripX0 stripW c r.copy)
    (hdelta : r.delta = max c.globalMax c.stripMax) :
    Follows sc.dims.Contains sc.update gap (RowInv sc cuId raw stripX0 stripW)
      (sc.computeRow cuId ((raw + 6) % windowRows) stripW)
      ((sc.rowRound cuId raw stripX0 stripW).relaxed.map .relax) c r := by
  have hinv : RowInv sc cuId raw stripX0 stripW (c.setLocalMax 0) r := by
    refine ⟨fun q h0 h1 => ⟨(h q h0 h1).pen, (h q h0 h1).val⟩, ?_⟩
    rw [hdelta]
    exact (max_eq_left (Fin.zero_le _)).symm
  have hsplit : List.range stripWMax =
      List.range stripW ++ (List.range (stripWMax - stripW)).map (stripW + ·) := by
    rw [← List.range_add, Nat.add_sub_cancel' hstrip.le_max]
  have hrelaxed : (sc.rowRound cuId raw stripX0 stripW).relaxed.map Op.relax =
      ((List.range stripW).flatMap fun (ixRaw : Nat) => (column (stripX0 +
        ((if cuId = 0 then ixRaw else stripW - 1 - ixRaw : Nat) : Int))
          (sc.rawRow cuId raw)).map .relax) ++ [] := by
    simp only [rowRound, rowCellsOf, stripColumns, List.map_map, List.flatMap_map,
      List.map_flatMap, List.append_nil, Function.comp]
  rw [hrelaxed, computeRow]
  apply Follows.skip
  rw [hsplit, List.map_append, List.map_eq_flatMap (l := List.range stripW)]
  refine (Follows.list (I := RowInv sc cuId raw stripX0 stripW) ?_ hinv).append ?_
  · intro ixRaw hx c r hinv
    rw [List.mem_range] at hx
    have hcol := hinv.column hc ht hstrip.le_max (fun ix hix => hstrip.inMap hraw hix) hx
    rw [← List.append_nil (List.map Op.relax _)]
    exact Follows.step _ (.done hcol)
  · intro c r hinv
    rw [List.map_map]
    have hidle : ∀ (l : List Nat) (c : StreamChip), RowInv sc cuId raw stripX0 stripW c r →
        RowInv sc cuId raw stripX0 stripW (l.foldl (fun c (i : Nat) =>
          sc.streamColumn cuId ((raw + 6) % windowRows) stripW (stripW + i) c) c) r := by
      intro l
      induction l with
      | nil => intro c h; exact h
      | cons i l ih =>
        intro c h
        rw [List.foldl_cons]
        exact ih _ (h.idle hstrip.le_max (Nat.not_lt.mpr (Nat.le_add_right stripW i)))
    exact Follows.steps (hidle _ c hinv)

theorem follows_storeRow {cuId raw stripW : Nat} {stripX0 : Int}
    (hstrip : StripOnMap sc stripX0 stripW) (hraw : raw < sc.mapY) {c : StreamChip}
    {r : Sheet Pos U16 U16} (h : StripShows sc cuId raw stripX0 stripW c r.copy) :
    Follows sc.dims.Contains sc.update gap (fun c' r' => c' = c ∧ r' = r)
      (storeRow ((raw + 6) % windowRows) (sc.rawRow cuId raw) stripX0 stripW)
      ((sc.rowRound cuId raw stripX0 stripW).flushed.map .flush) c r := by
  have hflushed : (sc.rowRound cuId raw stripX0 stripW).flushed.map Op.flush =
      (List.range stripW).flatMap fun (ix : Nat) => (List.range nTheta).map fun (it : Nat) =>
        Op.flush ⟨stripX0 + ix, sc.rawRow cuId raw, it⟩ := by
    simp only [rowRound, List.flatMap_map, List.map_flatMap, column, List.map_map]
    rfl
  rw [hflushed, storeRow]
  apply Follows.list _ ⟨rfl, rfl⟩
  intro ix hx c₁ r₁ hinv
  apply Follows.map _ hinv
  rintro it hit c₁ r₁ ⟨rfl, rfl⟩
  rw [List.mem_range] at hx hit
  have hin : sc.InMap (stripX0 + ix) (sc.rawRow cuId raw) := hstrip.inMap hraw hx
  refine Follows.stored ?_ (h.centre hin hx hit) ⟨rfl, rfl⟩
  exact contains_iff.mpr ⟨hin, Int.natCast_nonneg it, Int.ofNat_lt.mpr hit⟩

/-- One turn of the row loop is a round for the row and one for the row loaded. -/
theorem follows_streamRow (hc : sc.Contract) (ht : sc.Translates) {cuId raw stripW : Nat}
    {stripX0 : Int} (hstrip : StripOnMap sc stripX0 stripW) (hraw : raw < sc.mapY)
    {c : StreamChip} {r : Sheet Pos U16 U16}
    (h : StripShows sc cuId raw stripX0 stripW c r.copy)
    (hdelta : r.delta = max c.globalMax c.stripMax) :
    Follows sc.dims.Contains sc.update gap
      (fun c' r' => StripShows sc cuId ((raw + 1 : Nat) : Int) stripX0 stripW c' r'.copy ∧
        r'.delta = max c'.globalMax c'.stripMax)
      (sc.streamRow cuId raw stripX0 stripW)
      ([sc.rowRound cuId raw stripX0 stripW,
        fetchRound (sc.slotStates cuId (raw + haloMax + 1) stripX0 stripW)].flatMap Round.ops)
      c r := by
  have hops : [sc.rowRound cuId raw stripX0 stripW, fetchRound (sc.slotStates cuId
      (raw + haloMax + 1) stripX0 stripW)].flatMap Round.ops =
      (sc.rowRound cuId raw stripX0 stripW).relaxed.map .relax ++
        ((sc.rowRound cuId raw stripX0 stripW).flushed.map .flush ++
          (sc.slotStates cuId (raw + haloMax + 1) stripX0 stripW).map .fetch) := by
    simp only [List.flatMap_cons, List.flatMap_nil, Round.ops, fetchRound, List.map_nil,
      List.append_nil, List.append_assoc]
    rfl
  rw [hops, streamRow]
  refine (follows_computeRow hc ht hstrip hraw h hdelta).append ?_
  rintro c₁ r₁ ⟨hshows, hdelta₁⟩
  apply Follows.skip
  have hmerge : r₁.delta = max (mergeRow c₁).globalMax (mergeRow c₁).stripMax := by
    rw [hdelta₁, max_assoc, mergeRow, ← ite_gt_eq_max c₁.localMax c₁.stripMax]
    split
    · rfl
    · rfl
  have hkeep : StripShows sc cuId raw stripX0 stripW (mergeRow c₁) r₁.copy := by
    intro q h0 h1
    have := hshows q h0 h1
    unfold mergeRow
    split
    · exact ⟨this.pen, this.val⟩
    · exact this
  refine (follows_storeRow hstrip hraw hkeep).append ?_
  rintro c₂ r₂ ⟨rfl, rfl⟩
  refine (follows_evict hstrip.le_max hkeep).mono ?_
  rintro c₃ r₃ ⟨hshows₃, hmax, hdelta₃⟩
  refine ⟨hshows₃, ?_⟩
  rw [hdelta₃, hmerge, hmax.2.1, hmax.2.2]

/-- A strip is its rounds. -/
theorem follows_streamStrip (hc : sc.Contract) (ht : sc.Translates) {cuId stripW : Nat}
    {stripX0 : Int} (hstrip : StripOnMap sc stripX0 stripW) {c : StreamChip}
    {r : Sheet Pos U16 U16} (hdelta : r.delta = c.globalMax) :
    Follows sc.dims.Contains sc.update gap (fun c' r' => r'.delta = max c'.globalMax c'.stripMax)
      (sc.streamStrip cuId stripX0 stripW)
      ((sc.stripRounds cuId stripX0 stripW).flatMap Round.ops) c r := by
  rw [streamStrip, stripRounds, List.flatMap_cons, List.flatMap_assoc]
  apply Follows.skip
  refine Follows.append (Q := fun c' r' => StripShows sc cuId ((0 : Nat) : Int) stripX0 stripW c'
    r'.copy ∧ r'.delta = max c'.globalMax c'.stripMax) ?_ ?_
  · rw [fetchRound, Round.ops, List.map_nil, List.map_nil, List.append_nil, List.append_nil]
    refine (follows_initWindow cuId stripX0 hstrip.le_max (c.setStripMax 0) r).mono ?_
    rintro c' r' ⟨hshows, hmax, hdelta'⟩
    refine ⟨hshows, ?_⟩
    rw [hdelta', hdelta, hmax.2.1, hmax.2.2]
    exact (max_eq_left (Fin.zero_le _)).symm
  · intro c' r' hinv
    refine (Follows.range (I := fun n c' r' => StripShows sc cuId ((n : Nat) : Int) stripX0
      stripW c' r'.copy ∧ r'.delta = max c'.globalMax c'.stripMax) ?_ hinv).mono
        fun _ _ h => h.2
    rintro raw hraw c₁ r₁ ⟨hshows, hdelta₁⟩
    exact follows_streamRow hc ht hstrip hraw hshows hdelta₁

/-! ## The strips of a unit -/

/-- The loop never breaks: every strip it comes to exists. -/
theorem cuStrips_eq (cuId : Nat) : sc.cuStrips cuId =
    (List.range sc.halfStrips).map fun (si : Nat) =>
      if cuId = 0 then (si : Int) else sc.numStrips - 1 - si := by
  rw [cuStrips, List.takeWhile_eq_self_iff]
  intro sx hsx
  obtain ⟨si, hsi, rfl⟩ := List.mem_map.mp hsx
  have hhalf : sc.halfStrips = (sc.numStrips + 1) / 2 := rfl
  rw [List.mem_range] at hsi
  simp only [Bool.not_eq_true', Bool.or_eq_false_iff, decide_eq_false_iff_not]
  split <;> omega

theorem mem_cuStrips {cuId : Nat} {sx : Int} (h : sx ∈ sc.cuStrips cuId) :
    0 ≤ sx ∧ sx < sc.numStrips := by
  rw [cuStrips_eq, List.mem_map] at h
  obtain ⟨si, hsi, rfl⟩ := h
  have hhalf : sc.halfStrips = (sc.numStrips + 1) / 2 := rfl
  rw [List.mem_range] at hsi
  split <;> omega

/-- Unit 0 takes strips from the left, the other as many from the right. -/
theorem mem_cuStrips_left {sx : Int} :
    sx ∈ sc.cuStrips 0 ↔ 0 ≤ sx ∧ sx < sc.halfStrips := by
  rw [cuStrips_eq, List.mem_map]
  simp only [if_true, List.mem_range]
  constructor
  · rintro ⟨si, hsi, rfl⟩
    omega
  · rintro ⟨h0, h1⟩
    exact ⟨sx.toNat, by omega, by omega⟩

theorem mem_cuStrips_right {cuId : Nat} (hcu : cuId ≠ 0) {sx : Int} :
    sx ∈ sc.cuStrips cuId ↔ (sc.numStrips : Int) - sc.halfStrips ≤ sx ∧ sx < sc.numStrips := by
  rw [cuStrips_eq, List.mem_map]
  simp only [if_neg hcu, List.mem_range]
  constructor
  · rintro ⟨si, hsi, rfl⟩
    omega
  · rintro ⟨h0, h1⟩
    exact ⟨((sc.numStrips : Int) - 1 - sx).toNat, by omega, by omega⟩

theorem nodup_cuStrips (cuId : Nat) : (sc.cuStrips cuId).Nodup := by
  rw [cuStrips_eq]
  apply List.Nodup.map _ List.nodup_range
  intro a b hab
  simp only at hab
  split at hab <;> omega

theorem stripX0_eq (sx : Int) : stripX0 sx = sx * 145 := rfl

theorem stripW_eq (sx : Int) :
    sc.stripW sx = (min ((sc.mapX : Int) - sx * 145) 145).toNat := by
  have hmax : (stripWMax : Int) = 145 := rfl
  rw [stripW, stripX0_eq, hmax]
  omega

theorem stripOnMap {sx : Int} (h0 : 0 ≤ sx) (h1 : sx < sc.numStrips) :
    StripOnMap sc (stripX0 sx) (sc.stripW sx) := by
  have hx : sx * 145 < sc.mapX := by
    have hn : sc.numStrips = (sc.mapX + 144) / 145 := rfl
    omega
  refine ⟨?_, ?_, ?_⟩
  · rw [stripX0_eq]
    omega
  · rw [stripW_eq, stripX0_eq]
    omega
  · rw [stripW_eq, stripWMax]
    omega

theorem follows_viSweepStream (hc : sc.Contract) (ht : sc.Translates) (cuId : Nat)
    (bram : StreamChip) (f : Pos → U16) :
    Follows sc.dims.Contains sc.update gap (fun c' r' => r'.delta = c'.globalMax)
      (sc.viSweepStreamProgram cuId) ((sc.cuRounds cuId).flatMap Round.ops) bram ⟨f, 0⟩ := by
  rw [viSweepStreamProgram, cuRounds, List.flatMap_assoc]
  apply Follows.skip
  apply Follows.list
  · intro sx hsx c r hinv
    obtain ⟨h0, h1⟩ := mem_cuStrips hsx
    rw [← List.append_nil ((sc.stripRounds cuId (stripX0 sx) (sc.stripW sx)).flatMap Round.ops)]
    refine (follows_streamStrip hc ht (stripOnMap h0 h1) hinv).append ?_
    intro c' r' hdelta
    apply Follows.skip
    apply Follows.done
    rw [hdelta, mergeStrip, ← ite_gt_eq_max]
    split
    · rfl
    · rfl
  · rfl

/-! ## What the rounds look at -/

/-- The states of the window around raw row `raw`. -/
def InWindow (sc : Scene) (cuId : Nat) (raw stripX0 : Int) (stripW : Nat) (s : Pos) : Prop :=
  sc.dims.Contains s ∧ (raw - 6 ≤ sc.rawRow cuId s.iy ∧ sc.rawRow cuId s.iy ≤ raw + 6) ∧
    stripX0 - 6 ≤ s.ix ∧ s.ix < stripX0 + stripW + 6

theorem rawRow_rawRow (cuId : Nat) (y : Int) : sc.rawRow cuId (sc.rawRow cuId y) = y := by
  unfold rawRow
  split <;> omega

theorem mem_slotStates {cuId stripW : Nat} {raw stripX0 : Int} {s : Pos} :
    s ∈ sc.slotStates cuId raw stripX0 stripW ↔
      sc.dims.Contains s ∧ sc.rawRow cuId s.iy = raw ∧
        stripX0 - 6 ≤ s.ix ∧ s.ix < stripX0 + stripW + 6 := by
  rw [slotStates, mem_rowStates]
  have hraw : s.iy = sc.rawRow cuId raw ↔ sc.rawRow cuId s.iy = raw := by
    constructor
    · intro h
      rw [h, rawRow_rawRow]
    · intro h
      rw [← h, rawRow_rawRow]
  rw [hraw]
  simp only [haloMax]
  constructor
  · rintro ⟨hs, hr, hlo, hhi⟩
    exact ⟨hs, hr, hlo, by omega⟩
  · rintro ⟨hs, hr, hlo, hhi⟩
    exact ⟨hs, hr, hlo, by omega⟩

theorem mem_rowRound {cuId raw stripW : Nat} {stripX0 : Int} {s : Pos} :
    s ∈ (sc.rowRound cuId raw stripX0 stripW).relaxed ↔
      (stripX0 ≤ s.ix ∧ s.ix < stripX0 + stripW) ∧ sc.rawRow cuId s.iy = raw ∧
        0 ≤ s.it ∧ s.it < 60 := by
  rw [← (sc.rowRound cuId raw stripX0 stripW).perm.mem_iff]
  simp only [rowRound, List.mem_flatMap, List.mem_map, List.mem_range]
  constructor
  · rintro ⟨c, ⟨ix, hix, rfl⟩, hs⟩
    obtain ⟨hx, hy, ht⟩ := mem_column.mp hs
    refine ⟨by omega, ?_, ht⟩
    rw [hy, rawRow_rawRow]
  · rintro ⟨hx, hr, ht⟩
    refine ⟨_, ⟨(s.ix - stripX0).toNat, by omega, rfl⟩, mem_column.mpr ⟨by simp only; omega, ?_, ht⟩⟩
    rw [← hr, rawRow_rawRow]

/-- What the states of a row look at lies in the window around it. -/
theorem Contract.row_reads (hc : sc.Contract) {cuId raw stripW : Nat} {stripX0 : Int}
    (hstrip : StripOnMap sc stripX0 stripW) (hraw : raw < sc.mapY) {s : Pos}
    (hs : s ∈ (sc.rowRound cuId raw stripX0 stripW).relaxed) :
    InWindow sc cuId raw stripX0 stripW s ∧
      Reads sc.update (InWindow sc cuId raw stripX0 stripW) s := by
  obtain ⟨hx, hr, ht⟩ := mem_rowRound.mp hs
  have h0 := hstrip.nonneg
  have h1 := hstrip.le_mapX
  have hy : 0 ≤ s.iy ∧ s.iy < sc.mapY := by
    rw [← (rawRow_mem : _ ↔ 0 ≤ s.iy ∧ s.iy < sc.mapY), hr]
    omega
  have hin : sc.dims.Contains s := contains_iff.mpr ⟨⟨by omega, hy⟩, ht⟩
  have hself : InWindow sc cuId raw stripX0 stripW s := ⟨hin, by omega, by omega⟩
  refine ⟨hself, reads_of_succ hself ?_⟩
  intro a ha hsucc
  have hit : s.it.toNat < nTheta := by simp only [nTheta]; omega
  have hdx := hc.dix_le a ha s.it.toNat hit
  have hdy := hc.diy_le a ha s.it.toNat hit
  refine ⟨hc.succ_contains ht ha hsucc, ?_, ?_⟩
  · simp only [succ, haloMax, rawRow] at hdy hr ⊢
    split at hr <;> simp_all <;> omega
  · simp only [succ, haloMax] at hdx ⊢
    omega

theorem sighted_rows (hc : sc.Contract) {cuId stripW : Nat} {stripX0 : Int}
    (hstrip : StripOnMap sc stripX0 stripW) (k : Nat) : ∀ raw, raw + k ≤ sc.mapY →
      Sighted sc.update (InWindow sc cuId raw stripX0 stripW)
        ((List.range' raw k).flatMap fun (raw : Nat) =>
          [sc.rowRound cuId raw stripX0 stripW,
            fetchRound (sc.slotStates cuId (raw + haloMax + 1) stripX0 stripW)]) := by
  induction k with
  | zero => intro raw _; trivial
  | succ k ih =>
    intro raw hraw
    rw [List.range'_succ, List.flatMap_cons]
    refine ⟨_, fun s hs => Or.inl hs, fun s hs => hc.row_reads hstrip (by omega) hs, ?_⟩
    refine ⟨InWindow sc cuId ((raw + 1 : Nat) : Int) stripX0 stripW, ?_, by simp [fetchRound],
      ih (raw + 1) (by omega)⟩
    rintro s ⟨hs, hrow, hx⟩
    by_cases hnext : sc.rawRow cuId s.iy = raw + haloMax + 1
    · exact Or.inr (mem_slotStates.mpr ⟨hs, hnext, hx⟩)
    · simp only [haloMax] at hnext
      exact Or.inl ⟨hs, by omega, hx⟩

/-- A strip begins with all it looks at. -/
theorem sighted_strip (hc : sc.Contract) {cuId stripW : Nat} {stripX0 : Int}
    (hstrip : StripOnMap sc stripX0 stripW) (L : Pos → Prop) :
    Sighted sc.update L (sc.stripRounds cuId stripX0 stripW) := by
  refine ⟨InWindow sc cuId ((0 : Nat) : Int) stripX0 stripW, ?_, by simp [fetchRound], ?_⟩
  · rintro s ⟨hs, hrow, hx⟩
    right
    refine List.mem_flatMap.mpr ⟨(sc.rawRow cuId s.iy + 6).toNat, ?_, ?_⟩
    · rw [List.mem_range, windowRows]
      omega
    · refine mem_slotStates.mpr ⟨hs, ?_, hx⟩
      simp only [haloMax]
      omega
  · rw [List.range_eq_range']
    exact sighted_rows hc hstrip sc.mapY 0 (by omega)

theorem sighted_cu (hc : sc.Contract) (cuId : Nat) (L : Pos → Prop) :
    Sighted sc.update L (sc.cuRounds cuId) := by
  have hall : ∀ l : List Int, (∀ sx ∈ l, 0 ≤ sx ∧ sx < sc.numStrips) → ∀ L : Pos → Prop,
      Sighted sc.update L
        (l.flatMap fun sx => sc.stripRounds cuId (stripX0 sx) (sc.stripW sx)) := by
    intro l
    induction l with
    | nil => intro _ L; trivial
    | cons sx l ih =>
      intro hl L
      obtain ⟨h0, h1⟩ := hl sx (by simp)
      rw [List.flatMap_cons]
      exact Sighted.append (ih fun sx' h => hl sx' (by simp [h]))
        (sighted_strip hc (stripOnMap h0 h1) L)
  exact hall _ (fun sx h => mem_cuStrips h) L

theorem cuRounds_relaxed (cuId : Nat) : (sc.cuRounds cuId).flatMap Round.relaxed =
    (sc.cuStripCells cuId).flatMap fun c => column c.1 c.2 := by
  rw [cuRounds, cuStripCells, List.flatMap_assoc, List.flatMap_assoc]
  congr 1
  funext sx
  rw [stripRounds, List.flatMap_cons, List.flatMap_assoc, List.flatMap_assoc]
  simp only [fetchRound, List.nil_append, List.flatMap_cons, List.flatMap_nil, List.append_nil]
  rfl

/-- The states a unit relaxes are those of its strips. -/
theorem mem_cuRounds_relaxed {cuId : Nat} {s : Pos} :
    s ∈ (sc.cuRounds cuId).flatMap Round.relaxed ↔
      sc.dims.Contains s ∧ s.ix / 145 ∈ sc.cuStrips cuId := by
  simp only [cuRounds, List.mem_flatMap, stripRounds]
  constructor
  · rintro ⟨b, ⟨sx, hsx, hb⟩, hs⟩
    obtain ⟨h0, h1⟩ := mem_cuStrips hsx
    rw [List.mem_cons] at hb
    rcases hb with rfl | hb
    · cases hs
    · obtain ⟨raw, hraw, hb⟩ := List.mem_flatMap.mp hb
      rw [List.mem_range] at hraw
      simp only [List.mem_cons, List.not_mem_nil, or_false] at hb
      rcases hb with rfl | rfl
      · obtain ⟨hx, hr, ht⟩ := mem_rowRound.mp hs
        have hon := stripOnMap h0 h1
        have hon0 := hon.nonneg
        have hon1 := hon.le_mapX
        have hy : 0 ≤ s.iy ∧ s.iy < sc.mapY := by
          rw [← (rawRow_mem : _ ↔ 0 ≤ s.iy ∧ s.iy < sc.mapY), hr]
          omega
        refine ⟨contains_iff.mpr ⟨⟨by omega, hy⟩, ht⟩, ?_⟩
        rw [stripX0_eq, stripW_eq] at hx
        rw [show s.ix / 145 = sx by omega]
        exact hsx
      · cases hs
  · rintro ⟨hs, hsx⟩
    obtain ⟨⟨hx, hy⟩, ht⟩ := contains_iff.mp hs
    have hraw : 0 ≤ sc.rawRow cuId s.iy ∧ sc.rawRow cuId s.iy < sc.mapY := rawRow_mem.mpr hy
    refine ⟨sc.rowRound cuId (sc.rawRow cuId s.iy).toNat (stripX0 (s.ix / 145))
      (sc.stripW (s.ix / 145)), ⟨s.ix / 145, hsx, ?_⟩, ?_⟩
    · apply List.mem_cons_of_mem
      exact List.mem_flatMap.mpr ⟨(sc.rawRow cuId s.iy).toNat, List.mem_range.mpr (by omega),
        by simp⟩
    · rw [mem_rowRound, stripX0_eq, stripW_eq]
      exact ⟨by omega, by omega, ht⟩

theorem inMap_of_mem_cuStripCells {cuId : Nat} {c : Int × Int} (h : c ∈ sc.cuStripCells cuId) :
    sc.InMap c.1 c.2 := by
  obtain ⟨sx, hsx, h⟩ := List.mem_flatMap.mp h
  obtain ⟨raw, hraw, h⟩ := List.mem_flatMap.mp h
  obtain ⟨ix, hix, rfl⟩ := List.mem_map.mp h
  obtain ⟨h0, h1⟩ := mem_cuStrips hsx
  have hx := (stripColumns_perm cuId (sc.stripW sx)).mem_iff.mpr hix
  exact (stripOnMap h0 h1).inMap (List.mem_range.mp hraw) (List.mem_range.mp hx)

/-- `vi_sweep_stream` run alone on one table is `vi_bellman_cell` in place over the cells of
the unit's strips, top-down from the left or bottom-up from the right: same table, same
`max_delta`. -/
theorem viSweepStream_eq_viBellmanCells (hc : sc.Contract) (ht : sc.Translates) (cuId : Nat)
    (bram : StreamChip) {valueTable : Grid U16} (hdims : valueTable.dims = sc.dims) :
    sc.viSweepStream cuId bram valueTable =
      sc.viBellmanCells (sc.cuStripCells cuId) valueTable :=
  alone_eq_viBellmanCells hc hdims (follows_viSweepStream hc ht cuId bram valueTable.get)
    (sighted_cu hc cuId _) (cuRounds_relaxed cuId) fun _ h => inMap_of_mem_cuStripCells h

theorem viSweepStream_eq_viBellmanCells_lane :
    (lane [7, penaltyGoal]).viSweepStream 1 (.clear _ _) (Grid.ofFn ⟨2, 1, 60⟩ fun _ => 0) =
      (lane [7, penaltyGoal]).viBellmanCells ((lane [7, penaltyGoal]).cuStripCells 1)
        (Grid.ofFn ⟨2, 1, 60⟩ fun _ => 0) :=
  viSweepStream_eq_viBellmanCells (lane_contract _) (lane_translates _) 1 _ rfl

end Scene

end ValueIteration.Fpga
