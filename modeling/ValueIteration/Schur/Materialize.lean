import ValueIteration.Schur.Portals

/-!
# Materialising tiles

A tile's window is pinned with the portal costs, solved and polished, and what it found is
merged into the field wherever it is smaller. The window is laid over the map afresh and
sees only free flags and penalties, which a merge leaves alone, so a tile contributes the
same values whenever it is solved.
-/

set_option autoImplicit false

namespace ValueIteration

/-- An artifact with the costs of its portals. -/
abbrev CostedArtifact := SchurArtifact × (Nat → Nat)

/-- One entry of `tile_diffs`: index in the field, value and action. -/
structure TileDiff where
  index : Nat
  value : Nat
  action : Int
  deriving DecidableEq, Repr

section Solve

variable (src : ValueIterator) (art : SchurArtifact) (finals : List Pos)

/-- Pin the patches of one artifact's portals on tile `t`; true if any is reached. -/
def pinPortals (t : Nat) (acc : TileVi × Bool) (a : CostedArtifact) : TileVi × Bool :=
  (a.1.portalsOf t).foldl (fun acc pid =>
    if a.2 pid ≥ maxCost then acc
    else
      let p := a.1.localPortal (art.tileOrigin t) pid
      (acc.1.pinPatch p.ix p.iy p.it (a.2 pid), true)) acc

def countFinals (tv : TileVi) : Nat := (tv.vi.states.cells.filter (·.finalState)).length

/-- The indices of the real finals in the window. -/
def realFinals (o : Int × Int) (tv : TileVi) : List Nat :=
  (finals.filter fun g => decide (0 ≤ g.ix - o.1 ∧ g.ix - o.1 < tv.side ∧ 0 ≤ g.iy - o.2 ∧
    g.iy - o.2 < tv.side)).map fun g =>
      (tv.vi.dims.flat ⟨g.ix - o.1, g.iy - o.2, g.it⟩).toNat

/-- Take the portal pins out, keeping their values. -/
def unpin (o : Int × Int) (tv : TileVi) : TileVi :=
  let real := realFinals finals o tv
  { tv with vi := tv.vi.withStates fun p =>
      let s := tv.vi.stateAt p
      if s.finalState && !decide ((tv.vi.dims.flat p).toNat ∈ real) then
        { s with finalState := false }
      else s }

/-- `solve_tile`: the window, whether anything was pinned, and the number of updates.
`art` is the first artifact, which gives the geometry. -/
def solveTile (others : List CostedArtifact) (d : Nat → Nat) (tv : TileVi) (t : Nat) :
    TileVi × Bool × Nat :=
  let o := art.tileOrigin t
  let real := pinFinals finals art.side o (tv.hydrate src o.1 o.2)
  let nRealFinal := countFinals real.1
  let pins := ((art, d) :: others).foldl (pinPortals art t) real
  if !pins.2 then (pins.1, false, 0)
  else
    let r := pins.1.solveGs none
    if nRealFinal < countFinals r.1 then
      let polished := (unpin finals o r.1).polishDecreaseOnly
      (polished.1, true, r.2 + polished.2)
    else (r.1, true, r.2)

/-- `tile_diffs`: the solved states of a window, neither pinned nor unreached. -/
def tileDiffs (tv : TileVi) (t : Nat) : List TileDiff :=
  let o := art.tileOrigin t
  let side := art.side
  let nt := tv.vi.dims.nt
  (span (max o.2 0) (min (o.2 + side) art.ny.toInt - 1)).flatMap fun gy =>
    (span (max o.1 0) (min (o.1 + side) art.nx.toInt - 1)).flatMap fun gx =>
      (List.range nt).filterMap fun (it : Nat) =>
        let ts := tv.vi.stateAt ⟨gx - o.1, gy - o.2, it⟩
        if ts.finalState || decide (ts.totalCost ≥ reachThresh) then none
        else some ⟨(((it : Int) + gx * nt + gy * (nt * art.nx.toInt)) % 4294967296).toNat,
          ts.totalCost, ts.optimalAction.elim (-1) fun a => (a : Int).bmod 256⟩

end Solve

/-- One step of `merge_diffs`; finals keep their value and so does a state that is not
improved. -/
def mergeDiff (vi : ValueIterator) (e : TileDiff) : ValueIterator :=
  let g := vi.states.getFlat e.index
  if g.finalState || decide (e.value ≥ g.totalCost) then vi
  else ⟨vi.states.setFlat e.index
    (g.withUpdate (e.value, if 0 ≤ e.action then some e.action.toNat else none)), vi.actions,
    vi.wellFormed⟩

def mergeDiffs (vi : ValueIterator) (diffs : List TileDiff) : ValueIterator :=
  diffs.foldl mergeDiff vi

/-- `materialize_one_multi` on the field and the scratch window, with the updates. -/
def materializeOneMulti (art : SchurArtifact) (others : List CostedArtifact) (d : Nat → Nat)
    (finals : List Pos) (st : ValueIterator × TileVi) (t : Nat) : (ValueIterator × TileVi) × Nat :=
  let r := solveTile st.1 art finals others d st.2 t
  if !r.2.1 then ((st.1, r.1), 0)
  else ((mergeDiffs st.1 (tileDiffs art r.1 t), r.1), r.2.2)

def materializeOne (art : SchurArtifact) (d : Nat → Nat) (finals : List Pos)
    (st : ValueIterator × TileVi) (t : Nat) : (ValueIterator × TileVi) × Nat :=
  materializeOneMulti art [] d finals st t

/-- One thread of `materialize_many`: its updates and differences, on one window. -/
def bandDiffs (src : ValueIterator) (art : SchurArtifact) (d : Nat → Nat) (finals : List Pos)
    (band : List Nat) : Nat × List TileDiff :=
  let r := band.foldl (fun (acc : TileVi × Nat × List TileDiff) t =>
    let r := solveTile src art finals [] d acc.1 t
    if r.2.1 then (r.1, acc.2.1 + r.2.2, acc.2.2 ++ tileDiffs art r.1 t)
    else (r.1, acc.2)) (TileVi.new src art.side, 0, [])
  r.2

/-- `materialize_many` on `nthr` threads; the bands are merged in order. -/
def materializeMany (art : SchurArtifact) (d : Nat → Nat) (finals : List Pos) (nthr : Nat)
    (vi : ValueIterator) (tiles : List Nat) : ValueIterator × Nat :=
  if tiles.isEmpty then (vi, 0)
  else
    let parts := (chunks (max ((tiles.length + nthr - 1) / nthr) 1) tiles).map
      (bandDiffs vi art d finals)
    (parts.foldl (fun vi part => mergeDiffs vi part.2) vi, (parts.map (·.1)).sum)

/-- A call that materialises tiles of a goal. -/
inductive MaterializeCall
  | one (t : Nat)
  | many (tiles : List Nat) (nthr : Nat)
  deriving DecidableEq, Repr

namespace MaterializeCall

def tiles : MaterializeCall → List Nat
  | one t => [t]
  | many ts _ => ts

/-- A call on the field and the scratch window. -/
def apply (art : SchurArtifact) (d : Nat → Nat) (finals : List Pos) (st : ValueIterator × TileVi) :
    MaterializeCall → ValueIterator × TileVi
  | one t => (materializeOne art d finals st t).1
  | many ts nthr => ((materializeMany art d finals nthr st.1 ts).1, st.2)

end MaterializeCall

/-- Calls one after the other. -/
def materializeRun (art : SchurArtifact) (d : Nat → Nat) (finals : List Pos)
    (st : ValueIterator × TileVi) (calls : List MaterializeCall) : ValueIterator × TileVi :=
  calls.foldl (MaterializeCall.apply art d finals) st

/-- What a merge leaves alone: all but values and actions. -/
structure SameMap (vi vi' : ValueIterator) : Prop where
  dims : vi'.dims = vi.dims
  actions : vi'.actions = vi.actions
  free : ∀ i, (vi'.states.getFlat i).free = (vi.states.getFlat i).free
  penalty : ∀ i, (vi'.states.getFlat i).penalty = (vi.states.getFlat i).penalty
  finalState : ∀ i, (vi'.states.getFlat i).finalState = (vi.states.getFlat i).finalState

namespace SameMap

variable {vi vi' vi'' : ValueIterator}

theorem refl (vi : ValueIterator) : SameMap vi vi :=
  ⟨rfl, rfl, fun _ => rfl, fun _ => rfl, fun _ => rfl⟩

theorem trans (h : SameMap vi vi') (h' : SameMap vi' vi'') : SameMap vi vi'' :=
  ⟨h'.dims.trans h.dims, h'.actions.trans h.actions, fun i => (h'.free i).trans (h.free i),
    fun i => (h'.penalty i).trans (h.penalty i), fun i => (h'.finalState i).trans (h.finalState i)⟩

theorem length (h : SameMap vi vi') : vi'.states.cells.length = vi.states.cells.length := by
  have hdims : vi'.states.dims = vi.states.dims := h.dims
  rw [vi'.states.size, vi.states.size, hdims]

theorem stateAt_eq (h : SameMap vi vi') (p : Pos) :
    vi'.stateAt p = vi'.states.getFlat (vi.dims.flat p) := by
  have hdims : vi'.states.dims = vi.dims := h.dims
  rw [ValueIterator.stateAt, Grid.get, hdims]

/-- A window laid over either field shows the same. -/
theorem hydrate_eq (h : SameMap vi vi') (tv : TileVi) (x0 y0 : Int) :
    tv.hydrate vi' x0 y0 = tv.hydrate vi x0 y0 := by
  have harea : ∀ gx gy, vi'.inMapArea gx gy = vi.inMapArea gx gy := by
    intro gx gy
    simp only [ValueIterator.inMapArea, h.dims]
  have hstate : ∀ gx gy it s, hydrateTileState vi' gx gy it s = hydrateTileState vi gx gy it s := by
    intro gx gy it s
    unfold hydrateTileState
    have hfree : (vi'.stateAt ⟨gx, gy, it⟩).free = (vi.stateAt ⟨gx, gy, it⟩).free := by
      rw [h.stateAt_eq]
      exact h.free _
    have hpenalty : (vi'.stateAt ⟨gx, gy, it⟩).penalty = (vi.stateAt ⟨gx, gy, it⟩).penalty := by
      rw [h.stateAt_eq]
      exact h.penalty _
    simp only [harea, hfree, hpenalty]
  unfold TileVi.hydrate
  simp only [hstate]

end SameMap

section Frames

variable {src : ValueIterator} {art : SchurArtifact} {finals : List Pos}

theorem frame_pinPortals (t : Nat) (acc : TileVi × Bool) (a : CostedArtifact) :
    (pinPortals art t acc a).1.frame = acc.1.frame := by
  apply foldl_keeps fun acc : TileVi × Bool => acc.1.frame
  intro acc pid
  split
  · rfl
  · exact TileVi.frame_pinPatch _ _ _ _ _

theorem frame_unpin (o : Int × Int) (tv : TileVi) : (unpin finals o tv).frame = tv.frame := rfl

theorem frame_solveTile (others : List CostedArtifact) (d : Nat → Nat) (tv : TileVi) (t : Nat) :
    (solveTile src art finals others d tv t).1.frame = tv.frame := by
  have hpins : (((art, d) :: others).foldl (pinPortals art t) (pinFinals finals art.side
      (art.tileOrigin t) (tv.hydrate src (art.tileOrigin t).1 (art.tileOrigin t).2))).1.frame =
      tv.frame := by
    rw [foldl_keeps (fun acc : TileVi × Bool => acc.1.frame) (frame_pinPortals t),
      frame_pinFinals, TileVi.frame_hydrate]
  unfold solveTile
  simp only
  split
  · exact hpins
  · split
    · rw [TileVi.frame_polishDecreaseOnly, frame_unpin, TileVi.frame_solveGs]
      exact hpins
    · rw [TileVi.frame_solveGs]
      exact hpins

/-- A tile is solved alike on every used window and over every merged field. -/
theorem solveTile_congr {src' : ValueIterator} (hsrc : SameMap src src') {tv tv' : TileVi}
    (htv : tv'.frame = tv.frame) (others : List CostedArtifact) (d : Nat → Nat) (t : Nat) :
    solveTile src' art finals others d tv' t = solveTile src art finals others d tv t := by
  unfold solveTile
  simp only [hsrc.hydrate_eq, TileVi.hydrate_congr htv]

theorem SameMap.frame_new {vi vi' : ValueIterator} (h : SameMap vi vi') (side : Int) :
    (TileVi.new vi' side).frame = (TileVi.new vi side).frame := by
  have hdims : vi'.dims = vi.dims := h.dims
  show (side, (⟨side.toNat, side.toNat, vi'.dims.nt⟩ : Dims), vi'.actions) =
    (side, ⟨side.toNat, side.toNat, vi.dims.nt⟩, vi.actions)
  rw [hdims, h.actions]

end Frames

section Merge

variable {vi : ValueIterator}

/-- The value stored at an index. -/
def costFlat (vi : ValueIterator) (i : Int) : Nat := (vi.states.getFlat i).totalCost

theorem mergeDiff_of_skip {e : TileDiff} (h : (vi.states.getFlat e.index).finalState = true ∨
    costFlat vi e.index ≤ e.value) : mergeDiff vi e = vi := by
  unfold mergeDiff
  apply if_pos
  rw [Bool.or_eq_true, decide_eq_true_eq]
  exact h

theorem mergeDiff_of_outside {e : TileDiff} (h : vi.states.cells.length ≤ e.index) :
    mergeDiff vi e = vi := by
  unfold mergeDiff
  simp only
  split
  · rfl
  · simp only [Grid.setFlat, Int.toNat_natCast, List.set_eq_of_length_le h]

theorem getFlat_mergeDiff {e : TileDiff} (hfinal : (vi.states.getFlat e.index).finalState = false)
    (hlt : e.value < costFlat vi e.index) (i : Int) : (mergeDiff vi e).states.getFlat i =
      if (e.index : Int).toNat = i.toNat ∧ i.toNat < vi.states.cells.length then
        (vi.states.getFlat e.index).withUpdate
          (e.value, if 0 ≤ e.action then some e.action.toNat else none)
      else vi.states.getFlat i := by
  have hnot : ¬ ((vi.states.getFlat e.index).finalState ||
      decide (e.value ≥ (vi.states.getFlat e.index).totalCost)) = true := by
    rw [hfinal, Bool.false_or, decide_eq_true_eq]
    exact Nat.not_le_of_lt hlt
  unfold mergeDiff
  simp only
  rw [if_neg hnot]
  exact Grid.getFlat_setFlat _ _ _ _

theorem getFlat_congr {i j : Int} (h : i.toNat = j.toNat) :
    vi.states.getFlat i = vi.states.getFlat j := by
  rw [Grid.getFlat, h, Grid.getFlat]

theorem sameMap_mergeDiff (e : TileDiff) : SameMap vi (mergeDiff vi e) := by
  by_cases hfinal : (vi.states.getFlat e.index).finalState = true
  · rw [mergeDiff_of_skip (.inl hfinal)]
    exact SameMap.refl vi
  · rw [Bool.not_eq_true] at hfinal
    by_cases hle : costFlat vi e.index ≤ e.value
    · rw [mergeDiff_of_skip (.inr hle)]
      exact SameMap.refl vi
    · have hget := getFlat_mergeDiff hfinal (Nat.lt_of_not_le hle)
      refine ⟨?_, ?_, fun i => ?_, fun i => ?_, fun i => ?_⟩
      · unfold mergeDiff
        simp only
        split <;> rfl
      · unfold mergeDiff
        simp only
        split <;> rfl
      all_goals
        rw [hget i]
        split
        · next hi => rw [getFlat_congr hi.1]; rfl
        · rfl

theorem sameMap_mergeDiffs (diffs : List TileDiff) : ∀ vi : ValueIterator,
    SameMap vi (mergeDiffs vi diffs) := by
  induction diffs with
  | nil => exact SameMap.refl
  | cons e diffs ih => exact fun vi => (sameMap_mergeDiff e).trans (ih (mergeDiff vi e))

/-- A merge takes the least value offered at each index that is not final. -/
theorem le_costFlat_mergeDiff {e : TileDiff} {i : Nat} (hi : i < vi.states.cells.length) (c : Nat) :
    c ≤ costFlat (mergeDiff vi e) i ↔ c ≤ costFlat vi i ∧
      ((vi.states.getFlat i).finalState = false → e.index = i → c ≤ e.value) := by
  by_cases hskip : (vi.states.getFlat e.index).finalState = true ∨ costFlat vi e.index ≤ e.value
  · rw [mergeDiff_of_skip hskip]
    refine ⟨fun hc => ⟨hc, fun hfinal heq => ?_⟩, fun hc => hc.1⟩
    rw [heq] at hskip
    rcases hskip with hf | hle
    · rw [hfinal] at hf
      cases hf
    · exact hc.trans hle
  · rw [not_or, Bool.not_eq_true] at hskip
    have hget := getFlat_mergeDiff hskip.1 (Nat.lt_of_not_le hskip.2) (i : Int)
    by_cases heq : e.index = i
    · rw [if_pos ⟨by rw [heq], by rwa [Int.toNat_natCast]⟩] at hget
      have hcost : costFlat (mergeDiff vi e) i = e.value := congrArg State.totalCost hget
      rw [hcost]
      rw [heq] at hskip
      refine ⟨fun hc => ⟨by omega, fun _ _ => hc⟩, fun hc => hc.2 hskip.1 heq⟩
    · rw [if_neg fun h => heq (by simpa using h.1)] at hget
      have hcost : costFlat (mergeDiff vi e) i = costFlat vi i := congrArg State.totalCost hget
      rw [hcost]
      exact ⟨fun hc => ⟨hc, fun _ h => absurd h heq⟩, fun hc => hc.1⟩

theorem le_costFlat_mergeDiffs {i : Nat} (c : Nat) (diffs : List TileDiff) :
    ∀ {vi : ValueIterator}, i < vi.states.cells.length →
    (c ≤ costFlat (mergeDiffs vi diffs) i ↔ c ≤ costFlat vi i ∧
      ((vi.states.getFlat i).finalState = false → ∀ e ∈ diffs, e.index = i → c ≤ e.value)) := by
  induction diffs with
  | nil => exact fun _ => ⟨fun hc => ⟨hc, fun _ e he => absurd he List.not_mem_nil⟩, fun hc => hc.1⟩
  | cons e diffs ih =>
    intro vi hi
    have hmap : SameMap vi (mergeDiff vi e) := sameMap_mergeDiff e
    have hi' : i < (mergeDiff vi e).states.cells.length := by rwa [hmap.length]
    show c ≤ costFlat (mergeDiffs (mergeDiff vi e) diffs) i ↔ _
    rw [ih hi', le_costFlat_mergeDiff hi, hmap.finalState]
    constructor
    · intro ⟨⟨hc, hfirst⟩, hrest⟩
      refine ⟨hc, fun hfinal e' he' => ?_⟩
      rcases List.mem_cons.mp he' with rfl | he'
      · exact hfirst hfinal
      · exact hrest hfinal e' he'
    · intro ⟨hc, hall⟩
      exact ⟨⟨hc, fun hfinal => hall hfinal e List.mem_cons_self⟩,
        fun hfinal e' he' => hall hfinal e' (List.mem_cons_of_mem e he')⟩

/-- A final state is left as it is. -/
theorem getFlat_mergeDiffs_of_final {i : Int} (diffs : List TileDiff) : ∀ {vi : ValueIterator},
    (vi.states.getFlat i).finalState = true →
    (mergeDiffs vi diffs).states.getFlat i = vi.states.getFlat i := by
  induction diffs with
  | nil => exact fun _ => rfl
  | cons e diffs ih =>
    intro vi hfinal
    have hstep : (mergeDiff vi e).states.getFlat i = vi.states.getFlat i := by
      by_cases hskip : (vi.states.getFlat e.index).finalState = true ∨
          costFlat vi e.index ≤ e.value
      · rw [mergeDiff_of_skip hskip]
      · rw [not_or, Bool.not_eq_true] at hskip
        rw [getFlat_mergeDiff hskip.1 (Nat.lt_of_not_le hskip.2)]
        apply if_neg
        intro h
        rw [getFlat_congr h.1, hfinal] at hskip
        cases hskip.1
    rw [← hstep] at hfinal ⊢
    exact ih hfinal

/-- Differences that improve nothing change nothing. -/
theorem mergeDiffs_of_skip {diffs : List TileDiff} (h : ∀ e ∈ diffs,
    e.index < vi.states.cells.length → (vi.states.getFlat e.index).finalState = true ∨
      costFlat vi e.index ≤ e.value) :
    mergeDiffs vi diffs = vi := by
  induction diffs with
  | nil => rfl
  | cons e diffs ih =>
    have hstep : mergeDiff vi e = vi := by
      by_cases hi : e.index < vi.states.cells.length
      · exact mergeDiff_of_skip (h e List.mem_cons_self hi)
      · exact mergeDiff_of_outside (Nat.le_of_not_lt hi)
    show mergeDiffs (mergeDiff vi e) diffs = vi
    rw [hstep]
    exact ih fun e' he' => h e' (List.mem_cons_of_mem e he')

/-- Merging the same differences again changes nothing. -/
theorem mergeDiffs_again {diffs again : List TileDiff} (h : ∀ e ∈ again, e ∈ diffs) :
    mergeDiffs (mergeDiffs vi diffs) again = mergeDiffs vi diffs := by
  apply mergeDiffs_of_skip
  intro e he hi
  have hmap := sameMap_mergeDiffs diffs vi
  rw [hmap.length] at hi
  by_cases hfinal : ((mergeDiffs vi diffs).states.getFlat e.index).finalState = true
  · exact .inl hfinal
  · rw [Bool.not_eq_true, hmap.finalState] at hfinal
    have hle := (le_costFlat_mergeDiffs _ diffs hi).mp (le_refl _)
    exact .inr (hle.2 hfinal e (h e he) rfl)

end Merge

section Run

variable (art : SchurArtifact) (d : Nat → Nat) (finals : List Pos)

/-- What a tile contributes: its differences on a window of its own. -/
def tileValues (src : ValueIterator) (t : Nat) : List TileDiff :=
  let r := solveTile src art finals [] d (TileVi.new src art.side) t
  if r.2.1 then tileDiffs art r.1 t else []

variable {art d finals} {src : ValueIterator} {st : ValueIterator × TileVi}

/-- The field is the one at the start but for values, and the window is one of its own. -/
structure Underway (src : ValueIterator) (art : SchurArtifact) (st : ValueIterator × TileVi) :
    Prop where
  map : SameMap src st.1
  window : st.2.frame = (TileVi.new src art.side).frame

theorem solveTile_own {src' : ValueIterator} (hmap : SameMap src src') {tv : TileVi}
    (htv : tv.frame = (TileVi.new src art.side).frame) (t : Nat) :
    solveTile src' art finals [] d tv t =
      solveTile src art finals [] d (TileVi.new src art.side) t := solveTile_congr hmap htv [] d t

theorem Underway.one (h : Underway src art st) (t : Nat) :
    (materializeOne art d finals st t).1.1 = mergeDiffs st.1 (tileValues art d finals src t) ∧
      Underway src art (materializeOne art d finals st t).1 := by
  have hframe : (solveTile st.1 art finals [] d st.2 t).1.frame = st.2.frame :=
    frame_solveTile [] d st.2 t
  have hwindow := hframe.trans h.window
  unfold materializeOne materializeOneMulti tileValues
  simp only
  rw [solveTile_own h.map h.window] at hwindow ⊢
  by_cases hpinned : (solveTile src art finals [] d (TileVi.new src art.side) t).2.1 = true
  · rw [hpinned, Bool.not_true, if_neg Bool.false_ne_true, if_pos rfl]
    exact ⟨rfl, h.map.trans (sameMap_mergeDiffs _ _), hwindow⟩
  · rw [Bool.not_eq_true] at hpinned
    rw [hpinned, Bool.not_false, if_pos rfl, if_neg Bool.false_ne_true]
    exact ⟨rfl, h.map, hwindow⟩

/-- A band finds on its one window what each tile finds on a window of its own. -/
theorem bandDiffs_eq {src' : ValueIterator} (hmap : SameMap src src') (band : List Nat) :
    (bandDiffs src' art d finals band).2 = band.flatMap (tileValues art d finals src) := by
  have hrun : ∀ (band : List Nat) (acc : TileVi × Nat × List TileDiff),
      acc.1.frame = (TileVi.new src art.side).frame →
      (band.foldl (fun (acc : TileVi × Nat × List TileDiff) t =>
        let r := solveTile src' art finals [] d acc.1 t
        if r.2.1 then (r.1, acc.2.1 + r.2.2, acc.2.2 ++ tileDiffs art r.1 t)
        else (r.1, acc.2)) acc).2.2 = acc.2.2 ++ band.flatMap (tileValues art d finals src) := by
    intro band
    induction band with
    | nil =>
      intro acc _
      exact (List.append_nil _).symm
    | cons t band ih =>
      intro acc hacc
      have hframe : (solveTile src' art finals [] d acc.1 t).1.frame = acc.1.frame :=
        frame_solveTile [] d acc.1 t
      have hwindow := hframe.trans hacc
      rw [solveTile_own hmap hacc] at hwindow
      rw [List.foldl_cons, List.flatMap_cons]
      simp only
      rw [solveTile_own hmap hacc]
      by_cases hpinned : (solveTile src art finals [] d (TileVi.new src art.side) t).2.1 = true
      · have hvalues : tileValues art d finals src t =
            tileDiffs art (solveTile src art finals [] d (TileVi.new src art.side) t).1 t :=
          if_pos hpinned
        rw [hpinned, if_pos rfl, ih _ hwindow, hvalues, List.append_assoc]
      · have hvalues : tileValues art d finals src t = [] := if_neg hpinned
        rw [if_neg hpinned, ih _ hwindow, hvalues, List.nil_append]
  exact hrun band _ (hmap.frame_new art.side)

theorem mergeDiffs_append (vi : ValueIterator) (xs ys : List TileDiff) :
    mergeDiffs vi (xs ++ ys) = mergeDiffs (mergeDiffs vi xs) ys := List.foldl_append

/-- However the tiles are cut into bands, their differences are merged in order. -/
theorem materializeMany_eq {vi : ValueIterator} (hmap : SameMap src vi) (nthr : Nat)
    (tiles : List Nat) : (materializeMany art d finals nthr vi tiles).1 =
      mergeDiffs vi (tiles.flatMap (tileValues art d finals src)) := by
  unfold materializeMany
  by_cases hempty : tiles.isEmpty = true
  · rw [if_pos hempty, List.isEmpty_iff.mp hempty]
    rfl
  · rw [if_neg hempty]
    have hparts : ∀ (bands : List (List Nat)) (vi' : ValueIterator),
        (bands.map (bandDiffs vi art d finals)).foldl (fun vi part => mergeDiffs vi part.2) vi' =
          mergeDiffs vi' (bands.flatten.flatMap (tileValues art d finals src)) := by
      intro bands
      induction bands with
      | nil => exact fun _ => rfl
      | cons band bands ih =>
        intro vi'
        rw [List.map_cons, List.foldl_cons, ih, bandDiffs_eq hmap, List.flatten_cons,
          List.flatMap_append, mergeDiffs_append]
    simp only
    rw [hparts, flatten_chunks (Nat.lt_of_lt_of_le Nat.one_pos (Nat.le_max_right _ _))]

/-- One call merges what its tiles contribute. -/
theorem Underway.apply (h : Underway src art st) (d : Nat → Nat) (finals : List Pos)
    (call : MaterializeCall) :
    (call.apply art d finals st).1 =
        mergeDiffs st.1 (call.tiles.flatMap (tileValues art d finals src)) ∧
      Underway src art (call.apply art d finals st) := by
  cases call with
  | one t =>
    rw [MaterializeCall.tiles, List.flatMap_singleton]
    exact h.one t
  | many ts nthr =>
    have hmany : (materializeMany art d finals nthr st.1 ts).1 =
        mergeDiffs st.1 (ts.flatMap (tileValues art d finals src)) := materializeMany_eq h.map nthr ts
    refine ⟨hmany, ?_, h.window⟩
    show SameMap src (materializeMany art d finals nthr st.1 ts).1
    rw [hmany]
    exact h.map.trans (sameMap_mergeDiffs _ _)

theorem Underway.run (d : Nat → Nat) (finals : List Pos) (calls : List MaterializeCall) :
    ∀ {st : ValueIterator × TileVi}, Underway src art st →
    (materializeRun art d finals st calls).1 = mergeDiffs st.1
        ((calls.flatMap MaterializeCall.tiles).flatMap (tileValues art d finals src)) ∧
      Underway src art (materializeRun art d finals st calls) := by
  induction calls with
  | nil => exact fun h => ⟨rfl, h⟩
  | cons call calls ih =>
    intro st h
    obtain ⟨hfirst, hnext⟩ := h.apply d finals call
    obtain ⟨hrest, hend⟩ := ih hnext
    refine ⟨?_, hend⟩
    rw [List.flatMap_cons, List.flatMap_append, mergeDiffs_append, ← hfirst]
    exact hrest

end Run

/-- Calls on the same tiles leave the same values, whatever their order, their bands and the
windows they were made on; they raise no value, leave final states alone, and none of them
changes anything when it is made again. -/
theorem materialize_order_independent (vi : ValueIterator) (art : SchurArtifact) (d : Nat → Nat)
    (finals : List Pos) (tv tv' : TileVi) (htv : tv.frame = (TileVi.new vi art.side).frame)
    (htv' : tv'.frame = (TileVi.new vi art.side).frame) (calls calls' : List MaterializeCall)
    (hsame : ∀ t, t ∈ calls.flatMap MaterializeCall.tiles ↔
      t ∈ calls'.flatMap MaterializeCall.tiles) :
    (∀ p, vi.dims.Contains p →
      ((materializeRun art d finals (vi, tv) calls).1.stateAt p).totalCost =
        ((materializeRun art d finals (vi, tv') calls').1.stateAt p).totalCost ∧
      ((materializeRun art d finals (vi, tv) calls).1.stateAt p).totalCost ≤
        (vi.stateAt p).totalCost ∧
      ((vi.stateAt p).finalState = true →
        (materializeRun art d finals (vi, tv) calls).1.stateAt p = vi.stateAt p)) ∧
    ∀ call ∈ calls, (call.apply art d finals (materializeRun art d finals (vi, tv) calls)).1 =
      (materializeRun art d finals (vi, tv) calls).1 := by
  have hstart : Underway vi art (vi, tv) := ⟨SameMap.refl vi, htv⟩
  have hstart' : Underway vi art (vi, tv') := ⟨SameMap.refl vi, htv'⟩
  obtain ⟨hrun, hend⟩ := hstart.run d finals calls
  obtain ⟨hrun', hend'⟩ := hstart'.run d finals calls'
  refine ⟨fun p hp => ?_, fun call hcall => ?_⟩
  · have hlow := Dims.flat_nonneg hp
    have hhigh := Dims.flat_lt hp
    obtain ⟨i, hi⟩ := Int.eq_ofNat_of_zero_le hlow
    have hlt : i < vi.states.cells.length := by
      rw [vi.states.size]
      show i < vi.dims.count
      omega
    have hcost : ∀ {st : ValueIterator × TileVi}, Underway vi art st →
        (st.1.stateAt p).totalCost = costFlat st.1 i := by
      intro st h
      rw [h.map.stateAt_eq, hi]
      rfl
    rw [hcost hend, hcost hend', hrun, hrun']
    have hown : (vi.stateAt p).totalCost = costFlat vi i := hcost hstart
    refine ⟨?_, ?_, fun hfinal => ?_⟩
    · apply eq_of_forall_le_iff
      intro c
      rw [le_costFlat_mergeDiffs c _ hlt, le_costFlat_mergeDiffs c _ hlt]
      simp only [List.mem_flatMap (l := calls.flatMap MaterializeCall.tiles), hsame,
        List.mem_flatMap (l := calls'.flatMap MaterializeCall.tiles)]
    · rw [hown]
      exact ((le_costFlat_mergeDiffs _ _ hlt).mp (le_refl _)).1
    · rw [← hrun, hend.map.stateAt_eq, hrun]
      exact getFlat_mergeDiffs_of_final _ hfinal
  · rw [(hend.apply d finals call).1, hrun]
    apply mergeDiffs_again
    intro e he
    obtain ⟨t, ht, hmem⟩ := List.mem_flatMap.mp he
    exact List.mem_flatMap.mpr ⟨t, List.mem_flatMap.mpr ⟨call, hcall, ht⟩, hmem⟩

/-- A map of two cells in two tiles that share a portal. -/
def splitArt : SchurArtifact where
  tile := 1
  halo := 1
  nx := 2
  ny := 1
  nt := 1
  tnx := 2
  tny := 1
  portals := [⟨1, 0, 0⟩]
  tiles := [⟨[0], [0]⟩, ⟨[0], [0]⟩]

/-- Tile by tile from the left, and both at once on two threads. -/
theorem splitArt_materialize :
    (∀ p, besideGoal.dims.Contains p →
      ((materializeRun splitArt (fun _ => 262144) [⟨0, 0, 0⟩]
        (besideGoal, TileVi.new besideGoal splitArt.side) [.one 0, .one 1]).1.stateAt p).totalCost =
        ((materializeRun splitArt (fun _ => 262144) [⟨0, 0, 0⟩]
          (besideGoal, TileVi.new besideGoal splitArt.side) [.many [1, 0] 2]).1.stateAt p).totalCost ∧
      ((materializeRun splitArt (fun _ => 262144) [⟨0, 0, 0⟩]
        (besideGoal, TileVi.new besideGoal splitArt.side) [.one 0, .one 1]).1.stateAt p).totalCost ≤
        (besideGoal.stateAt p).totalCost ∧
      ((besideGoal.stateAt p).finalState = true →
        (materializeRun splitArt (fun _ => 262144) [⟨0, 0, 0⟩]
          (besideGoal, TileVi.new besideGoal splitArt.side) [.one 0, .one 1]).1.stateAt p =
            besideGoal.stateAt p)) ∧
    ∀ call ∈ [MaterializeCall.one 0, .one 1],
      (call.apply splitArt (fun _ => 262144) [⟨0, 0, 0⟩] (materializeRun splitArt (fun _ => 262144)
        [⟨0, 0, 0⟩] (besideGoal, TileVi.new besideGoal splitArt.side) [.one 0, .one 1])).1 =
      (materializeRun splitArt (fun _ => 262144) [⟨0, 0, 0⟩]
        (besideGoal, TileVi.new besideGoal splitArt.side) [.one 0, .one 1]).1 := by
  apply materialize_order_independent besideGoal splitArt (fun _ => 262144) [⟨0, 0, 0⟩] _ _ rfl rfl
  intro t
  simp only [List.flatMap_cons, List.flatMap_nil, MaterializeCall.tiles, List.append_nil,
    List.mem_append, List.mem_cons, List.not_mem_nil, or_false]
  exact or_comm

end ValueIteration
