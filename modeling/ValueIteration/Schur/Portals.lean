import ValueIteration.Lib.Dijkstra
import ValueIteration.Schur.TileVi

/-!
# Portal costs

The value of every portal for a goal. Tiles that show a final state are solved on a mini
value iterator and seed their portals; Dijkstra over the passage matrices does the rest.
Only tiles of the mask count; an index that is out of range ends the code with a panic,
here with `none`. A portal without a parent is a seed or not reached (`u32::MAX` in the
code), and `via_tile` is the tile of its seed or passage.
-/

set_option autoImplicit false

namespace ValueIteration

def collectFinals (vi : ValueIterator) : List Pos :=
  vi.dims.all.filter fun p => (vi.stateAt p).finalState

/-- `Option<&[bool]>`: the tiles that may be used, all of them without a mask. -/
abbrev TileMask := Option (List Bool)

/-- `!mask.map_or(false, |m| !m[t])`; `none` where the index is out of range. -/
def TileMask.allows (mask : TileMask) (t : Nat) : Option Bool :=
  match mask with
  | none => some true
  | some m => m[t]?

namespace SchurArtifact

variable (art : SchurArtifact)

def side : Int := art.tile.toInt + 2 * art.halo.toInt

/-- `domain_origin`: the lower left cell of a tile's window. -/
def domainOrigin (tx ty : Int) : Int × Int :=
  (tx * art.tile.toInt - art.halo.toInt, ty * art.tile.toInt - art.halo.toInt)

/-- The window of tile `t = ty * tnx + tx`. -/
def tileOrigin (t : Nat) : Int × Int :=
  art.domainOrigin ((t : Int).tmod art.tnx.toInt) ((t : Int).tdiv art.tnx.toInt)

def tileAt (t : Nat) : TileEdges := art.tiles.getD t ⟨[], []⟩

/-- The portals of a tile, by their indices. -/
def portalsOf (t : Nat) : List Nat := (art.tileAt t).portals.map (·.toNat)

/-- Portal `pid` in the window whose corner is `o`. -/
def localPortal (o : Int × Int) (pid : Nat) : Pos :=
  let p := art.portals.getD pid ⟨0, 0, 0⟩
  ⟨p.ix.toInt - o.1, p.iy.toInt - o.2, p.it.toInt⟩

/-- `tiles_covering`: the columns and rows of tiles whose window shows `(gx, gy)`. -/
def tilesCovering (gx gy : Int) : Int × Int × Int × Int :=
  let lo := fun g : Int => max ((g - art.tile.toInt + 1 - art.halo.toInt) / art.tile.toInt) 0
  let hi := fun g tn : Int => min ((g + art.halo.toInt) / art.tile.toInt) (tn - 1)
  (lo gx, hi gx art.tnx.toInt, lo gy, hi gy art.tny.toInt)

/-- `goal_tiles`: the tiles whose window shows a final state. -/
def goalTiles (finals : List Pos) : List Nat :=
  finals.flatMap fun g =>
    let c := art.tilesCovering g.ix g.iy
    (span c.2.2.1 c.2.2.2).flatMap fun ty =>
      (span c.1 c.2.1).map fun tx => (ty * art.tnx.toInt + tx).toNat

/-- `membership`: the tiles and slots of a portal. -/
def membership (p : Nat) : List (Nat × Nat) :=
  (List.range art.tiles.length).flatMap fun t =>
    ((List.range (art.portalsOf t).length).filter fun slot =>
      (art.portalsOf t).getD slot 0 == p).map fun slot => (t, slot)

/-- `w[sq * n + sp]`. -/
def passageCost (t sq sp : Nat) : Nat :=
  ((art.tileAt t).w.getD (sq * (art.portalsOf t).length + sp) 0).toNat

end SchurArtifact

/-- Pin the finals that the window shows; true if there are any. -/
def pinFinals (finals : List Pos) (side : Int) (o : Int × Int) (tv : TileVi) : TileVi × Bool :=
  finals.foldl (fun acc g =>
    let lx := g.ix - o.1
    let ly := g.iy - o.2
    if 0 ≤ lx ∧ lx < side ∧ 0 ≤ ly ∧ ly < side then (acc.1.pin ⟨lx, ly, g.it⟩ 0, true)
    else acc) (tv, false)

structure PortalDijkstra where
  d : Nat → Nat
  parent : Nat → Option Nat
  viaTile : Nat → Int

/-- The labels while the goal tiles are solved one after the other on one window. -/
structure PortalSeeds where
  tv : TileVi
  d : Nat → Nat
  viaTile : Nat → Int

section Seeds

variable (agg : PatchAgg) (vi : ValueIterator) (art : SchurArtifact)

/-- The window of a goal tile with its finals pinned, solved; false when it shows none. -/
def solveGoalTile (finals : List Pos) (tv : TileVi) (t : Nat) : TileVi × Bool :=
  let o := art.tileOrigin t
  let r := pinFinals finals art.side o (tv.hydrate vi o.1 o.2)
  if !r.2 then r
  else
    let watch := (art.portalsOf t).flatMap fun pid =>
      let p := art.localPortal o pid
      r.1.patchLocal p.ix p.iy p.it
    ((r.1.solveGs (some watch)).1, true)

/-- The value of a portal in the solved window. -/
def portalValue (tv : TileVi) (t pid : Nat) : Nat :=
  let p := art.localPortal (art.tileOrigin t) pid
  tv.patchMax agg p.ix p.iy p.it

def lowerSeed (t : Nat) (st : PortalSeeds) (pid : Nat) : PortalSeeds :=
  let v := portalValue agg art st.tv t pid
  if v < st.d pid then
    { st with d := Function.update st.d pid v, viaTile := Function.update st.viaTile pid t }
  else st

def seedTile (finals : List Pos) (mask : TileMask) (st : PortalSeeds) (t : Nat) :
    Option PortalSeeds :=
  if !decide (t ∈ art.goalTiles finals) || (art.portalsOf t).isEmpty then some st
  else (mask.allows t).map fun allowed =>
    if !allowed then st
    else
      let r := solveGoalTile vi art finals st.tv t
      if !r.2 then { st with tv := r.1 }
      else (art.portalsOf t).foldl (lowerSeed agg art t) { st with tv := r.1 }

/-- The seeds of all tiles; every goal tile indexes the array that marks them. -/
def seedPortals (mask : TileMask) : Option PortalSeeds :=
  let finals := collectFinals vi
  if (art.goalTiles finals).all fun t => decide (t < art.tiles.length) then
    (List.range art.tiles.length).foldlM (seedTile agg vi art finals mask)
      ⟨TileVi.new vi art.side, fun _ => maxCost, fun _ => -1⟩
  else none

end Seeds

/-- The labels and the heap of the graph search. -/
structure PortalSearch where
  d : Nat → Nat
  parent : Nat → Option Nat
  viaTile : Nat → Int
  heap : MinHeap (Nat ×ₗ Nat)

namespace PortalSearch

/-- One passage of tile `t`, from `q` to the popped portal `p`. -/
def relaxPassage (p dp t : Nat) (st : PortalSearch) (q wqp : Nat) : PortalSearch :=
  if wqp ≥ maxCost then st
  else
    let cand := saturatingAdd wqp dp
    if cand ≥ maxCost then st
    else if cand < st.d q then
      { d := Function.update st.d q cand
        parent := Function.update st.parent q (some p)
        viaTile := Function.update st.viaTile q t
        heap := st.heap.push (toLex (cand, q)) }
    else st

variable (art : SchurArtifact) (mask : TileMask)

/-- The passages into slot `sp` of tile `t`. -/
def relaxTile (p dp : Nat) (st : PortalSearch) (m : Nat × Nat) : Option PortalSearch :=
  (mask.allows m.1).map fun allowed =>
    if !allowed then st
    else
      (List.range (art.portalsOf m.1).length).foldl (fun st sq =>
        st.relaxPassage p dp m.1 ((art.portalsOf m.1).getD sq 0) (art.passageCost m.1 sq m.2)) st

/-- A popped entry. -/
def visit (dp p : Nat) (st : PortalSearch) : Option PortalSearch :=
  if dp > st.d p then some st else (art.membership p).foldlM (relaxTile art mask p dp) st

/-- The loop over the heap; `none` when the fuel runs out first, or on a panic. -/
def search : Nat → PortalSearch → Option PortalSearch
  | fuel, st =>
    match st.heap.pop with
    | none => some st
    | some (top, heap) =>
      match fuel with
      | 0 => none
      | fuel + 1 =>
        ({ st with heap := heap }.visit art mask (ofLex top).1 (ofLex top).2).bind (search fuel)

end PortalSearch

/-- The seeded labels, all of them on the heap. -/
def startSearch (art : SchurArtifact) (seeds : PortalSeeds) : PortalSearch where
  d := seeds.d
  parent := fun _ => none
  viaTile := seeds.viaTile
  heap := ((List.range art.portals.length).filter fun i => decide (seeds.d i < maxCost)).foldl
    (fun heap i => heap.push (toLex (seeds.d i, i))) MinHeap.empty

/-- More pops than the search can make: each costs an entry or lowers a label. -/
def searchFuel (art : SchurArtifact) (st : PortalSearch) : Nat :=
  ((List.range art.portals.length).map st.d).sum + st.heap.entries.length

def portalCostsMasked (agg : PatchAgg) (vi : ValueIterator) (art : SchurArtifact)
    (mask : TileMask) : Option PortalDijkstra :=
  if (collectFinals vi).isEmpty then some ⟨fun _ => maxCost, fun _ => none, fun _ => -1⟩
  else (seedPortals agg vi art mask).bind fun seeds =>
    let st := startSearch art seeds
    (st.search art mask (searchFuel art st)).map fun st => ⟨st.d, st.parent, st.viaTile⟩

/-- One tile for each position of the tile grid. -/
def nTiles (art : SchurArtifact) : Nat := (art.tnx.toInt * art.tny.toInt).toNat

/-- A mask with an entry for every tile. -/
def TileMask.Covers (mask : TileMask) (art : SchurArtifact) : Prop :=
  ∀ m, mask = some m → art.tiles.length ≤ m.length

/-- The passages into portal `p` through the tiles of the mask. -/
def SchurArtifact.passagesInto (art : SchurArtifact) (mask : TileMask) (p : Nat) :
    List (Dijkstra.Passage Nat Int) :=
  (art.membership p).flatMap fun m =>
    if mask.allows m.1 = some true then
      (List.range (art.portalsOf m.1).length).map fun sq =>
        ⟨(art.portalsOf m.1).getD sq 0, art.passageCost m.1 sq m.2, m.1⟩
    else []

/-- A covering mask allows or forbids every tile. -/
theorem allows_isSome {art : SchurArtifact} {mask : TileMask} (hmask : mask.Covers art) {t : Nat}
    (ht : t < art.tiles.length) : ∃ allowed, mask.allows t = some allowed := by
  cases mask with
  | none => exact ⟨true, rfl⟩
  | some m => exact ⟨m.get ⟨t, ht.trans_le (hmask m rfl)⟩, List.getElem?_eq_getElem _⟩

theorem mem_membership {art : SchurArtifact} {p t sp : Nat} : (t, sp) ∈ art.membership p ↔
    t < art.tiles.length ∧ (art.portalsOf t)[sp]? = some p := by
  simp only [SchurArtifact.membership, List.mem_flatMap, List.mem_range, List.mem_map,
    List.mem_filter, Prod.mk.injEq, beq_iff_eq, List.getD_eq_getElem?_getD]
  constructor
  · rintro ⟨t', ht', slot, ⟨hslot, hp⟩, rfl, rfl⟩
    rw [List.getElem?_eq_getElem hslot, Option.getD_some] at hp
    exact ⟨ht', by rw [List.getElem?_eq_getElem hslot, hp]⟩
  · intro ⟨ht, hp⟩
    obtain ⟨hslot, -⟩ := List.getElem?_eq_some_iff.mp hp
    exact ⟨t, ht, sp, ⟨hslot, by rw [hp, Option.getD_some]⟩, rfl, rfl⟩

namespace PortalSearch

def toLabels (st : PortalSearch) : Dijkstra.Labels Nat Int :=
  ⟨st.d, st.parent, st.viaTile, st.heap⟩

@[simp] theorem toLabels_heap (st : PortalSearch) : st.toLabels.heap = st.heap := rfl

variable {art : SchurArtifact} {mask : TileMask}

/-- A saturated sum is above the bound like the sum itself. -/
theorem toLabels_relaxPassage (p dp t : Nat) (st : PortalSearch) (q w : Nat) :
    (st.relaxPassage p dp t q w).toLabels = st.toLabels.relax maxCost p dp ⟨q, w, t⟩ := by
  have hword : maxCost < word - 1 := by decide
  have hsat : saturatingAdd w dp < maxCost ↔ w + dp < maxCost := by
    unfold saturatingAdd
    omega
  have heq : w + dp < maxCost → saturatingAdd w dp = w + dp := by
    intro h
    unfold saturatingAdd
    omega
  by_cases hlow : w + dp < maxCost ∧ w + dp < st.d q
  · have hw : ¬ w ≥ maxCost := by omega
    have hcand : ¬ w + dp ≥ maxCost := by omega
    rw [Dijkstra.relax_of_lt hlow, relaxPassage, if_neg hw]
    simp only [heq hlow.1]
    rw [if_neg hcand, if_pos hlow.2]
    rfl
  · rw [Dijkstra.relax_of_not hlow, relaxPassage]
    split
    · rfl
    · simp only
      split
      · rfl
      · next hcand =>
        have hlt : w + dp < maxCost := hsat.mp (by omega)
        rw [heq hlt, if_neg fun h => hlow ⟨hlt, h⟩]

theorem toLabels_relaxTile (hmask : mask.Covers art) (p dp : Nat) (st : PortalSearch)
    {m : Nat × Nat} (hm : m.1 < art.tiles.length) :
    (st.relaxTile art mask p dp m).map toLabels = some
      ((if mask.allows m.1 = some true then
          (List.range (art.portalsOf m.1).length).map fun sq =>
            (⟨(art.portalsOf m.1).getD sq 0, art.passageCost m.1 sq m.2, m.1⟩ :
              Dijkstra.Passage Nat Int)
        else []).foldl (Dijkstra.Labels.relax maxCost p dp) st.toLabels) := by
  obtain ⟨allowed, hallowed⟩ := allows_isSome hmask hm
  rw [relaxTile, hallowed, Option.map_some, Option.map_some, Option.some.injEq]
  cases allowed with
  | false => rfl
  | true =>
    rw [Bool.not_true, if_neg Bool.false_ne_true, if_pos rfl, List.foldl_map]
    symm
    apply List.foldl_hom toLabels
    intro st' sq
    exact (toLabels_relaxPassage p dp m.1 st' _ _).symm

theorem toLabels_visit (hmask : mask.Covers art) (dp p : Nat) (st : PortalSearch) :
    (st.visit art mask dp p).map toLabels =
      some (st.toLabels.visit (art.passagesInto mask) maxCost dp p) := by
  unfold visit Dijkstra.Labels.visit SchurArtifact.passagesInto
  by_cases hstale : st.d p < dp
  · rw [if_pos hstale, if_pos (show st.toLabels.dist p < dp from hstale), Option.map_some]
  · rw [if_neg hstale, if_neg (show ¬ st.toLabels.dist p < dp from hstale), List.foldl_flatMap]
    apply map_foldlM
    intro st' m hm
    exact toLabels_relaxTile hmask p dp st' (mem_membership.mp hm).1

/-- The loops of the code are the search over the passages. -/
theorem toLabels_search (hmask : mask.Covers art) (fuel : Nat) : ∀ st : PortalSearch,
    (st.search art mask fuel).map toLabels =
      st.toLabels.search (art.passagesInto mask) maxCost fuel := by
  induction fuel with
  | zero =>
    intro st
    unfold search Dijkstra.Labels.search
    rw [toLabels_heap]
    cases st.heap.pop <;> rfl
  | succ fuel ih =>
    intro st
    unfold search Dijkstra.Labels.search
    rw [toLabels_heap]
    cases st.heap.pop with
    | none => rfl
    | some out =>
      obtain ⟨st', hst', hlabels⟩ := Option.map_eq_some_iff.mp (toLabels_visit hmask
        (ofLex out.1).1 (ofLex out.1).2 { st with heap := out.2 })
      simp only
      rw [hst', Option.bind_some, ih, hlabels]
      rfl

end PortalSearch

section Seeded

variable (agg : PatchAgg) (vi : ValueIterator) (art : SchurArtifact)

/-- The value that goal tile `t` gives its portal `pid`, on a window of its own. -/
def portalSeed (t pid : Nat) : Option Nat :=
  let r := solveGoalTile vi art (collectFinals vi) (TileVi.new vi art.side) t
  if r.2 then some (portalValue agg art r.1 t pid) else none

/-- Portal `s` gets the value `c` from a goal tile of the mask that it lies on. -/
def Seeded (mask : TileMask) (s c : Nat) (via : Int) : Prop :=
  ∃ t : Nat, via = t ∧ t < art.tiles.length ∧ t ∈ art.goalTiles (collectFinals vi) ∧
    mask.allows t = some true ∧ s ∈ art.portalsOf t ∧ portalSeed agg vi art t s = some c

variable {agg vi art} {mask : TileMask}

theorem frame_pinFinals (finals : List Pos) (side : Int) (o : Int × Int) (tv : TileVi) :
    (pinFinals finals side o tv).1.frame = tv.frame := by
  apply foldl_keeps fun acc : TileVi × Bool => acc.1.frame
  intro acc g
  simp only
  split <;> rfl

theorem frame_solveGoalTile (finals : List Pos) (tv : TileVi) (t : Nat) :
    (solveGoalTile vi art finals tv t).1.frame = tv.frame := by
  unfold solveGoalTile
  simp only
  split
  · exact frame_pinFinals _ _ _ _
  · rw [TileVi.frame_solveGs]
    exact frame_pinFinals _ _ _ _

/-- A goal tile is solved alike on every window that has been used before. -/
theorem solveGoalTile_congr {tv tv' : TileVi} (h : tv.frame = tv'.frame) (finals : List Pos)
    (t : Nat) : solveGoalTile vi art finals tv t = solveGoalTile vi art finals tv' t := by
  unfold solveGoalTile
  simp only [TileVi.hydrate_congr h]

/-- Seeding takes the value of the tile where that is smaller. -/
theorem foldl_lowerSeed (t q : Nat) (ps : List Nat) : ∀ st : PortalSeeds,
    (ps.foldl (lowerSeed agg art t) st).tv = st.tv ∧
    ((ps.foldl (lowerSeed agg art t) st).d q = st.d q ∧
        (ps.foldl (lowerSeed agg art t) st).viaTile q = st.viaTile q ∧
        (q ∈ ps → st.d q ≤ portalValue agg art st.tv t q) ∨
      (ps.foldl (lowerSeed agg art t) st).d q = portalValue agg art st.tv t q ∧
        (ps.foldl (lowerSeed agg art t) st).viaTile q = t ∧ q ∈ ps ∧
        portalValue agg art st.tv t q ≤ st.d q) := by
  induction ps with
  | nil => exact fun _ => ⟨rfl, .inl ⟨rfl, rfl, fun h => absurd h List.not_mem_nil⟩⟩
  | cons pid ps ih =>
    intro st
    rw [List.foldl_cons]
    by_cases hlow : portalValue agg art st.tv t pid < st.d pid
    · have hstep : lowerSeed agg art t st pid = { st with
          d := Function.update st.d pid (portalValue agg art st.tv t pid)
          viaTile := Function.update st.viaTile pid t } := if_pos hlow
      obtain ⟨htv, hcase⟩ := ih (lowerSeed agg art t st pid)
      rw [hstep] at htv hcase ⊢
      refine ⟨htv, ?_⟩
      by_cases hq : q = pid
      · subst hq
        simp only [Function.update_self] at hcase
        right
        rcases hcase with ⟨hd, hvia, -⟩ | ⟨hd, hvia, -, -⟩
        · exact ⟨hd, hvia, List.mem_cons_self, le_of_lt hlow⟩
        · exact ⟨hd, hvia, List.mem_cons_self, le_of_lt hlow⟩
      · simp only [Function.update_of_ne hq] at hcase
        rcases hcase with ⟨hd, hvia, hle⟩ | ⟨hd, hvia, hmem, hle⟩
        · refine .inl ⟨hd, hvia, fun hmem => hle ?_⟩
          exact (List.mem_cons.mp hmem).resolve_left hq
        · exact .inr ⟨hd, hvia, List.mem_cons_of_mem pid hmem, hle⟩
    · have hstep : lowerSeed agg art t st pid = st := if_neg hlow
      rw [hstep]
      obtain ⟨htv, hcase⟩ := ih st
      refine ⟨htv, ?_⟩
      rcases hcase with ⟨hd, hvia, hle⟩ | ⟨hd, hvia, hmem, hle⟩
      · refine .inl ⟨hd, hvia, fun hmem => ?_⟩
        rcases List.mem_cons.mp hmem with rfl | hmem
        · omega
        · exact hle hmem
      · exact .inr ⟨hd, hvia, List.mem_cons_of_mem pid hmem, hle⟩

/-- The labels after the goal tiles in `done` have been solved. -/
structure SeedInv (agg : PatchAgg) (vi : ValueIterator) (art : SchurArtifact) (mask : TileMask)
    (st : PortalSeeds) (done : List Nat) : Prop where
  frame : st.tv.frame = (TileVi.new vi art.side).frame
  le_bound : ∀ q, st.d q ≤ maxCost
  seeded : ∀ q, st.d q < maxCost → Seeded agg vi art mask q (st.d q) (st.viaTile q)
  least : ∀ t ∈ done, t ∈ art.goalTiles (collectFinals vi) → mask.allows t = some true →
    ∀ s ∈ art.portalsOf t, ∀ c, portalSeed agg vi art t s = some c → st.d s ≤ c

theorem SeedInv.tile (hcov : mask.Covers art) {st : PortalSeeds} {done : List Nat} {t : Nat}
    (h : SeedInv agg vi art mask st done) (ht : t < art.tiles.length) :
    ∃ st', seedTile agg vi art (collectFinals vi) mask st t = some st' ∧
      SeedInv agg vi art mask st' (done ++ [t]) := by
  have hskip : (t ∈ art.goalTiles (collectFinals vi) → mask.allows t = some true →
      ∀ s ∈ art.portalsOf t, portalSeed agg vi art t s = none) → ∀ tv : TileVi,
      tv.frame = st.tv.frame → SeedInv agg vi art mask { st with tv := tv } (done ++ [t]) := by
    intro hnone tv htv
    refine ⟨htv.trans h.frame, h.le_bound, h.seeded, ?_⟩
    intro t' ht' hgoal hmask s hs c hc
    rcases List.mem_append.mp ht' with hold | hnew
    · exact h.least t' hold hgoal hmask s hs c hc
    · rw [List.mem_singleton.mp hnew] at hgoal hmask hs hc
      rw [hnone hgoal hmask s hs] at hc
      cases hc
  have hsame : solveGoalTile vi art (collectFinals vi) st.tv t =
      solveGoalTile vi art (collectFinals vi) (TileVi.new vi art.side) t :=
    solveGoalTile_congr h.frame (collectFinals vi) t
  unfold seedTile
  by_cases hidle : (!decide (t ∈ art.goalTiles (collectFinals vi)) ||
      (art.portalsOf t).isEmpty) = true
  · rw [if_pos hidle]
    refine ⟨st, rfl, hskip ?_ st.tv rfl⟩
    intro hgoal _ s hs
    rw [decide_eq_true hgoal, Bool.not_true, Bool.false_or, List.isEmpty_iff] at hidle
    rw [hidle] at hs
    exact absurd hs List.not_mem_nil
  · rw [if_neg hidle]
    have hgoal : t ∈ art.goalTiles (collectFinals vi) := by
      by_contra hno
      rw [decide_eq_false hno] at hidle
      exact hidle rfl
    obtain ⟨allowed, hmask⟩ := allows_isSome hcov ht
    rw [hmask, Option.map_some]
    refine ⟨_, rfl, ?_⟩
    cases allowed with
    | true =>
      rw [Bool.not_true, if_neg Bool.false_ne_true]
      simp only
      have htv : (solveGoalTile vi art (collectFinals vi) st.tv t).1.frame = st.tv.frame :=
        frame_solveGoalTile (collectFinals vi) st.tv t
      by_cases hpinned : (solveGoalTile vi art (collectFinals vi) st.tv t).2 = true
      · rw [hpinned, Bool.not_true, if_neg Bool.false_ne_true]
        have hvalue : ∀ s, portalSeed agg vi art t s =
            some (portalValue agg art (solveGoalTile vi art (collectFinals vi) st.tv t).1 t s) := by
          intro s
          unfold portalSeed
          rw [← hsame]
          exact if_pos hpinned
        have hfold := fun q => @foldl_lowerSeed agg art t q (art.portalsOf t)
          { st with tv := (solveGoalTile vi art (collectFinals vi) st.tv t).1 }
        refine ⟨?_, fun q => ?_, fun q hq => ?_, ?_⟩
        · rw [(hfold 0).1]
          exact htv.trans h.frame
        · rcases (hfold q).2 with ⟨hd, -, -⟩ | ⟨hd, -, -, hle⟩
          · rw [hd]
            exact h.le_bound q
          · rw [hd]
            exact hle.trans (h.le_bound q)
        · rcases (hfold q).2 with ⟨hd, hvia, -⟩ | ⟨hd, hvia, hmem, -⟩
          · rw [hd] at hq ⊢
            rw [hvia]
            exact h.seeded q hq
          · rw [hd, hvia]
            exact ⟨t, rfl, ht, hgoal, hmask, hmem, hvalue q⟩
        · intro t' ht' hgoal' hmask' s hs c hc
          rcases List.mem_append.mp ht' with hold | hnew
          · have hle := h.least t' hold hgoal' hmask' s hs c hc
            rcases (hfold s).2 with ⟨hd, -, -⟩ | ⟨hd, -, -, hlow⟩
            · rw [hd]
              exact hle
            · rw [hd]
              exact hlow.trans hle
          · rw [List.mem_singleton.mp hnew] at hs hc
            rw [hvalue s] at hc
            cases hc
            rcases (hfold s).2 with ⟨hd, -, hle⟩ | ⟨hd, -, -, -⟩
            · rw [hd]
              exact hle hs
            · exact le_of_eq hd
      · have hfalse : (solveGoalTile vi art (collectFinals vi) st.tv t).2 = false := by
          simpa using hpinned
        rw [hfalse, Bool.not_false, if_pos rfl]
        refine hskip ?_ _ htv
        intro _ _ s _
        unfold portalSeed
        rw [← hsame]
        exact if_neg hpinned
    | false =>
      rw [Bool.not_false, if_pos rfl]
      refine hskip (fun _ hallowed => ?_) st.tv rfl
      rw [hmask] at hallowed
      cases hallowed

/-- Goal tiles lie on the tile grid. -/
theorem goalTiles_lt {finals : List Pos} {t : Nat} (h : t ∈ art.goalTiles finals) :
    t < nTiles art := by
  obtain ⟨g, _, h⟩ := List.mem_flatMap.mp h
  obtain ⟨ty, hty, h⟩ := List.mem_flatMap.mp h
  obtain ⟨tx, htx, rfl⟩ := List.mem_map.mp h
  rw [mem_span] at hty htx
  have hx : tx ≤ art.tnx.toInt - 1 := htx.2.trans (min_le_right _ _)
  have hy : ty ≤ art.tny.toInt - 1 := hty.2.trans (min_le_right _ _)
  have hx0 : 0 ≤ tx := (le_max_right _ _).trans htx.1
  have hy0 : 0 ≤ ty := (le_max_right _ _).trans hty.1
  have hlast : ty * art.tnx.toInt ≤ (art.tny.toInt - 1) * art.tnx.toInt :=
    mul_le_mul_of_nonneg_right hy (by omega)
  rw [sub_mul, one_mul, mul_comm art.tny.toInt] at hlast
  have hstart : 0 ≤ ty * art.tnx.toInt := mul_nonneg hy0 (by omega)
  unfold nTiles
  omega

/-- With an entry for every tile nothing is out of range, and every seed is found. -/
theorem seedInv_seedPortals (hgrid : art.tiles.length = nTiles art) (hcov : mask.Covers art) :
    ∃ seeds, seedPortals agg vi art mask = some seeds ∧
      SeedInv agg vi art mask seeds (List.range art.tiles.length) := by
  have hrun : ∀ ts, (∀ t ∈ ts, t < art.tiles.length) → ∀ {st : PortalSeeds} {done : List Nat},
      SeedInv agg vi art mask st done → ∃ st',
        ts.foldlM (seedTile agg vi art (collectFinals vi) mask) st = some st' ∧
          SeedInv agg vi art mask st' (done ++ ts) := by
    intro ts
    induction ts with
    | nil =>
      intro _ st done h
      rw [List.append_nil]
      exact ⟨st, rfl, h⟩
    | cons t ts ih =>
      intro hts st done h
      obtain ⟨st', hst', h'⟩ := h.tile hcov (hts t List.mem_cons_self)
      obtain ⟨st'', hst'', h''⟩ := ih (fun t' ht' => hts t' (List.mem_cons_of_mem t ht')) h'
      rw [List.append_assoc] at h''
      rw [List.foldlM_cons, hst', Option.bind_eq_bind, Option.bind_some]
      exact ⟨st'', hst'', h''⟩
  have hstart : SeedInv agg vi art mask ⟨TileVi.new vi art.side, fun _ => maxCost, fun _ => -1⟩ [] :=
    ⟨rfl, fun _ => le_refl _, fun _ hq => absurd hq (lt_irrefl _),
      fun t ht => absurd ht List.not_mem_nil⟩
  have hgoals : (art.goalTiles (collectFinals vi)).all
      (fun t => decide (t < art.tiles.length)) = true := by
    rw [List.all_eq_true]
    intro t ht
    rw [hgrid]
    exact decide_eq_true (goalTiles_lt ht)
  unfold seedPortals
  rw [if_pos hgoals]
  exact hrun _ (fun t ht => List.mem_range.mp ht) hstart

end Seeded

/-- Indices of portals are in range, leave `u32::MAX` free, and matrices are square. -/
structure SchurArtifact.WellFormed (art : SchurArtifact) : Prop where
  storable : art.Storable
  indexed : ∀ t ∈ art.tiles, ∀ pid ∈ t.portals, pid.toNat < art.portals.length

/-- A passage of cost `w` from portal `q` to portal `p` within tile `t` of the mask. -/
def SchurArtifact.IsPassage (art : SchurArtifact) (mask : TileMask) (t : Int) (q p w : Nat) :
    Prop :=
  ∃ k sq sp : Nat, t = k ∧ k < art.tiles.length ∧ mask.allows k = some true ∧
    (art.portalsOf k)[sq]? = some q ∧ (art.portalsOf k)[sp]? = some p ∧
    w = art.passageCost k sq sp

section Solved

variable {agg : PatchAgg} {vi : ValueIterator} {art : SchurArtifact} {mask : TileMask}

theorem mem_passagesInto {p : Nat} {e : Dijkstra.Passage Nat Int} :
    e ∈ art.passagesInto mask p ↔ art.IsPassage mask e.tag e.source p e.weight := by
  obtain ⟨q, w, t⟩ := e
  constructor
  · intro h
    obtain ⟨⟨k, sp⟩, hm, he⟩ := List.mem_flatMap.mp h
    obtain ⟨hk, hp⟩ := mem_membership.mp hm
    by_cases hmask : mask.allows k = some true
    · rw [if_pos hmask] at he
      obtain ⟨sq, hsq, heq⟩ := List.mem_map.mp he
      obtain ⟨rfl, rfl, rfl⟩ := Dijkstra.Passage.mk.inj heq
      have hlt := List.mem_range.mp hsq
      refine ⟨k, sq, sp, rfl, hk, hmask, ?_, hp, rfl⟩
      rw [List.getD_eq_getElem?_getD, List.getElem?_eq_getElem hlt, Option.getD_some]
    · rw [if_neg hmask] at he
      exact absurd he List.not_mem_nil
  · intro ⟨k, sq, sp, ht, hk, hmask, hq, hp, hw⟩
    refine List.mem_flatMap.mpr ⟨(k, sp), mem_membership.mpr ⟨hk, hp⟩, ?_⟩
    rw [if_pos hmask]
    obtain ⟨hlt, -⟩ := List.getElem?_eq_some_iff.mp hq
    refine List.mem_map.mpr ⟨sq, List.mem_range.mpr hlt, ?_⟩
    simp only at ht hq hw
    rw [ht, hw, List.getD_eq_getElem?_getD, hq, Option.getD_some]

theorem tileAt_mem {t : Nat} (ht : t < art.tiles.length) : art.tileAt t ∈ art.tiles := by
  rw [SchurArtifact.tileAt, List.getD_eq_getElem?_getD, List.getElem?_eq_getElem ht,
    Option.getD_some]
  exact List.getElem_mem ht

theorem SchurArtifact.WellFormed.portal_lt (hart : art.WellFormed) {t q : Nat}
    (ht : t < art.tiles.length) (hq : q ∈ art.portalsOf t) : q < art.portals.length := by
  obtain ⟨pid, hpid, rfl⟩ := List.mem_map.mp hq
  exact hart.indexed _ (tileAt_mem ht) pid hpid

/-- A chain of passages in the mask's tiles from a portal to one with a goal-tile seed. -/
abbrev PortalChain (agg : PatchAgg) (vi : ValueIterator) (art : SchurArtifact) (mask : TileMask) :
    Nat → Nat → Prop := Dijkstra.Chain (art.passagesInto mask) (Seeded agg vi art mask)

/-- What the result says of every portal. -/
structure PortalDijkstra.Solves (r : PortalDijkstra) (agg : PatchAgg) (vi : ValueIterator)
    (art : SchurArtifact) (mask : TileMask) : Prop where
  least : ∀ q, r.d q < maxCost → IsLeast {c | PortalChain agg vi art mask q c} (r.d q)
  unreached : ∀ q, ¬ r.d q < maxCost →
    r.d q = maxCost ∧ ∀ c, PortalChain agg vi art mask q c → maxCost ≤ c
  root : ∀ q, r.d q < maxCost → r.parent q = none → Seeded agg vi art mask q (r.d q) (r.viaTile q)
  linked : ∀ q p, r.parent q = some p → r.d q < maxCost ∧ r.d p < maxCost ∧
    ∃ w, art.IsPassage mask (r.viaTile q) q p w ∧ r.d q = w + r.d p
  forest : WellFounded fun p q => r.parent q = some p

theorem mem_startHeap {seeds : PortalSeeds} {v q : Nat} :
    toLex (v, q) ∈ (startSearch art seeds).heap ↔
      (q < art.portals.length ∧ seeds.d q < maxCost) ∧ seeds.d q = v := by
  have hfold : ∀ (ps : List Nat) (heap : MinHeap (Nat ×ₗ Nat)),
      toLex (v, q) ∈ ps.foldl (fun heap i => heap.push (toLex (seeds.d i, i))) heap ↔
        toLex (v, q) ∈ heap ∨ q ∈ ps ∧ seeds.d q = v := by
    intro ps
    induction ps with
    | nil => simp
    | cons i ps ih =>
      intro heap
      rw [List.foldl_cons, ih, MinHeap.mem_push, List.mem_cons]
      constructor
      · intro h
        rcases h with (heq | hmem) | ⟨hmem, hv⟩
        · obtain ⟨rfl, rfl⟩ := Prod.mk.inj (toLex.injective heq)
          exact .inr ⟨.inl rfl, rfl⟩
        · exact .inl hmem
        · exact .inr ⟨.inr hmem, hv⟩
      · intro h
        rcases h with hmem | ⟨rfl | hmem, hv⟩
        · exact .inl (.inr hmem)
        · exact .inl (.inl (by rw [hv]))
        · exact .inr ⟨hmem, hv⟩
  unfold startSearch
  rw [hfold]
  simp [List.mem_filter, List.mem_range]

theorem collectFinals_of_isEmpty (h : (collectFinals vi).isEmpty = true) {s c : Nat} {via : Int} :
    ¬ Seeded agg vi art mask s c via := by
  intro ⟨t, _, _, hgoal, _⟩
  rw [List.isEmpty_iff] at h
  rw [h] at hgoal
  exact absurd hgoal List.not_mem_nil

theorem solves_of_solved {L : Dijkstra.Labels Nat Int}
    (h : Dijkstra.Solved (art.passagesInto mask) maxCost (Seeded agg vi art mask) L) :
    PortalDijkstra.Solves ⟨L.dist, L.parent, L.via⟩ agg vi art mask where
  least q hq := by
    refine ⟨h.chain q hq, fun c hc => ?_⟩
    by_cases hlt : c < maxCost
    · exact h.least q c hc hlt
    · exact (le_of_lt hq).trans (by omega)
  unreached q hq := by
    have hle : L.dist q ≤ maxCost := h.le_bound q
    simp only at hq
    refine ⟨by simp only; omega, fun c hc => ?_⟩
    by_contra hlt
    have := h.least q c hc (by omega)
    omega
  root := h.root
  linked q p hp := by
    obtain ⟨hq, hlt, e, he, rfl, htag, hd⟩ := h.linked q p hp
    refine ⟨hq, hlt, e.weight, ?_, hd⟩
    have hpassage := mem_passagesInto.mp he
    rwa [htag] at hpassage
  forest := h.forest

/-- The search ends and its result solves the portal graph of the mask. -/
theorem portalCostsMasked_spec (agg : PatchAgg) (vi : ValueIterator) (hart : art.WellFormed)
    (hgrid : art.tiles.length = nTiles art) (hcov : mask.Covers art) :
    ∃ r, portalCostsMasked agg vi art mask = some r ∧ r.Solves agg vi art mask := by
  unfold portalCostsMasked
  by_cases hempty : (collectFinals vi).isEmpty = true
  · rw [if_pos hempty]
    have hno : ∀ q c, ¬ PortalChain agg vi art mask q c := by
      intro q c hc
      induction hc with
      | seed hs => exact collectFinals_of_isEmpty hempty hs
      | step _ _ ih => exact ih
    refine ⟨_, rfl, fun q hq => absurd hq (lt_irrefl _), fun q _ => ⟨rfl, fun c hc =>
      absurd hc (hno q c)⟩, fun q hq => absurd hq (lt_irrefl _), fun q p hp => ?_, ⟨fun q =>
      ⟨q, fun p hp => ?_⟩⟩⟩
    · cases hp
    · cases hp
  · obtain ⟨seeds, hrun, hseeds⟩ := @seedInv_seedPortals agg vi art mask hgrid hcov
    rw [if_neg hempty, hrun, Option.bind_some]
    have hstart : Dijkstra.Inv (art.passagesInto mask) maxCost (Seeded agg vi art mask)
        (startSearch art seeds).toLabels [] fun _ _ => False := by
      apply Dijkstra.Inv.start hseeds.seeded hseeds.le_bound
      · intro s c via ⟨t, _, ht, hgoal, hmask, hs, hc⟩ _
        exact hseeds.least t (List.mem_range.mpr ht) hgoal hmask s hs c hc
      · exact fun _ => rfl
      · intro v q
        refine mem_startHeap.trans ⟨fun ⟨⟨_, hlt⟩, hv⟩ => ⟨hv, hv ▸ hlt⟩, fun ⟨hv, hlt⟩ => ?_⟩
        have hq : seeds.d q < maxCost := lt_of_eq_of_lt hv hlt
        obtain ⟨t, _, ht, _, _, hmem, _⟩ := hseeds.seeded q hq
        exact ⟨⟨hart.portal_lt ht hmem, hq⟩, hv⟩
    have hunion : ∀ p, ∀ e ∈ art.passagesInto mask p, e.source ∈ List.range art.portals.length := by
      intro p e he
      obtain ⟨k, sq, sp, _, hk, _, hq, _, _⟩ := mem_passagesInto.mp he
      exact List.mem_range.mpr (hart.portal_lt hk (List.mem_of_getElem? hq))
    have hsome : ((startSearch art seeds).toLabels.search
        (art.passagesInto mask) maxCost (searchFuel art (startSearch art seeds))).isSome :=
      Dijkstra.search_isSome hunion (le_refl _)
    obtain ⟨L, hL⟩ := Option.isSome_iff_exists.mp hsome
    have hsearch := (PortalSearch.toLabels_search hcov _ _).trans hL
    obtain ⟨st, hst, rfl⟩ := Option.map_eq_some_iff.mp hsearch
    simp only
    rw [hst]
    exact ⟨_, rfl, solves_of_solved (hstart.search hL)⟩

theorem IsPassage.mono {mask' : TileMask} (hmask : ∀ t, mask.allows t = some true → mask'.allows t = some true)
    {t : Int} {q p w : Nat} (h : art.IsPassage mask t q p w) : art.IsPassage mask' t q p w := by
  obtain ⟨k, sq, sp, ht, hk, hallowed, hrest⟩ := h
  exact ⟨k, sq, sp, ht, hk, hmask k hallowed, hrest⟩

/-- A larger mask has all chains of a smaller one. -/
theorem portalChain_mono {mask' : TileMask}
    (hmask : ∀ t, mask.allows t = some true → mask'.allows t = some true) {q c : Nat}
    (h : PortalChain agg vi art mask q c) : PortalChain agg vi art mask' q c := by
  apply h.mono
  · intro p e he
    exact mem_passagesInto.mpr (IsPassage.mono hmask (mem_passagesInto.mp he))
  · intro s c via ⟨t, hvia, ht, hgoal, hallowed, hs, hc⟩
    exact ⟨t, hvia, ht, hgoal, hmask t hallowed, hs, hc⟩

theorem PortalDijkstra.Solves.le {r r' : PortalDijkstra} {mask' : TileMask}
    (h : r.Solves agg vi art mask) (h' : r'.Solves agg vi art mask') {q : Nat}
    (hchain : ∀ c, PortalChain agg vi art mask q c → PortalChain agg vi art mask' q c) :
    r'.d q ≤ r.d q := by
  by_cases hq : r.d q < maxCost
  · have hc := hchain _ (h.least q hq).1
    by_cases hq' : r'.d q < maxCost
    · exact (h'.least q hq').2 hc
    · have := (h'.unreached q hq').2 _ hc
      omega
  · rw [(h.unreached q hq).1]
    by_cases hq' : r'.d q < maxCost
    · exact le_of_lt hq'
    · exact le_of_eq (h'.unreached q hq').1

/-- Six cells; the only action leads to the goal at the left end. -/
def longRow : ValueIterator :=
  ⟨⟨⟨6, 1, 1⟩, goalState probBase :: List.replicate 5 freeState, rfl⟩, [stepAction (-1) 0],
    by decide⟩

/-- The row in three tiles, with a portal on each of the two borders. -/
def rowArt : SchurArtifact where
  tile := 2
  halo := 1
  nx := 6
  ny := 1
  nt := 1
  tnx := 3
  tny := 1
  portals := [⟨1, 0, 0⟩, ⟨3, 0, 0⟩]
  tiles := [⟨[0], [0]⟩, ⟨[0, 1], [0, 262144000000000, 524288, 0]⟩, ⟨[1], [0]⟩]

theorem rowArt_wellFormed : rowArt.WellFormed := by
  have hsquare : ∀ t ∈ rowArt.tiles,
      t.portals.length < 2 ^ 32 ∧ t.w.length = t.portals.length * t.portals.length := by
    decide
  have hindexed : ∀ t ∈ rowArt.tiles, ∀ pid ∈ t.portals, pid.toNat < rowArt.portals.length := by
    simp [rowArt]
  exact ⟨⟨by decide, by decide, fun t ht => ⟨(hsquare t ht).1, (hsquare t ht).2⟩⟩, hindexed⟩

theorem covers_of_length {m : List Bool} {art : SchurArtifact} (h : art.tiles.length ≤ m.length) :
    TileMask.Covers (some m) art := by
  rintro m' ⟨⟩
  exact h

end Solved

end ValueIteration
