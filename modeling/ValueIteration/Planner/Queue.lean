import ValueIteration.Planner.Shape

/-!
# The two queues of background repair

The dense path keeps seeds on a bitboard and a list of candidates around them, the
compact path a queue of tiles. For both, `Queued` says which columns are still to be
looked at, and queueing a rectangle queues every column that can read a cell of it.
-/

set_option autoImplicit false
set_option linter.unusedSectionVars false

namespace ValueIteration

/-- `c` is within `r` cells of `n`. -/
def Near (r : Nat) (n c : Cell) : Prop :=
  (c.1 - r ≤ n.1 ∧ n.1 ≤ c.1 + r) ∧ c.2 - r ≤ n.2 ∧ n.2 ≤ c.2 + r

theorem Near.refl (r : Nat) (c : Cell) : Near r c c := by
  unfold Near
  omega

/-- An inclusive rectangle, columns first. -/
def InRect (b : Int × Int × Int × Int) (c : Cell) : Prop :=
  (b.1 ≤ c.1 ∧ c.1 ≤ b.2.1) ∧ b.2.2.1 ≤ c.2 ∧ c.2 ≤ b.2.2.2

theorem inRect_singleton {n c : Cell} : InRect (n.1, n.1, n.2, n.2) c ↔ c = n := by
  obtain ⟨nx, ny⟩ := n
  obtain ⟨x, y⟩ := c
  simp only [InRect, Prod.mk.injEq]
  omega

namespace DenseSweep

/-- The candidates left, and the surroundings of the seeds. -/
def Queued (sw : DenseSweep) (r : Nat) (c : Cell) : Prop :=
  (∃ p ∈ sw.cands.drop sw.pos, c = ((p.1 : Int), (p.2 : Int))) ∨
    ∃ bb, sw.pending = some bb ∧ ∃ x y : Nat, x < bb.mapX ∧ y < bb.mapY ∧ bb.Mem x y ∧
      Near r ((x : Int), (y : Int)) c

/-- Board and candidates belong to the map; a measured reach is that of the actions. -/
structure Fits (sw : DenseSweep) (nx ny r : Nat) : Prop where
  pending : ∀ bb, sw.pending = some bb → bb.Sized ∧ bb.mapX = nx ∧ bb.mapY = ny
  cands : ∀ p ∈ sw.cands, p.1 < nx ∧ p.2 < ny
  nodup : sw.cands.Nodup
  reach : ∀ k, sw.reach = some k → k = r

variable {sw : DenseSweep} {nx ny r : Nat}

theorem Fits.seedRect (h : sw.Fits nx ny r) (b : Int × Int × Int × Int) :
    (sw.seedRect nx ny b).Fits nx ny r ∧ (∀ c, sw.Queued r c → (sw.seedRect nx ny b).Queued r c) ∧
      ∀ n c : Cell, InRect b n → (0 ≤ n.1 ∧ n.1 < nx) → (0 ≤ n.2 ∧ n.2 < ny) → Near r n c →
        (sw.seedRect nx ny b).Queued r c := by
  let bb := sw.pending.getD (Bitboard2D.new nx ny)
  have hbb : bb.Sized ∧ bb.mapX = nx ∧ bb.mapY = ny := by
    cases hp : sw.pending with
    | none =>
      simp only [bb, hp, Option.getD_none]
      exact ⟨Bitboard2D.sized_new nx ny, rfl, rfl⟩
    | some b =>
      simp only [bb, hp, Option.getD_some]
      exact h.pending b hp
  obtain ⟨hsized, hx, hy⟩ := hbb
  let cells := (span (max b.2.2.1 0) (min b.2.2.2 (ny - 1))).flatMap fun y =>
    (span (max b.1 0) (min b.2.1 (nx - 1))).map fun x => (x.toNat, y.toNat)
  have hmem : ∀ x y : Nat, (x, y) ∈ cells ↔ InRect b ((x : Int), (y : Int)) ∧ x < nx ∧ y < ny := by
    intro x y
    simp only [cells, List.mem_flatMap, List.mem_map, mem_span, Prod.mk.injEq, InRect]
    constructor
    · rintro ⟨y', hy', x', hx', rfl, rfl⟩
      omega
    · intro hin
      exact ⟨y, by omega, x, by omega, by omega, by omega⟩
  have hspec := Bitboard2D.foldl_set_spec cells bb hsized fun p hp => by
    rw [hx, hy]
    exact ((hmem p.1 p.2).mp hp).2
  obtain ⟨h1, h2, h3, h4⟩ := hspec
  have hpend : (sw.seedRect nx ny b).pending =
      some (cells.foldl (fun bb c => bb.set c.1 c.2) bb) := rfl
  refine ⟨⟨?_, h.cands, h.nodup, h.reach⟩, ?_, ?_⟩
  · intro bb' heq
    rw [hpend] at heq
    cases heq
    exact ⟨h1, h2.trans hx, h3.trans hy⟩
  · rintro c (hc | ⟨bb', heq, x, y, hlx, hly, hm, hnear⟩)
    · exact Or.inl hc
    · refine Or.inr ⟨_, hpend, x, y, ?_, ?_, ?_, hnear⟩
      · rw [h2, hx, ← (h.pending bb' heq).2.1]
        exact hlx
      · rw [h3, hy, ← (h.pending bb' heq).2.2]
        exact hly
      · have hbb' : bb = bb' := by simp only [bb, heq, Option.getD_some]
        rw [h4 x y (by rw [hbb']; exact hlx), hbb']
        exact Or.inr hm
  · intro n c hn hnx hny hnear
    have hcast : ((n.1.toNat : Int), (n.2.toNat : Int)) = n := by
      obtain ⟨x, y⟩ := n
      simp only [Prod.mk.injEq]
      omega
    refine Or.inr ⟨_, hpend, n.1.toNat, n.2.toNat, by omega, by omega, ?_, ?_⟩
    · rw [h4 _ _ (by omega)]
      exact Or.inl ((hmem _ _).mpr ⟨by rw [hcast]; exact hn, by omega, by omega⟩)
    · rw [hcast]
      exact hnear

theorem Fits.withReach {actions : List Action} (h : sw.Fits nx ny (transitionReach actions))
    {out : DenseSweep × Nat} (hr : sw.withReach actions = some out) :
    out.1.Fits nx ny (transitionReach actions) ∧ out.2 = transitionReach actions ∧
      ∀ k c, out.1.Queued k c ↔ sw.Queued k c := by
  unfold DenseSweep.withReach at hr
  split at hr
  · next k hk =>
    cases hr
    exact ⟨h, h.reach k hk, fun _ _ => Iff.rfl⟩
  · simp only at hr
    split at hr
    · cases hr
      refine ⟨⟨h.pending, h.cands, h.nodup, ?_⟩, rfl, fun _ _ => Iff.rfl⟩
      intro k hk
      cases hk
      rfl
    · cases hr

/-- A refill turns the surroundings of the seeds into candidates. -/
theorem Fits.refill (h : sw.Fits nx ny r) {out : DenseSweep} (hr : sw.refill r = some out) :
    out.Fits nx ny r ∧ ∀ c : Cell, (0 ≤ c.1 ∧ c.1 < nx) → (0 ≤ c.2 ∧ c.2 < ny) →
      sw.Queued r c → out.Queued r c := by
  unfold DenseSweep.refill at hr
  split at hr
  · cases hr
    exact ⟨h, fun _ _ _ hc => hc⟩
  · next hpos =>
    have hdrop : sw.cands.drop sw.pos = [] := List.drop_eq_nil_of_le (by omega)
    split at hr
    · next hp =>
      cases hr
      refine ⟨⟨?_, nofun, List.nodup_nil, h.reach⟩, ?_⟩
      · intro bb hbb
        rw [hp] at hbb
        cases hbb
      · rintro c _ _ (⟨p, hp', _⟩ | ⟨bb, hbb, _⟩)
        · rw [hdrop] at hp'
          cases hp'
        · rw [hp] at hbb
          cases hbb
    · next seed hp =>
      obtain ⟨bb, hbb, rfl⟩ := Option.map_eq_some_iff.mp hr
      obtain ⟨_, hsx, hsy⟩ := h.pending seed hp
      obtain ⟨_, hdx, hdy⟩ := Bitboard2D.dilate_dims hbb
      refine ⟨⟨nofun, ?_, Bitboard2D.nodup_enumerate, h.reach⟩, ?_⟩
      · intro p hp'
        obtain ⟨hx, hy, _⟩ := Bitboard2D.mem_enumerate.mp hp'
        omega
      · rintro c hcx hcy (⟨p, hp', _⟩ | ⟨bb', hbb', x, y, hx, hy, hm, hnear⟩)
        · rw [hdrop] at hp'
          cases hp'
        · rw [hp] at hbb'
          cases hbb'
          refine Or.inl ⟨(c.1.toNat, c.2.toNat), ?_, ?_⟩
          · rw [List.drop_zero]
            have hlx : c.1.toNat < seed.mapX := by omega
            have hly : c.2.toNat < seed.mapY := by omega
            refine Bitboard2D.mem_enumerate.mpr ⟨by omega, by omega, ?_⟩
            rw [Bitboard2D.mem_dilate hbb hlx hly]
            refine ⟨x, y, div_lt_wordsPerRow hx, hy, hm, ?_⟩
            simp only [Near] at hnear
            omega
          · obtain ⟨cx, cy⟩ := c
            simp only [Prod.mk.injEq]
            omega

theorem Fits.clear (h : sw.Fits nx ny r) : sw.clear.Fits nx ny r :=
  ⟨nofun, nofun, List.nodup_nil, h.reach⟩

end DenseSweep

namespace Repair

/-- The tile a cell lies in. -/
def tileOf (r : Repair) (c : Cell) : Nat := (c.2 / r.interior * r.tnx + c.1 / r.interior).toNat

/-- A tile is marked exactly while it waits, and waits once. -/
structure Fits (r : Repair) : Prop where
  marked : ∀ t, t < r.queued.length → (r.queued.getD t true = true ↔ t ∈ r.queue)
  within : ∀ t ∈ r.queue, t < r.queued.length
  nodup : r.queue.Nodup

variable {r : Repair}

theorem Fits.push (h : r.Fits) (t : Nat) : (r.push t).Fits ∧
    ∀ s, s ∈ (r.push t).queue ↔ s ∈ r.queue ∨ (s = t ∧ t < r.queued.length) := by
  unfold Repair.push
  split
  · next hm =>
    refine ⟨h, ?_⟩
    intro s
    constructor
    · exact Or.inl
    · rintro (hs | ⟨rfl, hlt⟩)
      · exact hs
      · exact (h.marked s hlt).mp hm
  · next hm =>
    have hlt : t < r.queued.length := by
      by_contra hge
      apply hm
      rw [List.getD_eq_getElem?_getD, List.getElem?_eq_none (by omega), Option.getD_none]
    have hnot : t ∉ r.queue := fun hin => hm ((h.marked t hlt).mpr hin)
    refine ⟨⟨?_, ?_, ?_⟩, ?_⟩
    · intro s hs
      simp only [List.length_set] at hs
      simp only [List.getD_eq_getElem?_getD, List.getElem?_set, List.mem_append,
        List.mem_singleton]
      by_cases hts : t = s
      · simp [hts, hs]
      · rw [if_neg hts, ← List.getD_eq_getElem?_getD, h.marked s hs]
        simp [Ne.symm hts]
    · intro s hs
      simp only [List.mem_append, List.mem_singleton, List.length_set] at hs ⊢
      rcases hs with hs | rfl
      · exact h.within s hs
      · exact hlt
    · refine List.nodup_append.mpr ⟨h.nodup, List.nodup_singleton _, ?_⟩
      intro a ha b hb hab
      rw [List.mem_singleton] at hb
      subst hb
      subst hab
      exact hnot ha
    · intro s
      simp only [List.mem_append, List.mem_singleton, hlt, and_true]

theorem Fits.foldl_push (ts : List Nat) : ∀ {r : Repair}, r.Fits → (ts.foldl Repair.push r).Fits ∧
    ∀ s, s ∈ (ts.foldl Repair.push r).queue ↔
      s ∈ r.queue ∨ (s ∈ ts ∧ s < r.queued.length) := by
  induction ts with
  | nil => exact fun h => ⟨h, by simp⟩
  | cons t ts ih =>
    intro r h
    obtain ⟨hfit, hmem⟩ := h.push t
    obtain ⟨hfit', hmem'⟩ := ih hfit
    have hlen : (r.push t).queued.length = r.queued.length := by
      unfold Repair.push
      split
      · rfl
      · simp
    refine ⟨hfit', ?_⟩
    intro s
    rw [List.foldl_cons, hmem' s, hmem s, hlen, List.mem_cons]
    constructor
    · rintro ((hs | ⟨rfl, hlt⟩) | ⟨hs, hlt⟩)
      · exact Or.inl hs
      · exact Or.inr ⟨Or.inl rfl, hlt⟩
      · exact Or.inr ⟨Or.inr hs, hlt⟩
    · rintro (hs | ⟨rfl | hs, hlt⟩)
      · exact Or.inl (Or.inl hs)
      · exact Or.inl (Or.inr ⟨rfl, hlt⟩)
      · exact Or.inr ⟨hs, hlt⟩

theorem fits_clear (r : Repair) : r.clear.Fits := by
  refine ⟨?_, fun t ht => absurd ht List.not_mem_nil, List.nodup_nil⟩
  intro t ht
  simp only [clear, settle, List.length_map] at ht
  simp [clear, settle, List.getD_eq_getElem?_getD, ht]

/-- The grid of tiles covers a map of `w` by `h` cells. -/
structure Tiles (r : Repair) (w h : Nat) : Prop where
  interior : 0 < r.interior
  halo : 0 ≤ r.halo
  tilesX : 0 < r.tnx ∧ (w : Int) ≤ r.tnx * r.interior
  tilesY : 0 < r.tny ∧ (h : Int) ≤ r.tny * r.interior
  queued : r.queued.length = (r.tnx * r.tny).toNat

variable {w h : Nat}

/-- The tile row and column of a cell on the map. -/
theorem tile_bounds (hs : r.Tiles w h) {c : Cell} (hx : 0 ≤ c.1 ∧ c.1 < w)
    (hy : 0 ≤ c.2 ∧ c.2 < h) :
    (0 ≤ c.1 / r.interior ∧ c.1 / r.interior < r.tnx) ∧
      0 ≤ c.2 / r.interior ∧ c.2 / r.interior < r.tny := by
  have hpos := hs.interior
  refine ⟨⟨Int.ediv_nonneg hx.1 hpos.le, ?_⟩, Int.ediv_nonneg hy.1 hpos.le, ?_⟩
  · exact Int.ediv_lt_of_lt_mul hpos (lt_of_lt_of_le hx.2 hs.tilesX.2)
  · exact Int.ediv_lt_of_lt_mul hpos (lt_of_lt_of_le hy.2 hs.tilesY.2)

theorem tileOf_lt (hs : r.Tiles w h) {c : Cell} (hx : 0 ≤ c.1 ∧ c.1 < w)
    (hy : 0 ≤ c.2 ∧ c.2 < h) : r.tileOf c < r.queued.length := by
  obtain ⟨⟨hx0, hx1⟩, hy0, hy1⟩ := tile_bounds hs hx hy
  rw [hs.queued, tileOf]
  have hle : c.2 / r.interior * r.tnx + c.1 / r.interior < r.tnx * r.tny := by
    have hmul : (c.2 / r.interior + 1) * r.tnx ≤ r.tny * r.tnx :=
      mul_le_mul_of_nonneg_right (by omega) (by omega)
    linarith [mul_comm r.tny r.tnx, add_mul (c.2 / r.interior) 1 r.tnx]
  have hnn : 0 ≤ c.2 / r.interior * r.tnx := mul_nonneg hy0 (by omega)
  omega

/-- A tile's interior holds exactly the map's cells that lie in the tile. -/
theorem inRect_interiorOf (hs : r.Tiles w h) {t : Nat} (ht : t < r.queued.length)
    {c : Cell} : InRect (r.interiorOf t w h) c ↔
      ((0 ≤ c.1 ∧ c.1 < w) ∧ 0 ≤ c.2 ∧ c.2 < h) ∧ r.tileOf c = t := by
  have hpos := hs.interior
  have htx := hs.tilesX.1
  have hlt : (t : Int) < r.tnx * r.tny := by
    rw [hs.queued] at ht
    omega
  have hmod := Int.emod_nonneg (t : Int) (by omega : r.tnx ≠ 0)
  have hmodlt := Int.emod_lt_of_pos (t : Int) htx
  have hdiv : 0 ≤ (t : Int) / r.tnx := Int.ediv_nonneg (by omega) htx.le
  have hsplit := Int.mul_ediv_add_emod (t : Int) r.tnx
  simp only [InRect, interiorOf]
  have hband (a k : Int) : k * r.interior ≤ a ∧ a ≤ k * r.interior + r.interior - 1 ↔
      a / r.interior = k := by
    constructor
    · intro h
      refine le_antisymm ?_ ?_
      · have : a < (k + 1) * r.interior := by linarith [add_mul k 1 r.interior]
        have := Int.ediv_lt_of_lt_mul hpos this
        omega
      · exact (Int.le_ediv_iff_mul_le hpos).mpr h.1
    · rintro rfl
      have h1 := Int.ediv_mul_le a hpos.ne'
      have h2 := Int.lt_ediv_add_one_mul_self a hpos
      constructor
      · exact h1
      · linarith [add_mul (a / r.interior) 1 r.interior]
  have htile : ∀ x y : Int, (0 ≤ x ∧ x < r.tnx) → 0 ≤ y →
      ((y * r.tnx + x).toNat = t ↔ x = (t : Int) % r.tnx ∧ y = (t : Int) / r.tnx) := by
    intro x y hx hy
    have hnn : 0 ≤ y * r.tnx := mul_nonneg hy (by omega)
    constructor
    · intro h
      have ht' : (t : Int) = x + r.tnx * y := by
        rw [mul_comm r.tnx y]
        omega
      rw [ht', Int.add_mul_emod_self_left, Int.emod_eq_of_lt hx.1 hx.2,
        Int.add_mul_ediv_left _ _ (by omega), Int.ediv_eq_zero_of_lt hx.1 hx.2, Int.zero_add]
      exact ⟨rfl, rfl⟩
    · rintro ⟨rfl, rfl⟩
      have : (t : Int) / r.tnx * r.tnx + (t : Int) % r.tnx = t := by
        rw [mul_comm]
        exact hsplit
      omega
  constructor
  · rintro ⟨⟨h1, h2⟩, h3, h4⟩
    have hx0 : 0 ≤ (t : Int) % r.tnx * r.interior := mul_nonneg hmod hpos.le
    have hy0 : 0 ≤ (t : Int) / r.tnx * r.interior := mul_nonneg hdiv hpos.le
    have hx : c.1 / r.interior = (t : Int) % r.tnx := (hband _ _).mp ⟨h1, by omega⟩
    have hy : c.2 / r.interior = (t : Int) / r.tnx := (hband _ _).mp ⟨h3, by omega⟩
    refine ⟨⟨by omega, by omega⟩, ?_⟩
    rw [tileOf, htile _ _ (by omega) (by omega)]
    exact ⟨hx, hy⟩
  · rintro ⟨⟨hcx, hcy⟩, heq⟩
    obtain ⟨⟨hx0, hx1⟩, hy0, hy1⟩ := tile_bounds hs hcx hcy
    rw [tileOf, htile _ _ ⟨hx0, hx1⟩ hy0] at heq
    obtain ⟨hx, hy⟩ := heq
    have h1 := (hband _ _).mpr hx
    have h2 := (hband _ _).mpr hy
    omega

/-- Queueing a rectangle queues the tile of every column that reads a cell of it. -/
theorem Fits.enqueueAround (hfits : r.Fits) (hs : r.Tiles w h) {reach : Nat}
    (hreach : (reach : Int) ≤ r.halo) (b : Int × Int × Int × Int) :
    (r.enqueueAround b).Fits ∧ (∀ t ∈ r.queue, t ∈ (r.enqueueAround b).queue) ∧
      ∀ n c : Cell, InRect b n → (0 ≤ c.1 ∧ c.1 < w) → (0 ≤ c.2 ∧ c.2 < h) → Near reach n c →
        (r.enqueueAround b).tileOf c ∈ (r.enqueueAround b).queue := by
  have hpush := Fits.foldl_push ((span (min (max (b.2.2.1 - r.halo) 0 / r.interior) (r.tny - 1))
    (min (max (b.2.2.2 + r.halo) 0 / r.interior) (r.tny - 1))).flatMap fun ty =>
      (span (min (max (b.1 - r.halo) 0 / r.interior) (r.tnx - 1))
        (min (max (b.2.1 + r.halo) 0 / r.interior) (r.tnx - 1))).map
          fun tx => (ty * r.tnx + tx).toNat) hfits
  obtain ⟨hfit, hmem⟩ := hpush
  have hframe := r.frame_enqueueAround b
  simp only [Repair.frame, Prod.mk.injEq] at hframe
  obtain ⟨_, hint', _, htnx', _⟩ := hframe
  refine ⟨hfit, fun t ht => (hmem t).mpr (Or.inl ht), ?_⟩
  intro n c hn hx hy hnear
  have htile : (r.enqueueAround b).tileOf c = r.tileOf c := by
    unfold tileOf
    rw [hint', htnx']
  rw [htile]
  refine (hmem _).mpr (Or.inr ⟨?_, tileOf_lt hs hx hy⟩)
  have hpos := hs.interior
  obtain ⟨⟨hx0, hx1⟩, hy0, hy1⟩ := tile_bounds hs hx hy
  simp only [InRect, Near] at hn hnear
  have hmono {a a' : Int} (hle : a ≤ a') : a / r.interior ≤ a' / r.interior :=
    Int.ediv_le_ediv hpos hle
  refine List.mem_flatMap.mpr ⟨c.2 / r.interior, mem_span.mpr ⟨?_, ?_⟩, List.mem_map.mpr
    ⟨c.1 / r.interior, mem_span.mpr ⟨?_, ?_⟩, rfl⟩⟩
  · exact (min_le_left _ _).trans (hmono (by omega))
  · exact le_min (hmono (by omega)) (by omega)
  · exact (min_le_left _ _).trans (hmono (by omega))
  · exact le_min (hmono (by omega)) (by omega)

end Repair

/-- No transition leads farther than `transition_reach`. -/
theorem near_of_mem {actions : List Action} {a : Action} (ha : a ∈ actions)
    {row : List StateTransition} (hrow : row ∈ a.stateTransitions) {tr : StateTransition}
    (htr : tr ∈ row) (c : Cell) : Near (transitionReach actions) (c.1 + tr.dix, c.2 + tr.diy) c := by
  have hmem : max tr.dix.natAbs tr.diy.natAbs ∈
      (actions.flatMap fun a => a.stateTransitions.flatten).map fun t =>
        max t.dix.natAbs t.diy.natAbs :=
    List.mem_map.mpr ⟨tr, List.mem_flatMap.mpr ⟨a, ha, List.mem_flatten.mpr ⟨row, hrow, htr⟩⟩, rfl⟩
  have hle := (le_foldl_max _ 0).2 _ hmem
  have hreach : max tr.dix.natAbs tr.diy.natAbs ≤ transitionReach actions := hle
  simp only [Near]
  omega

theorem BuildParams.RepairShape.tiles {K : Type} {build : BuildParams K} {r : Repair}
    (hs : build.RepairShape r) : r.Tiles build.grid.width build.grid.height := by
  obtain ⟨hhalo, _, hint⟩ := hs.halo
  exact ⟨by omega, by omega, hs.tilesX, hs.tilesY, hs.queued⟩

namespace PlannerCore

variable {K : Type}

/-- How far the table's transitions lead, in cells. -/
abbrev reach (core : PlannerCore K) : Nat := transitionReach core.build.actions

/-- A column of the map that background repair still has to look at. -/
def Queued (core : PlannerCore K) (c : Cell) : Prop :=
  core.onMap c = true ∧
    match core.repair with
    | some r => r.tileOf c ∈ r.queue
    | none => core.sweep.Queued core.reach c

structure QueueFits (core : PlannerCore K) : Prop where
  sweep : core.sweep.Fits core.build.grid.width core.build.grid.height core.reach
  repair : ∀ r, core.repair = some r → r.Fits

/-- A step that drops nothing from the queue and queues all that reads a cell of `S`. -/
structure Widens (core core' : PlannerCore K) (S : Cell → Prop) : Prop where
  build : core'.build = core.build
  fits : core'.QueueFits
  mono : ∀ c, core.Queued c → core'.Queued c
  near : ∀ n c, S n → core.onMap n = true → core.onMap c = true → Near core.reach n c →
    core'.Queued c

variable {core core' core'' : PlannerCore K} {S S' : Cell → Prop}

theorem onMap_iff {c : Cell} : core.onMap c = true ↔ (0 ≤ c.1 ∧ c.1 < core.build.grid.width) ∧
    0 ≤ c.2 ∧ c.2 < core.build.grid.height := by
  simp only [onMap, Bool.and_eq_true, decide_eq_true_eq]
  omega

theorem onMap_of_build (h : core'.build = core.build) : core'.onMap = core.onMap := by
  unfold onMap
  rw [h]

theorem queued_congr (hb : core'.build = core.build)
    (hr : core'.repair.map (fun r => (r.interior, r.tnx, r.queue)) =
      core.repair.map fun r => (r.interior, r.tnx, r.queue))
    (hs : ∀ k c, core'.sweep.Queued k c ↔ core.sweep.Queued k c) (c : Cell) :
    core'.Queued c ↔ core.Queued c := by
  unfold Queued
  rw [onMap_of_build hb, reach, reach, hb]
  cases h' : core'.repair with
  | none =>
    rw [h', Option.map_none] at hr
    rw [Option.map_eq_none_iff.mp hr.symm]
    simp only [hs]
  | some r' =>
    rw [h', Option.map_some] at hr
    obtain ⟨r, h, heq⟩ := Option.map_eq_some_iff.mp hr.symm
    simp only [Prod.mk.injEq] at heq
    obtain ⟨h1, h2, h3⟩ := heq
    simp only [h, Repair.tileOf, h1, h2, h3]

theorem Widens.trans (h : Widens core core' S) (h' : Widens core' core'' S') :
    Widens core core'' fun n => S n ∨ S' n where
  build := h'.build.trans h.build
  fits := h'.fits
  mono c hc := h'.mono c (h.mono c hc)
  near n c hS hn hc hnear := by
    cases hS with
    | inl hS => exact h'.mono c (h.near n c hS hn hc hnear)
    | inr hS =>
      rw [← onMap_of_build h.build] at hn hc
      rw [reach, ← h.build] at hnear
      exact h'.near n c hS hn hc hnear

theorem Widens.weaken (h : Widens core core' S) (hS : ∀ n, core.onMap n = true → S' n → S n) :
    Widens core core' S' :=
  ⟨h.build, h.fits, h.mono, fun n c hn hon => h.near n c (hS n hon hn) hon⟩

/-- A step that leaves both queues alone. -/
theorem Widens.of_same (hq : core.QueueFits) (hb : core'.build = core.build)
    (hr : core'.repair = core.repair) (hs : core'.sweep = core.sweep) :
    Widens core core' fun _ => False := by
  refine ⟨hb, ⟨?_, ?_⟩, ?_, nofun⟩
  · rw [hs, hb, reach, hb]
    exact hq.sweep
  · rw [hr]
    exact hq.repair
  · exact fun c hc => (queued_congr hb (by rw [hr]) (by rw [hs]; exact fun _ _ => Iff.rfl) c).mpr hc

theorem widens_enqueueGlobal (hs : core.Shaped) (hq : core.QueueFits)
    (b : Int × Int × Int × Int) : Widens core (core.enqueueGlobal b) (InRect b) := by
  unfold enqueueGlobal
  cases hr : core.repair with
  | none =>
    obtain ⟨hfit, hmono, hnear⟩ := hq.sweep.seedRect b
    refine ⟨rfl, ⟨hfit, ?_⟩, ?_, ?_⟩
    · intro r h
      cases h
    · rintro c ⟨hc, hqc⟩
      simp only [hr] at hqc
      exact ⟨hc, hmono c hqc⟩
    · intro n c hn hon hoc hnr
      have hmap := onMap_iff.mp hon
      exact ⟨hoc, hnear n c hn hmap.1 hmap.2 hnr⟩
  | some r =>
    obtain ⟨_, hshape⟩ := hs.repair r hr
    obtain ⟨hfit, hmono, hnear⟩ := (hq.repair r hr).enqueueAround hshape.tiles hshape.halo.2.1 b
    have hframe := r.frame_enqueueAround b
    simp only [Repair.frame, Prod.mk.injEq] at hframe
    obtain ⟨_, hint', _, htnx', _⟩ := hframe
    refine ⟨rfl, ⟨hq.sweep, ?_⟩, ?_, ?_⟩
    · intro r' h
      cases h
      exact hfit
    · rintro c ⟨hc, hqc⟩
      simp only [hr] at hqc
      refine ⟨hc, ?_⟩
      simp only [Repair.tileOf, hint', htnx']
      exact hmono _ hqc
    · intro n c hn hon hoc hnr
      have hmap := onMap_iff.mp hoc
      exact ⟨hoc, hnear n c hn hmap.1 hmap.2 hnr⟩

theorem widens_enqueueCell (hs : core.Shaped) (hq : core.QueueFits) (n : Cell) :
    Widens core (core.enqueueCell n) (· = n) :=
  (widens_enqueueGlobal hs hq _).weaken fun _ _ h => inRect_singleton.mpr h

theorem widens_enqueueCells (cs : List Cell) : ∀ {core : PlannerCore K}, core.Shaped →
    core.QueueFits → Widens core (core.enqueueCells cs) (· ∈ cs) := by
  induction cs with
  | nil => exact fun _ hq => (Widens.of_same hq rfl rfl rfl).weaken fun _ _ h => (by cases h)
  | cons c cs ih =>
    intro core hs hq
    have hone := widens_enqueueCell hs hq c
    refine (hone.trans (ih (hs.of_frame (frame_enqueueCell core c)) hone.fits)).weaken ?_
    exact fun n _ hn => List.mem_cons.mp hn

end PlannerCore

end ValueIteration
