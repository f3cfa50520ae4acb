import ValueIteration.Solvers.Frontier

/-!
# BlockRefine and PyramidSweep

The frontier is a set of square blocks; a marked block activates the passable blocks
within the displacement, and an active block is swept a few times. PyramidSweep
runs BlockRefine with shrinking blocks.
-/

set_option autoImplicit false

namespace ValueIteration

def ceilDiv (a b : Nat) : Nat := (a + b - 1) / b

namespace ValueIterator

variable (vi : ValueIterator)

def blockNumX (block : Nat) : Nat := ceilDiv vi.dims.nx block
def blockNumY (block : Nat) : Nat := ceilDiv vi.dims.ny block

def bidx (block bx by_ : Nat) : Nat := by_ * vi.blockNumX block + bx

/-- The block index of a state. -/
def blockOf (block : Nat) (p : Pos) : Nat :=
  vi.bidx block (p.ix.toNat / block) (p.iy.toNat / block)

/-- All blocks, row by row. -/
def blocks (block : Nat) : List (Nat × Nat) :=
  (List.range (vi.blockNumY block)).flatMap fun by_ =>
    (List.range (vi.blockNumX block)).map fun bx => (bx, by_)

/-- Boolean flags of the blocks that hold a state with a property. -/
def blockFlags (block : Nat) (sel : Pos → Bool) : List Bool :=
  (List.range (vi.blockNumX block * vi.blockNumY block)).map fun b =>
    vi.dims.all.any fun p => sel p && vi.blockOf block p == b

/-- `passable`: blocks with a free cell. -/
def passable (block : Nat) : List Bool := vi.blockFlags block fun p => (vi.stateAt p).free

/-- The states of one block, row by row. -/
def blockCells (block bx by_ : Nat) : List Pos :=
  (List.range' (by_ * block) (min ((by_ + 1) * block) vi.dims.ny - by_ * block)).flatMap fun iy =>
    (List.range' (bx * block) (min ((bx + 1) * block) vi.dims.nx - bx * block)).flatMap fun ix =>
      vi.column ix iy

/-- The schedule of `block_refine_sized`. The code spreads a marked block over its
neighbours; here a block looks for a marked neighbour. -/
def blockSchedule (block localSweeps : Nat) : Schedule (List Bool) (Nat × Nat) where
  isEmpty f := !f.any id
  groups f :=
    let rx := ceilDiv vi.mx block
    let ry := ceilDiv vi.my block
    let passable := vi.passable block
    let active := (vi.blocks block).filter fun j =>
      passable.getD (vi.bidx block j.1 j.2) false &&
        (vi.blocks block).any fun b => f.getD (vi.bidx block b.1 b.2) false &&
          decide (b.1 ≤ j.1 + rx) && decide (j.1 ≤ b.1 + rx) &&
          decide (b.2 ≤ j.2 + ry) && decide (j.2 ≤ b.2 + ry)
    some (active.map fun b =>
      (b, (List.replicate localSweeps (vi.blockCells block b.1 b.2)).flatten))
  mark ks :=
    (List.range (vi.blockNumX block * vi.blockNumY block)).map fun b =>
      ks.any fun k => vi.bidx block k.1 k.2 == b

def blockRefineSized (block localSweeps maxIter : Nat) (obs : SolveObserver) :
    Option InPlaceRun :=
  frontierLoop (vi.blockSchedule block localSweeps) obs maxIter
    (LoopState.start vi (vi.blockFlags block fun p => decide (vi.costs p < maxCost)) obs)

/-- `block_refine_solve_observed`: blocks of 8 cells, swept twice. -/
def blockRefine (maxIter : Nat) (obs : SolveObserver) : Option InPlaceRun :=
  vi.blockRefineSized 8 2 maxIter obs

end ValueIterator

/-- `OffsetObserver`: shifts the progress a later phase reports. -/
def SolveObserver.offset (obs : SolveObserver) (iters updates : Nat) : SolveObserver :=
  ⟨obs.interval, fun i u vi => obs.boundary (i + iters) (u + updates) vi⟩

/-- Block sizes from coarse to fine: what is larger than the finest block and smaller
than the map, then the finest. -/
def pyramidSizes (maxDim : Nat) : List Nat :=
  [64, 32, 16].filter (fun s => decide (8 < s) && decide (s < maxDim)) ++ [8]

/-- The level loop of `pyramid_sweep_solve_observed`; `done` holds what the finished
levels produced. Coarse levels get four iterations, the last one the rest. -/
def pyramidLevels (obs : SolveObserver) (maxIter : Nat) :
    List Nat → InPlaceRun → Option InPlaceRun
  | [], done => some done
  | block :: rest, done =>
    let o := done.outcome
    let budget := if rest.isEmpty then maxIter - o.iters else 4
    match done.vi.blockRefineSized block 2 budget (obs.offset o.iters o.updates) with
    | none => none
    | some r =>
      let iters := o.iters + r.outcome.iters
      let updates := o.updates + r.outcome.updates
      let total : InPlaceRun :=
        ⟨r.vi, { r.outcome with iters := iters, updates := updates },
          done.evals ++ r.evals, done.seen ++ r.seen⟩
      if r.outcome.stopped || r.outcome.cancelled then some total
      else if maxIter ≤ iters then
        some { total with outcome := .running iters updates r.outcome.converged }
      else pyramidLevels obs maxIter rest
        { total with outcome := .running iters updates r.outcome.converged }

/-- `pyramid_sweep_solve_observed`. -/
def ValueIterator.pyramidSweep (vi : ValueIterator) (maxIter : Nat) (obs : SolveObserver) :
    Option InPlaceRun :=
  pyramidLevels obs maxIter (pyramidSizes (max vi.dims.nx vi.dims.ny))
    ⟨vi, .running 0 0 false, [], []⟩

theorem div_le_div_add_ceilDiv {a b m k : Nat} (hk : 0 < k) (h : a ≤ b + m) :
    a / k ≤ b / k + ceilDiv m k := by
  have h1 : a / k * k ≤ a := Nat.div_mul_le_self a k
  have h2 : b < (b / k + 1) * k := by
    rw [Nat.mul_comm]; exact Nat.lt_mul_div_succ b hk
  have h3 : m ≤ ceilDiv m k * k := by
    have := Nat.lt_mul_div_succ (m + k - 1) hk
    rw [ceilDiv, Nat.mul_comm]
    have hexp : k * ((m + k - 1) / k + 1) = k * ((m + k - 1) / k) + k := by ring
    omega
  have h4 : a / k * k < (b / k + ceilDiv m k + 1) * k := by
    have hexp : (b / k + ceilDiv m k + 1) * k = (b / k + 1) * k + ceilDiv m k * k := by ring
    omega
  exact Nat.lt_succ_iff.mp (Nat.lt_of_mul_lt_mul_right h4)

theorem div_lt_ceilDiv {x n k : Nat} (hk : 0 < k) (h : x < n) : x / k < ceilDiv n k := by
  unfold ceilDiv
  rw [Nat.div_lt_iff_lt_mul hk]
  have := Nat.lt_mul_div_succ (n + k - 1) hk
  have hexp : k * ((n + k - 1) / k + 1) = (n + k - 1) / k * k + k := by ring
  omega

namespace ValueIterator

variable {vi : ValueIterator} {block localSweeps : Nat}

theorem mem_blocks {b : Nat × Nat} :
    b ∈ vi.blocks block ↔ b.1 < vi.blockNumX block ∧ b.2 < vi.blockNumY block := by
  obtain ⟨bx, by_⟩ := b
  simp only [blocks, List.mem_flatMap, List.mem_map, List.mem_range, Prod.mk.injEq]
  constructor
  · rintro ⟨y, hy, x, hx, rfl, rfl⟩
    exact ⟨hx, hy⟩
  · rintro ⟨hx, hy⟩
    exact ⟨by_, hy, bx, hx, rfl, rfl⟩

theorem mem_blockCells (hb : 0 < block) {bx by_ : Nat} {s : Pos} :
    s ∈ vi.blockCells block bx by_ ↔ vi.dims.Contains s ∧
      s.ix.toNat / block = bx ∧ s.iy.toNat / block = by_ := by
  have hdiv (x k : Nat) : x / block = k ↔ k * block ≤ x ∧ x < (k + 1) * block := by
    rw [Nat.div_eq_iff hb]
    have hexp : (k + 1) * block = k * block + block := by ring
    omega
  have hexp (k : Nat) : (k + 1) * block = k * block + block := by ring
  simp only [blockCells, List.mem_flatMap, List.mem_range'_1, mem_column, hdiv, Dims.Contains]
  constructor
  · rintro ⟨iy, hy, ix, hx, rfl', h2, h3⟩
    have h := hexp bx
    have h' := hexp by_
    omega
  · rintro ⟨⟨⟨h1, h2⟩, ⟨h3, h4⟩, h5⟩, h6, h7⟩
    have h := hexp bx
    have h' := hexp by_
    exact ⟨s.iy.toNat, by omega, s.ix.toNat, by omega, by omega, by omega, h5⟩

theorem bidx_lt {bx by_ : Nat} (hx : bx < vi.blockNumX block) (hy : by_ < vi.blockNumY block) :
    vi.bidx block bx by_ < vi.blockNumX block * vi.blockNumY block := by
  have h : (by_ + 1) * vi.blockNumX block ≤ vi.blockNumY block * vi.blockNumX block :=
    Nat.mul_le_mul_right _ (by omega)
  rw [Nat.add_mul, Nat.mul_comm (vi.blockNumY block)] at h
  unfold bidx
  omega

theorem blockOf_lt (hb : 0 < block) {p : Pos} (hp : vi.dims.Contains p) :
    p.ix.toNat / block < vi.blockNumX block ∧ p.iy.toNat / block < vi.blockNumY block := by
  obtain ⟨⟨_, hx⟩, ⟨_, hy⟩, _⟩ := hp
  exact ⟨div_lt_ceilDiv hb (by omega), div_lt_ceilDiv hb (by omega)⟩

/-- A frontier of blocks means the states of its blocks. -/
def BlockMarked (vi : ValueIterator) (block : Nat) (f : List Bool) (t : Pos) : Prop :=
  f.getD (vi.blockOf block t) false = true

theorem blockFlags_marked (hb : 0 < block) {sel : Pos → Bool} {p : Pos}
    (hp : vi.dims.Contains p) (hsel : sel p = true) :
    BlockMarked vi block (vi.blockFlags block sel) p := by
  have hlt := bidx_lt (blockOf_lt hb hp).1 (blockOf_lt hb hp).2
  simp only [BlockMarked, blockFlags, blockOf, List.getD_eq_getElem?_getD, List.getElem?_map,
    List.getElem?_range hlt, Option.map_some, Option.getD_some, List.any_eq_true,
    Bool.and_eq_true, beq_iff_eq]
  exact ⟨p, Dims.mem_all.mpr hp, hsel, rfl⟩

theorem blockGroups_elim (hb : 0 < block) {f : List Bool} {gs : List ((Nat × Nat) × List Pos)}
    (h : (vi.blockSchedule block localSweeps).groups f = some gs)
    {g : (Nat × Nat) × List Pos} (hg : g ∈ gs) :
    (g.1.1 < vi.blockNumX block ∧ g.1.2 < vi.blockNumY block) ∧
      ∀ s ∈ g.2, vi.dims.Contains s ∧ vi.blockOf block s = vi.bidx block g.1.1 g.1.2 := by
  cases h
  obtain ⟨b, hb', rfl⟩ := List.mem_map.mp hg
  refine ⟨mem_blocks.mp (List.mem_filter.mp hb').1, ?_⟩
  intro s hs
  obtain ⟨l, hl, hs⟩ := List.mem_flatten.mp hs
  rw [List.eq_of_mem_replicate hl] at hs
  obtain ⟨hcon, hx, hy⟩ := (mem_blockCells hb).mp hs
  exact ⟨hcon, by rw [blockOf, hx, hy]⟩

theorem block_lawful (hb : 0 < block) (hl : 0 < localSweeps) :
    (vi.blockSchedule block localSweeps).Lawful vi (fun _ => True) (BlockMarked vi block) where
  isEmpty_iff := by
    intro f t h hm
    have hany : f.any id = false := by simpa [blockSchedule] using h
    rw [BlockMarked, List.getD_eq_getElem?_getD] at hm
    cases hget : f[vi.blockOf block t]? with
    | none => rw [hget] at hm; cases hm
    | some b =>
      rw [hget] at hm
      have htrue : f.any id = true :=
        List.any_eq_true.mpr ⟨b, List.mem_of_getElem? hget, hm⟩
      rw [hany] at htrue
      cases htrue
  groups_legal f gs _ h g hg s hs := ((blockGroups_elim hb h hg).2 s hs).1
  groups_cover := by
    intro f gs _ h u hu howed
    cases h
    obtain ⟨t, hct, hm, hbox⟩ := owed_inBox hu howed
    obtain ⟨hcu, hfree, _⟩ := evaluable_iff.mp hu
    have hub := blockOf_lt hb hcu
    have htb := blockOf_lt hb hct
    have hpass : BlockMarked vi block (vi.passable block) u := blockFlags_marked hb hcu hfree
    have hbx := hbox.ix
    have hby := hbox.iy
    obtain ⟨⟨hux0, _⟩, ⟨huy0, _⟩, _⟩ := id hcu
    obtain ⟨⟨htx0, _⟩, ⟨hty0, _⟩, _⟩ := id hct
    rw [List.mem_flatMap]
    refine ⟨_, List.mem_map_of_mem (List.mem_filter.mpr
      ⟨(mem_blocks (b := (u.ix.toNat / block, u.iy.toNat / block))).mpr hub, ?_⟩), ?_⟩
    · rw [Bool.and_eq_true, List.any_eq_true]
      refine ⟨hpass, (t.ix.toNat / block, t.iy.toNat / block), mem_blocks.mpr htb, ?_⟩
      simp only [Bool.and_eq_true, decide_eq_true_eq]
      refine ⟨⟨⟨⟨hm, ?_⟩, ?_⟩, ?_⟩, ?_⟩
      all_goals exact div_le_div_add_ceilDiv hb (by omega)
    · rw [List.mem_flatten]
      refine ⟨_, List.mem_replicate.mpr ⟨by omega, rfl⟩, ?_⟩
      exact (mem_blockCells hb).mpr ⟨hcu, rfl, rfl⟩
  mark_wf _ _ _ _ _ _ := trivial
  mark_marked := by
    intro f gs ks _ h hks g hg hk t ht
    obtain ⟨hkey, hmem⟩ := blockGroups_elim hb h hg
    have hlt := bidx_lt hkey.1 hkey.2
    simp only [BlockMarked, (hmem t ht).2, blockSchedule, List.getD_eq_getElem?_getD,
      List.getElem?_map, List.getElem?_range hlt, Option.map_some, Option.getD_some,
      List.any_eq_true, beq_iff_eq]
    exact ⟨g.1, hk, rfl⟩

end ValueIterator

end ValueIteration
