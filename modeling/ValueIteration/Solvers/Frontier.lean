import ValueIteration.Solvers.InPlaceSound

/-!
# Frontier2D, Frontier3D and FrontierStack

Three schedules of the in-place loop. The first keeps a plane of active cells and
evaluates every heading of a candidate cell, the other two keep one plane a
heading. Each marks what moved and expands it by the displacement box.
-/

set_option autoImplicit false

namespace ValueIteration

namespace ValueIterator

variable (vi : ValueIterator)

/-- The states of one cell, heading by heading. -/
def column (ix iy : Nat) : List Pos :=
  (List.range vi.dims.nt).map fun (it : Nat) => ⟨ix, iy, it⟩

/-- States with `total_cost < MAX_COST`, in storage order. -/
def reached : List Pos := vi.dims.all.filter fun p => decide (vi.costs p < maxCost)

def seedFrontier2d : Bitboard2D :=
  Bitboard2D.ofCells vi.dims.nx vi.dims.ny (vi.reached.map fun p => (p.ix.toNat, p.iy.toNat))

def seedFrontier : Bitboard3D :=
  Bitboard3D.ofCells vi.dims.nx vi.dims.ny vi.dims.nt
    (vi.reached.map fun p => (p.ix.toNat, p.iy.toNat, p.it.toNat))

/-- The schedule of `frontier2d_solve_observed`. -/
def frontier2dSchedule : Schedule Bitboard2D (Nat × Nat) where
  isEmpty f := f.popcount == 0
  groups f := (f.dilate vi.mx vi.my).map fun cand =>
    cand.enumerate.map fun c => (c, vi.column c.1 c.2)
  mark := Bitboard2D.ofCells vi.dims.nx vi.dims.ny

/-- The schedule of `frontier3d_solve_observed`. -/
def frontier3dSchedule : Schedule Bitboard3D (Nat × Nat × Nat) where
  isEmpty f := f.popcount == 0
  groups f := (f.dilate vi.mx vi.my vi.mt).map fun cand =>
    cand.enumerate.map fun c => (c, [⟨c.1, c.2.1, c.2.2⟩])
  mark := Bitboard3D.ofCells vi.dims.nx vi.dims.ny vi.dims.nt

/-- The schedule of `frontier_stack_solve_observed`: planar dilation of every layer,
then the merge of the layers within `mt` headings. -/
def frontierStackSchedule : Schedule Bitboard3D (Nat × Nat × Nat) where
  isEmpty f := f.popcount == 0
  groups f := (List.mapM (fun b : Bitboard2D => b.dilate vi.mx vi.my) f).map fun dilated =>
    (List.range vi.dims.nt).flatMap fun it =>
      (thetaMerge dilated vi.mt it).enumerate.map fun c => ((c.1, c.2, it), [⟨c.1, c.2, it⟩])
  mark := Bitboard3D.ofCells vi.dims.nx vi.dims.ny vi.dims.nt

/-- `frontier2d_solve_observed`; `none` is the dilation's panic. -/
def frontier2d (maxIter : Nat) (obs : SolveObserver) : Option InPlaceRun :=
  frontierLoop vi.frontier2dSchedule obs maxIter (LoopState.start vi vi.seedFrontier2d obs)

def frontier3d (maxIter : Nat) (obs : SolveObserver) : Option InPlaceRun :=
  frontierLoop vi.frontier3dSchedule obs maxIter (LoopState.start vi vi.seedFrontier obs)

def frontierStack (maxIter : Nat) (obs : SolveObserver) : Option InPlaceRun :=
  frontierLoop vi.frontierStackSchedule obs maxIter (LoopState.start vi vi.seedFrontier obs)

variable {vi}

theorem mem_reached {p : Pos} :
    p ∈ vi.reached ↔ vi.dims.Contains p ∧ vi.costs p < maxCost := by
  simp only [reached, List.mem_filter, Dims.mem_all, decide_eq_true_eq]

theorem mem_column {ix iy : Nat} {s : Pos} :
    s ∈ vi.column ix iy ↔ s.ix = ix ∧ s.iy = iy ∧ 0 ≤ s.it ∧ s.it < vi.dims.nt := by
  obtain ⟨x, y, t⟩ := s
  simp only [column, List.mem_map, List.mem_range, Pos.mk.injEq]
  constructor
  · rintro ⟨it, hit, rfl, rfl, rfl⟩
    exact ⟨rfl, rfl, by omega, by omega⟩
  · rintro ⟨rfl, rfl, h0, h1⟩
    exact ⟨t.toNat, by omega, rfl, rfl, by omega⟩

theorem eq_toNat {u : Pos} (hu : vi.dims.Contains u) :
    u = ⟨u.ix.toNat, u.iy.toNat, u.it.toNat⟩ := by
  obtain ⟨ux, uy, ut⟩ := u
  obtain ⟨⟨hx, _⟩, ⟨hy, _⟩, ht, _⟩ := hu
  simp only at hx hy ht
  simp only [Pos.mk.injEq]
  omega

/-- Both ends of an owed pair: the reader lies in the box around what moved. -/
theorem owed_inBox {moved : Set Pos} {u : Pos} (hu : vi.world.evaluable u = true)
    (h : ActiveSet.Owed vi.world.Reads {t | vi.dims.Contains t ∧ t ∈ moved} u) :
    ∃ t, vi.dims.Contains t ∧ t ∈ moved ∧ vi.InBox u t := by
  have hcu := (evaluable_iff.mp hu).1
  obtain ⟨t, ⟨hct, ht⟩, hr | rfl⟩ := h
  · exact ⟨t, hct, ht, (reads_inBox hcu hr).2⟩
  · exact ⟨u, hct, ht, inBox_self hcu⟩

/-- A planar frontier of the map's size. -/
def Planar (vi : ValueIterator) (f : Bitboard2D) : Prop :=
  f.Sized ∧ f.mapX = vi.dims.nx ∧ f.mapY = vi.dims.ny

def PlanarMarked (f : Bitboard2D) (t : Pos) : Prop := f.Mem t.ix.toNat t.iy.toNat

theorem planar_ofCells {cells : List (Nat × Nat)}
    (h : ∀ c ∈ cells, c.1 < vi.dims.nx ∧ c.2 < vi.dims.ny) :
    Planar vi (Bitboard2D.ofCells vi.dims.nx vi.dims.ny cells) :=
  Bitboard2D.dims_ofCells h

theorem Planar.mem_dilate_of_inBox {f cand : Bitboard2D} (hf : Planar vi f) {dx dy : Nat}
    (hdx : vi.mx ≤ dx) (hdy : vi.my ≤ dy) (h : f.dilate dx dy = some cand) {u t : Pos}
    (hu : vi.dims.Contains u) (ht : vi.dims.Contains t) (hm : PlanarMarked f t)
    (hbox : vi.InBox u t) : (u.ix.toNat, u.iy.toNat) ∈ cand.enumerate := by
  obtain ⟨_, hx, hy⟩ := hf
  obtain ⟨_, hcx, hcy⟩ := Bitboard2D.dilate_dims h
  obtain ⟨⟨hux0, hux⟩, ⟨huy0, huy⟩, _⟩ := hu
  obtain ⟨⟨htx0, htx⟩, ⟨hty0, hty⟩, _⟩ := ht
  have hbx := hbox.ix
  have hby := hbox.iy
  rw [Bitboard2D.mem_enumerate]
  refine ⟨by omega, by omega, ?_⟩
  rw [Bitboard2D.mem_dilate h (by omega) (by omega)]
  exact ⟨t.ix.toNat, t.iy.toNat, div_lt_wordsPerRow (by omega), by omega, hm,
    ⟨by omega, by omega⟩, by omega, by omega⟩

theorem frontier2d_key {f : Bitboard2D} {gs : List ((Nat × Nat) × List Pos)}
    (hf : Planar vi f) (h : vi.frontier2dSchedule.groups f = some gs)
    {g : (Nat × Nat) × List Pos} (hg : g ∈ gs) : g.1.1 < vi.dims.nx ∧ g.1.2 < vi.dims.ny := by
  obtain ⟨cand, hc, rfl⟩ := Option.map_eq_some_iff.mp h
  obtain ⟨c, hc', rfl⟩ := List.mem_map.mp hg
  obtain ⟨h1, h2, _⟩ := Bitboard2D.mem_enumerate.mp hc'
  obtain ⟨_, hcx, hcy⟩ := Bitboard2D.dilate_dims hc
  exact ⟨by rw [hcx, hf.2.1] at h1; exact h1, by rw [hcy, hf.2.2] at h2; exact h2⟩

theorem frontier2d_lawful :
    vi.frontier2dSchedule.Lawful vi (Planar vi) PlanarMarked where
  isEmpty_iff := by
    intro f t h
    exact Bitboard2D.not_mem_of_popcount (by simpa [frontier2dSchedule] using h)
  groups_legal := by
    intro f gs hf h g hg s hs
    obtain ⟨h1, h2⟩ := frontier2d_key hf h hg
    obtain ⟨cand, hc, rfl⟩ := Option.map_eq_some_iff.mp h
    obtain ⟨c, hc', rfl⟩ := List.mem_map.mp hg
    obtain ⟨hx, hy, ht⟩ := mem_column.mp hs
    simp only at h1 h2
    exact ⟨by omega, by omega, ht⟩
  groups_cover := by
    intro f gs hf h u hu howed
    obtain ⟨cand, hc, rfl⟩ := Option.map_eq_some_iff.mp h
    obtain ⟨t, hct, hm, hbox⟩ := owed_inBox hu howed
    have hcu := (evaluable_iff.mp hu).1
    have hmem := hf.mem_dilate_of_inBox (le_refl _) (le_refl _) hc hcu hct hm hbox
    rw [List.mem_flatMap]
    refine ⟨_, List.mem_map_of_mem hmem, mem_column.mpr ?_⟩
    obtain ⟨⟨h1, _⟩, ⟨h2, _⟩, h3⟩ := hcu
    exact ⟨by omega, by omega, h3⟩
  mark_wf := by
    intro f gs ks hf h hks
    refine planar_ofCells ?_
    intro k hk
    obtain ⟨g, hg, rfl⟩ := hks k hk
    exact frontier2d_key hf h hg
  mark_marked := by
    intro f gs ks hf h hks g hg hk t ht
    have hin : ∀ k ∈ ks, k.1 < vi.dims.nx ∧ k.2 < vi.dims.ny := by
      intro k hk
      obtain ⟨g, hg, rfl⟩ := hks k hk
      exact frontier2d_key hf h hg
    obtain ⟨cand, hc, rfl⟩ := Option.map_eq_some_iff.mp h
    obtain ⟨c, hc', rfl⟩ := List.mem_map.mp hg
    obtain ⟨hx, hy, _⟩ := mem_column.mp ht
    simp only [PlanarMarked, hx, hy, Int.toNat_natCast]
    exact (Bitboard2D.mem_ofCells hin (hin _ hk).1).mpr hk

/-- A layered frontier of the map's size. -/
def Layered (vi : ValueIterator) (f : Bitboard3D) : Prop :=
  f.Sized vi.dims.nx vi.dims.ny vi.dims.nt

def LayeredMarked (f : Bitboard3D) (t : Pos) : Prop := f.Mem t.ix.toNat t.iy.toNat t.it.toNat

theorem frontier3d_key {f : Bitboard3D} {gs : List ((Nat × Nat × Nat) × List Pos)}
    (hf : Layered vi f) (h : vi.frontier3dSchedule.groups f = some gs)
    {g : (Nat × Nat × Nat) × List Pos} (hg : g ∈ gs) : g.2 = [⟨g.1.1, g.1.2.1, g.1.2.2⟩] ∧
      g.1.1 < vi.dims.nx ∧ g.1.2.1 < vi.dims.ny ∧ g.1.2.2 < vi.dims.nt := by
  obtain ⟨cand, hc, rfl⟩ := Option.map_eq_some_iff.mp h
  obtain ⟨c, hc', rfl⟩ := List.mem_map.mp hg
  obtain ⟨h1, h2, h3, _⟩ := (Bitboard3D.mem_enumerate (Bitboard3D.mem_dilate hf hc).1).mp hc'
  exact ⟨rfl, h1, h2, h3⟩

theorem frontier3d_lawful :
    vi.frontier3dSchedule.Lawful vi (Layered vi) LayeredMarked where
  isEmpty_iff := by
    intro f t h
    exact Bitboard3D.not_mem_of_popcount (by simpa [frontier3dSchedule] using h)
  groups_legal := by
    intro f gs hf h g hg s hs
    obtain ⟨heq, h1, h2, h3⟩ := frontier3d_key hf h hg
    rw [heq, List.mem_singleton] at hs
    subst hs
    simp only [Dims.Contains]
    omega
  groups_cover := by
    intro f gs hf h u hu howed
    obtain ⟨cand, hc, rfl⟩ := Option.map_eq_some_iff.mp h
    obtain ⟨t, hct, hm, hbox⟩ := owed_inBox hu howed
    have hcu := (evaluable_iff.mp hu).1
    obtain ⟨hsz, hmem⟩ := Bitboard3D.mem_dilate hf hc
    obtain ⟨⟨hux0, hux⟩, ⟨huy0, huy⟩, hut0, hut⟩ := id hcu
    obtain ⟨⟨htx0, htx⟩, ⟨hty0, hty⟩, htt0, htt⟩ := hct
    have hbx := hbox.ix
    have hby := hbox.iy
    have hcand : (u.ix.toNat, u.iy.toNat, u.it.toNat) ∈ cand.enumerate := by
      rw [Bitboard3D.mem_enumerate hsz]
      refine ⟨by omega, by omega, by omega, ?_⟩
      rw [hmem _ _ _ (by omega) (by omega) (by omega)]
      exact ⟨t.ix.toNat, t.iy.toNat, t.it.toNat, div_lt_wordsPerRow (by omega), by omega,
        hbox.it, hm, ⟨by omega, by omega⟩, by omega, by omega⟩
    rw [List.mem_flatMap]
    refine ⟨_, List.mem_map_of_mem hcand, List.mem_singleton.mpr ?_⟩
    exact eq_toNat hcu
  mark_wf := by
    intro f gs ks hf h hks
    refine (Bitboard3D.ofCells_spec ?_).1
    intro k hk
    obtain ⟨g, hg, rfl⟩ := hks k hk
    exact (frontier3d_key hf h hg).2
  mark_marked := by
    intro f gs ks hf h hks g hg hk t ht
    have hin : ∀ k ∈ ks, k.1 < vi.dims.nx ∧ k.2.1 < vi.dims.ny ∧ k.2.2 < vi.dims.nt := by
      intro k hk
      obtain ⟨g, hg, rfl⟩ := hks k hk
      exact (frontier3d_key hf h hg).2
    rw [(frontier3d_key hf h hg).1, List.mem_singleton] at ht
    subst ht
    simp only [LayeredMarked, Int.toNat_natCast]
    exact ((Bitboard3D.ofCells_spec hin).2 _ _ _ (hin _ hk).1).mpr hk

/-- The stack's own expansion visits the same states in the same order. -/
theorem frontierStack_groups {f : Bitboard3D} (hf : Layered vi f) :
    vi.frontierStackSchedule.groups f = vi.frontier3dSchedule.groups f := by
  simp only [frontierStackSchedule, frontier3dSchedule, Bitboard3D.dilate, Option.map_map]
  cases htemp : List.mapM (fun b : Bitboard2D => b.dilate vi.mx vi.my) f with
  | none => rfl
  | some temp =>
    have hlen : temp.length = vi.dims.nt :=
      (Bitboard3D.mapM_dilate_spec htemp).1.trans hf.length_eq
    simp only [Option.map_some, Option.some.injEq, Function.comp, Bitboard3D.enumerate,
      List.length_map, List.length_range, List.map_flatMap, hlen, List.map_map]
    refine List.flatMap_congr ?_
    intro it hit
    have hlt := List.mem_range.mp hit
    simp [Bitboard3D.layer, List.getD_eq_getElem?_getD, hlt]

theorem frontierStack_lawful :
    vi.frontierStackSchedule.Lawful vi (Layered vi) LayeredMarked where
  isEmpty_iff f t h := (@frontier3d_lawful vi).isEmpty_iff f t h
  groups_legal f gs hf h :=
    frontier3d_lawful.groups_legal f gs hf (by rw [← frontierStack_groups hf]; exact h)
  groups_cover f gs hf h :=
    frontier3d_lawful.groups_cover f gs hf (by rw [← frontierStack_groups hf]; exact h)
  mark_wf f gs ks hf h :=
    frontier3d_lawful.mark_wf f gs ks hf (by rw [← frontierStack_groups hf]; exact h)
  mark_marked f gs ks hf h :=
    frontier3d_lawful.mark_marked f gs ks hf (by rw [← frontierStack_groups hf]; exact h)

theorem seedFrontier2d_spec : Planar vi vi.seedFrontier2d ∧
    ∀ t, vi.dims.Contains t → vi.costs t < maxCost → PlanarMarked vi.seedFrontier2d t := by
  have hin : ∀ c ∈ vi.reached.map fun p => (p.ix.toNat, p.iy.toNat),
      c.1 < vi.dims.nx ∧ c.2 < vi.dims.ny := by
    intro c hc
    obtain ⟨p, hp, rfl⟩ := List.mem_map.mp hc
    obtain ⟨⟨hx, hy, _⟩, _⟩ := mem_reached.mp hp
    simp only
    omega
  refine ⟨planar_ofCells hin, ?_⟩
  intro t ht hlt
  have hmem := List.mem_map_of_mem (f := fun p : Pos => (p.ix.toNat, p.iy.toNat))
    (mem_reached.mpr ⟨ht, hlt⟩)
  exact (Bitboard2D.mem_ofCells hin (hin _ hmem).1).mpr hmem

theorem seedFrontier_spec : Layered vi vi.seedFrontier ∧
    ∀ t, vi.dims.Contains t → vi.costs t < maxCost → LayeredMarked vi.seedFrontier t := by
  have hin : ∀ c ∈ vi.reached.map fun p => (p.ix.toNat, p.iy.toNat, p.it.toNat),
      c.1 < vi.dims.nx ∧ c.2.1 < vi.dims.ny ∧ c.2.2 < vi.dims.nt := by
    intro c hc
    obtain ⟨p, hp, rfl⟩ := List.mem_map.mp hc
    obtain ⟨⟨hx, hy, ht⟩, _⟩ := mem_reached.mp hp
    simp only
    omega
  obtain ⟨hsz, hmem⟩ := Bitboard3D.ofCells_spec hin
  refine ⟨hsz, ?_⟩
  intro t ht hlt
  have ht' := List.mem_map_of_mem (f := fun p : Pos => (p.ix.toNat, p.iy.toNat, p.it.toNat))
    (mem_reached.mpr ⟨ht, hlt⟩)
  exact (hmem _ _ _ (hin _ ht').1).mpr ht'

end ValueIterator

end ValueIteration
