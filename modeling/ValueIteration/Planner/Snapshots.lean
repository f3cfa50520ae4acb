import ValueIteration.Planner.Legal

/-!
# The snapshots of the jobs

A job that is checked out works on columns of the map, each once, and its snapshot
holds whatever the transitions from these columns can reach.
-/

set_option autoImplicit false
set_option linter.unusedSectionVars false

namespace ValueIteration

namespace BuildParams

variable {K : Type} (build : BuildParams K)

def OnMap (g : Cell) : Prop :=
  (0 ≤ g.1 ∧ g.1 < build.grid.width) ∧ 0 ≤ g.2 ∧ g.2 < build.grid.height

abbrev reach : Nat := transitionReach build.actions

end BuildParams

/-- A rectangle of states from the corner `origin` on, for updates of `cells`. -/
structure Covers {K : Type} (build : BuildParams K) (vi : ValueIterator) (origin : Cell)
    (cells : List Cell) : Prop where
  actions : vi.actions = build.actions
  headings : vi.dims.nt = build.thetaCellNum
  inside : ∀ c ∈ cells, vi.inMapArea c.1 c.2 = true
  onMap : ∀ c ∈ cells, build.OnMap (c.1 + origin.1, c.2 + origin.2)
  nodup : cells.Nodup
  halo : ∀ c ∈ cells, ∀ n : Cell, build.OnMap n →
    Near build.reach n (c.1 + origin.1, c.2 + origin.2) →
      vi.inMapArea (n.1 - origin.1) (n.2 - origin.2) = true

theorem inMapArea_of_dims {vi vi' : ValueIterator} (h : vi'.dims = vi.dims) :
    vi'.inMapArea = vi.inMapArea := by
  funext x y
  unfold ValueIterator.inMapArea
  rw [h]

namespace Covers

variable {K : Type} {build : BuildParams K} {vi vi' : ValueIterator} {origin : Cell}
  {cells cells' : List Cell}

theorem of_table (h : Covers build vi origin cells) (ht : vi'.table = vi.table) :
    Covers build vi' origin cells := by
  simp only [ValueIterator.table, Prod.mk.injEq] at ht
  have harea := inMapArea_of_dims ht.1
  exact ⟨ht.2.trans h.actions, by rw [ht.1]; exact h.headings, by rw [harea]; exact h.inside,
    h.onMap, h.nodup, by rw [harea]; exact h.halo⟩

theorem of_sublist (h : Covers build vi origin cells) (hs : cells'.Sublist cells) :
    Covers build vi origin cells' :=
  ⟨h.actions, h.headings, fun c hc => h.inside c (hs.subset hc),
    fun c hc => h.onMap c (hs.subset hc), hs.nodup h.nodup, fun c hc => h.halo c (hs.subset hc)⟩

theorem of_perm (h : Covers build vi origin cells) (hp : cells'.Perm cells) :
    Covers build vi origin cells' :=
  ⟨h.actions, h.headings, fun c hc => h.inside c (hp.mem_iff.mp hc),
    fun c hc => h.onMap c (hp.mem_iff.mp hc), hp.nodup_iff.mpr h.nodup,
    fun c hc => h.halo c (hp.mem_iff.mp hc)⟩

end Covers

namespace GlobalJob

/-- A global job as `prepare_global_job` hands it out, run or not. -/
structure Legal {K : Type} (build : BuildParams K) (job : GlobalJob) : Prop where
  covers : Covers build job.vi job.origin job.cells
  before : job.before.dims = job.vi.dims

variable {job : GlobalJob}

theorem perm_runOrder (job : GlobalJob) : job.runOrder.Perm job.cells := by
  unfold runOrder
  split
  · exact List.perm_insertionSort _ _
  · exact List.Perm.refl _

theorem perm_run (job : GlobalJob) : job.run.cells.Perm job.cells := by
  unfold run
  split
  · exact List.Perm.refl _
  · split
    · exact (List.reverse_perm _).trans job.perm_runOrder
    · exact job.perm_runOrder

theorem table_run (job : GlobalJob) : job.run.vi.table = job.vi.table := by
  have hfirst : job.firstPass.1.table = job.vi.table := ValueIterator.table_passOver _ _ _
  unfold run
  split
  · rfl
  · split
    · exact (ValueIterator.table_passOver _ _ _).trans hfirst
    · exact hfirst

/-- What a run leaves alone. -/
theorem run_fixed (job : GlobalJob) : job.run.epoch = job.epoch ∧ job.run.id = job.id ∧
    job.run.before = job.before ∧ job.run.origin = job.origin ∧
    job.run.compact = job.compact ∧ job.run.ran = true := by
  unfold run
  split
  · next h => exact ⟨rfl, rfl, rfl, rfl, rfl, h⟩
  · split <;> exact ⟨rfl, rfl, rfl, rfl, rfl, rfl⟩

theorem Legal.run {K : Type} {build : BuildParams K} (h : job.Legal build) :
    job.run.Legal build := by
  obtain ⟨_, _, hbefore, horigin, _⟩ := run_fixed job
  have htab := table_run job
  refine ⟨?_, ?_⟩
  · rw [horigin]
    exact (h.covers.of_table htab).of_perm (perm_run job)
  · rw [hbefore, h.before]
    exact (congrArg Prod.fst htab).symm

end GlobalJob

namespace LocalJob

/-- A local job covers the part of the base around its cells. -/
structure Legal {K : Type} (build : BuildParams K) (job : LocalJob) : Prop where
  actions : job.vi.actions = build.actions
  headings : job.vi.dims.nt = build.thetaCellNum
  inside : ∀ c ∈ job.cells, job.vi.inMapArea c.1 c.2 = true
  nodup : job.cells.Nodup

/-- What a run leaves alone. -/
theorem run_fixed (job : LocalJob) (threads : Nat) :
    (job.runParallel threads).epoch = job.epoch ∧ (job.runParallel threads).owner = job.owner ∧
    (job.runParallel threads).id = job.id ∧
    (job.runParallel threads).revision = job.revision ∧
    (job.runParallel threads).boundaryRevision = job.boundaryRevision ∧
    (job.runParallel threads).origin = job.origin ∧
    (job.runParallel threads).cells = job.cells ∧
    (job.runParallel threads).vi.table = job.vi.table := by
  unfold runParallel
  split
  · exact ⟨rfl, rfl, rfl, rfl, rfl, rfl, rfl, rfl⟩
  · next hran =>
    split
    · unfold LocalJob.run
      rw [if_neg hran]
      exact ⟨rfl, rfl, rfl, rfl, rfl, rfl, rfl, ValueIterator.table_passOver _ _ _⟩
    · exact ⟨rfl, rfl, rfl, rfl, rfl, rfl, rfl, foldl_keeps
        (fun r : ValueIterator × Nat => r.1.table) (f := joinUpdate) (fun _ _ => rfl) _
          (job.vi, job.delta)⟩

theorem Legal.run {K : Type} {build : BuildParams K} {job : LocalJob} (h : job.Legal build)
    (threads : Nat) : (job.runParallel threads).Legal build := by
  obtain ⟨_, _, _, _, _, _, hcells, htab⟩ := run_fixed job threads
  simp only [ValueIterator.table, Prod.mk.injEq] at htab
  refine ⟨htab.2.trans h.actions, by rw [htab.1]; exact h.headings, ?_, by rw [hcells]; exact h.nodup⟩
  rw [hcells, inMapArea_of_dims htab.1]
  exact h.inside

end LocalJob

namespace PlannerCore

variable {K : Type} [Field K] [LinearOrder K] [FloorRing K] {core : PlannerCore K}

theorem inMapArea_of {vi : ValueIterator} {x y : Int} (hx : 0 ≤ x ∧ x < vi.dims.nx)
    (hy : 0 ≤ y ∧ y < vi.dims.ny) : vi.inMapArea x y = true :=
  ValueIterator.inMapArea_iff.mpr ⟨hx.1, hx.2, hy.1, hy.2⟩

/-- The candidates of a draft and the rectangle around them. -/
def Draft.Legal (build : BuildParams K) (d : Draft) : Prop :=
  Covers build d.vi d.origin
    (d.candidates.map fun c => ((c.1 - d.origin.1, c.2 - d.origin.2) : Cell))

theorem nodup_span (a b : Int) : (span a b).Nodup := by
  unfold span
  refine List.Nodup.map ?_ List.nodup_range
  intro i j h
  have : a + (i : Int) = a + (j : Int) := h
  omega

theorem nodup_rect (x0 x1 y0 y1 : Int) :
    ((span y0 y1).flatMap fun y => (span x0 x1).map fun x => ((x, y) : Cell)).Nodup := by
  refine List.nodup_flatMap.mpr ⟨?_, ?_⟩
  · intro y _
    refine List.Nodup.map ?_ (nodup_span _ _)
    intro a b h
    exact congrArg Prod.fst h
  · refine (nodup_span _ _).imp ?_
    intro y y' hne c hc hc'
    obtain ⟨x, _, rfl⟩ := List.mem_map.mp hc
    obtain ⟨x', _, h⟩ := List.mem_map.mp hc'
    exact hne (congrArg Prod.snd h).symm

theorem mem_rect {x0 x1 y0 y1 : Int} {c : Cell} :
    c ∈ ((span y0 y1).flatMap fun y => (span x0 x1).map fun x => ((x, y) : Cell)) ↔
      InRect (x0, x1, y0, y1) c := by
  obtain ⟨x, y⟩ := c
  simp only [List.mem_flatMap, List.mem_map, mem_span, Prod.mk.injEq, InRect]
  constructor
  · rintro ⟨y', hy, x', hx, rfl, rfl⟩
    exact ⟨hx, hy⟩
  · exact fun h => ⟨y, h.2, x, h.1, rfl, rfl⟩

/-- A rectangle that holds all that is read from `b` covers the cells in `b`. -/
theorem covers_rect {build : BuildParams K} {vi : ValueIterator} {origin : Cell}
    {cands : List Cell} {b : Int × Int × Int × Int} (ha : vi.actions = build.actions)
    (hnt : vi.dims.nt = build.thetaCellNum) (hnodup : cands.Nodup)
    (hin : ∀ c ∈ cands, InRect b c ∧ build.OnMap c)
    (hrect : ∀ n, build.OnMap n → InRect (b.1 - build.reach, b.2.1 + build.reach,
      b.2.2.1 - build.reach, b.2.2.2 + build.reach) n →
        vi.inMapArea (n.1 - origin.1) (n.2 - origin.2) = true) :
    Covers build vi origin (cands.map fun c => ((c.1 - origin.1, c.2 - origin.2) : Cell)) := by
  have hback : ∀ g : Cell, ((g.1 - origin.1 + origin.1, g.2 - origin.2 + origin.2) : Cell) = g := by
    intro g
    obtain ⟨x, y⟩ := g
    simp
  refine ⟨ha, hnt, ?_, ?_, ?_, ?_⟩
  · intro c hc
    obtain ⟨g, hg, rfl⟩ := List.mem_map.mp hc
    obtain ⟨hb, hon⟩ := hin g hg
    apply hrect g hon
    simp only [InRect] at hb ⊢
    omega
  · intro c hc
    obtain ⟨g, hg, rfl⟩ := List.mem_map.mp hc
    rw [hback]
    exact (hin g hg).2
  · refine hnodup.map ?_
    intro x y hxy
    rw [← hback x, ← hback y]
    simp only [Prod.mk.injEq] at hxy ⊢
    omega
  · intro c hc n hn hnear
    obtain ⟨g, hg, rfl⟩ := List.mem_map.mp hc
    rw [hback] at hnear
    apply hrect n hn
    have hb := (hin g hg).1
    simp only [InRect, Near] at hb hnear ⊢
    omega

theorem Draft.legal_tile (hs : core.Shaped) {d : Draft} (h : core.draftTile.2 = some d) :
    Draft.Legal core.build d := by
  unfold draftTile at h
  split at h
  · cases h
  · next r hr =>
    split at h
    · cases h
    · next t queue hq =>
      simp only at h
      split at h
      · next f part hc =>
        cases h
        obtain ⟨_, hshape⟩ := hs.repair r hr
        obtain ⟨_, hdims⟩ := hs.compact f part hc
        obtain ⟨hpos, hreach, hint⟩ := hshape.halo
        have hreach' : (core.build.reach : Int) ≤ r.halo := hreach
        obtain ⟨hd, ha⟩ := hshape.table
        have hx0 : 0 ≤ (t : Int) % r.tnx * r.interior :=
          mul_nonneg (Int.emod_nonneg _ (by have := hshape.tilesX.1; omega)) (by omega)
        have hy0 : 0 ≤ (t : Int) / r.tnx * r.interior :=
          mul_nonneg (Int.ediv_nonneg (by omega) hshape.tilesX.1.le) (by omega)
        have hnx : f.sink.dims.nx = core.build.grid.width := by rw [hdims]; rfl
        have hny : f.sink.dims.ny = core.build.grid.height := by rw [hdims]; rfl
        refine covers_rect ha (congrArg Dims.nt hd) (nodup_rect _ _ _ _)
          (b := r.interiorOf t f.sink.dims.nx f.sink.dims.ny) ?_ ?_
        · intro c hc
          have hin := mem_rect.mp hc
          refine ⟨hin, ?_⟩
          simp only [Repair.interiorOf, hnx, hny, InRect] at hin
          simp only [BuildParams.OnMap]
          omega
        · intro n _ hn
          have hsx : r.vi.dims.nx = (r.interior + 2 * r.halo).toNat := by rw [hd]
          have hsy : r.vi.dims.ny = (r.interior + 2 * r.halo).toNat := by rw [hd]
          simp only [Repair.interiorOf, InRect] at hn ⊢
          change r.vi.inMapArea _ _ = true
          apply inMapArea_of
          · rw [hsx]
            omega
          · rw [hsy]
            omega
      · cases h

theorem takeBatch_spec (budget : Nat) : ∀ (cands : List (Nat × Nat)) (b : Int × Int × Int × Int),
    let r := takeBatch budget cands b
    r.1 = (cands.take r.1.length).map (fun p => ((p.1 : Int), (p.2 : Int))) ∧
      (∀ c, InRect b c → InRect r.2 c) ∧ ∀ c ∈ r.1, InRect r.2 c := by
  induction budget with
  | zero => exact fun cands b => ⟨rfl, fun _ h => h, nofun⟩
  | succ budget ih =>
    intro cands b
    cases cands with
    | nil => exact ⟨rfl, fun _ h => h, nofun⟩
    | cons c cands =>
      unfold takeBatch
      simp only
      split
      · exact ⟨rfl, fun _ h => h, nofun⟩
      · obtain ⟨h1, h2, h3⟩ := ih cands (extendBox b ((c.1 : Int), (c.2 : Int)))
        refine ⟨?_, ?_, ?_⟩
        · rw [List.length_cons, List.take_succ_cons, List.map_cons, ← h1]
        · intro g hg
          apply h2
          simp only [extendBox, InRect] at hg ⊢
          omega
        · intro g hg
          cases List.mem_cons.mp hg with
          | inl heq =>
            subst heq
            apply h2
            simp only [extendBox, InRect]
            omega
          | inr hg => exact h3 g hg

theorem Draft.legal_batch (hs : core.Shaped) (hq : core.QueueFits) {maxStates : Nat}
    {r : PlannerCore K × Option Draft} (h : core.draftBatch maxStates = some r) {d : Draft}
    (hd : r.2 = some d) : Draft.Legal core.build d := by
  unfold draftBatch at h
  split at h
  · next l part hc =>
    obtain ⟨swr, hreach, h⟩ := Option.bind_eq_some_iff.mp h
    obtain ⟨sw, hfill, h⟩ := Option.map_eq_some_iff.mp h
    obtain ⟨hdims, hact⟩ := (hs.dense l part hc).2
    rw [hact] at hreach
    obtain ⟨hfit, hr, _⟩ := hq.sweep.withReach hreach
    rw [hr] at hfill
    obtain ⟨hfit', _⟩ := hfit.refill hfill
    have hnx : l.base.dims.nx = core.build.grid.width := by rw [hdims]; rfl
    have hny : l.base.dims.ny = core.build.grid.height := by rw [hdims]; rfl
    have hnt : l.base.dims.nt = core.build.thetaCellNum := by rw [hdims]; rfl
    split at h
    · rw [← h] at hd
      cases hd
    · next c cands hdrop =>
      rw [← h] at hd
      cases hd
      obtain ⟨htake, _, hbox⟩ := takeBatch_spec (max (maxStates / max l.base.dims.nt 1) 1)
        (c :: cands) ((c.1 : Int), (c.1 : Int), (c.2 : Int), (c.2 : Int))
      generalize takeBatch (max (maxStates / max l.base.dims.nt 1) 1) (c :: cands)
        ((c.1 : Int), (c.1 : Int), (c.2 : Int), (c.2 : Int)) = batch at htake hbox ⊢
      have hsub : ∀ p ∈ (c :: cands).take batch.1.length, p ∈ sw.cands := fun p hp =>
        List.mem_of_mem_drop (hdrop ▸ List.mem_of_mem_take hp)
      have hinj : Function.Injective fun p : Nat × Nat => (((p.1 : Int), (p.2 : Int)) : Cell) := by
        intro p q hpq
        simp only [Prod.mk.injEq] at hpq
        exact Prod.ext (by omega) (by omega)
      refine covers_rect hact hnt ?_ ?_ ?_ (b := batch.2)
      · rw [htake]
        refine List.Nodup.map hinj (List.Sublist.nodup (List.take_sublist _ _) ?_)
        rw [← hdrop]
        exact List.Sublist.nodup (List.drop_sublist _ _) hfit'.nodup
      · intro g hg
        refine ⟨hbox g hg, ?_⟩
        rw [htake] at hg
        obtain ⟨p, hp, rfl⟩ := List.mem_map.mp hg
        have hlt := hfit'.cands p (hsub p hp)
        simp only [BuildParams.OnMap]
        omega
      · intro n hn hin
        have hreach' : (swr.2 : Int) = core.build.reach := by rw [hr]
        simp only [BuildParams.OnMap, InRect] at hn hin
        apply inMapArea_of
        · simp only [ValueIterator.dims, ValueIterator.cut, Grid.dims_ofFn, hreach']
          simp only [ValueIterator.dims] at hnx hny
          omega
        · simp only [ValueIterator.dims, ValueIterator.cut, Grid.dims_ofFn, hreach']
          simp only [ValueIterator.dims] at hnx hny
          omega
  · cases h
    cases hd

@[simp] theorem table_overlayPatch (vi : ValueIterator) (origin : Cell) :
    (core.overlayPatch vi origin).table = vi.table := by
  unfold overlayPatch
  split
  · rfl
  · split <;> rfl

theorem legal_checkOut {build : BuildParams K} {d : Draft} (h : Draft.Legal build d) :
    (core.checkOut d).2.Legal build := by
  have htab : (if core.cfg.useCompact = true then core.overlayPatch d.vi d.origin
      else d.vi).repairValues.table = d.vi.table := by
    rw [ValueIterator.table_repairValues]
    split
    · exact table_overlayPatch _ _
    · rfl
  refine ⟨?_, rfl⟩
  refine (h.of_table htab).of_sublist ?_
  exact List.Sublist.map _ List.filter_sublist

theorem legal_prepareGlobalJob (hs : core.Shaped) (hq : ∀ budget : Nat,
    (core.advanceInvalidations budget).1.QueueFits) {maxStates : Nat}
    {r : PlannerCore K × Option GlobalJob} (h : core.prepareGlobalJob maxStates = some r)
    {job : GlobalJob} (hj : r.2 = some job) : job.Legal core.build := by
  unfold prepareGlobalJob at h
  simp only at h
  have hadv := frame_advanceInvalidations (min (max maxStates 1) 5000) core
  have hs' := hs.of_frame hadv
  have hb : (core.advanceInvalidations (min (max maxStates 1) 5000)).1.build = core.build :=
    congrArg CoreFrame.build hadv
  split at h
  · cases h
    cases hj
  · split at h
    · cases h
      cases hj
    · obtain ⟨d, hd, h⟩ := Option.map_eq_some_iff.mp h
      have hlegal : ∀ draft, d.2 = some draft → Draft.Legal core.build draft := by
        intro draft hdr
        rw [← hb]
        split at hd
        · cases hd
          exact Draft.legal_tile hs' hdr
        · exact Draft.legal_batch hs' (hq _) hd hdr
      split at h
      · rw [← h] at hj
        cases hj
      · next draft hdr =>
        rw [← h] at hj
        cases hj
        exact legal_checkOut (hlegal draft hdr)

/-- The window's cells on the map are cells of the base. -/
theorem window_inBase (hs : core.Shaped) (hw : ∀ p, core.patch = some p → p.vi.WindowInside)
    {l : ValueIteratorLocal K} (hl : core.localVi = some l) {c : Cell}
    (hc : l.inLocalArea c.1 c.2 = true)
    (hon : core.onMap (c.1 + core.localOrigin.1, c.2 + core.localOrigin.2) = true) :
    l.base.inMapArea c.1 c.2 = true := by
  unfold localVi at hl
  rcases hcd : core.cached with _ | ⟨⟨l₀⟩ | ⟨f⟩, part⟩
  · simp only [hcd] at hl
    cases hl
  · simp only [hcd, Option.some.injEq] at hl
    subst hl
    obtain ⟨huse, hd, _⟩ := hs.dense l₀ part hcd
    have horigin : core.localOrigin = (0, 0) := by
      unfold localOrigin
      rw [huse]
      rfl
    rw [horigin, onMap_iff] at hon
    simp only [add_zero] at hon
    have hnx : l₀.base.dims.nx = core.build.grid.width := by rw [hd]; rfl
    have hny : l₀.base.dims.ny = core.build.grid.height := by rw [hd]; rfl
    apply inMapArea_of
    · rw [hnx]
      exact hon.1
    · rw [hny]
      exact hon.2
  · simp only [hcd] at hl
    cases hp : core.patch with
    | none =>
      simp only [hp] at hl
      cases hl
    | some p =>
      simp only [hp] at hl
      obtain ⟨_, _, rfl⟩ := Option.map_eq_some_iff.mp hl
      have hin := hw p hp
      have hb := p.vi.inLocalArea_bounds hc
      unfold ValueIteratorLocal.WindowInside at hin
      apply inMapArea_of
      · omega
      · omega

theorem patchAt_getD_eq (hs : core.Shaped) : core.patchAt.getD (0, 0) = core.localOrigin := by
  unfold localOrigin
  split
  · rfl
  · next hu =>
    unfold patchAt
    cases hp : core.patch with
    | none => rfl
    | some p => exact absurd (hs.patch p hp).1 hu

/-- The owned columns are the window's, if any are owned. -/
def OwnsWindow (core : PlannerCore K) : Prop :=
  core.global.owned = [] ∨ core.global.owned = core.windowCells

theorem mem_windowCells {g : Cell} : g ∈ core.windowCells ↔ core.onMap g = true ∧
    ∃ l, core.localVi = some l ∧
      l.inLocalArea (g.1 - core.localOrigin.1) (g.2 - core.localOrigin.2) = true := by
  have hfold : ∀ (cs acc : List Cell), g ∈ cs.foldl (fun owned g => Cell.insert g owned) acc ↔
      g ∈ cs ∨ g ∈ acc := by
    intro cs
    induction cs with
    | nil => simp
    | cons c cs ih =>
      intro acc
      rw [List.foldl_cons, ih, Cell.mem_insert, List.mem_cons]
      tauto
  unfold windowCells
  cases hl : core.localVi with
  | none => simp
  | some l =>
    obtain ⟨x, y⟩ := g
    simp only [hfold, List.not_mem_nil, or_false, List.mem_filter, List.mem_map,
      Option.some.injEq, exists_eq_left']
    constructor
    · rintro ⟨⟨c, hc, heq⟩, hon⟩
      refine ⟨hon, ?_⟩
      simp only [Prod.mk.injEq] at heq
      have hx : x - core.localOrigin.1 = c.1 := by omega
      have hy : y - core.localOrigin.2 = c.2 := by omega
      rw [hx, hy]
      exact l.mem_windowRows.mp hc
    · rintro ⟨hon, hin⟩
      refine ⟨⟨(x - core.localOrigin.1, y - core.localOrigin.2), l.mem_windowRows.mpr hin, ?_⟩, hon⟩
      simp only [Prod.mk.injEq]
      omega

theorem onMap_of_owned (hown : core.OwnsWindow) {g : Cell} (hg : g ∈ core.global.owned) :
    core.onMap g = true := by
  cases hown with
  | inl h =>
    rw [h] at hg
    cases hg
  | inr h =>
    rw [h] at hg
    exact (mem_windowCells.mp hg).1

/-- A local job works on owned columns, and its rectangle lies in the base. -/
theorem legal_prepareLocalJob (hs : core.Shaped)
    (hw : ∀ p, core.patch = some p → p.vi.WindowInside) (hown : core.OwnsWindow)
    {job : LocalJob} (h : core.prepareLocalJob.2 = some job) : job.Legal core.build ∧
      (∀ c ∈ job.cells, job.globalCell c ∈ core.global.owned) ∧
      job.epoch = core.global.epoch ∧ job.revision = core.global.localRevision := by
  have hframe := frame_advanceInvalidations 512 core
  have hglob := withoutPending_advance 512 core
  unfold prepareLocalJob at h
  simp only at h
  generalize hr : core.advanceInvalidations 512 = r at h hframe hglob
  have hs' := hs.of_frame hframe
  have hb : r.1.build = core.build := congrArg CoreFrame.build hframe
  simp only [Manager.withoutPending, Manager.mk.injEq] at hglob
  obtain ⟨hep, _, _, howned, _, _, _, _, hrev, _⟩ := hglob
  have hw' : ∀ p, r.1.patch = some p → p.vi.WindowInside := by
    intro p hp
    have hpatch := congrArg CoreFrame.patch hframe
    simp only [frame, hp, Option.map_some] at hpatch
    obtain ⟨p₀, hp₀, heq⟩ := Option.map_eq_some_iff.mp hpatch.symm
    exact ValueIteratorLocal.windowInside_congr (congrArg Prod.fst heq).symm (hw p₀ hp₀)
  have hown' : r.1.OwnsWindow := by
    unfold OwnsWindow
    rw [howned, windowCells_congr hframe]
    exact hown
  split at h
  · cases h
  · split at h
    · next owner l _ hl =>
      split at h
      · cases h
      · cases h
        obtain ⟨hact, hnt⟩ := hs'.localVi hl
        have horigin := patchAt_getD_eq hs'
        have hmem : ∀ c : Cell, c ∈ l.windowColumns.filter (fun c =>
            ((c.1 + (r.1.patchAt.getD (0, 0)).1, c.2 + (r.1.patchAt.getD (0, 0)).2) : Cell) ∈
              r.1.global.owned) → l.inLocalArea c.1 c.2 = true ∧
                l.base.inMapArea c.1 c.2 = true ∧
                ((c.1 + (r.1.patchAt.getD (0, 0)).1, c.2 + (r.1.patchAt.getD (0, 0)).2) : Cell) ∈
                  core.global.owned := by
          intro c hc
          obtain ⟨hcol, ho⟩ := List.mem_filter.mp hc
          have harea := l.mem_windowColumns.mp hcol
          have ho := of_decide_eq_true ho
          refine ⟨harea, ?_, by rw [← howned]; exact ho⟩
          apply window_inBase hs' hw' hl harea
          rw [← horigin]
          exact onMap_of_owned hown' ho
        refine ⟨⟨hact.trans (by rw [hb]), hnt.trans (by rw [hb]), ?_, ?_⟩, ?_, hep, hrev⟩
        · intro c hc
          obtain ⟨g, hg, rfl⟩ := List.mem_map.mp hc
          obtain ⟨harea, hin, _⟩ := hmem g hg
          have hbnd := l.inLocalArea_bounds harea
          obtain ⟨h1, h2, h3, h4⟩ := ValueIterator.inMapArea_iff.mp hin
          apply inMapArea_of
          · simp only [ValueIterator.dims, ValueIterator.repairValues, ValueIterator.cut, Grid.map,
              Grid.ofFn]
            simp only [ValueIterator.dims] at h2
            omega
          · simp only [ValueIterator.dims, ValueIterator.repairValues, ValueIterator.cut, Grid.map,
              Grid.ofFn]
            simp only [ValueIterator.dims] at h4
            omega
        · refine List.Nodup.map ?_ (List.Nodup.filter _ ?_)
          · intro a b hab
            simp only [Prod.mk.injEq] at hab
            exact Prod.ext (by omega) (by omega)
          · unfold ValueIteratorLocal.windowColumns
            refine List.Nodup.filter _ (List.nodup_flatMap.mpr ⟨?_, ?_⟩)
            · intro x _
              refine List.Nodup.map ?_ (nodup_span _ _)
              intro a b hab
              exact congrArg Prod.snd hab
            · refine (nodup_span _ _).imp ?_
              intro x x' hne c hc hc'
              obtain ⟨y, _, rfl⟩ := List.mem_map.mp hc
              obtain ⟨y', _, heq⟩ := List.mem_map.mp hc'
              exact hne (congrArg Prod.fst heq).symm
        · intro c hc
          obtain ⟨g, hg, rfl⟩ := List.mem_map.mp hc
          have ho := (hmem g hg).2.2
          refine Eq.mp (congrArg (· ∈ core.global.owned) ?_) ho
          simp only [LocalJob.globalCell, Prod.mk.injEq]
          omega
    · cases h

end PlannerCore

end ValueIteration
