import ValueIteration.Planner.Upkeep

/-!
# What holds in every run

The shapes of the parts, the queues' bookkeeping and the provenance of the jobs that are
out survive every operation, whoever calls it and in whatever order.
-/

set_option autoImplicit false
set_option linter.unusedSectionVars false

namespace ValueIteration

/-- The field is of the kind and the size that the planner's parameters ask for. -/
def CachedGoal.Suits {K : Type} (build : BuildParams K) (cfg : PlanConfig K) (c : CachedGoal K) :
    Prop :=
  match c.field with
  | .dense l => cfg.useCompact = false ∧ build.Tabled l.base build.mapDims
  | .compact f => cfg.useCompact = true ∧ f.sink.dims = build.mapDims

namespace PlannerCore

variable {K : Type} [Field K] [LinearOrder K] [FloorRing K]

/-- What every operation of the core keeps. -/
structure Orderly (core : PlannerCore K) : Prop where
  shaped : core.Shaped
  window : ∀ p, core.patch = some p → p.vi.WindowInside
  owns : core.OwnsWindow
  reverse : core.ReverseOk
  fits : core.QueueFits

variable {core core' core'' : PlannerCore K}

theorem windowInside_of_frame (hw : ∀ p, core.patch = some p → p.vi.WindowInside)
    (h : core'.frame = core.frame) : ∀ p, core'.patch = some p → p.vi.WindowInside := by
  intro p hp
  have hpatch := congrArg CoreFrame.patch h
  simp only [frame, hp, Option.map_some] at hpatch
  obtain ⟨p₀, hp₀, heq⟩ := Option.map_eq_some_iff.mp hpatch.symm
  exact ValueIteratorLocal.windowInside_congr (congrArg Prod.fst heq).symm (hw p₀ hp₀)

/-- An operation that changes contents, queues and counters only. -/
theorem Orderly.of_frame (h : core.Orderly) (hf : core'.frame = core.frame)
    (hq : core'.QueueFits) (hg : core.global.Steady core.fullTable core'.global) :
    core'.Orderly where
  shaped := h.shaped.of_frame hf
  window := windowInside_of_frame h.window hf
  owns := by
    unfold OwnsWindow
    rw [hg.owned, windowCells_congr hf]
    exact h.owns
  reverse := h.reverse.of_follows (congrArg CoreFrame.build hf) rfl hg.reverse
  fits := hq

theorem Orderly.withGlobal (h : core.Orderly) {m : Manager} (ho : m.owned = core.global.owned)
    (hr : m.invalidation.reverse = core.global.invalidation.reverse) :
    (core.withGlobal m).Orderly where
  shaped := h.shaped.withGlobal m
  window := h.window
  owns := by
    have hown : (core.withGlobal m).global.owned = core.global.owned := ho
    unfold OwnsWindow
    rw [hown]
    exact h.owns
  reverse := h.reverse.of_follows rfl rfl (Or.inl hr)
  fits := h.fits.withGlobal m

/-- An update of the ownership makes the owned columns those of the window. -/
theorem orderly_updateLocalOwnership (hs : core.Shaped)
    (hw : ∀ p, core.patch = some p → p.vi.WindowInside) (hr : core.ReverseOk)
    (hq : core.QueueFits) : core.updateLocalOwnership.Orderly where
  shaped := hs.of_frame (frame_updateLocalOwnership core)
  window := windowInside_of_frame hw (frame_updateLocalOwnership core)
  owns := by
    unfold OwnsWindow
    rw [owned_updateLocalOwnership, windowCells_congr (frame_updateLocalOwnership core)]
    split
    · exact Or.inr rfl
    · exact Or.inl rfl
  reverse := hr.of_follows (congrArg CoreFrame.build (frame_updateLocalOwnership core)) rfl
    (follows_updateLocalOwnership core).reverse
  fits := (widens_updateLocalOwnership hs hq).fits

theorem Orderly.updateLocalOwnership (h : core.Orderly) : core.updateLocalOwnership.Orderly :=
  orderly_updateLocalOwnership h.shaped h.window h.reverse h.fits

theorem Orderly.claimLocal (h : core.Orderly) : core.claimLocal.1.Orderly := by
  let m : Manager := { core.global with
    serial := core.global.serial + 1
    owner := some (core.global.serial + 1)
    localInFlight := none
    certified := false }
  have hm : (core.withGlobal m).Orderly := h.withGlobal rfl rfl
  exact hm.updateLocalOwnership

theorem Orderly.releaseLocal (h : core.Orderly) (owner : Nat) :
    (core.releaseLocal owner).Orderly := by
  unfold PlannerCore.releaseLocal
  split
  · let m : Manager := { core.global with owner := none, localInFlight := none }
    have hm : (core.withGlobal m).Orderly := h.withGlobal rfl rfl
    exact hm.updateLocalOwnership
  · exact h

theorem Orderly.sense (h : core.Orderly) {f : ValueIteratorLocal K → ValueIteratorLocal K}
    (hf : ∀ l, (f l).frame = l.frame) : (core.sense f).Orderly :=
  h.of_frame (frame_sense core hf) (keeps_sense h.shaped h.fits hf).fits
    (steady_sense core h.shaped hf)

theorem Orderly.advanceInvalidations (h : core.Orderly) (budget : Nat) :
    (core.advanceInvalidations budget).1.Orderly :=
  h.of_frame (frame_advanceInvalidations budget core)
    (keeps_advance h.shaped h.fits h.reverse budget).fits (steady_advance core budget)

theorem Orderly.refineFor (h : core.Orderly) (ticks : Nat) : (core.refineFor ticks).1.Orderly :=
  h.of_frame (frame_refineFor core ticks)
    (keeps_refineFor h.shaped h.fits h.reverse ticks).fits (steady_refineFor core ticks)

theorem steady_restartGlobalCheck (table : List (List Predecessor)) :
    core.global.Steady table core.restartGlobalCheck.1.global := by
  unfold restartGlobalCheck
  split
  · exact .refl _
  · simp only
    split
    · exact .refl _
    · exact .of_eq (global_seedSweepAll core)

theorem Orderly.restartGlobalCheck (h : core.Orderly) : core.restartGlobalCheck.1.Orderly :=
  h.of_frame (frame_restartGlobalCheck core) (keeps_restartGlobalCheck h.shaped h.fits).fits
    (steady_restartGlobalCheck _)

theorem Orderly.prepareGlobalJob (h : core.Orderly) {maxStates : Nat}
    {r : PlannerCore K × Option GlobalJob} (hr : core.prepareGlobalJob maxStates = some r) :
    r.1.Orderly :=
  h.of_frame (frame_prepareGlobalJob core hr)
    (fits_prepareGlobalJob h.shaped h.fits h.reverse hr) (steady_prepareGlobalJob core hr)

theorem Orderly.commitGlobalJob (h : core.Orderly) (job : GlobalJob) :
    (core.commitGlobalJob job).1.Orderly :=
  h.of_frame (frame_commitGlobalJob core job) (keeps_commitGlobalJob h.shaped h.fits job).fits
    (steady_commitGlobalJob core job)

theorem Orderly.prepareLocalJob (h : core.Orderly) : core.prepareLocalJob.1.Orderly :=
  h.of_frame (frame_prepareLocalJob core)
    (keeps_prepareLocalJob h.shaped h.fits h.reverse).fits (steady_prepareLocalJob core)

theorem Orderly.commitLocalJob (h : core.Orderly) (job : LocalJob) :
    (core.commitLocalJob job).1.Orderly :=
  h.of_frame (frame_commitLocalJob core job) (keeps_commitLocalJob h.shaped h.fits job).fits
    (steady_commitLocalJob core job)

section
variable [Trig K]

theorem Orderly.observeScan (h : core.Orderly) (scan : LaserScan K) (pose : PoseView K)
    (shift : Nat) : (core.observeScan scan pose shift).Orderly :=
  h.sense fun _ => (ValueIteratorLocal.frame_setLocalCostAttenuated _ _ _ _ _ _).trans rfl

end

theorem Orderly.inflateBySigma (h : core.Orderly) (sigma : K) :
    (core.inflateBySigma sigma).Orderly := by
  unfold PlannerCore.inflateBySigma
  simp only
  split
  · exact h
  · exact h.sense fun l => ValueIteratorLocal.frame_inflateBySigma l _

/-- The same core without a goal; its patch is not placed. -/
def unplaced (core : PlannerCore K) : PlannerCore K :=
  { core with
    cached := none
    patch := core.patch.map fun p => { p with hydratedAt := none } }

theorem Orderly.unplaced (h : core.Orderly) : core.unplaced.Shaped ∧
    ∀ p, core.unplaced.patch = some p → p.vi.WindowInside := by
  refine ⟨⟨nofun, nofun, ?_, h.shaped.repair, h.shaped.overlay⟩, ?_⟩
  · intro p hp
    obtain ⟨p₀, hp₀, rfl⟩ := Option.map_eq_some_iff.mp hp
    obtain ⟨huse, hshape⟩ := h.shaped.patch p₀ hp₀
    exact ⟨huse, hshape.table, hshape.reach, hshape.fits⟩
  · intro p hp
    obtain ⟨p₀, hp₀, rfl⟩ := Option.map_eq_some_iff.mp hp
    exact h.window p₀ hp₀

theorem Orderly.reset (h : core.Orderly) (hf : core'.frame = core.unplaced.frame)
    (ho : core'.global.owned = [])
    (hr : core'.global.invalidation.reverse = core.global.invalidation.reverse)
    (hq : core'.QueueFits) : core'.Orderly :=
  ⟨h.unplaced.1.of_frame hf, windowInside_of_frame h.unplaced.2 hf, Or.inl ho,
    h.reverse.of_follows (congrArg CoreFrame.build hf) rfl (Or.inl hr), hq⟩

theorem QueueFits.cleared (hq : core.QueueFits) (hb : core'.build = core.build)
    (hrep : core'.repair = core.repair.map (·.clear)) (hsw : core'.sweep = core.sweep.clear) :
    core'.QueueFits := by
  have hclear := fits_clear hq
  refine ⟨?_, ?_⟩
  · rw [hsw, hb, reach, hb]
    exact hclear.1
  · rw [hrep]
    exact hclear.2

theorem frame_clear_repair (o : Option Repair) :
    (o.map (·.clear)).map (·.frame) = o.map (·.frame) := by
  cases o with
  | none => rfl
  | some r => exact congrArg some (Repair.frame_clear r)

theorem Orderly.dropGoal (h : core.Orderly) : core.dropGoal.Orderly := by
  have hjobs : core.invalidateGlobalJobs.QueueFits := h.fits.cleared rfl rfl rfl
  refine h.reset ?_ rfl rfl (hjobs.cleared rfl rfl rfl)
  have hpen : (core.penalty.map (·.clear)).map (·.values.dims) =
      core.penalty.map (·.values.dims) := by
    cases core.penalty <;> rfl
  simp only [PlannerCore.dropGoal, invalidateGlobalJobs, PlannerCore.unplaced, frame, hpen,
    frame_clear_repair]

theorem Orderly.discardPartial (h : core.Orderly) : core.discardPartial.Orderly := by
  unfold PlannerCore.discardPartial
  split
  · refine h.reset ?_ rfl rfl (h.fits.cleared rfl rfl rfl)
    simp only [invalidateGlobalJobs, PlannerCore.unplaced, frame, frame_clear_repair]
  · exact h

theorem newPatch_shape {build : BuildParams K} {p : Patch K} (h : newPatch build = some p) :
    build.PatchShape p ∧ p.vi.WindowInside ∧ p.hydratedAt = none := by
  unfold newPatch at h
  simp only at h
  split at h
  · cases h
  · split at h
    · cases h
    · next hfit =>
      cases h
      rw [not_le] at hfit
      refine ⟨⟨⟨rfl, rfl⟩, rfl, hfit⟩, ?_, rfl⟩
      simp only [ValueIteratorLocal.WindowInside, ValueIteratorLocal.new,
        ValueIteratorLocal.setLocalShape, BuildParams.dummy, ValueIterator.dims,
        Grid.dims_ofFn] at hfit ⊢
      omega

theorem newRepair_shape {build : BuildParams K} {reach : Int} {r : Repair}
    (h : newRepair build reach = some r) : build.RepairShape r ∧ r.Fits := by
  unfold newRepair at h
  simp only at h
  split at h
  · cases h
  · next hhalo =>
    cases h
    rw [not_lt] at hhalo
    generalize hi : max build.repairInteriorCells (max reach 1) = interior
    have hpos : 0 < interior := by omega
    have htiles (n : Nat) : 0 < max (((n : Int) + interior - 1) / interior) 1 ∧
        (n : Int) ≤ max (((n : Int) + interior - 1) / interior) 1 * interior := by
      refine ⟨by omega, ?_⟩
      have hdiv := Int.lt_ediv_add_one_mul_self ((n : Int) + interior - 1) hpos
      have hle : ((n : Int) + interior - 1) / interior * interior ≤
          max (((n : Int) + interior - 1) / interior) 1 * interior :=
        mul_le_mul_of_nonneg_right (le_max_left _ _) hpos.le
      linarith [add_mul (((n : Int) + interior - 1) / interior) 1 interior]
    refine ⟨⟨⟨?_, rfl⟩, ⟨?_, hhalo, ?_⟩, htiles _, htiles _, ?_⟩, ?_, nofun, List.nodup_nil⟩
    · rfl
    · simp only
      omega
    · simp only
      omega
    · simp only [List.length_replicate]
    · intro t ht
      simp only [List.length_replicate] at ht
      simp [List.getD_eq_getElem?_getD, ht]

/-- The patch and the tile, once made, have their shapes. -/
theorem Orderly.withTools (h : core.Orderly) (hown : core.global.owned = [])
    (ht : core.withTools = some core') : core'.Orderly ∧ core'.build = core.build ∧
      core'.cfg = core.cfg ∧ core'.cached = core.cached ∧
        ∀ p, core'.patch = some p → core.patch = some p ∨ p.hydratedAt = none := by
  unfold PlannerCore.withTools at ht
  split at ht
  · next huse =>
    obtain ⟨p, hp, ht⟩ := Option.bind_eq_some_iff.mp ht
    obtain ⟨hshape, hin, hnone⟩ := newPatch_shape hp
    have hpatch : ∀ p', some p = some p' → core.cfg.useCompact = true ∧
        core.build.PatchShape p' := by
      intro p' heq
      cases heq
      exact ⟨huse.1, hshape⟩
    have hwin : ∀ p', some p = some p' → p'.vi.WindowInside := by
      intro p' heq
      cases heq
      exact hin
    have hat : ∀ p', some p = some p' → core.patch = some p' ∨ p'.hydratedAt = none := by
      intro p' heq
      cases heq
      exact Or.inr hnone
    split at ht
    · obtain ⟨r, hr, rfl⟩ := Option.map_eq_some_iff.mp ht
      obtain ⟨hrep, hfit⟩ := newRepair_shape hr
      refine ⟨⟨⟨h.shaped.dense, h.shaped.compact, hpatch, ?_, h.shaped.overlay⟩, hwin,
        Or.inl hown, h.reverse, ⟨h.fits.sweep, ?_⟩⟩, rfl, rfl, rfl, hat⟩
      · intro r' heq
        cases heq
        exact ⟨huse.1, hrep⟩
      · intro r' heq
        cases heq
        exact hfit
    · cases ht
      exact ⟨⟨⟨h.shaped.dense, h.shaped.compact, hpatch, h.shaped.repair, h.shaped.overlay⟩, hwin,
        Or.inl hown, h.reverse, ⟨h.fits.sweep, h.fits.repair⟩⟩, rfl, rfl, rfl, hat⟩
  · cases ht
    exact ⟨h, rfl, rfl, rfl, fun _ hp => Or.inl hp⟩

/-- A fresh field of the right kind. -/
theorem Orderly.withGoal (h : core.Orderly) (hown : core.global.owned = []) {c : CachedGoal K}
    (hc : c.Suits core.build core.cfg) (dirty : Bool) :
    ({ core with cached := some c, dirty := dirty } : PlannerCore K).Orderly := by
  refine ⟨⟨?_, ?_, h.shaped.patch, h.shaped.repair, h.shaped.overlay⟩, h.window, Or.inl hown,
    h.reverse, ⟨h.fits.sweep, h.fits.repair⟩⟩
  · intro l part heq
    cases heq
    exact hc
  · intro f part heq
    cases heq
    exact hc

theorem Orderly.prepareGoal (h : core.Orderly) {solved : Option (CachedGoal K)}
    (hsol : ∀ c, solved = some c → c.Suits core.build core.cfg) :
    (core.prepareGoal solved).Orderly := by
  have hdrop := h.dropGoal
  unfold PlannerCore.prepareGoal
  split
  · next core₁ c ht =>
    obtain ⟨h₁, hb, hcfg, _⟩ := hdrop.withTools rfl ht
    have hown : core₁.global.owned = [] := by
      rw [global_withTools ht]
      rfl
    have hsuits : c.Suits core₁.build core₁.cfg := by
      rw [hb, hcfg]
      exact hsol c rfl
    simp only
    split
    · exact h₁.withGoal hown hsuits core₁.dirty
    · have h₂ := h₁.withGoal hown hsuits true
      split
      · next r hr =>
        have hfit := (Repair.Fits.foldl_push (List.range (r.tnx * r.tny).toNat)
          (h₁.fits.repair r hr)).1
        refine h₂.of_frame ?_ ⟨h₁.fits.sweep, ?_⟩ (.refl _)
        · simp only [frame, Option.map_some, Repair.frame_enqueueAll, hr]
        · intro r' heq
          cases heq
          exact hfit
      · exact h₂.of_frame (frame_seedSweepAll _) (widens_seedSweepAll h₂.shaped h₂.fits).fits
          (.of_eq (global_seedSweepAll _))
  · exact hdrop
  · next core₁ ht => exact (hdrop.withTools rfl ht).1

section
variable [Trig K]

theorem table_setLocalWindow (l : ValueIteratorLocal K) (x y t : K) :
    (l.setLocalWindow x y t).base = l.base ∧
      (l.setLocalWindow x y t).localIxyRange = l.localIxyRange := by
  have haxes : (l.updateAxes x y t).base = l.base ∧
      (l.updateAxes x y t).localIxyRange = l.localIxyRange := by
    unfold ValueIteratorLocal.updateAxes
    simp only
    split
    · exact ⟨rfl, rfl⟩
    · split
      · exact ⟨rfl, rfl⟩
      · split <;> exact ⟨rfl, rfl⟩
  exact haxes

/-- The window is clipped to the base. -/
theorem windowInside_setLocalWindow (l : ValueIteratorLocal K) (x y t : K) :
    (l.setLocalWindow x y t).WindowInside := by
  have hbase := (table_setLocalWindow l x y t).1
  unfold ValueIteratorLocal.WindowInside
  rw [hbase]
  have haxes : (l.updateAxes x y t).base = l.base := hbase
  simp only [ValueIteratorLocal.setLocalWindow, haxes]
  refine ⟨⟨?_, ?_⟩, ?_, ?_⟩
  · split <;> omega
  · split <;> omega
  · split <;> omega
  · split <;> omega

theorem shape_placeWindow (h : core.Orderly) (pose : PoseView K) :
    (core.placeWindow pose).Shaped ∧ (core.placeWindow pose).build = core.build ∧
      (core.placeWindow pose).repair = core.repair ∧ (core.placeWindow pose).sweep = core.sweep ∧
        ∀ p, (core.placeWindow pose).patch = some p → p.vi.WindowInside := by
  unfold PlannerCore.placeWindow
  split
  · exact ⟨h.shaped, rfl, rfl, rfl, h.window⟩
  · next l part hc =>
    refine ⟨⟨?_, nofun, h.shaped.patch, h.shaped.repair, h.shaped.overlay⟩, rfl, rfl, rfl, h.window⟩
    intro l' part' heq
    cases heq
    obtain ⟨huse, hd, ha⟩ := h.shaped.dense l part hc
    have hbase := (table_setLocalWindow l pose.x pose.y pose.yawRad).1
    rw [hbase]
    exact ⟨huse, hd, ha⟩
  · next f part hc =>
    split
    · exact ⟨h.shaped, rfl, rfl, rfl, h.window⟩
    · next p hp =>
      obtain ⟨huse, hshape⟩ := h.shaped.patch p hp
      have hplaced : ∀ p' : Patch K, p'.vi.base.table = p.vi.base.table → p'.half = p.half →
          p'.reach = p.reach → p'.vi.localIxyRange = p.vi.localIxyRange →
            core.build.PatchShape p' := by
        intro p' htab hhalf hreach hrange
        simp only [ValueIterator.table, Prod.mk.injEq] at htab
        refine ⟨⟨?_, htab.2.trans hshape.table.2⟩, hreach.trans hshape.reach, ?_⟩
        · rw [htab.1, hhalf]
          exact hshape.table.1
        · rw [hrange, hreach, hhalf]
          exact hshape.fits
      dsimp only
      refine ⟨⟨h.shaped.dense, h.shaped.compact, ?_, h.shaped.repair, h.shaped.overlay⟩, rfl, rfl,
        rfl, ?_⟩
      · intro p' heq
        cases heq
        refine ⟨huse, hplaced _ ?_ ?_ ?_ ?_⟩
        · rw [(table_setLocalWindow _ _ _ _).1]
          split
          · rfl
          · rfl
        · split <;> rfl
        · split <;> rfl
        · simp only [(table_setLocalWindow _ _ _ _).2]
          split <;> rfl
      · intro p' heq
        cases heq
        exact windowInside_setLocalWindow _ _ _ _

theorem Orderly.setWindow (h : core.Orderly) (pose : PoseView K) :
    (core.setWindow pose).Orderly := by
  unfold PlannerCore.setWindow
  split
  · exact h
  · split
    · exact h
    · obtain ⟨hs, hb, hrep, hsw, hw⟩ := shape_placeWindow h pose
      have hr : (core.placeWindow pose).ReverseOk := by
        refine h.reverse.of_follows hb rfl (Or.inl ?_)
        rw [global_placeWindow]
      have hq : (core.placeWindow pose).QueueFits := (Widens.of_same h.fits hb hrep hsw).fits
      simp only
      split
      · exact orderly_updateLocalOwnership hs hw hr hq
      · exact orderly_updateLocalOwnership (hs.of_frame rfl) hw hr ⟨hq.sweep, hq.repair⟩

end

theorem orderly_new (build : BuildParams K) (cfg : PlanConfig K) :
    (PlannerCore.new build cfg).Orderly := by
  have hcached : (PlannerCore.new build cfg).cached = none := rfl
  have hpatch : (PlannerCore.new build cfg).patch = none := rfl
  have hrepair : (PlannerCore.new build cfg).repair = none := rfl
  have hpending : (PlannerCore.new build cfg).sweep.pending = none := rfl
  have hcands : (PlannerCore.new build cfg).sweep.cands = [] := rfl
  have hreach : (PlannerCore.new build cfg).sweep.reach = none := rfl
  refine ⟨⟨?_, ?_, ?_, ?_, ?_⟩, ?_, Or.inl rfl, Or.inl rfl, ⟨⟨?_, ?_, List.nodup_nil, ?_⟩, ?_⟩⟩
  · intro l part h
    rw [hcached] at h
    cases h
  · intro f part h
    rw [hcached] at h
    cases h
  · intro p h
    rw [hpatch] at h
    cases h
  · intro r h
    rw [hrepair] at h
    cases h
  · intro o ho
    unfold PlannerCore.new at ho
    simp only at ho
    split at ho
    · cases ho
      rfl
    · cases ho
  · intro p h
    rw [hpatch] at h
    cases h
  · intro bb h
    rw [hpending] at h
    cases h
  · intro p h
    rw [hcands] at h
    cases h
  · intro k h
    rw [hreach] at h
    cases h
  · intro r h
    rw [hrepair] at h
    cases h

end PlannerCore

/-- A local job that is out writes owned columns, as long as nothing has changed owner. -/
structure LocalJob.Placed {K : Type} (core : PlannerCore K) (job : LocalJob) : Prop where
  legal : job.Legal core.build
  epoch : job.epoch ≤ core.global.epoch
  revision : job.revision ≤ core.global.localRevision
  owned : job.epoch = core.global.epoch → job.revision = core.global.localRevision →
    ∀ c ∈ job.cells, job.globalCell c ∈ core.global.owned

theorem LocalJob.Placed.follows {K : Type} [Field K] [LinearOrder K] [FloorRing K]
    {core core' : PlannerCore K} {job : LocalJob} (h : job.Placed core)
    {table : List (List Predecessor)} (hf : PlannerCore.Follows table core core')
    (hb : core'.build = core.build) : job.Placed core' where
  legal := by
    rw [hb]
    exact h.legal
  epoch := h.epoch.trans hf.epoch
  revision := h.revision.trans hf.localRevision
  owned he hr := by
    have h1 := h.epoch
    have h2 := h.revision
    have h3 := hf.epoch
    have h4 := hf.localRevision
    rw [hf.kept (by omega) (by omega)]
    exact h.owned (by omega) (by omega)

theorem LocalJob.Placed.run {K : Type} {core : PlannerCore K} {job : LocalJob}
    (h : job.Placed core) (threads : Nat) : (job.runParallel threads).Placed core := by
  obtain ⟨he, _, _, hr, _, ho, hc, _⟩ := LocalJob.run_fixed job threads
  refine ⟨h.legal.run threads, by rw [he]; exact h.epoch, by rw [hr]; exact h.revision, ?_⟩
  intro he' hr' c hcell
  rw [he] at he'
  rw [hr] at hr'
  rw [hc] at hcell
  have hg : (job.runParallel threads).globalCell c = job.globalCell c := by
    unfold LocalJob.globalCell
    rw [ho]
  rw [hg]
  exact h.owned he' hr' c hcell

namespace Fleet

variable {K : Type} [Field K] [LinearOrder K] [FloorRing K]

/-- What every operation of the core and of its workers keeps. -/
structure Orderly (w : Fleet K) : Prop where
  core : w.core.Orderly
  globals : ∀ job ∈ w.globals, job.Legal w.core.build
  locals : ∀ job ∈ w.locals, job.Placed w.core

/-- The solver and the prefetcher return fields of the planner's own kind and size. -/
def Sound (w : Fleet K) (op : Op K) : Prop :=
  match op with
  | .prepareGoal solved => ∀ c, solved = some c → c.Suits w.core.build w.core.cfg
  | _ => True

def start (build : BuildParams K) (cfg : PlanConfig K) : Fleet K := ⟨.new build cfg, [], []⟩

variable {w w' : Fleet K}

theorem orderly_start (build : BuildParams K) (cfg : PlanConfig K) : (start build cfg).Orderly :=
  ⟨PlannerCore.orderly_new build cfg, nofun, nofun⟩

/-- An operation of the core leaves the jobs where they are. -/
theorem Orderly.onCore (h : w.Orderly) {core' : PlannerCore K} (hc : core'.Orderly)
    (hb : core'.build = w.core.build)
    (hf : PlannerCore.Follows w.core.fullTable w.core core') : Orderly ⟨core', w.globals, w.locals⟩ where
  core := hc
  globals job hj := by
    rw [hb]
    exact h.globals job hj
  locals job hj := (h.locals job hj).follows hf hb

theorem Orderly.onFrame (h : w.Orderly) {core' : PlannerCore K} (hc : core'.Orderly)
    (hf : core'.frame = w.core.frame)
    (hg : PlannerCore.Follows w.core.fullTable w.core core') : Orderly ⟨core', w.globals, w.locals⟩ :=
  h.onCore hc (congrArg CoreFrame.build hf) hg

theorem Orderly.prepareGlobalJob (h : w.Orderly) {maxStates : Nat}
    {r : PlannerCore K × Option GlobalJob} (hr : w.core.prepareGlobalJob maxStates = some r) :
    Orderly ⟨r.1, w.globals ++ r.2.toList, w.locals⟩ := by
  have hframe := PlannerCore.frame_prepareGlobalJob w.core hr
  have hb : r.1.build = w.core.build := congrArg CoreFrame.build hframe
  obtain ⟨hcore, _, hlocals⟩ := h.onFrame (h.core.prepareGlobalJob hr) hframe
    (.of_steady (PlannerCore.steady_prepareGlobalJob w.core hr))
  refine ⟨hcore, ?_, hlocals⟩
  intro job hj
  rw [hb]
  rcases List.mem_append.mp hj with hj | hj
  · exact h.globals job hj
  · exact PlannerCore.legal_prepareGlobalJob h.core.shaped
      (fun budget => (h.core.advanceInvalidations budget).fits) hr (Option.mem_toList.mp hj)

theorem Orderly.prepareLocalJob (h : w.Orderly) : Orderly
    ⟨w.core.prepareLocalJob.1, w.globals, w.locals ++ w.core.prepareLocalJob.2.toList⟩ := by
  have hframe := PlannerCore.frame_prepareLocalJob w.core
  have hsteady : w.core.global.Steady w.core.fullTable _ :=
    PlannerCore.steady_prepareLocalJob w.core
  obtain ⟨hcore, hglobals, hlocals⟩ := h.onFrame h.core.prepareLocalJob hframe (.of_steady hsteady)
  refine ⟨hcore, hglobals, ?_⟩
  intro job hj
  rcases List.mem_append.mp hj with hj | hj
  · exact hlocals job hj
  · obtain ⟨hlegal, hown, he, hr⟩ := PlannerCore.legal_prepareLocalJob h.core.shaped h.core.window
      h.core.owns (Option.mem_toList.mp hj)
    refine ⟨?_, ?_, ?_, ?_⟩
    · rw [show w.core.prepareLocalJob.1.build = w.core.build from congrArg CoreFrame.build hframe]
      exact hlegal
    · rw [he]
      exact hsteady.epoch
    · rw [hr]
      exact hsteady.localRevision
    · intro _ _ c hc
      rw [hsteady.owned]
      exact hown c hc

theorem build_withTools {core core' : PlannerCore K} (ht : core.withTools = some core') :
    core'.build = core.build := by
  unfold PlannerCore.withTools at ht
  split at ht
  · obtain ⟨p, _, ht⟩ := Option.bind_eq_some_iff.mp ht
    split at ht
    · obtain ⟨r, _, rfl⟩ := Option.map_eq_some_iff.mp ht
      rfl
    · cases ht
      rfl
  · cases ht
    rfl

theorem build_prepareGoal (core : PlannerCore K) (solved : Option (CachedGoal K)) :
    (core.prepareGoal solved).build = core.build := by
  unfold PlannerCore.prepareGoal
  split
  · next core₁ c ht =>
    have hb := build_withTools ht
    simp only
    split
    · exact hb
    · split
      · exact hb
      · exact (congrArg CoreFrame.build (PlannerCore.frame_seedSweepAll _)).trans hb
  · rfl
  · next core₁ ht => exact (build_withTools ht).trans rfl

theorem build_discardPartial (core : PlannerCore K) : core.discardPartial.build = core.build := by
  unfold PlannerCore.discardPartial
  split <;> rfl

variable [Trig K]

theorem build_setWindow {core : PlannerCore K} (h : core.Orderly) (pose : PoseView K) :
    (core.setWindow pose).build = core.build := by
  have hplace := (PlannerCore.shape_placeWindow h pose).2.1
  unfold PlannerCore.setWindow
  split
  · rfl
  · split
    · rfl
    · simp only
      have hown (c : PlannerCore K) : c.updateLocalOwnership.build = c.build :=
        congrArg CoreFrame.build (PlannerCore.frame_updateLocalOwnership c)
      rw [hown]
      split
      · exact hplace
      · exact hplace

/-- Step lemma: any operation, with any interleaving of the jobs that are out. -/
theorem Orderly.step (h : w.Orderly) (op : Op K) (hsound : w.Sound op) (hstep : w.step op = some w') :
    w'.Orderly := by
  have hc := h.core
  cases op with
  | prepareGoal solved =>
    cases hstep
    refine h.onCore (hc.prepareGoal hsound) (build_prepareGoal _ _) ?_
    have hg : (w.core.prepareGoal solved).global = w.core.dropGoal.global :=
      PlannerCore.global_prepareGoal w.core solved
    have hf : PlannerCore.Follows w.core.fullTable w.core _ := PlannerCore.follows_dropGoal w.core
    refine ⟨?_, ?_, ?_, ?_, ?_, ?_⟩
    · rw [hg]
      exact hf.epoch
    · rw [hg]
      exact hf.serial
    · rw [hg]
      exact hf.localRevision
    · rw [hg]
      exact hf.boundaryRevision
    · rw [hg]
      exact hf.kept
    · rw [hg]
      exact hf.reverse
  | discardPartial =>
    cases hstep
    exact h.onCore hc.discardPartial (build_discardPartial _)
      (PlannerCore.follows_discardPartial w.core)
  | setWindow pose =>
    cases hstep
    exact h.onCore (hc.setWindow pose) (build_setWindow hc pose)
      (PlannerCore.follows_setWindow w.core pose)
  | observeScan scan pose shift =>
    cases hstep
    exact h.onFrame (hc.observeScan scan pose shift) (PlannerCore.frame_observeScan _ _ _ _)
      (.of_steady (PlannerCore.steady_sense w.core hc.shaped fun _ =>
        (ValueIteratorLocal.frame_setLocalCostAttenuated _ _ _ _ _ _).trans rfl))
  | inflateBySigma sigma =>
    cases hstep
    refine h.onFrame (hc.inflateBySigma sigma) (PlannerCore.frame_inflateBySigma _ _)
      (.of_steady ?_)
    unfold PlannerCore.inflateBySigma
    simp only
    split
    · exact .refl _
    · exact PlannerCore.steady_sense w.core hc.shaped fun l =>
        ValueIteratorLocal.frame_inflateBySigma l _
  | claimLocal =>
    cases hstep
    exact h.onFrame hc.claimLocal (PlannerCore.frame_claimLocal _)
      (PlannerCore.follows_claimLocal w.core)
  | releaseLocal owner =>
    cases hstep
    exact h.onFrame (hc.releaseLocal owner) (PlannerCore.frame_releaseLocal _ _)
      (PlannerCore.follows_releaseLocal w.core owner)
  | advanceInvalidations budget =>
    cases hstep
    exact h.onFrame (hc.advanceInvalidations budget)
      (PlannerCore.frame_advanceInvalidations _ _)
      (.of_steady (PlannerCore.steady_advance w.core budget))
  | refineFor ticks =>
    cases hstep
    exact h.onFrame (hc.refineFor ticks) (PlannerCore.frame_refineFor _ _)
      (.of_steady (PlannerCore.steady_refineFor w.core ticks))
  | restartGlobalCheck =>
    cases hstep
    exact h.onFrame hc.restartGlobalCheck (PlannerCore.frame_restartGlobalCheck _)
      (.of_steady (PlannerCore.steady_restartGlobalCheck _))
  | prepareGlobalJob maxStates =>
    obtain ⟨r, hr, rfl⟩ := Option.map_eq_some_iff.mp hstep
    exact h.prepareGlobalJob hr
  | runGlobalJob i =>
    obtain ⟨job, hj, rfl⟩ := Option.map_eq_some_iff.mp hstep
    refine ⟨hc, ?_, h.locals⟩
    intro job' hj'
    rcases List.mem_or_eq_of_mem_set hj' with hj' | rfl
    · exact h.globals job' hj'
    · exact (h.globals job (List.mem_of_getElem? hj)).run
  | commitGlobalJob i =>
    obtain ⟨job, hj, rfl⟩ := Option.map_eq_some_iff.mp hstep
    obtain ⟨h1, h2, h3⟩ := h.onFrame (hc.commitGlobalJob job)
      (PlannerCore.frame_commitGlobalJob _ _)
      (.of_steady (PlannerCore.steady_commitGlobalJob w.core job))
    exact ⟨h1, fun job' hj' => h2 job' (List.mem_of_mem_eraseIdx hj'), h3⟩
  | prepareLocalJob =>
    cases hstep
    exact h.prepareLocalJob
  | runLocalJob i threads =>
    obtain ⟨job, hj, rfl⟩ := Option.map_eq_some_iff.mp hstep
    refine ⟨hc, h.globals, ?_⟩
    intro job' hj'
    rcases List.mem_or_eq_of_mem_set hj' with hj' | rfl
    · exact h.locals job' hj'
    · exact (h.locals job (List.mem_of_getElem? hj)).run threads
  | commitLocalJob i =>
    obtain ⟨job, hj, rfl⟩ := Option.map_eq_some_iff.mp hstep
    obtain ⟨h1, h2, h3⟩ := h.onFrame (hc.commitLocalJob job)
      (PlannerCore.frame_commitLocalJob _ _)
      (.of_steady (PlannerCore.steady_commitLocalJob w.core job))
    exact ⟨h1, h2, fun job' hj' => h3 job' (List.mem_of_mem_eraseIdx hj')⟩

end Fleet

end ValueIteration
