import ValueIteration.Planner.Queue

/-!
# Bookkeeping of a run

Counters only grow, the owned columns are those of the window, and every job that is
out works on columns of the map with a snapshot wide enough for their transitions.
-/

set_option autoImplicit false
set_option linter.unusedSectionVars false

namespace ValueIteration

/-- Counters grow, and the owned columns stay; the reverse table may be built. -/
structure Manager.Steady (table : List (List Predecessor)) (m m' : Manager) : Prop where
  epoch : m.epoch ≤ m'.epoch
  serial : m.serial ≤ m'.serial
  localRevision : m.localRevision ≤ m'.localRevision
  boundaryRevision : m.boundaryRevision ≤ m'.boundaryRevision
  owner : m'.owner = m.owner
  owned : m'.owned = m.owned
  reverse : m'.invalidation.reverse = m.invalidation.reverse ∨ m'.invalidation.reverse = table

namespace Manager.Steady

variable {table : List (List Predecessor)} {m m' m'' : Manager}

theorem refl (m : Manager) : m.Steady table m :=
  ⟨le_refl _, le_refl _, le_refl _, le_refl _, rfl, rfl, Or.inl rfl⟩

theorem of_eq (h : m' = m) : m.Steady table m' := by
  rw [h]
  exact refl m

theorem trans (h : m.Steady table m') (h' : m'.Steady table m'') : m.Steady table m'' where
  epoch := h.epoch.trans h'.epoch
  serial := h.serial.trans h'.serial
  localRevision := h.localRevision.trans h'.localRevision
  boundaryRevision := h.boundaryRevision.trans h'.boundaryRevision
  owner := h'.owner.trans h.owner
  owned := h'.owned.trans h.owned
  reverse := by
    rcases h'.reverse with h2 | h2
    · rw [h2]
      exact h.reverse
    · exact Or.inr h2

end Manager.Steady

/-- The bookkeeping without the queue of an invalidation. -/
def Manager.withoutPending (m : Manager) : Manager :=
  { m with invalidation := { m.invalidation with pending := [] } }

namespace PlannerCore

section
variable {K : Type} {table : List (List Predecessor)} (core : PlannerCore K)

@[simp] theorem global_enqueueCell (c : Cell) : (core.enqueueCell c).global = core.global :=
  global_enqueueGlobal core _

@[simp] theorem global_enqueueCells (cs : List Cell) :
    (core.enqueueCells cs).global = core.global :=
  foldl_keeps PlannerCore.global global_enqueueCell cs core

@[simp] theorem global_settleGlobal : core.settleGlobal.1.global = core.global := by
  by_cases h : core.settled = true
  · simp only [settleGlobal, h, if_true]
  · simp only [settleGlobal, h, Bool.false_eq_true, if_false]

@[simp] theorem global_seedSweepAll : core.seedSweepAll.global = core.global := by
  unfold seedSweepAll
  split <;> rfl

@[simp] theorem global_seedSweepWindow : core.seedSweepWindow.global = core.global := by
  unfold seedSweepWindow
  split <;> rfl

@[simp] theorem global_setLocal (l : ValueIteratorLocal K) :
    (core.setLocal l).global = core.global := by
  unfold setLocal
  split
  · rfl
  · split
    · rfl
    · split
      · rfl
      · split <;> rfl

@[simp] theorem global_invalidatePolicyState (p : Pos) (a : Nat) :
    (core.invalidatePolicyState p a).1.global = core.global := by
  unfold invalidatePolicyState
  split
  · rfl
  · simp only
    split <;> rfl
  · simp only
    split <;> rfl

theorem withoutPending_invalidatePredecessor (e : Pos × Nat) :
    (core.invalidatePredecessor e).global.withoutPending = core.global.withoutPending := by
  unfold invalidatePredecessor
  simp only
  split
  · rfl
  · split
    · rw [requeued, global_enqueueCell]
      simp only [global_invalidatePolicyState]
      rfl
    · rw [global_invalidatePolicyState]

/-- An invalidation advances its own queue and nothing else of the bookkeeping. -/
theorem withoutPending_advance (budget : Nat) : ∀ core : PlannerCore K,
    (core.advanceInvalidations budget).1.global.withoutPending = core.global.withoutPending := by
  induction budget with
  | zero => exact fun _ => rfl
  | succ budget ih =>
    intro core
    unfold advanceInvalidations
    cases h : core.invalidateStep with
    | none => rfl
    | some core' =>
      refine (ih core').trans ?_
      unfold invalidateStep at h
      split at h
      · cases h
      · cases h
        exact foldl_keeps (fun c : PlannerCore K => c.global.withoutPending)
          withoutPending_invalidatePredecessor _ _

theorem steady_of_withoutPending {m m' : Manager} (h : m'.withoutPending = m.withoutPending) :
    m.Steady table m' := by
  simp only [Manager.withoutPending, Manager.mk.injEq] at h
  obtain ⟨h1, h2, h3, h4, _, _, _, _, h9, h10, h11⟩ := h
  exact ⟨h1.ge, h2.ge, h9.ge, h10.ge, h3, h4, Or.inl (Invalidation.mk.injEq .. ▸ h11).1⟩

theorem steady_advance (budget : Nat) :
    core.global.Steady table (core.advanceInvalidations budget).1.global :=
  steady_of_withoutPending (withoutPending_advance budget core)

/-- The reverse transitions of the build's actions. -/
abbrev fullTable : List (List Predecessor) :=
  reverseTable core.build.actions core.build.thetaCellNum

theorem steady_queueCostIncreases (hs : core.Shaped) (cs : List Cell) :
    core.global.Steady core.fullTable (core.queueCostIncreases cs).global := by
  unfold queueCostIncreases
  split
  · exact .refl _
  · simp only
    split
    · exact .refl _
    · next table h =>
      refine ⟨Nat.le_succ _, le_refl _, le_refl _, Nat.le_succ _, rfl, rfl, ?_⟩
      split at h
      · obtain ⟨l, hl, rfl⟩ := Option.map_eq_some_iff.mp h
        obtain ⟨hact, hnt⟩ := hs.localVi hl
        refine Or.inr ?_
        rw [hact, hnt]
      · cases h
        exact Or.inl rfl

end

section
variable {K : Type} [Field K] [LinearOrder K] [FloorRing K] {table : List (List Predecessor)}
  (core : PlannerCore K)

@[simp] theorem global_harvestPenalties : core.harvestPenalties.global = core.global := by
  unfold harvestPenalties
  split
  · split <;> rfl
  · rfl

@[simp] theorem global_commitWindowCell (p : Patch K) (p0 c : Cell) :
    (commitWindowCell p p0 core c).global = core.global := by
  unfold commitWindowCell
  split
  · simp only
    split <;> rfl
  · rfl

@[simp] theorem global_commitWindow : core.commitWindow.global = core.global := by
  unfold commitWindow
  split
  · split
    · rfl
    · exact foldl_keeps PlannerCore.global (fun c x => global_commitWindowCell c _ _ x) _ core
  · rfl

@[simp] theorem global_refreshLocalBoundary :
    core.refreshLocalBoundary.global = core.global := by
  unfold refreshLocalBoundary
  split
  · split <;> rfl
  · rfl

theorem steady_invalidateLocalWindow :
    core.global.Steady table core.invalidateLocalWindow.global :=
  ⟨le_refl _, le_refl _, Nat.le_succ _, le_refl _, rfl, rfl, Or.inl rfl⟩

theorem steady_voidCertificate : core.global.Steady table core.voidCertificate.global :=
  ⟨le_refl _, le_refl _, le_refl _, le_refl _, rfl, rfl, Or.inl rfl⟩

theorem steady_landGlobal : core.global.Steady table core.landGlobal.global :=
  ⟨le_refl _, le_refl _, le_refl _, le_refl _, rfl, rfl, Or.inl rfl⟩

theorem steady_landLocal : core.global.Steady table core.landLocal.global :=
  ⟨le_refl _, le_refl _, le_refl _, le_refl _, rfl, rfl, Or.inl rfl⟩

theorem steady_invalidateLocalInputs (hs : core.Shaped) (before : List (Bool × Nat × Nat)) :
    core.global.Steady core.fullTable (core.invalidateLocalInputs before).global := by
  have hs' : core.invalidateLocalWindow.Shaped := hs.of_frame rfl
  unfold invalidateLocalInputs
  split
  · exact .refl _
  · simp only
    split
    · exact steady_invalidateLocalWindow core
    · rw [global_enqueueGlobal]
      exact (steady_invalidateLocalWindow core).trans (steady_queueCostIncreases _ hs' _)

@[simp] theorem global_mapLocal (f : ValueIteratorLocal K → ValueIteratorLocal K) :
    (core.mapLocal f).global = core.global := by
  unfold mapLocal
  split
  · rfl
  · exact global_setLocal _ _

theorem steady_sense (hs : core.Shaped) {f : ValueIteratorLocal K → ValueIteratorLocal K}
    (hf : ∀ l, (f l).frame = l.frame) :
    core.global.Steady core.fullTable (core.sense f).global := by
  have hframe : (core.mapLocal f).harvestPenalties.frame = core.frame := by
    rw [frame_harvestPenalties, frame_mapLocal core hf]
  have htable : (core.mapLocal f).harvestPenalties.fullTable = core.fullTable := by
    have hb : (core.mapLocal f).harvestPenalties.build = core.build :=
      congrArg CoreFrame.build hframe
    unfold fullTable
    rw [hb]
  have hrest := steady_invalidateLocalInputs (core.mapLocal f).harvestPenalties
    (hs.of_frame hframe) core.localInputs
  rw [htable] at hrest
  refine (Manager.Steady.of_eq ?_).trans hrest
  rw [global_harvestPenalties, global_mapLocal]

theorem steady_passWindow (ticks : Nat) :
    core.global.Steady table (core.passWindow ticks).1.global := by
  unfold passWindow
  split
  · exact .refl _
  · exact .of_eq (global_setLocal _ _)

theorem steady_notePass (delta : Nat) : core.global.Steady table (core.notePass delta).global := by
  unfold notePass
  split
  · exact .refl _
  · simp only
    split
    · exact steady_voidCertificate core
    · rw [global_seedSweepWindow]
      exact steady_voidCertificate core

theorem steady_certifyLocal : core.global.Steady table core.certifyLocal.global :=
  ⟨le_refl _, le_refl _, le_refl _, le_refl _, rfl, rfl, Or.inl rfl⟩

theorem steady_refineRound (ticks : Nat) :
    core.global.Steady table (core.refineRound ticks).1.global := by
  have hnote : core.global.Steady table _ := (steady_passWindow core ticks).trans
    (steady_notePass (core.passWindow ticks).1 (core.passWindow ticks).2.1)
  unfold refineRound
  simp only
  split
  · split
    · refine hnote.trans (.trans (.of_eq ?_) (steady_certifyLocal _))
      rw [global_commitWindow]
    · refine hnote.trans (.of_eq ?_)
      rw [global_commitWindow]
  · exact hnote

theorem steady_refineRounds (fuel : Nat) : ∀ (ticks : Nat) (core : PlannerCore K),
    core.global.Steady table (refineRounds fuel ticks core).1.global := by
  induction fuel with
  | zero => exact fun _ _ => .refl _
  | succ fuel ih =>
    intro ticks core
    unfold refineRounds
    simp only
    split
    · exact steady_refineRound core ticks
    · exact (steady_refineRound core ticks).trans (ih _ _)

theorem steady_drainInvalidations (ticks : Nat) : ∀ core : PlannerCore K,
    core.global.Steady table (drainInvalidations ticks core).1.global := by
  induction ticks with
  | zero =>
    intro core
    unfold drainInvalidations
    simp only
    split <;> exact steady_advance _ _
  | succ ticks ih =>
    intro core
    unfold drainInvalidations
    simp only
    split
    · exact steady_advance _ _
    · exact (steady_advance core 512).trans (ih _)

theorem steady_refineFor (ticks : Nat) : core.global.Steady table (core.refineFor ticks).1.global := by
  unfold refineFor
  simp only
  split
  · exact steady_drainInvalidations _ _
  · exact (steady_drainInvalidations ticks core).trans (steady_refineRounds _ _ _)

theorem global_draftTile : core.draftTile.1.global = core.global := by
  unfold draftTile
  split
  · rfl
  · split
    · exact global_settleGlobal core
    · simp only
      split <;> rfl

theorem global_draftBatch {maxStates : Nat} {r : PlannerCore K × Option Draft}
    (h : core.draftBatch maxStates = some r) : r.1.global = core.global := by
  unfold draftBatch at h
  split at h
  · obtain ⟨swr, _, h⟩ := Option.bind_eq_some_iff.mp h
    obtain ⟨sw, _, h⟩ := Option.map_eq_some_iff.mp h
    split at h
    · rw [← h]
      exact global_settleGlobal _
    · rw [← h]
  · cases h
    rfl

theorem steady_checkOut (d : Draft) : core.global.Steady table (core.checkOut d).1.global :=
  ⟨le_refl _, Nat.le_succ _, le_refl _, le_refl _, rfl, rfl, Or.inl rfl⟩

theorem steady_prepareGlobalJob {maxStates : Nat} {r : PlannerCore K × Option GlobalJob}
    (h : core.prepareGlobalJob maxStates = some r) : core.global.Steady table r.1.global := by
  unfold prepareGlobalJob at h
  simp only at h
  have hadv : core.global.Steady table _ := steady_advance core (min (max maxStates 1) 5000)
  split at h
  · cases h
    exact hadv
  · split at h
    · cases h
      exact hadv
    · obtain ⟨d, hd, h⟩ := Option.map_eq_some_iff.mp h
      have hdraft : core.global.Steady table d.1.global := by
        split at hd
        · cases hd
          exact hadv.trans (.of_eq (global_draftTile _))
        · exact hadv.trans (.of_eq (global_draftBatch _ hd))
      split at h
      · rw [← h]
        exact hdraft
      · rw [← h]
        exact hdraft.trans (steady_checkOut _ _)

theorem steady_publishCell (job : GlobalJob) (acc : PlannerCore K × List Cell × List Cell)
    (c : Cell) : acc.1.global.Steady table (publishCell job acc c).1.global := by
  unfold publishCell
  simp only
  split
  · split
    · exact .refl _
    · exact ⟨le_refl _, le_refl _, le_refl _, le_refl _, rfl, rfl, Or.inl rfl⟩
  · split
    · exact .refl _
    · split
      · exact .refl _
      · split <;> exact .refl _
      · split
        · exact .refl _
        · split <;> exact .refl _

theorem steady_publishCells (job : GlobalJob) (cs : List Cell) :
    ∀ acc : PlannerCore K × List Cell × List Cell,
      acc.1.global.Steady table (cs.foldl (publishCell job) acc).1.global := by
  induction cs with
  | nil => exact fun _ => .refl _
  | cons c cs ih => exact fun acc => (steady_publishCell job acc c).trans (ih _)

theorem steady_changeBoundary : core.global.Steady table core.changeBoundary.global := by
  unfold changeBoundary
  rw [global_refreshLocalBoundary]
  exact ⟨le_refl _, le_refl _, le_refl _, Nat.le_succ _, rfl, rfl, Or.inl rfl⟩

theorem steady_afterPublish (changed retry : List Cell) :
    core.global.Steady table (core.afterPublish changed retry).global := by
  have henq := global_enqueueCells core (changed ++ retry)
  unfold afterPublish
  simp only
  split
  · exact .of_eq henq
  · exact (Manager.Steady.of_eq henq).trans (steady_changeBoundary _)

theorem steady_commitGlobalJob (job : GlobalJob) :
    core.global.Steady table (core.commitGlobalJob job).1.global := by
  unfold commitGlobalJob
  split
  · simp only
    split
    · rw [global_enqueueCells]
      exact steady_landGlobal core
    · exact .refl _
  · simp only [global_settleGlobal]
    exact ((steady_landGlobal core).trans
      (steady_publishCells job job.cells (core.landGlobal, [], []))).trans
        (steady_afterPublish _ _ _)

theorem steady_prepareLocalJob : core.global.Steady table core.prepareLocalJob.1.global := by
  have hadv : core.global.Steady table _ := steady_advance core 512
  unfold prepareLocalJob
  simp only
  split
  · exact hadv
  · split
    · split
      · exact hadv
      · exact hadv.trans ⟨le_refl _, Nat.le_succ _, le_refl _, le_refl _, rfl, rfl, Or.inl rfl⟩
    · exact hadv

theorem steady_commitLocalJob (job : LocalJob) :
    core.global.Steady table (core.commitLocalJob job).1.global := by
  unfold commitLocalJob
  split
  · simp only
    split
    · exact steady_landLocal core
    · exact .refl _
  · simp only
    split
    · exact steady_landLocal core
    · split
      · exact steady_landLocal core
      · simp only [global_settleGlobal]
        have hpub (c : PlannerCore K) (cs : List Cell) : (if c.cfg.useCompact = true then
            c.commitWindow else c.enqueueCells cs).global = c.global := by
          split
          · exact global_commitWindow c
          · exact global_enqueueCells c cs
        have hcert (c : PlannerCore K) (b : Prop) [Decidable b] :
            c.global.Steady table (if b then c.certifyLocal else c).global := by
          split
          · exact steady_certifyLocal c
          · exact .refl _
        refine Manager.Steady.trans ?_ (hcert _ _)
        refine Manager.Steady.trans ?_ (steady_voidCertificate _)
        rw [hpub, global_setLocal]
        exact steady_landLocal core

/-- Ownership follows the window: a change of the owned columns is counted. -/
structure Follows (table : List (List Predecessor)) (core core' : PlannerCore K) : Prop where
  epoch : core.global.epoch ≤ core'.global.epoch
  serial : core.global.serial ≤ core'.global.serial
  localRevision : core.global.localRevision ≤ core'.global.localRevision
  boundaryRevision : core.global.boundaryRevision ≤ core'.global.boundaryRevision
  kept : core'.global.epoch = core.global.epoch →
    core'.global.localRevision = core.global.localRevision →
      core'.global.owned = core.global.owned
  reverse : core'.global.invalidation.reverse = core.global.invalidation.reverse ∨
    core'.global.invalidation.reverse = table

theorem Follows.of_steady {core core' : PlannerCore K} (h : core.global.Steady table core'.global) :
    Follows table core core' :=
  ⟨h.epoch, h.serial, h.localRevision, h.boundaryRevision, fun _ _ => h.owned, h.reverse⟩

theorem Follows.trans {core core' core'' : PlannerCore K} (h : Follows table core core')
    (h' : Follows table core' core'') : Follows table core core'' where
  epoch := h.epoch.trans h'.epoch
  serial := h.serial.trans h'.serial
  localRevision := h.localRevision.trans h'.localRevision
  boundaryRevision := h.boundaryRevision.trans h'.boundaryRevision
  kept he hr := by
    have h1 := h.epoch
    have h2 := h'.epoch
    have h3 := h.localRevision
    have h4 := h'.localRevision
    rw [h'.kept (by omega) (by omega), h.kept (by omega) (by omega)]
  reverse := by
    rcases h'.reverse with h2 | h2
    · rw [h2]
      exact h.reverse
    · exact Or.inr h2

theorem global_releaseDeferred : core.releaseDeferred.global = { core.global with
    deferred := core.global.deferred.filter fun c => c ∈ core.global.owned } := by
  unfold releaseDeferred
  rw [global_enqueueCells]

theorem owned_setOwned (owned : List Cell) : (core.setOwned owned).global.owned = owned := by
  unfold setOwned
  split
  · rfl
  · next h => exact (not_not.mp h).symm

theorem owned_updateLocalOwnership : core.updateLocalOwnership.global.owned =
    if core.global.owner.isSome then core.windowCells else [] := by
  unfold updateLocalOwnership
  rw [global_releaseDeferred]
  exact owned_setOwned core _

theorem global_setOwned_of_ne {owned : List Cell} (h : owned ≠ core.global.owned) :
    (core.setOwned owned).global = { core.global with
      localRevision := core.global.localRevision + 1
      certified := false
      owned := owned } := by
  unfold setOwned
  rw [if_pos h]
  cases hc : core.global.certified
  · simp only [Bool.false_eq_true, if_false, global_enqueueCells]
  · simp only [if_true]

theorem follows_setOwned (owned : List Cell) : Follows table core (core.setOwned owned) := by
  by_cases h : owned = core.global.owned
  · have hsame : core.setOwned owned = core := by
      unfold setOwned
      rw [if_neg (not_not.mpr h)]
    rw [hsame]
    exact .of_steady (.refl _)
  · have hglobal := global_setOwned_of_ne core h
    refine ⟨?_, ?_, ?_, ?_, ?_, ?_⟩
    · rw [hglobal]
    · rw [hglobal]
    · rw [hglobal]
      exact Nat.le_succ _
    · rw [hglobal]
    · intro _ hr
      rw [hglobal] at hr
      exact absurd hr (Nat.succ_ne_self _)
    · rw [hglobal]
      exact Or.inl rfl

theorem follows_releaseDeferred : Follows table core core.releaseDeferred := by
  apply Follows.of_steady
  rw [global_releaseDeferred]
  exact ⟨le_refl _, le_refl _, le_refl _, le_refl _, rfl, rfl, Or.inl rfl⟩

theorem follows_updateLocalOwnership : Follows table core core.updateLocalOwnership :=
  (follows_setOwned core _).trans (follows_releaseDeferred _)

theorem follows_claimLocal : Follows table core core.claimLocal.1 := by
  unfold claimLocal
  refine .trans ?_ (follows_updateLocalOwnership _)
  exact ⟨le_refl _, Nat.le_succ _, le_refl _, le_refl _, fun _ _ => rfl, Or.inl rfl⟩

theorem follows_releaseLocal (owner : Nat) : Follows table core (core.releaseLocal owner) := by
  unfold releaseLocal
  split
  · refine .trans ?_ (follows_updateLocalOwnership _)
    exact ⟨le_refl _, le_refl _, le_refl _, le_refl _, fun _ _ => rfl, Or.inl rfl⟩
  · exact .of_steady (.refl _)

theorem follows_dropGoal : Follows table core core.dropGoal :=
  ⟨Nat.le_succ _, le_refl _, le_refl _, le_refl _, fun he _ => absurd he (Nat.succ_ne_self _),
    Or.inl rfl⟩

theorem global_withTools {core core' : PlannerCore K} (h : core.withTools = some core') :
    core'.global = core.global := by
  unfold withTools at h
  split at h
  · obtain ⟨p, _, h⟩ := Option.bind_eq_some_iff.mp h
    split at h
    · obtain ⟨r, _, h⟩ := Option.map_eq_some_iff.mp h
      rw [← h]
    · cases h
      rfl
  · cases h
    rfl

theorem global_prepareGoal (solved : Option (CachedGoal K)) :
    (core.prepareGoal solved).global = core.dropGoal.global := by
  unfold prepareGoal
  split
  · next ht =>
    rw [← global_withTools ht]
    simp only
    split
    · rfl
    · split
      · rfl
      · exact global_seedSweepAll _
  · rfl
  · next ht => rw [← global_withTools ht]

theorem follows_discardPartial : Follows table core core.discardPartial := by
  unfold discardPartial
  split
  · exact ⟨Nat.le_succ _, le_refl _, le_refl _, le_refl _,
      fun he _ => absurd he (Nat.succ_ne_self _),
    Or.inl rfl⟩
  · exact .of_steady (.refl _)

section
variable [Trig K]

theorem global_placeWindow (pose : PoseView K) :
    (core.placeWindow pose).global = core.global := by
  unfold placeWindow
  split
  · rfl
  · rfl
  · split <;> rfl

theorem follows_setWindow (pose : PoseView K) : Follows table core (core.setWindow pose) := by
  unfold setWindow
  split
  · exact .of_steady (.refl _)
  · split
    · exact .of_steady (.refl _)
    · simp only
      refine .trans ?_ (follows_updateLocalOwnership _)
      split
      · exact .of_steady (.of_eq (global_placeWindow core pose))
      · refine .trans (.of_steady (.of_eq (global_placeWindow core pose))) (.of_steady ?_)
        exact ⟨le_refl _, le_refl _, Nat.le_succ _, le_refl _, rfl, rfl, Or.inl rfl⟩

end

end

end PlannerCore

end ValueIteration
