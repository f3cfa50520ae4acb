import ValueIteration.Planner.Columns
import ValueIteration.Planner.Snapshots

/-!
# What each operation queues

No operation but the preparation of a job takes a column off the queue. What it
changes it queues, with all columns that may read it.
-/

set_option autoImplicit false
set_option linter.unusedSectionVars false

namespace ValueIteration

namespace PlannerCore

section
variable {K : Type} {core core' core'' : PlannerCore K} {S S' : Cell → Prop}

/-- Some state of the column has another value or action. -/
def Moved (core core' : PlannerCore K) (n : Cell) : Prop :=
  ∃ t : Int, (0 ≤ t ∧ t < core.build.thetaCellNum) ∧
    core'.entry ⟨n.1, n.2, t⟩ ≠ core.entry ⟨n.1, n.2, t⟩

theorem moved_trans (hb : core'.build = core.build) {n : Cell} (h : Moved core core'' n) :
    Moved core core' n ∨ Moved core' core'' n := by
  obtain ⟨t, ht, hne⟩ := h
  by_cases heq : core'.entry ⟨n.1, n.2, t⟩ = core.entry ⟨n.1, n.2, t⟩
  · refine Or.inr ⟨t, by rw [hb]; exact ht, ?_⟩
    rw [heq]
    exact hne
  · exact Or.inl ⟨t, ht, heq⟩

theorem not_moved_of_cached (h : core'.cached = core.cached) (n : Cell) :
    ¬ Moved core core' n := by
  rintro ⟨t, _, hne⟩
  exact hne (congrFun (entry_congr h) _)

theorem Widens.trans_moved (h : Widens core core' (Moved core core'))
    (h' : Widens core' core'' (Moved core' core'')) : Widens core core'' (Moved core core'') :=
  (h.trans h').weaken fun _ _ hm => moved_trans h.build hm

/-- Before a step that keeps both queues. -/
theorem Widens.after_same (hb : core'.build = core.build)
    (hr : core'.repair = core.repair) (hs : core'.sweep = core.sweep) (h : Widens core' core'' S) :
    Widens core core'' S where
  build := h.build.trans hb
  fits := h.fits
  mono c hc := h.mono c
    ((queued_congr hb (by rw [hr]) (by rw [hs]; exact fun _ _ => Iff.rfl) c).mpr hc)
  near n c hS hn hc hnear := by
    rw [← onMap_of_build hb] at hn hc
    rw [reach, ← hb] at hnear
    exact h.near n c hS hn hc hnear

/-- After a step that keeps both queues. -/
theorem Widens.before_same (h : Widens core core' S) (hb : core''.build = core'.build)
    (hr : core''.repair = core'.repair) (hs : core''.sweep = core'.sweep) :
    Widens core core'' S :=
  (h.trans (Widens.of_same h.fits hb hr hs)).weaken fun _ _ hn => Or.inl hn

/-- The same core with other bookkeeping. -/
def withGlobal (core : PlannerCore K) (m : Manager) : PlannerCore K := { core with global := m }

theorem Widens.of_withGlobal {m : Manager} (h : Widens (core.withGlobal m) core' S) :
    Widens core core' S :=
  @Widens.after_same _ core (core.withGlobal m) core' S rfl rfl rfl h

theorem QueueFits.withGlobal (hq : core.QueueFits) (m : Manager) :
    (core.withGlobal m).QueueFits := ⟨hq.sweep, hq.repair⟩

theorem Shaped.withGlobal (hs : core.Shaped) (m : Manager) : (core.withGlobal m).Shaped :=
  hs.of_frame rfl

theorem widens_requeued (hs : core.Shaped) (hq : core.QueueFits) (q : Pos) :
    Widens core (core.requeued q) (· = (q.ix, q.iy)) :=
  (widens_enqueueCell (hs.withGlobal _) (hq.withGlobal _) (q.ix, q.iy)).of_withGlobal

theorem entry_requeued (q : Pos) : (core.requeued q).entry = core.entry :=
  entry_congr (cached_enqueueGlobal _ _)

/-- Whoever loses an action is queued. -/
theorem widens_invalidatePredecessor (hs : core.Shaped) (hq : core.QueueFits) {e : Pos × Nat}
    (he : 0 ≤ e.1.it ∧ e.1.it < core.build.thetaCellNum) :
    Widens core (core.invalidatePredecessor e) (Moved core (core.invalidatePredecessor e)) := by
  have hsame : Widens core core (Moved core core) :=
    (Widens.of_same hq rfl rfl rfl).weaken fun n _ hm => not_moved_of_cached rfl n hm
  unfold invalidatePredecessor
  simp only
  split
  · exact hsame
  · next hmap =>
    have hcon : core.mapDims.Contains e.1 := by
      simp only [not_or, not_lt, not_le] at hmap
      exact ⟨⟨hmap.1, hmap.2.2.1⟩, ⟨hmap.2.1, hmap.2.2.2⟩, he⟩
    by_cases hst : core.standing e.1 = some e.2
    · obtain ⟨htrue, hclr⟩ := invalidatePolicyState_of_eq hs hst
      rw [if_pos htrue]
      generalize (core.invalidatePolicyState e.1 e.2).1 = r at hclr ⊢
      obtain ⟨hb, _, _, hrep, hsw, _⟩ := hclr.only
      have hqr : r.QueueFits := (Widens.of_same hq hb hrep hsw).fits
      refine (Widens.after_same hb hrep hsw (widens_requeued hclr.shaped hqr e.1)).weaken ?_
      rintro n hon ⟨t, ht, hne⟩
      have hn := onMap_iff.mp hon
      rw [entry_requeued, hclr.entry _ ⟨hn.1, hn.2, ht⟩] at hne
      by_cases heq : (⟨n.1, n.2, t⟩ : Pos) = e.1
      · rw [← heq]
      · rw [if_neg heq] at hne
        exact absurd rfl hne
    · rw [invalidatePolicyState_of_ne hcon hst, if_neg Bool.false_ne_true]
      exact hsame

end

section
variable {K : Type}

theorem reverse_invalidatePredecessor (core : PlannerCore K) (e : Pos × Nat) :
    (core.invalidatePredecessor e).global.invalidation.reverse =
      core.global.invalidation.reverse := by
  have h : (core.invalidatePredecessor e).global.withoutPending.invalidation.reverse =
      core.global.withoutPending.invalidation.reverse := by
    rw [withoutPending_invalidatePredecessor]
  exact h

theorem widens_foldl_invalidatePredecessor (es : List (Pos × Nat)) : ∀ {core : PlannerCore K},
    core.Shaped → core.QueueFits → (∀ e ∈ es, 0 ≤ e.1.it ∧ e.1.it < core.build.thetaCellNum) →
      Widens core (es.foldl invalidatePredecessor core)
        (Moved core (es.foldl invalidatePredecessor core)) := by
  induction es with
  | nil =>
    intro core _ hq _
    exact (Widens.of_same hq rfl rfl rfl).weaken fun n _ hm => not_moved_of_cached rfl n hm
  | cons e es ih =>
    intro core hs hq hes
    have hone := widens_invalidatePredecessor hs hq (hes e List.mem_cons_self)
    refine hone.trans_moved (ih (hs.of_frame (frame_invalidatePredecessor core e)) hone.fits ?_)
    rw [hone.build]
    exact fun e' he' => hes e' (List.mem_cons_of_mem _ he')

/-- The reverse table is not built yet, or it is the one of the actions. -/
def ReverseOk (core : PlannerCore K) : Prop :=
  core.global.invalidation.reverse = [] ∨ core.global.invalidation.reverse = core.fullTable

theorem ReverseOk.thetas {core : PlannerCore K} (h : core.ReverseOk) :
    ThetasOk core.global.invalidation.reverse core.build.thetaCellNum := by
  cases h with
  | inl h =>
    rw [h]
    exact nofun
  | inr h =>
    rw [h]
    exact thetasOk_reverseTable core.build.wellFormed

theorem ReverseOk.of_follows {table : List (List Predecessor)} {core core' : PlannerCore K}
    (h : core.ReverseOk) (hb : core'.build = core.build) (ht : table = core.fullTable)
    (hr : core'.global.invalidation.reverse = core.global.invalidation.reverse ∨
      core'.global.invalidation.reverse = table) : core'.ReverseOk := by
  unfold ReverseOk fullTable
  rw [hb]
  cases hr with
  | inl hr =>
    rw [hr]
    exact h
  | inr hr => exact Or.inr (hr.trans ht)

/-- A pop queues whatever it clears. -/
theorem widens_invalidateStep {core core' : PlannerCore K} (hs : core.Shaped)
    (hq : core.QueueFits) (hr : core.ReverseOk) (h : core.invalidateStep = some core') :
    Widens core core' (Moved core core') := by
  unfold invalidateStep at h
  split at h
  · cases h
  · next p rest _ =>
    cases h
    let m : Manager :=
      { core.global with invalidation := { core.global.invalidation with pending := rest } }
    exact (widens_foldl_invalidatePredecessor (core.preds p) (hs.withGlobal m) (hq.withGlobal m)
      fun e he => hr.thetas.preds he).of_withGlobal

theorem reverse_invalidateStep {core core' : PlannerCore K} (h : core.invalidateStep = some core') :
    core'.global.invalidation.reverse = core.global.invalidation.reverse := by
  unfold invalidateStep at h
  split at h
  · cases h
  · cases h
    exact foldl_keeps (fun c : PlannerCore K => c.global.invalidation.reverse)
      reverse_invalidatePredecessor _ _

theorem widens_advanceInvalidations (budget : Nat) : ∀ {core : PlannerCore K}, core.Shaped →
    core.QueueFits → core.ReverseOk → Widens core (core.advanceInvalidations budget).1
      (Moved core (core.advanceInvalidations budget).1) := by
  induction budget with
  | zero =>
    intro core _ hq _
    exact (Widens.of_same hq rfl rfl rfl).weaken fun n _ hm => not_moved_of_cached rfl n hm
  | succ budget ih =>
    intro core hs hq hr
    unfold advanceInvalidations
    cases h : core.invalidateStep with
    | none =>
      exact (Widens.of_same hq rfl rfl rfl).weaken fun n _ hm => not_moved_of_cached rfl n hm
    | some core' =>
      have hone := widens_invalidateStep hs hq hr h
      refine hone.trans_moved (ih (hs.of_frame (frame_invalidateStep h)) hone.fits ?_)
      exact hr.of_follows hone.build rfl (Or.inl (reverse_invalidateStep h))

end

section
variable {K : Type} {core : PlannerCore K}

theorem widens_queueCostIncreases (hq : core.QueueFits) (cs : List Cell) :
    Widens core (core.queueCostIncreases cs) fun _ => False := by
  unfold queueCostIncreases
  split
  · exact Widens.of_same hq rfl rfl rfl
  · simp only
    split
    · exact Widens.of_same hq rfl rfl rfl
    · exact Widens.of_same hq rfl rfl rfl

theorem widens_setLocal (hq : core.QueueFits) (l : ValueIteratorLocal K) :
    Widens core (core.setLocal l) fun _ => False := by
  unfold setLocal
  split
  · exact Widens.of_same hq rfl rfl rfl
  · split
    · exact Widens.of_same hq rfl rfl rfl
    · split
      · exact Widens.of_same hq rfl rfl rfl
      · split <;> exact Widens.of_same hq rfl rfl rfl

theorem widens_settleGlobal (hq : core.QueueFits) :
    Widens core core.settleGlobal.1 fun _ => False := by
  unfold settleGlobal
  simp only
  split
  · have hrep : (core.repair.map fun r => if 0 < r.visits then r.settle else r).map
        (fun r => (r.interior, r.tnx, r.queue)) =
          core.repair.map fun r => (r.interior, r.tnx, r.queue) := by
      cases core.repair with
      | none => rfl
      | some r =>
        simp only [Option.map_some]
        split <;> rfl
    have hsw : ∀ k c, (if core.repair.isNone = true ∧ 0 < core.sweep.visits then
        core.sweep.settle else core.sweep).Queued k c ↔ core.sweep.Queued k c := by
      intro k c
      split <;> exact Iff.rfl
    refine ⟨rfl, ⟨?_, ?_⟩, ?_, nofun⟩
    · simp only
      split
      · exact ⟨hq.sweep.pending, hq.sweep.cands, hq.sweep.nodup, hq.sweep.reach⟩
      · exact hq.sweep
    · intro r hr
      obtain ⟨r₀, hr₀, rfl⟩ := Option.map_eq_some_iff.mp hr
      have hfit := hq.repair r₀ hr₀
      split
      · exact ⟨hfit.marked, hfit.within, hfit.nodup⟩
      · exact hfit
    · intro c hc
      refine Iff.mpr (queued_congr ?_ ?_ ?_ c) hc
      · rfl
      · exact hrep
      · exact hsw
  · exact Widens.of_same hq rfl rfl rfl

/-- Seeding a rectangle of the dense field. -/
theorem widens_seedRect (hs : core.Shaped) (hq : core.QueueFits) {l : ValueIteratorLocal K}
    {part : Bool} (hc : core.cached = some ⟨.dense l, part⟩) (b : Int × Int × Int × Int) :
    Widens core { core with sweep := core.sweep.seedRect l.base.dims.nx l.base.dims.ny b }
      (InRect b) := by
  obtain ⟨huse, hd, _⟩ := hs.dense l part hc
  have hnone : core.repair = none := by
    cases hr : core.repair with
    | none => rfl
    | some r => exact absurd (hs.repair r hr).1 (by rw [huse]; exact Bool.false_ne_true)
  have heq := widens_enqueueGlobal hs hq b
  unfold enqueueGlobal at heq
  rw [hnone] at heq
  rw [hd]
  exact heq.before_same rfl hnone rfl

theorem widens_seedSweepWindow (hs : core.Shaped) (hq : core.QueueFits) :
    Widens core core.seedSweepWindow fun n => ∃ l part, core.cached = some ⟨.dense l, part⟩ ∧
      InRect (l.localIxMin, l.localIxMax, l.localIyMin, l.localIyMax) n := by
  unfold seedSweepWindow
  split
  · next l part hc =>
    refine (widens_seedRect hs hq hc _).weaken ?_
    rintro n _ ⟨l', part', heq, hn⟩
    rw [hc] at heq
    cases heq
    exact hn
  · next hne =>
    refine (Widens.of_same hq rfl rfl rfl).weaken ?_
    rintro n _ ⟨l, part, heq, _⟩
    exact hne l part heq

theorem widens_seedSweepAll (hs : core.Shaped) (hq : core.QueueFits) :
    Widens core core.seedSweepAll fun _ => False := by
  unfold seedSweepAll
  split
  · next l part hc => exact (widens_seedRect hs hq hc _).weaken fun _ _ h => h.elim
  · exact Widens.of_same hq rfl rfl rfl

theorem fits_clear (hq : core.QueueFits) :
    (core.sweep.clear.Fits core.build.grid.width core.build.grid.height core.reach) ∧
      ∀ r, core.repair.map (·.clear) = some r → r.Fits := by
  refine ⟨hq.sweep.clear, ?_⟩
  intro r hr
  obtain ⟨r₀, _, rfl⟩ := Option.map_eq_some_iff.mp hr
  exact Repair.fits_clear r₀

end

section
variable {K : Type} [Field K] [LinearOrder K] [FloorRing K] {core : PlannerCore K}

theorem widens_harvestPenalties (hq : core.QueueFits) :
    Widens core core.harvestPenalties fun _ => False := by
  unfold harvestPenalties
  split
  · split <;> exact Widens.of_same hq rfl rfl rfl
  · exact Widens.of_same hq rfl rfl rfl

theorem widens_mapLocal (hq : core.QueueFits) (f : ValueIteratorLocal K → ValueIteratorLocal K) :
    Widens core (core.mapLocal f) fun _ => False := by
  unfold mapLocal
  split
  · exact Widens.of_same hq rfl rfl rfl
  · exact widens_setLocal hq _

/-- Changed inputs of the window queue its rectangle. -/
theorem widens_invalidateLocalInputs (hs : core.Shaped) (hq : core.QueueFits)
    (before : List (Bool × Nat × Nat)) : Widens core (core.invalidateLocalInputs before) fun n =>
      before ≠ core.localInputs ∧ ∃ l, core.localVi = some l ∧
        InRect (l.localIxMin + core.localOrigin.1, l.localIxMax + core.localOrigin.1,
          l.localIyMin + core.localOrigin.2, l.localIyMax + core.localOrigin.2) n := by
  unfold invalidateLocalInputs
  split
  · next h => exact (Widens.of_same hq rfl rfl rfl).weaken fun _ _ hn => hn.1 h
  · simp only
    have hinv : Widens core core.invalidateLocalWindow fun _ => False :=
      Widens.of_same hq rfl rfl rfl
    have hs' : core.invalidateLocalWindow.Shaped := hs.of_frame rfl
    split
    · next hl =>
      refine hinv.weaken ?_
      rintro n _ ⟨_, l, hl', _⟩
      exact absurd (hl.symm.trans hl') nofun
    · next l hl =>
      have hqueue := widens_queueCostIncreases hinv.fits
        (increasedCells l core.invalidateLocalWindow.localOrigin before)
      refine ((hinv.trans hqueue).trans (widens_enqueueGlobal (hs'.of_frame
        (frame_queueCostIncreases _ _)) hqueue.fits _)).weaken ?_
      rintro n _ ⟨_, l', hl', hn⟩
      cases Option.some.inj (hl.symm.trans hl')
      exact Or.inr hn

theorem widens_setOwned (hs : core.Shaped) (hq : core.QueueFits) (owned : List Cell) :
    Widens core (core.setOwned owned) fun n =>
      core.global.certified = false ∧ n ∈ core.global.owned ∧ n ∉ owned := by
  unfold setOwned
  split
  · simp only
    cases hc : core.global.certified with
    | true =>
      simp only [if_true]
      refine Widens.weaken (S := fun _ => False) (Widens.of_same hq rfl rfl rfl) ?_
      rintro n _ ⟨h, _⟩
      cases h
    | false =>
      simp only [Bool.false_eq_true, if_false]
      have hcells := widens_enqueueCells (core.global.owned.filter fun c => c ∉ owned) hs hq
      refine Widens.before_same (hcells.weaken ?_) ?_ ?_ ?_
      · rintro n _ ⟨_, hn, hno⟩
        exact List.mem_filter.mpr ⟨hn, decide_eq_true hno⟩
      · rfl
      · rfl
      · rfl
  · next h =>
    refine (Widens.of_same hq rfl rfl rfl).weaken ?_
    rintro n _ ⟨_, hn, hno⟩
    rw [not_not.mp h] at hno
    exact hno hn

theorem widens_releaseDeferred (hs : core.Shaped) (hq : core.QueueFits) :
    Widens core core.releaseDeferred fun n =>
      n ∈ core.global.deferred ∧ n ∉ core.global.owned := by
  let m : Manager := { core.global with
    deferred := core.global.deferred.filter fun c => c ∈ core.global.owned }
  refine (widens_enqueueCells (core.global.deferred.filter fun c => c ∉ core.global.owned)
    (hs.withGlobal m) (hq.withGlobal m)).of_withGlobal.weaken ?_
  rintro n _ ⟨hn, hno⟩
  exact List.mem_filter.mpr ⟨hn, decide_eq_true hno⟩

/-- Columns that are not owned any more are queued, unless they were certified. -/
theorem widens_updateLocalOwnership (hs : core.Shaped) (hq : core.QueueFits) :
    Widens core core.updateLocalOwnership fun n => n ∉ core.updateLocalOwnership.global.owned ∧
      ((core.global.certified = false ∧ n ∈ core.global.owned) ∨ n ∈ core.global.deferred) := by
  have hown := widens_setOwned hs hq (if core.global.owner.isSome then core.windowCells else [])
  have hrel := widens_releaseDeferred (hs.of_frame (frame_setOwned core
    (if core.global.owner.isSome then core.windowCells else []))) hown.fits
  have hdef (owned : List Cell) : (core.setOwned owned).global.deferred = core.global.deferred := by
    by_cases h : owned = core.global.owned
    · unfold setOwned
      rw [if_neg (not_not.mpr h)]
    · rw [global_setOwned_of_ne core h]
  refine (hown.trans hrel).weaken ?_
  rintro n _ ⟨hno, hn⟩
  have hno' : n ∉ (core.setOwned
      (if core.global.owner.isSome then core.windowCells else [])).global.owned := by
    unfold updateLocalOwnership at hno
    rw [global_releaseDeferred] at hno
    exact hno
  cases hn with
  | inl h =>
    refine Or.inl ⟨h.1, h.2, ?_⟩
    rw [← owned_setOwned core (if core.global.owner.isSome then core.windowCells else [])]
    exact hno'
  | inr h =>
    refine Or.inr ⟨?_, hno'⟩
    rw [hdef]
    exact h

end

section
variable {K : Type} [Field K] [LinearOrder K] [FloorRing K] {core : PlannerCore K}

theorem entry_compact {f : CompactField K} {part : Bool}
    (hc : core.cached = some ⟨.compact f, part⟩) (q : Pos) :
    core.entry q = ((f.read q).1, stateAction (f.read q).2) := by
  unfold entry
  rw [hc]

theorem onMap_sink (hs : core.Shaped) {f : CompactField K} {part : Bool}
    (hf : core.cached = some ⟨.compact f, part⟩) (g : Cell) : f.onMap g = core.onMap g := by
  have hd := (hs.compact f part hf).2
  unfold CompactField.onMap onMap
  rw [hd]
  rfl

theorem sink_contains (hs : core.Shaped) {f : CompactField K} {part : Bool}
    (hf : core.cached = some ⟨.compact f, part⟩) {g : Pos} (hg : core.onMap g.cell = true)
    (ht : 0 ≤ g.it ∧ g.it < core.build.thetaCellNum) : f.sink.dims.Contains g := by
  have hon := onMap_iff.mp hg
  rw [(hs.compact f part hf).2]
  exact ⟨hon.1, hon.2, ht⟩

/-- A column of the window that is written is queued. -/
theorem widens_commitWindowCell (hs : core.Shaped) (hq : core.QueueFits) (p : Patch K)
    (p0 c : Cell) : Widens core (commitWindowCell p p0 core c) fun n =>
      core.repair.isSome = true ∧ Moved core (commitWindowCell p p0 core c) n := by
  unfold commitWindowCell
  split
  · next f part hc =>
    simp only [CompactField.commitStates_single]
    cases hw : (f.commitColumn p.vi.base p0 c).2 with
    | false =>
      simp only [Bool.false_eq_true, if_false, CompactField.commitColumn_of_not_written hw]
      refine Widens.weaken (S := fun _ => False) (Widens.of_same hq rfl rfl rfl) ?_
      rintro n _ ⟨_, hm⟩
      exact not_moved_of_cached hc.symm n hm
    | true =>
      simp only [if_true]
      cases hr : core.repair with
      | none =>
        refine Widens.weaken (S := fun _ => False) (Widens.of_same hq rfl hr.symm rfl) ?_
        rintro n _ ⟨h, _⟩
        cases h
      | some r =>
        have hbox := widens_enqueueGlobal hs hq
          (p0.1 + c.1, p0.1 + c.1, p0.2 + c.2, p0.2 + c.2)
        refine Widens.before_same (hbox.weaken ?_) ?_ ?_ ?_
        · rintro n hon ⟨_, t, ht, hne⟩
          apply (inRect_singleton (n := (p0.1 + c.1, p0.2 + c.2))).mpr
          have hcon : f.sink.dims.Contains ⟨n.1, n.2, t⟩ := sink_contains hs hc hon ht
          by_contra hcell
          have hcell' : ¬ (⟨n.1, n.2, t⟩ : Pos).cell = (p0.1 + c.1, p0.2 + c.2) := hcell
          apply hne
          rw [entry_compact hc, entry_compact rfl,
            CompactField.read_commitColumn _ _ _ hcon, if_neg hcell']
        · exact (build_enqueueGlobal core _).symm
        · simp only [enqueueGlobal, hr]
        · simp only [enqueueGlobal, hr]
  · refine Widens.weaken (S := fun _ => False) (Widens.of_same hq rfl rfl rfl) ?_
    rintro n _ ⟨_, hm⟩
    exact not_moved_of_cached rfl n hm

theorem repair_commitWindowCell (p : Patch K) (p0 c : Cell) (core : PlannerCore K) :
    (commitWindowCell p p0 core c).repair.isSome = core.repair.isSome := by
  have h := congrArg CoreFrame.repair (frame_commitWindowCell core p p0 c)
  simp only [frame] at h
  have hsome (o : Option Repair) : o.isSome = (o.map Repair.frame).isSome := by
    cases o <;> rfl
  rw [hsome, h, ← hsome]

theorem widens_foldl_commitWindowCell (p : Patch K) (p0 : Cell) (cs : List Cell) :
    ∀ {core : PlannerCore K}, core.Shaped → core.QueueFits →
      Widens core (cs.foldl (commitWindowCell p p0) core) fun n =>
        core.repair.isSome = true ∧ Moved core (cs.foldl (commitWindowCell p p0) core) n := by
  induction cs with
  | nil =>
    intro core _ hq
    refine Widens.weaken (S := fun _ => False) (Widens.of_same hq rfl rfl rfl) ?_
    exact fun n _ h => not_moved_of_cached rfl n h.2
  | cons c cs ih =>
    intro core hs hq
    have hone := widens_commitWindowCell hs hq p p0 c
    have hrest := ih (hs.of_frame (frame_commitWindowCell core p p0 c)) hone.fits
    refine (hone.trans hrest).weaken ?_
    rintro n _ ⟨hrep, hm⟩
    cases moved_trans hone.build hm with
    | inl hm => exact Or.inl ⟨hrep, hm⟩
    | inr hm => exact Or.inr ⟨by rw [repair_commitWindowCell]; exact hrep, hm⟩

theorem widens_commitWindow (hs : core.Shaped) (hq : core.QueueFits) :
    Widens core core.commitWindow fun n =>
      core.repair.isSome = true ∧ Moved core core.commitWindow n := by
  have hsame : Widens core core fun n => core.repair.isSome = true ∧ Moved core core n := by
    refine Widens.weaken (S := fun _ => False) (Widens.of_same hq rfl rfl rfl) ?_
    exact fun n _ h => not_moved_of_cached rfl n h.2
  unfold commitWindow
  split
  · split
    · exact hsame
    · exact widens_foldl_commitWindowCell _ _ _ hs hq
  · exact hsame

theorem widens_refreshLocalBoundary (hq : core.QueueFits) :
    Widens core core.refreshLocalBoundary fun _ => False := by
  unfold refreshLocalBoundary
  split
  · split <;> exact Widens.of_same hq rfl rfl rfl
  · exact Widens.of_same hq rfl rfl rfl

theorem widens_passWindow (hq : core.QueueFits) (ticks : Nat) :
    Widens core (core.passWindow ticks).1 fun _ => False := by
  unfold passWindow
  split
  · exact Widens.of_same hq rfl rfl rfl
  · exact widens_setLocal hq _

/-- A pass that moved something seeds the dense window. -/
theorem widens_notePass (hs : core.Shaped) (hq : core.QueueFits) (delta : Nat) :
    Widens core (core.notePass delta) fun n => delta ≠ 0 ∧ ∃ l part,
      core.cached = some ⟨.dense l, part⟩ ∧
        InRect (l.localIxMin, l.localIxMax, l.localIyMin, l.localIyMax) n := by
  unfold notePass
  split
  · next h =>
    refine Widens.weaken (S := fun _ => False) (Widens.of_same hq rfl rfl rfl) ?_
    exact fun _ _ hn => hn.1 h
  · simp only
    have hvoid : Widens core core.voidCertificate fun _ => False := Widens.of_same hq rfl rfl rfl
    split
    · next huse =>
      refine hvoid.weaken ?_
      rintro n _ ⟨_, l, part, hc, _⟩
      exact absurd (hs.dense l part hc).1 (by rw [show core.cfg.useCompact = true from huse]; nofun)
    · have hs' : core.voidCertificate.Shaped := hs.of_frame rfl
      refine Widens.weaken (Widens.after_same ?_ ?_ ?_ (widens_seedSweepWindow ?_ ?_)) ?_
      · rfl
      · rfl
      · rfl
      · exact hs'.of_frame rfl
      · exact ⟨hq.sweep, hq.repair⟩
      · exact fun n _ hn => hn.2

/-- A rejected or changed column is queued again. -/
theorem widens_afterPublish (hs : core.Shaped) (hq : core.QueueFits) (changed retry : List Cell) :
    Widens core (core.afterPublish changed retry) (· ∈ changed ++ retry) := by
  have hcells := widens_enqueueCells (changed ++ retry) hs hq
  unfold afterPublish
  simp only
  split
  · exact hcells
  · have hboundary : Widens (core.enqueueCells (changed ++ retry))
        (core.enqueueCells (changed ++ retry)).changeBoundary fun _ => False := by
      unfold changeBoundary
      refine Widens.after_same ?_ ?_ ?_ (widens_refreshLocalBoundary ?_)
      · rfl
      · rfl
      · rfl
      · exact ⟨hcells.fits.sweep, hcells.fits.repair⟩
    exact (hcells.trans hboundary).weaken fun _ _ hn => Or.inl hn

theorem widens_publishCell (job : GlobalJob) {acc : PlannerCore K × List Cell × List Cell}
    (hq : acc.1.QueueFits) (c : Cell) :
    Widens acc.1 (publishCell job acc c).1 fun _ => False := by
  unfold publishCell
  simp only
  split
  · split <;> exact Widens.of_same hq rfl rfl rfl
  · split
    · exact Widens.of_same hq rfl rfl rfl
    · split
      · exact Widens.of_same hq rfl rfl rfl
      · split <;> exact Widens.of_same hq rfl rfl rfl
      · split
        · exact Widens.of_same hq rfl rfl rfl
        · split <;> exact Widens.of_same hq rfl rfl rfl

theorem widens_publishCells (job : GlobalJob) (cs : List Cell) :
    ∀ {acc : PlannerCore K × List Cell × List Cell}, acc.1.QueueFits →
      Widens acc.1 (cs.foldl (publishCell job) acc).1 fun _ => False := by
  induction cs with
  | nil => exact fun hq => Widens.of_same hq rfl rfl rfl
  | cons c cs ih =>
    intro acc hq
    have hone := widens_publishCell job hq c
    exact (hone.trans (ih hone.fits)).weaken fun _ _ h => h.elim

end

section
variable {K : Type} [Field K] [LinearOrder K] [FloorRing K] {core : PlannerCore K}

/-- A step that keeps the queues in order and drops nothing. -/
def Keeps (core core' : PlannerCore K) : Prop := Widens core core' fun _ => False

theorem Widens.keeps {core' : PlannerCore K} {S : Cell → Prop} (h : Widens core core' S) :
    Keeps core core' := h.weaken fun _ _ hn => hn.elim

theorem Keeps.trans {core' core'' : PlannerCore K} (h : Keeps core core')
    (h' : Keeps core' core'') : Keeps core core'' := (Widens.trans h h').keeps

theorem keeps_refl (hq : core.QueueFits) : Keeps core core := Widens.of_same hq rfl rfl rfl

theorem keeps_refineRound (hs : core.Shaped) (hq : core.QueueFits) (ticks : Nat) :
    Keeps core (core.refineRound ticks).1 := by
  have hpass := widens_passWindow hq ticks
  have hs₁ := hs.of_frame (frame_passWindow core ticks)
  have hnote := widens_notePass hs₁ hpass.fits (core.passWindow ticks).2.1
  have hs₂ := hs₁.of_frame (frame_notePass _ (core.passWindow ticks).2.1)
  have hboth : Keeps core ((core.passWindow ticks).1.notePass (core.passWindow ticks).2.1) :=
    Keeps.trans hpass hnote.keeps
  have hwin := hboth.trans (widens_commitWindow hs₂ hnote.fits).keeps
  unfold refineRound
  simp only
  split
  · split
    · exact hwin.trans (Widens.of_same hwin.fits rfl rfl rfl)
    · exact hwin
  · exact hboth

theorem keeps_refineRounds (fuel : Nat) : ∀ (ticks : Nat) {core : PlannerCore K}, core.Shaped →
    core.QueueFits → Keeps core (refineRounds fuel ticks core).1 := by
  induction fuel with
  | zero => exact fun _ _ _ hq => keeps_refl hq
  | succ fuel ih =>
    intro ticks core hs hq
    have hone := keeps_refineRound hs hq ticks
    unfold refineRounds
    simp only
    split
    · exact hone
    · exact hone.trans (ih _ (hs.of_frame (frame_refineRound core ticks)) hone.fits)

theorem keeps_advance (hs : core.Shaped) (hq : core.QueueFits) (hr : core.ReverseOk)
    (budget : Nat) : Keeps core (core.advanceInvalidations budget).1 :=
  (widens_advanceInvalidations budget hs hq hr).keeps

theorem reverseOk_advance (hr : core.ReverseOk) (budget : Nat) :
    (core.advanceInvalidations budget).1.ReverseOk :=
  hr.of_follows (congrArg CoreFrame.build (frame_advanceInvalidations budget core)) rfl
    (steady_advance core budget : core.global.Steady core.fullTable _).reverse

theorem keeps_drainInvalidations (ticks : Nat) : ∀ {core : PlannerCore K}, core.Shaped →
    core.QueueFits → core.ReverseOk → Keeps core (drainInvalidations ticks core).1 := by
  induction ticks with
  | zero =>
    intro core hs hq hr
    unfold drainInvalidations
    simp only
    split <;> exact keeps_advance hs hq hr 512
  | succ ticks ih =>
    intro core hs hq hr
    have hone := keeps_advance hs hq hr 512
    unfold drainInvalidations
    simp only
    split
    · exact hone
    · exact hone.trans (ih (hs.of_frame (frame_advanceInvalidations 512 core)) hone.fits
        (reverseOk_advance hr 512))

theorem keeps_refineFor (hs : core.Shaped) (hq : core.QueueFits) (hr : core.ReverseOk)
    (ticks : Nat) : Keeps core (core.refineFor ticks).1 := by
  have hdrain := keeps_drainInvalidations ticks hs hq hr
  unfold refineFor
  simp only
  split
  · exact hdrain
  · exact hdrain.trans (keeps_refineRounds _ _
      (hs.of_frame (frame_drainInvalidations ticks core)) hdrain.fits)

theorem keeps_sense (hs : core.Shaped) (hq : core.QueueFits)
    {f : ValueIteratorLocal K → ValueIteratorLocal K} (hf : ∀ l, (f l).frame = l.frame) :
    Keeps core (core.sense f) := by
  have hmap := widens_mapLocal hq f
  have hharvest := widens_harvestPenalties hmap.fits
  have hs' : (core.mapLocal f).harvestPenalties.Shaped := by
    apply hs.of_frame
    rw [frame_harvestPenalties, frame_mapLocal core hf]
  exact (Keeps.trans hmap hharvest).trans
    (widens_invalidateLocalInputs hs' hharvest.fits core.localInputs).keeps

theorem keeps_claimLocal (hs : core.Shaped) (hq : core.QueueFits) :
    Keeps core core.claimLocal.1 := by
  let m : Manager := { core.global with
    serial := core.global.serial + 1
    owner := some (core.global.serial + 1)
    localInFlight := none
    certified := false }
  exact (widens_updateLocalOwnership (hs.withGlobal m) (hq.withGlobal m)).of_withGlobal.keeps

theorem keeps_releaseLocal (hs : core.Shaped) (hq : core.QueueFits) (owner : Nat) :
    Keeps core (core.releaseLocal owner) := by
  unfold releaseLocal
  split
  · let m : Manager := { core.global with owner := none, localInFlight := none }
    exact (widens_updateLocalOwnership (hs.withGlobal m) (hq.withGlobal m)).of_withGlobal.keeps
  · exact keeps_refl hq

theorem keeps_restartGlobalCheck (hs : core.Shaped) (hq : core.QueueFits) :
    Keeps core core.restartGlobalCheck.1 := by
  unfold restartGlobalCheck
  split
  · exact keeps_refl hq
  · simp only
    split
    · next r hr =>
      obtain ⟨hfit, hmem⟩ := Repair.Fits.foldl_push (List.range (r.tnx * r.tny).toNat)
        (hq.repair r hr)
      have hframe := Repair.frame_enqueueAll r
      simp only [Repair.frame, Prod.mk.injEq] at hframe
      obtain ⟨_, hint, _, htnx, _⟩ := hframe
      refine ⟨rfl, ⟨hq.sweep, ?_⟩, ?_, ?_⟩
      · intro r' heq
        cases heq
        exact hfit
      · rintro c ⟨hc, hqc⟩
        simp only [hr] at hqc
        refine ⟨hc, ?_⟩
        simp only [Repair.tileOf, hint, htnx]
        exact (hmem _).mpr (Or.inl hqc)
      · intro c _ h
        exact h.elim
    · exact (widens_seedSweepAll hs hq).before_same rfl rfl rfl

theorem keeps_commitGlobalJob (hs : core.Shaped) (hq : core.QueueFits) (job : GlobalJob) :
    Keeps core (core.commitGlobalJob job).1 := by
  have hland : Keeps core core.landGlobal := Widens.of_same hq rfl rfl rfl
  have hs₁ : core.landGlobal.Shaped := hs.of_frame rfl
  unfold commitGlobalJob
  split
  · simp only
    split
    · exact hland.trans (widens_enqueueCells _ hs₁ hland.fits).keeps
    · exact keeps_refl hq
  · have hpub := widens_publishCells job job.cells
      (show ((core.landGlobal, [], []) : PlannerCore K × List Cell × List Cell).1.QueueFits from
        hland.fits)
    have hs₂ : (job.cells.foldl (publishCell job) (core.landGlobal, [], [])).1.Shaped :=
      hs₁.of_frame (foldl_keeps (fun a : PlannerCore K × List Cell × List Cell => a.1.frame)
        (frame_publishCell job) _ _)
    have hafter := widens_afterPublish hs₂ hpub.fits
      (job.cells.foldl (publishCell job) (core.landGlobal, [], [])).2.1
      (job.cells.foldl (publishCell job) (core.landGlobal, [], [])).2.2
    exact ((hland.trans hpub).trans hafter.keeps).trans (widens_settleGlobal hafter.fits).keeps

theorem keeps_prepareLocalJob (hs : core.Shaped) (hq : core.QueueFits) (hr : core.ReverseOk) :
    Keeps core core.prepareLocalJob.1 := by
  have hadv := keeps_advance hs hq hr 512
  unfold prepareLocalJob
  simp only
  split
  · exact hadv
  · split
    · split
      · exact hadv
      · exact hadv.trans (Widens.of_same hadv.fits rfl rfl rfl)
    · exact hadv

theorem keeps_commitLocalJob (hs : core.Shaped) (hq : core.QueueFits) (job : LocalJob) :
    Keeps core (core.commitLocalJob job).1 := by
  have hland : Keeps core core.landLocal := Widens.of_same hq rfl rfl rfl
  have hs₁ : core.landLocal.Shaped := hs.of_frame rfl
  unfold commitLocalJob
  split
  · simp only
    split
    · exact hland
    · exact keeps_refl hq
  · simp only
    split
    · exact hland
    · split
      · exact hland
      · next l hl =>
        have hset := widens_setLocal hland.fits
          { l with base := (writeLocal job (core.landLocal.patchAt.getD (0, 0)) l.base).1 }
        have hs₂ := hs₁.of_frame (frame_setLocal _ hl (ValueIteratorLocal.frame_withBase
          (table_writeLocal job (core.landLocal.patchAt.getD (0, 0)) l.base)))
        generalize core.landLocal.setLocal { l with
          base := (writeLocal job (core.landLocal.patchAt.getD (0, 0)) l.base).1 } = c₂
          at hset hs₂ ⊢
        have hpub : Keeps c₂ (if c₂.cfg.useCompact = true then c₂.commitWindow else
            c₂.enqueueCells (writeLocal job (core.landLocal.patchAt.getD (0, 0)) l.base).2) := by
          split
          · exact (widens_commitWindow hs₂ hset.fits).keeps
          · exact (widens_enqueueCells _ hs₂ hset.fits).keeps
        generalize (if c₂.cfg.useCompact = true then c₂.commitWindow else
          c₂.enqueueCells (writeLocal job (core.landLocal.patchAt.getD (0, 0)) l.base).2) = c₃
          at hpub ⊢
        have hvoid : Keeps c₃ c₃.voidCertificate := Widens.of_same hpub.fits rfl rfl rfl
        have hcert : Keeps c₃.voidCertificate
            (if job.delta = 0 ∧ job.boundaryRevision = c₃.voidCertificate.global.boundaryRevision
              then c₃.voidCertificate.certifyLocal else c₃.voidCertificate) := by
          split
          · exact Widens.of_same hvoid.fits rfl rfl rfl
          · exact keeps_refl hvoid.fits
        exact ((((hland.trans hset).trans hpub).trans hvoid).trans hcert).trans
          (widens_settleGlobal hcert.fits).keeps

end

section
variable {K : Type} [Field K] [LinearOrder K] [FloorRing K] {core : PlannerCore K}

/-- A preparation: what leaves the queue is among the candidates of the draft. -/
structure Drafts (core core' : PlannerCore K) (d : Option Draft) : Prop where
  build : core'.build = core.build
  fits : core'.QueueFits
  queued : ∀ c, core.Queued c → core'.Queued c ∨ ∃ draft, d = some draft ∧ c ∈ draft.candidates

theorem Drafts.of_keeps {core' : PlannerCore K} (h : Keeps core core') (d : Option Draft) :
    Drafts core core' d :=
  ⟨h.build, h.fits, fun c hc => Or.inl (h.mono c hc)⟩

/-- Popping a tile leaves the other tiles queued. -/
theorem fits_pop {r : Repair} (h : r.Fits) {t : Nat} {queue : List Nat}
    (hqueue : r.queue = t :: queue) (v : Nat) :
    ({ r with queue := queue, queued := r.queued.set t false, visits := v } : Repair).Fits := by
  have hnodup := h.nodup
  rw [hqueue] at hnodup
  obtain ⟨hnot, htail⟩ := List.nodup_cons.mp hnodup
  refine ⟨?_, ?_, htail⟩
  · intro s hs
    simp only [List.length_set] at hs
    have hold := h.marked s hs
    rw [hqueue, List.mem_cons] at hold
    simp only [List.getD_eq_getElem?_getD, List.getElem?_set] at hold ⊢
    by_cases hts : t = s
    · subst hts
      simp [hs, hnot]
    · rw [if_neg hts, hold]
      constructor
      · rintro (heq | hin)
        · exact absurd heq.symm hts
        · exact hin
      · exact Or.inr
  · intro s hs
    simp only [List.length_set]
    apply h.within
    rw [hqueue]
    exact List.mem_cons_of_mem _ hs

theorem drafts_draftTile (hs : core.Shaped) (hq : core.QueueFits)
    (huse : core.cfg.useCompact = true) (hcached : core.cached.isSome = true) :
    Drafts core core.draftTile.1 core.draftTile.2 := by
  unfold draftTile
  cases hr : core.repair with
  | none =>
    refine Drafts.of_keeps (Widens.of_same hq ?_ ?_ ?_) none
    · rfl
    · exact hr.symm
    · rfl
  | some r =>
    simp only
    cases hqueue : r.queue with
    | nil => exact Drafts.of_keeps (widens_settleGlobal hq).keeps none
    | cons t queue =>
      simp only
      rcases hc : core.cached with _ | ⟨⟨l⟩ | ⟨f⟩, part⟩
      · rw [hc] at hcached
        cases hcached
      · have := (hs.dense l part hc).1
        rw [huse] at this
        cases this
      · simp only
        obtain ⟨_, hshape⟩ := hs.repair r hr
        obtain ⟨_, hdims⟩ := hs.compact f part hc
        have hfit := fits_pop (hq.repair r hr) hqueue (r.visits + 1)
        refine ⟨rfl, ⟨hq.sweep, ?_⟩, ?_⟩
        · intro r' heq
          cases heq
          exact ⟨hfit.marked, hfit.within, hfit.nodup⟩
        · rintro c ⟨hon, hin⟩
          simp only [hr, hqueue, List.mem_cons] at hin
          rcases hin with heq | hin
          · refine Or.inr ⟨_, rfl, ?_⟩
            apply mem_rect.mpr
            have hnx : f.sink.dims.nx = core.build.grid.width := by rw [hdims]; rfl
            have hny : f.sink.dims.ny = core.build.grid.height := by rw [hdims]; rfl
            rw [hnx, hny]
            have ht : t < r.queued.length := by
              rw [← heq]
              exact Repair.tileOf_lt hshape.tiles (onMap_iff.mp hon).1 (onMap_iff.mp hon).2
            exact (Repair.inRect_interiorOf hshape.tiles ht).mpr ⟨onMap_iff.mp hon, heq⟩
          · exact Or.inl ⟨hon, hin⟩

theorem drafts_draftBatch (hs : core.Shaped) (hq : core.QueueFits) {maxStates : Nat}
    {r : PlannerCore K × Option Draft} (h : core.draftBatch maxStates = some r) :
    Drafts core r.1 r.2 := by
  unfold draftBatch at h
  split at h
  · next l part hc =>
    obtain ⟨swr, hreach, h⟩ := Option.bind_eq_some_iff.mp h
    obtain ⟨sw, hfill, h⟩ := Option.map_eq_some_iff.mp h
    obtain ⟨huse, hdims, hact⟩ := hs.dense l part hc
    have hnone : core.repair = none := by
      cases hr : core.repair with
      | none => rfl
      | some r => exact absurd (hs.repair r hr).1 (by rw [huse]; exact Bool.false_ne_true)
    rw [hact] at hreach
    obtain ⟨hfit, hrr, hsame⟩ := hq.sweep.withReach hreach
    rw [hrr] at hfill
    obtain ⟨hfit', hqueued⟩ := hfit.refill hfill
    have hmono (c : Cell) (hcq : core.Queued c) :
        core.onMap c = true ∧ sw.Queued core.reach c := by
      obtain ⟨hon, hin⟩ := hcq
      simp only [hnone] at hin
      have hmap := onMap_iff.mp hon
      exact ⟨hon, hqueued c hmap.1 hmap.2 ((hsame _ _).mpr hin)⟩
    split at h
    · next hdrop =>
      have hfits : ({ core with sweep := sw } : PlannerCore K).QueueFits := ⟨hfit', hq.repair⟩
      have hset := widens_settleGlobal hfits
      rw [← h]
      refine ⟨hset.build, hset.fits, ?_⟩
      intro c hcq
      obtain ⟨hon, hin⟩ := hmono c hcq
      refine Or.inl (hset.mono c ⟨hon, ?_⟩)
      simp only [hnone]
      exact hin
    · next c₀ cands hdrop =>
      rw [← h]
      obtain ⟨htake, _⟩ := takeBatch_spec (max (maxStates / max l.base.dims.nt 1) 1)
        (c₀ :: cands) ((c₀.1 : Int), (c₀.1 : Int), (c₀.2 : Int), (c₀.2 : Int))
      generalize hbatch : takeBatch (max (maxStates / max l.base.dims.nt 1) 1) (c₀ :: cands)
        ((c₀.1 : Int), (c₀.1 : Int), (c₀.2 : Int), (c₀.2 : Int)) = batch at htake
      refine ⟨rfl, ⟨⟨hfit'.pending, hfit'.cands, hfit'.nodup, hfit'.reach⟩, hq.repair⟩, ?_⟩
      intro c hcq
      obtain ⟨hon, hin⟩ := hmono c hcq
      rcases hin with ⟨p, hp, heq⟩ | hseed
      · rw [hdrop, ← List.take_append_drop batch.1.length (c₀ :: cands), List.mem_append] at hp
        rcases hp with hp | hp
        · refine Or.inr ⟨_, rfl, ?_⟩
          simp only [hbatch]
          rw [htake, heq]
          exact List.mem_map_of_mem hp
        · refine Or.inl ⟨hon, ?_⟩
          simp only [hnone, hbatch]
          refine Or.inl ⟨p, ?_, heq⟩
          rw [← List.drop_drop, hdrop]
          exact hp
      · refine Or.inl ⟨hon, ?_⟩
        simp only [hnone]
        exact Or.inr hseed
  · next hne =>
    cases h
    exact Drafts.of_keeps (keeps_refl hq) none

theorem queued_checkOut (d : Draft) (c : Cell) :
    (core.checkOut d).1.Queued c ↔ core.Queued c := by
  have hsw : ∀ k c, (core.checkOut d).1.sweep.Queued k c ↔ core.sweep.Queued k c := by
    intro k c
    unfold checkOut
    simp only
    split <;> exact Iff.rfl
  refine queued_congr ?_ ?_ ?_ c
  · rfl
  · rfl
  · exact hsw

theorem fits_checkOut (hq : core.QueueFits) (d : Draft) : (core.checkOut d).1.QueueFits := by
  refine ⟨?_, hq.repair⟩
  unfold checkOut
  simp only
  split
  · exact hq.sweep
  · exact ⟨hq.sweep.pending, hq.sweep.cands, hq.sweep.nodup, hq.sweep.reach⟩

theorem fits_prepareGlobalJob (hs : core.Shaped) (hq : core.QueueFits) (hr : core.ReverseOk)
    {maxStates : Nat} {r : PlannerCore K × Option GlobalJob}
    (h : core.prepareGlobalJob maxStates = some r) : r.1.QueueFits := by
  unfold prepareGlobalJob at h
  simp only at h
  have hframe := frame_advanceInvalidations (min (max maxStates 1) 5000) core
  have hadv := keeps_advance hs hq hr (min (max maxStates 1) 5000)
  have hs' := hs.of_frame hframe
  have hcfg : (core.advanceInvalidations (min (max maxStates 1) 5000)).1.cfg = core.cfg :=
    congrArg CoreFrame.cfg hframe
  split at h
  · cases h
    exact hadv.fits
  · split at h
    · cases h
      exact hadv.fits
    · next hidle =>
      simp only [not_or, Option.isNone_iff_eq_none] at hidle
      obtain ⟨d, hd, h⟩ := Option.map_eq_some_iff.mp h
      have hdraft : d.1.QueueFits := by
        split at hd
        · next huse =>
          cases hd
          exact (drafts_draftTile hs' hadv.fits (by rw [hcfg]; exact huse)
            (Option.isSome_iff_ne_none.mpr hidle.2)).fits
        · exact (drafts_draftBatch hs' hadv.fits hd).fits
      split at h
      · rw [← h]
        exact hdraft
      · rw [← h]
        exact fits_checkOut hdraft _

end

end PlannerCore

end ValueIteration
