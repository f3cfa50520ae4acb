import Mathlib.Data.Rat.Floor
import ValueIteration.Planner.Runs

/-!
# The hydrated patch agrees with the sink

Values and actions of the window's surroundings are stored twice, in the sink and in
the patch. Five writers touch one copy or the other; between two operations the
copies agree wherever the patch lies on the map.
-/

set_option autoImplicit false
set_option linter.unusedSectionVars false

namespace ValueIteration

namespace PlannerCore

section
variable {K : Type} (core : PlannerCore K)

/-- The stored states: the field, the patch and the overlay. -/
def contents : Option (GoalField K) × Option (Patch K) × Option PenaltyOverlay :=
  (core.cached.map (·.field), core.patch, core.penalty)

@[simp] theorem contents_enqueueGlobal (b : Int × Int × Int × Int) :
    (core.enqueueGlobal b).contents = core.contents := by
  unfold contents
  rw [cached_enqueueGlobal, patch_enqueueGlobal, penalty_enqueueGlobal]

@[simp] theorem contents_enqueueCells (cs : List Cell) :
    (core.enqueueCells cs).contents = core.contents :=
  foldl_keeps contents (fun c _ => contents_enqueueGlobal c _) cs core

@[simp] theorem contents_queueCostIncreases (cs : List Cell) :
    (core.queueCostIncreases cs).contents = core.contents := by
  unfold queueCostIncreases
  split
  · rfl
  · simp only
    split <;> rfl

@[simp] theorem contents_settleGlobal : core.settleGlobal.1.contents = core.contents := by
  have hc : (core.cached.map (·.markComplete)).map (·.field) = core.cached.map (·.field) := by
    cases core.cached <;> rfl
  by_cases h : core.settled = true
  · simp only [settleGlobal, h, if_true, contents, hc]
  · simp only [settleGlobal, h, Bool.false_eq_true, if_false, contents]

@[simp] theorem contents_seedSweepAll : core.seedSweepAll.contents = core.contents := by
  unfold seedSweepAll
  split <;> rfl

@[simp] theorem contents_seedSweepWindow : core.seedSweepWindow.contents = core.contents := by
  unfold seedSweepWindow
  split <;> rfl

end

section
variable {K : Type} [Field K] [LinearOrder K] [FloorRing K] (core : PlannerCore K)

@[simp] theorem contents_setOwned (owned : List Cell) :
    (core.setOwned owned).contents = core.contents := by
  unfold setOwned
  split
  · simp only
    split
    · rfl
    · exact contents_enqueueCells core _
  · rfl

@[simp] theorem contents_updateLocalOwnership :
    core.updateLocalOwnership.contents = core.contents :=
  (contents_enqueueCells _ _).trans (contents_setOwned core _)

@[simp] theorem contents_claimLocal : core.claimLocal.1.contents = core.contents := by
  unfold claimLocal
  exact contents_updateLocalOwnership _

@[simp] theorem contents_releaseLocal (owner : Nat) :
    (core.releaseLocal owner).contents = core.contents := by
  unfold releaseLocal
  split
  · exact contents_updateLocalOwnership _
  · rfl

@[simp] theorem contents_restartGlobalCheck :
    core.restartGlobalCheck.1.contents = core.contents := by
  unfold restartGlobalCheck
  split
  · rfl
  · simp only
    split
    · rfl
    · exact contents_seedSweepAll core

@[simp] theorem contents_invalidateLocalInputs (before : List (Bool × Nat × Nat)) :
    (core.invalidateLocalInputs before).contents = core.contents := by
  unfold invalidateLocalInputs
  split
  · rfl
  · simp only
    split
    · rfl
    · rw [contents_enqueueGlobal, contents_queueCostIncreases]
      rfl

@[simp] theorem contents_notePass (delta : Nat) :
    (core.notePass delta).contents = core.contents := by
  unfold notePass
  split
  · rfl
  · simp only
    split
    · rfl
    · exact contents_seedSweepWindow _

@[simp] theorem contents_draftTile : core.draftTile.1.contents = core.contents := by
  unfold draftTile
  split
  · rfl
  · split
    · exact contents_settleGlobal core
    · simp only
      split <;> rfl

theorem contents_draftBatch {maxStates : Nat} {r : PlannerCore K × Option Draft}
    (h : core.draftBatch maxStates = some r) : r.1.contents = core.contents := by
  unfold draftBatch at h
  split at h
  · obtain ⟨swr, _, h⟩ := Option.bind_eq_some_iff.mp h
    obtain ⟨sw, _, h⟩ := Option.map_eq_some_iff.mp h
    split at h
    · rw [← h]
      exact contents_settleGlobal _
    · rw [← h]
      rfl
  · cases h
    rfl

/-- Preparing a global job advances the invalidations and changes no state else. -/
theorem contents_prepareGlobalJob {maxStates : Nat} {r : PlannerCore K × Option GlobalJob}
    (h : core.prepareGlobalJob maxStates = some r) : r.1.contents =
      (core.advanceInvalidations (min (max maxStates 1) 5000)).1.contents := by
  unfold prepareGlobalJob at h
  simp only at h
  split at h
  · cases h
    rfl
  · split at h
    · cases h
      rfl
    · obtain ⟨d, hd, h⟩ := Option.map_eq_some_iff.mp h
      have hdraft : d.1.contents =
          (core.advanceInvalidations (min (max maxStates 1) 5000)).1.contents := by
        split at hd
        · cases hd
          exact contents_draftTile _
        · exact contents_draftBatch _ hd
      split at h
      · rw [← h]
        exact hdraft
      · rw [← h]
        exact hdraft

theorem contents_prepareLocalJob :
    core.prepareLocalJob.1.contents = (core.advanceInvalidations 512).1.contents := by
  unfold prepareLocalJob
  simp only
  split
  · rfl
  · split
    · split <;> rfl
    · rfl

end

/-- The patch at `p0` holds what the sink holds, wherever it lies on a column in `S`. -/
def PatchAgrees {K : Type} (f : CompactField K) (base : ValueIterator) (p0 : Cell)
    (S : Cell → Prop) : Prop :=
  ∀ q, base.dims.Contains q → f.onMap (p0.1 + q.ix, p0.2 + q.iy) = true →
    S (p0.1 + q.ix, p0.2 + q.iy) →
      let u := f.read ⟨p0.1 + q.ix, p0.2 + q.iy, q.it⟩
      (base.stateAt q).totalCost = u.1 ∧ (base.stateAt q).optimalAction = stateAction u.2

/-- The hydrated patch agrees with the sink on the columns in `S`. -/
def AgreesOn {K : Type} (core : PlannerCore K) (S : Cell → Prop) : Prop :=
  ∀ f part p p0, core.cached = some ⟨.compact f, part⟩ → core.patch = some p →
    p.hydratedAt = some p0 → PatchAgrees f p.vi.base p0 S

/-- Whatever the patch covers of the map is the same in both copies. -/
def Coherent {K : Type} (core : PlannerCore K) : Prop := core.AgreesOn fun _ => True

section
variable {K : Type} {core core' : PlannerCore K} {S S' : Cell → Prop}

theorem AgreesOn.mono (h : core.AgreesOn S) (hS : ∀ g, S' g → S g) : core.AgreesOn S' :=
  fun f part p p0 hf hp h0 q hq hon hg => h f part p p0 hf hp h0 q hq hon (hS _ hg)

theorem Coherent.on (h : core.Coherent) (S : Cell → Prop) : core.AgreesOn S :=
  AgreesOn.mono h fun _ _ => trivial

/-- Only the field and the patch matter. -/
theorem AgreesOn.of_copies (h : core.AgreesOn S)
    (hf : core'.cached.map (·.field) = core.cached.map (·.field))
    (hp : core'.patch = core.patch) : core'.AgreesOn S := by
  intro f part p p0 hf' hp' h0
  rw [hf', Option.map_some] at hf
  obtain ⟨⟨field, part₀⟩, hc, heq⟩ := Option.map_eq_some_iff.mp hf.symm
  simp only at heq
  subst heq
  exact h f part₀ p p0 hc (hp.symm.trans hp') h0

theorem AgreesOn.of_contents (h : core.AgreesOn S) (hc : core'.contents = core.contents) :
    core'.AgreesOn S := by
  simp only [contents, Prod.mk.injEq] at hc
  exact h.of_copies hc.1 hc.2.1

/-- A patch that is not placed has nothing to agree on. -/
theorem coherent_of_unplaced (h : ∀ p, core.patch = some p → p.hydratedAt = none) :
    core.Coherent := by
  intro f part p p0 _ hp h0
  rw [h p hp] at h0
  cases h0

theorem coherent_of_dense {l : ValueIteratorLocal K} {part : Bool}
    (h : core.cached = some ⟨.dense l, part⟩) : core.AgreesOn S := by
  intro f part' p p0 hf
  rw [h] at hf
  cases hf

theorem coherent_of_empty (h : core.cached = none) : core.AgreesOn S := by
  intro f part' p p0 hf
  rw [h] at hf
  cases hf

/-- Discarding an action in the patch, read state by state. -/
theorem stateAt_discard {build : BuildParams K} {pt : Patch K} (hshape : build.PatchShape pt)
    {p : Pos} (ht : 0 ≤ p.it ∧ p.it < build.thetaCellNum) {p0 : Cell}
    (h0 : pt.hydratedAt = some p0) {q : Pos} (hq : pt.vi.base.dims.Contains q) :
    (pt.discard p).vi.base.stateAt q =
      if (⟨p0.1 + q.ix, p0.2 + q.iy, q.it⟩ : Pos) = p then
        { pt.vi.base.stateAt q with optimalAction := none }
      else pt.vi.base.stateAt q := by
  unfold Patch.discard
  simp only [h0]
  split
  · next harea =>
    have hin := ValueIterator.inMapArea_iff.mp harea
    have hcon : pt.vi.base.dims.Contains ⟨p.ix - p0.1, p.iy - p0.2, p.it⟩ := by
      refine ⟨⟨hin.1, hin.2.1⟩, ⟨hin.2.2.1, hin.2.2.2⟩, ?_⟩
      rw [hshape.table.1]
      exact ht
    rw [ValueIterator.stateAt_setState hcon hq]
    have hiff : q = ⟨p.ix - p0.1, p.iy - p0.2, p.it⟩ ↔
        (⟨p0.1 + q.ix, p0.2 + q.iy, q.it⟩ : Pos) = p := by
      obtain ⟨x, y, t⟩ := p
      obtain ⟨qx, qy, qt⟩ := q
      simp only [Pos.mk.injEq]
      omega
    by_cases heq : q = ⟨p.ix - p0.1, p.iy - p0.2, p.it⟩
    · rw [if_pos heq, if_pos (hiff.mp heq), heq]
    · rw [if_neg heq, if_neg (heq ∘ hiff.mpr)]
  · next harea =>
    rw [if_neg]
    intro heq
    apply harea
    apply ValueIterator.inMapArea_iff.mpr
    have hx : p.ix - p0.1 = q.ix := by
      rw [← heq]
      exact add_sub_cancel_left p0.1 q.ix
    have hy : p.iy - p0.2 = q.iy := by
      rw [← heq]
      exact add_sub_cancel_left p0.2 q.iy
    rw [hx, hy]
    exact ⟨hq.1.1, hq.1.2, hq.2.1.1, hq.2.1.2⟩

end

section
variable {K : Type} [Field K] [LinearOrder K] [FloorRing K] {core core' : PlannerCore K}
  {S : Cell → Prop}

/-- Clearing an action clears it in both copies. -/
theorem Coherent.invalidatePolicyState (hc : core.Coherent) (hs : core.Shaped) {p : Pos}
    {a : Nat} (hp : core.onMap p.cell = true) (ht : 0 ≤ p.it ∧ p.it < core.build.thetaCellNum) :
    (core.invalidatePolicyState p a).1.Coherent := by
  unfold PlannerCore.invalidatePolicyState
  rcases hcd : core.cached with _ | ⟨⟨l⟩ | ⟨f⟩, part⟩
  · exact hc
  · simp only
    split
    · exact hc
    · exact coherent_of_dense rfl
  · simp only
    split
    · exact hc
    · intro f' part' pt' p0 hf hpt h0
      cases hf
      obtain ⟨pt, hpt₀, rfl⟩ := Option.map_eq_some_iff.mp hpt
      have hfr := frame_discard p pt
      simp only [Patch.frame, Prod.mk.injEq] at hfr
      obtain ⟨hlf, _, _, hat⟩ := hfr
      rw [hat] at h0
      obtain ⟨_, hshape⟩ := hs.patch pt hpt₀
      have hdims : (pt.discard p).vi.base.dims = pt.vi.base.dims :=
        congrArg (fun x : LocalFrame K => x.table.1) hlf
      intro q hq hon _
      rw [hdims] at hq
      obtain ⟨h1, h2⟩ := hc f part pt p0 hcd hpt₀ h0 q hq hon trivial
      have hqt : 0 ≤ q.it ∧ q.it < core.build.thetaCellNum := by
        have := hq.2.2
        rw [hshape.table.1] at this
        exact this
      have hcp : f.sink.dims.Contains p := sink_contains hs hcd hp ht
      have hcq : f.sink.dims.Contains ⟨p0.1 + q.ix, p0.2 + q.iy, q.it⟩ :=
        sink_contains hs hcd (by rw [← onMap_sink hs hcd]; exact hon) hqt
      rw [stateAt_discard hshape ht h0 hq, CompactField.read_write hcp hcq]
      by_cases heq : (⟨p0.1 + q.ix, p0.2 + q.iy, q.it⟩ : Pos) = p
      · rw [if_pos heq, if_pos heq, ← heq]
        exact ⟨h1, rfl⟩
      · rw [if_neg heq, if_neg heq]
        exact ⟨h1, h2⟩

theorem Coherent.invalidatePredecessor (hc : core.Coherent) (hs : core.Shaped) {e : Pos × Nat}
    (he : 0 ≤ e.1.it ∧ e.1.it < core.build.thetaCellNum) :
    (core.invalidatePredecessor e).Coherent := by
  unfold PlannerCore.invalidatePredecessor
  simp only
  split
  · exact hc
  · next hmap =>
    simp only [not_or, not_lt, not_le] at hmap
    have hon : core.onMap e.1.cell = true := by
      apply onMap_iff.mpr
      exact ⟨⟨hmap.1, hmap.2.2.1⟩, hmap.2.1, hmap.2.2.2⟩
    have hclr := hc.invalidatePolicyState hs (a := e.2) hon he
    split
    · exact AgreesOn.of_contents hclr (contents_enqueueGlobal _ _)
    · exact hclr

theorem Coherent.foldl_invalidatePredecessor (es : List (Pos × Nat)) : ∀ {core : PlannerCore K},
    core.Coherent → core.Shaped → (∀ e ∈ es, 0 ≤ e.1.it ∧ e.1.it < core.build.thetaCellNum) →
      (es.foldl PlannerCore.invalidatePredecessor core).Coherent := by
  induction es with
  | nil => exact fun hc _ _ => hc
  | cons e es ih =>
    intro core hc hs hes
    have hframe := frame_invalidatePredecessor core e
    refine ih (hc.invalidatePredecessor hs (hes e List.mem_cons_self)) (hs.of_frame hframe) ?_
    rw [show (core.invalidatePredecessor e).build = core.build from congrArg CoreFrame.build hframe]
    exact fun e' he' => hes e' (List.mem_cons_of_mem _ he')

theorem Coherent.advanceInvalidations (budget : Nat) : ∀ {core : PlannerCore K},
    core.Coherent → core.Shaped → core.ReverseOk →
      (core.advanceInvalidations budget).1.Coherent := by
  induction budget with
  | zero => exact fun hc _ _ => hc
  | succ budget ih =>
    intro core hc hs hr
    unfold PlannerCore.advanceInvalidations
    cases h : core.invalidateStep with
    | none => exact hc
    | some core' =>
      have hframe := frame_invalidateStep h
      have hr' : core'.ReverseOk := hr.of_follows (congrArg CoreFrame.build hframe) rfl
        (Or.inl (reverse_invalidateStep h))
      refine ih ?_ (hs.of_frame hframe) hr'
      unfold invalidateStep at h
      split at h
      · cases h
      · next p rest _ =>
        cases h
        let m : Manager :=
          { core.global with invalidation := { core.global.invalidation with pending := rest } }
        have hm : (core.withGlobal m).Coherent := hc.of_copies rfl rfl
        exact hm.foldl_invalidatePredecessor (core.preds p) (hs.withGlobal m)
          fun e he => hr.thetas.preds he

/-- The local iterator is rewritten; outside `S` only the inputs of a state may change. -/
theorem AgreesOn.setLocal {l l' : ValueIteratorLocal K} (h : core.AgreesOn S)
    (hl : core.localVi = some l) (hd : l'.base.dims = l.base.dims)
    (hk : ∀ q, l.base.dims.Contains q →
      S (core.localOrigin.1 + q.ix, core.localOrigin.2 + q.iy) →
        (l'.base.stateAt q).totalCost = (l.base.stateAt q).totalCost ∧
          (l'.base.stateAt q).optimalAction = (l.base.stateAt q).optimalAction)
    (hs : core.Shaped) : (core.setLocal l').AgreesOn S := by
  unfold PlannerCore.setLocal
  unfold localVi at hl
  rcases hcd : core.cached with _ | ⟨⟨l₀⟩ | ⟨f⟩, part⟩
  · exact coherent_of_empty hcd
  · exact coherent_of_dense rfl
  · simp only [hcd] at hl ⊢
    cases hp : core.patch with
    | none =>
      simp only [hp] at hl
      cases hl
    | some p =>
      simp only [hp] at hl ⊢
      obtain ⟨p0, h0, rfl⟩ := Option.map_eq_some_iff.mp hl
      rw [h0, Option.isSome_some, if_pos rfl]
      intro f' part' p' p0' hf hp' h0'
      cases hp'
      have hf₀ : core.cached = some ⟨.compact f', part'⟩ := hcd.trans hf
      cases Option.some.inj h0'
      have horigin : core.localOrigin = p0 := by
        unfold localOrigin patchAt
        rw [(hs.compact f part hcd).1, hp, Option.bind_some, h0]
        rfl
      intro q hq hon hS
      have hq' : p.vi.base.dims.Contains q := by
        rw [← hd]
        exact hq
      obtain ⟨h1, h2⟩ := h f' part' p p0 hf₀ hp h0 q hq' hon hS
      obtain ⟨k1, k2⟩ := hk q hq' (by rw [horigin]; exact hS)
      exact ⟨k1.trans h1, k2.trans h2⟩

/-- Sensing leaves the window, the values and the actions alone. -/
structure KeepsPolicy (l l' : ValueIteratorLocal K) : Prop where
  frame : l'.frame = l.frame
  state : ∀ q, l.base.dims.Contains q →
    (l'.base.stateAt q).totalCost = (l.base.stateAt q).totalCost ∧
      (l'.base.stateAt q).optimalAction = (l.base.stateAt q).optimalAction

namespace KeepsPolicy

variable {l l' l'' : ValueIteratorLocal K}

theorem refl (l : ValueIteratorLocal K) : KeepsPolicy l l := ⟨rfl, fun _ _ => ⟨rfl, rfl⟩⟩

theorem dims (h : KeepsPolicy l l') : l'.base.dims = l.base.dims :=
  congrArg (fun x : LocalFrame K => x.table.1) h.frame

theorem window (h : KeepsPolicy l l') (hw : l.WindowInside) : l'.WindowInside :=
  ValueIteratorLocal.windowInside_congr h.frame hw

theorem trans (h : KeepsPolicy l l') (h' : KeepsPolicy l' l'') : KeepsPolicy l l'' where
  frame := h'.frame.trans h.frame
  state q hq := by
    obtain ⟨h1, h2⟩ := h.state q hq
    obtain ⟨k1, k2⟩ := h'.state q (by rw [h.dims]; exact hq)
    exact ⟨k1.trans h1, k2.trans h2⟩

theorem mapColumn (l : ValueIteratorLocal K) {f : State → State}
    (hf : ∀ s, (f s).totalCost = s.totalCost ∧ (f s).optimalAction = s.optimalAction) {c : Cell}
    (hc : l.base.inMapArea c.1 c.2 = true) : KeepsPolicy l (l.mapColumn f c) where
  frame := ValueIteratorLocal.frame_mapColumn l f c
  state q hq := by
    have h := ValueIterator.stateAt_mapColumn f hc hq
    simp only [ValueIteratorLocal.mapColumn, h]
    split
    · exact hf _
    · exact ⟨rfl, rfl⟩

/-- The cells of a clipped window are cells of the base. -/
theorem inMapArea_of_window (hw : l.WindowInside) {c : Cell}
    (hc : l.inLocalArea c.1 c.2 = true) : l.base.inMapArea c.1 c.2 = true := by
  have hb := l.inLocalArea_bounds hc
  unfold ValueIteratorLocal.WindowInside at hw
  apply inMapArea_of
  · omega
  · omega

theorem halve (hw : l.WindowInside) (c : Cell) : KeepsPolicy l (l.halve c) := by
  unfold ValueIteratorLocal.halve
  split
  · next hc =>
    refine mapColumn l ?_ (inMapArea_of_window hw hc)
    exact fun _ => ⟨rfl, rfl⟩
  · exact refl l

theorem inject (hw : l.WindowInside) (v : Nat) (c : Cell) : KeepsPolicy l (l.inject v c) := by
  unfold ValueIteratorLocal.inject
  split
  · next hc =>
    refine mapColumn l ?_ (inMapArea_of_window hw hc)
    exact fun _ => ⟨rfl, rfl⟩
  · exact refl l

theorem clearCell (hw : l.WindowInside) (c : Cell) : KeepsPolicy l (l.clearCell c).1 := by
  unfold ValueIteratorLocal.clearCell
  split
  · next hc =>
    refine mapColumn l ?_ (inMapArea_of_window hw hc)
    exact fun _ => ⟨rfl, rfl⟩
  · exact refl l

/-- Steps that keep the policy, one after the other. -/
theorem foldl {α : Type} {step : ValueIteratorLocal K → α → ValueIteratorLocal K}
    (hstep : ∀ l : ValueIteratorLocal K, l.WindowInside → ∀ a, KeepsPolicy l (step l a))
    (hw : l.WindowInside) (as : List α) : KeepsPolicy l (as.foldl step l) := by
  induction as generalizing l with
  | nil => exact refl l
  | cons a as ih => exact (hstep l hw a).trans (ih ((hstep l hw a).window hw))

theorem walkBeam {visit : ValueIteratorLocal K → K → K → ValueIteratorLocal K × Bool}
    (hvisit : ∀ l : ValueIteratorLocal K, l.WindowInside → ∀ x y, KeepsPolicy l (visit l x y).1)
    (x y ca sa step stop : K) (n : Nat) : ∀ (s : K) {l : ValueIteratorLocal K}, l.WindowInside →
      KeepsPolicy l (ValueIteration.walkBeam visit x y ca sa step stop n s l) := by
  induction n with
  | zero => exact fun _ l _ => refl l
  | succ n ih =>
    intro s l hw
    have hone := hvisit l hw (x + s * ca) (y + s * sa)
    unfold ValueIteration.walkBeam
    simp only
    split
    · split
      · exact hone.trans (ih _ (hone.window hw))
      · exact hone
    · exact refl l

variable [Trig K]

theorem setLocalCostAttenuated (hw : l.WindowInside) (msg : LaserScan K) (x y t : K)
    (shift : Nat) : KeepsPolicy l (l.setLocalCostAttenuated msg x y t shift) := by
  unfold ValueIteratorLocal.setLocalCostAttenuated
  extract_lets inj marked res
  have hmarked : KeepsPolicy l marked := by
    refine foldl ?_ hw _
    intro l hw i
    simp only
    have hhalf := foldl (fun l hw c => halve hw c) hw
      (l.halvedCells x y (msg.ranges.getD i 0) (t + msg.angleIncrement * i + msg.angleMin))
    exact hhalf.trans (foldl (fun l hw c => inject hw inj c) (hhalf.window hw) _)
  split
  · refine hmarked.trans (foldl ?_ (hmarked.window hw) _)
    intro l hw i
    exact walkBeam (fun l hw _ _ => clearCell hw _) _ _ _ _ _ _ _ _ hw
  · exact hmarked

end KeepsPolicy

namespace KeepsPolicy

variable {l : ValueIteratorLocal K}

theorem inflateBySigma (hw : l.WindowInside) (extra : K) :
    KeepsPolicy l (l.inflateBySigma extra) := by
  unfold ValueIteratorLocal.inflateBySigma
  split
  · exact refl l
  · have hdist : KeepsPolicy l l.ensureObstacleDist := by
      unfold ValueIteratorLocal.ensureObstacleDist
      split
      · exact ⟨rfl, fun _ _ => ⟨rfl, rfl⟩⟩
      · exact refl l
    refine hdist.trans ?_
    generalize l.ensureObstacleDist = l₁ at hdist ⊢
    have hw₁ := hdist.window hw
    have hin : ∀ c ∈ l₁.windowColumns, l₁.base.inMapArea c.1 c.2 = true := fun c hc =>
      inMapArea_of_window hw₁ (l₁.mem_windowColumns.mp hc)
    refine List.foldlRecOn (motive := fun l' => KeepsPolicy l₁ l') _ _ (refl l₁) ?_
    intro l' h c hc
    simp only
    split
    · exact h
    · refine h.trans (mapColumn l' ?_ ?_)
      · exact fun _ => ⟨rfl, rfl⟩
      · rw [inMapArea_of_dims h.dims]
        exact hin c hc

end KeepsPolicy

theorem Coherent.mapLocal (hc : core.Coherent) (ho : core.Orderly)
    {f : ValueIteratorLocal K → ValueIteratorLocal K}
    (hf : ∀ l : ValueIteratorLocal K, l.WindowInside → KeepsPolicy l (f l)) :
    (core.mapLocal f).Coherent := by
  unfold PlannerCore.mapLocal
  cases hl : core.localVi with
  | none => exact hc
  | some l =>
    simp only
    rcases hcd : core.cached with _ | ⟨⟨l₀⟩ | ⟨fld⟩, part⟩
    · unfold localVi at hl
      rw [hcd] at hl
      cases hl
    · unfold PlannerCore.setLocal
      simp only [hcd]
      exact coherent_of_dense rfl
    · have hw : l.WindowInside := by
        unfold localVi at hl
        simp only [hcd] at hl
        cases hp : core.patch with
        | none =>
          simp only [hp] at hl
          cases hl
        | some p =>
          simp only [hp] at hl
          obtain ⟨_, _, rfl⟩ := Option.map_eq_some_iff.mp hl
          exact ho.window p hp
      have hk := hf l hw
      exact AgreesOn.setLocal hc hl hk.dims (fun q hq _ => hk.state q hq) ho.shaped

theorem Coherent.sense (hc : core.Coherent) (ho : core.Orderly)
    {f : ValueIteratorLocal K → ValueIteratorLocal K}
    (hf : ∀ l : ValueIteratorLocal K, l.WindowInside → KeepsPolicy l (f l)) :
    (core.sense f).Coherent := by
  have hmap := hc.mapLocal ho hf
  have hharvest : (core.mapLocal f).harvestPenalties.Coherent := by
    unfold harvestPenalties
    split
    · split
      · exact hmap
      · exact hmap.of_copies rfl rfl
    · exact hmap
  exact hharvest.of_contents (contents_invalidateLocalInputs _ _)

/-- The patch's cell `c` is column `p0 + c` of the map. -/
theorem AgreesOn.commitWindowCell (h : core.AgreesOn S) (hs : core.Shaped) {p : Patch K}
    {p0 : Cell} (hp : core.patch = some p) (h0 : p.hydratedAt = some p0) (c : Cell) :
    (PlannerCore.commitWindowCell p p0 core c).AgreesOn fun g =>
      S g ∨ g = (p0.1 + c.1, p0.2 + c.2) := by
  unfold PlannerCore.commitWindowCell
  split
  · next f part hc =>
    have hcopies : ∀ core' : PlannerCore K,
        core'.cached = some ⟨.compact (f.commitColumn p.vi.base p0 c).1, part⟩ →
          core'.patch = core.patch → core'.AgreesOn fun g =>
            S g ∨ g = (p0.1 + c.1, p0.2 + c.2) := by
      intro core' hc' hp' f' part' p' p0' hf hpt hat q hq hon hS
      rw [hc'] at hf
      cases hf
      rw [hp', hp] at hpt
      cases hpt
      rw [h0] at hat
      cases hat
      have hd : (f.commitColumn p.vi.base p0 c).1.sink.dims = f.sink.dims := by
        have := dims_commitStates f p.vi.base p0 (c.1, c.1, c.2, c.2)
        rw [CompactField.commitStates_single] at this
        exact this
      have hon' : f.onMap (p0.1 + q.ix, p0.2 + q.iy) = true := by
        unfold CompactField.onMap at hon ⊢
        rw [← hd]
        exact hon
      have hit : 0 ≤ q.it ∧ q.it < core.build.thetaCellNum := by
        have := hq.2.2
        rw [(hs.patch p hp).2.table.1] at this
        exact this
      have hcon : f.sink.dims.Contains ⟨p0.1 + q.ix, p0.2 + q.iy, q.it⟩ :=
        sink_contains hs hc (by rw [← onMap_sink hs hc]; exact hon') hit
      rw [CompactField.read_commitColumn _ _ _ hcon]
      by_cases hcell : (⟨p0.1 + q.ix, p0.2 + q.iy, q.it⟩ : Pos).cell = (p0.1 + c.1, p0.2 + c.2)
      · rw [if_pos hcell]
        obtain ⟨x, y, t⟩ := q
        simp only [Pos.cell, Prod.mk.injEq, add_right_inj] at hcell
        obtain ⟨rfl, rfl⟩ := hcell
        simp only [CompactField.columnOf, Int.toNat_of_nonneg hit.1, stateAction_sinkAction,
          and_self]
      · rw [if_neg hcell]
        rcases hS with hS | heq
        · exact h f part p p0 hc hp h0 q hq hon' hS
        · exact absurd heq hcell
    simp only [CompactField.commitStates_single]
    split
    · exact hcopies _ rfl rfl
    · exact hcopies _ rfl rfl
  · next hne =>
    intro f part p' p0' hf
    exact absurd hf (hne f part)

theorem patch_commitWindowCell (core : PlannerCore K) (p : Patch K) (p0 c : Cell) :
    (PlannerCore.commitWindowCell p p0 core c).patch = core.patch := by
  unfold PlannerCore.commitWindowCell
  split
  · simp only
    split <;> rfl
  · rfl

theorem AgreesOn.foldl_commitWindowCell {p : Patch K} {p0 : Cell}
    (h0 : p.hydratedAt = some p0) (cs : List Cell) : ∀ {core : PlannerCore K} {S : Cell → Prop},
      core.AgreesOn S → core.Shaped → core.patch = some p →
        (cs.foldl (PlannerCore.commitWindowCell p p0) core).AgreesOn fun g =>
          S g ∨ ∃ c ∈ cs, g = (p0.1 + c.1, p0.2 + c.2) := by
  induction cs with
  | nil => exact fun h _ _ => h.mono fun g hg => hg.resolve_right (by rintro ⟨c, hc, _⟩; cases hc)
  | cons c cs ih =>
    intro core S h hs hp
    have hone := h.commitWindowCell hs hp h0 c
    have hrest := ih hone (hs.of_frame (frame_commitWindowCell core p p0 c))
      ((patch_commitWindowCell core p p0 c).trans hp)
    refine hrest.mono ?_
    rintro g (hg | ⟨c', hc', heq⟩)
    · exact Or.inl (Or.inl hg)
    · rcases List.mem_cons.mp hc' with rfl | hc'
      · exact Or.inl (Or.inr heq)
      · exact Or.inr ⟨c', hc', heq⟩

/-- A write-back repairs whatever the window may have changed. -/
theorem AgreesOn.commitWindow (h : core.AgreesOn fun g => ∀ l, core.localVi = some l →
    l.inLocalArea (g.1 - core.localOrigin.1) (g.2 - core.localOrigin.2) = false)
    (hs : core.Shaped) : core.commitWindow.Coherent := by
  unfold PlannerCore.commitWindow
  split
  · next f part p hc hp =>
    split
    · next h0 =>
      refine coherent_of_unplaced ?_
      intro p' hp'
      rw [hp] at hp'
      cases hp'
      exact h0
    · next p0 h0 =>
      have hl : core.localVi = some p.vi := by
        unfold localVi
        rw [hc]
        simp only [hp, h0, Option.map_some]
      have horigin : core.localOrigin = p0 := by
        unfold localOrigin patchAt
        rw [(hs.compact f part hc).1, hp, Option.bind_some, h0]
        rfl
      refine (h.foldl_commitWindowCell h0 _ hs hp).mono ?_
      rintro ⟨x, y⟩ -
      by_cases hin : p.vi.inLocalArea (x - p0.1) (y - p0.2) = true
      · refine Or.inr ⟨(x - p0.1, y - p0.2), p.vi.mem_windowRows.mpr hin, ?_⟩
        simp only [add_sub_cancel]
      · refine Or.inl ?_
        intro l hl'
        rw [hl] at hl'
        cases hl'
        rw [horigin]
        exact Bool.not_eq_true _ ▸ hin
  · next hne =>
    intro f part p p0 hf hp h0
    exact absurd hp (hne f part p hf)

/-- A column of the window of the local iterator. -/
def InWindow (core : PlannerCore K) (g : Cell) : Prop :=
  ∃ l, core.localVi = some l ∧
    l.inLocalArea (g.1 - core.localOrigin.1) (g.2 - core.localOrigin.2) = true

theorem inWindow_congr (h : core'.frame = core.frame) (g : Cell) :
    core'.InWindow g ↔ core.InWindow g := by
  have hl := localVi_frame h
  have horigin := localOrigin_congr h
  unfold InWindow
  rw [horigin]
  cases h₁ : core.localVi with
  | none =>
    rw [h₁, Option.map_none, Option.map_eq_none_iff] at hl
    rw [hl]
  | some l =>
    rw [h₁, Option.map_some] at hl
    obtain ⟨l', hl', heq⟩ := Option.map_eq_some_iff.mp hl
    rw [hl']
    simp only [Option.some.injEq, exists_eq_left', ValueIteratorLocal.inLocalArea_congr heq]

/-- Outside of the window the copies agree. -/
def CoherentOutside (core : PlannerCore K) : Prop := core.AgreesOn fun g => ¬ core.InWindow g

theorem CoherentOutside.commitWindow (h : core.CoherentOutside) (hs : core.Shaped) :
    core.commitWindow.Coherent := by
  refine AgreesOn.commitWindow (AgreesOn.mono h ?_) hs
  rintro g hg ⟨l, hl, hin⟩
  rw [hg l hl] at hin
  cases hin

theorem CoherentOutside.of_copies (h : core.CoherentOutside) (hframe : core'.frame = core.frame)
    (hf : core'.cached.map (·.field) = core.cached.map (·.field))
    (hp : core'.patch = core.patch) : core'.CoherentOutside :=
  (AgreesOn.of_copies h hf hp).mono fun g hg hin => hg ((inWindow_congr hframe g).mpr hin)

/-- A rewrite of the window's states. -/
theorem CoherentOutside.setLocal {l l' : ValueIteratorLocal K} (h : core.CoherentOutside)
    (hs : core.Shaped) (hl : core.localVi = some l) (hf : l'.frame = l.frame)
    (hk : ∀ q, l.base.dims.Contains q → l.inLocalArea q.ix q.iy = false →
      l'.base.stateAt q = l.base.stateAt q) : (core.setLocal l').CoherentOutside := by
  have hframe := frame_setLocal core hl hf
  have hd : l'.base.dims = l.base.dims := congrArg (fun x : LocalFrame K => x.table.1) hf
  refine AgreesOn.mono (AgreesOn.setLocal h hl hd ?_ hs) ?_
  · intro q hq hout
    have hfalse : l.inLocalArea q.ix q.iy = false := by
      rw [← Bool.not_eq_true]
      intro hin
      refine hout ⟨l, hl, ?_⟩
      simp only [add_sub_cancel_left]
      exact hin
    rw [hk q hq hfalse]
    exact ⟨rfl, rfl⟩
  · exact fun g hg hin => hg ((inWindow_congr hframe g).mpr hin)

theorem mem_columnStates {nt : Nat} {cells : List Cell} {q : Pos} :
    q ∈ columnStates nt cells ↔ q.cell ∈ cells ∧ 0 ≤ q.it ∧ q.it < nt := by
  obtain ⟨x, y, t⟩ := q
  simp only [columnStates, List.mem_flatMap, List.mem_map, List.mem_range, Pos.mk.injEq, Pos.cell]
  constructor
  · rintro ⟨c, hc, k, hk, rfl, rfl, rfl⟩
    exact ⟨hc, by omega, by omega⟩
  · rintro ⟨hc, h0, hlt⟩
    exact ⟨(x, y), hc, t.toNat, by omega, rfl, rfl, by omega⟩

theorem mem_windowColumn {l : ValueIteratorLocal K} {x : Int} {c : Cell}
    (hc : c ∈ l.windowColumn x) : l.inLocalArea c.1 c.2 = true := (List.mem_filter.mp hc).2

/-- A pass writes states of the window only. -/
theorem stateAt_refineColumns {l : ValueIteratorLocal K} (hw : l.WindowInside) (xs : List Int) :
    ∀ (ticks : Nat) (r : ValueIterator × Nat), r.1.dims = l.base.dims →
      ∀ q, l.base.dims.Contains q → l.inLocalArea q.ix q.iy = false →
        (l.refineColumns xs ticks r).1.1.stateAt q = r.1.stateAt q := by
  induction xs with
  | nil => exact fun _ _ _ _ _ _ => rfl
  | cons x xs ih =>
    intro ticks r hd q hq hout
    cases ticks with
    | zero => rfl
    | succ ticks =>
      rw [ValueIteratorLocal.refineColumns]
      have hdims : (r.1.passOver (columnStates l.base.dims.nt (l.windowColumn x)) r.2).1.dims =
          l.base.dims :=
        (congrArg Prod.fst (ValueIterator.table_passOver r.1 _ r.2)).trans hd
      rw [ih ticks _ hdims q hq hout]
      refine ValueIterator.stateAt_passOver_of_notMem _ _ ?_ (by rw [hd]; exact hq) ?_
      · intro p hp
        obtain ⟨hcell, hit⟩ := mem_columnStates.mp hp
        have hin := ValueIterator.inMapArea_iff.mp
          (KeepsPolicy.inMapArea_of_window hw (mem_windowColumn hcell))
        rw [hd]
        exact ⟨⟨hin.1, hin.2.1⟩, ⟨hin.2.2.1, hin.2.2.2⟩, hit⟩
      · intro hp
        have hin : l.inLocalArea q.ix q.iy = true := mem_windowColumn (mem_columnStates.mp hp).1
        rw [hin] at hout
        cases hout

theorem repaired_repaired (s : State) : s.repaired.repaired = s.repaired := by
  by_cases h : s.policyInvalidated = true
  · have hs : s.repaired = { s with totalCost := maxCost } := by
      unfold State.repaired
      rw [if_pos h]
    rw [hs]
    unfold State.repaired
    split <;> rfl
  · have hs : s.repaired = s := by
      unfold State.repaired
      rw [if_neg h]
    rw [hs, hs]

/-- States are repaired one after the other, some of them maybe twice. -/
theorem stateAt_foldl_repaired (ps : List Pos) : ∀ vi : ValueIterator,
    (∀ p ∈ ps, vi.dims.Contains p) → ∀ {q : Pos}, vi.dims.Contains q →
      (ps.foldl (fun (v : ValueIterator) p => v.setState p (v.stateAt p).repaired) vi).stateAt q =
        if q ∈ ps then (vi.stateAt q).repaired else vi.stateAt q := by
  induction ps with
  | nil => exact fun _ _ _ _ => rfl
  | cons p ps ih =>
    intro vi hps q hq
    have hp := hps p List.mem_cons_self
    rw [List.foldl_cons, ih (vi.setState p (vi.stateAt p).repaired)
      (fun p' hp' => hps p' (List.mem_cons_of_mem _ hp')) hq, ValueIterator.stateAt_setState hp hq]
    by_cases heq : q = p
    · subst heq
      simp only [if_true, repaired_repaired, ite_self, List.mem_cons, true_or]
    · simp only [List.mem_cons, heq, false_or, if_false]

/-- Values are restored one after the other. -/
theorem stateAt_foldl_restore (cost : Pos → Nat) (es : List (Pos × Nat)) :
    ∀ vi : ValueIterator, (∀ e ∈ es, vi.dims.Contains e.1 ∧ e.2 = cost e.1) →
      ∀ {q : Pos}, vi.dims.Contains q →
        (es.foldl (fun (v : ValueIterator) e =>
          v.setState e.1 { v.stateAt e.1 with totalCost := e.2 }) vi).stateAt q =
            if q ∈ es.map Prod.fst then { vi.stateAt q with totalCost := cost q }
            else vi.stateAt q := by
  induction es with
  | nil => exact fun _ _ _ _ => rfl
  | cons e es ih =>
    intro vi hes q hq
    obtain ⟨hp, hcost⟩ := hes e List.mem_cons_self
    rw [List.foldl_cons, ih (vi.setState e.1 { vi.stateAt e.1 with totalCost := e.2 })
      (fun e' he' => hes e' (List.mem_cons_of_mem _ he')) hq, ValueIterator.stateAt_setState hp hq]
    by_cases heq : q = e.1
    · subst heq
      simp only [if_true, hcost, ite_self, List.map_cons, List.mem_cons, true_or]
    · simp only [List.map_cons, List.mem_cons, heq, false_or, if_false]

theorem contains_haloStates {l : ValueIteratorLocal K} {p : Pos} (hp : p ∈ l.haloStates) :
    l.base.dims.Contains p := by
  unfold ValueIteratorLocal.haloStates at hp
  obtain ⟨hcell, hit⟩ := mem_columnStates.mp hp
  have hin := mem_rect.mp hcell
  simp only [InRect, ValueIteratorLocal.halo, Pos.cell] at hin
  exact ⟨⟨by omega, by omega⟩, ⟨by omega, by omega⟩, hit⟩

/-- Outside of the window a pass leaves everything as it was. -/
theorem stateAt_refinePass {l : ValueIteratorLocal K} (hw : l.WindowInside) (ticks : Nat) {q : Pos}
    (hq : l.base.dims.Contains q) (hout : l.inLocalArea q.ix q.iy = false) :
    (l.refinePass ticks).1.base.stateAt q = l.base.stateAt q := by
  have hmask : l.maskHalo.dims = l.base.dims := congrArg Prod.fst
    (foldl_keeps ValueIterator.table (fun v p => ValueIterator.table_setState v p _) _ l.base)
  have hrefine : (l.refineColumns l.windowXs ticks (l.maskHalo, 0)).1.1.dims = l.base.dims :=
    (congrArg Prod.fst (table_refineColumns l l.windowXs ticks (l.maskHalo, 0))).trans hmask
  have hboundary : ∀ e ∈ l.boundary, (l.refineColumns l.windowXs ticks (l.maskHalo,
      0)).1.1.dims.Contains e.1 ∧ e.2 = (l.base.stateAt e.1).totalCost := by
    intro e he
    obtain ⟨p, hp, rfl⟩ := List.mem_map.mp he
    rw [hrefine]
    exact ⟨contains_haloStates (List.mem_filter.mp hp).1, rfl⟩
  have hlast := stateAt_foldl_restore (fun p => (l.base.stateAt p).totalCost) l.boundary _ hboundary
    (q := q) (by rw [hrefine]; exact hq)
  have hmid := stateAt_refineColumns hw l.windowXs ticks (l.maskHalo, 0) hmask q hq hout
  have hfirst := stateAt_foldl_repaired l.haloStates l.base
    (fun p hp => contains_haloStates hp) hq
  have hmem : q ∈ l.boundary.map Prod.fst ↔
      q ∈ l.haloStates ∧ (l.base.stateAt q).policyInvalidated = true := by
    simp only [ValueIteratorLocal.boundary, List.map_map, List.mem_map, List.mem_filter,
      Function.comp, Bool.and_eq_true, Bool.not_eq_true']
    constructor
    · rintro ⟨p, ⟨hp, hinv, _⟩, rfl⟩
      exact ⟨hp, hinv⟩
    · rintro ⟨hp, hinv⟩
      exact ⟨q, ⟨hp, hinv, hout⟩, rfl⟩
  unfold ValueIteratorLocal.refinePass
  simp only
  rw [hlast, hmid]
  unfold ValueIteratorLocal.maskHalo
  rw [hfirst]
  by_cases hhalo : q ∈ l.haloStates
  · rw [if_pos hhalo]
    by_cases hinv : (l.base.stateAt q).policyInvalidated = true
    · rw [if_pos (hmem.mpr ⟨hhalo, hinv⟩), State.repaired, if_pos hinv]
    · rw [if_neg (fun h => hinv (hmem.mp h).2), State.repaired, if_neg hinv]
  · rw [if_neg hhalo, if_neg (fun h => hhalo (hmem.mp h).1)]

/-- A compact local iterator is the patch's, whose window lies in it. -/
theorem Orderly.windowInside (ho : core.Orderly) {f : CompactField K} {part : Bool}
    (hc : core.cached = some ⟨.compact f, part⟩) {l : ValueIteratorLocal K}
    (hl : core.localVi = some l) : l.WindowInside := by
  unfold localVi at hl
  simp only [hc] at hl
  cases hp : core.patch with
  | none =>
    simp only [hp] at hl
    cases hl
  | some p =>
    simp only [hp] at hl
    obtain ⟨_, _, rfl⟩ := Option.map_eq_some_iff.mp hl
    exact ho.window p hp

theorem CoherentOutside.passWindow (h : core.CoherentOutside) (ho : core.Orderly) (ticks : Nat) :
    (core.passWindow ticks).1.CoherentOutside := by
  unfold PlannerCore.passWindow
  cases hl : core.localVi with
  | none => exact h
  | some l =>
    rcases hc : core.cached with _ | ⟨⟨l₀⟩ | ⟨f⟩, part⟩
    · unfold localVi at hl
      rw [hc] at hl
      cases hl
    · unfold PlannerCore.setLocal
      simp only [hc]
      exact coherent_of_dense rfl
    · exact h.setLocal ho.shaped hl (frame_refinePass l ticks) fun q hq hout =>
        stateAt_refinePass (ho.windowInside hc hl) ticks hq hout

theorem refineColumns_left (l : ValueIteratorLocal K) (xs : List Int) :
    ∀ (ticks : Nat) (r : ValueIterator × Nat), (l.refineColumns xs ticks r).2.2 ≤ ticks ∧
      ((l.refineColumns xs ticks r).2.1 = false → (l.refineColumns xs ticks r).1.2 ≠ r.2 →
        (l.refineColumns xs ticks r).2.2 < ticks) := by
  induction xs with
  | nil => exact fun _ _ => ⟨le_refl _, fun _ h => absurd rfl h⟩
  | cons x xs ih =>
    intro ticks r
    cases ticks with
    | zero => exact ⟨le_refl _, fun h => absurd h Bool.true_eq_false.mp⟩
    | succ ticks =>
      rw [ValueIteratorLocal.refineColumns]
      have hle := (ih ticks (r.1.passOver (columnStates l.base.dims.nt (l.windowColumn x)) r.2)).1
      exact ⟨by omega, fun _ _ => by omega⟩

/-- A round that does not end the loop has used up the clock a little. -/
theorem refineRound_left (ticks : Nat) (h : (core.refineRound ticks).2.2.1 = false) :
    (core.refineRound ticks).2.2.2 < ticks := by
  unfold refineRound at h ⊢
  simp only at h ⊢
  split at h
  · cases h
  · next hgo =>
    rw [if_neg hgo]
    simp only [not_or, Bool.not_eq_true] at hgo
    unfold PlannerCore.passWindow at hgo ⊢
    cases hl : core.localVi with
    | none =>
      simp only [hl] at hgo
      exact absurd hgo.1 nofun
    | some l =>
      simp only [hl, ValueIteratorLocal.refinePass] at hgo ⊢
      exact (refineColumns_left l l.windowXs ticks (l.maskHalo, 0)).2 hgo.1 hgo.2

/-- The last round of a refinement writes the window back. -/
theorem CoherentOutside.refineRound (h : core.CoherentOutside) (ho : core.Orderly) (ticks : Nat) :
    (core.refineRound ticks).1.CoherentOutside ∧
      ((core.refineRound ticks).2.2.1 = true → (core.refineRound ticks).1.Coherent) := by
  have hpass := h.passWindow ho ticks
  have hframe := frame_passWindow core ticks
  have hnote : ((core.passWindow ticks).1.notePass (core.passWindow ticks).2.1).CoherentOutside := by
    have hcopies := contents_notePass (core.passWindow ticks).1 (core.passWindow ticks).2.1
    simp only [contents, Prod.mk.injEq] at hcopies
    exact hpass.of_copies (frame_notePass _ _) hcopies.1 hcopies.2.1
  have hs : ((core.passWindow ticks).1.notePass (core.passWindow ticks).2.1).Shaped := by
    apply ho.shaped.of_frame
    rw [frame_notePass, hframe]
  have hlast := hnote.commitWindow hs
  unfold PlannerCore.refineRound
  simp only
  split
  · split
    · have hcert : AgreesOn (certifyLocal _) _ := hlast.of_copies rfl rfl
      exact ⟨Coherent.on hcert _, fun _ => hcert⟩
    · exact ⟨Coherent.on hlast _, fun _ => hlast⟩
  · exact ⟨hnote, fun h => absurd h nofun⟩

theorem Orderly.refineRound (ho : core.Orderly) (ticks : Nat) :
    (core.refineRound ticks).1.Orderly :=
  ho.of_frame (frame_refineRound core ticks) (keeps_refineRound ho.shaped ho.fits ticks).fits
    (steady_refineRound core ticks)

/-- The fuel of the loop is never used up before the window is written back. -/
theorem CoherentOutside.refineRounds (fuel : Nat) : ∀ (ticks : Nat) {core : PlannerCore K},
    core.CoherentOutside → core.Orderly → ticks < fuel →
      (PlannerCore.refineRounds fuel ticks core).1.Coherent := by
  induction fuel with
  | zero => exact fun _ _ _ _ hlt => absurd hlt (Nat.not_lt_zero _)
  | succ fuel ih =>
    intro ticks core h ho hlt
    obtain ⟨hout, hdone⟩ := h.refineRound ho ticks
    unfold PlannerCore.refineRounds
    simp only
    split
    · next hstop => exact hdone hstop
    · next hgo =>
      have hleft := refineRound_left ticks (Bool.not_eq_true _ ▸ hgo)
      exact ih _ hout (ho.refineRound ticks) (by omega)

theorem Coherent.drainInvalidations (ticks : Nat) : ∀ {core : PlannerCore K}, core.Coherent →
    core.Orderly → (PlannerCore.drainInvalidations ticks core).1.Coherent ∧
      (PlannerCore.drainInvalidations ticks core).1.Orderly := by
  induction ticks with
  | zero =>
    intro core hc ho
    have hadv := hc.advanceInvalidations 512 ho.shaped ho.reverse
    unfold PlannerCore.drainInvalidations
    simp only
    split <;> exact ⟨hadv, ho.advanceInvalidations 512⟩
  | succ ticks ih =>
    intro core hc ho
    have hadv := hc.advanceInvalidations 512 ho.shaped ho.reverse
    unfold PlannerCore.drainInvalidations
    simp only
    split
    · exact ⟨hadv, ho.advanceInvalidations 512⟩
    · exact ih hadv (ho.advanceInvalidations 512)

theorem Coherent.refineFor (hc : core.Coherent) (ho : core.Orderly) (ticks : Nat) :
    (core.refineFor ticks).1.Coherent := by
  obtain ⟨hdrain, hord⟩ := hc.drainInvalidations ticks ho
  unfold PlannerCore.refineFor
  simp only
  split
  · exact hdrain
  · next left _ =>
    exact CoherentOutside.refineRounds (left + 1) left (Coherent.on hdrain _) hord (Nat.lt_succ_self _)

/-- The reread brings every column that is not owned in line. -/
theorem AgreesOn.refreshLocalBoundary (h : core.AgreesOn (· ∈ core.global.owned)) :
    core.refreshLocalBoundary.Coherent := by
  unfold PlannerCore.refreshLocalBoundary
  split
  · next p f part hp hc =>
    split
    · next h0 =>
      refine coherent_of_unplaced ?_
      intro p' hp'
      rw [hp] at hp'
      cases hp'
      exact h0
    · next p0 h0 =>
      intro f' part' p' p0' hf hpt hat q hq hon _
      rw [show core.cached = some ⟨.compact f', part'⟩ from hf] at hc
      cases hc
      cases hpt
      rw [h0] at hat
      cases hat
      have hq' : p.vi.base.dims.Contains q := hq
      have hx : q.ix + p0.1 = p0.1 + q.ix := add_comm _ _
      have hy : q.iy + p0.2 = p0.2 + q.iy := add_comm _ _
      dsimp only
      rw [ValueIterator.stateAt_withStates _ hq']
      simp only [hx, hy, hon, Bool.not_true, Bool.false_eq_true, false_or]
      by_cases hown : ((p0.1 + q.ix, p0.2 + q.iy) : Cell) ∈ core.global.owned
      · rw [if_pos hown]
        exact h f part p p0 hf hp h0 q hq' hon hown
      · rw [if_neg hown]
        exact ⟨rfl, rfl⟩
  · next hne =>
    intro f part p p0 hf hp _
    exact absurd hf (hne p f part hp)

/-- What is known between two columns of a returning job. -/
structure Publishing (core : PlannerCore K) (acc : PlannerCore K × List Cell × List Cell) :
    Prop where
  frame : acc.1.frame = core.frame
  owned : acc.1.global.owned = core.global.owned
  agrees : acc.1.AgreesOn fun g => g ∉ acc.2.1
  changed : ∀ g ∈ acc.2.1, g ∉ core.global.owned

theorem Publishing.publishCell {job : GlobalJob} {acc : PlannerCore K × List Cell × List Cell}
    (h : Publishing core acc) (hs : core.Shaped) {c : Cell}
    (hc : core.build.OnMap (job.globalCell c)) :
    Publishing core (PlannerCore.publishCell job acc c) := by
  have hframe := (frame_publishCell job acc c).trans h.frame
  have hs' : acc.1.Shaped := hs.of_frame h.frame
  have hown : (PlannerCore.publishCell job acc c).1.global.owned = core.global.owned :=
    (steady_publishCell job acc c : acc.1.global.Steady [] _).owned.trans h.owned
  have hon : core.onMap (job.globalCell c) = true := onMap_iff.mpr hc
  have hstay : ∀ acc' : PlannerCore K × List Cell × List Cell, acc'.1.cached = acc.1.cached →
      acc'.1.patch = acc.1.patch → acc'.2.1 = acc.2.1 →
        (acc'.1.AgreesOn fun g => g ∉ acc'.2.1) ∧ ∀ g ∈ acc'.2.1, g ∉ core.global.owned := by
    intro acc' h1 h2 h3
    rw [h3]
    exact ⟨h.agrees.of_copies (by rw [h1]) h2, h.changed⟩
  suffices hrest : ((PlannerCore.publishCell job acc c).1.AgreesOn fun g =>
      g ∉ (PlannerCore.publishCell job acc c).2.1) ∧
        ∀ g ∈ (PlannerCore.publishCell job acc c).2.1, g ∉ core.global.owned from
    ⟨hframe, hown, hrest.1, hrest.2⟩
  clear hframe hown
  unfold PlannerCore.publishCell
  simp only
  split
  · split
    · exact hstay _ rfl rfl rfl
    · exact hstay _ rfl rfl rfl
  · next hfree =>
    rw [h.owned] at hfree
    have hadd : ∀ g ∈ acc.2.1 ++ [job.globalCell c], g ∉ core.global.owned := by
      intro g hg
      rcases List.mem_append.mp hg with hg | hg
      · exact h.changed g hg
      · rw [List.mem_singleton.mp hg]
        exact hfree
    split
    · exact hstay _ rfl rfl rfl
    · split
      · exact hstay _ rfl rfl rfl
      · split
        · exact hstay _ rfl rfl rfl
        · refine ⟨coherent_of_dense rfl, ?_⟩
          simp only
          split
          · exact hadd
          · exact h.changed
      · next f part hcd =>
        split
        · exact hstay _ rfl rfl rfl
        · split
          · refine ⟨?_, hadd⟩
            have hong : f.onMap (job.globalCell c) = true := by
              rw [onMap_sink hs' hcd, onMap_congr h.frame]
              exact hon
            have hd : (f.writeColumn (job.globalCell c) (CompactField.columnOf job.vi c)).sink.dims =
                f.sink.dims := dims_writeColumn f _ _
            intro f' part' p p0 hf hp h0 q hq honq hnew
            cases hf
            simp only [List.mem_append, List.mem_singleton, not_or] at hnew
            have honq' : f.onMap (p0.1 + q.ix, p0.2 + q.iy) = true := by
              unfold CompactField.onMap at honq ⊢
              rw [← hd]
              exact honq
            have hit : 0 ≤ q.it ∧ q.it < acc.1.build.thetaCellNum := by
              have := hq.2.2
              rw [(hs'.patch p hp).2.table.1] at this
              exact this
            have hcon : f.sink.dims.Contains ⟨p0.1 + q.ix, p0.2 + q.iy, q.it⟩ :=
              sink_contains hs' hcd (by rw [← onMap_sink hs' hcd]; exact honq') hit
            have hne : ¬ (⟨p0.1 + q.ix, p0.2 + q.iy, q.it⟩ : Pos).cell = job.globalCell c := hnew.2
            rw [CompactField.read_writeColumn _ hong hcon, if_neg hne]
            exact h.agrees f part p p0 hcd hp h0 q hq honq' hnew.1
          · exact hstay _ rfl rfl rfl

theorem Publishing.foldl {job : GlobalJob} (hs : core.Shaped) (cs : List Cell)
    (hcs : ∀ c ∈ cs, core.build.OnMap (job.globalCell c)) :
    ∀ {acc : PlannerCore K × List Cell × List Cell}, Publishing core acc →
      Publishing core (cs.foldl (PlannerCore.publishCell job) acc) := by
  induction cs with
  | nil => exact fun h => h
  | cons c cs ih =>
    intro acc h
    exact ih (fun c' hc' => hcs c' (List.mem_cons_of_mem _ hc'))
      (h.publishCell hs (hcs c List.mem_cons_self))

theorem Coherent.commitGlobalJob (hc : core.Coherent) (ho : core.Orderly) {job : GlobalJob}
    (hj : job.Legal core.build) : (core.commitGlobalJob job).1.Coherent := by
  have hland : core.landGlobal.Coherent := hc.of_copies rfl rfl
  unfold PlannerCore.commitGlobalJob
  split
  · simp only
    split
    · exact hland.of_contents (contents_enqueueCells _ _)
    · exact hc
  · have hstart : Publishing core.landGlobal (core.landGlobal, [], []) :=
      ⟨rfl, rfl, Coherent.on hland _, nofun⟩
    have hs : core.landGlobal.Shaped := ho.shaped.of_frame rfl
    have hpub := hstart.foldl hs job.cells fun c hcell => hj.covers.onMap c hcell
    simp only
    refine AgreesOn.of_contents ?_ (contents_settleGlobal _)
    generalize job.cells.foldl (PlannerCore.publishCell job) (core.landGlobal, [], []) = acc
      at hpub ⊢
    have hq : acc.1.AgreesOn fun g => g ∉ acc.2.1 := hpub.agrees
    have henq : (acc.1.enqueueCells (acc.2.1 ++ acc.2.2)).AgreesOn fun g => g ∉ acc.2.1 :=
      hq.of_contents (contents_enqueueCells _ _)
    unfold PlannerCore.afterPublish
    simp only
    split
    · next hempty =>
      refine henq.mono ?_
      intro g _
      rw [List.isEmpty_iff.mp hempty]
      exact List.not_mem_nil
    · have howned : (acc.1.enqueueCells (acc.2.1 ++ acc.2.2)).global.owned = core.global.owned := by
        rw [global_enqueueCells]
        exact hpub.owned
      unfold changeBoundary
      refine AgreesOn.refreshLocalBoundary ?_
      refine (henq.mono ?_ : (acc.1.enqueueCells (acc.2.1 ++ acc.2.2)).AgreesOn _).of_copies
        rfl rfl
      intro g hg hin
      have hg' : g ∈ (acc.1.enqueueCells (acc.2.1 ++ acc.2.2)).global.owned := hg
      rw [howned] at hg'
      exact hpub.changed g hin hg'

/-- A local job's write-back changes the columns of its cells only. -/
theorem stateAt_writeLocal {job : LocalJob} {p0 : Cell} (cells : List Cell) :
    ∀ (acc : ValueIterator × List Cell), (∀ c ∈ cells, acc.1.inMapArea
      ((job.globalCell c).1 - p0.1) ((job.globalCell c).2 - p0.2) = true) →
      ∀ {q : Pos}, acc.1.dims.Contains q →
        (∀ c ∈ cells, q.cell ≠ ((job.globalCell c).1 - p0.1, (job.globalCell c).2 - p0.2)) →
          (cells.foldl (fun acc c =>
            let g := job.globalCell c
            let dst : Cell := (g.1 - p0.1, g.2 - p0.2)
            let moved := (List.range job.vi.dims.nt).any fun (t : Nat) =>
              acc.1.columnAt dst t != job.vi.columnAt c t
            (acc.1.writeColumn dst (job.vi.columnAt c), if moved then acc.2 ++ [g] else acc.2))
              acc).1.stateAt q = acc.1.stateAt q := by
  induction cells with
  | nil => exact fun _ _ _ _ _ => rfl
  | cons c cells ih =>
    intro acc hin q hq hne
    have hcol := hin c List.mem_cons_self
    have hdims : (acc.1.writeColumn ((job.globalCell c).1 - p0.1, (job.globalCell c).2 - p0.2)
        (job.vi.columnAt c)).dims = acc.1.dims :=
      congrArg Prod.fst (ValueIterator.table_writeColumn acc.1 _ _)
    rw [List.foldl_cons, ih]
    · rw [ValueIterator.stateAt_writeColumn _ hcol hq, if_neg (hne c List.mem_cons_self)]
    · intro c' hc'
      rw [inMapArea_of_dims hdims]
      exact hin c' (List.mem_cons_of_mem _ hc')
    · rw [hdims]
      exact hq
    · exact fun c' hc' => hne c' (List.mem_cons_of_mem _ hc')

theorem Coherent.commitLocalJob (hc : core.Coherent) (ho : core.Orderly) {job : LocalJob}
    (hj : job.Placed core) : (core.commitLocalJob job).1.Coherent := by
  have hland : core.landLocal.Coherent := hc.of_copies rfl rfl
  unfold PlannerCore.commitLocalJob
  split
  · simp only
    split
    · exact hland
    · exact hc
  · next hmatch =>
    simp only [not_or, not_not] at hmatch
    simp only
    split
    · exact hland
    · next hrev =>
      simp only [not_or, not_not] at hrev
      split
      · exact hland
      · next l hl =>
        have hset : (core.landLocal.setLocal { l with base := (writeLocal job
            (core.landLocal.patchAt.getD (0, 0)) l.base).1 }).CoherentOutside := by
          rcases hcd : core.cached with _ | ⟨⟨l₀⟩ | ⟨f⟩, part⟩
          · unfold localVi landLocal at hl
            rw [hcd] at hl
            cases hl
          · unfold PlannerCore.setLocal landLocal
            simp only [hcd]
            exact coherent_of_dense rfl
          · have hcd' : core.landLocal.cached = some ⟨.compact f, part⟩ := hcd
            have hs : core.landLocal.Shaped := ho.shaped.of_frame rfl
            have hl' : core.localVi = some l := hl
            have hw : l.WindowInside := ho.windowInside hcd hl'
            have horigin : core.landLocal.patchAt.getD (0, 0) = core.localOrigin :=
              (patchAt_getD_eq hs).trans rfl
            have hcells : ∀ c ∈ job.cells, l.inLocalArea
                ((job.globalCell c).1 - core.localOrigin.1)
                ((job.globalCell c).2 - core.localOrigin.2) = true := by
              intro c hcell
              have hown := hj.owned hmatch.1 hrev.2 c hcell
              cases ho.owns with
              | inl hnil =>
                rw [hnil] at hown
                cases hown
              | inr hwin =>
                rw [hwin] at hown
                obtain ⟨_, l', hl'', hin⟩ := mem_windowCells.mp hown
                cases Option.some.inj (hl''.symm.trans hl')
                exact hin
            refine CoherentOutside.setLocal (Coherent.on hland _) hs hl
              (ValueIteratorLocal.frame_withBase (table_writeLocal job _ l.base)) ?_
            intro q hq hout
            rw [horigin]
            refine stateAt_writeLocal job.cells (l.base, []) ?_ hq ?_
            · exact fun c hcell => KeepsPolicy.inMapArea_of_window (c := (_, _)) hw (hcells c hcell)
            · intro c hcell heq
              have hin := hcells c hcell
              simp only [Pos.cell, Prod.mk.injEq] at heq
              rw [← heq.1, ← heq.2, hout] at hin
              cases hin
        have hs₂ := (ho.shaped.of_frame rfl : core.landLocal.Shaped).of_frame
          (frame_setLocal _ hl (ValueIteratorLocal.frame_withBase
            (table_writeLocal job (core.landLocal.patchAt.getD (0, 0)) l.base)))
        refine AgreesOn.of_contents ?_ (contents_settleGlobal _)
        generalize core.landLocal.setLocal { l with base := (writeLocal job
          (core.landLocal.patchAt.getD (0, 0)) l.base).1 } = c₂ at hset hs₂ ⊢
        have hpub : (if c₂.cfg.useCompact = true then c₂.commitWindow else c₂.enqueueCells
            (writeLocal job (core.landLocal.patchAt.getD (0, 0)) l.base).2).Coherent := by
          split
          · exact hset.commitWindow hs₂
          · next hdense =>
            intro f part p p0 hf
            have hs₃ := hs₂.of_frame (frame_enqueueCells c₂
              (writeLocal job (core.landLocal.patchAt.getD (0, 0)) l.base).2)
            have hcfg := congrArg CoreFrame.cfg (frame_enqueueCells c₂
              (writeLocal job (core.landLocal.patchAt.getD (0, 0)) l.base).2)
            have huse := (hs₃.compact f part hf).1
            rw [show (c₂.enqueueCells _).cfg = c₂.cfg from hcfg] at huse
            exact absurd huse hdense
        generalize (if c₂.cfg.useCompact = true then c₂.commitWindow else c₂.enqueueCells
          (writeLocal job (core.landLocal.patchAt.getD (0, 0)) l.base).2) = c₃ at hpub ⊢
        have hvoid : c₃.voidCertificate.Coherent := hpub.of_copies rfl rfl
        split
        · exact hvoid.of_copies rfl rfl
        · exact hvoid

theorem unplaced_prepareGoal (solved : Option (CachedGoal K)) (ho : core.Orderly) :
    ∀ p, (core.prepareGoal solved).patch = some p → p.hydratedAt = none := by
  have hdrop : ∀ p, core.dropGoal.patch = some p → p.hydratedAt = none := by
    intro p hp
    obtain ⟨p₀, _, rfl⟩ := Option.map_eq_some_iff.mp hp
    rfl
  unfold PlannerCore.prepareGoal
  split
  · next core₁ c ht =>
    obtain ⟨_, _, _, _, hpatch⟩ := ho.dropGoal.withTools rfl ht
    have hfresh : ∀ p, core₁.patch = some p → p.hydratedAt = none := by
      intro p hp
      cases hpatch p hp with
      | inl h => exact hdrop p h
      | inr h => exact h
    simp only
    split
    · exact hfresh
    · split
      · exact hfresh
      · intro p hp
        have hseed := contents_seedSweepAll
          ({ core₁ with cached := some c, dirty := true } : PlannerCore K)
        simp only [contents, Prod.mk.injEq] at hseed
        rw [hseed.2.1] at hp
        exact hfresh p hp
  · exact hdrop
  · next ht =>
    obtain ⟨_, _, _, _, hpatch⟩ := ho.dropGoal.withTools rfl ht
    intro p hp
    cases hpatch p hp with
    | inl h => exact hdrop p h
    | inr h => exact h

theorem Coherent.discardPartial (hc : core.Coherent) : core.discardPartial.Coherent := by
  unfold PlannerCore.discardPartial
  split
  · exact coherent_of_empty rfl
  · exact hc

section
variable [Trig K]

/-- A patch that is put elsewhere reads the sink anew. -/
theorem Coherent.placeWindow (hc : core.Coherent) (pose : PoseView K) :
    (core.placeWindow pose).Coherent := by
  unfold PlannerCore.placeWindow
  split
  · exact hc
  · exact coherent_of_dense rfl
  · next f part hcd =>
    split
    · exact hc
    · next p hp =>
      intro f' part' p' p0 hf hp' h0 q hq hon _
      have hf' : core.cached = some ⟨.compact f', part'⟩ := hf
      cases hcd.symm.trans hf'
      cases hp'
      have hbase (l : ValueIteratorLocal K) :
          (l.setLocalWindow pose.x pose.y pose.yawRad).base = l.base :=
        (table_setLocalWindow l _ _ _).1
      simp only [hbase] at hq ⊢
      split at hq
      · next hmove =>
        rw [if_pos hmove] at h0 ⊢
        cases h0
        have hq' : p.vi.base.dims.Contains q := hq
        simp only [Patch.hydrate, hydrateStates]
        rw [ValueIterator.stateAt_withStates _ hq']
        simp only [hydrateState, hon, if_true]
        exact ⟨trivial, trivial⟩
      · next hstay =>
        rw [if_neg hstay] at h0 ⊢
        exact hc f part p p0 hcd hp h0 q hq hon trivial

theorem Coherent.setWindow (hc : core.Coherent) (pose : PoseView K) :
    (core.setWindow pose).Coherent := by
  unfold PlannerCore.setWindow
  split
  · exact hc
  · split
    · exact hc
    · have hplace := hc.placeWindow pose
      simp only
      split
      · exact hplace.of_contents (contents_updateLocalOwnership _)
      · have hvoid : (core.placeWindow pose).invalidateLocalWindow.Coherent :=
          hplace.of_copies rfl rfl
        exact hvoid.of_contents (contents_updateLocalOwnership _)

theorem Coherent.observeScan (hc : core.Coherent) (ho : core.Orderly) (scan : LaserScan K)
    (pose : PoseView K) (shift : Nat) : (core.observeScan scan pose shift).Coherent := by
  refine hc.sense ho ?_
  intro l hw
  let l₁ : ValueIteratorLocal K := { l with
    clearMapFromScan := core.cfg.mapClearFromScan
    scanPenaltyRadius := core.cfg.scanPenaltyRadius
    scanPenalty := core.cfg.scanPenalty }
  have hset : KeepsPolicy l l₁ := ⟨rfl, fun _ _ => ⟨rfl, rfl⟩⟩
  have hw₁ : l₁.WindowInside := hw
  exact hset.trans
    (KeepsPolicy.setLocalCostAttenuated hw₁ scan pose.x pose.y pose.yawRad shift)

end

theorem Coherent.inflateBySigma (hc : core.Coherent) (ho : core.Orderly) (sigma : K) :
    (core.inflateBySigma sigma).Coherent := by
  unfold PlannerCore.inflateBySigma
  simp only
  split
  · exact hc
  · exact hc.sense ho fun l hw => KeepsPolicy.inflateBySigma hw _

end

end PlannerCore

namespace Fleet

variable {K : Type} [Field K] [LinearOrder K] [FloorRing K] [Trig K] {w w' : Fleet K}

open PlannerCore in
/-- Step lemma: no operation leaves the two copies apart. -/
theorem coherent_step (ho : w.Orderly) (hc : w.core.Coherent) (op : Op K) (hsound : w.Sound op)
    (hstep : w.step op = some w') : w'.core.Coherent := by
  cases op with
  | prepareGoal solved =>
    cases hstep
    exact coherent_of_unplaced (unplaced_prepareGoal solved ho.core)
  | discardPartial =>
    cases hstep
    exact hc.discardPartial
  | setWindow pose =>
    cases hstep
    exact hc.setWindow pose
  | observeScan scan pose shift =>
    cases hstep
    exact hc.observeScan ho.core scan pose shift
  | inflateBySigma sigma =>
    cases hstep
    exact hc.inflateBySigma ho.core sigma
  | claimLocal =>
    cases hstep
    exact hc.of_contents (contents_claimLocal _)
  | releaseLocal owner =>
    cases hstep
    exact hc.of_contents (contents_releaseLocal _ owner)
  | advanceInvalidations budget =>
    cases hstep
    exact hc.advanceInvalidations budget ho.core.shaped ho.core.reverse
  | refineFor ticks =>
    cases hstep
    exact hc.refineFor ho.core ticks
  | restartGlobalCheck =>
    cases hstep
    exact hc.of_contents (contents_restartGlobalCheck _)
  | prepareGlobalJob maxStates =>
    obtain ⟨r, hr, rfl⟩ := Option.map_eq_some_iff.mp hstep
    exact (hc.advanceInvalidations _ ho.core.shaped ho.core.reverse).of_contents
      (contents_prepareGlobalJob _ hr)
  | runGlobalJob i =>
    obtain ⟨job, _, rfl⟩ := Option.map_eq_some_iff.mp hstep
    exact hc
  | commitGlobalJob i =>
    obtain ⟨job, hj, rfl⟩ := Option.map_eq_some_iff.mp hstep
    exact hc.commitGlobalJob ho.core (ho.globals job (List.mem_of_getElem? hj))
  | prepareLocalJob =>
    cases hstep
    exact (hc.advanceInvalidations 512 ho.core.shaped ho.core.reverse).of_contents
      (contents_prepareLocalJob _)
  | runLocalJob i threads =>
    obtain ⟨job, _, rfl⟩ := Option.map_eq_some_iff.mp hstep
    exact hc
  | commitLocalJob i =>
    obtain ⟨job, hj, rfl⟩ := Option.map_eq_some_iff.mp hstep
    exact hc.commitLocalJob ho.core (ho.locals job (List.mem_of_getElem? hj))

/-- Run lemma: in every run the invariant and both copies hold. -/
theorem orderly_coherent {build : BuildParams K} {cfg : PlanConfig K}
    (h : Transition.GuardedRun step Sound (start build cfg) w) :
    w.Orderly ∧ w.core.Coherent := by
  refine h.invariant (I := fun w => w.Orderly ∧ w.core.Coherent) ⟨orderly_start build cfg, ?_⟩ ?_
  · exact PlannerCore.coherent_of_empty rfl
  · exact fun x op y hx hg hs => ⟨hx.1.step op hg hs, coherent_step hx.1 hx.2 op hg hs⟩

/-- Between two operations, the hydrated patch and the sink hold the same values and the
same actions wherever the patch lies on the map. -/
theorem patch_coherent {build : BuildParams K} {cfg : PlanConfig K}
    (h : Transition.GuardedRun step Sound (start build cfg) w) {f : CompactField K} {part : Bool}
    (hf : w.core.cached = some ⟨.compact f, part⟩) {p : Patch K} (hp : w.core.patch = some p)
    {p0 : Cell} (h0 : p.hydratedAt = some p0) {q : Pos} (hq : p.vi.base.dims.Contains q)
    (hon : f.onMap (p0.1 + q.ix, p0.2 + q.iy) = true) :
    let u := f.read ⟨p0.1 + q.ix, p0.2 + q.iy, q.it⟩
    (p.vi.base.stateAt q).totalCost = u.1 ∧
      (p.vi.base.stateAt q).optimalAction = stateAction u.2 :=
  (orderly_coherent h).2 f part p p0 hf hp h0 q hq hon trivial

end Fleet

/-- A robot that never turns. -/
abbrev levelTrig : Trig ℚ := ⟨fun _ => 1, fun _ => 0⟩

/-- The corridor's field in a sink. -/
def corridorSink : CompactField ℚ where
  sink := Grid.ofFn ⟨2, 1, 1⟩ fun p => if p.ix = 1 then (0, -1) else (probBase, 0)
  resolution := 1
  origin := (0, 0)

/-- A solved goal, a placed window, a scan, a refinement and both kinds of jobs. -/
def corridorPatrol : List (Op ℚ) :=
  [.setWindow ⟨1 / 2, 1 / 2, 0⟩, .claimLocal, .observeScan ⟨0, 0, [1]⟩ ⟨1 / 2, 1 / 2, 0⟩ 0,
    .refineFor 20, .prepareLocalJob, .runLocalJob 0 1, .commitLocalJob 0, .prepareGlobalJob 100]

/-- The core with the goal of the corridor in its sink. -/
def corridorReady : Fleet ℚ :=
  (Fleet.start PlannerCore.corridorBuild ⟨true, 1, 10000, 0, false, true⟩).onCore
    (·.prepareGoal (some ⟨.compact corridorSink, false⟩))

namespace Fleet

theorem run_corridorReady [Trig ℚ] : Transition.GuardedRun step Sound
    (start PlannerCore.corridorBuild ⟨true, 1, 10000, 0, false, true⟩) corridorReady := by
  refine .tail (.prepareGoal (some ⟨.compact corridorSink, false⟩)) (.refl _) ?_ rfl
  intro c hc
  cases hc
  exact ⟨rfl, rfl⟩

/-- Where the patrol ends: the patch is placed around the robot. -/
theorem corridorPatrol_ends : ((@Transition.exec _ _ (@step ℚ _ _ _ levelTrig) (fun _ op =>
    match op with | .prepareGoal _ => false | _ => true) corridorReady corridorPatrol).any fun w =>
      match w.core.cached, w.core.patch with
      | some ⟨.compact f, _⟩, some p => decide (p.hydratedAt = some (-5, -5)) &&
          decide (p.vi.base.dims = ⟨11, 11, 1⟩) && f.onMap (0, 0)
      | _, _ => false) = true := by
  decide +kernel

/-- The copies agree after a patrol through the corridor. -/
theorem corridor_coherent : ∃ w f part p,
    @Transition.GuardedRun _ _ (@step ℚ _ _ _ levelTrig) Sound
      (start PlannerCore.corridorBuild ⟨true, 1, 10000, 0, false, true⟩) w ∧
      w.core.cached = some ⟨.compact f, part⟩ ∧ w.core.patch = some p ∧
      p.hydratedAt = some (-5, -5) ∧
      (p.vi.base.stateAt ⟨5, 5, 0⟩).totalCost = (f.read ⟨0, 0, 0⟩).1 ∧
      (p.vi.base.stateAt ⟨5, 5, 0⟩).optimalAction = stateAction (f.read ⟨0, 0, 0⟩).2 := by
  let _ : Trig ℚ := levelTrig
  obtain ⟨w, hw, hend⟩ := (Option.any_eq_true _ _).mp corridorPatrol_ends
  have hrun : Transition.GuardedRun step Sound
      (start PlannerCore.corridorBuild ⟨true, 1, 10000, 0, false, true⟩) w := by
    refine run_corridorReady.trans ((Transition.guardedRun_of_exec hw).mono ?_)
    intro x op hop
    cases op <;> trivial
  split at hend
  · next f part p hf hp =>
    simp only [Bool.and_eq_true, decide_eq_true_eq] at hend
    obtain ⟨⟨h0, hd⟩, hon⟩ := hend
    have hq : p.vi.base.dims.Contains ⟨5, 5, 0⟩ := by
      rw [hd]
      decide
    exact ⟨w, f, part, p, hrun, hf, hp, h0, patch_coherent hrun hf hp h0 hq hon⟩
  · cases hend

end Fleet

end ValueIteration
